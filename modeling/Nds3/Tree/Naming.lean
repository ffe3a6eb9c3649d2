import Nds3.Tree.Element
import Mathlib.Data.List.AList

/-!
# Names

The naming rules of `FactoryBaseImpl` and the builders of the full names. A builder walks from an
element to the root through `m_pParent`; here it is given the path, the element first. The three
`buildFullExternalName` (of nodes, input PVs and output PVs) differ in the rule that names the
element, its `Role`, and in nothing else.

Node levels are natural numbers: a path as long as the range of `std::uint32_t` is out of reach.
-/

namespace Nds3

/-- `m_sections` of an `IniFileParserImpl`. -/
abbrev Sections := AList fun _ : String => AList fun _ : String => String

def missingSection (section_ : String) : Exn :=
  ⟨.INIParserMissingSection, "The section " ++ section_ ++ " is missing from the INI file"⟩

/-- `IniFileParserImpl::getString`. -/
def Sections.getString (sections : Sections) (section_ key defaultValue : String) :
    Except Exn String :=
  if key = "" then .ok defaultValue
  else
    match sections.lookup section_ with
    | none => .error (missingSection section_)
    | some keys => .ok ((keys.lookup key).getD defaultValue)

/-- `IniFileParserImpl::keyExists`. -/
def Sections.keyExists (sections : Sections) (section_ key : String) : Except Exn Bool :=
  match sections.lookup section_ with
  | none => .error (missingSection section_)
  | some keys => .ok (keys.lookup key).isSome

/-- A conversion specification on its way to the conversion character. -/
structure Conversion where
  left : Bool
  width : Nat
  precision : Option Nat

/-- `%s`: cut to the precision and padded to the width. -/
def Conversion.string (d : Conversion) (arg : List Char) : List Char :=
  let arg := (d.precision.map arg.take).getD arg
  let padding := List.replicate (d.width - arg.length) ' '
  if d.left then arg ++ padding else padding ++ arg

/-- The output of `printf` for a format with one string argument. A conversion other than `%s` and
`%%` has no argument to take, which is undefined; it prints nothing here. -/
def formatString (arg : List Char) : Option Conversion → List Char → List Char
  | _, [] => []
  | none, c :: cs =>
    if c = '%' then formatString arg (some ⟨false, 0, none⟩) cs else c :: formatString arg none cs
  | some d, c :: cs =>
    if c = 's' then d.string arg ++ formatString arg none cs
    else if c = '%' then '%' :: formatString arg none cs
    else if c.isDigit then
      let digit := c.toNat - '0'.toNat
      match d.precision with
      | none => formatString arg (some { d with width := 10 * d.width + digit }) cs
      | some n => formatString arg (some { d with precision := some (10 * n + digit) }) cs
    else if c = '.' then formatString arg (some { d with precision := some 0 }) cs
    else if c = '-' then formatString arg (some { d with left := true }) cs
    else if c = '+' ∨ c = ' ' ∨ c = '#' then formatString arg (some d) cs
    else formatString arg none cs

/-- What a function that takes a C string reads. -/
def cStr (s : String) : List Char := s.toList.takeWhile (· ≠ '\x00')

/-- `snprintf` into a buffer of 1024 characters. -/
def snprintf (rule name : String) : String :=
  String.ofList ((formatString (cStr name) none (cStr rule)).take 1023)

/-- The naming members of a `FactoryBaseImpl`. -/
structure Naming where
  namingRules : Option Sections
  namingRulesName : String
  /-- `getDefaultSeparator`. -/
  getDefaultSeparator : Nat → String

namespace Naming

variable (cs : Naming)

/-- The naming rules to follow, unless there are none or none is selected. -/
def active : Option Sections := if cs.namingRulesName = "" then none else cs.namingRules

def getSeparator (nodeLevel : Nat) : Except Exn String :=
  match cs.active with
  | none => .ok (cs.getDefaultSeparator nodeLevel)
  | some rules =>
    match nodeLevel with
    | 0 => rules.getString cs.namingRulesName "separator0" (cs.getDefaultSeparator 0)
    | level + 1 => do
      let thisLevelKey := "separator" ++ toString (level + 1)
      let separator1 ← rules.keyExists cs.namingRulesName "separator1"
      let separator0 ← rules.keyExists cs.namingRulesName "separator0"
      if separator1 || separator0 then
        rules.getString cs.namingRulesName thisLevelKey (← getSeparator level)
      else
        rules.getString cs.namingRulesName thisLevelKey (cs.getDefaultSeparator (level + 1))

/-- The nested calls of `getString` in `buildNameFromRule`: the first of the rules that exists. -/
def findRule (rules : Sections) : List String → Except Exn String
  | [] => .ok "%s"
  | key :: keys => do rules.getString cs.namingRulesName key (← findRule rules keys)

def buildNameFromRule (name : String) (ruleKeys : List String) : Except Exn String :=
  match cs.active with
  | none => .ok name
  | some rules => do
    let rule ← cs.findRule rules ruleKeys
    let toUpper ← rules.getString cs.namingRulesName "toUpper" "0"
    let toLower ← rules.getString cs.namingRulesName "toLower" "0"
    let adjustedName := if toLower = "1" then name.map Char.toLower
      else if toUpper = "1" then name.map Char.toUpper else name
    return (snprintf rule adjustedName).map fun c => if c = ' ' then '0' else c

def getRootNodeName (name : String) := cs.buildNameFromRule name ["rootNode", "genericNode"]

def getGenericChannelName (name : String) := cs.buildNameFromRule name ["genericNode"]

def getInputChannelName (name : String) :=
  cs.buildNameFromRule name ["inputNode", "sourceNode", "genericNode"]

def getOutputChannelName (name : String) :=
  cs.buildNameFromRule name ["outputNode", "sinkNode", "genericNode"]

def getSourceChannelName (name : String) :=
  cs.buildNameFromRule name ["sourceNode", "inputNode", "genericNode"]

def getSinkChannelName (name : String) :=
  cs.buildNameFromRule name ["sinkNode", "outputNode", "genericNode"]

def getInputPVName (name : String) := cs.buildNameFromRule name ["inputPV", "genericPV"]

def getOutputPVName (name : String) := cs.buildNameFromRule name ["outputPV", "genericPV"]

def getStateMachineNodeName (name : String) :=
  cs.buildNameFromRule name ["stateMachineNode", "genericNode"]

def getStateMachineSetStateName (name : String) :=
  cs.buildNameFromRule name ["setStatePV", "outputPV", "genericPV"]

def getStateMachineGetStateName (name : String) :=
  cs.buildNameFromRule name ["getStatePV", "inputPV", "genericPV"]

def getStateMachineGetGlobalStateName (name : String) :=
  cs.buildNameFromRule name ["getGlobalStatePV", "inputPV", "genericPV"]

end Naming

/-- What decides the rule that names an element. -/
inductive Role where
  | node (nodeType : NodeType)
  | inputPV (pvType : InputPvType)
  | outputPV (pvType : OutputPvType)
  deriving DecidableEq

/-- The `switch` of the three builders. -/
def Role.buildName (cs : Naming) (name : String) : Role → Except Exn String
  | .node .generic => cs.getGenericChannelName name
  | .node .inputChannel => cs.getInputChannelName name
  | .node .outputChannel => cs.getOutputChannelName name
  | .node .dataSourceChannel => cs.getSourceChannelName name
  | .node .dataSinkChannel => cs.getSinkChannelName name
  | .node .stateMachine => cs.getStateMachineNodeName name
  | .inputPV .generic => cs.getInputPVName name
  | .inputPV .getLocalState => cs.getStateMachineGetStateName name
  | .inputPV .getGlobalState => cs.getStateMachineGetGlobalStateName name
  | .outputPV .generic => cs.getOutputPVName name
  | .outputPV .setLocalState => cs.getStateMachineSetStateName name

/-- What the builders read of an element. -/
structure Link where
  name : String
  externalName : String
  role : Role
  isPort : Bool
  nodeLevel : Nat
  deriving DecidableEq

namespace Element

/-- `m_pvType` or `m_nodeType`. -/
def role : Element → Role
  | inputPV _ _ _ t => .inputPV t
  | outputPV _ _ _ t => .outputPV t
  | node _ _ t _ _ => .node t
  | stateMachine _ _ _ => .node .stateMachine

/-- Whether the element is a `PortImpl`. -/
def isPort : Element → Bool
  | node _ _ _ (.portImpl _) _ => true
  | _ => false

def link (e : Element) : Link :=
  ⟨e.name, e.base.externalName, e.role, e.isPort, e.base.nodeLevel⟩

end Element

def buildFullName : List Link → String
  | [] => ""
  | [root] => root.name
  | e :: path => buildFullName path ++ "-" ++ e.name

def buildFullNameFromPort : List Link → String
  | [] => ""
  | e :: path =>
    if e.isPort then ""
    else
      let parentName := buildFullNameFromPort path
      if parentName = "" then e.name else parentName ++ "-" ++ e.name

/-- `buildFullExternalName(controlSystem, bStopAtPort)`. With `bStopAtPort` the parent's part is
`buildFullExternalNameFromPort`, which is empty for a port. -/
def buildFullExternalNameOf (cs : Naming) (bStopAtPort : Bool) : List Link → Except Exn String
  | [] => .ok ""
  | [root] => do return (← cs.getSeparator 0) ++ (← cs.getRootNodeName root.externalName)
  | e :: parent :: path => do
    let name ← e.role.buildName cs e.externalName
    let parentName := if bStopAtPort && parent.isPort then .ok ""
      else buildFullExternalNameOf cs bStopAtPort (parent :: path)
    if name = "" then parentName
    else return (← parentName) ++ (← cs.getSeparator e.nodeLevel) ++ name

/-- `buildFullExternalName(controlSystem)`. -/
def buildFullExternalName (cs : Naming) (path : List Link) : Except Exn String :=
  buildFullExternalNameOf cs false path

/-- `buildFullExternalNameFromPort(controlSystem)`, which `PortImpl` overrides. -/
def buildFullExternalNameFromPort (cs : Naming) : List Link → Except Exn String
  | [] => .ok ""
  | e :: path => if e.isPort then .ok "" else buildFullExternalNameOf cs true (e :: path)

/-! ## What the rules give -/

/-- The naming rules to follow are in a section that does not exist. -/
def Naming.sectionMissing (cs : Naming) : Bool :=
  match cs.active with
  | none => false
  | some rules => (rules.lookup cs.namingRulesName).isNone

/-- The separators and the names that a control system gives. -/
structure Naming.Gives (cs : Naming) (separator : Nat → String) (name : Role → String → String)
    (rootName : String → String) : Prop where
  getSeparator : ∀ nodeLevel, cs.getSeparator nodeLevel = .ok (separator nodeLevel)
  buildName : ∀ (role : Role) n, role.buildName cs n = .ok (name role n)
  getRootNodeName : ∀ n, cs.getRootNodeName n = .ok (rootName n)

namespace Naming

variable {cs : Naming}

theorem getString_ok {rules : Sections} {section_ : String}
    (h : (rules.lookup section_).isSome) (key defaultValue : String) :
    ∃ v, rules.getString section_ key defaultValue = .ok v := by
  obtain ⟨keys, hk⟩ := Option.isSome_iff_exists.mp h
  unfold Sections.getString
  split
  · exact ⟨_, rfl⟩
  · exact ⟨_, by rw [hk]⟩

theorem keyExists_ok {rules : Sections} {section_ : String}
    (h : (rules.lookup section_).isSome) (key : String) :
    ∃ v, rules.keyExists section_ key = .ok v := by
  obtain ⟨keys, hk⟩ := Option.isSome_iff_exists.mp h
  exact ⟨_, by rw [Sections.keyExists, hk]⟩

theorem isSome_of_active (h : cs.sectionMissing = false) {rules : Sections}
    (ha : cs.active = some rules) : (rules.lookup cs.namingRulesName).isSome := by
  rw [sectionMissing, ha] at h
  simpa using h

theorem getSeparator_ok (h : cs.sectionMissing = false) (nodeLevel : Nat) :
    ∃ s, cs.getSeparator nodeLevel = .ok s := by
  cases ha : cs.active with
  | none => exact ⟨cs.getDefaultSeparator nodeLevel, by unfold getSeparator; rw [ha]⟩
  | some rules =>
    have hr := isSome_of_active h ha
    induction nodeLevel with
    | zero =>
      obtain ⟨v, hv⟩ := getString_ok hr "separator0" (cs.getDefaultSeparator 0)
      exact ⟨v, by unfold getSeparator; rw [ha]; exact hv⟩
    | succ level ih =>
      obtain ⟨s, hs⟩ := ih
      obtain ⟨b1, h1⟩ := keyExists_ok hr "separator1"
      obtain ⟨b0, h0⟩ := keyExists_ok hr "separator0"
      obtain ⟨v, hv⟩ := getString_ok hr ("separator" ++ toString (level + 1)) s
      obtain ⟨v', hv'⟩ := getString_ok hr ("separator" ++ toString (level + 1))
        (cs.getDefaultSeparator (level + 1))
      refine ⟨if b1 || b0 then v else v', ?_⟩
      unfold getSeparator
      rw [ha]
      simp only [h1, h0, hs, bind, Except.bind]
      split
      · exact hv
      · exact hv'

theorem findRule_ok {rules : Sections} (h : (rules.lookup cs.namingRulesName).isSome)
    (ruleKeys : List String) : ∃ rule, cs.findRule rules ruleKeys = .ok rule := by
  induction ruleKeys with
  | nil => exact ⟨_, rfl⟩
  | cons key keys ih =>
    obtain ⟨rule, hrule⟩ := ih
    obtain ⟨v, hv⟩ := getString_ok h key rule
    refine ⟨v, ?_⟩
    rw [findRule, hrule]
    exact hv

theorem buildNameFromRule_ok (h : cs.sectionMissing = false) (name : String)
    (ruleKeys : List String) : ∃ s, cs.buildNameFromRule name ruleKeys = .ok s := by
  cases ha : cs.active with
  | none => exact ⟨name, by rw [buildNameFromRule, ha]⟩
  | some rules =>
    have hr := isSome_of_active h ha
    obtain ⟨rule, hrule⟩ := findRule_ok hr ruleKeys
    obtain ⟨u, hu⟩ := getString_ok hr "toUpper" "0"
    obtain ⟨l, hl⟩ := getString_ok hr "toLower" "0"
    rw [buildNameFromRule, ha]
    simp only [hrule, hu, hl, bind, Except.bind, pure, Except.pure, Except.ok.injEq,
      exists_eq']

/-- Every separator and every name can be built, unless the section is missing. -/
theorem exists_gives (h : cs.sectionMissing = false) :
    ∃ separator name rootName, cs.Gives separator name rootName := by
  have hname : ∀ role : Role, ∀ n, ∃ s, role.buildName cs n = .ok s := by
    intro role n
    cases role with
    | node t => cases t <;> exact buildNameFromRule_ok h ..
    | inputPV t => cases t <;> exact buildNameFromRule_ok h ..
    | outputPV t => cases t <;> exact buildNameFromRule_ok h ..
  choose separator hseparator using getSeparator_ok h
  choose name hname using hname
  choose rootName hroot using fun n => buildNameFromRule_ok h n ["rootNode", "genericNode"]
  exact ⟨separator, name, rootName, hseparator, hname, hroot⟩

theorem getSeparator_missing (h : cs.sectionMissing = true) :
    cs.getSeparator 0 = .error (missingSection cs.namingRulesName) := by
  unfold sectionMissing at h
  split at h
  · cases h
  · next rules ha =>
    rw [Option.isNone_iff_eq_none] at h
    unfold getSeparator
    rw [ha]
    simp [Sections.getString, h]

end Naming

end Nds3
