import Nds3.Tree.RoundTrip
import Nds3.Tree.Rules
import Nds3.Tree.Shape

/-!
# The names of the PVs of a state machine

There are rules for the PVs that set and read the states, but the constructor of `StateMachineImpl`
gives its PVs the generic types, so that their names follow the rules of the other PVs.
-/

namespace Nds3

open Element

/-- The PVs that the constructor of `StateMachineImpl` adds. -/
inductive MachinePV where
  | setState
  | getState
  | getGlobalState
  deriving DecidableEq

namespace MachinePV

def name : MachinePV → String
  | setState => "setState"
  | getState => "getState"
  | getGlobalState => "getGlobalState"

/-- What the constructor makes of the PV. -/
def role : MachinePV → Role
  | setState => .outputPV .generic
  | getState | getGlobalState => .inputPV .generic

/-- The type that there is for the PV. -/
def ownRole : MachinePV → Role
  | setState => .outputPV .setLocalState
  | getState => .inputPV .getLocalState
  | getGlobalState => .inputPV .getGlobalState

/-- The rule for the PV. -/
def rule : MachinePV → String
  | setState => "setStatePV"
  | getState => "getStatePV"
  | getGlobalState => "getGlobalStatePV"

/-- The rules that count when there is none for the PV. -/
def otherRules : MachinePV → List String
  | setState => ["outputPV", "genericPV"]
  | getState | getGlobalState => ["inputPV", "genericPV"]

variable (pv : MachinePV) (cs : Naming) (n : String)

theorem buildName_role : pv.role.buildName cs n = cs.buildNameFromRule n pv.otherRules := by
  cases pv <;> rfl

theorem buildName_ownRole :
    pv.ownRole.buildName cs n = cs.buildNameFromRule n (pv.rule :: pv.otherRules) := by
  cases pv <;> rfl

theorem rule_ne_empty : pv.rule ≠ "" := by
  cases pv <;> decide

end MachinePV

namespace Element

/-- Every state machine has the PVs of its constructor. -/
def HasMachinePVs (e : Element) : Prop :=
  ∀ path m, e.Below path m → m.machine?.isSome →
    ∀ pv : MachinePV, ∃ c ∈ m.children, c.name = pv.name ∧ c.role = pv.role

theorem hasMachinePVs_stateMachineImpl (setState getState getGlobalState : Nat) (u : Timespec) :
    (stateMachineImpl setState getState getGlobalState u).HasMachinePVs := by
  intro path m h hm pv
  cases h with
  | refl =>
    cases pv with
    | setState => exact ⟨_, .tail _ (.tail _ (.head _)), rfl, rfl⟩
    | getState => exact ⟨_, .tail _ (.head _), rfl, rfl⟩
    | getGlobalState => exact ⟨_, .head _, rfl, rfl⟩
  | child hc h =>
    -- There are no machines among them.
    simp only [stateMachineImpl, children, List.mem_cons, List.not_mem_nil, or_false] at hc
    rcases hc with rfl | rfl | rfl
    all_goals
      cases h with
      | refl => cases hm
      | child hc _ => cases hc

theorem HasMachinePVs.of_children {e : Element} (h : ∀ c ∈ e.children, c.HasMachinePVs)
    (hm : e.machine?.isSome → ∀ pv : MachinePV, ∃ c ∈ e.children, c.name = pv.name ∧
      c.role = pv.role) : e.HasMachinePVs := by
  intro path m hpath
  cases hpath with
  | refl => exact hm
  | child hc hpath => exact h _ hc _ _ hpath

theorem HasMachinePVs.addChild {n : String} {b b' b'' : Base} {t : NodeType} {k : NodeClass}
    {children children' : List Element} {child : Element} (hs : Sorted children)
    (h : (node n b t k children).HasMachinePVs) (hc : child.HasMachinePVs)
    (ha : addChild b' children child = .ok (b'', children')) :
    (node n b'' t k children').HasMachinePVs := by
  refine .of_children (fun c hmem => ?_) fun hm => by cases hm
  obtain rfl | hmem := ((addChild_ok ha hs).2 c).mp hmem
  · exact hc
  · exact fun path m hpath => h _ m (.child hmem hpath)

theorem HasMachinePVs.of_bare {e e' : Element} (h : e.HasMachinePVs) (hb : e.bare = e'.bare) :
    e'.HasMachinePVs := by
  intro path' m' hm' hsome pv
  obtain ⟨path, m, hm, hbare, -⟩ := hm'.of_bare hb
  rw [← isSome_machine?_bare, ← hbare, isSome_machine?_bare] at hsome
  obtain ⟨c, hc, hname, hrole⟩ := h path m hm hsome pv
  obtain ⟨c', hc', hcb⟩ := exists_child_of_bare hbare.symm hc
  exact ⟨c', hc', by rw [← name_bare, hcb, name_bare, hname],
    by rw [← role_bare, hcb, role_bare, hrole]⟩

/-- The external names of the element are those of its parent and a last component, behind the
separator of its level. There is nothing to separate when the component is empty. -/
def LastComponent (cs : Naming) (parent e : Element) (component : String) : Prop :=
  ∃ separator, cs.getSeparator e.base.nodeLevel = .ok separator ∧
    e.base.cachedFullExternalName = parent.base.cachedFullExternalName ++
      (if component = "" then "" else separator ++ component) ∧
    e.base.cachedFullExternalNameFromPort = parent.base.cachedFullExternalNameFromPort ++
      (if component = "" then "" else separator ++ component)

theorem LastComponent.unique {cs : Naming} {parent e : Element} {component component' : String}
    (h : LastComponent cs parent e component) (h' : LastComponent cs parent e component') :
    component = component' := by
  obtain ⟨s, hs, hname, -⟩ := h
  obtain ⟨s', hs', hname', -⟩ := h'
  rw [hs] at hs'
  obtain rfl := Except.ok.inj hs'
  rw [hname, String.append_right_inj] at hname'
  split at hname'
  · next hc =>
    split at hname'
    · next hc' => rw [hc, hc']
    · next hc' => exact absurd (String.append_eq_empty_iff.mp hname'.symm).2 hc'
  · next hc =>
    split at hname'
    · exact absurd (String.append_eq_empty_iff.mp hname').2 hc
    · rwa [String.append_right_inj] at hname'

end Element

theorem lastComponent_of_named {cs : Naming} {root parent e : Element} {path : List Element}
    (h : Named cs [] root) (hp : root.Below path parent) (hport : parent.isPort = false)
    (he : e ∈ parent.children) (hport' : e.isPort = false) :
    ∃ component, e.role.buildName cs e.base.externalName = .ok component ∧
      LastComponent cs parent e component := by
  obtain ⟨separator, name, rootName, hg⟩ := Naming.exists_gives (sectionMissing_of_named h)
  obtain ⟨above, habove⟩ := hp.links []
  have hlinks : (((path ++ [e]).map link).reverse ++ root.link :: [] : List Link) =
      e.link :: parent.link :: above := by
    rw [List.map_append, List.reverse_append, List.append_assoc, habove]
    rfl
  have hparent := h.fullExternalName path parent hp
  have hparent' := h.fullExternalNameFromPort path parent hp
  have hname := h.fullExternalName _ e (hp.concat he)
  have hname' := h.fullExternalNameFromPort _ e (hp.concat he)
  rw [habove] at hparent hparent'
  rw [hlinks] at hname hname'
  have hlink : parent.link.isPort = false := hport
  rw [buildFullExternalNameFromPort, if_neg (by simp [hlink])] at hparent'
  rw [buildFullExternalNameFromPort, if_neg (by rw [show e.link.isPort = false from hport']; simp)]
    at hname'
  have hwhole := @buildFullExternalNameOf_cons cs separator name rootName hg false e.link
    parent.link above _ hparent
  have hfrom := @buildFullExternalNameOf_cons cs separator name rootName hg true e.link
    parent.link above parent.base.cachedFullExternalNameFromPort (by rw [hlink]; exact hparent')
  exact ⟨_, hg.buildName _ _, _, hg.getSeparator _, Except.ok.inj (hname.symm.trans hwhole),
    Except.ok.inj (hname'.symm.trans hfrom)⟩

/-- The last component of the PV is what the first of these rules that is defined makes of its
external name. -/
def FollowsRules (cs : Naming) (machine e : Element) (ruleKeys : List String) : Prop :=
  ∃ component, cs.buildNameFromRule e.base.externalName ruleKeys = .ok component ∧
    LastComponent cs machine e component

/-- A rule that a section does not define does not count. -/
theorem buildNameFromRule_undefined {cs : Naming} {rules : Sections}
    {keys : AList fun _ : String => String} (ha : cs.active = some rules)
    (hk : rules.lookup cs.namingRulesName = some keys) {rule : String} (hr : rule ≠ "")
    (hn : keys.lookup rule = none) (n : String) (ruleKeys : List String) :
    cs.buildNameFromRule n (rule :: ruleKeys) = cs.buildNameFromRule n ruleKeys := by
  have hfind : cs.findRule rules (rule :: ruleKeys) = cs.findRule rules ruleKeys := by
    rw [Naming.findRule]
    cases cs.findRule rules ruleKeys with
    | error e => rfl
    | ok r =>
      simp only [bind, Except.bind, Sections.getString, if_neg hr, hk, hn, Option.getD_none]
  rw [Naming.buildNameFromRule, ha, Naming.buildNameFromRule, ha]
  simp only [hfind]

section

variable {cs : ControlSystem} {pDeviceObject : Nat} {root root' : Element} {w w' : World}

theorem role_of_machinePV (hw : root.WellFormed) (hb : root.HasMachinePVs)
    (h : initializeRootNode cs pDeviceObject root w = .ok root' w') {path : List Element}
    {machine : Element} (hm : root'.Below path machine) (hs : machine.machine?.isSome)
    (pv : MachinePV) : (∃ e ∈ machine.children, e.name = pv.name) ∧
      ∀ e ∈ machine.children, e.name = pv.name → e.role = pv.role := by
  have hbare := (initializeRootNode_kept h).bare.symm
  obtain ⟨c, hc, hname, hrole⟩ := hb.of_bare hbare path machine hm hs pv
  refine ⟨⟨c, hc, hname⟩, fun e he hn => ?_⟩
  obtain rfl : e = c := List.inj_on_of_nodup_map
    (hw.distinctSiblings.of_bare hbare path machine hm) he hc (hn.trans hname.symm)
  exact hrole

theorem machinePV_followsOtherRules (hw : root.WellFormed) (hb : root.HasMachinePVs)
    (h : initializeRootNode cs pDeviceObject root w = .ok root' w') {path : List Element}
    {machine e : Element} (hm : root'.Below path machine) (hs : machine.machine?.isSome)
    {pv : MachinePV} (he : e ∈ machine.children) (hn : e.name = pv.name) :
    FollowsRules cs.toNaming machine e pv.otherRules := by
  have hrole := (role_of_machinePV hw hb h hm hs pv).2 e he hn
  obtain ⟨w1, hwalk⟩ := initializeRootNode_ok h
  have hnamed := (initializeElement_ok root hwalk).named
  have hport : machine.isPort = false := by
    cases machine with
    | stateMachine => rfl
    | _ => cases hs
  have hport' : e.isPort = false := by
    cases e with
    | node => cases pv <;> cases hrole
    | _ => rfl
  obtain ⟨component, hname, hlast⟩ := lastComponent_of_named hnamed hm hport he hport'
  rw [hrole, pv.buildName_role] at hname
  exact ⟨component, hname, hlast⟩

/-- A PV of a state machine follows the other rules, and its own rule exactly when that makes the
same of the external name. Where the rule is not defined it does (`buildNameFromRule_undefined`). -/
theorem machinePV_followsRules_iff (hw : root.WellFormed) (hb : root.HasMachinePVs)
    (h : initializeRootNode cs pDeviceObject root w = .ok root' w') {path : List Element}
    {machine : Element} (hm : root'.Below path machine) (hs : machine.machine?.isSome)
    (pv : MachinePV) :
    (∃ e ∈ machine.children, e.name = pv.name) ∧
      ∀ e ∈ machine.children, e.name = pv.name →
        FollowsRules cs.toNaming machine e pv.otherRules ∧
        (FollowsRules cs.toNaming machine e (pv.rule :: pv.otherRules) ↔
          cs.buildNameFromRule e.base.externalName (pv.rule :: pv.otherRules) =
            cs.buildNameFromRule e.base.externalName pv.otherRules) := by
  refine ⟨(role_of_machinePV hw hb h hm hs pv).1, fun e he hn => ?_⟩
  obtain ⟨other, hother, hlast⟩ := machinePV_followsOtherRules hw hb h hm hs he hn
  refine ⟨⟨other, hother, hlast⟩, ?_, fun heq => ⟨other, heq.trans hother, hlast⟩⟩
  rintro ⟨own, hown, hlast'⟩
  rw [hlast'.unique hlast] at hown
  exact hown.trans hother.symm

end

def portWithMachine : Element :=
  .node "root" (.construct "root" []) .generic (.portImpl none) [stateMachineImpl 1 2 3 ⟨0, 0⟩]

/-- The control system of the tests with some naming rules. -/
def testControlSystemWith (cs : Naming) : ControlSystem := { testControlSystem with toNaming := cs }

theorem wellFormed_portWithMachine : portWithMachine.WellFormed := by
  refine .node (List.pairwise_singleton ..) fun c hc => ?_
  rw [List.mem_singleton.mp hc]
  exact wellFormed_stateMachineImpl 1 2 3 ⟨0, 0⟩

theorem hasMachinePVs_portWithMachine : portWithMachine.HasMachinePVs := by
  refine .of_children (fun c hc => ?_) fun hm => by cases hm
  rw [List.mem_singleton.mp hc]
  exact hasMachinePVs_stateMachineImpl 1 2 3 ⟨0, 0⟩

theorem portWithMachine_initialized {cs : Naming} (hcs : cs.sectionMissing = false) :
    ∃ root' w', initializeRootNode (testControlSystemWith cs) 0 portWithMachine .empty =
      .ok root' w' ∧ ∃ path machine, root'.Below path machine ∧ machine.machine?.isSome ∧
        machine.bare = (stateMachineImpl 1 2 3 ⟨0, 0⟩).bare := by
  have hroot : portWithMachine.Uninitialized false := by
    refine .node rfl fun c hc => ?_
    rw [List.mem_singleton.mp hc]
    refine .stateMachine rfl fun c hc => ?_
    simp only [List.mem_cons, List.not_mem_nil, or_false] at hc
    rcases hc with rfl | rfl | rfl
    · exact .inputPV rfl
    · exact .inputPV rfl
    · exact .outputPV rfl
  obtain ⟨root', w', h⟩ := @initializeRootNode_returns (testControlSystemWith cs)
    ⟨hcs, fun _ _ => rfl, fun _ _ _ => rfl, fun _ _ _ => rfl, fun _ _ => rfl,
      fun _ _ => ⟨_, rfl⟩, fun _ _ _ _ => rfl⟩ portWithMachine .empty hroot (by decide)
    (fun n _ => NdsFactory.unused_iff.mpr ⟨by simp [World.empty, NdsFactory.empty],
      by simp [World.empty, NdsFactory.empty]⟩) 0
  obtain ⟨c, hc, hbare⟩ := @exists_child_of_bare _ _ (stateMachineImpl 1 2 3 ⟨0, 0⟩)
    (initializeRootNode_kept h).bare (List.mem_singleton_self _)
  refine ⟨root', w', h, [c], c, .child hc (.refl c), ?_, hbare⟩
  rw [← isSome_machine?_bare, hbare]
  rfl

theorem machinePV_followsRules_getState : ∃ root' w' machine e,
    initializeRootNode (testControlSystemWith (Naming.oneRule "inputPV" "GET_%s")) 0 portWithMachine
      .empty = .ok root' w' ∧ e ∈ machine.children ∧ e.name = "getState" ∧
      FollowsRules (Naming.oneRule "inputPV" "GET_%s") machine e
        ["getStatePV", "inputPV", "genericPV"] := by
  obtain ⟨root', w', h, path, machine, hm, hs, -⟩ :=
    @portWithMachine_initialized (Naming.oneRule "inputPV" "GET_%s") rfl
  obtain ⟨⟨e, he, hn⟩, hall⟩ := machinePV_followsRules_iff wellFormed_portWithMachine
    hasMachinePVs_portWithMachine h hm hs .getState
  have hown := @buildNameFromRule_undefined (Naming.oneRule "inputPV" "GET_%s") _
    (Naming.oneKey "inputPV" "GET_%s") rfl rfl _ MachinePV.getState.rule_ne_empty (by decide)
    e.base.externalName MachinePV.getState.otherRules
  exact ⟨root', w', machine, e, h, he, hn, (hall e he hn).2.mpr hown⟩

/-- The rule `setStatePV` is ignored. -/
theorem setStatePV_ignored : ¬ ∀ (cs : ControlSystem) (pDeviceObject : Nat) (root root' : Element)
    (w w' : World), root.WellFormed → root.HasMachinePVs →
      initializeRootNode cs pDeviceObject root w = .ok root' w' →
      ∀ rules keys, cs.active = some rules → rules.lookup cs.namingRulesName = some keys →
        ∀ path machine, root'.Below path machine → machine.machine?.isSome →
          ∀ (pv : MachinePV), ∀ e ∈ machine.children, e.name = pv.name →
            FollowsRules cs.toNaming machine e (pv.rule :: pv.otherRules) := by
  intro hall
  obtain ⟨root', w', h, path, machine, hm, hs, hbare⟩ :=
    @portWithMachine_initialized (Naming.oneRule "setStatePV" "X") rfl
  have hw := wellFormed_portWithMachine
  have hb := hasMachinePVs_portWithMachine
  obtain ⟨e, he, hn⟩ := (role_of_machinePV hw hb h hm hs .setState).1
  obtain ⟨own, hown, hlast⟩ := hall _ _ _ _ _ _ hw hb h _ (Naming.oneKey "setStatePV" "X") rfl rfl
    path machine hm hs .setState e he hn
  obtain ⟨other, hother, hlast'⟩ :=
    @machinePV_followsOtherRules _ _ _ _ _ _ hw hb h path machine e hm hs .setState he hn
  obtain rfl := hlast.unique hlast'
  have hext : e.base.externalName = "setState" := by
    obtain ⟨c, hc, hcb⟩ := exists_child_of_bare hbare.symm he
    rw [← name_bare, ← hcb, name_bare] at hn
    rw [← externalName_bare, ← hcb, externalName_bare]
    simp only [stateMachineImpl, children, List.mem_cons, List.not_mem_nil, or_false] at hc
    rcases hc with rfl | rfl | rfl
    · exact absurd hn (by decide)
    · exact absurd hn (by decide)
    · rfl
  have heq := hown.trans hother.symm
  rw [hext] at heq
  have hnul : '\x00' ∉ "setState".toList := by decide
  have hname (ruleKeys : List String) := @Naming.buildNameFromRule_eq
    (testControlSystemWith (Naming.oneRule "setStatePV" "X")).toNaming _
    (Naming.oneKey "setStatePV" "X") ruleKeys "setState" rfl rfl
    hnul
  rw [hname, hname, Except.ok.injEq, String.ofList_inj] at heq
  exact absurd heq (by decide)

end Nds3
