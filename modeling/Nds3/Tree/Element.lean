import Nds3.StateMachine.Concurrent
import Mathlib.Data.List.Sort
import Mathlib.Data.String.Basic

/-!
# The device tree

`BaseImpl`, `NodeImpl`, `PortImpl`, `StateMachineImpl` and the PVs, as far as they make up the tree
a device is: names, commands, types and children. A string stands for the sequence of its bytes.

`m_children` is a `std::map`, here the list of its values in the order of their names. A
`StateMachineImpl` is always called `StateMachine`, so `m_pStateMachine`, the machine added to a
node, is the only machine among the node's children.
-/

namespace Nds3

/-- `nodeType_t`. -/
inductive NodeType where
  | generic
  | inputChannel
  | outputChannel
  | dataSourceChannel
  | dataSinkChannel
  | stateMachine
  deriving DecidableEq, Repr

/-- `inputPvType_t`. -/
inductive InputPvType where
  | generic
  | getLocalState
  | getGlobalState
  deriving DecidableEq, Repr

/-- `outputPvType_t`. -/
inductive OutputPvType where
  | generic
  | setLocalState
  deriving DecidableEq, Repr

/-- An entry of `m_commands`, without its function. -/
structure Command where
  command : String
  usage : String
  numParameters : Nat
  deriving DecidableEq, Repr

/-- The members of `BaseImpl` besides the name. -/
structure Base where
  externalName : String
  /-- `m_pParent.lock()` is not null. -/
  hasParent : Bool
  nodeLevel : Nat
  cachedFullName : String
  cachedFullNameFromPort : String
  cachedFullExternalName : String
  cachedFullExternalNameFromPort : String
  /-- The commands defined after those of the constructor of `BaseImpl`. -/
  defined : List Command
  deriving DecidableEq, Repr

/-- The constructor of `BaseImpl`, followed by the definition of some commands. -/
def Base.construct (name : String) (defined : List Command) : Base :=
  ⟨name, false, 0, name, "", "", "", defined⟩

/-- The commands the constructor of `BaseImpl` defines. -/
def logLevelCommands : List Command :=
  [⟨"setLogLevelDebug", "", 0⟩, ⟨"setLogLevelInfo", "", 0⟩, ⟨"setLogLevelWarning", "", 0⟩,
    ⟨"setLogLevelError", "", 0⟩]

/-- `m_commands`. -/
def Base.commands (b : Base) : List Command := logLevelCommands ++ b.defined

/-- The commands of a state machine, which `addChild` defines for its node too. -/
def stateCommands : List Command :=
  [⟨"switchOn", "", 0⟩, ⟨"switchOff", "", 0⟩, ⟨"start", "", 0⟩, ⟨"stop", "", 0⟩]

/-- The local state and the timestamp of a state machine. The local state of a machine is never
`unknown` (`System.known_localState`). -/
structure MachineState where
  localState : State
  stateTimestamp : Timespec
  known : 0 < localState.toInt

/-- A machine at any point of any run, as `getGlobalState` finds it. -/
def System.machineState {bAsync : Bool} {u ts : Timespec} (s : System)
    (h : Lts.Reach System.step (fun _ _ => True) (System.initial bAsync u ts) s) : MachineState :=
  ⟨s.machine.localState, s.machine.stateTimestamp, System.known_localState h⟩

/-- A `NodeImpl` proper, or a `PortImpl` with its interface, if it has been given one. -/
inductive NodeClass where
  | nodeImpl
  | portImpl (pInterface : Option Nat)
  deriving DecidableEq, Repr

/-- An element of the tree. `ptr` is the address of a PV. -/
inductive Element where
  | inputPV (ptr : Nat) (name : String) (base : Base) (pvType : InputPvType)
  | outputPV (ptr : Nat) (name : String) (base : Base) (pvType : OutputPvType)
  | node (name : String) (base : Base) (nodeType : NodeType) (nodeClass : NodeClass)
      (children : List Element)
  | stateMachine (base : Base) (state : MachineState) (children : List Element)

namespace Element

/-- `getComponentName`. -/
def name : Element → String
  | inputPV _ name _ _ | outputPV _ name _ _ | node name _ _ _ _ => name
  | stateMachine _ _ _ => "StateMachine"

def base : Element → Base
  | inputPV _ _ b _ | outputPV _ _ b _ | node _ b _ _ _ | stateMachine b _ _ => b

/-- `m_children`. -/
def children : Element → List Element
  | inputPV .. | outputPV .. => []
  | node _ _ _ _ cs | stateMachine _ _ cs => cs

/-- A `NodeImpl` that is not a `StateMachineImpl`. -/
def isNode : Element → Bool
  | node .. => true
  | _ => false

/-- The cast to `StateMachineImpl`. -/
def machine? : Element → Option MachineState
  | stateMachine _ m _ => some m
  | _ => none

/-- `m_pStateMachine` of the node with these children. -/
def pStateMachine (children : List Element) : Option MachineState := children.findSome? machine?

/-- The values of a `std::map` from names. -/
def Sorted (children : List Element) : Prop := children.Pairwise (·.name < ·.name)

/-- The children of every node are those of a map. -/
inductive WellFormed : Element → Prop where
  | inputPV {p n b t} : WellFormed (.inputPV p n b t)
  | outputPV {p n b t} : WellFormed (.outputPV p n b t)
  | node {n b t k cs} (sorted : Sorted cs) (children : ∀ c ∈ cs, WellFormed c) :
      WellFormed (.node n b t k cs)
  | stateMachine {b m cs} (sorted : Sorted cs) (children : ∀ c ∈ cs, WellFormed c) :
      WellFormed (.stateMachine b m cs)

/-- `m_children[name] = pChild`, for a name that is not in the map. -/
def insertChild (child : Element) (children : List Element) : List Element :=
  children.orderedInsert (fun a b => a.name ≤ b.name) child

/-- `NodeImpl::addChild`, on the base and the children of a node. -/
def addChild (base : Base) (children : List Element) (child : Element) :
    Except Exn (Base × List Element) :=
  if children.any (·.name == child.name) then
    .error ⟨.logicError, "A node with the name " ++ child.name ++
      " has already been registered into " ++ base.cachedFullName ++ "\n"⟩
  else
    .ok (if child.machine?.isSome then { base with defined := base.defined ++ stateCommands }
      else base, insertChild child children)

/-- The commands the constructor of `PVBaseInImpl` defines. -/
def inputCommands : List Command :=
  [⟨"replicate", "replicate destination source", 1⟩,
    ⟨"decimation", "decimation node decimationFactor", 1⟩]

/-- The commands the constructor of `PVBaseOutImpl` defines. -/
def outputCommands : List Command := [⟨"subscribe", "subscribe destination source", 1⟩]

/-- The constructor of `StateMachineImpl`: the local state is off, and there are three PVs, all of
the generic type. -/
def stateMachineImpl (setState getState getGlobalState : Nat) (uninitialised : Timespec) : Element :=
  .stateMachine (.construct "StateMachine" stateCommands) ⟨.off, uninitialised, State.toInt_off_pos⟩
    [.inputPV getGlobalState "getGlobalState" (.construct "getGlobalState" inputCommands) .generic,
      .inputPV getState "getState" (.construct "getState" inputCommands) .generic,
      .outputPV setState "setState" (.construct "setState" outputCommands) .generic]

/-! ## What building a tree keeps -/

theorem mem_insertChild {child c : Element} {children : List Element} :
    c ∈ insertChild child children ↔ c = child ∨ c ∈ children := by
  rw [insertChild, List.mem_orderedInsert]

theorem Sorted.insertChild {child : Element} {children : List Element} (h : Sorted children)
    (hn : ∀ c ∈ children, c.name ≠ child.name) : Sorted (insertChild child children) := by
  induction children with
  | nil => exact List.pairwise_singleton ..
  | cons c cs ih =>
    obtain ⟨hc, hcs⟩ := List.pairwise_cons.mp h
    unfold Element.insertChild
    by_cases hle : child.name ≤ c.name
    · rw [List.orderedInsert_cons_of_le (r := fun a b : Element => a.name ≤ b.name) _ hle]
      have hlt : child.name < c.name :=
        lt_of_le_of_ne hle (Ne.symm (hn c (List.mem_cons_self ..)))
      refine List.pairwise_cons.mpr ⟨fun d hd => ?_, h⟩
      rcases List.mem_cons.mp hd with rfl | hd
      · exact hlt
      · exact hlt.trans (hc d hd)
    · rw [List.orderedInsert_of_not_le (r := fun a b : Element => a.name ≤ b.name) _ hle]
      refine List.pairwise_cons.mpr
        ⟨fun d hd => ?_, ih hcs fun d hd => hn d (List.mem_cons_of_mem _ hd)⟩
      rcases mem_insertChild.mp hd with rfl | hd
      · exact not_le.mp hle
      · exact hc d hd

/-- `addChild` keeps the children those of a map, and adds the child. -/
theorem addChild_ok {base base' : Base} {children children' : List Element} {child : Element}
    (h : addChild base children child = .ok (base', children')) (hs : Sorted children) :
    Sorted children' ∧ ∀ c, c ∈ children' ↔ c = child ∨ c ∈ children := by
  unfold addChild at h
  split at h
  · cases h
  · next hn =>
    simp only [Except.ok.injEq, Prod.mk.injEq] at h
    obtain ⟨-, rfl⟩ := h
    refine ⟨hs.insertChild fun c hc hcn => hn ?_, fun c => mem_insertChild⟩
    exact List.any_eq_true.mpr ⟨c, hc, by simp [hcn]⟩

theorem wellFormed_stateMachineImpl (setState getState getGlobalState : Nat) (u : Timespec) :
    (stateMachineImpl setState getState getGlobalState u).WellFormed := by
  have hs : ["getGlobalState", "getState", "setState"].Pairwise (· < ·) := by decide
  refine .stateMachine (by rw [Sorted, ← List.pairwise_map (f := name)]; exact hs) fun c hc => ?_
  simp only [List.mem_cons, List.not_mem_nil, or_false] at hc
  rcases hc with rfl | rfl | rfl
  · exact .inputPV
  · exact .inputPV
  · exact .outputPV

theorem WellFormed.children {e : Element} (h : e.WellFormed) :
    Sorted e.children ∧ ∀ c ∈ e.children, c.WellFormed := by
  cases h with
  | inputPV | outputPV => exact ⟨List.Pairwise.nil, fun c hc => by cases hc⟩
  | node hs hcs | stateMachine hs hcs => exact ⟨hs, hcs⟩

theorem Sorted.eq_of_name {children : List Element} (h : Sorted children) {c d : Element}
    (hc : c ∈ children) (hd : d ∈ children) (hn : c.name = d.name) : c = d := by
  have hnodup : (children.map name).Nodup := List.pairwise_map.mpr (h.imp fun hlt => ne_of_lt hlt)
  exact List.inj_on_of_nodup_map hnodup hc hd hn

theorem name_of_machine? {c : Element} {m : MachineState} (h : c.machine? = some m) :
    c.name = "StateMachine" := by
  cases c with
  | stateMachine b m' cs => rfl
  | _ => cases h

theorem Sorted.pStateMachine_eq_some {children : List Element} (h : Sorted children)
    {m : MachineState} : pStateMachine children = some m ↔ ∃ c ∈ children, c.machine? = some m := by
  constructor
  · exact List.exists_of_findSome?_eq_some
  · rintro ⟨c, hc, hm⟩
    cases hp : pStateMachine children with
    | none =>
      rw [pStateMachine, List.findSome?_eq_none_iff] at hp
      rw [hp c hc] at hm
      cases hm
    | some m' =>
      obtain ⟨d, hd, hm'⟩ := List.exists_of_findSome?_eq_some hp
      have hcd := h.eq_of_name hc hd ((name_of_machine? hm).trans (name_of_machine? hm').symm)
      rw [← hm, ← hm', hcd]

end Element

end Nds3
