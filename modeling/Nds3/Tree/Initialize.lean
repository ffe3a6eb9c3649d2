import Nds3.Lib.Effect
import Nds3.Registry.Factory
import Nds3.Tree.Naming

/-!
# Initialization

`initializeRootNode` walks over the tree: every element caches its names and registers its
commands with the control system, every PV is registered with the interface of its port and then
with the registry, and the root is held by the factory in the end.

An exception ends the walk where it is thrown. What has been registered by then is still in the
`World` that the call leaves, while the tree it worked on is not returned.

The control system and the timestamp delegates are parameters. Each of their functions may throw,
depending on everything registered so far; it has then done nothing. Two functions of the control
system are taken to return: `getDefaultSeparator`, and `getLogStreamGetter`, whose object the
elements keep and the walk does not use.
-/

namespace Nds3

/-- A `PVBaseImpl*`. -/
inductive PVPointer where
  | input (ptr : Nat)
  | output (ptr : Nat)
  deriving DecidableEq, Repr

/-- What initialization changes outside of the tree. -/
structure World where
  factory : NdsFactory
  /-- The commands registered with the control system, with the full names of their nodes. -/
  commands : List (String × Command)
  /-- The PVs registered with the interfaces of the ports. -/
  registeredPVs : List (Nat × PVPointer)
  /-- `m_heldNodes`. -/
  heldNodes : Nat → List Element
  /-- What `getNewInterface` returns next. -/
  newInterface : Nat

/-- The naming members of a `FactoryBaseImpl`, and its virtual functions. -/
structure ControlSystem extends Naming where
  getNewInterface : World → String → Option Exn
  registerCommand : World → String → Command → Option Exn
  /-- `registerPV` of an interface. -/
  registerPV : World → Nat → PVPointer → Option Exn
  /-- `registrationTerminated` of an interface. -/
  registrationTerminated : World → Nat → Option Exn
  /-- The timestamp of the state machine with this path. -/
  getTimestamp : World → List Link → Except Exn Timespec
  /-- `push` of an interface, for the getState PV of a state machine. -/
  push : World → Nat → Timespec → State → Option Exn

/-- A part of the initialization: the exception it ends with leaves the world as it is. -/
abbrev Init := EStateM Abort World

namespace Init

/-- A function that does not depend on the world. -/
def lift {α : Type} : Except Exn α → Init α
  | .ok a => pure a
  | .error e => throw (.throws e)

/-- A call of the control system, and its effect when it does not throw. -/
def call (answer : World → Option Exn) (effect : World → World) : Init Unit := fun w =>
  match answer w with
  | none => .ok () (effect w)
  | some e => .error (.throws e) w

/-- A call of the registry. -/
def registry (operation : NdsFactory → NdsFactory × Except Exn Unit) : Init Unit := fun w =>
  match operation w.factory with
  | (f, .ok _) => .ok () { w with factory := f }
  | (f, .error e) => .error (.throws e) { w with factory := f }

end Init

/-- The names of a PV that has one address only. -/
def FullNames.ofPV (fullName : String) : FullNames := ⟨fun _ => fullName, fun _ => fullName⟩

/-- The base of an element whose parent has called `setParent`. The root has no parent. -/
def Base.under (b : Base) : List Link → Base
  | [] => b
  | pParent :: _ => { b with hasParent := true, nodeLevel := pParent.nodeLevel + 1 }

/-- The check of `setParent`; what it assigns is `Base.under`. -/
def setParent (pChild : Element) : Except Exn Unit :=
  if pChild.base.hasParent then .error ⟨.logicError, "The object already has a parent"⟩ else .ok ()

section

variable (cs : ControlSystem)

/-- `registerCommand` of the control system. -/
def registerCommand (fullName : String) (command : Command) : Init Unit :=
  Init.call (cs.registerCommand · fullName command)
    fun w => { w with commands := w.commands ++ [(fullName, command)] }

/-- `PortImpl::registerPV`. -/
def registerPV (pInterface : Nat) (pv : PVPointer) : Init Unit :=
  Init.call (cs.registerPV · pInterface pv)
    fun w => { w with registeredPVs := w.registeredPVs ++ [(pInterface, pv)] }

/-- `BaseImpl::initialize`. -/
def baseInitialize (path : List Link) (b : Base) : Init Base := do
  let fullName := buildFullName path
  let fullExternalName ← Init.lift (buildFullExternalName cs.toNaming path)
  let fullExternalNameFromPort ← Init.lift (buildFullExternalNameFromPort cs.toNaming path)
  b.commands.forM (registerCommand cs fullName)
  return { b with
    cachedFullName := fullName
    cachedFullNameFromPort := buildFullNameFromPort path
    cachedFullExternalName := fullExternalName
    cachedFullExternalNameFromPort := fullExternalNameFromPort }

/-- `PVBaseImpl::initialize`. Without a port `getPort` throws with no active exception. -/
def pvInitialize (path : List Link) (port : Option Nat) (pv : PVPointer) (b : Base) :
    Init Base := do
  let b ← baseInitialize cs path b
  match port with
  | none => throw .terminate
  | some pInterface => do
    registerPV cs pInterface pv
    return b

/-- The interface of a port that has none yet. -/
def createInterface (path : List Link) (k : NodeClass) : Init NodeClass := fun w =>
  if k = .portImpl none then
    match cs.getNewInterface w (buildFullName path) with
    | none => .ok (.portImpl (some w.newInterface)) { w with newInterface := w.newInterface + 1 }
    | some e => .error (.throws e) w
  else .ok k w

/-- `registrationTerminated`, for a port. -/
def terminateRegistration : NodeClass → Init Unit
  | .portImpl (some pInterface) => Init.call (cs.registrationTerminated · pInterface) id
  | _ => pure ()

/-- The interface of the port of the children. -/
def NodeClass.port (port : Option Nat) : NodeClass → Option Nat
  | .nodeImpl => port
  | .portImpl pInterface => pInterface

/-- The end of `StateMachineImpl::initialize`. What is linked to the getState PV is not looked at:
where it has just been registered for the first time there is nothing. -/
def pushState (path : List Link) (port : Option Nat) : Init MachineState := do
  let stateTimestamp ← fun w => Init.lift (cs.getTimestamp w path) w
  match port with
  | none => throw .terminate
  | some pInterface => do
    Init.call (cs.push · pInterface stateTimestamp .off) id
    return ⟨.off, stateTimestamp, State.toInt_off_pos⟩

mutual

/-- `initialize`, of an element with these links above it and under this port. -/
def initializeElement (parents : List Link) (port : Option Nat) : Element → Init Element
  | .inputPV ptr name b t => do
    let b := b.under parents
    let b ← pvInitialize cs ((Element.inputPV ptr name b t).link :: parents) port (.input ptr) b
    Init.registry (·.registerInputPV (.ofPV b.cachedFullName) ptr)
    return .inputPV ptr name b t
  | .outputPV ptr name b t => do
    let b := b.under parents
    let b ← pvInitialize cs ((Element.outputPV ptr name b t).link :: parents) port (.output ptr) b
    Init.registry (·.registerOutputPV (.ofPV b.cachedFullName) ptr)
    return .outputPV ptr name b t
  | .node name b t k children => do
    let b := b.under parents
    let path := (Element.node name b t k children).link :: parents
    let k ← createInterface cs path k
    let b ← baseInitialize cs path b
    children.forM fun pChild => Init.lift (setParent pChild)
    let children ← initializeChildren path (k.port port) children
    terminateRegistration cs k
    return .node name b t k children
  | .stateMachine b m children => do
    let b := b.under parents
    let path := (Element.stateMachine b m children).link :: parents
    let b ← baseInitialize cs path b
    children.forM fun pChild => Init.lift (setParent pChild)
    let children ← initializeChildren path port children
    let m ← pushState cs path port
    return .stateMachine b m children

/-- The second loop of `NodeImpl::initialize`. -/
def initializeChildren (parents : List Link) (port : Option Nat) :
    List Element → Init (List Element)
  | [] => pure []
  | pChild :: children => do
    let pChild ← initializeElement parents port pChild
    let children ← initializeChildren parents port children
    return pChild :: children

end

/-- `initializeRootNode`, of a `NodeImpl`. -/
def initializeRootNode (pDeviceObject : Nat) (root : Element) : Init Element := do
  if root.base.hasParent then
    throw (.throws ⟨.logicError, "You can initialize only the root nodes"⟩)
  let root ← initializeElement cs [] none root
  fun w => .ok root { w with
    heldNodes := Function.update w.heldNodes pDeviceObject (w.heldNodes pDeviceObject ++ [root]) }

end

/-! ## What the parts return -/

theorem Init.lift_eq_ok {α : Type} {x : Except Exn α} {a : α} {w w' : World} :
    Init.lift x w = .ok a w' ↔ x = .ok a ∧ w = w' := by
  cases x with
  | ok b => simp [Init.lift, Effect.pure_eq_ok]
  | error e => exact ⟨(nomatch ·), fun h => (nomatch h.1)⟩

theorem baseInitialize_ok {cs : ControlSystem} {path : List Link} {b b' : Base} {w w' : World}
    (h : baseInitialize cs path b w = .ok b' w') :
    ∃ fullExternalName fullExternalNameFromPort,
      buildFullExternalName cs.toNaming path = .ok fullExternalName ∧
      buildFullExternalNameFromPort cs.toNaming path = .ok fullExternalNameFromPort ∧
      b' = { b with
        cachedFullName := buildFullName path
        cachedFullNameFromPort := buildFullNameFromPort path
        cachedFullExternalName := fullExternalName
        cachedFullExternalNameFromPort := fullExternalNameFromPort } := by
  simp only [baseInitialize, Effect.bind_eq_ok, Init.lift_eq_ok, Effect.pure_eq_ok] at h
  obtain ⟨s, w1, ⟨hs, -⟩, sPort, w2, ⟨hsPort, -⟩, -, w3, -, rfl, -⟩ := h
  exact ⟨s, sPort, hs, hsPort, rfl⟩

theorem pvInitialize_ok {cs : ControlSystem} {path : List Link} {port : Option Nat}
    {pv : PVPointer} {b b' : Base} {w w' : World}
    (h : pvInitialize cs path port pv b w = .ok b' w') :
    ∃ w1, baseInitialize cs path b w = .ok b' w1 := by
  obtain ⟨b1, w1, hb, h⟩ := Effect.bind_eq_ok.mp h
  cases port with
  | none => cases h
  | some i =>
    obtain ⟨-, w2, -, h⟩ := Effect.bind_eq_ok.mp h
    obtain ⟨rfl, -⟩ := Effect.pure_eq_ok.mp h
    exact ⟨w1, hb⟩

theorem createInterface_ok {cs : ControlSystem} {path : List Link} {k k' : NodeClass}
    {w w' : World} (h : createInterface cs path k w = .ok k' w') :
    k' = .nodeImpl ↔ k = .nodeImpl := by
  unfold createInterface at h
  split at h
  · next hk =>
    split at h
    · obtain ⟨rfl, -⟩ := EStateM.Result.ok.inj h
      simp [hk]
    · cases h
  · obtain ⟨rfl, -⟩ := EStateM.Result.ok.inj h
    rfl

/-! What the walk returns, for each kind of element. -/

section

variable {cs : ControlSystem} {parents : List Link} {port : Option Nat} {ptr : Nat}
  {name : String} {b : Base} {children : List Element} {e' : Element}
  {w w' : World}

theorem initializeElement_inputPV {t : InputPvType}
    (h : initializeElement cs parents port (.inputPV ptr name b t) w = .ok e' w') :
    ∃ b' w1 w2, baseInitialize cs ((Element.inputPV ptr name (b.under parents) t).link :: parents)
        (b.under parents) w1 = .ok b' w2 ∧
      e' = .inputPV ptr name b' t := by
  simp only [initializeElement, Effect.bind_eq_ok, Effect.pure_eq_ok] at h
  obtain ⟨b1, w1, hb, -, w2, -, rfl, -⟩ := h
  obtain ⟨w3, hb⟩ := pvInitialize_ok hb
  exact ⟨b1, w, w3, hb, rfl⟩

theorem initializeElement_outputPV {t : OutputPvType}
    (h : initializeElement cs parents port (.outputPV ptr name b t) w = .ok e' w') :
    ∃ b' w1 w2, baseInitialize cs ((Element.outputPV ptr name (b.under parents) t).link :: parents)
        (b.under parents) w1 = .ok b' w2 ∧
      e' = .outputPV ptr name b' t := by
  simp only [initializeElement, Effect.bind_eq_ok, Effect.pure_eq_ok] at h
  obtain ⟨b1, w1, hb, -, w2, -, rfl, -⟩ := h
  obtain ⟨w3, hb⟩ := pvInitialize_ok hb
  exact ⟨b1, w, w3, hb, rfl⟩

theorem initializeElement_node {t : NodeType} {k : NodeClass}
    (h : initializeElement cs parents port (.node name b t k children) w = .ok e' w') :
    ∃ k' b' children' w1 w2 w3 w4, (k' = .nodeImpl ↔ k = .nodeImpl) ∧
      baseInitialize cs ((Element.node name (b.under parents) t k children).link :: parents)
        (b.under parents) w1 = .ok b' w2 ∧
      initializeChildren cs
        ((Element.node name (b.under parents) t k children).link :: parents) (k'.port port)
        children w3 = .ok children' w4 ∧
      e' = .node name b' t k' children' := by
  simp only [initializeElement, Effect.bind_eq_ok, Effect.pure_eq_ok] at h
  obtain ⟨k1, w1, hk, b1, w2, hb, -, w3, -, children1, w4, hc, -, w5, -, rfl, -⟩ := h
  exact ⟨k1, b1, children1, w1, w2, w3, w4, createInterface_ok hk, hb, hc, rfl⟩

theorem initializeElement_stateMachine {m : MachineState}
    (h : initializeElement cs parents port (.stateMachine b m children) w = .ok e' w') :
    ∃ b' m' children' w1 w2 w3, baseInitialize cs
        ((Element.stateMachine (b.under parents) m children).link :: parents)
        (b.under parents) w = .ok b' w1 ∧
      initializeChildren cs ((Element.stateMachine (b.under parents) m children).link :: parents)
        port children w2 = .ok children' w3 ∧
      e' = .stateMachine b' m' children' := by
  simp only [initializeElement, Effect.bind_eq_ok, Effect.pure_eq_ok] at h
  obtain ⟨b1, w2, hb, -, w3, -, children1, w4, hc, m1, w5, -, rfl, -⟩ := h
  exact ⟨b1, m1, children1, w2, w3, w4, hb, hc, rfl⟩

end

theorem initializeRootNode_ok {cs : ControlSystem} {pDeviceObject : Nat} {root root' : Element}
    {w w' : World} (h : initializeRootNode cs pDeviceObject root w = .ok root' w') :
    ∃ w1, initializeElement cs [] none root w = .ok root' w1 := by
  unfold initializeRootNode at h
  cases hp : root.base.hasParent with
  | true => rw [hp] at h; cases h
  | false =>
    rw [hp] at h
    obtain ⟨e, w1, he, h⟩ := Effect.bind_eq_ok.mp h
    obtain ⟨rfl, -⟩ := EStateM.Result.ok.inj h
    exact ⟨w1, he⟩

/-- The control system of the tests: it refuses nothing, and has no naming rules at first. -/
def testControlSystem : ControlSystem where
  namingRules := none
  namingRulesName := ""
  getDefaultSeparator nodeLevel := if nodeLevel = 0 then "/" else if nodeLevel = 1 then "-" else "."
  getNewInterface _ _ := none
  registerCommand _ _ _ := none
  registerPV _ _ _ := none
  registrationTerminated _ _ := none
  getTimestamp _ _ := .ok ⟨0, 0⟩
  push _ _ _ _ := none

/-- The world before anything is initialized. -/
def World.empty : World := ⟨.empty, [], [], fun _ => [], 0⟩

end Nds3
