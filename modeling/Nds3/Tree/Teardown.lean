import Nds3.Tree.Initialize

/-!
# Deinitialization

`deinitializeRootNode` walks over the tree once more, in the order of `initializeRootNode`. An
element calls `deregisterCommand` once for each of its commands, a PV leaves the registry first and
the interface of its port last.

The control system is the one that has initialized the tree (`m_pFactory`). Its functions and those
of its interfaces are parameters again: they may throw, depending on everything that has been done
so far. A state machine waits for its transition thread before it goes on, which changes nothing
here.
-/

namespace Nds3

open Effect

/-- What deinitialization changes: the registry, and the calls that have been made. -/
structure Undo where
  factory : NdsFactory
  /-- The full names of the nodes `deregisterCommand` has been called for. -/
  deregisteredCommands : List String
  /-- The PVs deregistered from the interfaces of the ports. -/
  deregisteredPVs : List (Nat × PVPointer)

/-- The functions of the control system that deinitialization calls. -/
structure Deregistration where
  deregisterCommand : Undo → String → Option Exn
  /-- `deregisterPV` of an interface. -/
  deregisterPV : Undo → Nat → PVPointer → Option Exn

/-- A part of the deinitialization. -/
abbrev Undoing := EStateM Abort Undo

namespace Undoing

/-- A call of the control system, and its effect when it does not throw. -/
def call (answer : Undo → Option Exn) (effect : Undo → Undo) : Undoing Unit := fun s =>
  match answer s with
  | none => .ok () (effect s)
  | some e => .error (.throws e) s

/-- A call of the registry that does not throw. -/
def registry (operation : NdsFactory → NdsFactory × Except Exn Unit) : Undoing Unit := fun s =>
  .ok () { s with factory := (operation s.factory).1 }

end Undoing

section

variable (d : Deregistration)

/-- `deregisterCommand` of the control system. -/
def deregisterCommand (fullName : String) : Undoing Unit :=
  Undoing.call (d.deregisterCommand · fullName)
    fun s => { s with deregisteredCommands := s.deregisteredCommands ++ [fullName] }

/-- `PortImpl::deregisterPV`. -/
def deregisterPV (pInterface : Nat) (pv : PVPointer) : Undoing Unit :=
  Undoing.call (d.deregisterPV · pInterface pv)
    fun s => { s with deregisteredPVs := s.deregisteredPVs ++ [(pInterface, pv)] }

/-- `BaseImpl::deinitialize`. -/
def deinitializeBase (b : Base) : Undoing Unit :=
  b.commands.forM fun _ => deregisterCommand d b.cachedFullName

/-- `PVBaseImpl::deinitialize`. Without a port `getPort` throws with no active exception. -/
def deinitializePV (port : Option Nat) (pv : PVPointer) (b : Base) : Undoing Unit := do
  deinitializeBase d b
  match port with
  | none => throw .terminate
  | some pInterface => deregisterPV d pInterface pv

mutual

/-- `deinitialize`, of an element under this port. -/
def deinitializeElement (port : Option Nat) : Element → Undoing Unit
  | .inputPV ptr _ b _ => do
    Undoing.registry (·.deregisterInputPV (.ofPV b.cachedFullName) ptr)
    deinitializePV d port (.input ptr) b
  | .outputPV ptr _ b _ => do
    Undoing.registry (·.deregisterOutputPV (.ofPV b.cachedFullName) ptr)
    deinitializePV d port (.output ptr) b
  | .node _ b _ k children => do
    if k = .portImpl none then
      throw (.throws ⟨.logicError, "deinitialize called on non initialized port"⟩)
    deinitializeBase d b
    deinitializeChildren (k.port port) children
  | .stateMachine b _ children => do
    deinitializeBase d b
    deinitializeChildren port children

/-- The loop of `NodeImpl::deinitialize`. -/
def deinitializeChildren (port : Option Nat) : List Element → Undoing Unit
  | [] => pure ()
  | pChild :: children => do
    deinitializeElement port pChild
    deinitializeChildren port children

end

def deinitializeRootNode (root : Element) : Undoing Unit := do
  if root.base.hasParent then
    throw (.throws ⟨.logicError, "You can call deinitialize only on root nodes"⟩)
  deinitializeElement d none root

end

/-! ## What the walk passes -/

/-- A PV that a walk comes to, with its full name and the interface of its port. -/
structure Visit where
  pInterface : Nat
  fullName : String
  pv : PVPointer
  deriving DecidableEq

/-- The entry of the PV with the interface. -/
def Visit.registered (v : Visit) : Nat × PVPointer := (v.pInterface, v.pv)

/-- The registry in which the PV leaves its name and its links. -/
def NdsFactory.leave (f : NdsFactory) (v : Visit) : NdsFactory :=
  match v.pv with
  | .input p => (f.deregisterInputPV (.ofPV v.fullName) p).1
  | .output q => (f.deregisterOutputPV (.ofPV v.fullName) q).1

/-- The commands of an element under its full name. -/
def Base.calls (b : Base) : List (String × Command) := b.commands.map (b.cachedFullName, ·)

namespace Element

mutual

/-- The PVs below a port, in the order of the walk. -/
def visits (port : Option Nat) : Element → List Visit
  | inputPV ptr _ b _ => (port.map (⟨·, b.cachedFullName, .input ptr⟩)).toList
  | outputPV ptr _ b _ => (port.map (⟨·, b.cachedFullName, .output ptr⟩)).toList
  | node _ _ _ k children => visitsAll (k.port port) children
  | stateMachine _ _ children => visitsAll port children

def visitsAll (port : Option Nat) : List Element → List Visit
  | [] => []
  | c :: children => visits port c ++ visitsAll port children

end

mutual

/-- The commands of all elements, in the order of the walk. -/
def calls : Element → List (String × Command)
  | inputPV _ _ b _ | outputPV _ _ b _ => b.calls
  | node _ b _ _ children | stateMachine b _ children => b.calls ++ callsAll children

def callsAll : List Element → List (String × Command)
  | [] => []
  | c :: children => calls c ++ callsAll children

end

/-- Every port has an interface, and every PV a port. -/
inductive Settled : Option Nat → Element → Prop where
  | inputPV {i p n b t} : Settled (some i) (.inputPV p n b t)
  | outputPV {i p n b t} : Settled (some i) (.outputPV p n b t)
  | node {port n b t k cs} (hk : k ≠ .portImpl none)
      (children : ∀ c ∈ cs, Settled (k.port port) c) : Settled port (.node n b t k cs)
  | stateMachine {port b m cs} (children : ∀ c ∈ cs, Settled port c) :
      Settled port (.stateMachine b m cs)

end Element

open Element

/-! ## The walk goes through -/

/-- The control system does not refuse to take back these commands and PVs. -/
structure Deregistration.Accepts (d : Deregistration) (calls : List (String × Command))
    (pvs : List (Nat × PVPointer)) : Prop where
  deregisterCommand : ∀ s, ∀ c ∈ calls, d.deregisterCommand s c.1 = none
  deregisterPV : ∀ s, ∀ v ∈ pvs, d.deregisterPV s v.1 v.2 = none

namespace Deregistration.Accepts

variable {d : Deregistration} {calls calls' : List (String × Command)}
  {pvs pvs' : List (Nat × PVPointer)}

theorem mono (h : d.Accepts calls pvs) (hc : ∀ c ∈ calls', c ∈ calls) (hv : ∀ v ∈ pvs', v ∈ pvs) :
    d.Accepts calls' pvs' :=
  ⟨fun s c hm => h.deregisterCommand s c (hc c hm), fun s v hm => h.deregisterPV s v (hv v hm)⟩

theorem left (h : d.Accepts (calls ++ calls') (pvs ++ pvs')) : d.Accepts calls pvs :=
  h.mono (fun _ => List.mem_append_left _) fun _ => List.mem_append_left _

theorem right (h : d.Accepts (calls ++ calls') (pvs ++ pvs')) : d.Accepts calls' pvs' :=
  h.mono (fun _ => List.mem_append_right _) fun _ => List.mem_append_right _

end Deregistration.Accepts

/-- The state behind a walk that has passed these PVs and these commands. -/
def Undo.pass (s : Undo) (visits : List Visit) (calls : List (String × Command)) : Undo :=
  ⟨visits.foldl .leave s.factory, s.deregisteredCommands ++ calls.map Prod.fst,
    s.deregisteredPVs ++ visits.map Visit.registered⟩

@[simp] theorem Undo.pass_nil (s : Undo) : s.pass [] [] = s := by
  simp [Undo.pass]

theorem Undo.pass_pass (s : Undo) (visits visits' : List Visit)
    (calls calls' : List (String × Command)) :
    (s.pass visits calls).pass visits' calls' = s.pass (visits ++ visits') (calls ++ calls') := by
  simp [Undo.pass]

variable {d : Deregistration}

theorem deregisterCommands_run {fullName : String} {commands : List Command}
    {pvs : List (Nat × PVPointer)} (h : d.Accepts (commands.map (fullName, ·)) pvs) (s : Undo) :
    commands.forM (fun _ => deregisterCommand d fullName) s =
      .ok () (s.pass [] (commands.map (fullName, ·))) := by
  induction commands generalizing s with
  | nil => simp [pure, EStateM.pure]
  | cons c commands ih =>
    have hcall : d.deregisterCommand s fullName = none := h.deregisterCommand s _ (.head _)
    have hfirst : deregisterCommand d fullName s = .ok () (s.pass [] [(fullName, c)]) := by
      simp [deregisterCommand, Undoing.call, hcall, Undo.pass]
    refine (bind_of_ok hfirst).trans ?_
    rw [ih (h.mono (fun _ => List.mem_cons_of_mem _) fun _ hv => hv), Undo.pass_pass]
    rfl

theorem deinitializeBase_run {b : Base} {pvs : List (Nat × PVPointer)}
    (h : d.Accepts b.calls pvs) (s : Undo) :
    deinitializeBase d b s = .ok () (s.pass [] b.calls) := deregisterCommands_run h s

theorem deinitializePV_run {i : Nat} {pv : PVPointer} {b : Base}
    (h : d.Accepts b.calls [(i, pv)]) (s : Undo) : deinitializePV d (some i) pv b s =
      .ok () { s.pass [] b.calls with deregisteredPVs := s.deregisteredPVs ++ [(i, pv)] } := by
  rw [deinitializePV, bind_of_ok (deinitializeBase_run h s)]
  simp [deregisterPV, Undoing.call, h.deregisterPV _ _ (List.mem_singleton_self _), Undo.pass]

mutual

/-- **The walk takes back every command and every PV of a tree that has been initialized.** -/
theorem deinitializeElement_run {port : Option Nat} : (e : Element) → e.Settled port →
    d.Accepts e.calls ((e.visits port).map Visit.registered) → ∀ s,
      deinitializeElement d port e s = .ok () (s.pass (e.visits port) e.calls)
  | .inputPV ptr name b t, h, ha, s => by
    cases h with | inputPV => ?_
    rw [deinitializeElement]
    refine (bind_of_ok (m := Undoing.registry _) rfl).trans ?_
    rw [deinitializePV_run ha]
    simp [Undo.pass, visits, calls, NdsFactory.leave, Visit.registered]
  | .outputPV ptr name b t, h, ha, s => by
    cases h with | outputPV => ?_
    rw [deinitializeElement]
    refine (bind_of_ok (m := Undoing.registry _) rfl).trans ?_
    rw [deinitializePV_run ha]
    simp [Undo.pass, visits, calls, NdsFactory.leave, Visit.registered]
  | .node name b t k children, h, ha, s => by
    cases h with | node hk hcs => ?_
    have ha' : d.Accepts (b.calls ++ callsAll children)
      ([] ++ (visitsAll (k.port port) children).map Visit.registered) := ha
    rw [deinitializeElement, if_neg hk]
    refine (bind_of_ok (deinitializeBase_run ha'.left s)).trans ?_
    rw [deinitializeChildren_run children hcs ha'.right, Undo.pass_pass]
    rfl
  | .stateMachine b m children, h, ha, s => by
    cases h with | stateMachine hcs => ?_
    have ha' : d.Accepts (b.calls ++ callsAll children)
      ([] ++ (visitsAll port children).map Visit.registered) := ha
    rw [deinitializeElement, bind_of_ok (deinitializeBase_run ha'.left s),
      deinitializeChildren_run children hcs ha'.right, Undo.pass_pass]
    rfl

theorem deinitializeChildren_run {port : Option Nat} : (children : List Element) →
    (∀ c ∈ children, c.Settled port) →
    d.Accepts (callsAll children) ((visitsAll port children).map Visit.registered) → ∀ s,
      deinitializeChildren d port children s =
        .ok () (s.pass (visitsAll port children) (callsAll children))
  | [], _, _, s => by simp [deinitializeChildren, visitsAll, callsAll, pure, EStateM.pure]
  | c :: children, h, ha, s => by
    rw [callsAll, visitsAll, List.map_append] at ha
    rw [deinitializeChildren, bind_of_ok (deinitializeElement_run c (h c (by simp)) ha.left s),
      deinitializeChildren_run children (fun c' hc' => h c' (List.mem_cons_of_mem _ hc')) ha.right,
      Undo.pass_pass, visitsAll, callsAll]

end

end Nds3
