import Nds3.Definitions
import Nds3.Lib.Locks
import Nds3.Lib.Lts
import Nds3.Lib.Measure
import Mathlib.Data.List.AList

/-!
# The locks of `createDevice` and `destroyDevice`

Any number of threads create and destroy devices on any number of factories. Each factory has its
`m_mutex`; `m_initializationMutex` is one for all. `initializeRootNode` holds the latter while
`holdNode` takes the former, and `destroyDevice` and `preDelete` hold the former while
`deinitializeRootNode` takes the latter.

A section that takes no other lock is one step, and needs its lock free. The locks of the drivers
(`m_lockDrivers`), of the registry and of the PVs are never held while these are taken and are left
out, as are the names of the devices. Left out are also the locks of the state machines:
`deinitialize` joins the thread of a transition, under `m_lockTransitionThread` and with the mutex
of the factory held, and that thread takes `m_stateMutex`. Transition functions are taken to come to
an end, and to create and destroy no devices.
-/

namespace Nds3

inductive DeviceMutex where
  /-- `FactoryBaseImpl::m_mutex`. -/
  | mutex (factory : Nat)
  /-- `m_initializationMutex` of `nodeImpl.cpp`. -/
  | initializationMutex
  deriving DecidableEq

/-- Where a thread is. -/
inductive LockPhase where
  | idle
  /-- `createDevice` comes to its first section. The allocation function will initialize `nodes`. -/
  | publish (factory pDevice : Nat) (nodes : List Nat)
  /-- The allocation function has yet to initialize `nodes`. -/
  | allocate (factory pDevice : Nat) (nodes : List Nat)
  /-- `initializeRootNode` has the lock. -/
  | initializeRootNode (factory pDevice node : Nat) (nodes : List Nat)
  /-- It comes to `holdNode`. -/
  | holdNode (factory pDevice node : Nat) (nodes : List Nat)
  /-- `holdNode` has returned. -/
  | held (factory pDevice : Nat) (nodes : List Nat)
  | commit (factory : Nat)
  | rollBack (factory : Nat)
  /-- `destroyDevice` comes to the lookup of the name. -/
  | findDevice (factory pDevice : Nat)
  | destroyPointer (factory pDevice : Nat)
  | preDelete (factory : Nat)
  /-- The mutex of the factory is held, with `nodes` to deinitialize: those of a device, or of
  all. -/
  | scanNodes (factory : Nat) (pDevice : Option Nat) (nodes : List Nat)
  /-- `deinitializeRootNode` has the lock. -/
  | deinitializeRootNode (factory : Nat) (pDevice : Option Nat) (node : Nat) (nodes : List Nat)
  deriving DecidableEq

/-- The locks the thread holds, the last one first. -/
def LockPhase.holds : LockPhase → List DeviceMutex
  | .initializeRootNode _ _ _ _ | .holdNode _ _ _ _ | .held _ _ _ => [.initializationMutex]
  | .scanNodes f _ _ => [.mutex f]
  | .deinitializeRootNode f _ _ _ => [.initializationMutex, .mutex f]
  | _ => []

namespace LockPhase

/-- Whether the nodes that the thread deinitializes are still to be looked up. -/
def lookups : LockPhase → Nat
  | .findDevice _ _ | .destroyPointer _ _ | .preDelete _ => 1
  | _ => 0

/-- How many steps the thread has still to do, up to the lookup of the nodes. -/
def steps : LockPhase → Nat
  | .idle | .destroyPointer _ _ | .preDelete _ => 0
  | .commit _ | .rollBack _ | .findDevice _ _ => 1
  | .publish _ _ nodes => 4 * nodes.length + 3
  | .allocate _ _ nodes => 4 * nodes.length + 2
  | .initializeRootNode _ _ _ nodes => 4 * nodes.length + 5
  | .holdNode _ _ _ nodes => 4 * nodes.length + 4
  | .held _ _ nodes => 4 * nodes.length + 3
  | .scanNodes _ _ nodes => 2 * nodes.length + 1
  | .deinitializeRootNode _ _ _ nodes => 2 * nodes.length + 2

/-- The factory of a call of `createDevice`. -/
def createsFor : LockPhase → Option Nat
  | .publish f _ _ | .allocate f _ _ | .initializeRootNode f _ _ _ | .holdNode f _ _ _
  | .held f _ _ | .commit f | .rollBack f => some f
  | _ => none

/-- The factory of a call of `destroyDevice` or of `preDelete`. -/
def destroysFor : LockPhase → Option Nat
  | .findDevice f _ | .destroyPointer f _ | .preDelete f | .scanNodes f _ _
  | .deinitializeRootNode f _ _ _ => some f
  | _ => none

/-- A thread that goes on comes closer to its end, and stays with its call until then. -/
structure Follows (p' p : LockPhase) : Prop where
  lt : p'.lookups < p.lookups ∨ p'.lookups ≤ p.lookups ∧ p'.steps < p.steps
  creates : p'.createsFor = none ∨ p'.createsFor = p.createsFor
  destroys : p'.destroysFor = none ∨ p'.destroysFor = p.destroysFor

/-- The factory for which `initializeRootNode` is under way, up to `holdNode`. -/
def initializesFor : LockPhase → Option Nat
  | .initializeRootNode f _ _ _ | .holdNode f _ _ _ => some f
  | _ => none

/-- The factory whose mutex is held, with a node to deinitialize next. -/
def deinitializesFor : LockPhase → Option Nat
  | .scanNodes f _ (_ :: _) => some f
  | _ => none

section

variable {p : LockPhase} {f : Nat}

theorem holds_of_initializesFor (h : p.initializesFor = some f) :
    p.holds = [.initializationMutex] := by
  cases p with
  | initializeRootNode | holdNode => rfl
  | _ => cases h

theorem createsFor_of_initializesFor (h : p.initializesFor = some f) : p.createsFor = some f := by
  cases p with
  | initializeRootNode | holdNode => exact h
  | _ => cases h

theorem destroysFor_of_deinitializesFor (h : p.deinitializesFor = some f) :
    p.destroysFor = some f := by
  cases p with
  | scanNodes g o ns =>
    cases ns with
    | nil => cases h
    | cons n ns => exact h
  | _ => cases h

theorem holds_of_deinitializesFor (h : p.deinitializesFor = some f) : p.holds = [.mutex f] := by
  cases p with
  | scanNodes g o ns =>
    cases ns with
    | nil => cases h
    | cons n ns =>
      cases h
      rfl
  | _ => cases h

theorem eq_of_initializationMutex (h : .initializationMutex ∈ p.holds) :
    (∃ f d n ns, p = .initializeRootNode f d n ns) ∨ (∃ f d n ns, p = .holdNode f d n ns) ∨
      (∃ f d ns, p = .held f d ns) ∨ ∃ f o n ns, p = .deinitializeRootNode f o n ns := by
  cases p <;> simp_all [holds]

theorem eq_of_mutex (h : .mutex f ∈ p.holds) :
    (∃ o ns, p = .scanNodes f o ns) ∨ ∃ o n ns, p = .deinitializeRootNode f o n ns := by
  cases p <;> simp_all [holds]

end

end LockPhase

inductive DeviceLockEvent where
  | createDevice (thread factory pDevice : Nat) (nodes : List Nat)
  | destroyDevice (thread factory pDevice : Nat)
  /-- `destroyDevice` with a pointer, or with an empty name. -/
  | destroyPointer (thread factory pDevice : Nat)
  | preDelete (thread factory : Nat)
  | run (thread : Nat)
  /-- The section throws, or a function of the user does. -/
  | throws (thread : Nat)

/-- The factories, and the threads that use them. -/
structure DeviceLocks where
  /-- `m_heldNodes` of each factory. -/
  heldNodes : Nat → AList fun _ : Nat => List Nat
  owner : DeviceMutex → Option Nat
  phase : Nat → LockPhase

namespace DeviceLocks

def initial : DeviceLocks := ⟨fun _ => ∅, fun _ => none, fun _ => .idle⟩

section

variable (s : DeviceLocks)

def goto (i : Nat) (p : LockPhase) : DeviceLocks :=
  { s with phase := Function.update s.phase i p }

def own (m : DeviceMutex) (o : Option Nat) : DeviceLocks :=
  { s with owner := Function.update s.owner m o }

/-- `m_heldNodes[pDeviceObject].push_back(pHoldNode)`. -/
def push (f pDevice node : Nat) : DeviceLocks :=
  { s with heldNodes := Function.update s.heldNodes f ((s.heldNodes f).insert pDevice
      (((s.heldNodes f).lookup pDevice).getD [] ++ [node])) }

/-- `m_heldNodes` without a device, or `m_heldNodes.clear()`. -/
def forget (f : Nat) : Option Nat → DeviceLocks
  | some pDevice =>
    { s with heldNodes := Function.update s.heldNodes f ((s.heldNodes f).erase pDevice) }
  | none => { s with heldNodes := Function.update s.heldNodes f ∅ }

/-- The nodes held for a device, and those of all devices. -/
def nodesOf (f : Nat) : Option Nat → List Nat
  | some pDevice => ((s.heldNodes f).lookup pDevice).getD []
  | none => (s.heldNodes f).entries.flatMap Sigma.snd

/-- The thread goes on; `none` if it waits for a lock. -/
def advance (i : Nat) : LockPhase → Option DeviceLocks
  | .idle => none
  | .publish f p ns =>
    if s.owner (.mutex f) = none then some (s.goto i (.allocate f p ns)) else none
  | .allocate f _ [] => some (s.goto i (.commit f))
  | .allocate f p (n :: ns) =>
    if s.owner .initializationMutex = none then
      some ((s.goto i (.initializeRootNode f p n ns)).own .initializationMutex (some i))
    else none
  | .initializeRootNode f p n ns => some (s.goto i (.holdNode f p n ns))
  | .holdNode f p n ns =>
    if s.owner (.mutex f) = none then some ((s.goto i (.held f p ns)).push f p n) else none
  | .held f p ns => some ((s.goto i (.allocate f p ns)).own .initializationMutex none)
  | .commit f | .rollBack f => if s.owner (.mutex f) = none then some (s.goto i .idle) else none
  | .findDevice f p =>
    if s.owner (.mutex f) = none then some (s.goto i (.destroyPointer f p)) else none
  | .destroyPointer f p =>
    if s.owner (.mutex f) = none then
      some ((s.goto i (.scanNodes f (some p) (s.nodesOf f (some p)))).own (.mutex f) (some i))
    else none
  | .preDelete f =>
    if s.owner (.mutex f) = none then
      some ((s.goto i (.scanNodes f none (s.nodesOf f none))).own (.mutex f) (some i))
    else none
  | .scanNodes f o [] => some (((s.goto i .idle).forget f o).own (.mutex f) none)
  | .scanNodes f o (n :: ns) =>
    if s.owner .initializationMutex = none then
      some ((s.goto i (.deinitializeRootNode f o n ns)).own .initializationMutex (some i))
    else none
  | .deinitializeRootNode f o _ ns =>
    some ((s.goto i (.scanNodes f o ns)).own .initializationMutex none)

/-- An exception, on the way of which the guards release their locks. -/
def unwind (i : Nat) : LockPhase → Option DeviceLocks
  -- DeviceAlreadyCreated, DeviceNotAllocated
  | .publish f _ _ | .findDevice f _ =>
    if s.owner (.mutex f) = none then some (s.goto i .idle) else none
  | .allocate f _ _ => some (s.goto i (.rollBack f))
  | .initializeRootNode f _ _ _ => some ((s.goto i (.rollBack f)).own .initializationMutex none)
  -- `preDelete` has cleared the held nodes when it comes to the deallocation functions
  | .scanNodes f none [] => some (((s.goto i .idle).forget f none).own (.mutex f) none)
  | .scanNodes f _ _ => some ((s.goto i .idle).own (.mutex f) none)
  | .deinitializeRootNode f _ _ _ =>
    some (((s.goto i .idle).own .initializationMutex none).own (.mutex f) none)
  | _ => none

def start (i : Nat) (p : LockPhase) : Option DeviceLocks :=
  if s.phase i = .idle then some (s.goto i p) else none

def step : DeviceLockEvent → Option DeviceLocks
  | .createDevice i f p ns => s.start i (.publish f p ns)
  | .destroyDevice i f p => s.start i (.findDevice f p)
  | .destroyPointer i f p => s.start i (.destroyPointer f p)
  | .preDelete i f => s.start i (.preDelete f)
  | .run i => s.advance i (s.phase i)
  | .throws i => s.unwind i (s.phase i)

end

/-! ## What a step does -/

section

variable {s s' : DeviceLocks} {i : Nat} {p : LockPhase} {e : DeviceLockEvent}

/-- How a thread goes on: it takes a lock that is free, releases one or both, or neither. -/
inductive Effect (s : DeviceLocks) (i : Nat) (p p' : LockPhase) (s' : DeviceLocks) : Prop where
  | go (hphase : s'.phase = Function.update s.phase i p') (howner : s'.owner = s.owner)
      (hholds : p'.holds = p.holds)
  | take (m : DeviceMutex) (hphase : s'.phase = Function.update s.phase i p')
      (howner : s'.owner = Function.update s.owner m (some i)) (hfree : s.owner m = none)
      (hholds : p'.holds = m :: p.holds)
  | release (m : DeviceMutex) (hphase : s'.phase = Function.update s.phase i p')
      (howner : s'.owner = Function.update s.owner m none) (hholds : p.holds = m :: p'.holds)
  | releaseBoth (m n : DeviceMutex) (hphase : s'.phase = Function.update s.phase i p')
      (howner : s'.owner = Function.update (Function.update s.owner m none) n none)
      (hholds : p.holds = m :: n :: p'.holds)

theorem Effect.phase {p' : LockPhase} (h : Effect s i p p' s') :
    s'.phase = Function.update s.phase i p' := by
  cases h <;> assumption

theorem phase_forget (f : Nat) (o : Option Nat) (m : DeviceMutex) :
    (((s.goto i p).forget f o).own m none).phase = Function.update s.phase i p := by
  cases o <;> rfl

theorem follows_next {p' : LockPhase} (hlt : p'.lookups = p.lookups ∧ p'.steps < p.steps)
    (hfor : p'.createsFor = p.createsFor ∧ p'.destroysFor = p.destroysFor) : p'.Follows p :=
  ⟨.inr ⟨hlt.1.le, hlt.2⟩, .inr hfor.1, .inr hfor.2⟩

theorem follows_idle (hp : 0 < p.lookups ∨ 0 < p.steps) : LockPhase.idle.Follows p := by
  refine ⟨?_, .inl rfl, .inl rfl⟩
  rcases hp with hp | hp
  · exact .inl hp
  · exact .inr ⟨Nat.zero_le _, hp⟩

theorem effect_advance (h : s.advance i p = some s') :
    ∃ p', Effect s i p p' s' ∧ p'.Follows p := by
  cases p with
  | idle => cases h
  | publish f d ns =>
    obtain ⟨-, rfl⟩ := Option.ite_some_none_eq_some.mp h
    exact ⟨_, .go rfl rfl rfl, follows_next ⟨rfl, Nat.lt_succ_self _⟩ ⟨rfl, rfl⟩⟩
  | allocate f d ns =>
    cases ns with
    | nil =>
      cases h
      exact ⟨_, .go rfl rfl rfl, follows_next ⟨rfl, Nat.lt_succ_self _⟩ ⟨rfl, rfl⟩⟩
    | cons n ns =>
      obtain ⟨hfree, rfl⟩ := Option.ite_some_none_eq_some.mp h
      exact ⟨_, .take _ rfl rfl hfree rfl, follows_next ⟨rfl, Nat.lt_succ_self _⟩ ⟨rfl, rfl⟩⟩
  | initializeRootNode f d n ns =>
    cases h
    exact ⟨_, .go rfl rfl rfl, follows_next ⟨rfl, Nat.lt_succ_self _⟩ ⟨rfl, rfl⟩⟩
  | holdNode f d n ns =>
    obtain ⟨-, rfl⟩ := Option.ite_some_none_eq_some.mp h
    exact ⟨_, .go rfl rfl rfl, follows_next ⟨rfl, Nat.lt_succ_self _⟩ ⟨rfl, rfl⟩⟩
  | held f d ns =>
    cases h
    exact ⟨_, .release _ rfl rfl rfl, follows_next ⟨rfl, Nat.lt_succ_self _⟩ ⟨rfl, rfl⟩⟩
  | commit f | rollBack f =>
    obtain ⟨-, rfl⟩ := Option.ite_some_none_eq_some.mp h
    exact ⟨_, .go rfl rfl rfl, follows_idle (.inr Nat.zero_lt_one)⟩
  | findDevice f d =>
    obtain ⟨-, rfl⟩ := Option.ite_some_none_eq_some.mp h
    exact ⟨_, .go rfl rfl rfl, follows_next ⟨rfl, Nat.lt_succ_self _⟩ ⟨rfl, rfl⟩⟩
  | destroyPointer f d | preDelete f =>
    obtain ⟨hfree, rfl⟩ := Option.ite_some_none_eq_some.mp h
    exact ⟨_, .take _ rfl rfl hfree rfl, .inl Nat.zero_lt_one, .inr rfl, .inr rfl⟩
  | scanNodes f o ns =>
    cases ns with
    | nil =>
      cases h
      exact ⟨_, .release _ (phase_forget ..) (by cases o <;> rfl) rfl,
        follows_idle (.inr (Nat.succ_pos _))⟩
    | cons n ns =>
      obtain ⟨hfree, rfl⟩ := Option.ite_some_none_eq_some.mp h
      exact ⟨_, .take _ rfl rfl hfree rfl, follows_next ⟨rfl, Nat.lt_succ_self _⟩ ⟨rfl, rfl⟩⟩
  | deinitializeRootNode f o n ns =>
    cases h
    exact ⟨_, .release _ rfl rfl rfl, follows_next ⟨rfl, Nat.lt_succ_self _⟩ ⟨rfl, rfl⟩⟩

theorem effect_unwind (h : s.unwind i p = some s') :
    ∃ p', Effect s i p p' s' ∧ p'.Follows p := by
  cases p with
  | publish f d ns =>
    obtain ⟨-, rfl⟩ := Option.ite_some_none_eq_some.mp h
    exact ⟨_, .go rfl rfl rfl, follows_idle (.inr (Nat.succ_pos _))⟩
  | findDevice f d =>
    obtain ⟨-, rfl⟩ := Option.ite_some_none_eq_some.mp h
    exact ⟨_, .go rfl rfl rfl, follows_idle (.inl Nat.zero_lt_one)⟩
  | allocate f d ns =>
    cases h
    exact ⟨_, .go rfl rfl rfl, follows_next ⟨rfl, by simp [LockPhase.steps]⟩ ⟨rfl, rfl⟩⟩
  | initializeRootNode f d n ns =>
    cases h
    exact ⟨_, .release _ rfl rfl rfl, follows_next ⟨rfl, by simp [LockPhase.steps]⟩ ⟨rfl, rfl⟩⟩
  | scanNodes f o ns =>
    refine ⟨.idle, ?_, follows_idle (.inr (Nat.succ_pos _))⟩
    cases o <;> cases ns <;> cases h <;> exact .release _ rfl rfl rfl
  | deinitializeRootNode f o n ns =>
    cases h
    exact ⟨_, .releaseBoth _ _ rfl rfl rfl, follows_idle (.inr (Nat.succ_pos _))⟩
  | _ => cases h

/-! ## The invariant -/

/-- The threads hold the locks that they own, and finitely many are under way. -/
structure LockInv (s : DeviceLocks) : Prop where
  owns : Locks.Owns some s.owner (LockPhase.holds ∘ s.phase)
  active : {i | s.phase i ≠ .idle}.Finite

theorem LockInv.owner_iff (h : LockInv s) {m : DeviceMutex} :
    s.owner m = some i ↔ m ∈ (s.phase i).holds := by
  simpa using h.owns.iff i m

theorem LockInv.initial : LockInv initial where
  owns := ⟨fun _ => List.nodup_nil, fun i m => by simp [DeviceLocks.initial, LockPhase.holds]⟩
  active := by simp [DeviceLocks.initial]

theorem active_goto (h : {j | s.phase j ≠ .idle}.Finite)
    (hphase : s'.phase = Function.update s.phase i p) : {j | s'.phase j ≠ .idle}.Finite := by
  refine (h.insert i).subset fun j hj => ?_
  by_cases hij : j = i
  · exact .inl hij
  · replace hj : s'.phase j ≠ .idle := hj
    rw [hphase, Function.update_of_ne hij] at hj
    exact .inr hj

theorem LockInv.effect {p' : LockPhase} (h : LockInv s) (he : Effect s i (s.phase i) p' s') :
    LockInv s' := by
  refine ⟨?_, active_goto h.active he.phase⟩
  rw [he.phase, Function.comp_update]
  cases he with
  | go _ howner hholds =>
    rw [howner]
    exact h.owns.goto (by simpa using hholds)
  | take m _ howner hfree hholds =>
    rw [howner]
    exact h.owns.take hfree (by simpa using hholds)
  | release m _ howner hholds =>
    rw [howner]
    exact h.owns.release (by simpa using hholds)
  | releaseBoth m n _ howner hholds =>
    rw [howner]
    have h1 : Locks.Owns some (Function.update s.owner m none)
        (Function.update (LockPhase.holds ∘ s.phase) i (n :: p'.holds)) :=
      h.owns.release (by simpa using hholds)
    have h2 := h1.release (i := i) (m := n) (l := p'.holds) (by simp)
    rwa [Function.update_idem] at h2

/-- **Step lemma.** -/
theorem LockInv.step (h : LockInv s) (hs : s.step e = some s') : LockInv s' := by
  have hstart : ∀ i q, q.holds = [] → s.start i q = some s' → LockInv s' := by
    intro i q hq hs
    obtain ⟨hidle, rfl⟩ := Option.ite_some_none_eq_some.mp hs
    have he : Effect s i (s.phase i) q (s.goto i q) := by
      refine .go rfl rfl ?_
      rw [hidle, hq]
      rfl
    exact h.effect he
  cases e with
  | createDevice i f d ns => exact hstart i _ rfl hs
  | destroyDevice i f d => exact hstart i _ rfl hs
  | destroyPointer i f d => exact hstart i _ rfl hs
  | preDelete i f => exact hstart i _ rfl hs
  | run i =>
    obtain ⟨p', he, -⟩ := effect_advance hs
    exact h.effect he
  | throws i =>
    obtain ⟨p', he, -⟩ := effect_unwind hs
    exact h.effect he

/-! ## The deadlock -/

/-- A thread initializes a root node for a factory while another one has the mutex of that factory
and comes to deinitialize a node. -/
def Doomed (s : DeviceLocks) : Prop :=
  ∃ k j f, (s.phase k).initializesFor = some f ∧ (s.phase j).deinitializesFor = some f

theorem Doomed.owner (hd : Doomed s) (h : LockInv s) :
    ∃ k j f, s.owner .initializationMutex = some k ∧ s.owner (.mutex f) = some j := by
  obtain ⟨k, j, f, hk, hj⟩ := hd
  refine ⟨k, j, f, h.owner_iff.mpr ?_, h.owner_iff.mpr ?_⟩
  · simp [LockPhase.holds_of_initializesFor hk]
  · simp [LockPhase.holds_of_deinitializesFor hj]

/-- **There is no way out.** -/
theorem Doomed.run (hd : Doomed s) (h : LockInv s) (hs : s.step (.run i) = some s') :
    Doomed s' := by
  obtain ⟨k, j, f, hk, hj⟩ := hd
  have hI : s.owner .initializationMutex = some k :=
    h.owner_iff.mpr (by simp [LockPhase.holds_of_initializesFor hk])
  have hM : s.owner (.mutex f) = some j :=
    h.owner_iff.mpr (by simp [LockPhase.holds_of_deinitializesFor hj])
  obtain ⟨p', he, -⟩ := effect_advance hs
  have hother : ∀ t, t ≠ i → s'.phase t = s.phase t := fun t ht => by
    rw [he.phase, Function.update_of_ne ht]
  replace hs : s.advance i (s.phase i) = some s' := hs
  have hji : j ≠ i := by
    -- its next step takes the lock that `k` has
    rintro rfl
    cases hp : s.phase j with
    | scanNodes g o ns =>
      rw [hp] at hs hj
      cases ns with
      | nil => cases hj
      | cons n ns => simp [advance, hI] at hs
    | _ =>
      rw [hp] at hj
      cases hj
  refine ⟨k, j, f, ?_, (hother j hji).symm ▸ hj⟩
  by_cases hki : k = i
  · subst hki
    cases hp : s.phase k with
    | initializeRootNode g d n ns =>
      rw [hp] at hs hk
      cases hs
      simpa [goto, LockPhase.initializesFor] using hk
    | holdNode g d n ns =>
      rw [hp] at hs hk
      cases hk
      simp [advance, hM] at hs
    | _ =>
      rw [hp] at hk
      cases hk
  · exact (hother k hki).symm ▸ hk

/-! ## The way to the end -/

theorem not_doomed_goto (hnd : ¬ Doomed s) (hphase : s'.phase = Function.update s.phase i p)
    (hi : p.initializesFor = none ∨ p.initializesFor = (s.phase i).initializesFor)
    (hj : p.deinitializesFor = none ∨ p.deinitializesFor = (s.phase i).deinitializesFor) :
    ¬ Doomed s' := by
  rintro ⟨k, j, f, hk, hd⟩
  refine hnd ⟨k, j, f, ?_, ?_⟩
  · by_cases hki : k = i
    · subst hki
      rw [hphase, Function.update_self] at hk
      rcases hi with hi | hi
      · rw [hi] at hk
        cases hk
      · rw [← hi, hk]
    · rwa [hphase, Function.update_of_ne hki] at hk
  · by_cases hji : j = i
    · subst hji
      rw [hphase, Function.update_self] at hd
      rcases hj with hj | hj
      · rw [hj] at hd
        cases hd
      · rw [← hj, hd]
    · rwa [hphase, Function.update_of_ne hji] at hd

theorem LockInv.not_doomed (h : LockInv s) (hI : s.owner .initializationMutex = none) :
    ¬ Doomed s := by
  intro hd
  obtain ⟨k, _, _, hk, _⟩ := hd.owner h
  rw [hI] at hk
  cases hk

theorem advance_of_free (hfree : ∀ m, s.owner m = none) (hp : p ≠ .idle) :
    ∃ s', s.advance i p = some s' := by
  cases p with
  | idle => exact absurd rfl hp
  | allocate f d ns | scanNodes f o ns => cases ns <;> simp [advance, hfree]
  | _ => simp [advance, hfree]

theorem not_doomed_of_free (h : LockInv s) (hfree : ∀ m, s.owner m = none)
    (hs : s.step (.run i) = some s') : ¬ Doomed s' := by
  intro hd
  obtain ⟨k, j, f, hk, hj⟩ := hd.owner (h.step hs)
  obtain ⟨p', he, -⟩ := effect_advance hs
  cases he with
  | go _ howner => simp [howner, hfree] at hk
  | take m _ howner =>
    rw [howner] at hk hj
    by_cases hm : m = .initializationMutex
    · subst hm
      simp [hfree] at hj
    · simp [Ne.symm hm, hfree] at hk
  | release m _ howner =>
    rw [howner] at hk
    simp [hfree, Function.update_apply] at hk
  | releaseBoth m n _ howner =>
    rw [howner] at hk
    simp [hfree, Function.update_apply] at hk

/-- The thread that initializes or deinitializes a root node goes on, or the one it waits for. -/
theorem exists_run_of_some {k : Nat} (h : LockInv s) (hnd : ¬ Doomed s)
    (hI : s.owner .initializationMutex = some k) :
    ∃ i s', s.step (.run i) = some s' ∧ ¬ Doomed s' := by
  rcases LockPhase.eq_of_initializationMutex (h.owner_iff.mp hI) with
    ⟨f, d, n, ns, hk⟩ | ⟨f, d, n, ns, hk⟩ | ⟨f, d, ns, hk⟩ | ⟨f, o, n, ns, hk⟩
  · have hs : s.step (.run k) = some (s.goto k (.holdNode f d n ns)) := by simp [step, advance, hk]
    refine ⟨k, _, hs, not_doomed_goto hnd rfl (.inr ?_) (.inl rfl)⟩
    rw [hk]
    rfl
  · cases hM : s.owner (.mutex f) with
    | none =>
      have hs : s.step (.run k) = some ((s.goto k (.held f d ns)).push f d n) := by
        simp [step, advance, hk, hM]
      exact ⟨k, _, hs, not_doomed_goto hnd rfl (.inl rfl) (.inl rfl)⟩
    | some j =>
      rcases LockPhase.eq_of_mutex (h.owner_iff.mp hM) with ⟨o, ms, hj⟩ | ⟨o, m, ms, hj⟩
      · cases ms with
        | nil =>
          have hs : s.step (.run j) =
              some (((s.goto j .idle).forget f o).own (.mutex f) none) := by
            simp [step, advance, hj]
          exact ⟨j, _, hs, not_doomed_goto hnd (phase_forget ..) (.inl rfl) (.inl rfl)⟩
        | cons m ms => exact absurd ⟨k, j, f, by rw [hk]; rfl, by rw [hj]; rfl⟩ hnd
      · have hjk : s.owner .initializationMutex = some j :=
          h.owner_iff.mpr (by simp [hj, LockPhase.holds])
        rw [hI, Option.some.injEq] at hjk
        rw [← hjk, hk] at hj
        cases hj
  · have hs : s.step (.run k) =
        some ((s.goto k (.allocate f d ns)).own .initializationMutex none) := by
      simp [step, advance, hk]
    exact ⟨k, _, hs, not_doomed_goto hnd rfl (.inl rfl) (.inl rfl)⟩
  · have hs : s.step (.run k) =
        some ((s.goto k (.scanNodes f o ns)).own .initializationMutex none) := by
      simp [step, advance, hk]
    exact ⟨k, _, hs, (h.step hs).not_doomed (by simp [own])⟩

/-- With `m_initializationMutex` free the owner of a mutex goes on. -/
theorem exists_run_of_mutex {f j : Nat} (h : LockInv s)
    (hI : s.owner .initializationMutex = none) (hM : s.owner (.mutex f) = some j) :
    ∃ i s', s.step (.run i) = some s' ∧ ¬ Doomed s' := by
  rcases LockPhase.eq_of_mutex (h.owner_iff.mp hM) with ⟨o, ns, hj⟩ | ⟨o, n, ns, hj⟩
  · cases ns with
    | nil =>
      have hs : s.step (.run j) = some (((s.goto j .idle).forget f o).own (.mutex f) none) := by
        simp [step, advance, hj]
      exact ⟨j, _, hs, not_doomed_goto (h.not_doomed hI) (phase_forget ..) (.inl rfl) (.inl rfl)⟩
    | cons n ns =>
      have hs : s.step (.run j) = some
          ((s.goto j (.deinitializeRootNode f o n ns)).own .initializationMutex (some j)) := by
        simp [step, advance, hj, hI]
      exact ⟨j, _, hs, not_doomed_goto (h.not_doomed hI) rfl (.inl rfl) (.inl rfl)⟩
  · have hj' : s.owner .initializationMutex = some j :=
      h.owner_iff.mpr (by simp [hj, LockPhase.holds])
    rw [hI] at hj'
    cases hj'

/-- **Progress.** -/
theorem exists_run (h : LockInv s) (hnd : ¬ Doomed s) (hp : s.phase i ≠ .idle) :
    ∃ j s', s.step (.run j) = some s' ∧ ¬ Doomed s' := by
  cases hI : s.owner .initializationMutex with
  | some k => exact exists_run_of_some h hnd hI
  | none =>
    by_cases hM : ∃ f j, s.owner (.mutex f) = some j
    · obtain ⟨f, j, hj⟩ := hM
      exact exists_run_of_mutex h hI hj
    · push Not at hM
      have hfree : ∀ m, s.owner m = none := by
        intro m
        cases m with
        | initializationMutex => exact hI
        | mutex f => exact Option.eq_none_iff_forall_ne_some.mpr (hM f)
      obtain ⟨s', hs⟩ := advance_of_free (i := i) hfree hp
      exact ⟨i, s', hs, not_doomed_of_free h hfree hs⟩

/-! ## The measure -/

/-- What the threads of `ts` have still to look up, and the steps they have still to do. -/
def remaining (ts : Finset Nat) (s : DeviceLocks) : ℕ ×ₗ ℕ :=
  toLex (∑ i ∈ ts, (s.phase i).lookups, ∑ i ∈ ts, (s.phase i).steps)

/-- The threads that are under way. -/
def ActiveIn (ts : Finset Nat) (s : DeviceLocks) : Prop := ∀ i, s.phase i ≠ .idle → i ∈ ts

theorem effect_step (he : e = .run i ∨ e = .throws i) (hs : s.step e = some s') :
    ∃ p', Effect s i (s.phase i) p' s' ∧ p'.Follows (s.phase i) := by
  rcases he with rfl | rfl
  · exact effect_advance hs
  · exact effect_unwind hs

theorem remaining_step {ts : Finset Nat} (hts : ActiveIn ts s) (he : e = .run i ∨ e = .throws i)
    (hs : s.step e = some s') : ActiveIn ts s' ∧ remaining ts s' < remaining ts s := by
  obtain ⟨p', heff, hlt⟩ := effect_step he hs
  have hi : i ∈ ts := by
    refine hts i fun hidle => ?_
    rcases he with rfl | rfl <;> simp [step, hidle, advance, unwind] at hs
  refine ⟨fun j hj => ?_, ?_⟩
  · by_cases hji : j = i
    · exact hji ▸ hi
    · rw [heff.phase, Function.update_of_ne hji] at hj
      exact hts j hj
  · rw [remaining, remaining, heff.phase]
    refine Measure.lex_lt_pair ?_
    rcases hlt.lt with hlt | ⟨hle, hlt⟩
    · exact .inl (Measure.sum_update_lt hi hlt)
    · exact .inr ⟨Measure.sum_update_le hle, Measure.sum_update_lt hi hlt⟩

/-! ## Results -/

/-- What the threads do by themselves, and without an exception. -/
def GoesOn (e : DeviceLockEvent) : Prop := ∃ i, e = .run i

def Done (s : DeviceLocks) : Prop := ∀ i, s.phase i = .idle

theorem lockInv_reach {ok : DeviceLocks → DeviceLockEvent → Prop}
    (h : Lts.Reach step ok initial s) : LockInv s :=
  h.invariant (I := LockInv) .initial fun hi _ hs => hi.step hs

theorem LockInv.activeIn (h : LockInv s) : ∃ ts, ActiveIn ts s :=
  ⟨h.active.toFinset, fun _ hi => h.active.mem_toFinset.mpr hi⟩

/-- **The deadlock, exactly.** The calls that are under way can come to an end without an exception
if and only if no thread initializes a root node for a factory while another one has the mutex of
the factory and comes to deinitialize a node. An initialization that throws then, before `holdNode`,
releases `m_initializationMutex`. -/
theorem can_complete_iff (h : Lts.Reach step (fun _ _ => True) initial s) :
    (∃ es s', (∀ e ∈ es, GoesOn e) ∧ Lts.exec step s es = some s' ∧ Done s') ↔ ¬ Doomed s := by
  have hinv : LockInv s := lockInv_reach h
  constructor
  · rintro ⟨es, s', hes, hexec, hdone⟩ hd
    have hstuck : LockInv s' ∧ Doomed s' := by
      refine Lts.exec_history (l := []) (I := fun _ s => LockInv s ∧ Doomed s) ⟨hinv, hd⟩ ?_ hes
        hexec
      rintro _ s e s' ⟨hi, hd⟩ ⟨i, rfl⟩ hs
      exact ⟨hi.step hs, hd.run hi hs⟩
    obtain ⟨-, k, j, f, hk, -⟩ := hstuck
    rw [hdone k] at hk
    cases hk
  · intro hnd
    obtain ⟨ts, hts⟩ := hinv.activeIn
    have hend : ∃ es s', (∀ e ∈ es, GoesOn e) ∧ Lts.exec step s es = some s' ∧
        (LockInv s' ∧ ¬ Doomed s' ∧ ActiveIn ts s') ∧ Done s' := by
      refine Lts.exists_exec (I := fun s => LockInv s ∧ ¬ Doomed s ∧ ActiveIn ts s)
        (m := remaining ts) ?_ ⟨hinv, hnd, hts⟩
      rintro s ⟨hi, hnd, hts⟩ hdone
      obtain ⟨i, hp⟩ := not_forall.mp hdone
      obtain ⟨j, s', hs, hnd'⟩ := exists_run hi hnd hp
      obtain ⟨hts', hlt⟩ := remaining_step hts (.inl rfl) hs
      exact ⟨_, s', ⟨j, rfl⟩, hs, ⟨hi.step hs, hnd', hts'⟩, hlt⟩
    obtain ⟨es, s', hes, hexec, -, hdone⟩ := hend
    exact ⟨es, s', hes, hexec, hdone⟩

/-- A device that is destroyed while another one is created: the one waits for the mutex of the
factory and the other for `m_initializationMutex`. -/
theorem can_complete_iff_overlap :
    ∃ s, Lts.exec step initial
        [.createDevice 1 0 10 [5], .run 1, .run 1, .run 1, .run 1, .run 1, .run 1, .run 1,
          .createDevice 2 0 11 [6], .destroyDevice 1 0 10, .run 2, .run 2, .run 1, .run 1] =
          some s ∧
      ¬ ∃ es s', (∀ e ∈ es, GoesOn e) ∧ Lts.exec step s es = some s' ∧ Done s' := by
  obtain ⟨s, hs⟩ : ∃ s, Lts.exec step initial
      [.createDevice 1 0 10 [5], .run 1, .run 1, .run 1, .run 1, .run 1, .run 1, .run 1,
        .createDevice 2 0 11 [6], .destroyDevice 1 0 10, .run 2, .run 2, .run 1, .run 1] =
      some s := ⟨_, rfl⟩
  have hreach : Lts.Reach step (fun _ _ => True) initial s :=
    Lts.Reach.refl.exec _ (.of_forall fun _ _ _ => trivial) hs
  refine ⟨s, hs, fun hend => (can_complete_iff hreach).mp hend ⟨2, 1, 0, ?_, ?_⟩⟩
  · cases hs
    rfl
  · cases hs
    rfl

/-- No device of a factory is created while one is destroyed. -/
def Separate (s : DeviceLocks) : DeviceLockEvent → Prop
  | .createDevice _ f _ _ => ∀ j, (s.phase j).destroysFor ≠ some f
  | .destroyDevice _ f _ | .destroyPointer _ f _ | .preDelete _ f =>
    ∀ j, (s.phase j).createsFor ≠ some f
  | _ => True

/-- The calls that are under way then. -/
def Apart (s : DeviceLocks) : Prop :=
  ∀ k j f, (s.phase k).createsFor = some f → (s.phase j).destroysFor ≠ some f

theorem Apart.not_doomed (h : Apart s) : ¬ Doomed s := by
  rintro ⟨k, j, f, hk, hj⟩
  exact h k j f (LockPhase.createsFor_of_initializesFor hk)
    (LockPhase.destroysFor_of_deinitializesFor hj)

theorem Apart.goto (h : Apart s) (hphase : s'.phase = Function.update s.phase i p)
    (hc : ∀ f, p.createsFor = some f → ∀ j, (s.phase j).destroysFor ≠ some f)
    (hd : ∀ f, p.destroysFor = some f → ∀ k, (s.phase k).createsFor ≠ some f)
    (hp : ∀ f, p.createsFor = some f → p.destroysFor ≠ some f) : Apart s' := by
  intro k j f hk
  rw [hphase] at hk ⊢
  by_cases hki : k = i <;> by_cases hji : j = i
  · subst hki hji
    rw [Function.update_self] at hk ⊢
    exact hp f hk
  · subst hki
    rw [Function.update_self] at hk
    rw [Function.update_of_ne hji]
    exact hc f hk j
  · subst hji
    rw [Function.update_of_ne hki] at hk
    rw [Function.update_self]
    exact fun hj => hd f hj k hk
  · rw [Function.update_of_ne hki] at hk
    rw [Function.update_of_ne hji]
    exact h k j f hk

theorem Apart.step (h : Apart s) (hok : Separate s e) (hs : s.step e = some s') : Apart s' := by
  have hthread : ∀ i, e = .run i ∨ e = .throws i → Apart s' := by
    intro i he
    obtain ⟨p', heff, hf⟩ := effect_step he hs
    have hc : ∀ f, p'.createsFor = some f → (s.phase i).createsFor = some f := fun f hp => by
      rcases hf.creates with hn | hsame
      · rw [hn] at hp
        cases hp
      · rw [← hsame, hp]
    have hd : ∀ f, p'.destroysFor = some f → (s.phase i).destroysFor = some f := fun f hp => by
      rcases hf.destroys with hn | hsame
      · rw [hn] at hp
        cases hp
      · rw [← hsame, hp]
    exact h.goto heff.phase (fun f hp j => h i j f (hc f hp))
      (fun f hp k hk => h k i f hk (hd f hp)) fun f hp hp' => h i i f (hc f hp) (hd f hp')
  cases e with
  | createDevice i f d ns =>
    obtain ⟨-, rfl⟩ := Option.ite_some_none_eq_some.mp hs
    exact h.goto rfl (fun g hg => by cases hg; exact hok) (fun g hg => by cases hg)
      fun g hg => by nofun
  | destroyDevice i f d | destroyPointer i f d | preDelete i f =>
    obtain ⟨-, rfl⟩ := Option.ite_some_none_eq_some.mp hs
    exact h.goto rfl (fun g hg => by cases hg) (fun g hg => by cases hg; exact hok)
      fun g hg => by cases hg
  | run i => exact hthread i (.inl rfl)
  | throws i => exact hthread i (.inr rfl)

/-- What the threads do by themselves. -/
def ByThread (e : DeviceLockEvent) : Prop := ∃ i, e = .run i ∨ e = .throws i

/-- **Without an overlap the calls complete.** Where no device of a factory is created while one is
destroyed, every schedule of the calls that are under way is finite, whatever throws, and ends with
all of them done; none of them ever needs an exception to go on. -/
theorem separate_completes (h : Lts.Reach step Separate initial s) :
    Lts.Completes step ByThread GoesOn Done s := by
  have hinv : LockInv s := lockInv_reach h
  have hapart : Apart s := by
    refine h.invariant (I := Apart) ?_ fun hi hok hs => hi.step hok hs
    intro k j f hk
    cases hk
  obtain ⟨ts, hts⟩ := hinv.activeIn
  refine Lts.completes_of_measure (I := fun s => LockInv s ∧ Apart s ∧ ActiveIn ts s)
    (m := remaining ts) ?_ ?_ ⟨hinv, hapart, hts⟩
  · rintro s e s' ⟨hi, ha, hts⟩ ⟨i, he⟩ hs
    obtain ⟨hts', hlt⟩ := remaining_step hts he hs
    have hsep : Separate s e := by
      rcases he with rfl | rfl <;> trivial
    exact ⟨⟨hi.step hs, ha.step hsep hs, hts'⟩, hlt⟩
  · rintro s ⟨hi, ha, -⟩ hdone
    obtain ⟨i, hp⟩ := not_forall.mp hdone
    obtain ⟨j, s', hs, -⟩ := exists_run hi ha.not_doomed hp
    exact ⟨_, s', ⟨j, rfl⟩, hs⟩

/-- A device is created while one of another factory is destroyed, which has to wait. -/
theorem separate_completes_two :
    ∃ s, Lts.exec step initial
        [.createDevice 2 1 11 [6], .run 2, .run 2, .run 2, .run 2, .run 2, .run 2, .run 2,
          .createDevice 1 0 10 [5], .destroyDevice 2 1 11, .run 1, .run 1, .run 2, .run 2] =
          some s ∧
      s.owner .initializationMutex = some 1 ∧ s.owner (.mutex 1) = some 2 ∧
      s.step (.run 2) = none ∧ Lts.Completes step ByThread GoesOn Done s := by
  have h0 : Lts.Reach step Separate initial _ := .refl
  have h1 := h0.step (e := DeviceLockEvent.createDevice 2 1 11 [6])
    (fun j => by simp [initial, LockPhase.destroysFor]) rfl
  have h2 := h1.exec [.run 2, .run 2, .run 2, .run 2, .run 2, .run 2, .run 2]
    (.of_forall (by simp [Separate])) rfl
  have h3 := h2.step (e := DeviceLockEvent.createDevice 1 0 10 [5]) (fun j => by
    by_cases hj : j = 2 <;> simp [goto, own, push, initial, hj, LockPhase.destroysFor]) rfl
  have h4 := h3.step (e := DeviceLockEvent.destroyDevice 2 1 11) (fun j => by
    by_cases hj : j = 2 <;> by_cases hj' : j = 1 <;>
      simp [goto, own, push, initial, hj, hj', LockPhase.createsFor]) rfl
  have h5 := h4.exec [.run 1, .run 1, .run 2, .run 2] (.of_forall (by simp [Separate])) rfl
  exact ⟨_, rfl, rfl, rfl, rfl, separate_completes h5⟩

end

end DeviceLocks

end Nds3
