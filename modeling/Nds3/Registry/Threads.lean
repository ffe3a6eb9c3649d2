import Nds3.Registry.Refinement
import Nds3.Registry.SetValue
import Nds3.Registry.FanOut
import Mathlib.Data.List.Sort

/-!
# Threads in the registry

Any number of threads push to input PVs, set input variables and operate on the registry. What the
sequential model does in one step is here cut up at the locks:

* an operation holds `m_lockRegisteredPVs` from beginning to end, and takes the
  `m_lockSubscribersList` of one input PV after the other, each only for its change;
* a push holds the `m_lockSubscribersList` of its PV while it writes the subscribers and pushes the
  destinations, and so holds one lock more at each level;
* `setValue` stores the value under `m_pvMutex` and then holds the lock while it writes.

A thread is the list of what it has still to do. A lock is released by an entry of that list, so an
exception drops everything but the releases.

What the `write` of an output PV answers comes with the step: it accepts the value or throws. It
comes back, takes no lock of the registry, of a PV or of a state machine, and makes no call of its
own. The PV `setState` of a state machine is not such an output PV: in its `write` the machine takes
`m_stateMutex` and pushes its PV `getState`. The `push` of the port, which a value is forwarded to,
is taken to return, and not to call the registry either.
-/

namespace Nds3

open Relation Dag

/-- The locks that are held over more than one step. -/
inductive Mutex where
  | lockRegisteredPVs
  | lockSubscribersList (pv : Nat)
  deriving DecidableEq

/-- One change of the links of one input PV. -/
inductive LinkChange where
  | subscribeReceiver (pv pReceiver : Nat)
  | unsubscribeReceiver (pv pReceiver : Nat)
  | replicateTo (pv pDestination : Nat)
  | stopReplicationTo (pv pDestination : Nat)
  deriving DecidableEq

namespace LinkChange

def pv : LinkChange → Nat
  | subscribeReceiver pv _ | unsubscribeReceiver pv _ | replicateTo pv _ | stopReplicationTo pv _ =>
    pv

def apply : LinkChange → PVBaseIn → PVBaseIn
  | subscribeReceiver _ q => (·.subscribeReceiver q)
  | unsubscribeReceiver _ q => (·.unsubscribeReceiver q)
  | replicateTo _ d => (·.replicateTo d)
  | stopReplicationTo _ d => (·.stopReplicationTo d)

def run (f : NdsFactory) (c : LinkChange) : NdsFactory := f.modify c.pv c.apply

end LinkChange

namespace NdsFactory

/-- The registered input PVs in the order of the map, which is that of their names. -/
def inputsInOrder (f : NdsFactory) : List Nat :=
  (f.registeredInputPVs.entries.mergeSort fun a b => decide (a.1 ≤ b.1)).map Sigma.snd

variable (names : FullNames) (f : NdsFactory)

/-- The changes an operation makes to the links, if it does not throw. -/
def changes : Op → List LinkChange
  | .registerInputPV _ | .registerOutputPV _ => []
  | .deregisterInputPV p =>
    (inputsInOrder { f with
      registeredInputPVs := f.registeredInputPVs.erase (names.input p) }).map
        (.stopReplicationTo · p)
  | .deregisterOutputPV q | .unsubscribePV q => f.inputsInOrder.map (.unsubscribeReceiver · q)
  | .unsubscribe dst => (f.registeredOutputPVs.lookup dst).toList.flatMap fun q =>
      f.inputsInOrder.map (.unsubscribeReceiver · q)
  | .stopReplicationToPV d => f.inputsInOrder.map (.stopReplicationTo · d)
  | .stopReplicationTo dst => (f.registeredInputPVs.lookup dst).toList.flatMap fun d =>
      f.inputsInOrder.map (.stopReplicationTo · d)
  | .subscribePV src q => (f.registeredInputPVs.lookup src).toList.map (.subscribeReceiver · q)
  | .subscribe src dst => (f.registeredOutputPVs.lookup dst).toList.flatMap fun q =>
      (f.registeredInputPVs.lookup src).toList.map (.subscribeReceiver · q)
  | .replicatePV src d => (f.registeredInputPVs.lookup src).toList.map (.replicateTo · d)
  | .replicate src dst => (f.registeredInputPVs.lookup dst).toList.flatMap fun d =>
      (f.registeredInputPVs.lookup src).toList.map (.replicateTo · d)

/-- An operation up to its first change of a link: it has checked and changed the maps. -/
def prepare (op : Op) : NdsFactory × Except Exn Unit :=
  let (f', r) := f.exec names op
  ({ f' with inputPVs := f.inputPVs }, r)

end NdsFactory

/-- What a thread has to do. -/
inductive Instr (V : Type*) where
  /-- `setValue` stores the value and the timestamp. -/
  | store (pv : Nat) (timestamp : Timespec) (value : V)
  /-- `push` up to the lock. -/
  | push (pv : Nat) (timestamp : Timespec) (value : V)
  /-- The lock of the PV is taken, for the subscribers and, by `push`, for the destinations. -/
  | lockSubscribersList (pv : Nat) (timestamp : Timespec) (value : V) (replicate : Bool)
  | write (source pv : Nat) (timestamp : Timespec) (value : V)
  | release (m : Mutex)
  /-- An operation of the registry up to its first change of a link. -/
  | operate (op : Op)
  /-- A change of the links of a PV, under its lock. -/
  | change (c : LinkChange)

inductive ThreadCall (V : Type*) where
  | push (pv : Nat) (timestamp : Timespec) (value : V)
  | setValue (pv : Nat) (timestamp : Timespec) (value : V)
  | operate (op : Op)

/-- What can be seen of the threads. -/
inductive Happened (V : Type*) where
  | called (c : ThreadCall V)
  | saw (ev : PushEvent V)
  /-- The lock of the PV is taken to deliver the value. -/
  | locked (pv : Nat) (timestamp : Timespec) (value : V)
  /-- The operation has taken the lock of the registry. -/
  | operated (op : Op) (r : Except Exn Unit)

inductive ThreadEvent (V : Type*) where
  | call (i : Nat) (c : ThreadCall V)
  /-- The thread goes on; if it writes an output PV, that answers. -/
  | run (i : Nat) (answer : Option Exn)

structure Threads (V : Type*) where
  factory : NdsFactory
  /-- `m_timestamp` and `m_value` of the input variables. -/
  stored : Nat → Timespec × V
  owner : Mutex → Option Nat
  todo : Nat → List (Instr V)
  /-- What has happened, and in which thread. -/
  log : List (Nat × Happened V)

variable {V : Type*}

def Instr.released : Instr V → Option Mutex
  | .release m => some m
  | _ => none

/-- A call of `push`. -/
def Instr.pushBody (t : Timespec) (v : V) (p : Nat) : List (Instr V) :=
  [.push p t v, .lockSubscribersList p t v true]

/-- What is done under the lock of a PV. -/
def Instr.deliveries (pv : PVBaseIn) (p : Nat) (t : Timespec) (v : V) (replicate : Bool) :
    List (Instr V) :=
  pv.subscriberOutputPVs.elems.map (.write p · t v) ++
    if replicate then pv.replicationDestinationPVs.elems.flatMap (pushBody t v) else []

def ThreadCall.body : ThreadCall V → List (Instr V)
  | .push p t v => Instr.pushBody t v p
  | .setValue p t v => [.store p t v, .lockSubscribersList p t v false]
  | .operate op => [.operate op]

namespace Threads

/-- No thread has a call, and no lock is held. -/
def initial (f : NdsFactory) (stored : Nat → Timespec × V) : Threads V :=
  ⟨f, stored, fun _ => none, fun _ => [], []⟩

section

variable (names : FullNames) (s : Threads V)

def goto (i : Nat) (l : List (Instr V)) : Threads V :=
  { s with todo := Function.update s.todo i l }

def record (i : Nat) (l : List (Happened V)) : Threads V :=
  { s with log := s.log ++ l.map (i, ·) }

def own (m : Mutex) (o : Option Nat) : Threads V :=
  { s with owner := Function.update s.owner m o }

/-- The first of what the thread has to do; `none` if it waits for a lock. -/
def advance (i : Nat) (answer : Option Exn) (rest : List (Instr V)) :
    Instr V → Option (Threads V)
  | .store p t v => some { s.goto i rest with stored := Function.update s.stored p (t, v) }
  | .push p t v =>
    let pv := s.factory.inputPVs p
    some { (s.goto i rest).record i (.saw (.push p t v) ::
        if pv.decimate.2 then [.saw (.forward p t v)] else []) with
      factory := s.factory.modify p (·.decimate.1) }
  | .lockSubscribersList p t v replicate =>
    if s.owner (.lockSubscribersList p) = none then
      some (((s.goto i (Instr.deliveries (s.factory.inputPVs p) p t v replicate ++
          .release (.lockSubscribersList p) :: rest)).own (.lockSubscribersList p) (some i)).record i
        [.locked p t v])
    else none
  -- it takes no lock, and always comes back
  | .write p q t v =>
    some ((s.goto i (if answer.isNone then rest else rest.filter (·.released.isSome))).record i
      [.saw (.write p q t v)])
  | .release m => some ((s.goto i rest).own m none)
  | .operate op =>
    if s.owner .lockRegisteredPVs = none then
      match s.factory.prepare names op with
      | (f, .ok u) =>
        some { (((s.goto i ((s.factory.changes names op).map .change ++
              .release .lockRegisteredPVs :: rest)).own .lockRegisteredPVs (some i)).record i
            [.operated op (.ok u)]) with
          factory := f }
      | (_, .error e) => some ((s.goto i rest).record i [.operated op (.error e)])
    else none
  | .change c =>
    if s.owner (.lockSubscribersList c.pv) = none then
      some { s.goto i rest with factory := c.run s.factory }
    else none

def step : ThreadEvent V → Option (Threads V)
  | .call i c =>
    match s.todo i with
    | [] => some ((s.goto i c.body).record i [.called c])
    | _ => none
  | .run i answer =>
    match s.todo i with
    | [] => none
    | instr :: rest => s.advance names i answer rest instr

end

end Threads

/-! ## The steps -/

namespace Threads

theorem owner_own_of_ne {s : Threads V} {m m' : Mutex} {o : Option Nat} (h : m' ≠ m) :
    (s.own m o).owner m' = s.owner m' := Function.update_of_ne h ..

inductive Effect (names : FullNames) (s : Threads V) : ThreadEvent V → Threads V → Prop where
  | call {i : Nat} {c : ThreadCall V} (htodo : s.todo i = []) :
      Effect names s (.call i c) ((s.goto i c.body).record i [.called c])
  | store {i p : Nat} {t : Timespec} {v : V} {answer : Option Exn} {rest : List (Instr V)}
      (htodo : s.todo i = .store p t v :: rest) :
      Effect names s (.run i answer)
        { s.goto i rest with stored := Function.update s.stored p (t, v) }
  | push {i p : Nat} {t : Timespec} {v : V} {answer : Option Exn} {rest : List (Instr V)}
      (htodo : s.todo i = .push p t v :: rest) :
      Effect names s (.run i answer)
        { (s.goto i rest).record i (.saw (.push p t v) ::
            if (s.factory.inputPVs p).decimate.2 then [.saw (.forward p t v)] else []) with
          factory := s.factory.modify p (·.decimate.1) }
  | lock {i p : Nat} {t : Timespec} {v : V} {replicate : Bool} {answer : Option Exn}
      {rest : List (Instr V)} (htodo : s.todo i = .lockSubscribersList p t v replicate :: rest)
      (hfree : s.owner (.lockSubscribersList p) = none) :
      Effect names s (.run i answer)
        (((s.goto i (Instr.deliveries (s.factory.inputPVs p) p t v replicate ++
          .release (.lockSubscribersList p) :: rest)).own (.lockSubscribersList p) (some i)).record i
        [.locked p t v])
  | write {i p q : Nat} {t : Timespec} {v : V} {rest : List (Instr V)}
      (htodo : s.todo i = .write p q t v :: rest) :
      Effect names s (.run i none) ((s.goto i rest).record i [.saw (.write p q t v)])
  | threw {i p q : Nat} {t : Timespec} {v : V} {e : Exn} {rest : List (Instr V)}
      (htodo : s.todo i = .write p q t v :: rest) :
      Effect names s (.run i (some e))
        ((s.goto i (rest.filter (·.released.isSome))).record i [.saw (.write p q t v)])
  | release {i : Nat} {m : Mutex} {answer : Option Exn} {rest : List (Instr V)}
      (htodo : s.todo i = .release m :: rest) :
      Effect names s (.run i answer) ((s.goto i rest).own m none)
  | operate {i : Nat} {op : Op} {answer : Option Exn} {rest : List (Instr V)} {f : NdsFactory}
      (htodo : s.todo i = .operate op :: rest) (hfree : s.owner .lockRegisteredPVs = none)
      (hok : s.factory.exec names op = (f, .ok ())) :
      Effect names s (.run i answer)
        { (((s.goto i ((s.factory.changes names op).map .change ++
              .release .lockRegisteredPVs :: rest)).own .lockRegisteredPVs (some i)).record i
            [.operated op (.ok ())]) with
          factory := { f with inputPVs := s.factory.inputPVs } }
  | refused {i : Nat} {op : Op} {answer : Option Exn} {rest : List (Instr V)} {e : Exn}
      (htodo : s.todo i = .operate op :: rest) (hfree : s.owner .lockRegisteredPVs = none)
      (herror : s.factory.exec names op = (s.factory, .error e)) :
      Effect names s (.run i answer) ((s.goto i rest).record i [.operated op (.error e)])
  | change {i : Nat} {c : LinkChange} {answer : Option Exn} {rest : List (Instr V)}
      (htodo : s.todo i = .change c :: rest)
      (hfree : s.owner (.lockSubscribersList c.pv) = none) :
      Effect names s (.run i answer) { s.goto i rest with factory := c.run s.factory }

theorem step_effect {names : FullNames} {s s' : Threads V} {e : ThreadEvent V}
    (h : s.step names e = some s') : Effect names s e s' := by
  cases e with
  | call i c =>
    simp only [step] at h
    split at h
    · next htodo =>
      cases h
      exact .call htodo
    · cases h
  | run i answer =>
    simp only [step] at h
    split at h
    · cases h
    next instr rest htodo =>
    cases instr with
    | store p t v =>
      cases h
      exact .store htodo
    | push p t v =>
      cases h
      exact .push htodo
    | lockSubscribersList p t v replicate =>
      simp only [advance] at h
      split at h
      · next hfree =>
        cases h
        exact .lock htodo hfree
      · cases h
    | write p q t v =>
      cases answer with
      | none =>
        cases h
        exact .write htodo
      | some e =>
        cases h
        exact .threw htodo
    | release m =>
      cases h
      exact .release htodo
    | operate op =>
      simp only [advance] at h
      split at h
      · next hfree =>
        cases hx : s.factory.exec names op with
        | mk f r =>
          cases r with
          | error e =>
            rw [NdsFactory.prepare, hx] at h
            cases h
            exact .refused htodo hfree (by rw [hx, NdsFactory.exec_error hx])
          | ok u =>
            rw [NdsFactory.prepare, hx] at h
            cases h
            exact .operate htodo hfree hx
      · cases h
    | change c =>
      simp only [advance] at h
      split at h
      · next hfree =>
        cases h
        exact .change htodo hfree
      · cases h

end Threads

/-! ## An operation is its changes -/

namespace NdsFactory

variable {names : FullNames} {f f' : NdsFactory} {g : PVBaseIn → PVBaseIn}

theorem mem_inputsInOrder {p : Nat} :
    p ∈ f.inputsInOrder ↔ p ∈ f.registeredInputPVs.entries.map Sigma.snd :=
  ((List.mergeSort_perm _ _).map _).mem_iff

/-- The order of the loop does not matter when it is alone. -/
theorem foldl_inputsInOrder (hg : ∀ pv, g (g pv) = g pv) :
    f.inputsInOrder.foldl (·.modify · g) f = f.scanInputs g := by
  obtain ⟨hi, ho, hout⟩ := foldl_modify (f := f) (g := g) f.inputsInOrder
  obtain ⟨hi', ho', hout'⟩ :=
    foldl_modify (f := f) (g := g) (f.registeredInputPVs.entries.map Sigma.snd)
  have hpvs : (f.inputsInOrder.foldl (·.modify · g) f).inputPVs = (f.scanInputs g).inputPVs := by
    funext p
    by_cases hp : p ∈ f.inputsInOrder
    · rw [foldl_modify_of_mem hg hp]
      exact (foldl_modify_of_mem hg (mem_inputsInOrder.mp hp)).symm
    · rw [hout p hp]
      exact (hout' p fun hp' => hp (mem_inputsInOrder.mpr hp')).symm
  calc f.inputsInOrder.foldl (·.modify · g) f
      = ⟨f.registeredInputPVs, f.registeredOutputPVs, (f.scanInputs g).inputPVs⟩ := by
        rw [← hi, ← ho, ← hpvs]
    _ = f.scanInputs g := by
        rw [← scanInputs_registeredInputPVs (f := f) (g := g),
          ← scanInputs_registeredOutputPVs (f := f) (g := g)]

theorem changes_resolve {op op' : Op} (h : f.resolve op = some op') :
    f.changes names op = f.changes names op' := by
  cases op with
  | subscribe src dst | unsubscribe dst | replicate src dst | stopReplicationTo dst =>
    obtain ⟨q, hq, rfl⟩ := Option.map_eq_some_iff.mp h
    simp only [changes, hq, Option.toList_some, List.flatMap_singleton]
  | _ =>
    cases h
    rfl

theorem scanInputs_restore :
    ({ f.scanInputs g with inputPVs := f.inputPVs } : NdsFactory) = f := by
  simp only [scanInputs_registeredInputPVs, scanInputs_registeredOutputPVs]

theorem foldl_unsubscribeReceiver (q : Nat) (ps : List Nat) :
    (ps.map (LinkChange.unsubscribeReceiver · q)).foldl LinkChange.run f =
      ps.foldl (·.modify · (·.unsubscribeReceiver q)) f := by
  rw [List.foldl_map]
  rfl

theorem foldl_stopReplicationTo (d : Nat) (ps : List Nat) :
    (ps.map (LinkChange.stopReplicationTo · d)).foldl LinkChange.run f =
      ps.foldl (·.modify · (·.stopReplicationTo d)) f := by
  rw [List.foldl_map]
  rfl

/-- **An operation on its own** does what the sequential model says: one change after the other
leads to where the operation leads in one step. -/
theorem foldl_changes {op : Op} (h : f.exec names op = (f', .ok ())) :
    (f.changes names op).foldl LinkChange.run (f.prepare names op).1 = f' := by
  obtain ⟨op', hr, hx⟩ := exec_resolve h
  have hprepare : (f.prepare names op).1 = { f' with inputPVs := f.inputPVs } := by rw [prepare, h]
  rw [changes_resolve hr, hprepare]
  cases op' with
  | registerInputPV p =>
    obtain ⟨-, -, rfl⟩ := registerInputPV_ok hx
    rfl
  | registerOutputPV q =>
    obtain ⟨-, -, rfl⟩ := registerOutputPV_ok hx
    rfl
  | subscribePV src q =>
    obtain ⟨-, p, hp, rfl⟩ := subscribePV_ok hx
    simp only [changes, hp]
    rfl
  | replicatePV src d =>
    obtain ⟨-, p, hp, rfl⟩ := replicatePV_ok hx
    simp only [changes, hp]
    rfl
  | deregisterInputPV p =>
    cases hx
    rw [scanInputs_restore, changes, foldl_stopReplicationTo]
    exact foldl_inputsInOrder (PVBaseIn.stopReplicationTo_idem p)
  | deregisterOutputPV q =>
    cases hx
    rw [scanInputs_restore, changes, foldl_unsubscribeReceiver]
    exact foldl_inputsInOrder (PVBaseIn.unsubscribeReceiver_idem q)
  | unsubscribePV q =>
    cases hx
    rw [scanInputs_restore, changes, foldl_unsubscribeReceiver]
    exact foldl_inputsInOrder (PVBaseIn.unsubscribeReceiver_idem q)
  | stopReplicationToPV d =>
    cases hx
    rw [scanInputs_restore, changes, foldl_stopReplicationTo]
    exact foldl_inputsInOrder (PVBaseIn.stopReplicationTo_idem d)
  | subscribe src dst | unsubscribe dst | replicate src dst | stopReplicationTo dst =>
    -- the pointer form is not a form by name
    cases op <;> simp [resolve] at hr

end NdsFactory

/-! ## Threads that only deliver -/

/-- The instruction is neither an operation of the registry nor a part of one. -/
def Instr.Delivers : Instr V → Prop
  | .operate _ | .change _ => False
  | _ => True

namespace Threads

variable {names : FullNames} {s s' : Threads V} {e : ThreadEvent V}

/-- No operation of the registry is under way. -/
def Delivering (s : Threads V) : Prop := ∀ i, ∀ x ∈ s.todo i, x.Delivers

def NoOperation (_ : Threads V) : ThreadEvent V → Prop
  | .call _ (.operate _) => False
  | _ => True

structure SameLinks (s s' : Threads V) : Prop where
  subscribers : s'.factory.subscribers = s.factory.subscribers
  destinations : s'.factory.destinations = s.factory.destinations

theorem Delivering.goto (h : Delivering s) {i : Nat} {l : List (Instr V)}
    (hl : ∀ x ∈ l, x.Delivers) (j : Nat) :
    ∀ x ∈ Function.update s.todo i l j, x.Delivers := by
  by_cases hj : j = i
  · rw [hj, Function.update_self]
    exact hl
  · rw [Function.update_of_ne hj]
    exact h j

theorem sameLinks_push (p : Nat) :
    (s.factory.modify p (·.decimate.1)).subscribers = s.factory.subscribers ∧
      (s.factory.modify p (·.decimate.1)).destinations = s.factory.destinations := by
  constructor
  · funext x
    exact NdsFactory.modify_inputPVs_congr (g := (·.decimate.1)) (·.subscriberOutputPVs)
      PVBaseIn.decimate_subscriberOutputPVs p x
  · funext x
    exact NdsFactory.modify_inputPVs_congr (g := (·.decimate.1)) (·.replicationDestinationPVs)
      PVBaseIn.decimate_replicationDestinationPVs p x

/-- **Only operations change the links.** -/
theorem Delivering.step (h : Delivering s) (he : NoOperation s e)
    (hs : s.step names e = some s') : Delivering s' ∧ SameLinks s s' := by
  have htail : ∀ {i x rest}, s.todo i = x :: rest → ∀ y ∈ rest, y.Delivers :=
    fun htodo y hy => h _ y (htodo ▸ List.mem_cons_of_mem _ hy)
  cases step_effect hs with
  | @call i c htodo =>
    refine ⟨h.goto fun x hx => ?_, rfl, rfl⟩
    cases c with
    | push p t v | setValue p t v =>
      rcases List.mem_pair.mp hx with rfl | rfl <;> trivial
    | operate op => exact he.elim
  | @push i p t v answer rest htodo =>
    exact ⟨h.goto (htail htodo), (sameLinks_push p).1, (sameLinks_push p).2⟩
  | @lock i p t v replicate answer rest htodo hfree =>
    refine ⟨h.goto fun x hx => ?_, rfl, rfl⟩
    rcases List.mem_append.mp hx with hx | hx
    · rcases List.mem_append.mp hx with hx | hx
      · obtain ⟨q, -, rfl⟩ := List.mem_map.mp hx
        trivial
      · split at hx
        · obtain ⟨d, -, hx⟩ := List.mem_flatMap.mp hx
          rcases List.mem_pair.mp hx with rfl | rfl <;> trivial
        · cases hx
    · rcases List.mem_cons.mp hx with rfl | hx
      · trivial
      · exact htail htodo x hx
  | @threw i p q t v e rest htodo =>
    exact ⟨h.goto fun x hx => htail htodo x (List.mem_of_mem_filter hx), rfl, rfl⟩
  | @store i p t v answer rest htodo => exact ⟨h.goto (htail htodo), rfl, rfl⟩
  | @write i p q t v rest htodo => exact ⟨h.goto (htail htodo), rfl, rfl⟩
  | @release i m answer rest htodo => exact ⟨h.goto (htail htodo), rfl, rfl⟩
  | @operate i op answer rest f htodo _ _ =>
    exact (h i (.operate op) (htodo ▸ List.mem_cons_self ..)).elim
  | @refused i op answer rest e htodo _ _ =>
    exact (h i (.operate op) (htodo ▸ List.mem_cons_self ..)).elim
  | @change i c answer rest htodo _ =>
    exact (h i (.change c) (htodo ▸ List.mem_cons_self ..)).elim

/-- **Run lemma.** -/
theorem Delivering.reach {s₀ : Threads V} (h : Lts.Reach (Threads.step names) NoOperation s₀ s)
    (h0 : Delivering s₀) : Delivering s ∧ SameLinks s₀ s :=
  h.invariant (I := fun s => Delivering s ∧ SameLinks s₀ s) ⟨h0, rfl, rfl⟩ fun hi he hs => by
    obtain ⟨hd, hl⟩ := hi.1.step he hs
    exact ⟨hd, hl.subscribers.trans hi.2.subscribers, hl.destinations.trans hi.2.destinations⟩

theorem Delivering.initial (f : NdsFactory) (stored : Nat → Timespec × V) :
    Delivering (initial f stored) := fun _ _ hx => by cases hx

end Threads

/-! ## The diamond -/

theorem finite_edges_diamond : {p | succ diamond.destinations p ≠ []}.Finite := by
  refine (Set.finite_lt_nat 4).subset fun p hp => ?_
  obtain ⟨d, hd⟩ := List.exists_mem_of_ne_nil _ hp
  obtain ⟨hlt, hd4⟩ := lt_of_mem_diamond hd
  have : d ≤ 4 := by
    simp only [List.mem_cons, List.not_mem_nil, or_false] at hd4
    omega
  exact lt_of_lt_of_le hlt this

end Nds3
