import Nds3.StateMachine.Exclusion
import Nds3.Registry.Decimation

/-!
# `DataAcquisitionImpl`

The start function of an acquisition node is `onStart`, which stores the start time, sets the
decimation of the data PV to the value that the PV `Decimation` has then, and calls the start
function of the driver. Its machine is asynchronous, so all this happens while other threads write
the PV, push data and request transitions. What `onStart` has stored is in force while the node is
running, whatever has been written since (`started_running`).

`m_startTimestampFunction` and the start function of the driver are the user's, and may throw.

The PV holds an `std::int32_t`, which `setDecimation` gets as the `std::uint32_t` it is converted
to; zero counts `2 ^ 32` pushes (`PVBaseIn.ratio`). The code has no lock for the countdown. It is
assumed that no call of `push` on the data PV overlaps another one, or a `setDecimation`: each of
them is one step.
-/

namespace Nds3

/-- Where a call of `onStart` is. -/
inductive OnStart where
  | entered
  /-- `m_startTime` is set. -/
  | timestamped
  /-- The decimation is set, and the driver's function is called. -/
  | delegated
  deriving DecidableEq

/-- What a call of `onStart` has stored. -/
structure Started where
  timestamp : Timespec
  decimation : Int32

/-- A `DataAcquisitionImpl` and the PVs its data PV is linked to. -/
structure Acquisition (V : Type*) where
  stateMachine : System
  startTime : Timespec
  /-- The value of `m_decimationPV`. -/
  decimation : Int32
  pvs : PushState V
  /-- The calls of `onStart`, by the transition they execute. -/
  onStart : Nat → Option OnStart
  /-- Kept beside the members: what was stored, and the calls on the data PV since the last time. -/
  started : List Started
  calls : List (PVCall V)

inductive AcquisitionEvent (V : Type*) where
  | stateMachine (ev : Event)
  /-- `m_startTimestampFunction` returns. -/
  | startTimestamp (i : Nat) (timestamp : Timespec)
  | setDecimation (i : Nat)
  /-- Somebody writes `m_decimationPV`. -/
  | writeDecimation (value : Int32)
  /-- `push`, or the command `decimation` on the data PV. -/
  | dataPV (c : PVCall V)

namespace Acquisition

variable {V : Type*}

/-- After the constructor and `initialize`. -/
def initial (uninitialised startTime timestamp : Timespec) (pvs : PushState V) : Acquisition V :=
  ⟨.initial true uninitialised timestamp, startTime, 1, pvs, fun _ => none, [], []⟩

section

variable (s : Acquisition V)

/-- `onStart` ends where one of the user's functions does. -/
def ends (i : Nat) (outcome : Option Exn) : Bool :=
  match s.onStart i with
  | none | some .delegated => true
  | some .entered => outcome.isSome
  | some .timestamped => false

/-- The calls of `onStart` after a step of the machine. -/
def onStartAfter : Event → Nat → Option OnStart
  | .call i =>
    if (s.stateMachine.tasks i).any (·.transition.transitionFunction == .start) then
      Function.update s.onStart i (some .entered)
    else s.onStart
  | .exit i _ => Function.update s.onStart i none
  | _ => s.onStart

/-- A transition function that is a call of `onStart` ends when that does. -/
def allows : Event → Bool
  | .exit i outcome => s.ends i outcome
  | _ => true

end

def step (fuel dataPV : Nat) (s : Acquisition V) : AcquisitionEvent V → Option (Acquisition V)
  | .stateMachine ev =>
    if s.allows ev then
      (s.stateMachine.step ev).map fun stateMachine =>
        { s with stateMachine, onStart := s.onStartAfter ev }
    else none
  | .startTimestamp i timestamp =>
    if s.onStart i = some .entered then
      some { s with
        startTime := timestamp
        onStart := Function.update s.onStart i (some .timestamped) }
    else none
  | .setDecimation i =>
    if s.onStart i = some .timestamped then
      (PVCall.step fuel dataPV s.pvs (.setDecimation s.decimation.toUInt32)).map fun pvs =>
        { s with
          pvs
          onStart := Function.update s.onStart i (some .delegated)
          started := s.started ++ [⟨s.startTime, s.decimation⟩]
          calls := [] }
    else none
  | .writeDecimation value => some { s with decimation := value }
  | .dataPV c =>
    (PVCall.step fuel dataPV s.pvs c).map fun pvs => { s with pvs, calls := s.calls ++ [c] }

/-- What is assumed of a step of the machine. -/
def Assumed (s : Acquisition V) : AcquisitionEvent V → Prop
  | .stateMachine ev => System.Assumed s.stateMachine ev
  | _ => True

/-- What the last call of `onStart` has stored is in force: the start time, and the decimation as
the calls on the data PV since then have left it. -/
def InForce (dataPV : Nat) (s : Acquisition V) : Prop :=
  ∃ st, s.started.getLast? = some st ∧ s.startTime = st.timestamp ∧
    (s.pvs.inputPVs dataPV).Counted (PVCall.since s.calls (st.decimation.toUInt32, 0)).1
      (PVCall.since s.calls (st.decimation.toUInt32, 0)).2

/-- The node is running or on its way from or to it, past the start time and the decimation. -/
def Begun (s : Acquisition V) : Prop :=
  s.stateMachine.machine.localState = .running ∨ s.stateMachine.machine.localState = .stopping ∨
    (∃ i, s.onStart i = some .delegated) ∨
    ∃ i t, s.stateMachine.tasks i = some ⟨t, .returned⟩ ∧ t.transitionFunction = .start

/-- The invariant: `onStart` is under way exactly while the machine executes a start. -/
structure Inv (dataPV : Nat) (s : Acquisition V) : Prop where
  exclusive : s.stateMachine.Exclusive
  onStart : ∀ i, s.onStart i ≠ none ↔
    ∃ t, s.stateMachine.tasks i = some ⟨t, .executing⟩ ∧ t.transitionFunction = .start
  inForce : s.Begun → s.InForce dataPV

section

variable {fuel dataPV : Nat} {s s' : Acquisition V} {m : System}

theorem since_concat (calls : List (PVCall V)) (c : PVCall V) (dn : UInt32 × Nat) :
    PVCall.since (calls ++ [c]) dn = PVCall.since [c] (PVCall.since calls dn) := by
  induction calls generalizing dn with
  | nil => rfl
  | cons c' calls ih =>
    obtain ⟨d, n⟩ := dn
    cases c' with
    | setDecimation d' => exact ih (d', 0)
    | push c' => exact ih (d, n + 1)

/-- A step of the machine on a pending transition. -/
theorem Inv.advance (h : s.Inv dataPV) (hx : m.Exclusive) {i : Nat} {t : Transition} {p q : Phase}
    (ht : s.stateMachine.tasks i = some ⟨t, p⟩)
    (hm : m.machine = s.stateMachine.machine)
    (hs : m.tasks = Function.update s.stateMachine.tasks i (some ⟨t, q⟩))
    {onStart : Nat → Option OnStart} (hold : ∀ j, j ≠ i → onStart j = s.onStart j)
    (hnew : onStart i ≠ none ↔ q = .executing ∧ t.transitionFunction = .start)
    (hdel : onStart i ≠ some .delegated)
    (hret : q = .returned → t.transitionFunction = .start → s.Begun) :
    Inv dataPV { s with stateMachine := m, onStart } := by
  have hother : ∀ j, j ≠ i → s.stateMachine.tasks j = none := by
    intro j hji
    by_contra hj
    exact hji (h.exclusive.atMostOne j i hj (by simp [ht]))
  refine ⟨hx, fun j => ?_, ?_⟩
  · by_cases hji : j = i
    · subst hji
      simp [hs, hnew]
    · simp only [hold j hji, hs, Function.update_of_ne hji]
      exact h.onStart j
  · rintro (hrun | hstop | ⟨j, hj⟩ | ⟨j, u, hj, hu⟩)
    · exact h.inForce (.inl (hm ▸ hrun))
    · exact h.inForce (.inr (.inl (hm ▸ hstop)))
    · by_cases hji : j = i
      · exact absurd (hji ▸ hj) hdel
      · exact h.inForce (.inr (.inr (.inl ⟨j, (hold j hji).symm.trans hj⟩)))
    · by_cases hji : j = i
      · subst hji
        simp only [hs, Function.update_self, Option.some.injEq, Task.mk.injEq] at hj
        obtain ⟨rfl, hq⟩ := hj
        exact h.inForce (hret hq hu)
      · simp only [hs, Function.update_of_ne hji, hother j hji] at hj
        cases hj

theorem Inv.onStart_eq_none (h : s.Inv dataPV)
    (ht : ∀ i t, s.stateMachine.tasks i ≠ some ⟨t, .executing⟩) (i : Nat) : s.onStart i = none := by
  by_contra hi
  obtain ⟨t, hexec, -⟩ := (h.onStart i).mp hi
  exact ht i t hexec

/-- A step of the machine that sets a state. -/
theorem Inv.change (h : s.Inv dataPV) (hx : m.Exclusive)
    (ht : ∀ i t, s.stateMachine.tasks i ≠ some ⟨t, .executing⟩)
    (ht' : ∀ i t, m.tasks i = some t → t.phase = .accepted)
    (hl : m.machine.localState = .running ∨ m.machine.localState = .stopping → s.Begun) :
    Inv dataPV { s with stateMachine := m } := by
  have hnone := h.onStart_eq_none ht
  refine ⟨hx, fun i => iff_of_false (by simp [hnone]) ?_, ?_⟩
  · rintro ⟨t, hi, -⟩
    cases ht' i _ hi
  · rintro (hrun | hstop | ⟨i, hi⟩ | ⟨i, t, hi, -⟩)
    · exact h.inForce (hl (.inl hrun))
    · exact h.inForce (hl (.inr hstop))
    · simp [hnone] at hi
    · cases ht' i _ hi

theorem eq_start_of_final {f : Delegate} {l : State} (h : f.documentedPair = (l, .running)) :
    f = .start := by
  cases f <;> cases h
  rfl

theorem eq_stopping_of_initial {n st : State}
    (h : intermediateState (.running, n) = some st) : st = .stopping := by
  cases n <;> cases h
  rfl

theorem eq_running_of_stopping {l n : State} (h : intermediateState (l, n) = some .stopping) :
    l = .running := by
  unfold intermediateState at h
  split at h <;> cases h
  next heq => exact (Prod.mk.inj heq).1

theorem tasks_resolved (h : s.Inv dataPV) {i : Nat} {t : Task}
    (ht : s.stateMachine.tasks i = some t)
    (hs : m.tasks = Function.update s.stateMachine.tasks i none) (j : Nat) : m.tasks j = none := by
  rw [hs]
  by_cases hji : j = i
  · rw [hji, Function.update_self]
  · rw [Function.update_of_ne hji]
    by_contra hj
    exact hji (h.exclusive.atMostOne j i hj (by simp [ht]))

theorem not_executing (h : s.Inv dataPV) {i : Nat} {t : Transition} {p : Phase}
    (ht : s.stateMachine.tasks i = some ⟨t, p⟩) (hp : p ≠ .executing) (j : Nat) (u : Transition) :
    s.stateMachine.tasks j ≠ some ⟨u, .executing⟩ := by
  intro hj
  obtain rfl := h.exclusive.atMostOne i j (by simp [ht]) (by simp [hj])
  rw [ht] at hj
  cases hj
  exact hp rfl

/-- **Step lemma** for the machine. -/
theorem Inv.machine (h : s.Inv dataPV) {ev : Event} (hok : System.Assumed s.stateMachine ev)
    (hend : s.allows ev = true)
    (hs : s.stateMachine.step ev = some m) :
    Inv dataPV { s with stateMachine := m, onStart := s.onStartAfter ev } := by
  have hx : m.Exclusive := h.exclusive.step hok hs
  cases System.step_effect hs with
  | rejected _ => exact h
  | @accepted r f st _ hf _ =>
    have hnone := h.exclusive.no_task (not_intermediate_of_findTransition hf)
    obtain ⟨-, hint⟩ := findTransition_documented hf
    refine h.change hx (by simp [hnone]) (fun i t hi => ?_) (fun hl => ?_)
    · by_cases hia : i = s.stateMachine.accepted
      · simp only [hia, Function.update_self, Option.some.injEq] at hi
        exact hi ▸ rfl
      · simp only [Function.update_of_ne hia, hnone i] at hi
        cases hi
    · have hst : st.isIntermediateState = true := findTransition_isIntermediate hf
      rcases hl with hl | hl
      · cases hl
        cases hst
      · cases hl
        exact .inl (eq_running_of_stopping hint)
  | stuck _ _ hn =>
    rw [notify_eq_ok.2 hok] at hn
    cases hn
  | launchAsync ht _ _ _ | launchSync ht _ =>
    have hnone := h.onStart_eq_none (not_executing h ht (by simp))
    exact h.advance hx ht rfl rfl (fun _ _ => rfl) (by simp [onStartAfter, hnone])
      (by simp [onStartAfter, hnone]) (by simp)
  | @call i t ht =>
    have hnone := h.onStart_eq_none (not_executing h ht (by simp))
    refine h.advance hx ht rfl rfl (fun j hji => ?_) ?_ ?_ (by simp)
    · simp only [onStartAfter]
      split
      · exact Function.update_of_ne hji ..
      · rfl
    · by_cases hf : t.transitionFunction = .start <;> simp [onStartAfter, ht, hf, hnone]
    · by_cases hf : t.transitionFunction = .start <;> simp [onStartAfter, ht, hf, hnone]
  | @returned i t ht =>
    refine h.advance hx ht rfl rfl (fun j hji => Function.update_of_ne hji ..)
      (by simp [onStartAfter]) (by simp [onStartAfter]) fun _ hf => ?_
    -- it has come past the decimation
    have hi : s.onStart i ≠ none := (h.onStart i).mpr ⟨t, ht, hf⟩
    replace hend : s.ends i none = true := hend
    unfold ends at hend
    split at hend
    · next hi' => exact absurd hi' hi
    · next hi' => exact .inr (.inr (.inl ⟨i, hi'⟩))
    · cases hend
    · cases hend
  | @thrown i t e ht =>
    have hr : (e.isRollBack || e.isRuntimeError) = true := by simp [hok e rfl]
    rw [System.raise, if_pos hr] at hx ⊢
    exact h.advance hx ht rfl rfl (fun j hji => Function.update_of_ne hji ..)
      (by simp [onStartAfter]) (by simp [onStartAfter]) (by simp)
  | @finished i t ts a ht hn =>
    refine h.change hx (not_executing h ht (by simp)) (fun j u hj => ?_) fun hl => ?_
    · rw [tasks_resolved h ht rfl j] at hj
      cases hj
    · have hdoc := h.exclusive.documented i _ ht
      have hstable := h.exclusive.stable_final ht
      replace hl : t.finalState = .running ∨ t.finalState = .stopping := hl
      rcases hl with hl | hl
      · rw [hl] at hdoc
        exact .inr (.inr (.inr ⟨i, t, ht, eq_start_of_final hdoc⟩))
      · rw [hl] at hstable
        cases hstable
  | finishThrown _ hn =>
    rw [notify_eq_ok.2 hok] at hn
    cases hn
  | @handled i t ts a e ht =>
    refine h.change hx (not_executing h ht (by simp)) (fun j u hj => ?_) fun hl => ?_
    · rw [tasks_resolved h ht rfl j] at hj
      cases hj
    · have hint := h.exclusive.intermediate i _ ht
      have hstable := h.exclusive.stable_handlerState ht e
      replace hl : System.handlerState t e = .running ∨ System.handlerState t e = .stopping := hl
      rcases hl with hl | hl
      · -- a stop that is rolled back
        have hinit : t.initialState = .running := by
          unfold System.handlerState at hl
          split at hl
          · exact hl
          · cases hl
        rw [hinit] at hint
        exact .inr (.inl (eq_stopping_of_initial hint))
      · rw [hl] at hstable
        cases hstable
  | deinitLock _ => exact ⟨hx, h.onStart, h.inForce⟩
  | deinitJoin _ _ => exact ⟨hx, h.onStart, h.inForce⟩
  | deinitReturn _ => exact ⟨hx, h.onStart, h.inForce⟩

/-- A step of `onStart` that leaves the machine alone. -/
theorem Inv.goto (h : s.Inv dataPV) {i : Nat} {o : OnStart} (hi : s.onStart i ≠ none)
    (hm : s'.stateMachine = s.stateMachine)
    (hs : s'.onStart = Function.update s.onStart i (some o))
    (hforce : s'.Begun → s'.InForce dataPV) : s'.Inv dataPV := by
  refine ⟨hm ▸ h.exclusive, fun j => ?_, hforce⟩
  rw [hm, ← h.onStart j, hs]
  by_cases hji : j = i
  · subst hji
    simp [hi]
  · rw [Function.update_of_ne hji]

theorem Inv.starting (h : s.Inv dataPV) {i : Nat} (hi : s.onStart i ≠ none) :
    s.stateMachine.machine.localState = .starting ∧
      (∀ j, j ≠ i → s.stateMachine.tasks j = none) ∧
      ∃ t, s.stateMachine.tasks i = some ⟨t, .executing⟩ := by
  obtain ⟨t, ht, hf⟩ := (h.onStart i).mp hi
  have hdoc := h.exclusive.documented i _ ht
  have hint := h.exclusive.intermediate i _ ht
  rw [hf] at hdoc
  refine ⟨?_, fun j hji => ?_, t, ht⟩
  · rw [← hdoc] at hint
    exact (Option.some.inj hint).symm
  · by_contra hj
    exact hji (h.exclusive.atMostOne j i hj (by simp [ht]))

/-- **Step lemma.** -/
theorem Inv.step (h : s.Inv dataPV) {ev : AcquisitionEvent V} (hok : Assumed s ev)
    (hs : s.step fuel dataPV ev = some s') : s'.Inv dataPV := by
  cases ev with
  | stateMachine ev =>
    simp only [Acquisition.step] at hs
    split at hs
    · next hmay =>
      obtain ⟨m, hm, rfl⟩ := Option.map_eq_some_iff.mp hs
      exact h.machine hok hmay hm
    · cases hs
  | startTimestamp i timestamp =>
    obtain ⟨hi, rfl⟩ := Option.ite_some_none_eq_some.mp hs
    obtain ⟨hl, hother, t, ht⟩ := h.starting (i := i) (by simp [hi])
    refine h.goto (i := i) (by simp [hi]) rfl rfl ?_
    -- it is on its way, and not past the decimation yet
    rintro (hrun | hstop | ⟨j, hj⟩ | ⟨j, u, hj, -⟩)
    · cases hl.symm.trans hrun
    · cases hl.symm.trans hstop
    · by_cases hji : j = i
      · simp [hji] at hj
      · simp only [Function.update_of_ne hji] at hj
        obtain ⟨u, hu, -⟩ := (h.onStart j).mp (by simp [hj])
        rw [hother j hji] at hu
        cases hu
    · exact absurd ht (not_executing h hj (by simp) i t)
  | setDecimation i =>
    simp only [Acquisition.step] at hs
    split at hs
    · next hi =>
      obtain ⟨pvs, hpvs, rfl⟩ := Option.map_eq_some_iff.mp hs
      cases hpvs
      refine h.goto (i := i) (by simp [hi]) rfl rfl fun _ => ?_
      refine ⟨⟨s.startTime, s.decimation⟩, List.getLast?_concat .., rfl, ?_⟩
      simp only [Function.update_self]
      exact PVBaseIn.counted_setDecimation ..
    · cases hs
  | writeDecimation value =>
    cases hs
    exact ⟨h.exclusive, h.onStart, h.inForce⟩
  | dataPV c =>
    obtain ⟨pvs, hpvs, rfl⟩ := Option.map_eq_some_iff.mp hs
    refine ⟨h.exclusive, h.onStart, fun hb => ?_⟩
    obtain ⟨st, hlast, htime, hcount⟩ := h.inForce hb
    refine ⟨st, hlast, htime, ?_⟩
    simp only [since_concat]
    exact PVCall.step_counted hcount hpvs

end

end Acquisition

end Nds3
