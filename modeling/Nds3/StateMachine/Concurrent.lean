import Nds3.StateMachine.Impl
import Nds3.Lib.Lts
import Mathlib.Logic.Function.Basic

/-!
# `StateMachineImpl`: threads

Any number of threads call `setState`; the transitions they get accepted run in the calling
thread (synchronous machine) or in `m_transitionThread` (asynchronous machine), and another
thread may call `deinitialize`. One step is one critical section, or one boundary of the
transition function:

* `setState`: the section under `m_stateMutex`, up to its release;
* `launch`: `setState` goes on to execute the transition. An asynchronous machine takes
  `m_lockTransitionThread`, joins the thread of the previous transition and starts a new one;
* `call`, `exit`: the transition function is invoked; it returns or throws;
* `finish`: the end of the `try` block of `executeTransition`, under `m_stateMutex`;
* `handle`: the handler of `executeTransition`, under `m_stateMutex`;
* `deinitLock`, `deinitJoin`, `deinitReturn`: `deinitialize` takes `m_lockTransitionThread`,
  joins `m_transitionThread`, deregisters the node and returns.

A `setState` called by a transition function is one more `setState` step; no transition function
calls `deinitialize`, which would join its own thread. Starting a thread is taken to succeed, and
what `Impl` says of the timestamp delegate and of the subscribers is assumed here too.
-/

namespace Nds3

/-- Where the execution of an accepted transition is. -/
inductive Phase where
  /-- `setState` has released `m_stateMutex`. -/
  | accepted
  /-- In `executeTransition`, before the transition function. -/
  | launched
  | executing
  /-- The transition function has returned. -/
  | returned
  /-- An exception is on its way to the handlers of `executeTransition`. -/
  | unwinding (e : Exn)
  deriving DecidableEq

structure Task where
  transition : Transition
  phase : Phase
  deriving DecidableEq

/-- Where a call of `deinitialize` is. -/
inductive Deinit where
  | none
  | locked
  | joined
  | returned
  deriving DecidableEq

/-- A machine and the calls in progress on it. Accepted transitions are numbered in the order of
their acceptance: `accepted` counts them, `tasks` holds those not resolved yet. -/
structure System where
  machine : StateMachine
  accepted : Nat
  tasks : Nat → Option Task
  /-- `m_transitionThread`, when joinable: the transition it was started for. -/
  transitionThread : Option Nat
  deinit : Deinit
  /-- `std::terminate` has been called. -/
  terminated : Bool

inductive Event where
  | setState (r : Request)
  | launch (i : Nat)
  | call (i : Nat)
  | exit (i : Nat) (outcome : Option Exn)
  | finish (i : Nat) (timestamp : Timespec) (answers : List (Option Exn))
  | handle (i : Nat) (timestamp : Timespec) (answers : List (Option Exn))
  | deinitLock
  | deinitJoin
  | deinitReturn

namespace System

/-- A machine nobody is using. -/
def idle (m : StateMachine) : System := ⟨m, 0, fun _ => none, none, .none, false⟩

/-- After the constructor and one `initialize` whose notification went through. -/
def initial (bAsync : Bool) (uninitialised timestamp : Timespec) : System :=
  idle ((StateMachine.construct bAsync uninitialised).initializeState timestamp []).1

/-- `m_lockTransitionThread` is held by `deinitialize`. -/
def lockHeld (s : System) : Bool := s.deinit == .locked || s.deinit == .joined

/-- The thread in `m_transitionThread` has ended (or there is none): joining it does not block. -/
def threadEnded (s : System) : Bool :=
  match s.transitionThread with
  | none => true
  | some i => (s.tasks i).isNone

def setTask (s : System) (i : Nat) (t : Option Task) : System :=
  { s with tasks := Function.update s.tasks i t }

/-- An exception leaves `executeTransition`. It goes to the caller of `setState`, or to
`executeTransitionThread`, which catches the `std::runtime_error`s only. -/
def escape (s : System) (e : Exn) : System :=
  { s with terminated := s.machine.bAsync && !e.isRuntimeError }

/-- An exception is thrown inside the `try` block of `executeTransition`: one of the two handlers
catches it, or it leaves the function. -/
def raise (s : System) (i : Nat) (t : Transition) (e : Exn) : System :=
  if e.isRollBack || e.isRuntimeError then s.setTask i (some ⟨t, .unwinding e⟩)
  else (s.setTask i none).escape e

/-- The state the handler that catches `e` sets. -/
def handlerState (t : Transition) (e : Exn) : State :=
  if e.isRollBack then t.initialState else .fault

/-- The exception a handler ends with: the one it rethrows, or that of its own notification. -/
def rethrown (e : Exn) : Except Exn Unit → Exn
  | .ok () => e
  | .error e' => e'

def step (s : System) (ev : Event) : Option System :=
  if s.terminated then none
  else
    match ev with
    | .setState r =>
      match s.machine.setStateLocked r with
      | (m, .ok (some t)) =>
        some { { s with machine := m, accepted := s.accepted + 1 } with
          tasks := Function.update s.tasks s.accepted (some ⟨t, .accepted⟩) }
      | (m, _) => some { s with machine := m }
    | .launch i =>
      match s.tasks i with
      | some ⟨t, .accepted⟩ =>
        if s.machine.bAsync then
          if s.lockHeld || !s.threadEnded then none
          else some { s.setTask i (some ⟨t, .launched⟩) with transitionThread := some i }
        else some (s.setTask i (some ⟨t, .launched⟩))
      | _ => none
    | .call i =>
      match s.tasks i with
      | some ⟨t, .launched⟩ => some (s.setTask i (some ⟨t, .executing⟩))
      | _ => none
    | .exit i outcome =>
      match s.tasks i with
      | some ⟨t, .executing⟩ =>
        match outcome with
        | none => some (s.setTask i (some ⟨t, .returned⟩))
        | some e => some (s.raise i t e)
      | _ => none
    | .finish i timestamp answers =>
      match s.tasks i with
      | some ⟨t, .returned⟩ =>
        match s.machine.changeState t.finalState timestamp answers with
        | (m, .ok ()) => some ({ s with machine := m }.setTask i none)
        | (m, .error e) => some ({ s with machine := m }.raise i t e)
      | _ => none
    | .handle i timestamp answers =>
      match s.tasks i with
      | some ⟨t, .unwinding e⟩ =>
        match s.machine.changeState (handlerState t e) timestamp answers with
        | (m, r) => some (({ s with machine := m }.setTask i none).escape (rethrown e r))
      | _ => none
    | .deinitLock =>
      if s.lockHeld then none else some { s with deinit := .locked }
    | .deinitJoin =>
      if s.deinit = .locked ∧ s.threadEnded then
        some { s with deinit := .joined, transitionThread := none }
      else none
    | .deinitReturn =>
      if s.deinit = .joined then some { s with deinit := .returned } else none

/-! ## What a step can do -/

/-- The effects of the steps, one constructor for each way a step can go. -/
inductive Effect (s : System) : Event → System → Prop where
  | rejected {r : Request} (h : s.machine.accepts r = false) : Effect s (.setState r) s
  | accepted {r : Request} {f : Delegate} {st : State} (h : s.machine.accepts r = true)
      (hf : findTransition s.machine.localState r.newState = some (f, st))
      (hn : notify r.answers = .ok ()) :
      Effect s (.setState r)
        { s with
          machine := (s.machine.changeState st r.timestamp r.answers).1
          accepted := s.accepted + 1
          tasks := Function.update s.tasks s.accepted
            (some ⟨⟨s.machine.localState, r.newState, f⟩, .accepted⟩) }
  | stuck {r : Request} {f : Delegate} {st : State} {e : Exn} (h : s.machine.accepts r = true)
      (hf : findTransition s.machine.localState r.newState = some (f, st))
      (hn : notify r.answers = .error e) :
      Effect s (.setState r)
        { s with machine := (s.machine.changeState st r.timestamp r.answers).1 }
  | launchAsync {i : Nat} {t : Transition} (h : s.tasks i = some ⟨t, .accepted⟩)
      (hb : s.machine.bAsync = true) (hl : s.lockHeld = false) (he : s.threadEnded = true) :
      Effect s (.launch i) { s.setTask i (some ⟨t, .launched⟩) with transitionThread := some i }
  | launchSync {i : Nat} {t : Transition} (h : s.tasks i = some ⟨t, .accepted⟩)
      (hb : s.machine.bAsync = false) : Effect s (.launch i) (s.setTask i (some ⟨t, .launched⟩))
  | call {i : Nat} {t : Transition} (h : s.tasks i = some ⟨t, .launched⟩) :
      Effect s (.call i) (s.setTask i (some ⟨t, .executing⟩))
  | returned {i : Nat} {t : Transition} (h : s.tasks i = some ⟨t, .executing⟩) :
      Effect s (.exit i none) (s.setTask i (some ⟨t, .returned⟩))
  | thrown {i : Nat} {t : Transition} {e : Exn} (h : s.tasks i = some ⟨t, .executing⟩) :
      Effect s (.exit i (some e)) (s.raise i t e)
  | finished {i : Nat} {t : Transition} {ts : Timespec} {a : List (Option Exn)}
      (h : s.tasks i = some ⟨t, .returned⟩) (hn : notify a = .ok ()) :
      Effect s (.finish i ts a)
        ({ s with machine := (s.machine.changeState t.finalState ts a).1 }.setTask i none)
  | finishThrown {i : Nat} {t : Transition} {ts : Timespec} {a : List (Option Exn)} {e : Exn}
      (h : s.tasks i = some ⟨t, .returned⟩) (hn : notify a = .error e) :
      Effect s (.finish i ts a)
        ({ s with machine := (s.machine.changeState t.finalState ts a).1 }.raise i t e)
  | handled {i : Nat} {t : Transition} {ts : Timespec} {a : List (Option Exn)} {e : Exn}
      (h : s.tasks i = some ⟨t, .unwinding e⟩) :
      Effect s (.handle i ts a)
        (({ s with machine := (s.machine.changeState (handlerState t e) ts a).1 }.setTask i
          none).escape (rethrown e (notify a)))
  | deinitLock (h : s.lockHeld = false) : Effect s .deinitLock { s with deinit := .locked }
  | deinitJoin (h : s.deinit = .locked) (he : s.threadEnded = true) :
      Effect s .deinitJoin { s with deinit := .joined, transitionThread := none }
  | deinitReturn (h : s.deinit = .joined) :
      Effect s .deinitReturn { s with deinit := .returned }

theorem step_setState {s s' : System} {r : Request} (h : s.step (.setState r) = some s') :
    Effect s (.setState r) s' := by
  unfold step at h
  split at h
  · cases h
  rcases s.machine.setStateLocked_cases r with ⟨ha, he | ⟨e, he⟩⟩ |
    ⟨ha, f, st, hf, ⟨hn, he⟩ | ⟨e, hn, he⟩⟩
  · simp only [he, Option.some.injEq] at h
    exact h ▸ .rejected ha
  · simp only [he, Option.some.injEq] at h
    exact h ▸ .rejected ha
  · simp only [he, Option.some.injEq] at h
    exact h ▸ .accepted ha hf hn
  · simp only [he, Option.some.injEq] at h
    exact h ▸ .stuck ha hf hn

theorem step_launch {s s' : System} {i : Nat} (h : s.step (.launch i) = some s') :
    Effect s (.launch i) s' := by
  unfold step at h
  split at h
  · cases h
  simp only at h
  split at h
  · next t ht =>
    split at h
    · next hb =>
      split at h
      · cases h
      · next hl =>
        simp only [Bool.or_eq_true, Bool.not_eq_eq_eq_not, Bool.not_true, not_or,
          Bool.not_eq_true, Bool.not_eq_false] at hl
        cases h
        exact .launchAsync ht hb hl.1 hl.2
    · next hb =>
      cases h
      exact .launchSync ht (by simpa using hb)
  · cases h

/-- **A step has one of the listed effects.** -/
theorem step_effect {s s' : System} {ev : Event} (h : s.step ev = some s') : Effect s ev s' := by
  cases ev with
  | setState r => exact step_setState h
  | launch i => exact step_launch h
  | call i =>
    simp only [step] at h
    split at h
    · cases h
    split at h
    · next t ht => cases h; exact .call ht
    · cases h
  | exit i outcome =>
    simp only [step] at h
    split at h
    · cases h
    split at h
    · next t ht =>
      cases outcome with
      | none => cases h; exact .returned ht
      | some e => cases h; exact .thrown ht
    · cases h
  | finish i ts a =>
    simp only [step] at h
    split at h
    · cases h
    split at h
    · next t ht =>
      cases hn : notify a with
      | ok u =>
        simp only [StateMachine.changeState, hn, Option.some.injEq] at h
        exact h ▸ .finished ht hn
      | error e =>
        simp only [StateMachine.changeState, hn, Option.some.injEq] at h
        exact h ▸ .finishThrown ht hn
    · cases h
  | handle i ts a =>
    simp only [step] at h
    split at h
    · cases h
    split at h
    · next t e ht => cases h; exact .handled ht
    · cases h
  | deinitLock =>
    simp only [step] at h
    split at h
    · cases h
    split at h
    · cases h
    · next hl => cases h; exact .deinitLock (by simpa using hl)
  | deinitJoin =>
    simp only [step] at h
    split at h
    · cases h
    split at h
    · next hl => cases h; exact .deinitJoin hl.1 hl.2
    · cases h
  | deinitReturn =>
    simp only [step] at h
    split at h
    · cases h
    split at h
    · next hl => cases h; exact .deinitReturn hl
    · cases h

/-! ## The states that a machine gets into -/

/-- The machine and the pending transitions name states with `P` only. -/
structure Only (P : State → Prop) (s : System) : Prop where
  localState : P s.machine.localState
  tasks : ∀ i t, s.tasks i = some t → P t.transition.initialState ∧ P t.transition.finalState

namespace Only

variable {P : State → Prop} {s s' : System}

theorem update (h : Only P s) {i : Nat} {q : Option Task} (hl : P s'.machine.localState)
    (hq : ∀ t, q = some t → P t.transition.initialState ∧ P t.transition.finalState)
    (hs : s'.tasks = Function.update s.tasks i q) : Only P s' := by
  refine ⟨hl, fun j t hj => ?_⟩
  by_cases hji : j = i
  · rw [hs, hji, Function.update_self] at hj
    exact hq t hj
  · rw [hs, Function.update_of_ne hji] at hj
    exact h.tasks j t hj

theorem advance (h : Only P s) {i : Nat} {t : Transition} {p q : Phase}
    (ht : s.tasks i = some ⟨t, p⟩) (hl : P s'.machine.localState)
    (hs : s'.tasks = Function.update s.tasks i (some ⟨t, q⟩)) : Only P s' := by
  refine h.update hl (fun u hu => ?_) hs
  cases hu
  exact h.tasks i ⟨t, p⟩ ht

theorem resolve (h : Only P s) {i : Nat} (hl : P s'.machine.localState)
    (hs : s'.tasks = Function.update s.tasks i none) : Only P s' :=
  h.update hl (fun _ hu => by cases hu) hs

theorem raise (h : Only P s) {i : Nat} {t : Transition} {p : Phase} (ht : s.tasks i = some ⟨t, p⟩)
    (m : StateMachine) (hm : P m.localState) (e : Exn) :
    Only P (({ s with machine := m } : System).raise i t e) := by
  unfold System.raise
  split
  · exact h.advance ht hm rfl
  · exact h.resolve (i := i) hm rfl

theorem handlerState (h : Only P s) (hfault : P .fault) {i : Nat} {t : Task}
    (ht : s.tasks i = some t) (e : Exn) : P (handlerState t.transition e) := by
  unfold System.handlerState
  split
  · exact (h.tasks i t ht).1
  · exact hfault

theorem step (hfault : P .fault)
    (hfind : ∀ {l n f st}, findTransition l n = some (f, st) → P st ∧ P n) {ev : Event}
    (h : Only P s) (hs : s.step ev = some s') : Only P s' := by
  cases step_effect hs with
  | rejected _ => exact h
  | accepted _ hf _ =>
    have hk := hfind hf
    exact h.update hk.1 (fun _ hu => Option.some.inj hu ▸ ⟨h.localState, hk.2⟩) rfl
  | stuck _ hf _ => exact ⟨(hfind hf).1, h.tasks⟩
  | launchAsync ht _ _ _ | launchSync ht _ | call ht | returned ht =>
    exact h.advance ht h.localState rfl
  | thrown ht => exact h.raise ht s.machine h.localState _
  | finished ht _ => exact h.resolve (h.tasks _ _ ht).2 rfl
  | finishThrown ht _ => exact h.raise ht _ (h.tasks _ _ ht).2 _
  | @handled i t _ _ e ht => exact h.resolve (i := i) (h.handlerState hfault ht e) rfl
  | deinitLock _ | deinitJoin _ _ | deinitReturn _ => exact ⟨h.localState, h.tasks⟩

theorem run {bAsync : Bool} {u ts : Timespec} (hoff : P .off) (hfault : P .fault)
    (hfind : ∀ {l n f st}, findTransition l n = some (f, st) → P st ∧ P n)
    (h : Lts.Reach System.step (fun _ _ => True) (initial bAsync u ts) s) : Only P s :=
  h.invariant ⟨hoff, fun _ _ h => by cases h⟩ fun hi _ hs => hi.step hfault hfind hs

end Only

theorem findTransition_known {l n : State} {f : Delegate} {st : State}
    (h : findTransition l n = some (f, st)) : 0 < st.toInt ∧ 0 < n.toInt := by
  unfold findTransition at h
  split_ifs at h with h1 h2 h3 h4 h5
  · cases h; exact ⟨by decide, by rw [h1.2]; decide⟩
  · cases h; exact ⟨by decide, by rw [h2.2]; decide⟩
  · cases h; exact ⟨by decide, by rw [h3.2]; decide⟩
  · cases h; exact ⟨by decide, by rw [h4.2]; decide⟩
  · cases h; exact ⟨by decide, by rw [h5.2]; decide⟩

/-- In every run, whatever the notifications and the transition functions do, the local state is
above `unknown`. -/
theorem known_localState {bAsync : Bool} {u ts : Timespec} {s : System}
    (h : Lts.Reach step (fun _ _ => True) (initial bAsync u ts) s) :
    0 < s.machine.localState.toInt :=
  (Only.run (P := fun st => 0 < st.toInt) Int.one_pos (by decide) findTransition_known h).localState

end System

end Nds3
