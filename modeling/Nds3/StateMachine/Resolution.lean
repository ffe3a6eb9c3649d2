import Nds3.StateMachine.Exclusion
import Nds3.StateMachine.Observers

/-!
# How a transition is resolved

An accepted transition leaves the machine in an intermediate state, out of which only the end of
`executeTransition` leads. Its handlers catch `std::runtime_error` and what is derived from it; for
everything else, which is documented to end in fault too, there is no handler: the machine stays in
the intermediate state, and the exception passes `executeTransitionThread`, which catches no more,
and ends the process.

The notification of the final state is made inside the `try` block, so an exception of a subscriber
is treated as one of the transition function, and those of the handlers are not caught at all.
-/

namespace Nds3

/-- The state a transition is to be resolved into, given how its function ended. -/
def Transition.resolution (t : Transition) : Option Exn → State
  | none => t.finalState
  | some e => if e.isRollBack then t.initialState else .fault

namespace StateMachine

/-- `executeTransitionThread`. An exception that leaves it ends the process. -/
def executeTransitionThread (m : StateMachine) (t : Transition) (x : Execution) :
    StateMachine × Except Abort Unit :=
  match m.executeTransition t x with
  | (m, .ok ()) => (m, .ok ())
  | (m, .error e) => if e.isRuntimeError then (m, .ok ()) else (m, .error .terminate)

/-- The end of `setState`: the transition is executed in a thread of its own, or in that of the
caller, who gets its exception. -/
def execute (m : StateMachine) (t : Transition) (x : Execution) :
    StateMachine × Except Abort Unit :=
  if m.bAsync then m.executeTransitionThread t x
  else
    match m.executeTransition t x with
    | (m, .ok ()) => (m, .ok ())
    | (m, .error e) => (m, .error (.throws e))

/-- The transition is resolved: the machine is in the state it is to be in, which is not an
intermediate one, and no exception leaves the transition thread. -/
structure Resolves (m : StateMachine) (t : Transition) (x : Execution) : Prop where
  localState : (m.execute t x).1.localState = t.resolution x.outcome
  stable : (m.execute t x).1.localState.isIntermediateState = false
  contained : m.bAsync = true → (m.execute t x).2 = .ok ()

end StateMachine

/-- What the handlers can cope with. After the transition function has returned no subscriber
throws, except, in the thread of the caller, what no handler catches; an exception of the function
is a `std::runtime_error`, and in a thread of its own so is one of the handler's notification. -/
def Execution.Handled (bAsync : Bool) (x : Execution) : Prop :=
  match x.outcome with
  | none => ∀ e, notify x.answers = .error e → e.isRuntimeError = false ∧ bAsync = false
  | some e => e.isRuntimeError = true ∧
      (bAsync = true → ∀ e', notify x.handlerAnswers = .error e' → e'.isRuntimeError = true)

namespace StateMachine

variable {m : StateMachine} {t : Transition} {x : Execution} {e : Exn}

theorem execute_localState :
    (m.execute t x).1.localState = (m.executeTransition t x).1.localState := by
  unfold execute executeTransitionThread
  rcases m.executeTransition t x with ⟨m', e | u⟩
  · simp only
    split_ifs <;> rfl
  · split_ifs <;> rfl

/-- An exception leaves the thread exactly if `executeTransition` ends with one that is no
`std::runtime_error`. -/
theorem execute_eq_ok (hb : m.bAsync = true) : (m.execute t x).2 = .ok () ↔
    ∀ e, (m.executeTransition t x).2 = .error e → e.isRuntimeError = true := by
  unfold execute executeTransitionThread
  rw [if_pos hb]
  rcases m.executeTransition t x with ⟨m', e | u⟩
  · simp only [Except.error.injEq, forall_eq']
    split_ifs with he <;> simp [he]
  · simp

theorem resolves_iff (hs : t.initialState.isIntermediateState = false ∧
      t.finalState.isIntermediateState = false) :
    m.Resolves t x ↔ (m.executeTransition t x).1.localState = t.resolution x.outcome ∧
      (m.bAsync = true →
        ∀ e, (m.executeTransition t x).2 = .error e → e.isRuntimeError = true) := by
  have hstable : (t.resolution x.outcome).isIntermediateState = false := by
    unfold Transition.resolution
    split
    · exact hs.2
    · split_ifs
      · exact hs.1
      · rfl
  constructor
  · intro h
    exact ⟨execute_localState.symm.trans h.localState,
      fun hb => (execute_eq_ok hb).mp (h.contained hb)⟩
  · rintro ⟨hl, hc⟩
    have hl' := execute_localState.trans hl
    exact ⟨hl', hl' ▸ hstable, fun hb => (execute_eq_ok hb).mpr (hc hb)⟩

/-- What is known of a machine that has just accepted a transition. -/
structure Accepted (m : StateMachine) (t : Transition) : Prop where
  intermediate : m.localState.isIntermediateState = true
  initial : t.initialState.isIntermediateState = false
  final : t.finalState.isIntermediateState = false
  ne : t.initialState ≠ t.finalState
  ne_fault : t.finalState ≠ .fault

theorem accepted_of_setStateLocked {m' : StateMachine} {r : Request}
    (h : m.setStateLocked r = (m', .ok (some t))) : m'.Accepted t := by
  rcases m.setStateLocked_cases r with ⟨-, he | ⟨e, he⟩⟩ | ⟨-, f, st, hf, ⟨-, he⟩ | ⟨e, -, he⟩⟩
  · cases he.symm.trans h
  · cases he.symm.trans h
  · obtain ⟨rfl, ht⟩ := Prod.mk.inj (he.symm.trans h)
    cases ht
    obtain ⟨hdoc, -⟩ := findTransition_documented hf
    have hst := documentedPair_stable f
    rw [hdoc] at hst
    refine ⟨findTransition_isIntermediate hf, hst.1, hst.2, findTransition_ne hf, fun hfault => ?_⟩
    -- no documented transition ends in fault
    replace hdoc := congrArg Prod.snd hdoc
    cases f <;> rw [show r.newState = State.fault from hfault] at hdoc <;> cases hdoc
  · cases he.symm.trans h

theorem Accepted.handlerState_ne (h : m.Accepted t) (e : Exn) :
    System.handlerState t e ≠ t.finalState := by
  unfold System.handlerState
  split_ifs
  · exact h.ne
  · exact h.ne_fault.symm

theorem Accepted.localState_ne (h : m.Accepted t) {e : Exn} (he : e.isRuntimeError = false) :
    m.localState ≠ t.resolution (some e) := by
  have hr : e.isRollBack = false := by
    by_contra hc
    rw [Exn.isRuntimeError_of_isRollBack (by simpa using hc)] at he
    cases he
  intro hc
  rw [Transition.resolution, hr] at hc
  have hi := h.intermediate
  rw [hc] at hi
  cases hi

/-- **Which transitions are resolved.** Whatever its function does, an accepted transition is
resolved into the final state, the initial state (roll back) or fault, and no exception leaves the
transition thread, if and only if the handlers can cope with the execution. -/
theorem resolves_iff_handled {m' : StateMachine} {r : Request}
    (h : m.setStateLocked r = (m', .ok (some t))) : m'.Resolves t x ↔ x.Handled m'.bAsync := by
  have ha := accepted_of_setStateLocked h
  rw [resolves_iff ⟨ha.initial, ha.final⟩, Execution.Handled]
  cases hx : x.outcome with
  | none =>
    cases hn : notify x.answers with
    | ok u =>
      rw [executeTransition_returned hx hn]
      simp [changeState, Transition.resolution]
    | error e =>
      rw [executeTransition_finishThrown hx hn]
      cases he : e.isRuntimeError with
      | true =>
        rw [executeTransition_thrown rfl he]
        simp [changeState, Transition.resolution, ha.handlerState_ne e, he]
      | false =>
        rw [executeTransition_foreign rfl he]
        simp [changeState, Transition.resolution, he]
  | some e =>
    cases he : e.isRuntimeError with
    | true =>
      rw [executeTransition_thrown hx he]
      have hl : System.handlerState t e = t.resolution (some e) := rfl
      simp only [changeState, hl, true_and, he]
      refine imp_congr_right fun _ => ?_
      cases hn : notify x.handlerAnswers with
      | ok u => simp [System.rethrown, he]
      | error e' => simp [System.rethrown]
    | false =>
      rw [executeTransition_foreign hx he]
      simp [ha.localState_ne he, he]

/-- An asynchronous machine whose switch-on function fails with a `std::runtime_error`. -/
theorem resolves_runtimeError :
    let m := (System.initial true ⟨0, 0⟩ ⟨1, 0⟩).machine
    let t : Transition := ⟨.off, .on, .switchOn⟩
    let x : Execution := ⟨some ⟨.runtimeError, "no power"⟩, ⟨3, 0⟩, [], ⟨4, 0⟩, [none]⟩
    ∃ m', m.setStateLocked (.unobserved .on) = (m', .ok (some t)) ∧ m'.Resolves t x := by
  intro m t x
  obtain ⟨m', hm⟩ : ∃ m', m.setStateLocked (.unobserved .on) = (m', .ok (some t)) := ⟨_, rfl⟩
  refine ⟨m', hm, (resolves_iff_handled hm).mpr ⟨rfl, fun _ e' he' => ?_⟩⟩
  cases he'

/-- A switch-on function that fails with a `std::logic_error`: the machine stays in `initializing`;
if it is asynchronous, the process ends. -/
theorem unresolved_logicError :
    let t : Transition := ⟨.off, .on, .switchOn⟩
    let x : Execution := ⟨some ⟨.logicError, "bad index"⟩, ⟨3, 0⟩, [], ⟨4, 0⟩, []⟩
    ∀ bAsync, ∃ m', (System.initial bAsync ⟨0, 0⟩ ⟨1, 0⟩).machine.setStateLocked (.unobserved .on) =
        (m', .ok (some t)) ∧
      ¬ m'.Resolves t x ∧ (m'.execute t x).1.localState = .initializing ∧
      (m'.execute t x).2 =
        .error (if bAsync then .terminate else .throws ⟨.logicError, "bad index"⟩) := by
  intro t x bAsync
  cases bAsync
  · refine ⟨_, rfl, fun h => ?_, rfl, rfl⟩
    cases h.localState
  · refine ⟨_, rfl, fun h => ?_, rfl, rfl⟩
    cases h.localState

end StateMachine

end Nds3
