import Nds3.StateMachine.Concurrent

/-!
# One transition at a time

The mutual exclusion of the state machine: accepted transitions exclude each other although the
check, the intermediate state, the launch and the completion are separate steps. The invariant
(`Exclusive`) ties the local state to the pending transition's pair of states. `switchingOff`
belongs to two pairs, so the pair is kept with the transition and not read off the state.
-/

namespace Nds3

/-- The pair of states each delegate is documented to be called for. -/
def Delegate.documentedPair : Delegate → State × State
  | .switchOn => (.off, .on)
  | .switchOff => (.on, .off)
  | .start => (.on, .running)
  | .stop => (.running, .on)
  | .recover => (.fault, .off)

/-- The intermediate state assigned to a pair (initial, final). -/
def intermediateState : State × State → Option State
  | (.off, .on) => some .initializing
  | (.on, .off) => some .switchingOff
  | (.on, .running) => some .starting
  | (.running, .on) => some .stopping
  | (.fault, .off) => some .switchingOff
  | _ => none

/-- The transition chain of `setState` follows the documented table. -/
theorem findTransition_documented {l n : State} {f : Delegate} {st : State}
    (h : findTransition l n = some (f, st)) :
    f.documentedPair = (l, n) ∧ intermediateState (l, n) = some st := by
  unfold findTransition at h
  split_ifs at h with h1 h2 h3 h4 h5
  · obtain ⟨rfl, rfl⟩ := h1; cases h; exact ⟨rfl, rfl⟩
  · obtain ⟨rfl, rfl⟩ := h2; cases h; exact ⟨rfl, rfl⟩
  · obtain ⟨rfl, rfl⟩ := h3; cases h; exact ⟨rfl, rfl⟩
  · obtain ⟨rfl, rfl⟩ := h4; cases h; exact ⟨rfl, rfl⟩
  · obtain ⟨rfl, rfl⟩ := h5; cases h; exact ⟨rfl, rfl⟩

theorem documentedPair_stable (f : Delegate) :
    f.documentedPair.1.isIntermediateState = false ∧
      f.documentedPair.2.isIntermediateState = false := by
  cases f <;> exact ⟨rfl, rfl⟩

theorem not_intermediate_of_findTransition {l n : State} {p : Delegate × State}
    (h : findTransition l n = some p) : l.isIntermediateState = false := by
  cases hl : l.isIntermediateState with
  | false => rfl
  | true => rw [findTransition_of_intermediate hl] at h; cases h

namespace System

/-- The notifications return, and a transition function returns or throws a
`std::runtime_error`. -/
def Assumed (_ : System) : Event → Prop
  | .setState r => ∀ a ∈ r.answers, a = none
  | .exit _ outcome => ∀ e, outcome = some e → e.isRuntimeError = true
  | .finish _ _ answers => ∀ a ∈ answers, a = none
  | .handle _ _ answers => ∀ a ∈ answers, a = none
  | _ => True

/-- The invariant: at most one transition is pending or executing, for a documented pair, and
the local state is the pair's intermediate state exactly while it is. -/
structure Exclusive (s : System) : Prop where
  atMostOne : ∀ i j, s.tasks i ≠ none → s.tasks j ≠ none → i = j
  documented : ∀ i t, s.tasks i = some t →
    t.transition.transitionFunction.documentedPair =
      (t.transition.initialState, t.transition.finalState)
  intermediate : ∀ i t, s.tasks i = some t →
    intermediateState (t.transition.initialState, t.transition.finalState) =
      some s.machine.localState
  pending : s.machine.localState.isIntermediateState = true → ∃ i t, s.tasks i = some t

theorem intermediateState_isIntermediate {p : State × State} {st : State}
    (h : intermediateState p = some st) : st.isIntermediateState = true := by
  unfold intermediateState at h
  split at h <;> cases h <;> rfl

namespace Exclusive

variable {s s' : System}

theorem intermediate_iff (h : Exclusive s) :
    s.machine.localState.isIntermediateState = true ↔ ∃ i t, s.tasks i = some t :=
  ⟨h.pending, fun ⟨i, t, ht⟩ => intermediateState_isIntermediate (h.intermediate i t ht)⟩

theorem no_task (h : Exclusive s) (hl : s.machine.localState.isIntermediateState = false)
    (i : Nat) : s.tasks i = none := by
  cases ht : s.tasks i with
  | none => rfl
  | some t =>
    rw [h.intermediate_iff.2 ⟨i, t, ht⟩] at hl
    cases hl

theorem stable_final (h : Exclusive s) {i : Nat} {t : Task} (ht : s.tasks i = some t) :
    t.transition.finalState.isIntermediateState = false := by
  have := (documentedPair_stable t.transition.transitionFunction).2
  rwa [h.documented i t ht] at this

theorem stable_handlerState (h : Exclusive s) {i : Nat} {t : Task} (ht : s.tasks i = some t)
    (e : Exn) : (handlerState t.transition e).isIntermediateState = false := by
  unfold handlerState
  split
  · have := (documentedPair_stable t.transition.transitionFunction).1
    rwa [h.documented i t ht] at this
  · rfl

theorem advance (h : Exclusive s) {i : Nat} {t : Transition} {p q : Phase}
    (ht : s.tasks i = some ⟨t, p⟩) (hm : s'.machine = s.machine)
    (hs : s'.tasks = Function.update s.tasks i (some ⟨t, q⟩)) : Exclusive s' := by
  have hne : s.tasks i ≠ none := by simp [ht]
  have key : ∀ j t', s'.tasks j = some t' → j = i ∧ t'.transition = t := by
    intro j t' hj
    by_cases hji : j = i
    · subst hji
      simp only [hs, Function.update_self, Option.some.injEq] at hj
      exact ⟨rfl, hj ▸ rfl⟩
    · rw [hs, Function.update_of_ne hji] at hj
      exact absurd (h.atMostOne j i (by simp [hj]) hne) hji
  refine ⟨fun j k hj hk => ?_, fun j t' hj => ?_, fun j t' hj => ?_, fun _ => ?_⟩
  · obtain ⟨t1, h1⟩ := Option.ne_none_iff_exists'.mp hj
    obtain ⟨t2, h2⟩ := Option.ne_none_iff_exists'.mp hk
    exact (key j t1 h1).1.trans (key k t2 h2).1.symm
  · rw [(key j t' hj).2]
    exact h.documented i _ ht
  · rw [(key j t' hj).2, hm]
    exact h.intermediate i _ ht
  · exact ⟨i, ⟨t, q⟩, by simp [hs]⟩

theorem resolve (h : Exclusive s) {i : Nat} (hi : s.tasks i ≠ none)
    (hl : s'.machine.localState.isIntermediateState = false)
    (hs : s'.tasks = Function.update s.tasks i none) : Exclusive s' := by
  have key : ∀ j, s'.tasks j = none := by
    intro j
    rw [hs]
    by_cases hji : j = i
    · rw [hji, Function.update_self]
    · rw [Function.update_of_ne hji]
      by_contra hj
      exact hji (h.atMostOne j i hj hi)
  refine ⟨fun j k hj _ => absurd (key j) hj, fun j t' hj => ?_, fun j t' hj => ?_, fun hc => ?_⟩
  · rw [key j] at hj; cases hj
  · rw [key j] at hj; cases hj
  · rw [hl] at hc; cases hc

theorem accept (h : Exclusive s) {f : Delegate} {n st : State} {k : Nat}
    (hf : findTransition s.machine.localState n = some (f, st))
    (hm : s'.machine.localState = st)
    (hs : s'.tasks = Function.update s.tasks k
      (some ⟨⟨s.machine.localState, n, f⟩, .accepted⟩)) : Exclusive s' := by
  have hnone := h.no_task (not_intermediate_of_findTransition hf)
  obtain ⟨hdoc, hint⟩ := findTransition_documented hf
  have key : ∀ j t', s'.tasks j = some t' →
      j = k ∧ t' = ⟨⟨s.machine.localState, n, f⟩, .accepted⟩ := by
    intro j t' hj
    by_cases hjk : j = k
    · subst hjk
      simp only [hs, Function.update_self, Option.some.injEq] at hj
      exact ⟨rfl, hj.symm⟩
    · rw [hs, Function.update_of_ne hjk, hnone j] at hj
      cases hj
  refine ⟨fun i j hi hj => ?_, fun j t' hj => ?_, fun j t' hj => ?_, fun _ => ?_⟩
  · obtain ⟨t1, h1⟩ := Option.ne_none_iff_exists'.mp hi
    obtain ⟨t2, h2⟩ := Option.ne_none_iff_exists'.mp hj
    exact (key i t1 h1).1.trans (key j t2 h2).1.symm
  · obtain ⟨-, rfl⟩ := key j t' hj
    exact hdoc
  · obtain ⟨-, rfl⟩ := key j t' hj
    rw [hm]
    exact hint
  · exact ⟨k, _, by rw [hs, Function.update_self]⟩

theorem idle {m : StateMachine} (hm : m.localState.isIntermediateState = false) :
    Exclusive (System.idle m) := by
  refine ⟨fun _ _ h => absurd rfl h, fun _ _ h => ?_, fun _ _ h => ?_, fun h => ?_⟩
  · cases h
  · cases h
  · rw [show (System.idle m).machine = m from rfl, hm] at h; cases h

/-- **Step lemma.** -/
theorem step {ev : Event} (h : Exclusive s) (hok : Assumed s ev) (hs : s.step ev = some s') :
    Exclusive s' := by
  cases step_effect hs with
  | rejected _ => exact h
  | accepted _ hf _ => exact h.accept hf rfl rfl
  | stuck _ _ hn => rw [notify_eq_ok.2 hok] at hn; cases hn
  | launchAsync ht _ _ _ => exact h.advance ht rfl rfl
  | launchSync ht _ => exact h.advance ht rfl rfl
  | call ht => exact h.advance ht rfl rfl
  | returned ht => exact h.advance ht rfl rfl
  | @thrown i t e ht =>
    have hr : (e.isRollBack || e.isRuntimeError) = true := by simp [hok e rfl]
    rw [raise, if_pos hr]
    exact h.advance ht rfl rfl
  | finished ht _ => exact h.resolve (by simp [ht]) (h.stable_final ht) rfl
  | finishThrown _ hn => rw [notify_eq_ok.2 hok] at hn; cases hn
  | @handled i t _ _ e ht =>
    exact h.resolve (i := i) (by simp [ht]) (h.stable_handlerState ht e) rfl
  | deinitLock _ => exact ⟨h.atMostOne, h.documented, h.intermediate, h.pending⟩
  | deinitJoin _ _ => exact ⟨h.atMostOne, h.documented, h.intermediate, h.pending⟩
  | deinitReturn _ => exact ⟨h.atMostOne, h.documented, h.intermediate, h.pending⟩

/-- **Run lemma.** -/
theorem run {bAsync : Bool} {u ts : Timespec} {s : System}
    (h : Lts.Reach System.step Assumed (System.initial bAsync u ts) s) : Exclusive s :=
  h.invariant (idle rfl) fun hi hok hs => hi.step hok hs

end Exclusive

/-- How a step that resolves a transition leaves the local state: the final state once the
transition function has returned, the initial state on a roll back, else fault. -/
def EndsIn (t : Task) (localState : State) : Prop :=
  (t.phase = .returned ∧ localState = t.transition.finalState) ∨
  (∃ e, t.phase = .unwinding e ∧ e.isRollBack = true ∧ localState = t.transition.initialState) ∨
  (∃ e, t.phase = .unwinding e ∧ e.isRollBack = false ∧ localState = .fault)

theorem endsIn_of_step {s s' : System} {ev : Event} {i : Nat} {t : Task} (hok : Assumed s ev)
    (hs : s.step ev = some s') (ht : s.tasks i = some t) (ht' : s'.tasks i = none) :
    EndsIn t s'.machine.localState := by
  -- a step that leaves the transition in place is not one of those asked for
  have keep : ∀ {j : Nat} {t' : Option Task}, t' ≠ none →
      Function.update s.tasks j t' i ≠ none := by
    intro j t' hne
    rw [Function.update_apply]
    split
    · exact hne
    · simp [ht]
  -- and a step that resolves another transition leaves this one
  have this_one : ∀ {j : Nat}, Function.update s.tasks j none i = none → j = i := by
    intro j hj
    by_contra hne
    rw [Function.update_of_ne (Ne.symm hne), ht] at hj
    cases hj
  cases step_effect hs with
  | rejected _ | stuck _ _ _ | deinitLock _ | deinitJoin _ _ | deinitReturn _ =>
    rw [ht] at ht'; cases ht'
  | accepted _ _ _ | launchAsync _ _ _ _ | launchSync _ _ | call _ | returned _ =>
    exact absurd ht' (keep (by simp))
  | @thrown j t' e _ =>
    have hr : (e.isRollBack || e.isRuntimeError) = true := by simp [hok e rfl]
    rw [raise, if_pos hr] at ht'
    exact absurd ht' (keep (by simp))
  | finishThrown _ hn => rw [notify_eq_ok.2 hok] at hn; cases hn
  | finished hj _ =>
    obtain rfl := this_one ht'
    rw [ht] at hj
    cases hj
    exact .inl ⟨rfl, rfl⟩
  | @handled j t' _ _ e hj =>
    obtain rfl := this_one ht'
    rw [ht] at hj
    cases hj
    refine .inr ?_
    show (∃ e', Phase.unwinding e = .unwinding e' ∧ e'.isRollBack = true ∧
      handlerState t' e = t'.initialState) ∨ _
    cases hr : e.isRollBack with
    | true => exact .inl ⟨e, rfl, hr, by simp [handlerState, hr]⟩
    | false =>
      refine .inr ⟨e, rfl, hr, ?_⟩
      show handlerState t' e = .fault
      simp [handlerState, hr]

/-- The delegate a step invokes is the one documented for the transition, whose intermediate
state the machine is in. -/
theorem call_documented {s s' : System} {i : Nat} (h : Exclusive s)
    (hs : s.step (.call i) = some s') : ∃ t, s.tasks i = some ⟨t, .launched⟩ ∧
      t.transitionFunction.documentedPair = (t.initialState, t.finalState) ∧
      intermediateState (t.initialState, t.finalState) = some s.machine.localState := by
  cases step_effect hs with
  | call ht => exact ⟨_, ht, h.documented i _ ht, h.intermediate i _ ht⟩

/-- **Mutual exclusion.** In every run of a machine initialized once: at most one transition is
pending or executing; the local state is intermediate exactly while one is, and then is the state
assigned to its pair; every delegate is invoked for its documented pair; and a transition is
resolved into its final state, its initial state (roll back) or fault. -/
theorem mutual_exclusion {bAsync : Bool} {u ts : Timespec} {s : System}
    (h : Lts.Reach step Assumed (initial bAsync u ts) s) :
    (∀ i j, s.tasks i ≠ none → s.tasks j ≠ none → i = j) ∧
    (s.machine.localState.isIntermediateState = true ↔ ∃ i t, s.tasks i = some t) ∧
    (∀ i t, s.tasks i = some t →
      intermediateState (t.transition.initialState, t.transition.finalState) =
        some s.machine.localState) ∧
    (∀ i s', s.step (.call i) = some s' → ∃ t, s.tasks i = some ⟨t, .launched⟩ ∧
      t.transitionFunction.documentedPair = (t.initialState, t.finalState)) ∧
    (∀ ev s' i t, Assumed s ev → s.step ev = some s' → s.tasks i = some t → s'.tasks i = none →
      EndsIn t s'.machine.localState) := by
  have hx := Exclusive.run h
  refine ⟨hx.atMostOne, hx.intermediate_iff, hx.intermediate, fun i s' hs => ?_,
    fun ev s' i t hok hs ht ht' => endsIn_of_step hok hs ht ht'⟩
  obtain ⟨t, ht, hd, -⟩ := call_documented hx hs
  exact ⟨t, ht, hd⟩

/-- An asynchronous machine while its thread executes the switch-on function, and a second
request that comes too early. -/
theorem mutual_exclusion_switchOn :
    let s := Lts.exec step (initial true ⟨0, 0⟩ ⟨1, 0⟩)
      [.setState (.unobserved .on), .launch 0, .call 0, .setState (.unobserved .running)]
    (∃ s', s = some s' ∧ s'.tasks 0 = some ⟨⟨.off, .on, .switchOn⟩, .executing⟩ ∧
      s'.machine.localState = .initializing ∧
      ∀ i j, s'.tasks i ≠ none → s'.tasks j ≠ none → i = j) := by
  refine ⟨_, rfl, rfl, rfl, ?_⟩
  have hinit : Lts.Reach step Assumed (initial true ⟨0, 0⟩ ⟨1, 0⟩) _ := .refl
  refine (mutual_exclusion (hinit.exec [.setState (.unobserved .on), .launch 0, .call 0,
    .setState (.unobserved .running)] ?_ rfl)).1
  simp [Lts.Meets, Assumed, Request.unobserved]

end System

end Nds3
