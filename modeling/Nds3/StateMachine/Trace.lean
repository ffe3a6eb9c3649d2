import Nds3.StateMachine.Exclusion

/-!
# The trace of the notifications

Every critical section that assigns a state also pushes it, so what the getState PV has pushed is
what the machine went through. The order of the states in it is that of the transitions
(`Faithful`): the invariant (`Traced`) ties the last two states to the pending transition.
-/

namespace Nds3

/-- The states of a machine in their order: it starts off, every state differs from the one before
it, and an intermediate state is followed by the final state of its transition, by the state
before it, or by fault. -/
structure Faithful (states : List State) : Prop where
  off : states.head? = some .off
  changes : ∀ a b, [a, b] <:+: states → a ≠ b
  resolved : ∀ a b c, [a, b, c] <:+: states → b.isIntermediateState = true →
    intermediateState (a, c) = some b ∨ c = a ∨ c = .fault

theorem getLast?_eq_of_suffix {α : Type*} {a b : α} {l : List α} (h : [a] <:+ l)
    (hb : l.getLast? = some b) : a = b := by
  obtain ⟨pre, rfl⟩ := h
  rw [List.getLast?_concat] at hb
  exact Option.some.inj hb

theorem suffix_cons_getLast? {α : Type*} {a b c : α} {l : List α} (h : [a, b] <:+ l)
    (hc : l.getLast? = some c) : b = c :=
  getLast?_eq_of_suffix ((List.suffix_cons a [b]).trans h) hc

theorem Faithful.concat {states : List State} {b c : State} (h : Faithful states)
    (hb : states.getLast? = some b) (hne : b ≠ c)
    (hres : ∀ a, [a, b] <:+ states → b.isIntermediateState = true →
      intermediateState (a, c) = some b ∨ c = a ∨ c = .fault) :
    Faithful (states ++ [c]) := by
  refine ⟨?_, fun x y hxy => ?_, fun x y z hxyz hy => ?_⟩
  · rw [List.head?_append, h.off]
    rfl
  · rcases List.infix_concat_iff.mp hxy with hxy | hxy
    · obtain hnil | ⟨t, ht, hsuf⟩ := List.suffix_concat_iff.mp hxy
      · cases hnil
      · replace ht : [x] ++ [y] = t ++ [c] := ht
        obtain ⟨rfl, hyc⟩ := List.append_inj' ht rfl
        obtain rfl : y = c := List.singleton_inj.mp hyc
        rwa [getLast?_eq_of_suffix hsuf hb]
    · exact h.changes x y hxy
  · rcases List.infix_concat_iff.mp hxyz with hxyz | hxyz
    · obtain hnil | ⟨t, ht, hsuf⟩ := List.suffix_concat_iff.mp hxyz
      · cases hnil
      · replace ht : [x, y] ++ [z] = t ++ [c] := ht
        obtain ⟨rfl, hzc⟩ := List.append_inj' ht rfl
        obtain rfl : z = c := List.singleton_inj.mp hzc
        obtain rfl := suffix_cons_getLast? hsuf hb
        exact hres x hsuf hy
    · exact h.resolved x y z hxyz hy

namespace System

def states (s : System) : List State := s.machine.assigned.map Prod.snd

/-- The invariant: what is assigned is pushed, in a faithful order; the last is the present state,
and the one before it the state a pending transition has left. -/
structure Traced (s : System) : Prop where
  pushed : s.machine.pushed = s.machine.assigned
  last : s.machine.assigned.getLast? = some (s.machine.stateTimestamp, s.machine.localState)
  faithful : Faithful s.states
  pending : ∀ i t, s.tasks i = some t →
    [t.transition.initialState, s.machine.localState] <:+ s.states

namespace Traced

variable {s s' : System}

theorem initial (bAsync : Bool) (u ts : Timespec) : Traced (initial bAsync u ts) where
  pushed := rfl
  last := rfl
  faithful := by
    refine ⟨rfl, fun a b h => ?_, fun a b c h => ?_⟩
    · exact absurd h.length_le (by simp [states, System.initial, System.idle,
        StateMachine.initializeState, StateMachine.changeState, StateMachine.construct])
    · exact absurd h.length_le (by simp [states, System.initial, System.idle,
        StateMachine.initializeState, StateMachine.changeState, StateMachine.construct])
  pending _ _ h := by cases h

theorem last_state (h : Traced s) : s.states.getLast? = some s.machine.localState := by
  rw [states, List.getLast?_map, h.last]
  rfl

theorem keep (h : Traced s) (hm : s'.machine = s.machine)
    (ht : ∀ i t, s'.tasks i = some t → ∃ t', s.tasks i = some t' ∧ t'.transition = t.transition) :
    Traced s' := by
  refine ⟨hm ▸ h.pushed, hm ▸ h.last, ?_, fun i t hi => ?_⟩
  · rw [states, hm]
    exact h.faithful
  · obtain ⟨t', ht', htr⟩ := ht i t hi
    rw [states, hm, ← htr]
    exact h.pending i t' ht'

theorem advance (h : Traced s) {i : Nat} {t : Transition} {p q : Phase}
    (ht : s.tasks i = some ⟨t, p⟩) (hm : s'.machine = s.machine)
    (hs : s'.tasks = Function.update s.tasks i (some ⟨t, q⟩)) : Traced s' := by
  refine h.keep hm fun j t' hj => ?_
  by_cases hji : j = i
  · subst hji
    rw [hs, Function.update_self] at hj
    exact ⟨_, ht, by rw [← Option.some.inj hj]⟩
  · rw [hs, Function.update_of_ne hji] at hj
    exact ⟨t', hj, rfl⟩

theorem change (h : Traced s) {c : State} {ts : Timespec}
    (hm : s'.machine = (s.machine.changeState c ts []).1) (hne : s.machine.localState ≠ c)
    (hres : ∀ x, [x, s.machine.localState] <:+ s.states →
      s.machine.localState.isIntermediateState = true →
      intermediateState (x, c) = some s.machine.localState ∨ c = x ∨ c = .fault)
    (hpending : ∀ i t, s'.tasks i = some t → t.transition.initialState = s.machine.localState) :
    Traced s' := by
  have hstates : s'.states = s.states ++ [c] := by
    simp [states, hm, StateMachine.changeState]
  refine ⟨?_, ?_, hstates ▸ h.faithful.concat h.last_state hne hres, fun i t hi => ?_⟩
  · rw [hm]
    simp [StateMachine.changeState, h.pushed]
  · rw [hm]
    simp [StateMachine.changeState]
  · obtain ⟨pre, hpre⟩ := List.getLast?_eq_some_iff.mp h.last_state
    rw [hstates, hpending i t hi, hm, hpre]
    exact ⟨pre, by simp [StateMachine.changeState]⟩

/-- A step that resolves the pending transition into a stable state, one it may be resolved
into. -/
theorem resolve (h : Traced s) (hx : Exclusive s) {i : Nat} {t : Task} {c : State} {ts : Timespec}
    (ht : s.tasks i = some t) (hm : s'.machine = (s.machine.changeState c ts []).1)
    (hs : s'.tasks = Function.update s.tasks i none) (hc : c.isIntermediateState = false)
    (hres : c = t.transition.finalState ∨ c = t.transition.initialState ∨ c = .fault) :
    Traced s' := by
  have hint : s.machine.localState.isIntermediateState = true := hx.intermediate_iff.2 ⟨i, t, ht⟩
  refine h.change hm (fun hlc => ?_) (fun x hsuf _ => ?_) fun j t' hj => ?_
  · rw [hlc, hc] at hint
    cases hint
  · -- the state before the last one is that the transition has left
    have hxi : x = t.transition.initialState := by
      have hsuf' := List.suffix_of_suffix_length_le hsuf (h.pending i t ht) (Nat.le_refl 2)
      exact (List.cons.inj (hsuf'.eq_of_length rfl)).1
    rcases hres with rfl | rfl | rfl
    · exact .inl (hxi ▸ hx.intermediate i t ht)
    · exact .inr (.inl hxi.symm)
    · exact .inr (.inr rfl)
  · rw [hs] at hj
    by_cases hji : j = i
    · rw [hji, Function.update_self] at hj
      cases hj
    · rw [Function.update_of_ne hji] at hj
      exact absurd (hx.atMostOne j i (by simp [hj]) (by simp [ht])) hji

/-- **Step lemma.** -/
theorem step {ev : Event} (h : Traced s) (hx : Exclusive s) (hok : Assumed s ev)
    (hs : s.step ev = some s') : Traced s' := by
  cases step_effect hs with
  | rejected _ => exact h
  | @accepted r f st _ hf hn =>
    have hstable := not_intermediate_of_findTransition hf
    refine h.change rfl (fun hlc => ?_) (fun x _ hi => ?_) fun i t hi => ?_
    · rw [hlc, findTransition_isIntermediate hf] at hstable
      cases hstable
    · rw [hstable] at hi
      cases hi
    · replace hi : Function.update s.tasks s.accepted _ i = some t := hi
      by_cases hia : i = s.accepted
      · rw [hia, Function.update_self] at hi
        rw [← Option.some.inj hi]
      · rw [Function.update_of_ne hia, hx.no_task hstable] at hi
        cases hi
  | stuck _ _ hn => rw [notify_eq_ok.2 hok] at hn; cases hn
  | launchAsync ht _ _ _ => exact h.advance ht rfl rfl
  | launchSync ht _ => exact h.advance ht rfl rfl
  | call ht => exact h.advance ht rfl rfl
  | returned ht => exact h.advance ht rfl rfl
  | @thrown i t e ht =>
    have hr : (e.isRollBack || e.isRuntimeError) = true := by simp [hok e rfl]
    rw [raise, if_pos hr]
    exact h.advance ht rfl rfl
  | finished ht _ => exact h.resolve hx ht rfl rfl (hx.stable_final ht) (.inl rfl)
  | finishThrown _ hn => rw [notify_eq_ok.2 hok] at hn; cases hn
  | @handled i t _ _ e ht =>
    refine h.resolve hx ht rfl rfl (hx.stable_handlerState ht e) (.inr ?_)
    unfold handlerState
    split_ifs
    · exact .inl rfl
    · exact .inr rfl
  | deinitLock _ | deinitJoin _ _ | deinitReturn _ => exact h.keep rfl fun _ t ht => ⟨t, ht, rfl⟩

end Traced

end System

end Nds3
