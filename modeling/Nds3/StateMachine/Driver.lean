import Nds3.StateMachine.Exclusion

/-!
# What the driver sees

The driver gives the machine its transition functions and is called by any thread. What it sees of
a run is that a transition is accepted and that its function is invoked and ends: a run of the
automaton `Driver`, in which this happens for one transition after the other. The machine simulates
the automaton (`Views.step`), so every function is invoked exactly once for each transition that is
accepted, and between the end of one function and the call of the next one the machine is in the
state the first has led to.
-/

namespace Nds3

/-- The state a function leads to, given how it ends. -/
def Delegate.resolution (f : Delegate) : Option Exn → State
  | none => f.documentedPair.2
  | some e => if e.isRollBack then f.documentedPair.1 else .fault

/-- A machine whose requests come one after the other. -/
inductive Driver where
  | ready (localState : State)
  /-- A transition has been accepted. -/
  | requested (f : Delegate)
  | executing (f : Delegate)
  deriving DecidableEq

inductive DriverEvent where
  | request (f : Delegate)
  | invoke (f : Delegate)
  | complete (f : Delegate) (outcome : Option Exn)

def Driver.step : Driver → DriverEvent → Option Driver
  | .ready st, .request f => if f.documentedPair.1 = st then some (.requested f) else none
  | .requested f, .invoke g => if f = g then some (.executing f) else none
  | .executing f, .complete g outcome =>
    if f = g then some (.ready (f.resolution outcome)) else none
  | _, _ => none

/-- What a pending transition is to the driver. -/
def Task.view (t : Task) : Driver :=
  match t.phase with
  | .accepted | .launched => .requested t.transition.transitionFunction
  | .executing => .executing t.transition.transitionFunction
  | .returned => .ready (t.transition.transitionFunction.resolution none)
  | .unwinding e => .ready (t.transition.transitionFunction.resolution (some e))

namespace System

/-- What the driver sees of a step. -/
def sees (s : System) : Event → List DriverEvent
  | .setState r =>
    match s.machine.setStateLocked r with
    | (_, .ok (some t)) => [.request t.transitionFunction]
    | _ => []
  | .call i => (s.tasks i).toList.map fun t => .invoke t.transition.transitionFunction
  | .exit i outcome =>
    (s.tasks i).toList.map fun t => .complete t.transition.transitionFunction outcome
  | _ => []

/-- The machine is ready in its local state, or its pending transition is seen. -/
def Views (s : System) (d : Driver) : Prop :=
  ((∀ i, s.tasks i = none) ∧ d = .ready s.machine.localState) ∨
    ∃ i t, s.tasks i = some t ∧ d = t.view

section

variable {s s' : System} {ev : Event} {d : Driver}

theorem sees_of_not_accepts {r : Request} (h : s.machine.accepts r = false) :
    s.sees (.setState r) = [] := by
  rcases s.machine.setStateLocked_cases r with ⟨-, he | ⟨e, he⟩⟩ | ⟨ha, -⟩
  · simp [sees, he]
  · simp [sees, he]
  · rw [h] at ha
    cases ha

theorem sees_of_accepts {r : Request} {f : Delegate} {st : State}
    (h : s.machine.accepts r = true)
    (hf : findTransition s.machine.localState r.newState = some (f, st))
    (hn : notify r.answers = .ok ()) : s.sees (.setState r) = [.request f] := by
  rcases s.machine.setStateLocked_cases r with ⟨ha, -⟩ | ⟨-, g, st', hg, ⟨-, he⟩ | ⟨e, hn', -⟩⟩
  · rw [h] at ha
    cases ha
  · rw [hf] at hg
    cases hg
    simp [sees, he]
  · rw [hn] at hn'
    cases hn'

theorem Views.eq_view (hv : s.Views d) (h : Exclusive s) {i : Nat} {t : Task}
    (ht : s.tasks i = some t) : d = t.view := by
  rcases hv with ⟨hnone, -⟩ | ⟨j, u, hu, rfl⟩
  · rw [hnone i] at ht
    cases ht
  · obtain rfl := h.atMostOne i j (by simp [ht]) (by simp [hu])
    rw [ht] at hu
    cases hu
    rfl

theorem views_update {i : Nat} {t : Task} (hs : s'.tasks = Function.update s.tasks i (some t))
    (hd : d = t.view) : s'.Views d :=
  .inr ⟨i, t, by rw [hs, Function.update_self], hd⟩

theorem Exclusive.views_resolved (h : Exclusive s) {i : Nat} {t : Task} (ht : s.tasks i = some t)
    (hs : s'.tasks = Function.update s.tasks i none) : s'.Views (.ready s'.machine.localState) := by
  refine .inl ⟨fun j => ?_, rfl⟩
  rw [hs]
  by_cases hji : j = i
  · rw [hji, Function.update_self]
  · rw [Function.update_of_ne hji]
    by_contra hj
    exact hji (h.atMostOne j i hj (by simp [ht]))

theorem Exclusive.resolution_none (h : Exclusive s) {i : Nat} {t : Task}
    (ht : s.tasks i = some t) :
    t.transition.transitionFunction.resolution none = t.transition.finalState := by
  rw [Delegate.resolution, h.documented i t ht]

theorem Exclusive.resolution_some (h : Exclusive s) {i : Nat} {t : Task}
    (ht : s.tasks i = some t) (e : Exn) :
    t.transition.transitionFunction.resolution (some e) = handlerState t.transition e := by
  rw [Delegate.resolution, h.documented i t ht, handlerState]

/-- **Step lemma.** -/
theorem Views.step (hv : s.Views d) (h : Exclusive s) (hok : Assumed s ev)
    (hs : s.step ev = some s') :
    ∃ d', Lts.exec Driver.step d (s.sees ev) = some d' ∧ s'.Views d' := by
  cases step_effect hs with
  | rejected ha =>
    rw [sees_of_not_accepts ha]
    exact ⟨d, rfl, hv⟩
  | @accepted r f st ha hf hn =>
    have hnone := h.no_task (not_intermediate_of_findTransition hf)
    obtain ⟨hdoc, -⟩ := findTransition_documented hf
    obtain ⟨-, rfl⟩ : (∀ i, s.tasks i = none) ∧ d = .ready s.machine.localState := by
      rcases hv with hv | ⟨i, t, ht, -⟩
      · exact hv
      · rw [hnone i] at ht
        cases ht
    rw [sees_of_accepts ha hf hn]
    refine ⟨.requested f, ?_, views_update rfl rfl⟩
    simp [Driver.step, hdoc]
  | stuck _ _ hn =>
    rw [notify_eq_ok.2 hok] at hn
    cases hn
  | launchAsync ht _ _ _ | launchSync ht _ =>
    obtain rfl := hv.eq_view h ht
    exact ⟨_, rfl, views_update rfl rfl⟩
  | @call i t ht =>
    obtain rfl := hv.eq_view h ht
    refine ⟨.executing t.transitionFunction, ?_, views_update rfl rfl⟩
    simp [sees, ht, Task.view, Driver.step]
  | @returned i t ht =>
    obtain rfl := hv.eq_view h ht
    refine ⟨.ready (t.transitionFunction.resolution none), ?_, views_update rfl rfl⟩
    simp [sees, ht, Task.view, Driver.step]
  | @thrown i t e ht =>
    obtain rfl := hv.eq_view h ht
    have hr : (e.isRollBack || e.isRuntimeError) = true := by simp [hok e rfl]
    rw [raise, if_pos hr]
    refine ⟨.ready (t.transitionFunction.resolution (some e)), ?_, views_update rfl rfl⟩
    simp [sees, ht, Task.view, Driver.step]
  | @finished i t ts a ht hn =>
    obtain rfl := hv.eq_view h ht
    have hview : Task.view ⟨t, .returned⟩ = .ready t.finalState :=
      congrArg Driver.ready (h.resolution_none ht)
    exact ⟨_, rfl, hview ▸ h.views_resolved ht rfl⟩
  | finishThrown _ hn =>
    rw [notify_eq_ok.2 hok] at hn
    cases hn
  | @handled i t ts a e ht =>
    obtain rfl := hv.eq_view h ht
    have hview : Task.view ⟨t, .unwinding e⟩ = .ready (handlerState t e) :=
      congrArg Driver.ready (h.resolution_some ht e)
    exact ⟨_, rfl, hview ▸ h.views_resolved (i := i) ht rfl⟩
  | deinitLock _ | deinitJoin _ _ | deinitReturn _ => exact ⟨d, rfl, hv⟩

end

end System

end Nds3
