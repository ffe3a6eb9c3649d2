import Nds3.StateMachine.Exclusion
import Nds3.StateMachine.Resolution

/-!
# Requests through the setState PV

`writeLocalState` casts any `std::int32_t` to a state. A request without a transition changes
nothing, but its error message needs the names of both states, and not every value has one.
-/

namespace Nds3

/-! ## The values of the states -/

theorem State.toInt_ofInt32 (v : Int32) : (State.ofInt32 v).toInt = v.toInt := by
  by_cases h : v < 0 ∨ 9 < v
  · rw [State.ofInt32, dif_pos h]
    rfl
  · simp only [Int32.lt_iff_toInt_lt, Int32.reduceToInt, not_or, Int.not_lt] at h
    have hv : v = Int32.ofInt v.toInt := (Int32.ofInt_toInt v).symm
    have hvalue : v.toInt = 0 ∨ v.toInt = 1 ∨ v.toInt = 2 ∨ v.toInt = 3 ∨ v.toInt = 4 ∨
        v.toInt = 5 ∨ v.toInt = 6 ∨ v.toInt = 7 ∨ v.toInt = 8 ∨ v.toInt = 9 := by omega
    rcases hvalue with hi | hi | hi | hi | hi | hi | hi | hi | hi | hi <;>
      · rw [hv, hi]
        rfl

theorem getStateName_isOk_iff (st : State) :
    (∃ name, getStateName st = .ok name) ↔ 0 ≤ st.toInt ∧ st.toInt ≤ 8 := by
  cases st with
  | raw r =>
    have hr := r.outside
    simp only [Int32.lt_iff_toInt_lt, Int32.reduceToInt] at hr
    refine iff_of_false ?_ ?_
    · rintro ⟨name, h⟩
      cases h
    · rw [State.toInt]
      omega
  | MAX_STATE_NUM =>
    refine iff_of_false ?_ (by decide)
    rintro ⟨name, h⟩
    cases h
  | _ => exact iff_of_true ⟨_, rfl⟩ (by decide)

theorem findTransition_named {l n st : State} {f : Delegate}
    (h : findTransition l n = some (f, st)) :
    (∃ name, getStateName st = .ok name) ∧ ∃ name, getStateName n = .ok name := by
  obtain ⟨hdoc, hint⟩ := findTransition_documented h
  cases f with
  | _ =>
    obtain ⟨rfl, rfl⟩ := Prod.ext_iff.mp hdoc
    obtain rfl := Option.some.inj hint
    exact ⟨⟨_, rfl⟩, ⟨_, rfl⟩⟩

theorem System.named_localState {bAsync : Bool} {u ts : Timespec} {s : System}
    (h : Lts.Reach System.step (fun _ _ => True) (System.initial bAsync u ts) s) :
    ∃ name, getStateName s.machine.localState = .ok name :=
  (Only.run (P := fun st => ∃ name, getStateName st = .ok name) ⟨_, rfl⟩ ⟨_, rfl⟩
    findTransition_named h).localState

theorem findTransition_eq_none {l n : State} :
    findTransition l n = none ↔ ∀ f : Delegate, f.documentedPair ≠ (l, n) := by
  constructor
  · intro h f hf
    cases f with
    | _ =>
      obtain ⟨rfl, rfl⟩ := Prod.ext_iff.mp hf
      cases h
  · intro h
    cases hf : findTransition l n with
    | none => rfl
    | some p => exact absurd (findTransition_documented hf).1 (h p.1)

namespace StateMachine

/-! ## `setState` -/

/-- `setState`: the critical section, and the execution of the transition. -/
def setState (m : StateMachine) (r : Request) (x : Execution) : StateMachine × Except Abort Unit :=
  match m.setStateLocked r with
  | (m, .ok none) => (m, .ok ())
  | (m, .error e) => (m, .error (.throws e))
  | (m, .ok (some t)) => m.execute t x

/-- `writeLocalState`, the delegate of the setState PV. -/
def writeLocalState (m : StateMachine) (value : Int32) (r : Request) (x : Execution) :
    StateMachine × Except Abort Unit :=
  m.setState { r with newState := State.ofInt32 value } x

/-- The write has thrown `StateMachineNoSuchTransition` and left the machine as it was. -/
structure Rejects (m : StateMachine) (result : StateMachine × Except Abort Unit) : Prop where
  throws : ∃ e, result.2 = .error (.throws e) ∧ e.cls = .StateMachineNoSuchTransition
  localState : result.1.localState = m.localState
  stateTimestamp : result.1.stateTimestamp = m.stateTimestamp
  pushed : result.1.pushed = m.pushed

theorem setState_noSuchTransition {m : StateMachine} {r : Request} (hne : m.localState ≠ r.newState)
    (hno : findTransition m.localState r.newState = none) (x : Execution) :
    m.setState r x = (m, .error (.throws (noSuchTransition m.localState r.newState))) := by
  rw [setState, setStateLocked, if_neg hne, hno]

/-- What it throws is a `StateMachineNoSuchTransition` when both states have a name. -/
theorem noSuchTransition_cls {l n : State} (hl : ∃ name, getStateName l = .ok name) :
    (noSuchTransition l n).cls = .StateMachineNoSuchTransition ↔
      ∃ name, getStateName n = .ok name := by
  obtain ⟨name, hname⟩ := hl
  rw [noSuchTransition, hname]
  cases hn : getStateName n with
  | ok name' => simp
  | error e =>
    have he : e.cls = .logicError := by
      cases n with
      | MAX_STATE_NUM | raw => cases hn; rfl
      | _ => cases hn
    simp [he]

/-- The write of a value without a transition, in a machine of any run, is rejected with
`StateMachineNoSuchTransition` exactly for the values of the states from unknown to fault. -/
theorem writeLocalState_rejects_iff {bAsync : Bool} {u ts : Timespec} {s : System}
    (h : Lts.Reach System.step (fun _ _ => True) (System.initial bAsync u ts) s) (v : Int32)
    (hne : State.ofInt32 v ≠ s.machine.localState)
    (hno : ∀ f : Delegate, f.documentedPair ≠ (s.machine.localState, State.ofInt32 v))
    (r : Request) (x : Execution) :
    s.machine.Rejects (s.machine.writeLocalState v r x) ↔ 0 ≤ v.toInt ∧ v.toInt ≤ 8 := by
  rw [writeLocalState, setState_noSuchTransition (Ne.symm hne) (findTransition_eq_none.mpr hno),
    ← State.toInt_ofInt32, ← getStateName_isOk_iff, ← noSuchTransition_cls (s.named_localState h)]
  constructor
  · rintro ⟨⟨e, he, hcls⟩, -, -, -⟩
    cases he
    exact hcls
  · exact fun hcls => ⟨⟨_, rfl, hcls⟩, rfl, rfl, rfl⟩

theorem writeLocalState_rejects_running :
    (System.initial false ⟨0, 0⟩ ⟨1, 0⟩).machine.Rejects
      ((System.initial false ⟨0, 0⟩ ⟨1, 0⟩).machine.writeLocalState 7 (.unobserved .on)
        ⟨none, ⟨3, 0⟩, [], ⟨3, 0⟩, []⟩) :=
  (writeLocalState_rejects_iff .refl 7 (by decide) (fun f => by cases f <;> decide) _ _).mpr
    (by decide)

/-- The value 9 of `MAX_STATE_NUM` makes the lookup of the name throw. -/
theorem writeLocalState_9_not_rejected : ¬ ∀ (bAsync : Bool) (u ts : Timespec) (s : System),
    Lts.Reach System.step (fun _ _ => True) (System.initial bAsync u ts) s →
      ∀ v, State.ofInt32 v ≠ s.machine.localState →
        (∀ f : Delegate, f.documentedPair ≠ (s.machine.localState, State.ofInt32 v)) →
          ∀ r x, s.machine.Rejects (s.machine.writeLocalState v r x) := by
  intro hall
  obtain ⟨⟨e, he, hcls⟩, -, -, -⟩ := hall false ⟨0, 0⟩ ⟨1, 0⟩ _ .refl 9 (by decide)
    (fun f => by cases f <;> decide) (.unobserved .on) ⟨none, ⟨3, 0⟩, [], ⟨3, 0⟩, []⟩
  cases he
  cases hcls

end StateMachine

end Nds3
