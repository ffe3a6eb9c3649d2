import Nds3.Tree.GlobalState

/-!
# `StateMachineImpl::canChange`

`canChange` has a table of its own (`isAllowedTransition`) and makes a call of the allow-change
function of its own. The table differs from the chain of `setState` in three places: it takes every
change out of an intermediate state and every change to fault for allowed, and has the recovery
from fault lead to on. And the global state is read into a variable declared in an inner block, so
that the one the allow-change function is given stays `unknown`.
-/

namespace Nds3

def isAllowedTransition (currentState newState : State) : Bool :=
  currentState.isIntermediateState ||
    (currentState == .off && newState == .on) ||
    (currentState == .on && newState == .off) ||
    (currentState == .on && newState == .running) ||
    (currentState == .running && newState == .on) ||
    (currentState == .fault && newState == .on) ||
    newState == .fault

/-- `canChange`. The `globalState` that `getGlobalState` fills is one of an inner block. -/
def StateMachine.canChange (m : StateMachine)
    (allowChange : State → State → State → Except Exn Bool) (newState : State) :
    Except Exn Bool :=
  let globalState : State := .unknown
  if isAllowedTransition m.localState newState then
    allowChange m.localState globalState newState
  else .ok false

/-- The changes both tables have. -/
def commonTransitions : List (State × State) :=
  [(.off, .on), (.on, .off), (.on, .running), (.running, .on)]

/-- The changes only `isAllowedTransition` has. -/
def Extra (localState newState : State) : Prop :=
  localState.isIntermediateState = true ∨ (localState = .fault ∧ newState = .on) ∨
    newState = .fault

/-- The allow-change function hides what tells `canChange` from `setState`: where both tables have
the change it does not look at the global state; where only `setState` has it, it denies the change
in the global state; where only `canChange` has it, it denies the change in the state `unknown`. -/
structure Concealing (allowChange : State → State → State → Except Exn Bool)
    (localState globalState newState : State) : Prop where
  common : (localState, newState) ∈ commonTransitions →
    (allowChange localState .unknown newState = .ok true ↔
      allowChange localState globalState newState = .ok true)
  recover : localState = .fault ∧ newState = .off →
    allowChange localState globalState newState ≠ .ok true
  extra : Extra localState newState → allowChange localState .unknown newState ≠ .ok true

/-! ## The two tables -/

theorem findTransition_isSome_iff {l v : State} : (findTransition l v).isSome = true ↔
    (l, v) ∈ commonTransitions ∨ (l = .fault ∧ v = .off) := by
  unfold findTransition commonTransitions
  split_ifs with h1 h2 h3 h4 h5
  · simp [h1]
  · simp [h2]
  · simp [h3]
  · simp [h4]
  · simp [h5]
  · simp [h1, h2, h3, h4, h5]

theorem isAllowedTransition_iff {l v : State} : isAllowedTransition l v = true ↔
    (l, v) ∈ commonTransitions ∨ Extra l v := by
  simp only [isAllowedTransition, Bool.or_eq_true, Bool.and_eq_true, beq_iff_eq, commonTransitions,
    Extra, List.mem_cons, List.not_mem_nil, or_false, Prod.mk.injEq]
  constructor
  · rintro ((((((hi | h1) | h2) | h3) | h4) | hf) | hv)
    · exact .inr (.inl hi)
    · exact .inl (.inl h1)
    · exact .inl (.inr (.inl h2))
    · exact .inl (.inr (.inr (.inl h3)))
    · exact .inl (.inr (.inr (.inr h4)))
    · exact .inr (.inr (.inl hf))
    · exact .inr (.inr (.inr hv))
  · rintro ((h1 | h2 | h3 | h4) | hi | hf | hv)
    · simp [h1]
    · simp [h2]
    · simp [h3]
    · simp [h4]
    · simp [hi]
    · simp [hf]
    · simp [hv]

theorem tables_disjoint {l v : State} (hv : v ≠ l) :
    ((l, v) ∈ commonTransitions → ¬ (l = .fault ∧ v = .off) ∧ ¬ Extra l v) ∧
    (l = .fault ∧ v = .off → ¬ Extra l v) := by
  constructor
  · intro h
    simp only [commonTransitions, List.mem_cons, List.not_mem_nil, or_false, Prod.mk.injEq] at h
    rcases h with ⟨rfl, rfl⟩ | ⟨rfl, rfl⟩ | ⟨rfl, rfl⟩ | ⟨rfl, rfl⟩ <;>
      simp [Extra, State.isIntermediateState]
  · rintro ⟨rfl, rfl⟩
    simp [Extra, State.isIntermediateState]

namespace StateMachine

variable {m : StateMachine} {r : Request}

theorem canChange_eq_true {allowChange : State → State → State → Except Exn Bool} {v : State} :
    m.canChange allowChange v = .ok true ↔ isAllowedTransition m.localState v = true ∧
      allowChange m.localState .unknown v = .ok true := by
  unfold canChange
  split_ifs with h <;> simp [h]

/-- The request is accepted: `setState` enters an intermediate state. -/
def Enters (m : StateMachine) (r : Request) : Prop :=
  ∃ st, st.isIntermediateState = true ∧
    (m.setStateLocked r).1 = (m.changeState st r.timestamp r.answers).1

theorem enters_iff_accepts : m.Enters r ↔ m.accepts r = true := by
  have hne : ∀ st, m ≠ (m.changeState st r.timestamp r.answers).1 := fun st h => by
    have hlen := congrArg (fun m => m.assigned.length) h
    simp [changeState] at hlen
  rcases m.setStateLocked_cases r with ⟨ha, he | ⟨e, he⟩⟩ | ⟨ha, f, st, hf, ⟨-, he⟩ | ⟨e, -, he⟩⟩
  · simp [Enters, he, ha, hne]
  · simp [Enters, he, ha, hne]
  · exact iff_of_true ⟨st, findTransition_isIntermediate hf, by rw [he]⟩ ha
  · exact iff_of_true ⟨st, findTransition_isIntermediate hf, by rw [he]⟩ ha

theorem accepts_eq_true (hv : r.newState ≠ m.localState) :
    m.accepts r = true ↔ (findTransition m.localState r.newState).isSome = true ∧
      r.allowChange m.localState r.globalState r.newState = .ok true := by
  unfold accepts
  cases r.allowChange m.localState r.globalState r.newState <;> simp [hv.symm]

/-- **When `canChange` predicts `setState`.** On a machine `ms` of any tree, `children` being those
of the node it is the machine of, `canChange` answers true exactly when `setState` would enter an
intermediate state, if and only if the allow-change function conceals the difference. -/
theorem canChange_iff_enters {children : List Element} {ms : MachineState}
    {allowChange : State → State → State → Except Exn Bool} {newState : State}
    (hm : m.localState = ms.localState) (hv : newState ≠ m.localState) (g : List Nat → Vars)
    (timestamp : Timespec) (answers : List (Option Exn)) :
    let globalState := (Element.machineGetGlobalState g ms children).2
    (m.canChange allowChange newState = .ok true ↔
      m.Enters ⟨newState, globalState, allowChange, timestamp, answers⟩) ↔
    Concealing allowChange ms.localState globalState newState := by
  intro globalState
  rw [enters_iff_accepts, accepts_eq_true hv, canChange_eq_true, isAllowedTransition_iff,
    findTransition_isSome_iff, ← hm]
  obtain ⟨hcommon, hrecover⟩ := tables_disjoint hv
  constructor
  · intro h
    refine ⟨fun hc => ?_, fun hr hb => ?_, fun he ha => ?_⟩
    · exact ⟨fun ha => (h.mp ⟨.inl hc, ha⟩).2, fun hb => (h.mpr ⟨.inl hc, hb⟩).2⟩
    · rcases (h.mpr ⟨.inr hr, hb⟩).1 with hc | he
      · exact (hcommon hc).1 hr
      · exact hrecover hr he
    · rcases (h.mp ⟨.inr he, ha⟩).1 with hc | hr
      · exact (hcommon hc).2 he
      · exact hrecover hr he
  · rintro ⟨hcommon', hrecover', hextra'⟩
    constructor
    · rintro ⟨hc | he, ha⟩
      · exact ⟨.inl hc, (hcommon' hc).mp ha⟩
      · exact absurd ha (hextra' he)
    · rintro ⟨hc | hr, hb⟩
      · exact ⟨.inl hc, (hcommon' hc).mpr hb⟩
      · exact absurd hb (hrecover' hr)

/-- A machine that is off, in a tree that reaches no other, and an allow-change function that looks
at the local state only. -/
theorem canChange_iff_enters_off :
    let s := System.initial false ⟨0, 0⟩ ⟨1, 0⟩
    let m := s.machine
    let ms : MachineState := s.machineState .refl
    let allowChange := fun l _ _ : State => (.ok (l == .off) : Except Exn Bool)
    let globalState := (Element.machineGetGlobalState (fun _ => (⟨9, 9⟩, .fault)) ms []).2
    (m.canChange allowChange .on = .ok true ↔
      m.Enters ⟨.on, globalState, allowChange, ⟨2, 0⟩, []⟩) := by
  intro s m ms allowChange globalState
  refine (@canChange_iff_enters m [] ms allowChange .on rfl (by decide)
    (fun _ => (⟨9, 9⟩, .fault)) ⟨2, 0⟩ []).mpr ⟨fun _ => Iff.rfl, fun h => ?_, fun h => ?_⟩
  · cases h.1
  · rcases h with h | ⟨h, -⟩ | h <;> cases h

theorem toInt_fault_pos : 0 < State.toInt .fault := by decide

theorem toInt_initializing_pos : 0 < State.toInt .initializing := by decide

/-- Of a machine in fault `canChange` says that it cannot be switched off, and `setState` recovers
it; of one that is switching on it says that the change to fault is possible, which `setState`
rejects; and an allow-change function that asks the global state to be known vetoes every
`canChange`. The machines are the only ones of their trees. -/
theorem canChange_mispredicts :
    let machine := fun st : State =>
      { (System.initial false ⟨0, 0⟩ ⟨1, 0⟩).machine with localState := st }
    let globalState := fun (st : State) (h : 0 < st.toInt) =>
      (Element.machineGetGlobalState (fun _ => (⟨9, 9⟩, .fault)) ⟨st, ⟨1, 0⟩, h⟩ []).2
    let yes : State → State → State → Except Exn Bool := fun _ _ _ => .ok true
    let known : State → State → State → Except Exn Bool := fun _ g _ => .ok (g != .unknown)
    ((machine .fault).canChange yes .off = .ok false ∧
      (machine .fault).Enters ⟨.off, globalState .fault toInt_fault_pos, yes, ⟨2, 0⟩, []⟩) ∧
    ((machine .initializing).canChange yes .fault = .ok true ∧
      ¬ (machine .initializing).Enters
        ⟨.fault, globalState .initializing toInt_initializing_pos, yes, ⟨2, 0⟩, []⟩) ∧
    ((machine .off).canChange known .on = .ok false ∧
      (machine .off).Enters ⟨.on, globalState .off State.toInt_off_pos, known, ⟨2, 0⟩, []⟩) := by
  simp only [enters_iff_accepts]
  decide

end StateMachine

end Nds3
