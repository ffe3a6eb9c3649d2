import Nds3.Definitions
import Mathlib.Tactic.SplitIfs

/-!
# `StateMachineImpl`: the critical sections

Every change of the local state happens under `m_stateMutex`, in one of five places that all do
the same three things: assign `m_localState`, stamp it, push it through the getState PV
(`changeState`). This file has the functions those critical sections compute: the section of
`setState` up to the release of the mutex (`setStateLocked`), the end of `executeTransition`'s
`try` block and its two handlers (`executeTransition`). `Concurrent.lean` interleaves them.

The getState PV notifies its subscribers synchronously; a subscriber's `write` may throw. A
notification is given by the list of its subscribers' answers in the order of the subscribers'
set, `none` for a `write` that returns.

The timestamp delegate of the machine is called between the assignment and the push, and is taken
to return, and so is the `push` of the control system's port. A subscriber does not call back into
the machine, which its thread could do under the recursive `m_stateMutex`.
-/

namespace Nds3

/-- The members holding the delegates of the constructor: `m_switchOn` .. `m_recover`. -/
inductive Delegate where
  | switchOn
  | switchOff
  | start
  | stop
  | recover
  deriving DecidableEq, Repr

/-- The state machine's data. `assigned` and `pushed` record, in order, what was assigned to
`(m_stateTimestamp, m_localState)` and what was pushed through the getState PV. -/
structure StateMachine where
  bAsync : Bool
  localState : State
  stateTimestamp : Timespec
  assigned : List (Timespec × State)
  pushed : List (Timespec × State)
  deriving DecidableEq

def State.isIntermediateState (state : State) : Bool :=
  state == .switchingOff || state == .initializing || state == .starting || state == .stopping

def getStateName : State → Except Exn String
  | .unknown => .ok "UNKNOWN"
  | .off => .ok "OFF"
  | .switchingOff => .ok "SWITCHING_OFF"
  | .initializing => .ok "INITIALIZING"
  | .on => .ok "ON"
  | .stopping => .ok "STOPPING"
  | .starting => .ok "STARTING"
  | .running => .ok "RUNNING"
  | .fault => .ok "FAULT"
  | .MAX_STATE_NUM => .error ⟨.logicError,
      "The enumeration MAX_STATE_NUM is used only to know how many states are defined"⟩
  | .raw _ => .error ⟨.logicError, "Uknown state"⟩

/-- The transition chain of `setState`: the delegate that performs the transition and the
intermediate state to set, if the transition exists. -/
def findTransition (localState newState : State) : Option (Delegate × State) :=
  if localState = .off ∧ newState = .on then some (.switchOn, .initializing)
  else if localState = .on ∧ newState = .off then some (.switchOff, .switchingOff)
  else if localState = .on ∧ newState = .running then some (.start, .starting)
  else if localState = .running ∧ newState = .on then some (.stop, .stopping)
  else if localState = .fault ∧ newState = .off then some (.recover, .switchingOff)
  else none

/-- The exception of a request no transition exists for. Building its text looks both state
names up, and the lookup has failure exits of its own. -/
def noSuchTransition (localState newState : State) : Exn :=
  match getStateName localState, getStateName newState with
  | .ok l, .ok n =>
    ⟨.StateMachineNoSuchTransition, "No transition from state " ++ l ++ " to state " ++ n⟩
  | .error e, _ => e
  | _, .error e => e

/-- The exception of a request vetoed by the allow-change function. -/
def transitionDenied (localState newState : State) : Exn :=
  match getStateName localState, getStateName newState with
  | .ok l, .ok n => ⟨.StateMachineTransitionDenied,
      "The transition from state " ++ l ++ " to state " ++ n ++ " has been denied"⟩
  | .error e, _ => e
  | _, .error e => e

/-- A notification: the first subscriber whose `write` throws ends it. -/
def notify (answers : List (Option Exn)) : Except Exn Unit :=
  match answers.findSome? id with
  | none => .ok ()
  | some e => .error e

namespace StateMachine

/-- Assign the state, stamp it with what the timestamp delegate has returned, and push it through the
getState PV. -/
def changeState (m : StateMachine) (state : State) (timestamp : Timespec)
    (answers : List (Option Exn)) : StateMachine × Except Exn Unit :=
  let m := { m with localState := state, stateTimestamp := timestamp,
                    assigned := m.assigned ++ [(timestamp, state)] }
  ({ m with pushed := m.pushed ++ [(m.stateTimestamp, m.localState)] }, notify answers)

/-- The constructor (`m_localState(state_t::off)`; the timestamp is left uninitialised). -/
def construct (bAsync : Bool) (uninitialised : Timespec) : StateMachine :=
  ⟨bAsync, .off, uninitialised, [], []⟩

/-- The part of `initialize` that follows `NodeImpl::initialize`. -/
def initializeState (m : StateMachine) (timestamp : Timespec) (answers : List (Option Exn)) :
    StateMachine × Except Exn Unit :=
  m.changeState .off timestamp answers

end StateMachine

/-- What one call of `setState` is given: the requested state and what its environment answers
while it holds the mutex. -/
structure Request where
  newState : State
  /-- What `getGlobalState` answers. -/
  globalState : State
  /-- `m_allowChange`; user code, so it may throw. -/
  allowChange : State → State → State → Except Exn Bool
  timestamp : Timespec
  /-- What the subscribers answer to the notification of the intermediate state. -/
  answers : List (Option Exn)

/-- A request nobody vetoes and no subscriber observes. -/
def Request.unobserved (newState : State) : Request :=
  ⟨newState, .off, fun _ _ _ => .ok true, ⟨2, 0⟩, []⟩

/-- The arguments `setState` passes on to `executeTransition`. -/
structure Transition where
  initialState : State
  finalState : State
  transitionFunction : Delegate
  deriving DecidableEq

/-- What one execution of a transition meets: how the transition function ends (`none`: it
returns), and what the subscribers answer to the notification of the final state and to that of
the handler. -/
structure Execution where
  outcome : Option Exn
  timestamp : Timespec
  answers : List (Option Exn)
  handlerTimestamp : Timespec
  handlerAnswers : List (Option Exn)

namespace StateMachine

/-- `setState` up to the release of `m_stateMutex`. `some t`: the intermediate state is set and
`t` is to be executed; `none`: the machine already is in the requested state. -/
def setStateLocked (m : StateMachine) (r : Request) :
    StateMachine × Except Exn (Option Transition) :=
  if m.localState = r.newState then (m, .ok none)
  else
    match findTransition m.localState r.newState with
    | none => (m, .error (noSuchTransition m.localState r.newState))
    | some (transitionFunction, transitionState) =>
      match r.allowChange m.localState r.globalState r.newState with
      | .error e => (m, .error e)
      | .ok false => (m, .error (transitionDenied m.localState r.newState))
      | .ok true =>
        match m.changeState transitionState r.timestamp r.answers with
        | (m', .error e) => (m', .error e)
        | (m', .ok ()) => (m', .ok (some ⟨m.localState, r.newState, transitionFunction⟩))

/-- `executeTransition`: the transition function and the end of the `try` block, then the two
handlers, which set the state and rethrow. The notification is inside the `try` block. -/
def executeTransition (m : StateMachine) (t : Transition) (x : Execution) :
    StateMachine × Except Exn Unit :=
  let tried : StateMachine × Except Exn Unit :=
    match x.outcome with
    | none => m.changeState t.finalState x.timestamp x.answers
    | some e => (m, .error e)
  match tried with
  | (m, .ok ()) => (m, .ok ())
  | (m, .error e) =>
    if e.isRollBack then
      match m.changeState t.initialState x.handlerTimestamp x.handlerAnswers with
      | (m, .ok ()) => (m, .error e)
      | (m, .error e') => (m, .error e')
    else if e.isRuntimeError then
      match m.changeState .fault x.handlerTimestamp x.handlerAnswers with
      | (m, .ok ()) => (m, .error e)
      | (m, .error e') => (m, .error e')
    else (m, .error e)

/-- The requests that pass every check of `setState`. -/
def accepts (m : StateMachine) (r : Request) : Bool :=
  m.localState != r.newState && (findTransition m.localState r.newState).isSome &&
    match r.allowChange m.localState r.globalState r.newState with
    | .ok b => b
    | .error _ => false

end StateMachine

/-! ## What `setStateLocked` can do -/

theorem findTransition_ne {l n : State} {f : Delegate} {s : State}
    (h : findTransition l n = some (f, s)) : l ≠ n := by
  rintro rfl
  cases l <;> simp [findTransition] at h

theorem findTransition_isIntermediate {l n : State} {f : Delegate} {s : State}
    (h : findTransition l n = some (f, s)) : s.isIntermediateState = true := by
  unfold findTransition at h
  split_ifs at h <;> cases h <;> rfl

theorem findTransition_of_intermediate {l n : State} (h : l.isIntermediateState = true) :
    findTransition l n = none := by
  cases l <;> simp_all [findTransition, State.isIntermediateState]

theorem notify_eq_ok {answers : List (Option Exn)} :
    notify answers = .ok () ↔ ∀ a ∈ answers, a = none := by
  unfold notify
  cases h : answers.findSome? id with
  | none => simpa using h
  | some e =>
    obtain ⟨a, ha, hae⟩ := List.exists_of_findSome?_eq_some h
    simp only [id_eq] at hae
    simp only [reduceCtorEq, false_iff, not_forall]
    exact ⟨a, ha, by simp [hae]⟩

theorem notify_error_mem {answers : List (Option Exn)} {e : Exn} (h : notify answers = .error e) :
    some e ∈ answers := by
  unfold notify at h
  split at h
  · cases h
  · next e' h' =>
    cases h
    obtain ⟨a, ha, hae⟩ := List.exists_of_findSome?_eq_some h'
    simp only [id_eq] at hae
    exact hae ▸ ha

namespace StateMachine

/-- The four ends of the critical section of `setState`. -/
theorem setStateLocked_cases (m : StateMachine) (r : Request) :
    (m.accepts r = false ∧ (m.setStateLocked r = (m, .ok none) ∨
      ∃ e, m.setStateLocked r = (m, .error e))) ∨
    (m.accepts r = true ∧ ∃ f s, findTransition m.localState r.newState = some (f, s) ∧
      ((notify r.answers = .ok () ∧ m.setStateLocked r =
          ((m.changeState s r.timestamp r.answers).1,
            .ok (some ⟨m.localState, r.newState, f⟩))) ∨
        ∃ e, notify r.answers = .error e ∧ m.setStateLocked r =
          ((m.changeState s r.timestamp r.answers).1, .error e))) := by
  unfold setStateLocked accepts
  by_cases hl : m.localState = r.newState
  · simp [hl]
  rw [if_neg hl]
  cases ht : findTransition m.localState r.newState with
  | none => simp
  | some p =>
    obtain ⟨f, s⟩ := p
    cases ha : r.allowChange m.localState r.globalState r.newState with
    | error e => simp
    | ok b =>
      cases b with
      | false => simp
      | true =>
        right
        refine ⟨by simp [hl], f, s, rfl, ?_⟩
        cases hn : notify r.answers with
        | ok u =>
          left
          simp only [StateMachine.changeState, hn]
          exact ⟨trivial, trivial⟩
        | error e =>
          right
          simp only [StateMachine.changeState, hn]
          exact ⟨e, rfl, rfl⟩

end StateMachine

end Nds3
