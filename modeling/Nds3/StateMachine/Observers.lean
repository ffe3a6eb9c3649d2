import Nds3.StateMachine.Concurrent

/-!
# Observers

The output PVs subscribed to the getState PV are written by the notifications of the state
machine, in the middle of its transitions, and their `write` may throw. A session is a machine and
the sequence of requests and executions it goes through; the undisturbed session is the same
sequence with no subscriber.

The two agree on the local states exactly when the notification of an intermediate state and the
notification of a final state are not answered by an exception (`Calm`): the first one leaves the
machine in the intermediate state with nothing to execute, the second one is taken for a failure
of the transition function. The notifications of the handlers are harmless.
-/

namespace Nds3

/-- A machine, its accepted transition and whether `executeTransitionThread` let an exception
out. -/
structure Session where
  machine : StateMachine
  pending : Option Transition
  terminated : Bool
  deriving DecidableEq

/-- What happens to a machine, one item after the other. A call of `setState` on a synchronous
machine is a request and, where it is accepted, the execution of its transition. -/
inductive Item where
  | setState (r : Request)
  | executeTransition (x : Execution)

def Execution.unobserved (x : Execution) : Execution :=
  { x with answers := [], handlerAnswers := [] }

namespace Item

def unobserved : Item → Item
  | setState r => setState { r with answers := [] }
  | executeTransition x => executeTransition x.unobserved

/-- The subscribers throw `std::runtime_error`s only. -/
def RuntimeErrors : Item → Prop
  | setState r => ∀ e, some e ∈ r.answers → e.isRuntimeError = true
  | executeTransition x =>
    ∀ e, some e ∈ x.answers ∨ some e ∈ x.handlerAnswers → e.isRuntimeError = true

end Item

namespace Session

/-- After the constructor and one `initialize`. -/
def initial (bAsync : Bool) (uninitialised timestamp : Timespec) : Session :=
  ⟨((StateMachine.construct bAsync uninitialised).initializeState timestamp []).1, none, false⟩

/-- One item. An execution with nothing accepted does not take place. -/
def step (s : Session) (item : Item) : Session :=
  if s.terminated then s
  else
    match item with
    | .setState r =>
      match s.machine.setStateLocked r with
      | (m, .ok (some t)) => { s with machine := m, pending := some t }
      | (m, _) => { s with machine := m }
    | .executeTransition x =>
      match s.pending with
      | none => s
      | some t =>
        match s.machine.executeTransition t x with
        | (m, .ok ()) => { s with machine := m, pending := none }
        | (m, .error e) => ⟨m, none, m.bAsync && !e.isRuntimeError⟩

def run : Session → List Item → Session
  | s, [] => s
  | s, item :: items => run (s.step item) items

def history (s : Session) : List State := s.machine.assigned.map Prod.snd

/-- A request that fails leaves the local state as it was; a transition function that returns ends
in the requested final state. -/
def Keeps (s : Session) : Item → Prop
  | .setState r => s.terminated = false →
      (∃ e, (s.machine.setStateLocked r).2 = .error e) →
      (s.step (.setState r)).machine.localState = s.machine.localState
  | .executeTransition x => s.terminated = false → ∀ t, s.pending = some t → x.outcome = none →
      (s.step (.executeTransition x)).machine.localState = t.finalState

/-- No exception answers the notification of the intermediate state of an accepted request, nor
that of the final state after the transition function returned. -/
def Calm (s : Session) : Item → Prop
  | .setState r => s.terminated = false → s.machine.accepts r = true → ∀ a ∈ r.answers, a = none
  | .executeTransition x => s.terminated = false → s.pending ≠ none → x.outcome = none →
      ∀ a ∈ x.answers, a = none

/-- Every item finds the session in a state that meets `P` with it. -/
def Along (P : Session → Item → Prop) : Session → List Item → Prop
  | _, [] => True
  | s, item :: items => P s item ∧ Along P (s.step item) items

/-- The observers do not disturb the machine: it goes through the local states of the unobserved
run, and every item keeps what it is to keep. -/
def Undisturbed (s : Session) (items : List Item) : Prop :=
  (s.run items).history = (s.run (items.map Item.unobserved)).history ∧ s.Along Keeps items

/-- The pending transition is one `setState` chose. -/
def WellFormed (s : Session) : Prop :=
  ∀ t, s.pending = some t →
    ∃ st, findTransition t.initialState t.finalState = some (t.transitionFunction, st)

theorem wellFormed_initial (bAsync : Bool) (u ts : Timespec) :
    WellFormed (initial bAsync u ts) := fun _ h => by cases h

/-! ## The steps -/

theorem step_terminated {s : Session} (h : s.terminated = true) (item : Item) :
    s.step item = s := by
  unfold step
  rw [if_pos h]

theorem step_setState {s : Session} (h : s.terminated = false) (r : Request) :
    (s.machine.accepts r = false ∧ s.step (.setState r) = s) ∨
    (s.machine.accepts r = true ∧ ∃ f st,
      findTransition s.machine.localState r.newState = some (f, st) ∧
      ((notify r.answers = .ok () ∧ s.step (.setState r) =
          { s with machine := (s.machine.changeState st r.timestamp []).1,
                   pending := some ⟨s.machine.localState, r.newState, f⟩ }) ∨
        ((∃ e, (s.machine.setStateLocked r).2 = .error e) ∧ notify r.answers ≠ .ok () ∧
          s.step (.setState r) =
            { s with machine := (s.machine.changeState st r.timestamp []).1 }))) := by
  unfold step
  rw [if_neg (by simp [h])]
  rcases s.machine.setStateLocked_cases r with ⟨ha, he | ⟨e, he⟩⟩ |
    ⟨ha, f, st, hf, ⟨hn, he⟩ | ⟨e, hn, he⟩⟩
  · exact .inl ⟨ha, by simp only [he]⟩
  · exact .inl ⟨ha, by simp only [he]⟩
  · exact .inr ⟨ha, f, st, hf, .inl ⟨hn, by simp only [he]; rfl⟩⟩
  · exact .inr ⟨ha, f, st, hf, .inr ⟨⟨e, by rw [he]⟩, by simp [hn], by simp only [he]; rfl⟩⟩

theorem wellFormed_step {s : Session} (hw : s.WellFormed) (item : Item) :
    (s.step item).WellFormed := by
  cases ht : s.terminated with
  | true => rwa [step_terminated ht]
  | false =>
    cases item with
    | setState r =>
      rcases step_setState ht r with ⟨-, hs⟩ | ⟨-, f, st, hf, ⟨-, hs⟩ | ⟨-, -, hs⟩⟩
      · rwa [hs]
      · rw [hs]
        rintro t ⟨⟩
        exact ⟨st, hf⟩
      · rw [hs]
        exact hw
    | executeTransition x =>
      unfold step
      rw [if_neg (by simp [ht])]
      cases hp : s.pending with
      | none => exact hw
      | some t =>
        simp only
        split
        · rintro _ ⟨⟩
        · rintro _ ⟨⟩

end Session

/-! ## What an execution can do -/

theorem Exn.isRuntimeError_of_isRollBack {e : Exn} (h : e.isRollBack = true) :
    e.isRuntimeError = true := by
  simp only [isRollBack, beq_iff_eq] at h
  simp [isRuntimeError, h, ExnClass.isRuntimeError]

namespace StateMachine

variable {m : StateMachine} {t : Transition} {x : Execution} {e : Exn}

theorem executeTransition_returned (hx : x.outcome = none) (hn : notify x.answers = .ok ()) :
    m.executeTransition t x = ((m.changeState t.finalState x.timestamp []).1, .ok ()) := by
  simp only [executeTransition, hx, changeState, hn]

/-- A handler sets its state; what its own notification meets decides the exception only. -/
theorem executeTransition_thrown (hx : x.outcome = some e) (he : e.isRuntimeError = true) :
    m.executeTransition t x =
      ((m.changeState (System.handlerState t e) x.handlerTimestamp []).1,
        .error (System.rethrown e (notify x.handlerAnswers))) := by
  unfold executeTransition System.handlerState
  cases hr : e.isRollBack with
  | true => cases hn : notify x.handlerAnswers <;> simp [hx, hr, changeState, hn, System.rethrown]
  | false =>
    cases hn : notify x.handlerAnswers <;>
      simp [hx, hr, he, changeState, hn, System.rethrown]

theorem executeTransition_foreign (hx : x.outcome = some e) (he : e.isRuntimeError = false) :
    m.executeTransition t x = (m, .error e) := by
  have hr : e.isRollBack = false := by
    by_contra hc
    rw [Exn.isRuntimeError_of_isRollBack (by simpa using hc)] at he
    cases he
  simp [executeTransition, hx, hr, he]

/-- The transition function returned, and a subscriber throws on the final state: the handlers
take it for a failure of the transition function. -/
theorem executeTransition_finishThrown (hx : x.outcome = none) (hn : notify x.answers = .error e) :
    m.executeTransition t x =
      (m.changeState t.finalState x.timestamp []).1.executeTransition t
        { x with outcome := some e } := by
  simp only [executeTransition, hx, changeState, hn]

end StateMachine

namespace Session

variable {s : Session} {t : Transition} {x : Execution} {e : Exn}

theorem step_executeTransition (h : s.terminated = false) (hp : s.pending = some t) :
    s.step (.executeTransition x) =
      match s.machine.executeTransition t x with
      | (m, .ok ()) => { s with machine := m, pending := none }
      | (m, .error e) => ⟨m, none, m.bAsync && !e.isRuntimeError⟩ := by
  unfold step
  rw [if_neg (by simp [h])]
  simp only [hp]

theorem step_returned (h : s.terminated = false) (hp : s.pending = some t)
    (hx : x.outcome = none) (hn : notify x.answers = .ok ()) :
    s.step (.executeTransition x) =
      ⟨(s.machine.changeState t.finalState x.timestamp []).1, none, false⟩ := by
  rw [step_executeTransition h hp, StateMachine.executeTransition_returned hx hn, h]

theorem rethrown_isRuntimeError (he : e.isRuntimeError = true)
    (ha : ∀ e', some e' ∈ x.handlerAnswers → e'.isRuntimeError = true) :
    (System.rethrown e (notify x.handlerAnswers)).isRuntimeError = true := by
  cases hn : notify x.handlerAnswers with
  | ok u => exact he
  | error e' => exact ha e' (notify_error_mem hn)

theorem step_thrown (h : s.terminated = false) (hp : s.pending = some t)
    (hx : x.outcome = some e) (he : e.isRuntimeError = true)
    (ha : ∀ e', some e' ∈ x.handlerAnswers → e'.isRuntimeError = true) :
    s.step (.executeTransition x) =
      ⟨(s.machine.changeState (System.handlerState t e) x.handlerTimestamp []).1, none,
        false⟩ := by
  rw [step_executeTransition h hp, StateMachine.executeTransition_thrown hx he]
  simp only [rethrown_isRuntimeError he ha, Bool.not_true, Bool.and_false]

theorem step_foreign (h : s.terminated = false) (hp : s.pending = some t)
    (hx : x.outcome = some e) (he : e.isRuntimeError = false) :
    s.step (.executeTransition x) = ⟨s.machine, none, s.machine.bAsync⟩ := by
  rw [step_executeTransition h hp, StateMachine.executeTransition_foreign hx he]
  simp only [he, Bool.not_false, Bool.and_true]

theorem step_finishThrown (h : s.terminated = false) (hp : s.pending = some t)
    (hx : x.outcome = none) (hn : notify x.answers = .error e) (he : e.isRuntimeError = true) :
    (s.step (.executeTransition x)).machine.localState = System.handlerState t e := by
  rw [step_executeTransition h hp, StateMachine.executeTransition_finishThrown hx hn,
    StateMachine.executeTransition_thrown rfl he]
  rfl

theorem step_unpended (h : s.terminated = false) (hp : s.pending = none) :
    s.step (.executeTransition x) = s := by
  unfold step
  rw [if_neg (by simp [h])]
  simp only [hp]

theorem step_setState_unobserved {r : Request} {f : Delegate} {st : State}
    (h : s.terminated = false) (ha : s.machine.accepts r = true)
    (hf : findTransition s.machine.localState r.newState = some (f, st)) :
    s.step (.setState { r with answers := [] }) =
      { s with machine := (s.machine.changeState st r.timestamp []).1,
               pending := some ⟨s.machine.localState, r.newState, f⟩ } := by
  rcases step_setState h { r with answers := [] } with
    ⟨ha', -⟩ | ⟨-, f', st', hf', ⟨-, hs'⟩ | ⟨-, hn', -⟩⟩
  · exact absurd (ha'.symm.trans ha) (by simp)
  · obtain ⟨rfl, rfl⟩ := Prod.mk.inj (Option.some.inj (hf'.symm.trans hf))
    exact hs'
  · exact absurd rfl hn'

/-- **A calm item does not notice its observers.** -/
theorem Calm.step_unobserved {item : Item} (hc : s.Calm item) (hr : item.RuntimeErrors) :
    s.step item = s.step item.unobserved := by
  cases ht : s.terminated with
  | true => rw [step_terminated ht, step_terminated ht]
  | false =>
    cases item with
    | setState r =>
      rcases step_setState ht r with ⟨ha, hs⟩ | ⟨ha, f, st, hf, ⟨-, hs⟩ | ⟨-, hn, -⟩⟩
      · rcases step_setState ht { r with answers := [] } with ⟨-, hs'⟩ | ⟨ha', -⟩
        · exact hs.trans hs'.symm
        · exact absurd (ha.symm.trans ha') (by simp)
      · exact hs.trans (step_setState_unobserved ht ha hf).symm
      · exact absurd (notify_eq_ok.2 (hc ht ha)) hn
    | executeTransition x =>
      cases hp : s.pending with
      | none => exact (step_unpended ht hp).trans (step_unpended ht hp).symm
      | some t =>
        cases hx : x.outcome with
        | none =>
          have hn := notify_eq_ok.2 (hc ht (by simp [hp]) hx)
          exact (step_returned ht hp hx hn).trans
            (step_returned (x := x.unobserved) ht hp hx rfl).symm
        | some e =>
          cases he : e.isRuntimeError with
          | true =>
            exact (step_thrown ht hp hx he fun e' h' => hr e' (.inr h')).trans
              (step_thrown (x := x.unobserved) ht hp hx he fun e' h' => by cases h').symm
          | false =>
            exact (step_foreign ht hp hx he).trans
              (step_foreign (x := x.unobserved) ht hp hx he).symm

theorem Calm.keeps {item : Item} (hc : s.Calm item) : s.Keeps item := by
  cases item with
  | setState r =>
    rintro ht ⟨e, he⟩
    rcases step_setState ht r with ⟨-, hs⟩ | ⟨ha, f, st, hf, -⟩
    · rw [hs]
    · -- an accepted calm request does not fail
      rcases s.machine.setStateLocked_cases r with ⟨ha', -⟩ | ⟨-, _, _, -, ⟨-, hl⟩ | ⟨e', hn, -⟩⟩
      · exact absurd (ha'.symm.trans ha) (by simp)
      · rw [hl] at he; cases he
      · rw [notify_eq_ok.2 (hc ht ha)] at hn; cases hn
  | executeTransition x =>
    intro ht t hp hx
    rw [step_returned ht hp hx (notify_eq_ok.2 (hc ht (by simp [hp]) hx))]
    rfl

/-- An item that keeps what it is to keep is calm: the first exception of a subscriber shows. -/
theorem Keeps.calm {item : Item} (hk : s.Keeps item) (hw : s.WellFormed)
    (hr : item.RuntimeErrors) : s.Calm item := by
  cases item with
  | setState r =>
    intro ht ha
    rw [← notify_eq_ok]
    rcases step_setState ht r with ⟨ha', -⟩ | ⟨-, f, st, hf, ⟨hn, -⟩ | ⟨he, -, hs⟩⟩
    · exact absurd (ha'.symm.trans ha) (by simp)
    · exact hn
    · -- the machine is left in the intermediate state, which it was not in
      have hl := hk ht he
      rw [hs] at hl
      have hi := findTransition_isIntermediate hf
      rw [show st = s.machine.localState from hl] at hi
      rw [findTransition_of_intermediate hi] at hf
      cases hf
  | executeTransition x =>
    intro ht hp hx
    rw [← notify_eq_ok]
    obtain ⟨t, hp⟩ := Option.ne_none_iff_exists'.mp hp
    cases hn : notify x.answers with
    | ok u => rfl
    | error e =>
      -- a handler took the machine out of the final state
      have he := hr e (.inl (notify_error_mem hn))
      have hl := hk ht t hp hx
      rw [step_finishThrown ht hp hx hn he] at hl
      obtain ⟨st, hf⟩ := hw t hp
      unfold System.handlerState at hl
      split at hl
      · exact absurd hl (findTransition_ne hf)
      · rw [← hl] at hf
        cases hi : t.initialState <;> simp [findTransition, hi] at hf

/-! ## Runs -/

theorem Along.mono {P Q : Session → Item → Prop} {items : List Item} (h : s.Along P items)
    (hw : s.WellFormed)
    (himp : ∀ {s item}, item ∈ items → WellFormed s → P s item → Q s item) :
    s.Along Q items := by
  induction items generalizing s with
  | nil => trivial
  | cons item items ih =>
    exact ⟨himp (List.mem_cons_self ..) hw h.1,
      ih h.2 (wellFormed_step hw item) fun hm => himp (List.mem_cons_of_mem _ hm)⟩

theorem run_unobserved {items : List Item} (h : s.Along Calm items)
    (hr : ∀ item ∈ items, item.RuntimeErrors) :
    s.run items = s.run (items.map Item.unobserved) := by
  induction items generalizing s with
  | nil => rfl
  | cons item items ih =>
    have hstep := h.1.step_unobserved (hr item (List.mem_cons_self ..))
    show (s.step item).run items = (s.step item.unobserved).run (items.map Item.unobserved)
    rw [← hstep]
    exact ih h.2 fun i hi => hr i (List.mem_cons_of_mem _ hi)

/-- **Observers disturb the machine exactly when one of them throws on the notification of an
intermediate state or of a final state.** -/
theorem undisturbed_iff {bAsync : Bool} {u ts : Timespec} {items : List Item}
    (hr : ∀ item ∈ items, item.RuntimeErrors) :
    (initial bAsync u ts).Undisturbed items ↔ (initial bAsync u ts).Along Calm items := by
  have hw := wellFormed_initial bAsync u ts
  constructor
  · exact fun h => h.2.mono hw fun hm hw' hk => hk.calm hw' (hr _ hm)
  · exact fun h => ⟨congrArg history (run_unobserved h hr), h.mono hw fun _ _ hc => hc.keeps⟩

/-- A subscriber that rejects the value, as the setState PV of another machine does. -/
def rejection : Exn :=
  ⟨.StateMachineNoSuchTransition, "No transition from state OFF to state INITIALIZING"⟩

/-- Switching a machine on while nobody objects. -/
theorem undisturbed_switchOn :
    (initial false ⟨0, 0⟩ ⟨1, 0⟩).Undisturbed [.setState { Request.unobserved .on with
        answers := [none] }, .executeTransition ⟨none, ⟨3, 0⟩, [none], ⟨4, 0⟩, [some rejection]⟩] := by
  refine (undisturbed_iff fun item hi => ?_).2 ?_
  · simp only [List.mem_cons, List.not_mem_nil, or_false] at hi
    rcases hi with rfl | rfl
    · simp [Item.RuntimeErrors]
    · simp [Item.RuntimeErrors, rejection, Exn.isRuntimeError, ExnClass.isRuntimeError]
  · refine ⟨fun _ _ a ha => ?_, fun _ _ _ a ha => ?_, trivial⟩
    · exact List.mem_singleton.mp ha
    · exact List.mem_singleton.mp ha

/-- The two ways a subscriber disturbs the machine. Rejecting `initializing`, it leaves the machine
there, with no transition to execute; rejecting `on`, it sends the machine to fault. -/
theorem observers_disturb :
    let items := fun answers finalAnswers : List (Option Exn) =>
      [Item.setState { Request.unobserved .on with answers := answers },
        Item.executeTransition ⟨none, ⟨3, 0⟩, finalAnswers, ⟨4, 0⟩, []⟩]
    let s := initial false ⟨0, 0⟩ ⟨1, 0⟩
    ¬ s.Undisturbed (items [some rejection] []) ∧
    ¬ s.Undisturbed (items [none] [some rejection]) ∧
    (s.run (items [] [])).history = [.off, .initializing, .on] ∧
    (s.run (items [some rejection] [])).history = [.off, .initializing] ∧
    (s.run (items [none] [some rejection])).history = [.off, .initializing, .on, .fault] := by
  refine ⟨fun h => absurd h.1 (by decide), fun h => absurd h.1 (by decide), ?_⟩
  decide

end Session

/-! ## The steps of a transition, taken one after the other -/

namespace System

variable {s : System} {i : Nat} {t : Transition} {x : Execution} {e : Exn}

theorem step_handle (ht : s.terminated = false) (hi : s.tasks i = some ⟨t, .unwinding e⟩) :
    s.step (.handle i x.handlerTimestamp x.handlerAnswers) =
      some (({ s with machine := (s.machine.changeState (handlerState t e) x.handlerTimestamp
        []).1 }.setTask i none).escape (rethrown e (notify x.handlerAnswers))) := by
  unfold step
  rw [if_neg (by simp [ht])]
  simp only [hi]
  rfl

theorem exec_raise (ht : s.terminated = false) (hx : x.outcome = some e) :
    ∃ es s', Lts.exec step (s.raise i t e) es = some s' ∧
      s'.machine = (s.machine.executeTransition t x).1 ∧ s'.tasks i = none := by
  cases he : e.isRuntimeError with
  | true =>
    rw [raise, if_pos (by simp [he]), StateMachine.executeTransition_thrown hx he]
    have hs := step_handle (x := x) (s := s.setTask i (some ⟨t, .unwinding e⟩)) ht
      (Function.update_self ..)
    exact ⟨_, _, (Lts.exec_singleton _ _).trans hs, rfl, Function.update_self ..⟩
  | false =>
    have hr : e.isRollBack = false := by
      by_contra hc
      rw [Exn.isRuntimeError_of_isRollBack (by simpa using hc)] at he
      cases he
    rw [raise, if_neg (by simp [he, hr]), StateMachine.executeTransition_foreign hx he]
    exact ⟨[], _, rfl, rfl, Function.update_self ..⟩

theorem exec_returned (ht : s.terminated = false) (hi : s.tasks i = some ⟨t, .returned⟩)
    (hx : x.outcome = none) :
    ∃ es s', Lts.exec step s es = some s' ∧
      s'.machine = (s.machine.executeTransition t x).1 ∧ s'.tasks i = none := by
  cases hn : notify x.answers with
  | ok u =>
    have hs : s.step (.finish i x.timestamp x.answers) =
        some ({ s with machine := (s.machine.changeState t.finalState x.timestamp
          []).1 }.setTask i none) := by
      simp only [step, ht, hi, StateMachine.changeState, hn]
      rfl
    rw [StateMachine.executeTransition_returned hx hn]
    exact ⟨_, _, (Lts.exec_singleton _ _).trans hs, rfl, Function.update_self ..⟩
  | error e =>
    have hs : s.step (.finish i x.timestamp x.answers) =
        some (({ s with machine := (s.machine.changeState t.finalState x.timestamp
          []).1 } : System).raise i t e) := by
      simp only [step, ht, hi, StateMachine.changeState, hn]
      rfl
    rw [StateMachine.executeTransition_finishThrown hx hn]
    obtain ⟨es, s', hs', hm, hn'⟩ := exec_raise (i := i) (t := t)
      (s := { s with machine := (s.machine.changeState t.finalState x.timestamp []).1 })
      (x := { x with outcome := some e }) ht rfl
    refine ⟨.finish i x.timestamp x.answers :: es, s', ?_, hm, hn'⟩
    rw [Lts.exec, hs]
    exact hs'

/-- **`executeTransition` is what the steps of a launched transition amount to** when no other
thread comes between them. -/
theorem exec_executeTransition (ht : s.terminated = false) (hi : s.tasks i = some ⟨t, .launched⟩) :
    ∃ es s', Lts.exec step s (.call i :: .exit i x.outcome :: es) = some s' ∧
      s'.machine = (s.machine.executeTransition t x).1 ∧ s'.tasks i = none := by
  have hcall : s.step (.call i) = some (s.setTask i (some ⟨t, .executing⟩)) := by
    simp [step, ht, hi]
  have hi1 : (s.setTask i (some ⟨t, .executing⟩)).tasks i = some ⟨t, .executing⟩ :=
    Function.update_self ..
  have ht1 : (s.setTask i (some ⟨t, .executing⟩)).terminated = false := ht
  simp only [Lts.exec, hcall, Option.bind_some]
  cases hx : x.outcome with
  | some e =>
    have hexit : (s.setTask i (some ⟨t, .executing⟩)).step (.exit i (some e)) =
        some ((s.setTask i (some ⟨t, .executing⟩)).raise i t e) := by
      simp [step, ht1, hi1]
    simp only [hexit, Option.bind_some]
    exact exec_raise ht1 hx
  | none =>
    have hexit : (s.setTask i (some ⟨t, .executing⟩)).step (.exit i none) =
        some ((s.setTask i (some ⟨t, .executing⟩)).setTask i (some ⟨t, .returned⟩)) := by
      simp [step, ht1, hi1]
    simp only [hexit, Option.bind_some]
    exact exec_returned (s := (s.setTask i (some ⟨t, .executing⟩)).setTask i (some ⟨t, .returned⟩))
      ht (Function.update_self ..) hx

end System

end Nds3
