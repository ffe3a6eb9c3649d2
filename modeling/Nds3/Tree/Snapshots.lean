import Nds3.Lib.Lts
import Nds3.Tree.States

/-!
# Consistent global states

`m_stateMutex` is one recursive mutex for all the state machines, which "allows to read consistent
states across the hierarchical state machine". Here the functions that hold it are taken apart: a
step takes or releases the mutex, or reads or writes one member of one machine. So while a global
state is read other threads may go on, and what is read is pieced together from many steps.

The sections inside of a section of the same thread take the mutex once more, which changes nothing,
and are left out. The transition functions run outside of the mutex. The subscribers of the getState
PV do not come back to the machines. `m_allowChange` and the timestamp delegates return. A
transition may be ended that was never accepted: what is said holds for more runs than there are.
-/

namespace Nds3

open Element

/-- The functions of a machine that take the mutex. -/
inductive StateCall where
  /-- Or `readGlobalState`. -/
  | getGlobalState
  | readLocalState
  | setState (newState : State)
  /-- The end of `executeTransition`, or a handler there. -/
  | finish (state : KnownState)

/-- What the members are read for. `setState` has the local state already. -/
inductive Reader where
  | getGlobalState
  | readLocalState
  | setState (newState : State) (localState : KnownState)

/-- Where a thread is, with the machine `p`. -/
inductive StateSection where
  | outside
  /-- About to take the mutex. -/
  | entering (p : List Nat) (c : StateCall)
  /-- `setState` compares the local state with the new one. -/
  | comparing (p : List Nat) (newState : State)
  /-- The members still to be read, and the copies. -/
  | reading (p : List Nat) (r : Reader) (members : List Member) (seen : Members)
  /-- About to assign `m_localState`, in `setState` or not. -/
  | assigning (p : List Nat) (state : KnownState) (intermediate : Bool)
  /-- About to assign `m_stateTimestamp`. -/
  | stamping (p : List Nat) (state : KnownState) (intermediate : Bool)
  | pushing (p : List Nat)
  /-- About to release the mutex. -/
  | leaving

/-- The thread holds the mutex. -/
def StateSection.inside : StateSection → Bool
  | .outside | .entering _ _ => false
  | _ => true

inductive StateEvent where
  /-- `getGlobalState` has answered. -/
  | observed (thread : Nat) (p : List Nat) (v : Vars)
  /-- `readLocalState` has answered. -/
  | read (thread : Nat) (p : List Nat) (v : Vars)
  /-- `m_allowChange` has answered. -/
  | decided (thread : Nat) (p : List Nat) (localState globalState newState : State)
      (allowed : Bool)
  /-- `setState` has set the intermediate state. -/
  | entered (thread : Nat) (p : List Nat) (state : KnownState) (t : Timespec)
  /-- A transition has set its last state. -/
  | finished (thread : Nat) (p : List Nat) (state : KnownState) (t : Timespec)
  | pushed (thread : Nat) (p : List Nat) (v : Vars)

inductive StateAction where
  | call (thread : Nat) (p : List Nat) (c : StateCall)
  /-- The thread goes on. `g` is what its uninitialised variables hold, and `t` what `getTimestamp`
  answers. -/
  | run (thread : Nat) (g : List Nat → Vars) (t : Timespec)

/-- The machines of a tree and the threads. The events come the last one first. -/
structure StateTree where
  members : Members
  owner : Option Nat
  sections : Nat → StateSection
  history : List StateEvent

namespace StateTree

def initial (members : Members) : StateTree := ⟨members, none, fun _ => .outside, []⟩

def goto (s : StateTree) (i : Nat) (c : StateSection) : StateTree :=
  { s with sections := Function.update s.sections i c }

def record (s : StateTree) (e : StateEvent) : StateTree := { s with history := e :: s.history }

/-- Local variables that hold nothing yet. -/
def uninitialised : Members := ⟨fun _ => ⟨.off, State.toInt_off_pos⟩, fun _ => ⟨0, 0⟩⟩

section

-- the children of the root, and the allow-change functions of the machines
variable (children : List Element) (allowChange : List Nat → State → State → State → Bool)

def membersRead (p : List Nat) : Reader → List Member
  | .readLocalState => [.stateTimestamp p, .localState p]
  | _ => reads p (childrenAt p children)

/-- The first thing a call does with the mutex. -/
def begin (p : List Nat) : StateCall → StateSection
  | .getGlobalState =>
    .reading p .getGlobalState (membersRead children p .getGlobalState) uninitialised
  | .readLocalState =>
    .reading p .readLocalState (membersRead children p .readLocalState) uninitialised
  | .setState newState => .comparing p newState
  | .finish state => .assigning p state false

/-- `setState` with the states it has read, up to the assignment. A call that throws goes on to
release the mutex. -/
def decide (s : StateTree) (i : Nat) (p : List Nat) (newState localState globalState : State) :
    StateTree :=
  match h : findTransition localState newState with
  | none => s.goto i .leaving
  | some (_, transitionState) =>
    if allowChange p localState globalState newState then
      (s.goto i (.assigning p ⟨transitionState, (System.findTransition_known h).1⟩ true)).record
        (.decided i p localState globalState newState true)
    else
      (s.goto i .leaving).record (.decided i p localState globalState newState false)

/-- The thread goes on, unless it waits for the mutex. -/
def advance (s : StateTree) (i : Nat) (g : List Nat → Vars) (t : Timespec) :
    StateSection → Option StateTree
  | .outside => none
  | .entering p c =>
    if s.owner = none then some { s.goto i (begin children p c) with owner := some i } else none
  | .comparing p newState =>
    if (s.members.localState p).1 = newState then some (s.goto i .leaving)
    else
      let r := .setState newState (s.members.localState p)
      some (s.goto i (.reading p r (membersRead children p r) uninitialised))
  | .reading p r (m :: members) seen =>
    some (s.goto i (.reading p r members (seen.load s.members m)))
  | .reading p .getGlobalState [] seen =>
    some ((s.goto i .leaving).record
      (.observed i p (globalState g p (childrenAt p children) seen)))
  | .reading p .readLocalState [] seen =>
    some ((s.goto i .leaving).record (.read i p (seen.machine p).vars))
  | .reading p (.setState newState localState) [] seen =>
    some (s.decide allowChange i p newState localState.1
      (globalState g p (childrenAt p children) seen).2)
  | .assigning p state b =>
    some { s.goto i (.stamping p state b) with
      members := { s.members with localState := Function.update s.members.localState p state } }
  | .stamping p state b =>
    some { (s.goto i (.pushing p)).record
        (if b then .entered i p state t else .finished i p state t) with
      members := { s.members with
        stateTimestamp := Function.update s.members.stateTimestamp p t } }
  | .pushing p => some ((s.goto i .leaving).record (.pushed i p (s.members.machine p).vars))
  | .leaving => some { s.goto i .outside with owner := none }

def HasMachine (p : List Nat) : Prop := (pStateMachine (childrenAt p children)).isSome = true

instance (p : List Nat) : Decidable (HasMachine children p) := inferInstanceAs (Decidable (_ = _))

def step (s : StateTree) : StateAction → Option StateTree
  | .call i p c =>
    match s.sections i with
    | .outside => if HasMachine children p then some (s.goto i (.entering p c)) else none
    | _ => none
  | .run i g t => s.advance children allowChange i g t (s.sections i)

/-! ## Sequential histories -/

/-- The members after the events, when every change is one step. -/
def after (members : Members) : List StateEvent → Members
  | [] => members
  | .entered _ p state t :: history | .finished _ p state t :: history =>
    (after members history).set p state t
  | _ :: history => after members history

/-- The children of the node `p` with the machines in these states. -/
def childrenIn (p : List Nat) (x : Members) : List Element :=
  childrenWith (fun q => x.machine (p ++ q)) 0 (childrenAt p children)

/-- The last event is a change of the machine. -/
def LastChanged (history : List StateEvent) (i : Nat) (p : List Nat) (state : KnownState)
    (t : Timespec) : Prop :=
  history.head? = some (.entered i p state t) ∨ history.head? = some (.finished i p state t)

/-- The last event is a decision, and the intermediate state is the one it leads to. -/
def LastAllowed (history : List StateEvent) (i : Nat) (p : List Nat) (state : KnownState) : Prop :=
  ∃ l g n f, history.head? = some (.decided i p l g n true) ∧ findTransition l n = some (f, state.1)

/-- An event is that of a section that is done at once, after those of the history. -/
def Sequential (members : Members) (history : List StateEvent) : StateEvent → Prop
  | .observed _ p v => IsGlobalState (childrenIn children p (after members history)) v
  | .read _ p v => v = ((after members history).machine p).vars
  | .decided _ p l g n allowed =>
    l = ((after members history).localState p).1 ∧
    (∃ t, IsGlobalState (childrenIn children p (after members history)) (t, g)) ∧
    allowed = allowChange p l g n
  | .entered i p state _ => LastAllowed history i p state
  | .finished _ _ _ _ => True
  | .pushed i p v => ∃ state t, LastChanged history i p state t ∧ v = (t, state.1)

def AllSequential (members : Members) : List StateEvent → Prop
  | [] => True
  | e :: history =>
    Sequential children allowChange members history e ∧ AllSequential members history

/-! ## The invariant -/

/-- What is known of the thread that has the mutex. The members are those after the events, but for
a machine of which one member is assigned. -/
def Current (members : Members) (s : StateTree) (i : Nat) : StateSection → Prop
  | .outside | .entering _ _ => False
  | .comparing p _ => HasMachine children p ∧ s.members = after members s.history
  | .reading p r ms seen =>
    HasMachine children p ∧ s.members = after members s.history ∧
    (∀ m ∈ membersRead children p r, m ∈ ms ∨ seen.Agree s.members m) ∧
    ∀ n l, r = .setState n l → l = s.members.localState p
  | .assigning p state b =>
    s.members = after members s.history ∧ (b = true → LastAllowed s.history i p state)
  | .stamping p state b =>
    s.members = { after members s.history with
      localState := Function.update (after members s.history).localState p state } ∧
    (b = true → LastAllowed s.history i p state)
  | .pushing p =>
    s.members = after members s.history ∧
    ∃ state t, LastChanged s.history i p state t ∧ (s.members.machine p).vars = (t, state.1)
  | .leaving => s.members = after members s.history

structure Inv (members : Members) (s : StateTree) : Prop where
  owner : ∀ i, s.owner = some i ↔ (s.sections i).inside = true
  entering : ∀ i p c, s.sections i = .entering p c → HasMachine children p
  current : ∀ i, s.owner = some i → Current children members s i (s.sections i)
  free : s.owner = none → s.members = after members s.history
  history : AllSequential children allowChange members s.history

end

section

variable {children : List Element} {allowChange : List Nat → State → State → State → Bool}
  {members : Members} {s s' : StateTree} {i : Nat} {c : StateSection}

theorem Inv.initial : Inv children allowChange members (initial members) where
  owner _ := ⟨fun h => (by cases h), fun h => (by cases h)⟩
  entering _ _ _ h := by cases h
  current _ h := by cases h
  free _ := rfl
  history := trivial

theorem Inv.goto (h : Inv children allowChange members s) (hi : s.owner = some i)
    (howner : s'.owner = s.owner) (hsections : s'.sections = Function.update s.sections i c)
    (hinside : c.inside = true) (hcurrent : Current children members s' i c)
    (hhistory : AllSequential children allowChange members s'.history) :
    Inv children allowChange members s' where
  owner j := by
    rw [howner, hsections, Function.update_apply]
    by_cases hj : j = i
    · subst hj
      rw [if_pos rfl]
      exact ⟨fun _ => hinside, fun _ => hi⟩
    · rw [if_neg hj]
      exact h.owner j
  entering j p d hd := by
    rw [hsections, Function.update_apply] at hd
    split at hd
    · rw [hd] at hinside
      cases hinside
    · exact h.entering j p d hd
  current j hj := by
    obtain rfl : i = j := Option.some.inj (hi.symm.trans (howner ▸ hj))
    rw [hsections, Function.update_self]
    exact hcurrent
  free hnone := by
    rw [howner, hi] at hnone
    cases hnone
  history := hhistory

theorem Inv.call (h : Inv children allowChange members s) (hi : (s.sections i).inside = false)
    {p : List Nat} {d : StateCall} (hp : HasMachine children p) :
    Inv children allowChange members (s.goto i (.entering p d)) := by
  have hne : s.owner ≠ some i := fun hc => by
    rw [(h.owner i).mp hc] at hi
    cases hi
  refine ⟨fun j => ?_, fun j q e he => ?_, fun j hj => ?_, h.free, h.history⟩
  · simp only [StateTree.goto, Function.update_apply]
    split
    · next hj =>
      rw [hj]
      exact ⟨fun hc => absurd hc hne, fun hc => by cases hc⟩
    · exact h.owner j
  · simp only [StateTree.goto, Function.update_apply] at he
    split at he
    · cases he
      exact hp
    · exact h.entering j q e he
  · have hji : j ≠ i := fun hc => hne (hc ▸ hj)
    simp only [StateTree.goto, Function.update_of_ne hji]
    exact h.current j hj

theorem Inv.take (h : Inv children allowChange members s) (hfree : s.owner = none)
    (hinside : c.inside = true)
    (hcurrent : Current children members { s.goto i c with owner := some i } i c) :
    Inv children allowChange members { s.goto i c with owner := some i } := by
  have hout : ∀ j, (s.sections j).inside = false := by
    intro j
    rw [← Bool.not_eq_true, ← h.owner j, hfree]
    exact nofun
  refine ⟨fun j => ?_, fun j p d hd => ?_, fun j hj => ?_, nofun, h.history⟩
  · simp only [StateTree.goto, Function.update_apply]
    split
    · next hj => simp [hj, hinside]
    · next hj => simp [hout j, Ne.symm hj]
  · simp only [StateTree.goto, Function.update_apply] at hd
    split at hd
    · rw [hd] at hinside
      cases hinside
    · exact h.entering j p d hd
  · obtain rfl : i = j := Option.some.inj hj
    simp only [StateTree.goto, Function.update_self]
    exact hcurrent

theorem Inv.leave (h : Inv children allowChange members s) (hi : s.owner = some i)
    (hleaving : s.members = after members s.history) :
    Inv children allowChange members { s.goto i .outside with owner := none } := by
  refine ⟨fun j => ?_, fun j p d hd => ?_, nofun, fun _ => hleaving, h.history⟩
  · simp only [StateTree.goto, Function.update_apply]
    split
    · exact ⟨nofun, nofun⟩
    · next hj =>
      rw [← h.owner j, hi, Option.some.injEq]
      exact ⟨nofun, fun hc => absurd hc.symm hj⟩
  · simp only [StateTree.goto, Function.update_apply] at hd
    split at hd
    · cases hd
    · exact h.entering j p d hd

/-- What has been read is the global state after the events. -/
theorem Current.isGlobalState (hs : Sorted children) (hcs : ∀ c ∈ children, c.WellFormed)
    {p : List Nat} {r : Reader} {seen : Members} (g : List Nat → Vars)
    (hr : membersRead children p r = reads p (childrenAt p children))
    (h : Current children members s i (.reading p r [] seen)) :
    IsGlobalState (childrenIn children p (after members s.history))
      (globalState g p (childrenAt p children) seen) := by
  obtain ⟨hm, hnow, hread, -⟩ := h
  have hagree : ∀ m ∈ reads p (childrenAt p children), seen.Agree s.members m := by
    intro m hmem
    rw [← hr] at hmem
    exact (hread m hmem).resolve_left List.not_mem_nil
  obtain ⟨hs', hcs'⟩ := wellFormed_childrenAt hs hcs p
  rw [globalState_congr g hagree, hnow]
  exact isGlobalState_globalState g hs' hcs' hm

theorem Current.begin {p : List Nat} {d : StateCall} (hp : HasMachine children p)
    (hnow : s.members = after members s.history) :
    (begin children p d).inside = true ∧ Current children members s i (begin children p d) := by
  cases d with
  | getGlobalState | readLocalState => exact ⟨rfl, hp, hnow, fun m hm => .inl hm, nofun⟩
  | setState n => exact ⟨rfl, hp, hnow⟩
  | finish state => exact ⟨rfl, hnow, nofun⟩

/-- `setState` decides on the states after the events. -/
theorem Inv.decide (h : Inv children allowChange members s) (hi : s.owner = some i)
    {p : List Nat} {n l g : State} (hnow : s.members = after members s.history)
    (hl : l = (s.members.localState p).1)
    (hg : ∃ t, IsGlobalState (childrenIn children p (after members s.history)) (t, g)) :
    Inv children allowChange members (s.decide allowChange i p n l g) := by
  rw [hnow] at hl
  unfold StateTree.decide
  split
  · exact h.goto hi rfl rfl rfl hnow h.history
  · next f state hf =>
    split
    · next hallowed =>
      refine h.goto hi rfl rfl rfl ⟨hnow, fun _ => ⟨l, g, n, f, rfl, hf⟩⟩ ⟨⟨hl, hg, ?_⟩, h.history⟩
      exact hallowed.symm
    · next hdenied =>
      refine h.goto hi rfl rfl rfl hnow ⟨⟨hl, hg, ?_⟩, h.history⟩
      exact ((Bool.not_eq_true _).mp hdenied).symm

/-- **Step lemma.** -/
theorem Inv.advance (hs : Sorted children) (hcs : ∀ c ∈ children, c.WellFormed)
    (h : Inv children allowChange members s) {g : List Nat → Vars} {t : Timespec}
    (hstep : s.advance children allowChange i g t (s.sections i) = some s') :
    Inv children allowChange members s' := by
  have hcurrent := h.current i
  have howner := (h.owner i).mpr
  generalize hsection : s.sections i = c at hstep hcurrent howner
  cases c with
  | outside => cases hstep
  | entering p d =>
    obtain ⟨hfree, rfl⟩ := Option.ite_some_none_eq_some.mp hstep
    have hp := h.entering i p d hsection
    obtain ⟨hinside, hbegin⟩ := Current.begin (s := s) (i := i) (d := d) hp (h.free hfree)
    refine h.take hfree hinside ?_
    cases d <;> exact hbegin
  | comparing p n =>
    obtain ⟨hp, hnow⟩ := hcurrent (howner rfl)
    simp only [StateTree.advance] at hstep
    split at hstep <;> obtain rfl := Option.some.inj hstep
    · exact h.goto (howner rfl) rfl rfl rfl hnow h.history
    · refine h.goto (howner rfl) rfl rfl rfl ⟨hp, hnow, fun m hm => .inl hm, ?_⟩ h.history
      rintro n' l hr
      cases hr
      rfl
  | reading p r ms seen =>
    have hi := howner rfl
    have hreading := hcurrent hi
    obtain ⟨hp, hnow, hread, hlocal⟩ := hreading
    cases ms with
    | cons m ms =>
      cases hstep
      refine h.goto hi rfl rfl rfl ⟨hp, hnow, fun k hk => ?_, hlocal⟩ h.history
      rcases hread k hk with hmem | hagree
      · rcases List.mem_cons.mp hmem with rfl | hmem
        · exact .inr (Members.agree_load (.inl rfl))
        · exact .inl hmem
      · exact .inr (Members.agree_load (.inr hagree))
    | nil =>
      cases r with
      | getGlobalState =>
        cases hstep
        refine h.goto hi rfl rfl rfl hnow ⟨?_, h.history⟩
        exact Current.isGlobalState (s := s) (i := i) hs hcs g rfl (hcurrent hi)
      | readLocalState =>
        cases hstep
        refine h.goto hi rfl rfl rfl hnow ⟨?_, h.history⟩
        have hagree : ∀ m ∈ membersRead children p .readLocalState, seen.Agree s.members m :=
          fun m hm => (hread m hm).resolve_left List.not_mem_nil
        have hmachine : seen.machine p = s.members.machine p :=
          Members.machine_congr (hagree _ (by simp [membersRead]))
            (hagree _ (by simp [membersRead]))
        show (seen.machine p).vars = ((after members s.history).machine p).vars
        rw [hmachine, hnow]
      | setState n l =>
        cases hstep
        exact h.decide hi hnow (congrArg Subtype.val (hlocal n l rfl))
          ⟨_, Current.isGlobalState hs hcs g rfl (hcurrent hi)⟩
  | assigning p state b =>
    obtain ⟨hnow, hallowed⟩ := hcurrent (howner rfl)
    cases hstep
    have hassign := congrArg (fun x : Members =>
      { x with localState := Function.update x.localState p state }) hnow
    exact h.goto (howner rfl) rfl rfl rfl ⟨hassign, hallowed⟩ h.history
  | stamping p state b =>
    obtain ⟨hnow, hallowed⟩ := hcurrent (howner rfl)
    cases hstep
    cases b with
    | true =>
      refine h.goto (howner rfl) rfl rfl rfl ⟨?_, state, t, .inl rfl, ?_⟩
        ⟨hallowed rfl, h.history⟩
      · simp only [hnow]
        rfl
      · simp [hnow, Members.machine, MachineState.vars]
    | false =>
      refine h.goto (howner rfl) rfl rfl rfl ⟨?_, state, t, .inr rfl, ?_⟩ ⟨trivial, h.history⟩
      · simp only [hnow]
        rfl
      · simp [hnow, Members.machine, MachineState.vars]
  | pushing p =>
    obtain ⟨hnow, state, t', hlast, hv⟩ := hcurrent (howner rfl)
    cases hstep
    exact h.goto (howner rfl) rfl rfl rfl hnow ⟨⟨state, t', hlast, hv⟩, h.history⟩
  | leaving =>
    cases hstep
    exact h.leave (howner rfl) (hcurrent (howner rfl))

end

end StateTree

end Nds3
