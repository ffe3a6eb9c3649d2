import Nds3.Tree.Element

/-!
# The hierarchical global state

`NodeImpl::getGlobalState`, `NodeImpl::getChildrenState` and `StateMachineImpl::getGlobalState`
write their result through two pointers. `getChildrenState` sets the state before it compares, but
not the timestamp, so the timestamps of subtrees without a state machine are whatever the
variables held. The contents of the variables no one has initialised are a parameter here: a
function `g` from the places of the recursion to contents.

The invariant of the scan is `Highest`: garbage comes with the state `unknown` only, and the local
state of a machine is above it.
-/

namespace Nds3

/-- The contents of the variables `*pTimestamp`, `*pState`. -/
abbrev Vars := Timespec × State

/-- The comparison both functions make: `w` replaces `v`. -/
def replaces (v w : Vars) : Bool :=
  v.2.toInt < w.2.toInt ||
    (v.2.toInt == w.2.toInt &&
      (v.1.sec < w.1.sec || (v.1.sec == w.1.sec && v.1.nsec < w.1.nsec)))

/-- The conditional assignment both functions make. -/
def merge (v w : Vars) : Vars := if replaces v w then w else v

def MachineState.vars (m : MachineState) : Vars := (m.stateTimestamp, m.localState)

namespace Element

mutual

/-- `NodeImpl::getGlobalState`, with the two functions it calls on the node itself: without a
state machine it is the scan of `getChildrenState`; with one it is `StateMachineImpl::getGlobalState`,
whose `childrenTimestamp` is the content `g []`. -/
def getGlobalState (g : List Nat → Vars) (vars : Vars) : Element → Vars
  | node _ _ _ _ children =>
    match pStateMachine children with
    | none => scanChildren g 0 (vars.1, .unknown) children
    | some m =>
      merge m.vars (scanChildren (fun p => g (0 :: p)) 0 ((g []).1, .unknown) children)
  | _ => vars

/-- The loop of `getChildrenState`, which skips `m_pStateMachine` and the children that are no
`NodeImpl`. The variables `childTimestamp`, `childState` of the `i`-th child hold `g [i, 0]`. -/
def scanChildren (g : List Nat → Vars) (i : Nat) (vars : Vars) : List Element → Vars
  | [] => vars
  | child :: children =>
    scanChildren g (i + 1)
      (if child.isNode then
        merge vars (child.getGlobalState (fun p => g (i :: 1 :: p)) (g [i, 0]))
      else vars)
      children

end

/-- `NodeImpl::getChildrenState` of the node with these children. -/
def getChildrenState (g : List Nat → Vars) (vars : Vars) (children : List Element) : Vars :=
  scanChildren g 0 (vars.1, .unknown) children

/-- `StateMachineImpl::getGlobalState` of the machine `m` whose parent has these children. -/
def machineGetGlobalState (g : List Nat → Vars) (m : MachineState) (children : List Element) :
    Vars :=
  merge m.vars (getChildrenState (fun p => g (0 :: p)) (g []) children)

theorem getGlobalState_node {g : List Nat → Vars} {vars : Vars} {n : String} {b : Base}
    {t : NodeType} {k : NodeClass} {children : List Element} :
    (node n b t k children).getGlobalState g vars =
      match pStateMachine children with
      | none => getChildrenState g vars children
      | some m => machineGetGlobalState g m children := by
  rw [getGlobalState]
  cases pStateMachine children <;> rfl

/-! ## The specification -/

/-- The state machines reachable from a node with these children, by child links that do not pass
through a state machine node. -/
inductive Reaches : List Element → MachineState → Prop where
  | own {children : List Element} {c : Element} {m : MachineState} (hc : c ∈ children)
      (hm : c.machine? = some m) : Reaches children m
  | child {children : List Element} {c : Element} {m : MachineState} (hc : c ∈ children)
      (hn : c.isNode = true) (h : Reaches c.children m) : Reaches children m

end Element

/-- `t ≤ t'`, comparing the seconds first. -/
def Timespec.le (t t' : Timespec) : Prop := t.sec < t'.sec ∨ (t.sec = t'.sec ∧ t.nsec ≤ t'.nsec)

/-- The global state of a node with these children: the highest state among the machines it
reaches, with the latest timestamp among the machines in that state; `unknown` if there is no
machine. -/
structure IsGlobalState (children : List Element) (v : Vars) : Prop where
  highest : ∀ m, Element.Reaches children m → m.localState.toInt ≤ v.2.toInt
  attained : (∃ m, Element.Reaches children m) →
    ∃ m, Element.Reaches children m ∧ m.localState = v.2 ∧ m.stateTimestamp = v.1
  latest : ∀ m, Element.Reaches children m → m.localState = v.2 → m.stateTimestamp.le v.1
  unknown : (¬ ∃ m, Element.Reaches children m) → v.2 = .unknown

/-! ## The comparison -/

theorem replaces_iff {v w : Vars} : replaces v w = true ↔ v.2.toInt < w.2.toInt ∨
    (v.2.toInt = w.2.toInt ∧ ¬ w.1.le v.1) := by
  simp only [replaces, Timespec.le, Bool.or_eq_true, decide_eq_true_eq, Bool.and_eq_true,
    beq_iff_eq]
  omega

theorem replaces_trans {u v w : Vars} (h : replaces v u = false) (h' : replaces w v = false) :
    replaces w u = false := by
  rw [← Bool.not_eq_true, replaces_iff, Timespec.le] at h h' ⊢
  omega

theorem replaces_asymm {v w : Vars} (h : replaces v w = true) : replaces w v = false := by
  rw [← Bool.not_eq_true]
  rw [replaces_iff, Timespec.le] at h ⊢
  omega

theorem replaces_irrefl (v : Vars) : replaces v v = false := by
  rw [← Bool.not_eq_true, replaces_iff, Timespec.le]
  omega

theorem Vars.eq_of_not_replaces {v w : Vars} (h : replaces v w = false)
    (h' : replaces w v = false) : v = w := by
  obtain ⟨⟨s, n⟩, st⟩ := v
  obtain ⟨⟨s', n'⟩, st'⟩ := w
  rw [← Bool.not_eq_true, replaces_iff] at h h'
  simp only [Timespec.le] at h h'
  have hs : s = s' := by omega
  have hn : n = n' := by omega
  have hst : st = st' := State.toInt_injective (by omega)
  rw [hs, hn, hst]

/-! ## The invariant of the scan -/

/-- `v` is the best of the machines in `S`; if there is none, its state is `unknown` and its
timestamp is garbage. -/
def Highest (S : MachineState → Prop) (v : Vars) : Prop :=
  (v.2 = .unknown ∧ ∀ m, ¬ S m) ∨
    ((∃ m, S m ∧ v = m.vars) ∧ ∀ m, S m → replaces v m.vars = false)

namespace Highest

variable {S S' : MachineState → Prop} {v w : Vars}

theorem congr (h : Highest S v) (hS : ∀ m, S m ↔ S' m) : Highest S' v := by
  rwa [show S' = S from funext fun m => propext (hS m).symm]

theorem garbage (t : Timespec) : Highest (fun _ => False) (t, .unknown) := .inl ⟨rfl, fun _ h => h⟩

theorem machine (m : MachineState) : Highest (fun m' => m' = m) m.vars :=
  .inr ⟨⟨m, rfl, rfl⟩, by rintro m' rfl; exact replaces_irrefl _⟩

theorem replaces_unknown {m : MachineState} (hv : v.2 = .unknown) : replaces v m.vars = true := by
  refine replaces_iff.mpr (.inl ?_)
  rw [hv]
  exact m.known

/-- **Garbage never gets past a machine.** -/
theorem merge (h : Highest S v) (h' : Highest S' w) :
    Highest (fun m => S m ∨ S' m) (merge v w) := by
  unfold Nds3.merge
  rcases h with ⟨hv, hS⟩ | ⟨⟨m, hm, rfl⟩, hS⟩
  · rcases h' with ⟨hw, hS'⟩ | ⟨⟨m', hm', rfl⟩, hS'⟩
    · exact .inl ⟨by split <;> assumption, fun m hm => hm.elim (hS m) (hS' m)⟩
    · rw [if_pos (replaces_unknown hv)]
      exact .inr ⟨⟨m', .inr hm', rfl⟩, fun m hm => hm.elim (fun h => absurd h (hS m)) (hS' m)⟩
  · rcases h' with ⟨hw, hS'⟩ | ⟨⟨m', hm', rfl⟩, hS'⟩
    · rw [if_neg (by simp [replaces_asymm (replaces_unknown (m := m) hw)])]
      exact .inr ⟨⟨m, .inl hm, rfl⟩, fun k hk => hk.elim (hS k) (fun h => absurd h (hS' k))⟩
    · cases hr : replaces m.vars m'.vars with
      | true =>
        rw [if_pos rfl]
        refine .inr ⟨⟨m', .inr hm', rfl⟩, fun k hk => hk.elim (fun h => ?_) (hS' k)⟩
        exact replaces_trans (hS k h) (replaces_asymm hr)
      | false =>
        rw [if_neg (by simp)]
        refine .inr ⟨⟨m, .inl hm, rfl⟩, fun k hk => hk.elim (hS k) fun h => ?_⟩
        exact replaces_trans (hS' k h) hr

end Highest

namespace Element

def ReachesBelow (children : List Element) (m : MachineState) : Prop :=
  ∃ c ∈ children, c.isNode = true ∧ Reaches c.children m

theorem reaches_iff {children : List Element} (hs : Sorted children) {m : MachineState} :
    Reaches children m ↔ pStateMachine children = some m ∨ ReachesBelow children m := by
  rw [hs.pStateMachine_eq_some]
  constructor
  · rintro (⟨hc, hm⟩ | ⟨hc, hn, h⟩)
    · exact .inl ⟨_, hc, hm⟩
    · exact .inr ⟨_, hc, hn, h⟩
  · rintro (⟨c, hc, hm⟩ | ⟨c, hc, hn, h⟩)
    · exact .own hc hm
    · exact .child hc hn h

mutual

/-- A node's global state is the best of the machines it reaches, whatever the variables held. -/
theorem getGlobalState_highest (g : List Nat → Vars) (vars : Vars) :
    ∀ {e : Element}, e.WellFormed → e.isNode = true →
      Highest (Reaches e.children) (e.getGlobalState g vars)
  | node n b t k cs, .node hs hcs, _ => by
    rw [getGlobalState_node]
    cases hm : pStateMachine cs with
    | none =>
      refine (scanChildren_highest g 0 hcs (Highest.garbage vars.1)).congr fun m => ?_
      rw [show (node n b t k cs).children = cs from rfl, reaches_iff hs, hm]
      simp
    | some m =>
      refine ((Highest.machine m).merge
        (scanChildren_highest _ 0 hcs (Highest.garbage _))).congr fun m' => ?_
      rw [show (node n b t k cs).children = cs from rfl, reaches_iff hs, hm]
      simp [eq_comm]

/-- The scan joins the machines reached through the children to those it starts with. -/
theorem scanChildren_highest {S : MachineState → Prop} {v : Vars} (g : List Nat → Vars) (i : Nat) :
    ∀ {children : List Element}, (∀ c ∈ children, c.WellFormed) → Highest S v →
      Highest (fun m => S m ∨ ReachesBelow children m) (scanChildren g i v children)
  | [], _, h => h.congr fun m => by simp [ReachesBelow]
  | c :: cs, hcs, h => by
    rw [scanChildren]
    have hrest : ∀ d ∈ cs, d.WellFormed := fun d hd => hcs d (List.mem_cons_of_mem _ hd)
    cases hn : c.isNode with
    | true =>
      have hc := getGlobalState_highest (fun p => g (i :: 1 :: p)) (g [i, 0])
        (hcs c (List.mem_cons_self ..)) hn
      refine (scanChildren_highest g (i + 1) hrest (h.merge hc)).congr fun m => ?_
      simp [ReachesBelow, hn, or_assoc]
    | false =>
      refine (scanChildren_highest g (i + 1) hrest h).congr fun m => ?_
      simp [ReachesBelow, hn]

end

end Element

/-! ## The result of a call -/

theorem Highest.isGlobalState {children : List Element} {v : Vars}
    (h : Highest (Element.Reaches children) v) : IsGlobalState children v := by
  rcases h with ⟨hv, hS⟩ | ⟨⟨m, hm, rfl⟩, hS⟩
  · exact ⟨fun m hm => absurd hm (hS m), fun ⟨m, hm⟩ => absurd hm (hS m),
      fun m hm => absurd hm (hS m), fun _ => hv⟩
  · have hbest : ∀ k, Element.Reaches children k →
        k.localState.toInt < m.localState.toInt ∨
          (k.localState.toInt = m.localState.toInt ∧ k.stateTimestamp.le m.stateTimestamp) := by
      intro k hk
      have := hS k hk
      rw [← Bool.not_eq_true, replaces_iff] at this
      simp only [MachineState.vars, Timespec.le] at this ⊢
      omega
    refine ⟨fun k hk => ?_, fun _ => ⟨m, hm, rfl, rfl⟩, fun k hk he => ?_,
      fun h => absurd ⟨m, hm⟩ h⟩
    · exact (hbest k hk).elim le_of_lt fun h => le_of_eq h.1
    · exact (hbest k hk).elim (fun h => absurd (congrArg State.toInt he) (ne_of_lt h)) fun h => h.2

namespace Element

/-- What a call of `getGlobalState` on the node or on its state machine can answer, over all
contents of uninitialised variables and of the caller's variables. -/
inductive Answers (e : Element) : Vars → Prop where
  | node (g : List Nat → Vars) (vars : Vars) (hn : e.isNode = true) :
      Answers e (e.getGlobalState g vars)
  | machine (g : List Nat → Vars) {m : MachineState} (hm : pStateMachine e.children = some m) :
      Answers e (machineGetGlobalState g m e.children)

theorem Answers.highest {e : Element} {v : Vars} (h : e.Answers v) (hw : e.WellFormed) :
    Highest (Reaches e.children) v := by
  cases h with
  | node g vars hn => exact getGlobalState_highest g vars hw hn
  | @machine g m hm =>
    obtain ⟨hs, hcs⟩ := hw.children
    refine ((Highest.machine m).merge
      (scanChildren_highest _ 0 hcs (Highest.garbage _))).congr fun m' => ?_
    rw [reaches_iff hs, hm]
    simp [eq_comm]

/-- The same children under other names and in another order, all the way down. -/
inductive Rearranged : List Element → List Element → Prop where
  | nil : Rearranged [] []
  | leaf {c c' : Element} {cs cs' : List Element} (hn : c.isNode = false) (hn' : c'.isNode = false)
      (hm : c.machine? = c'.machine?) (h : Rearranged cs cs') : Rearranged (c :: cs) (c' :: cs')
  | node {c c' : Element} {cs cs' : List Element} (hn : c.isNode = true) (hn' : c'.isNode = true)
      (hc : Rearranged c.children c'.children) (h : Rearranged cs cs') :
      Rearranged (c :: cs) (c' :: cs')
  | swap (c d : Element) (cs : List Element) : Rearranged (c :: d :: cs) (d :: c :: cs)
  | trans {cs ds es : List Element} (h : Rearranged cs ds) (h' : Rearranged ds es) :
      Rearranged cs es

theorem machine?_of_isNode {c : Element} (h : c.isNode = true) : c.machine? = none := by
  cases c with
  | node => rfl
  | _ => cases h

theorem reaches_cons {c : Element} {cs : List Element} {m : MachineState} :
    Reaches (c :: cs) m ↔
      c.machine? = some m ∨ (c.isNode = true ∧ Reaches c.children m) ∨ Reaches cs m := by
  constructor
  · rintro (⟨hc, hm⟩ | ⟨hc, hn, h⟩)
    · rcases List.mem_cons.mp hc with rfl | hc
      · exact .inl hm
      · exact .inr (.inr (.own hc hm))
    · rcases List.mem_cons.mp hc with rfl | hc
      · exact .inr (.inl ⟨hn, h⟩)
      · exact .inr (.inr (.child hc hn h))
  · rintro (hm | ⟨hn, h⟩ | h)
    · exact .own (List.mem_cons_self ..) hm
    · exact .child (List.mem_cons_self ..) hn h
    · cases h with
      | own hc hm => exact .own (List.mem_cons_of_mem _ hc) hm
      | child hc hn h => exact .child (List.mem_cons_of_mem _ hc) hn h

theorem Rearranged.reaches {cs cs' : List Element} (h : Rearranged cs cs') (m : MachineState) :
    Reaches cs m ↔ Reaches cs' m := by
  induction h with
  | nil => exact Iff.rfl
  | leaf hn hn' hm _ ih => simp [reaches_cons, hn, hn', hm, ih]
  | node hn hn' _ _ ihc ih =>
    simp [reaches_cons, hn, hn', machine?_of_isNode hn, machine?_of_isNode hn', ihc, ih]
  | swap c d cs => simp only [reaches_cons]; tauto
  | trans _ _ ih ih' => exact ih.trans ih'

/-- **The hierarchical global state.** Every answer of `getGlobalState` on a node or on its state
machine is the global state of the node; two answers, on two trees that differ in names and order
only, with any contents of the variables, have the same state, and the same timestamp when there
is a machine. -/
theorem globalState_hierarchical {e : Element} (hw : e.WellFormed) :
    (∀ v, e.Answers v → IsGlobalState e.children v) ∧
    ∀ e' v v', WellFormed e' → Rearranged e.children e'.children → e.Answers v → e'.Answers v' →
      v.2 = v'.2 ∧ ((∃ m, Reaches e.children m) → v = v') := by
  refine ⟨fun v h => (h.highest hw).isGlobalState, fun e' v v' hw' hr h h' => ?_⟩
  have hv := h.highest hw
  have hv' := (h'.highest hw').congr fun m => (hr.reaches m).symm
  rcases hv with ⟨hu, hS⟩ | ⟨⟨m, hm, rfl⟩, hS⟩
  · rcases hv' with ⟨hu', -⟩ | ⟨⟨m', hm', -⟩, -⟩
    · exact ⟨hu.trans hu'.symm, fun ⟨m, hm⟩ => absurd hm (hS m)⟩
    · exact absurd hm' (hS m')
  · rcases hv' with ⟨-, hS'⟩ | ⟨⟨m', hm', rfl⟩, hS'⟩
    · exact absurd hm (hS' m)
    · have := Vars.eq_of_not_replaces (hS m' hm') (hS' m hm)
      exact ⟨congrArg Prod.snd this, fun _ => this⟩

/-- The tree of a root node `root` with a machine that is off and two channels, of which `ch0` has
a machine that is on. -/
def channels : Element :=
  let machine := fun st (h : 0 < State.toInt st) sec =>
    Element.stateMachine (.construct "StateMachine" stateCommands) ⟨st, ⟨sec, 0⟩, h⟩ []
  let node := fun n k cs => Element.node n (.construct n []) .generic k cs
  node "root" (.portImpl none) [machine .off State.toInt_off_pos 5,
    node "ch0" .nodeImpl [machine .on State.toInt_on_pos 7], node "ch1" .nodeImpl []]

theorem wellFormed_channels : channels.WellFormed := by
  have machine : ∀ {b m}, WellFormed (.stateMachine b m []) :=
    .stateMachine List.Pairwise.nil fun _ h => by cases h
  refine .node (by unfold Sorted; decide) fun c hc => ?_
  simp only [List.mem_cons, List.not_mem_nil, or_false] at hc
  rcases hc with rfl | rfl | rfl
  · exact machine
  · refine .node (List.pairwise_singleton ..) fun c hc => ?_
    rw [List.mem_singleton.mp hc]
    exact machine
  · exact .node List.Pairwise.nil fun _ h => by cases h

/-- The global state of `channels` is that of the machine of `ch0`, over variables that all hold
something higher and later. -/
theorem globalState_hierarchical_channels :
    let garbage : Vars := (⟨9, 9⟩, .fault)
    channels.getGlobalState (fun _ => garbage) garbage = (⟨7, 0⟩, .on) ∧
    IsGlobalState channels.children (⟨7, 0⟩, .on) := by
  refine ⟨by decide, ?_⟩
  exact (globalState_hierarchical wellFormed_channels).1 _
    (.node (fun _ => (⟨9, 9⟩, .fault)) (⟨9, 9⟩, .fault) rfl)

end Element

end Nds3
