import Nds3.Registry.Deadlock

/-!
# The operations of the registry take effect one after the other

An operation changes the links of one input PV after the other, while other threads push to them.
Still the operations act as if each was done in one step, when it takes `m_lockRegisteredPVs`: they
have the results of the sequential model, and when nobody holds the lock the maps and the links are
those the sequential model ends in.
-/

namespace Nds3

open Locks

variable {V : Type*}

namespace NdsFactory

/-- The maps and the links are the same; the decimation may differ. -/
structure SameRegistry (f g : NdsFactory) : Prop where
  inputs : f.registeredInputPVs = g.registeredInputPVs
  outputs : f.registeredOutputPVs = g.registeredOutputPVs
  subscribers : f.subscribers = g.subscribers
  destinations : f.destinations = g.destinations

variable {names : FullNames} {f g : NdsFactory}

theorem SameRegistry.rfl : SameRegistry f f := ⟨Eq.refl _, Eq.refl _, Eq.refl _, Eq.refl _⟩

theorem SameRegistry.trans {h : NdsFactory} (hfg : SameRegistry f g) (hgh : SameRegistry g h) :
    SameRegistry f h :=
  ⟨hfg.inputs.trans hgh.inputs, hfg.outputs.trans hgh.outputs,
    hfg.subscribers.trans hgh.subscribers, hfg.destinations.trans hgh.destinations⟩

theorem apply_congr {pv pv' : PVBaseIn} (c : LinkChange)
    (hsub : pv.subscriberOutputPVs = pv'.subscriberOutputPVs)
    (hdst : pv.replicationDestinationPVs = pv'.replicationDestinationPVs) :
    (c.apply pv).subscriberOutputPVs = (c.apply pv').subscriberOutputPVs ∧
      (c.apply pv).replicationDestinationPVs = (c.apply pv').replicationDestinationPVs := by
  cases c <;> simp [LinkChange.apply, PVBaseIn.subscribeReceiver, PVBaseIn.unsubscribeReceiver,
    PVBaseIn.replicateTo, PVBaseIn.stopReplicationTo, hsub, hdst]

theorem SameRegistry.run (h : SameRegistry f g) (c : LinkChange) :
    SameRegistry (c.run f) (c.run g) := by
  have hlinks : ∀ x, (c.run f).subscribers x = (c.run g).subscribers x ∧
      (c.run f).destinations x = (c.run g).destinations x := by
    intro x
    have hsub : (f.inputPVs x).subscriberOutputPVs = (g.inputPVs x).subscriberOutputPVs :=
      congrFun h.subscribers x
    have hdst : (f.inputPVs x).replicationDestinationPVs =
        (g.inputPVs x).replicationDestinationPVs := congrFun h.destinations x
    by_cases hx : x = c.pv
    · subst hx
      simp only [NdsFactory.subscribers, NdsFactory.destinations, LinkChange.run,
        modify_inputPVs_self]
      exact apply_congr c hsub hdst
    · simp only [NdsFactory.subscribers, NdsFactory.destinations, LinkChange.run,
        modify_inputPVs_of_ne hx]
      exact ⟨hsub, hdst⟩
  exact ⟨h.inputs, h.outputs, funext fun x => (hlinks x).1, funext fun x => (hlinks x).2⟩

theorem SameRegistry.foldl (h : SameRegistry f g) (cs : List LinkChange) :
    SameRegistry (cs.foldl LinkChange.run f) (cs.foldl LinkChange.run g) := by
  induction cs generalizing f g with
  | nil => exact h
  | cons c cs ih => exact ih (h.run c)

/-- Two outcomes agree on the answer and on the maps. -/
structure Agree (x y : NdsFactory × Except Exn Unit) : Prop where
  answer : x.2 = y.2
  inputs : x.1.registeredInputPVs = y.1.registeredInputPVs
  outputs : x.1.registeredOutputPVs = y.1.registeredOutputPVs

theorem subscribePV_agree (f : NdsFactory) (pvs : Nat → PVBaseIn) (src : String) (q : Nat) :
    Agree (subscribePV names { f with inputPVs := pvs } src q) (f.subscribePV names src q) := by
  simp only [subscribePV]
  cases f.registeredOutputPVs.lookup (names.output q) with
  | none => exact ⟨rfl, rfl, rfl⟩
  | some o =>
    simp only
    split_ifs
    · exact ⟨rfl, rfl, rfl⟩
    · cases f.registeredInputPVs.lookup src <;> exact ⟨rfl, rfl, rfl⟩

theorem replicatePV_agree (f : NdsFactory) (pvs : Nat → PVBaseIn) (src : String) (d : Nat) :
    Agree (replicatePV names { f with inputPVs := pvs } src d) (f.replicatePV names src d) := by
  simp only [replicatePV]
  cases f.registeredInputPVs.lookup (names.input d) with
  | none => exact ⟨rfl, rfl, rfl⟩
  | some o =>
    simp only
    split_ifs
    · exact ⟨rfl, rfl, rfl⟩
    · cases f.registeredInputPVs.lookup src <;> exact ⟨rfl, rfl, rfl⟩

theorem scanInputs_agree {f g : NdsFactory} (hi : f.registeredInputPVs = g.registeredInputPVs)
    (ho : f.registeredOutputPVs = g.registeredOutputPVs) (h : PVBaseIn → PVBaseIn)
    (r : Except Exn Unit) : Agree (f.scanInputs h, r) (g.scanInputs h, r) :=
  ⟨rfl, by simp [hi], by simp [ho]⟩

/-- An operation decides by the maps alone. -/
theorem exec_agree (f : NdsFactory) (pvs : Nat → PVBaseIn) (op : Op) :
    Agree (NdsFactory.exec names { f with inputPVs := pvs } op) (f.exec names op) := by
  cases op with
  | registerInputPV p =>
    simp only [exec, registerInputPV]
    split_ifs <;> exact ⟨rfl, rfl, rfl⟩
  | registerOutputPV q =>
    simp only [exec, registerOutputPV]
    split_ifs <;> exact ⟨rfl, rfl, rfl⟩
  | deregisterInputPV p | deregisterOutputPV q | unsubscribePV q | stopReplicationToPV d =>
    refine scanInputs_agree ?_ ?_ _ _ <;> rfl
  | subscribePV src q => exact subscribePV_agree f pvs src q
  | replicatePV src d => exact replicatePV_agree f pvs src d
  | subscribe src dst =>
    simp only [exec, subscribe]
    cases f.registeredOutputPVs.lookup dst with
    | none => exact ⟨rfl, rfl, rfl⟩
    | some q => exact subscribePV_agree f pvs src q
  | replicate src dst =>
    simp only [exec, replicate]
    cases f.registeredInputPVs.lookup dst with
    | none => exact ⟨rfl, rfl, rfl⟩
    | some d => exact replicatePV_agree f pvs src d
  | unsubscribe dst =>
    simp only [exec, unsubscribe]
    cases f.registeredOutputPVs.lookup dst with
    | none => exact ⟨rfl, rfl, rfl⟩
    | some q => refine scanInputs_agree ?_ ?_ _ _ <;> rfl
  | stopReplicationTo dst =>
    simp only [exec, stopReplicationTo]
    cases f.registeredInputPVs.lookup dst with
    | none => exact ⟨rfl, rfl, rfl⟩
    | some d => refine scanInputs_agree ?_ ?_ _ _ <;> rfl

theorem changes_inputPVs (f : NdsFactory) (pvs : Nat → PVBaseIn) (op : Op) :
    NdsFactory.changes names { f with inputPVs := pvs } op = f.changes names op := by
  cases op <;> rfl

theorem SameRegistry.exec (h : SameRegistry f g) (op : Op) :
    (f.exec names op).2 = (g.exec names op).2 ∧
      SameRegistry (f.exec names op).1 (g.exec names op).1 := by
  have hf : f = { g with inputPVs := f.inputPVs } := by
    rw [← h.inputs, ← h.outputs]
  have hagree : Agree (f.exec names op) (g.exec names op) := hf ▸ exec_agree g f.inputPVs op
  refine ⟨hagree.answer, ?_⟩
  cases hg : g.exec names op with
  | mk g' r =>
    cases hx : f.exec names op with
    | mk f' r' =>
      obtain rfl : r' = r := by simpa [hg, hx] using hagree.answer
      cases r' with
      | error e =>
        rw [exec_error hg, exec_error hx]
        exact h
      | ok u =>
        have hchanges : f.changes names op = g.changes names op := by
          rw [hf]
          exact changes_inputPVs g f.inputPVs op
        have hprepare : SameRegistry (f.prepare names op).1 (g.prepare names op).1 := by
          have hi := hagree.inputs
          have ho := hagree.outputs
          exact ⟨hi, ho, h.subscribers, h.destinations⟩
        rw [← foldl_changes hx, ← foldl_changes hg, hchanges]
        exact hprepare.foldl _

end NdsFactory

/-! ## The operations of the threads -/

def Happened.operatedOf : Happened V → Option (Op × Except Exn Unit)
  | .operated op r => some (op, r)
  | _ => none

def Instr.changeOf : Instr V → Option LinkChange
  | .change c => some c
  | _ => none

/-- The operations one after the other, with what they answer. -/
inductive Sequential (names : FullNames) (f₀ : NdsFactory) :
    List (Op × Except Exn Unit) → NdsFactory → Prop where
  | nil : Sequential names f₀ [] f₀
  | snoc {l : List (Op × Except Exn Unit)} {f : NdsFactory} (op : Op)
      (h : Sequential names f₀ l f) :
      Sequential names f₀ (l ++ [(op, (f.exec names op).2)]) (f.exec names op).1

def Idle (l : List (Instr V)) : Prop :=
  ∀ x ∈ l, x.Delivers ∧ x.released ≠ some .lockRegisteredPVs

/-- What a thread has to do for the registry: nothing, an operation, or the changes left of one. -/
inductive Operating : List (Instr V) → Prop where
  | idle {l : List (Instr V)} (h : Idle l) : Operating l
  | waits (op : Op) : Operating [.operate op]
  | holds (cs : List LinkChange) : Operating (cs.map .change ++ [.release .lockRegisteredPVs])

section

variable {x : Instr V} {l : List (Instr V)}

theorem Idle.not_held (h : Idle l) : .lockRegisteredPVs ∉ held Instr.released l := fun hm => by
  obtain ⟨x, hx, hr⟩ := List.mem_filterMap.mp hm
  exact (h x hx).2 hr

theorem idle_nil : Idle ([] : List (Instr V)) := fun _ hx => by cases hx

theorem Idle.tail (h : Idle (x :: l)) : Idle l := fun y hy => h y (List.mem_cons_of_mem _ hy)

theorem filterMap_changeOf (cs : List LinkChange) (m : Mutex) :
    (cs.map Instr.change ++ [.release m] : List (Instr V)).filterMap Instr.changeOf = cs := by
  rw [List.filterMap_append, List.filterMap_map]
  exact (List.append_nil _).trans List.filterMap_some

theorem Operating.idle_of_head (h : Operating (x :: l)) (hx : x.Delivers)
    (hr : x.released ≠ some .lockRegisteredPVs) : Idle (x :: l) := by
  generalize hl : x :: l = l' at h
  cases h with
  | idle h => exact h
  | waits op =>
    cases hl
    exact hx.elim
  | holds cs =>
    cases cs with
    | nil =>
      cases hl
      exact absurd rfl hr
    | cons c cs =>
      cases hl
      exact hx.elim

theorem Operating.of_operate {op : Op} (h : Operating (.operate op :: l)) : l = [] := by
  generalize hl : Instr.operate op :: l = l' at h
  cases h with
  | idle h => exact (h (.operate op) (hl ▸ List.mem_cons_self ..)).1.elim
  | waits op => exact (List.cons.inj hl).2
  | holds cs => cases cs <;> cases hl

theorem Operating.of_change {c : LinkChange} (h : Operating (.change c :: l)) :
    ∃ cs : List LinkChange, l = cs.map .change ++ [.release .lockRegisteredPVs] := by
  generalize hl : Instr.change c :: l = l' at h
  cases h with
  | idle h => exact (h (.change c) (hl ▸ List.mem_cons_self ..)).1.elim
  | waits op => cases hl
  | holds cs =>
    cases cs with
    | nil => cases hl
    | cons c' cs => exact ⟨cs, (List.cons.inj hl).2⟩

theorem Operating.of_release (h : Operating (.release .lockRegisteredPVs :: l)) : l = [] := by
  generalize hl : Instr.release .lockRegisteredPVs :: l = l' at h
  cases h with
  | idle h => exact absurd rfl (h (.release .lockRegisteredPVs) (hl ▸ List.mem_cons_self ..)).2
  | waits op => cases hl
  | holds cs =>
    cases cs with
    | nil => exact (List.cons.inj hl).2
    | cons c cs => cases hl

end

namespace Threads

/-- The operations that have taken the lock of the registry, in this order. -/
def operated (s : Threads V) : List (Op × Except Exn Unit) :=
  s.log.filterMap (·.2.operatedOf)

/-- The changes that the owner of the lock of the registry has still to make. -/
def pendingChanges (s : Threads V) : List LinkChange :=
  match s.owner .lockRegisteredPVs with
  | none => []
  | some i => (s.todo i).filterMap Instr.changeOf

variable {names : FullNames} {s s' : Threads V} {e : ThreadEvent V}

/-- The operations so far have acted as if one after the other, but for the changes that are left
of the last one. -/
structure LinearInv (names : FullNames) (f₀ : NdsFactory) (s : Threads V) : Prop where
  locks : LockInv s
  operating : ∀ i, Operating (s.todo i)
  sequential : ∃ f, Sequential names f₀ s.operated f ∧
    NdsFactory.SameRegistry (s.pendingChanges.foldl LinkChange.run s.factory) f

theorem LinearInv.initial (f : NdsFactory) (stored : Nat → Timespec × V) :
    LinearInv names f (initial f stored) :=
  ⟨.initial f stored, fun _ => .idle idle_nil, f, .nil, .rfl⟩

theorem operating_update {todo : Nat → List (Instr V)} {i : Nat} {l : List (Instr V)}
    (h : ∀ j, Operating (todo j)) (hl : Operating l) (j : Nat) :
    Operating (Function.update todo i l j) := by
  by_cases hj : j = i
  · rw [hj, Function.update_self]
    exact hl
  · rw [Function.update_of_ne hj]
    exact h j

variable {f₀ f : NdsFactory}

/-- A thread that delivers something leaves the operations alone. -/
theorem LinearInv.deliver (h : LinearInv names f₀ s) {i : Nat} {l : List (Instr V)}
    {stored : Nat → Timespec × V} {owner : Mutex → Option Nat} {log : List (Nat × Happened V)}
    (hlocks : LockInv ⟨f, stored, owner, Function.update s.todo i l, log⟩)
    (hold : Idle (s.todo i)) (hnew : Operating l)
    (howner : owner .lockRegisteredPVs = s.owner .lockRegisteredPVs)
    (hlog : log.filterMap (·.2.operatedOf) = s.operated)
    (hf : NdsFactory.SameRegistry f s.factory) :
    LinearInv names f₀ ⟨f, stored, owner, Function.update s.todo i l, log⟩ := by
  obtain ⟨g, hseq, hsame⟩ := h.sequential
  refine ⟨hlocks, operating_update h.operating hnew, g, ?_, ?_⟩
  · rw [operated, hlog]
    exact hseq
  have hpending : pendingChanges ⟨f, stored, owner, Function.update s.todo i l, log⟩ =
      s.pendingChanges := by
    simp only [pendingChanges, howner]
    cases hown : s.owner .lockRegisteredPVs with
    | none => rfl
    | some j =>
      -- the owner is another thread
      have hji : j ≠ i := fun hc => hold.not_held (hc ▸ (h.locks.owns.iff j _).mp hown)
      simp only [Function.update_of_ne hji]
  rw [hpending]
  exact (hf.foldl _).trans hsame

theorem pendingChanges_of_free (h : s.owner .lockRegisteredPVs = none) :
    s.pendingChanges = [] := by
  rw [pendingChanges, h]

theorem pendingChanges_of_owner {i : Nat} (h : s.owner .lockRegisteredPVs = some i) :
    s.pendingChanges = (s.todo i).filterMap Instr.changeOf := by
  rw [pendingChanges, h]

theorem operations_append (i : Nat) (l : List (Happened V)) :
    (s.record i l).log.filterMap (·.2.operatedOf) =
      s.operated ++ l.filterMap Happened.operatedOf := by
  rw [operated, record, List.filterMap_append, List.filterMap_map]
  rfl

/-- The thread that has the lock of the registry, or has just released it. -/
theorem linear_of_pending {i : Nat} {l : List (Instr V)} {stored : Nat → Timespec × V}
    {owner : Mutex → Option Nat} {log : List (Nat × Happened V)} {cs : List LinkChange}
    {ops : List (Op × Except Exn Unit)} {g : NdsFactory}
    (hlocks : LockInv ⟨f, stored, owner, Function.update s.todo i l, log⟩)
    (h : ∀ j, Operating (s.todo j)) (hl : Operating l)
    (hcs : owner .lockRegisteredPVs = none ∧ cs = [] ∨
      owner .lockRegisteredPVs = some i ∧ l.filterMap Instr.changeOf = cs)
    (hlog : log.filterMap (·.2.operatedOf) = ops) (hseq : Sequential names f₀ ops g)
    (hsame : NdsFactory.SameRegistry (cs.foldl LinkChange.run f) g) :
    LinearInv names f₀ ⟨f, stored, owner, Function.update s.todo i l, log⟩ := by
  refine ⟨hlocks, operating_update h hl, g, ?_, ?_⟩
  · rw [operated, hlog]
    exact hseq
  · have hpending : pendingChanges ⟨f, stored, owner, Function.update s.todo i l, log⟩ = cs := by
      rcases hcs with ⟨hown, rfl⟩ | ⟨hown, rfl⟩
      · exact pendingChanges_of_free hown
      · rw [pendingChanges_of_owner hown]
        simp only [Function.update_self]
    rw [hpending]
    exact hsame

theorem idle_deliveries {p : Nat} {t : Timespec} {v : V} {replicate : Bool} :
    Idle (Instr.deliveries (f.inputPVs p) p t v replicate) := by
  intro x hx
  rcases List.mem_append.mp hx with hx | hx
  · obtain ⟨q, -, rfl⟩ := List.mem_map.mp hx
    exact ⟨trivial, by simp [Instr.released]⟩
  · split at hx
    · obtain ⟨d, -, hx⟩ := List.mem_flatMap.mp hx
      rcases List.mem_pair.mp hx with rfl | rfl <;> exact ⟨trivial, by simp [Instr.released]⟩
    · cases hx

/-- **Step lemma.** -/
theorem LinearInv.step (h : LinearInv names f₀ s) (hs : s.step names e = some s') :
    LinearInv names f₀ s' := by
  have hlocks := h.locks.step hs
  -- an instruction that delivers is among others that do
  have hidle : ∀ {i : Nat} {x : Instr V} {rest : List (Instr V)}, s.todo i = x :: rest →
      x.Delivers → x.released ≠ some .lockRegisteredPVs → Idle (x :: rest) :=
    fun htodo hx hr => Operating.idle_of_head (htodo ▸ h.operating _) hx hr
  cases step_effect hs with
  | @call i c htodo =>
    refine h.deliver hlocks (htodo ▸ idle_nil) ?_ rfl ?_ .rfl
    · cases c with
      | push p t v | setValue p t v =>
        refine .idle fun x hx => ?_
        rcases List.mem_pair.mp hx with rfl | rfl <;> exact ⟨trivial, by simp [Instr.released]⟩
      | operate op => exact .waits op
    · exact (operations_append i _).trans (List.append_nil _)
  | @store i p t v answer rest htodo =>
    have hi := hidle htodo trivial (by simp [Instr.released])
    exact h.deliver hlocks (htodo ▸ hi) (.idle hi.tail) rfl rfl .rfl
  | @push i p t v answer rest htodo =>
    have hi := hidle htodo trivial (by simp [Instr.released])
    refine h.deliver hlocks (htodo ▸ hi) (.idle hi.tail) rfl ?_
      ⟨rfl, rfl, (sameLinks_push p).1, (sameLinks_push p).2⟩
    refine (operations_append i _).trans ?_
    split <;> exact List.append_nil _
  | @lock i p t v replicate answer rest htodo hfree =>
    have hi := hidle htodo trivial (by simp [Instr.released])
    refine h.deliver hlocks (htodo ▸ hi) (.idle fun x hx => ?_) ?_ ?_ .rfl
    · rcases List.mem_append.mp hx with hx | hx
      · exact idle_deliveries x hx
      · rcases List.mem_cons.mp hx with rfl | hx
        · exact ⟨trivial, by simp [Instr.released]⟩
        · exact hi.tail x hx
    · exact owner_own_of_ne (by simp)
    · exact (operations_append i _).trans (List.append_nil _)
  | @write i p q t v rest htodo =>
    have hi := hidle htodo trivial (by simp [Instr.released])
    exact h.deliver hlocks (htodo ▸ hi) (.idle hi.tail) rfl
      ((operations_append i _).trans (List.append_nil _)) .rfl
  | @threw i p q t v x rest htodo =>
    have hi := hidle htodo trivial (by simp [Instr.released])
    exact h.deliver hlocks (htodo ▸ hi)
      (.idle fun y hy => hi.tail y (List.mem_of_mem_filter hy)) rfl
      ((operations_append i _).trans (List.append_nil _)) .rfl
  | @release i m answer rest htodo =>
    by_cases hm : m = .lockRegisteredPVs
    · subst hm
      obtain rfl := Operating.of_release (htodo ▸ h.operating i)
      have hown : s.owner .lockRegisteredPVs = some i :=
        (h.locks.owns.iff i _).mpr (by rw [htodo]; exact List.mem_cons_self ..)
      obtain ⟨g, hseq, hsame⟩ := h.sequential
      rw [pendingChanges_of_owner hown, htodo] at hsame
      exact linear_of_pending hlocks h.operating (.idle idle_nil)
        (.inl ⟨Function.update_self .., rfl⟩) rfl hseq hsame
    · have hi := hidle htodo trivial (by simp [Instr.released, hm])
      exact h.deliver hlocks (htodo ▸ hi) (.idle hi.tail)
        (owner_own_of_ne (Ne.symm hm)) rfl .rfl
  | @operate i op answer rest f htodo hfree hok =>
    obtain rfl := Operating.of_operate (htodo ▸ h.operating i)
    obtain ⟨g, hseq, hsame⟩ := h.sequential
    rw [pendingChanges_of_free hfree] at hsame
    have hnext := (hsame.exec op : _ = (g.exec names op).2 ∧ _).2
    have hanswer := (hsame.exec op : _ = (g.exec names op).2 ∧ _).1
    replace hanswer : (g.exec names op).2 = .ok () := hanswer.symm.trans (by rw [List.foldl_nil, hok])
    have hops := hseq.snoc op
    rw [hanswer] at hops
    have hown : Function.update s.owner .lockRegisteredPVs (some i) .lockRegisteredPVs = some i :=
      Function.update_self ..
    refine linear_of_pending hlocks h.operating (.holds _) (.inr ⟨hown, filterMap_changeOf _ _⟩)
      (operations_append i _) hops ?_
    have hfold := NdsFactory.foldl_changes hok
    rw [NdsFactory.prepare, hok] at hfold
    rw [hfold]
    rw [List.foldl_nil, hok] at hnext
    exact hnext
  | @refused i op answer rest x htodo hfree herror =>
    obtain rfl := Operating.of_operate (htodo ▸ h.operating i)
    obtain ⟨g, hseq, hsame⟩ := h.sequential
    rw [pendingChanges_of_free hfree] at hsame
    have hanswer := (hsame.exec op : _ = (g.exec names op).2 ∧ _).1
    have hnext := (hsame.exec op : _ = (g.exec names op).2 ∧ _).2
    rw [List.foldl_nil, herror] at hanswer hnext
    have hops := hseq.snoc op
    rw [← hanswer] at hops
    exact linear_of_pending hlocks h.operating (.idle idle_nil) (.inl ⟨hfree, rfl⟩)
      (operations_append i _) hops hnext
  | @change i c answer rest htodo hfree =>
    obtain ⟨cs, rfl⟩ := Operating.of_change (htodo ▸ h.operating i)
    have hown : s.owner .lockRegisteredPVs = some i :=
      (h.locks.owns.iff i _).mpr (by
        rw [htodo]
        simp [held, Instr.released])
    obtain ⟨g, hseq, hsame⟩ := h.sequential
    rw [pendingChanges_of_owner hown, htodo] at hsame
    replace hsame : NdsFactory.SameRegistry (((cs.map Instr.change ++
        [.release .lockRegisteredPVs] : List (Instr V)).filterMap Instr.changeOf).foldl
          LinkChange.run (c.run s.factory)) g := hsame
    rw [filterMap_changeOf] at hsame
    exact linear_of_pending hlocks h.operating (.holds cs)
      (.inr ⟨hown, filterMap_changeOf cs _⟩) rfl hseq hsame

/-- **The operations are atomic.** In every run the operations answer what they answer one after
the other, in the order in which they took the lock of the registry; and while nobody holds that
lock, the maps and the links are those this leads to. -/
theorem operations_sequential {stored : Nat → Timespec × V}
    (h : Lts.Reach (Threads.step names) (fun _ _ => True) (Threads.initial f₀ stored) s) :
    ∃ f, Sequential names f₀ s.operated f ∧
      (s.owner .lockRegisteredPVs = none → NdsFactory.SameRegistry s.factory f) := by
  have hinv : LinearInv names f₀ s :=
    h.invariant (I := LinearInv names f₀) (.initial f₀ stored) fun hi _ hs => hi.step hs
  obtain ⟨f, hseq, hsame⟩ := hinv.sequential
  refine ⟨f, hseq, fun hfree => ?_⟩
  rwa [pendingChanges_of_free hfree] at hsame

/-- An output PV is subscribed while another thread holds the lock of the input PV. -/
theorem operations_sequential_diamond :
    ∃ s, Lts.exec (Threads.step ⟨fun _ => "in", fun _ => "out"⟩)
        (Threads.initial diamond fun _ => (⟨0, 0⟩, ""))
        [.call 1 (.operate (.subscribePV "a" 7)), .call 2 (.setValue 1 ⟨1, 0⟩ "value"),
          .run 2 none, .run 2 none, .run 1 none, .run 2 none, .run 1 none, .run 1 none] = some s ∧
      s.operated = [(.subscribePV "a" 7, .ok ())] ∧
      ∃ f, Sequential ⟨fun _ => "in", fun _ => "out"⟩ diamond s.operated f ∧
        (s.owner .lockRegisteredPVs = none → NdsFactory.SameRegistry s.factory f) := by
  obtain ⟨s, hs⟩ : ∃ s, Lts.exec (Threads.step ⟨fun _ => "in", fun _ => "out"⟩)
    (Threads.initial diamond fun _ => (⟨0, 0⟩, ""))
    [.call 1 (.operate (.subscribePV "a" 7)), .call 2 (.setValue 1 ⟨1, 0⟩ "value"),
      .run 2 none, .run 2 none, .run 1 none, .run 2 none, .run 1 none, .run 1 none] = some s :=
        ⟨_, rfl⟩
  refine ⟨s, hs, ?_,
    operations_sequential (Lts.Reach.refl.exec _ (.of_forall fun _ _ _ => trivial) hs)⟩
  cases hs
  rfl

end Threads

end Nds3
