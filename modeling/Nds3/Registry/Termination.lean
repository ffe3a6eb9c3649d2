import Nds3.Lib.Measure
import Nds3.Registry.Deadlock
import Mathlib.Algebra.Order.BigOperators.Group.List

/-!
# The calls in the registry come to an end

Without new calls the threads do finitely many steps, as long as the replication relation has no
cycle. An operation becomes finitely many changes of links, each of which may make the pushes that
are under way longer; between two changes every step takes something off what the pushes have to do.

As in `Threads`, a `write` is a step that always comes back: it takes no lock, makes no push, and
accepts the value or throws.
-/

namespace Nds3

open Dag Locks

variable {V : Type*}

namespace NdsFactory

/-- How many steps a push takes from the lock of the PV on. -/
noncomputable def work (f : NdsFactory) (p : Nat) : Nat :=
  weight (succ f.destinations) (fun x => (f.subscribers x).elems.length +
    (f.destinations x).elems.length + 2) (bound (succ f.destinations)) p

theorem work_congr {f f' : NdsFactory} (hsub : f'.subscribers = f.subscribers)
    (hdst : f'.destinations = f.destinations) : f'.work = f.work := by
  funext p
  rw [work, work, hsub, hdst]

def FewReplicated (f : NdsFactory) : Prop := {p | succ f.destinations p ≠ []}.Finite

theorem work_eq {f : NdsFactory} (hfew : f.FewReplicated)
    (hac : Dag.Acyclic (Edge (succ f.destinations))) (p : Nat) :
    f.work p = (f.subscribers p).elems.length + (f.destinations p).elems.length + 2 +
      ((f.destinations p).elems.map f.work).sum :=
  weight_eq (depth_bound hfew hac) p

end NdsFactory

namespace Instr

def operations : Instr V → Nat
  | .operate _ => 1
  | _ => 0

def changes : Instr V → Nat
  | .change _ => 1
  | _ => 0

/-- The steps of an instruction, and of what it becomes. -/
noncomputable def work (f : NdsFactory) : Instr V → Nat
  | .lockSubscribersList p _ _ true => f.work p
  | .lockSubscribersList p _ _ false => (f.subscribers p).elems.length + 2
  | .operate _ | .change _ => 0
  | .store _ _ _ | .push _ _ _ | .write _ _ _ _ | .release _ => 1

def total (g : Instr V → Nat) (l : List (Instr V)) : Nat := (l.map g).sum

@[simp] theorem total_nil (g : Instr V → Nat) : total g [] = 0 := rfl

@[simp] theorem total_cons (g : Instr V → Nat) (x : Instr V) (l : List (Instr V)) :
    total g (x :: l) = g x + total g l := by
  simp [total]

@[simp] theorem total_append (g : Instr V → Nat) (l l' : List (Instr V)) :
    total g (l ++ l') = total g l + total g l' := by
  simp [total]

theorem total_filter (g : Instr V → Nat) (p : Instr V → Bool) (l : List (Instr V)) :
    total g (l.filter p) ≤ total g l :=
  (List.filter_sublist.map g).sum_le_sum fun _ _ => Nat.zero_le _

theorem total_eq_zero {g : Instr V → Nat} {l : List (Instr V)} (h : ∀ x ∈ l, g x = 0) :
    total g l = 0 := by
  rw [total, List.sum_eq_zero_iff]
  intro n hn
  obtain ⟨x, hx, rfl⟩ := List.mem_map.mp hn
  exact h x hx

section

variable {f : NdsFactory} {p : Nat} {t : Timespec} {v : V} {replicate : Bool}

theorem operations_deliveries : total operations (deliveries (f.inputPVs p) p t v replicate) = 0 := by
  refine total_eq_zero fun x hx => ?_
  rcases List.mem_append.mp hx with hx | hx
  · obtain ⟨q, -, rfl⟩ := List.mem_map.mp hx
    rfl
  · split at hx
    · obtain ⟨d, -, hx⟩ := List.mem_flatMap.mp hx
      rcases List.mem_pair.mp hx with rfl | rfl <;> rfl
    · cases hx

theorem changes_deliveries : total changes (deliveries (f.inputPVs p) p t v replicate) = 0 := by
  refine total_eq_zero fun x hx => ?_
  rcases List.mem_append.mp hx with hx | hx
  · obtain ⟨q, -, rfl⟩ := List.mem_map.mp hx
    rfl
  · split at hx
    · obtain ⟨d, -, hx⟩ := List.mem_flatMap.mp hx
      rcases List.mem_pair.mp hx with rfl | rfl <;> rfl
    · cases hx

/-- Taking the lock of a PV leaves one step less. -/
theorem work_deliveries (hfew : f.FewReplicated)
    (hac : Dag.Acyclic (Edge (succ f.destinations))) :
    total (work f) (deliveries (f.inputPVs p) p t v replicate) + 2 =
      work f (.lockSubscribersList p t v replicate) := by
  have hwrites : total (work f) ((f.subscribers p).elems.map (.write p · t v)) =
      (f.subscribers p).elems.length := by
    generalize (f.subscribers p).elems = qs
    induction qs with
    | nil => rfl
    | cons q qs ih => rw [List.map_cons, total_cons, ih, List.length_cons, work, Nat.add_comm]
  have hpushes : total (work f) ((f.destinations p).elems.flatMap (pushBody t v)) =
      (f.destinations p).elems.length + ((f.destinations p).elems.map f.work).sum := by
    generalize (f.destinations p).elems = ds
    induction ds with
    | nil => rfl
    | cons d ds ih =>
      rw [List.flatMap_cons, total_append, ih, List.length_cons, List.map_cons, List.sum_cons]
      simp only [pushBody, total_cons, total_nil, work]
      omega
  rw [deliveries, total_append]
  cases replicate with
  | false => exact congrArg (· + 0 + 2) hwrites
  | true =>
    have := f.work_eq hfew hac p
    simp only [if_true, work]
    have hw : total (work f) ((f.inputPVs p).subscriberOutputPVs.elems.map (.write p · t v)) =
      (f.subscribers p).elems.length := hwrites
    have hp : total (work f)
        ((f.inputPVs p).replicationDestinationPVs.elems.flatMap (pushBody t v)) = _ := hpushes
    rw [hw, hp]
    omega

end

end Instr

namespace Threads

open Instr Measure

variable {names : FullNames} {s s' : Threads V} {i : Nat} {answer : Option Exn}

/-- What the threads of `ts` have to do: operations, changes of links, and the rest. -/
noncomputable def remaining (ts : Finset Nat) (s : Threads V) : ℕ ×ₗ ℕ ×ₗ ℕ :=
  toLex (∑ i ∈ ts, total operations (s.todo i),
    toLex (∑ i ∈ ts, total changes (s.todo i),
      ∑ i ∈ ts, total (work s.factory) (s.todo i)))

theorem remaining_goto {ts : Finset Nat} (hi : i ∈ ts) {l : List (Instr V)} {f : NdsFactory}
    (hsub : f.subscribers = s.factory.subscribers)
    (hdst : f.destinations = s.factory.destinations)
    (hop : total operations l ≤ total operations (s.todo i))
    (hch : total changes l ≤ total changes (s.todo i))
    (hw : total (work s.factory) l < total (work s.factory) (s.todo i))
    (stored : Nat → Timespec × V) (owner : Mutex → Option Nat) (log : List (Nat × Happened V)) :
    remaining ts ⟨f, stored, owner, Function.update s.todo i l, log⟩ < remaining ts s := by
  have hwork : work (V := V) f = work s.factory := by
    funext x
    cases x with
    | lockSubscribersList p t v replicate =>
      cases replicate with
      | true => exact congrFun (NdsFactory.work_congr hsub hdst) p
      | false => rw [work, work, hsub]
    | _ => rfl
  rw [remaining, remaining, hwork]
  exact lex_lt (.inr ⟨sum_update_le hop, .inr ⟨sum_update_le hch, sum_update_lt hi hw⟩⟩)

/-- **Step lemma.** -/
theorem remaining_step {ts : Finset Nat} (hi : i ∈ ts) (hfew : s.factory.FewReplicated)
    (hac : Dag.Acyclic (Edge (succ s.factory.destinations)))
    (hs : s.step names (.run i answer) = some s') : remaining ts s' < remaining ts s := by
  cases step_effect hs with
  | @store _ p t v _ rest htodo =>
    refine remaining_goto hi rfl rfl ?_ ?_ ?_ _ _ _ <;> simp [htodo, work, operations, changes]
  | @push _ p t v _ rest htodo =>
    obtain ⟨hsub, hdst⟩ := sameLinks_push (s := s) p
    refine remaining_goto hi hsub hdst ?_ ?_ ?_ _ _ _ <;> simp [htodo, work, operations, changes]
  | @lock _ p t v replicate _ rest htodo hfree =>
    have hw : total (work s.factory) (deliveries (s.factory.inputPVs p) p t v replicate) + 2 =
        work s.factory (.lockSubscribersList p t v replicate) := work_deliveries hfew hac
    refine remaining_goto hi rfl rfl ?_ ?_ ?_ _ _ _
    · rw [total_append, operations_deliveries, htodo, total_cons, total_cons]
      exact le_of_eq (Nat.zero_add _)
    · rw [total_append, changes_deliveries, htodo, total_cons, total_cons]
      exact le_of_eq (Nat.zero_add _)
    · rw [total_append, htodo, total_cons, total_cons, ← hw,
        show work s.factory (.release (.lockSubscribersList p) : Instr V) = 1 from rfl]
      omega
  | @write _ p q t v rest htodo =>
    refine remaining_goto hi rfl rfl ?_ ?_ ?_ _ _ _ <;> simp [htodo, work, operations, changes]
  | @threw _ p q t v e rest htodo =>
    have hle := fun g : Instr V → Nat => total_filter g (·.released.isSome) rest
    refine remaining_goto hi rfl rfl ?_ ?_ ?_ _ _ _
    · rw [htodo, total_cons]
      exact (hle _).trans (Nat.le_add_left ..)
    · rw [htodo, total_cons]
      exact (hle _).trans (Nat.le_add_left ..)
    · rw [htodo, total_cons]
      exact Nat.lt_of_le_of_lt (hle _) (by simp [work])
  | @release _ m _ rest htodo =>
    refine remaining_goto hi rfl rfl ?_ ?_ ?_ _ _ _ <;> simp [htodo, work, operations, changes]
  | @operate _ op _ rest f htodo hfree hok =>
    refine lex_lt (.inl (sum_update_lt hi ?_))
    have hzero : total operations ((s.factory.changes names op).map (Instr.change (V := V))) = 0 :=
      total_eq_zero fun x hx => by
        obtain ⟨c, -, rfl⟩ := List.mem_map.mp hx
        rfl
    rw [total_append, hzero, htodo, total_cons, total_cons]
    simp [operations]
  | @refused _ op _ rest e htodo hfree herror =>
    refine lex_lt (.inl (sum_update_lt hi ?_))
    simp [htodo, operations]
  | @change _ c _ rest htodo hfree =>
    refine lex_lt (.inr ⟨sum_update_le ?_, .inl (sum_update_lt hi ?_)⟩)
    · simp [htodo, operations]
    · simp [htodo, changes]

/-! ## Runs -/

theorem few_step {e : ThreadEvent V} (h : s.factory.FewReplicated)
    (hs : s.step names e = some s') : s'.factory.FewReplicated := by
  cases step_effect hs with
  | @push i p t v answer rest htodo =>
    refine h.subset fun x hx => ?_
    replace hx : ((s.factory.modify p (·.decimate.1)).destinations x).elems ≠ [] := hx
    rwa [(sameLinks_push p).2] at hx
  | @change i c answer rest htodo hfree =>
    refine (h.insert c.pv).subset fun x hx => ?_
    by_cases hxc : x = c.pv
    · exact .inl hxc
    · replace hx : ((c.run s.factory).destinations x).elems ≠ [] := hx
      rw [NdsFactory.destinations, LinkChange.run, NdsFactory.modify_inputPVs_of_ne hxc] at hx
      exact .inr hx
  | _ => exact h

/-- Who has something to do. -/
def ActiveIn (ts : Finset Nat) (s : Threads V) : Prop := ∀ i, s.todo i ≠ [] → i ∈ ts

theorem mem_of_run {ts : Finset Nat} (h : ActiveIn ts s)
    (hs : s.step names (.run i answer) = some s') : i ∈ ts := by
  refine h i fun hc => ?_
  simp [step, hc] at hs

theorem todo_of_run {j : Nat} (hj : j ≠ i) (hs : s.step names (.run i answer) = some s') :
    s'.todo j = s.todo j := by
  cases step_effect hs <;> exact Function.update_of_ne hj ..

theorem ActiveIn.run {ts : Finset Nat} (h : ActiveIn ts s)
    (hs : s.step names (.run i answer) = some s') : ActiveIn ts s' := by
  intro j hj
  by_cases hji : j = i
  · exact hji ▸ mem_of_run h hs
  · exact h j (todo_of_run hji hs ▸ hj)

def Continues (e : ThreadEvent V) : Prop := ∃ i answer, e = .run i answer

def Done (s : Threads V) : Prop := ∀ i, s.todo i = []

/-- No cycle comes up while the threads go on. -/
def StaysAcyclic (names : FullNames) (s : Threads V) : Prop :=
  ∀ es s', (∀ e ∈ es, Continues e) → Lts.exec (step names) s es = some s' →
    Dag.Acyclic (Edge (succ s'.factory.destinations))

theorem StaysAcyclic.run (h : StaysAcyclic names s)
    (hs : s.step names (.run i answer) = some s') : StaysAcyclic names s' := by
  intro es s'' hes hexec
  refine h (.run i answer :: es) s'' ?_ (Option.bind_eq_some_iff.mpr ⟨s', hs, hexec⟩)
  exact List.forall_mem_cons.mpr ⟨⟨i, answer, rfl⟩, hes⟩

/-- It does not while no operation is under way. -/
theorem Delivering.staysAcyclic (h : Delivering s)
    (hac : Dag.Acyclic (Edge (succ s.factory.destinations))) : StaysAcyclic names s := by
  intro es s' hes hexec
  induction es generalizing s with
  | nil =>
    obtain rfl := Option.some.inj hexec
    exact hac
  | cons e es ih =>
    obtain ⟨s1, hs1, hrest⟩ := Option.bind_eq_some_iff.mp hexec
    obtain ⟨i, answer, rfl⟩ := hes e (List.mem_cons_self ..)
    obtain ⟨h1, hlinks⟩ := h.step (e := .run i answer) trivial hs1
    exact ih h1 (hlinks.destinations ▸ hac) (fun e he => hes e (List.mem_cons_of_mem _ he)) hrest

/-- **The calls complete.** While no cycle of replications comes up, every schedule of the calls
that are under way is finite, whatever the output PVs answer, and ends with all of them done. -/
theorem calls_complete {f : NdsFactory} {stored : Nat → Timespec × V} (hfew : f.FewReplicated)
    (h : Lts.Reach (step names) (fun _ _ => True) (Threads.initial f stored) s)
    (hac : StaysAcyclic names s) : Lts.Completes (step names) Continues Continues Done s := by
  have hinv : LockInv s :=
    h.invariant (I := LockInv) (.initial f stored) fun hi _ hs => LockInv.step hi hs
  have hts : ActiveIn hinv.active.toFinset s := fun i hi => hinv.active.mem_toFinset.mpr hi
  have hfews : s.factory.FewReplicated :=
    h.invariant (I := fun s => s.factory.FewReplicated) hfew fun hi _ hs => few_step hi hs
  refine Lts.completes_of_measure (I := fun s =>
    Lts.Reach (step names) (fun _ _ => True) (Threads.initial f stored) s ∧
      s.factory.FewReplicated ∧ StaysAcyclic names s ∧ ActiveIn hinv.active.toFinset s)
    (m := remaining hinv.active.toFinset) ?_ ?_ ⟨h, hfews, hac, hts⟩
  · rintro s _ s' ⟨h, hfew, hac, hts⟩ ⟨i, answer, rfl⟩ hs
    refine ⟨⟨h.step trivial hs, few_step hfew hs, hac.run hs, hts.run hs⟩, ?_⟩
    exact remaining_step (mem_of_run hts hs) hfew (hac [] s (fun _ he => by cases he) rfl) hs
  · rintro s ⟨h, -, hac, -⟩ hdone
    obtain ⟨i, hi⟩ := not_forall.mp hdone
    obtain ⟨j, -, hgo⟩ := exists_enabled h (hac [] s (fun _ he => by cases he) rfl) hi
    obtain ⟨s', hs'⟩ := hgo none
    exact ⟨_, s', ⟨j, none, rfl⟩, hs'⟩

/-- A push through the diamond and a variable set in it. -/
theorem calls_complete_diamond :
    ∃ s, Lts.exec (step ⟨fun _ => "in", fun _ => "out"⟩)
        (Threads.initial diamond fun _ => (⟨0, 0⟩, ""))
        [.call 1 (.push 1 ⟨1, 0⟩ "pushed"), .call 2 (.setValue 4 ⟨2, 0⟩ "set"), .run 2 none,
          .run 2 none] = some s ∧
      s.owner (.lockSubscribersList 4) = some 2 ∧
      Lts.Completes (step ⟨fun _ => "in", fun _ => "out"⟩) Continues Continues Done s := by
  let names : FullNames := ⟨fun _ => "in", fun _ => "out"⟩
  obtain ⟨s, hs⟩ : ∃ s, Lts.exec (step names) (Threads.initial diamond fun _ => (⟨0, 0⟩, ""))
    [.call 1 (.push 1 ⟨1, 0⟩ "pushed"), .call 2 (.setValue 4 ⟨2, 0⟩ "set"), .run 2 none,
      .run 2 none] = some s := ⟨_, rfl⟩
  have hreach : Lts.Reach (step names) NoOperation
      (Threads.initial diamond fun _ => (⟨0, 0⟩, "")) s := by
    refine Lts.Reach.refl.exec _ (.of_forall fun _ e he => ?_) hs
    simp only [List.mem_cons, List.not_mem_nil, or_false] at he
    rcases he with rfl | rfl | rfl | rfl <;> trivial
  have hdel : Delivering s := (Delivering.reach hreach (Delivering.initial _ _)).1
  refine ⟨s, hs, ?_, calls_complete finite_edges_diamond (hreach.mono fun _ _ _ => trivial)
    (hdel.staysAcyclic ?_)⟩
  · cases hs
    rfl
  · cases hs
    exact acyclic_edges_diamond

end Threads

end Nds3
