import Nds3.Registry.Threads
import Nds3.Lib.Locks

/-!
# No deadlock in the registry

A push takes the lock of a destination while it holds that of the source, and an operation takes
the locks of the input PVs while it holds that of the registry. So the locks are taken in the order
of the replication relation, the registry before all. The links of a PV do not change while its lock
is held: where the relation has no cycle, somebody can go on.

These are the locks of the registry and its PVs. A `write` takes none, nor another one, and pushes
nothing (see `Threads`). With an output PV that waits for a mutex, under which others push, more
would have to be ordered than the replications: the PV `setState` of a machine waits for
`m_stateMutex`, under which the machine pushes its PV `getState`.
-/

namespace Nds3

open Relation Dag Locks

variable {V : Type*}

def Instr.takes : Instr V → Option Mutex
  | .lockSubscribersList p _ _ _ => some (.lockSubscribersList p)
  | .operate _ => some .lockRegisteredPVs
  | .change c => some (.lockSubscribersList c.pv)
  | _ => none

/-- The order in which the locks are taken. -/
inductive Before (f : NdsFactory) : Mutex → Mutex → Prop where
  | registry (p : Nat) : Before f .lockRegisteredPVs (.lockSubscribersList p)
  | destination {p d : Nat} (h : d ∈ f.destinations p) :
      Before f (.lockSubscribersList p) (.lockSubscribersList d)

theorem Instr.released_of_takes {x : Instr V} {m : Mutex} (h : x.takes = some m) :
    x.released = none := by
  cases x with
  | release m => cases h
  | _ => rfl

section

variable {f : NdsFactory}

theorem before_of_transGen {p : Nat} {m : Mutex}
    (h : TransGen (Before f) (.lockSubscribersList p) m) :
    ∃ d, m = .lockSubscribersList d ∧ TransGen (Edge (succ f.destinations)) p d := by
  induction h with
  | single h =>
    cases h with
    | destination hd => exact ⟨_, rfl, .single hd⟩
  | tail _ h ih =>
    obtain ⟨x, rfl, hx⟩ := ih
    cases h with
    | destination hd => exact ⟨_, rfl, hx.tail hd⟩

theorem acyclic_before (h : Dag.Acyclic (Edge (succ f.destinations))) :
    Dag.Acyclic (Before f) := by
  intro m hm
  cases m with
  | lockRegisteredPVs =>
    obtain ⟨x, -, hx⟩ := TransGen.tail'_iff.mp hm
    cases hx
  | lockSubscribersList p =>
    obtain ⟨d, hd, hpd⟩ := before_of_transGen hm
    cases hd
    exact h p hpd

/-- A thread stays nested while the links of the PVs whose locks it holds stay. -/
theorem nested_of_destinations {f' : NdsFactory} {l : List (Instr V)}
    (h : Nested Instr.takes Instr.released (Before f) l)
    (hf : ∀ p, .lockSubscribersList p ∈ held Instr.released l →
      f'.destinations p = f.destinations p) :
    Nested Instr.takes Instr.released (Before f') l := by
  refine h.mono fun m hm n hmn => ?_
  cases hmn with
  | registry p => exact .registry p
  | destination hd =>
    refine .destination ?_
    rw [hf _ hm]
    exact hd

theorem deliveries_takes {p : Nat} {t : Timespec} {v : V} {replicate : Bool} {x : Instr V}
    (hx : x ∈ Instr.deliveries (f.inputPVs p) p t v replicate) :
    x.released = none ∧ ∀ n, x.takes = some n → Before f (.lockSubscribersList p) n := by
  rcases List.mem_append.mp hx with hx | hx
  · obtain ⟨q, -, rfl⟩ := List.mem_map.mp hx
    exact ⟨rfl, fun n hn => by cases hn⟩
  · split at hx
    · obtain ⟨d, hd, hx⟩ := List.mem_flatMap.mp hx
      rcases List.mem_pair.mp hx with rfl | rfl
      · exact ⟨rfl, fun n hn => by cases hn⟩
      · refine ⟨rfl, fun n hn => ?_⟩
        cases hn
        exact .destination hd
    · cases hx

end

namespace Threads

variable {names : FullNames} {s s' : Threads V} {e : ThreadEvent V}

/-- The threads own the locks they release, have taken them in order, and are finitely many. -/
structure LockInv (s : Threads V) : Prop where
  owns : Owns Instr.released s.owner s.todo
  nested : ∀ i, Nested Instr.takes Instr.released (Before s.factory) (s.todo i)
  active : {i | s.todo i ≠ []}.Finite

theorem LockInv.initial (f : NdsFactory) (stored : Nat → Timespec × V) :
    LockInv (initial f stored) where
  owns := ⟨fun _ => List.nodup_nil, fun i m => by simp [Threads.initial]⟩
  nested _ := trivial
  active := by simp [Threads.initial]

section

variable {todo : Nat → List (Instr V)} {i : Nat} {l : List (Instr V)} {f f' : NdsFactory}

theorem active_update (h : {i | todo i ≠ []}.Finite) :
    {j | Function.update todo i l j ≠ []}.Finite := by
  refine (h.insert i).subset fun j hj => ?_
  by_cases hij : j = i
  · exact .inl hij
  · replace hj : Function.update todo i l j ≠ [] := hj
    rw [Function.update_of_ne hij] at hj
    exact .inr hj

theorem nested_update (h : ∀ j, Nested Instr.takes Instr.released (Before f) (todo j))
    (hl : Nested Instr.takes Instr.released (Before f') l)
    (hf : ∀ j p, .lockSubscribersList p ∈ held Instr.released (todo j) →
      f'.destinations p = f.destinations p) (j : Nat) :
    Nested Instr.takes Instr.released (Before f') (Function.update todo i l j) := by
  by_cases hj : j = i
  · subst hj
    rwa [Function.update_self]
  · rw [Function.update_of_ne hj]
    exact nested_of_destinations (h j) (hf j)

end

theorem LockInv.goto (h : LockInv s) {i : Nat} {l : List (Instr V)} {f : NdsFactory}
    (hheld : held Instr.released l = held Instr.released (s.todo i))
    (hl : Nested Instr.takes Instr.released (Before s.factory) l)
    (hf : ∀ p, s.owner (.lockSubscribersList p) ≠ none →
      f.destinations p = s.factory.destinations p)
    (stored : Nat → Timespec × V) (log : List (Nat × Happened V)) :
    LockInv ⟨f, stored, s.owner, Function.update s.todo i l, log⟩ where
  owns := h.owns.goto hheld
  nested := by
    have howned : ∀ j p, .lockSubscribersList p ∈ held Instr.released (s.todo j) →
        f.destinations p = s.factory.destinations p := fun j p hp =>
      hf p fun hc => by
        have hown := (h.owns.iff j _).mpr hp
        simp [hc] at hown
    refine nested_update h.nested (nested_of_destinations hl fun p hp => ?_) howned
    exact howned i p (hheld ▸ hp)
  active := active_update h.active

/-- **Step lemma.** -/
theorem LockInv.step (h : LockInv s) (hs : s.step names e = some s') : LockInv s' := by
  have hkeep : ∀ p, s.owner (.lockSubscribersList p) ≠ none →
    s.factory.destinations p = s.factory.destinations p := fun _ _ => rfl
  cases step_effect hs with
  | @call i c htodo =>
    refine h.goto ?_ ?_ hkeep _ _
    · rw [htodo]
      cases c <;> rfl
    · cases c <;> simp [ThreadCall.body, Instr.pushBody, Nested, held, Instr.takes, Instr.released]
  | @store i p t v answer rest htodo =>
    refine h.goto ?_ ?_ hkeep _ _
    · rw [htodo]
      rfl
    · exact (htodo ▸ h.nested i).2
  | @push i p t v answer rest htodo =>
    refine h.goto ?_ ?_ ?_ _ _
    · rw [htodo]
      rfl
    · exact (htodo ▸ h.nested i).2
    · intro x _
      exact NdsFactory.modify_inputPVs_congr (g := (·.decimate.1)) (·.replicationDestinationPVs)
        PVBaseIn.decimate_replicationDestinationPVs p x
  | @lock i p t v replicate answer rest htodo hfree =>
    have hn := h.nested i
    rw [htodo] at hn
    have htop : Nested Instr.takes Instr.released (Before s.factory)
        (.release (.lockSubscribersList p) :: rest) :=
      ⟨fun m hm top ht => hn.1 m (hm.elim (fun hm => by cases hm) fun hm => .inl hm) top ht, hn.2⟩
    refine ⟨h.owns.take hfree ?_, nested_update h.nested ?_ fun _ _ _ => rfl,
      active_update h.active⟩
    · rw [held_append fun x hx => (deliveries_takes hx).1, htodo]
      rfl
    · exact Nested.append rfl (fun x hx => deliveries_takes hx) htop
  | @write i p q t v rest htodo =>
    refine h.goto ?_ ?_ hkeep _ _
    · rw [htodo]
      rfl
    · exact (htodo ▸ h.nested i).2
  | @threw i p q t v e rest htodo =>
    refine h.goto ?_ ?_ hkeep _ _
    · rw [htodo, held_filter]
      rfl
    · exact Nested.filter (htodo ▸ h.nested i).2
  | @release i m answer rest htodo =>
    refine ⟨h.owns.release ?_, nested_update h.nested ?_ fun _ _ _ => rfl,
      active_update h.active⟩
    · rw [htodo]
      rfl
    · exact (htodo ▸ h.nested i).2
  | @operate i op answer rest f htodo hfree hok =>
    have hn := h.nested i
    rw [htodo] at hn
    have htop : Nested Instr.takes Instr.released (Before s.factory)
        (.release .lockRegisteredPVs :: rest) :=
      ⟨fun m hm top ht => hn.1 m (hm.elim (fun hm => by cases hm) fun hm => .inl hm) top ht, hn.2⟩
    have hchanges : ∀ x ∈ (s.factory.changes names op).map (Instr.change (V := V)),
        x.released = none ∧ ∀ n, x.takes = some n → Before s.factory .lockRegisteredPVs n := by
      intro x hx
      obtain ⟨c, -, rfl⟩ := List.mem_map.mp hx
      refine ⟨rfl, fun n hn => ?_⟩
      cases hn
      exact .registry c.pv
    refine ⟨h.owns.take hfree ?_, nested_update h.nested ?_ fun _ _ _ => rfl,
      active_update h.active⟩
    · rw [held_append fun x hx => (hchanges x hx).1, htodo]
      rfl
    · exact nested_of_destinations (Nested.append rfl hchanges htop) fun _ _ => rfl
  | @refused i op answer rest e htodo hfree herror =>
    refine h.goto ?_ ?_ hkeep _ _
    · rw [htodo]
      rfl
    · exact (htodo ▸ h.nested i).2
  | @change i c answer rest htodo hfree =>
    refine h.goto ?_ ?_ ?_ _ _
    · rw [htodo]
      rfl
    · exact (htodo ▸ h.nested i).2
    · -- the PV whose links change is not locked
      intro p hp
      have hne : p ≠ c.pv := fun hc => hp (hc ▸ hfree)
      rw [NdsFactory.destinations, NdsFactory.destinations, LinkChange.run,
        NdsFactory.modify_inputPVs_of_ne hne]

theorem exists_advance {i : Nat} {instr : Instr V} (rest : List (Instr V))
    (hfree : ∀ m, instr.takes = some m → s.owner m = none) (answer : Option Exn) :
    ∃ s', s.advance names i answer rest instr = some s' := by
  cases instr with
  | lockSubscribersList p t v replicate =>
    exact ⟨_, by rw [advance, if_pos (hfree _ rfl)]⟩
  | operate op =>
    rw [advance, if_pos (hfree _ rfl)]
    cases s.factory.prepare names op with
    | mk f r => cases r <;> exact ⟨_, rfl⟩
  | change c => exact ⟨_, by rw [advance, if_pos (hfree _ rfl)]⟩
  | _ => exact ⟨_, rfl⟩

/-- **No deadlock.** While the replication relation has no cycle and some thread is not done, there
is a thread that can go on, whatever the output PVs answer. -/
theorem exists_enabled {f : NdsFactory} {stored : Nat → Timespec × V}
    (h : Lts.Reach (step names) (fun _ _ => True) (Threads.initial f stored) s)
    (hac : Dag.Acyclic (Edge (succ s.factory.destinations))) {i : Nat} (hi : s.todo i ≠ []) :
    ∃ j, s.todo j ≠ [] ∧ ∀ answer, ∃ s', s.step names (.run j answer) = some s' := by
  have hinv : LockInv s :=
    h.invariant (I := LockInv) (.initial f stored) fun hi _ hs => LockInv.step hi hs
  have hordered : (demand Instr.takes s.owner s.todo).Ordered (Before s.factory) :=
    ordered_of_nested hinv.owns hinv.nested fun _ _ => Instr.released_of_takes
  have howner : ∀ m j, s.owner m = some j → j ∈ {j | s.todo j ≠ []} := by
    intro m j hm hj
    have hheld := (hinv.owns.iff j m).mp hm
    simp [hj] at hheld
  obtain ⟨j, hj, hfree⟩ :=
    hordered.exists_free (acyclic_before hac) hinv.active ⟨i, hi⟩ howner
  refine ⟨j, hj, fun answer => ?_⟩
  cases htodo : s.todo j with
  | nil => exact absurd htodo hj
  | cons instr rest =>
    have hwants : ∀ m, instr.takes = some m → s.owner m = none := fun m hm =>
      hfree m (by simp [demand, htodo, hm])
    obtain ⟨s', hs'⟩ : ∃ s', s.advance names j answer rest instr = some s' :=
      exists_advance rest hwants answer
    exact ⟨s', by simp only [step, htodo, hs']⟩

/-- A thread waits for the lock of a variable that another one is setting. -/
theorem exists_enabled_diamond :
    ∃ s, Lts.exec (step ⟨fun _ => "in", fun _ => "out"⟩)
        (Threads.initial diamond fun _ => (⟨0, 0⟩, ""))
        [.call 1 (.setValue 4 ⟨1, 0⟩ "first"), .run 1 none, .run 1 none,
          .call 2 (.setValue 4 ⟨2, 0⟩ "second"), .run 2 none] = some s ∧
      s.step ⟨fun _ => "in", fun _ => "out"⟩ (.run 2 none) = none ∧
      ∃ j, s.todo j ≠ [] ∧
        ∀ answer, ∃ s', s.step ⟨fun _ => "in", fun _ => "out"⟩ (.run j answer) = some s' := by
  obtain ⟨s, hs⟩ : ∃ s, Lts.exec (step ⟨fun _ => "in", fun _ => "out"⟩)
    (Threads.initial diamond fun _ => (⟨0, 0⟩, ""))
    [.call 1 (.setValue 4 ⟨1, 0⟩ "first"), .run 1 none, .run 1 none,
      .call 2 (.setValue 4 ⟨2, 0⟩ "second"), .run 2 none] = some s := ⟨_, rfl⟩
  have hreach : Lts.Reach (step ⟨fun _ => "in", fun _ => "out"⟩) (fun _ _ => True)
      (Threads.initial diamond fun _ => (⟨0, 0⟩, "")) s :=
    Lts.Reach.refl.exec _ (.of_forall fun _ _ _ => trivial) hs
  refine ⟨s, hs, ?_, exists_enabled hreach ?_ (i := 2) ?_⟩
  · cases hs
    rfl
  · cases hs
    exact acyclic_edges_diamond
  · cases hs
    exact List.cons_ne_nil _ _

end Threads

end Nds3
