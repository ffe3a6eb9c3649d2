import Nds3.Lib.Dag

/-!
# Threads that wait for locks

Each lock has an owner or none, and each thread that is about to take a lock says which
(`Demand`). Threads that all wait for one another are among finitely many threads in a cycle of
waiting (`exists_cycle`), and there is no such cycle where every thread holds only locks that come
before the one it waits for (`Demand.Ordered.not_cycle`). Threads whose locks are nested hold
only such locks (`ordered_of_nested`).
-/

namespace Locks

open Relation

/-- Among finitely many elements each of which has a successor there is a cycle. -/
theorem exists_cycle {T : Type*} {r : T → T → Prop} {S : Set T} (hfin : S.Finite)
    (hne : S.Nonempty) (hnext : ∀ i ∈ S, ∃ j ∈ S, r i j) : ∃ i ∈ S, TransGen r i i := by
  by_contra hac
  push Not at hac
  have hwf := Dag.wellFounded_of_acyclic hfin hac
  obtain ⟨i, hi⟩ := hne
  obtain ⟨⟨m, hm⟩, -, hmin⟩ := hwf.has_min Set.univ ⟨⟨i, hi⟩, trivial⟩
  obtain ⟨j, hj, hmj⟩ := hnext m hm
  exact hmin ⟨j, hj⟩ trivial (.single hmj)

/-- Who holds each lock, and the lock each thread is about to take. -/
structure Demand (L T : Type*) where
  owner : L → Option T
  wants : T → Option L

namespace Demand

variable {L T : Type*} (d : Demand L T)

/-- The first thread is about to take a lock that the second one holds. -/
def WaitsFor (i j : T) : Prop := ∃ l, d.wants i = some l ∧ d.owner l = some j

/-- Every lock a thread holds comes before the one it is about to take. -/
def Ordered (before : L → L → Prop) : Prop :=
  ∀ l i m, d.owner l = some i → d.wants i = some m → TransGen before l m

variable {d} {before : L → L → Prop} {i j : T}

/-- Along a chain of waiting threads the locks they wait for go up. -/
theorem Ordered.of_transGen (h : d.Ordered before) (hij : TransGen d.WaitsFor i j) :
    ∃ l, d.wants i = some l ∧ ∀ m, d.wants j = some m → TransGen before l m := by
  induction hij with
  | single hij =>
    obtain ⟨l, hl, hown⟩ := hij
    exact ⟨l, hl, fun m hm => h l _ m hown hm⟩
  | tail _ hjk ih =>
    obtain ⟨l, hl, hup⟩ := ih
    obtain ⟨m, hm, hown⟩ := hjk
    exact ⟨l, hl, fun n hn => (hup m hm).trans (h m _ n hown hn)⟩

/-- **No cycle of waiting** where the order of the locks has none. -/
theorem Ordered.not_cycle (h : d.Ordered before) (hac : Dag.Acyclic before) :
    ¬ TransGen d.WaitsFor i i := by
  intro hi
  obtain ⟨l, hl, hup⟩ := h.of_transGen hi
  exact hac l (hup l hl)

/-- **Somebody does not wait.** Of finitely many active threads, the owners of all the locks among
them, one finds the lock it is about to take free, or is about to take none. -/
theorem Ordered.exists_free (h : d.Ordered before) (hac : Dag.Acyclic before) {active : Set T}
    (hfin : active.Finite) (hne : active.Nonempty)
    (howner : ∀ l i, d.owner l = some i → i ∈ active) :
    ∃ i ∈ active, ∀ l, d.wants i = some l → d.owner l = none := by
  by_contra hwait
  push Not at hwait
  obtain ⟨i, -, hi⟩ := exists_cycle (r := d.WaitsFor) hfin hne fun i hi => by
    obtain ⟨l, hl, hown⟩ := hwait i hi
    obtain ⟨j, hj⟩ := Option.ne_none_iff_exists'.mp hown
    exact ⟨j, howner l j hj, l, hl, hj⟩
  exact h.not_cycle hac hi

end Demand

/-! ## Threads as lists of instructions

A thread is the list of what it has still to do. An instruction may take a lock, and another one
releases it, so the thread holds the locks that its list releases, the innermost first. -/

section

variable {I L : Type*} (takes released : I → Option L) (before : L → L → Prop)

/-- The locks the thread holds. -/
def held (l : List I) : List L := l.filterMap released

/-- What is taken and what is held comes after the innermost lock that is held then. -/
def Nested : List I → Prop
  | [] => True
  | x :: l =>
    (∀ m, takes x = some m ∨ released x = some m → ∀ top ∈ (held released l).head?, before top m) ∧
      Nested l

/-- The threads own the locks they release, each once. -/
structure Owns {T : Type*} (owner : L → Option T) (todo : T → List I) : Prop where
  nodup : ∀ i, (held released (todo i)).Nodup
  iff : ∀ i m, owner m = some i ↔ m ∈ held released (todo i)

/-- What the threads are about to take. -/
def demand {T : Type*} (owner : L → Option T) (todo : T → List I) : Demand L T :=
  ⟨owner, fun i => (todo i).head?.bind takes⟩

variable {takes released before} {x : I} {l rest : List I} {m : L}

@[simp] theorem held_some (ls : List L) : held some ls = ls := List.filterMap_some

@[simp] theorem held_nil : held released ([] : List I) = [] := rfl

theorem held_cons_none (h : released x = none) : held released (x :: l) = held released l :=
  List.filterMap_cons_none h

theorem held_cons_some (h : released x = some m) :
    held released (x :: l) = m :: held released l := List.filterMap_cons_some h

theorem held_append (h : ∀ x ∈ l, released x = none) :
    held released (l ++ rest) = held released rest := by
  rw [held, List.filterMap_append, List.filterMap_eq_nil_iff.mpr h]
  rfl

theorem held_filter : held released (l.filter fun x => (released x).isSome) = held released l := by
  rw [held, List.filterMap_filter, held]
  congr 1
  funext x
  cases released x <;> rfl

theorem Nested.tail (h : Nested takes released before (x :: l)) : Nested takes released before l :=
  h.2

theorem Nested.filter (h : Nested takes released before l) :
    Nested takes released before (l.filter fun x => (released x).isSome) := by
  induction l with
  | nil => trivial
  | cons x l ih =>
    rw [List.filter_cons]
    split
    · exact ⟨by rw [held_filter]; exact h.1, ih h.2⟩
    · exact ih h.2

/-- Under a lock the locks after it may be taken. -/
theorem Nested.append (hx : released x = some m)
    (hl : ∀ y ∈ l, released y = none ∧ ∀ n, takes y = some n → before m n)
    (h : Nested takes released before (x :: rest)) :
    Nested takes released before (l ++ x :: rest) := by
  induction l with
  | nil => exact h
  | cons y l ih =>
    obtain ⟨hy, htakes⟩ := hl y (List.mem_cons_self ..)
    have hl' : ∀ y ∈ l, released y = none ∧ ∀ n, takes y = some n → before m n :=
      fun z hz => hl z (List.mem_cons_of_mem _ hz)
    refine ⟨fun n hn top htop => ?_, ih hl'⟩
    have hheld : held released (l ++ x :: rest) = m :: held released rest := by
      rw [held_append fun z hz => (hl' z hz).1, held_cons_some hx]
    replace htop : top ∈ (held released (l ++ x :: rest)).head? := htop
    rw [hheld] at htop
    cases htop
    refine htakes n (hn.resolve_right fun hn => ?_)
    rw [hy] at hn
    cases hn

/-- The order matters only behind the locks that are held. -/
theorem Nested.mono {before' : L → L → Prop} (h : Nested takes released before l)
    (hb : ∀ m ∈ held released l, ∀ n, before m n → before' m n) :
    Nested takes released before' l := by
  induction l with
  | nil => trivial
  | cons x l ih =>
    have hsub : ∀ m ∈ held released l, m ∈ held released (x :: l) := by
      intro m hm
      cases hx : released x with
      | none => rwa [held_cons_none hx]
      | some n => rw [held_cons_some hx]; exact List.mem_cons_of_mem _ hm
    refine ⟨fun m hm top htop => ?_, ih h.2 fun m hm => hb m (hsub m hm)⟩
    exact hb top (hsub top (List.mem_of_mem_head? htop)) m (h.1 m hm top htop)

/-- The locks that are held go up to the innermost one. -/
theorem Nested.reflTransGen (h : Nested takes released before l) (hm : m ∈ held released l) :
    ∃ top, (held released l).head? = some top ∧ ReflTransGen before m top := by
  induction l with
  | nil => cases hm
  | cons x l ih =>
    cases hx : released x with
    | none =>
      rw [held_cons_none hx] at hm ⊢
      exact ih h.2 hm
    | some n =>
      rw [held_cons_some hx] at hm ⊢
      rcases List.mem_cons.mp hm with rfl | hm
      · exact ⟨m, rfl, .refl⟩
      · obtain ⟨top, htop, hup⟩ := ih h.2 hm
        exact ⟨n, rfl, hup.tail (h.1 n (.inr hx) top htop)⟩

/-- **Nested threads take their locks in order.** -/
theorem ordered_of_nested {T : Type*} {owner : L → Option T} {todo : T → List I}
    (howns : Owns released owner todo) (hnested : ∀ i, Nested takes released before (todo i))
    (hone : ∀ x m, takes x = some m → released x = none) :
    (demand takes owner todo).Ordered before := by
  intro m i n hown hwants
  have hm := (howns.iff i m).mp hown
  have hn := hnested i
  cases htodo : todo i with
  | nil => simp [htodo] at hm
  | cons x l =>
    rw [htodo] at hm hn
    replace hwants : takes x = some n := by
      simpa [demand, htodo] using hwants
    rw [held_cons_none (hone x n hwants)] at hm
    obtain ⟨top, htop, hup⟩ := hn.2.reflTransGen hm
    exact .tail' hup (hn.1 n (.inl hwants) top htop)

/-! ## Ownership -/

variable {T : Type*} [DecidableEq T] {owner : L → Option T} {todo : T → List I} {i : T}

theorem Owns.goto (h : Owns released owner todo) (hl : held released l = held released (todo i)) :
    Owns released owner (Function.update todo i l) := by
  have hsame : ∀ j, held released (Function.update todo i l j) = held released (todo j) := by
    intro j
    by_cases hj : j = i
    · subst hj
      rw [Function.update_self, hl]
    · rw [Function.update_of_ne hj]
  exact ⟨fun j => hsame j ▸ h.nodup j, fun j m => hsame j ▸ h.iff j m⟩

variable [DecidableEq L]

theorem Owns.take (h : Owns released owner todo) (hm : owner m = none)
    (hl : held released l = m :: held released (todo i)) :
    Owns released (Function.update owner m (some i)) (Function.update todo i l) := by
  have hfree : ∀ j, m ∉ held released (todo j) := fun j hj => by
    have := (h.iff j m).mpr hj
    simp [hm] at this
  refine ⟨fun j => ?_, fun j n => ?_⟩
  · by_cases hj : j = i
    · subst hj
      rw [Function.update_self, hl]
      exact List.nodup_cons.mpr ⟨hfree j, h.nodup j⟩
    · rw [Function.update_of_ne hj]
      exact h.nodup j
  · by_cases hj : j = i <;> by_cases hn : n = m
    · subst hj hn
      simp [hl]
    · subst hj
      simp [hl, hn, h.iff j n]
    · subst hn
      simp [hj, hfree j, Ne.symm hj]
    · simp [hj, hn, h.iff j n]

theorem Owns.release (h : Owns released owner todo)
    (hl : held released (todo i) = m :: held released l) :
    Owns released (Function.update owner m none) (Function.update todo i l) := by
  have hnd := h.nodup i
  rw [hl, List.nodup_cons] at hnd
  have hm : owner m = some i := (h.iff i m).mpr (by rw [hl]; exact List.mem_cons_self ..)
  refine ⟨fun j => ?_, fun j n => ?_⟩
  · by_cases hj : j = i
    · subst hj
      rw [Function.update_self]
      exact hnd.2
    · rw [Function.update_of_ne hj]
      exact h.nodup j
  · by_cases hj : j = i <;> by_cases hn : n = m
    · subst hj hn
      simpa using hnd.1
    · subst hj
      have := h.iff j n
      rw [hl, List.mem_cons, or_iff_right hn] at this
      simpa [hn] using this
    · subst hn
      have hj' : n ∉ held released (todo j) := fun hc => by
        have := (h.iff j n).mpr hc
        rw [hm, Option.some.injEq] at this
        exact hj this.symm
      simp [hj, hj']
    · simp [hj, hn, h.iff j n]

end

end Locks
