import Mathlib.Algebra.BigOperators.Group.Finset.Basic
import Mathlib.Data.Finite.Sigma
import Mathlib.Data.Finite.Sum
import Mathlib.Data.Set.Finite.Basic
import Mathlib.Data.Set.Finite.List
import Mathlib.Logic.Relation
import Mathlib.SetTheory.Cardinal.Finite

/-!
# Acyclic graphs and their paths

A graph is given by the list of the successors of each vertex. The preorder walk from a vertex
visits a vertex once for each path that leads to it (`Depth.count_walk`); it is defined with a
bound on the length of the paths, which exists wherever the graph is finite and acyclic.
-/

namespace Dag

open Relation

/-- No vertex reaches itself. -/
def Acyclic {α : Type*} (r : α → α → Prop) : Prop := ∀ x, ¬ TransGen r x x

section

variable {α : Type*} {r : α → α → Prop}

theorem transGen_insert {a b x y : α} (h : TransGen (fun x y => r x y ∨ x = a ∧ y = b) x y) :
    TransGen r x y ∨ (ReflTransGen r x a ∧ ReflTransGen r b y) := by
  induction h with
  | single h =>
    rcases h with h | ⟨rfl, rfl⟩
    · exact .inl (.single h)
    · exact .inr ⟨.refl, .refl⟩
  | tail _ h ih =>
    rcases h with h | ⟨rfl, rfl⟩
    · rcases ih with ih | ⟨ih, ih'⟩
      · exact .inl (ih.tail h)
      · exact .inr ⟨ih, ih'.tail h⟩
    · rcases ih with ih | ⟨ih, -⟩
      · exact .inr ⟨ih.to_reflTransGen, .refl⟩
      · exact .inr ⟨ih, .refl⟩

/-- One more edge closes a cycle exactly when its end reaches its start. -/
theorem acyclic_insert {a b : α} :
    Acyclic (fun x y => r x y ∨ x = a ∧ y = b) ↔ Acyclic r ∧ ¬ ReflTransGen r b a := by
  constructor
  · refine fun h => ⟨fun x hx => h x (hx.lift id fun _ _ => .inl), fun hba => h a ?_⟩
    exact TransGen.head' (.inr ⟨rfl, rfl⟩) (hba.lift id fun _ _ => .inl)
  · rintro ⟨hr, hba⟩ x hx
    rcases transGen_insert hx with h | ⟨h, h'⟩
    · exact hr x h
    · exact hba (h'.trans h)

end

variable {α : Type*} (succ : α → List α)

/-- The edges of the graph. -/
def Edge (x y : α) : Prop := y ∈ succ x

/-- The paths of the graph. -/
inductive Path : α → α → Type _ where
  | nil (x : α) : Path x x
  | cons {x y z : α} (h : y ∈ succ x) (p : Path y z) : Path x z

/-- Every path from the vertex has fewer than `n` edges. -/
def Depth : Nat → α → Prop
  | 0, _ => False
  | n + 1, x => ∀ y ∈ succ x, Depth n y

/-- The preorder walk, down to depth `n`. -/
def walk : Nat → α → List α
  | 0, _ => []
  | n + 1, x => x :: (succ x).flatMap (walk n)

variable {succ} {n m : Nat} {x y z : α}

theorem Depth.mono (h : Depth succ n x) (hnm : n ≤ m) : Depth succ m x := by
  induction n generalizing m x with
  | zero => cases h
  | succ n ih =>
    obtain ⟨m, rfl⟩ := Nat.exists_eq_add_one_of_ne_zero (by omega : m ≠ 0)
    exact fun y hy => ih (h y hy) (by omega)

theorem Depth.anti {succ' : α → List α} (h : Depth succ' n x) (hsub : ∀ x, succ x ⊆ succ' x) :
    Depth succ n x := by
  induction n generalizing x with
  | zero => cases h
  | succ n ih => exact fun y hy => ih (h y (hsub x hy))

theorem Depth.of_transGen (h : Depth succ (n + 1) x) (hxy : TransGen (Edge succ) x y) :
    Depth succ n y := by
  induction hxy with
  | single hxy => exact h _ hxy
  | tail _ hyz ih =>
    obtain ⟨m, rfl⟩ := Nat.exists_eq_add_one_of_ne_zero (n := n) (by rintro rfl; exact ih)
    exact Depth.mono (ih _ hyz) (Nat.le_succ m)

theorem Depth.irrefl (h : Depth succ n x) : ¬ TransGen (Edge succ) x x := by
  induction n with
  | zero => cases h
  | succ n ih => exact fun hx => ih (h.of_transGen hx) hx

theorem Depth.walk_eq (h : Depth succ n x) (hnm : n ≤ m) : walk succ m x = walk succ n x := by
  induction n generalizing m x with
  | zero => cases h
  | succ n ih =>
    obtain ⟨m, rfl⟩ := Nat.exists_eq_add_one_of_ne_zero (by omega : m ≠ 0)
    rw [walk, walk, List.flatMap_congr fun y hy => ih (h y hy) (by omega)]

theorem Depth.mem_walk (h : Depth succ n x) :
    z ∈ walk succ n x ↔ ReflTransGen (Edge succ) x z := by
  induction n generalizing x with
  | zero => cases h
  | succ n ih =>
    rw [walk, List.mem_cons, List.mem_flatMap, ReflTransGen.cases_head_iff]
    refine or_congr eq_comm ⟨?_, ?_⟩
    · rintro ⟨y, hy, hz⟩
      exact ⟨y, hy, (ih (h y hy)).mp hz⟩
    · rintro ⟨y, hy, hz⟩
      exact ⟨y, hy, (ih (h y hy)).mpr hz⟩

/-- Finitely many elements without a cycle can be taken from the last to the first. -/
theorem wellFounded_of_acyclic {r : α → α → Prop} {s : Set α} (hs : s.Finite)
    (hac : ∀ x ∈ s, ¬ TransGen r x x) : WellFounded fun a b : s => TransGen r b.1 a.1 := by
  have : Finite s := hs
  let later : s → s → Prop := fun a b => TransGen r b.1 a.1
  have : IsTrans s later := ⟨fun _ _ _ hab hbc => hbc.trans hab⟩
  have : Std.Irrefl later := ⟨fun a => hac a.1 a.2⟩
  exact Finite.wellFounded_of_trans_of_irrefl later

theorem exists_depth_list {l : List α} (h : ∀ y ∈ l, ∃ n, Depth succ n y) :
    ∃ n, ∀ y ∈ l, Depth succ n y := by
  induction l with
  | nil => exact ⟨0, fun _ h => by cases h⟩
  | cons y l ih =>
    obtain ⟨n, hn⟩ := h y (List.mem_cons_self ..)
    obtain ⟨m, hm⟩ := ih fun z hz => h z (List.mem_cons_of_mem _ hz)
    refine ⟨max n m, fun z hz => ?_⟩
    rcases List.mem_cons.mp hz with rfl | hz
    · exact hn.mono (le_max_left ..)
    · exact (hm z hz).mono (le_max_right ..)

/-- In a finite acyclic part of the graph that no edge leaves, every vertex has a depth. -/
theorem exists_depth {s : Set α} (hs : s.Finite) (hclosed : ∀ x ∈ s, ∀ y ∈ succ x, y ∈ s)
    (hac : ∀ x ∈ s, ¬ TransGen (Edge succ) x x) (hx : x ∈ s) : ∃ n, Depth succ n x := by
  have hwf := wellFounded_of_acyclic hs hac
  have key : ∀ a : s, ∃ n, Depth succ n a.1 := fun a => by
    induction a using hwf.induction with
    | _ a ih =>
      obtain ⟨n, hn⟩ := exists_depth_list (l := succ a.1) fun y hy =>
        ih ⟨y, hclosed a.1 a.2 y hy⟩ (.single hy)
      exact ⟨n + 1, hn⟩
  exact key ⟨x, hx⟩

/-- A path is empty, or an edge and a path. -/
def Path.split : Path succ x z ≃ PLift (x = z) ⊕ Σ y : {y // y ∈ succ x}, Path succ y.1 z where
  toFun
    | .nil _ => .inl ⟨rfl⟩
    | .cons h p => .inr ⟨⟨_, h⟩, p⟩
  invFun
    | .inl ⟨h⟩ => h ▸ .nil x
    | .inr ⟨y, p⟩ => .cons y.2 p
  left_inv p := by cases p <;> rfl
  right_inv s := by
    rcases s with ⟨⟨rfl⟩⟩ | ⟨⟨y, h⟩, p⟩
    · rfl
    · rfl

theorem Depth.finite (h : Depth succ n x) (z : α) : Finite (Path succ x z) := by
  induction n generalizing x with
  | zero => cases h
  | succ n ih =>
    have : ∀ y : {y // y ∈ succ x}, Finite (Path succ y.1 z) := fun y => ih (h y.1 y.2)
    have : Finite {y // y ∈ succ x} := List.finite_toSet (succ x)
    exact Finite.of_equiv _ Path.split.symm

/-- **The walk visits a vertex once for each path that leads to it.** -/
theorem Depth.count_walk [DecidableEq α] (hnd : ∀ x, (succ x).Nodup) (h : Depth succ n x) (z : α) :
    (walk succ n x).count z = Nat.card (Path succ x z) := by
  induction n generalizing x with
  | zero => cases h
  | succ n ih =>
    have hfin : ∀ y : {y // y ∈ succ x}, Finite (Path succ y.1 z) :=
      fun y => Depth.finite (h y.1 y.2) z
    have : Finite {y // y ∈ succ x} := List.finite_toSet (succ x)
    have : Fintype {y // y ∈ succ x} := Fintype.ofFinite _
    rw [walk, List.count_cons, List.count_flatMap, Nat.card_congr Path.split, Nat.card_sum,
      Nat.card_sigma, Nat.add_comm]
    congr 1
    · by_cases hxz : x = z <;> simp [hxz]
    · rw [Finset.sum_congr rfl fun y _ => (ih (h y.1 y.2)).symm,
        ← Finset.sum_subtype (succ x).toFinset (fun _ => List.mem_toFinset)
          fun y => (walk succ n y).count z, List.sum_toFinset _ (hnd x)]
      rfl

/-! ## Weights -/

/-- Where finitely many vertices have successors and none reaches itself, one bound holds for all
vertices. -/
theorem exists_depth_all (hfin : {x | succ x ≠ []}.Finite) (hac : Acyclic (Edge succ)) :
    ∃ n, ∀ x, Depth succ n x := by
  have hleaf : ∀ x, succ x = [] → Depth succ 1 x := fun x hx y hy => by
    rw [hx] at hy
    cases hy
  let s : Set α := {x | succ x ≠ []} ∪ ⋃ x ∈ {x | succ x ≠ []}, {y | y ∈ succ x}
  have hs : s.Finite := hfin.union (hfin.biUnion fun x _ => List.finite_toSet (succ x))
  have hclosed : ∀ x ∈ s, ∀ y ∈ succ x, y ∈ s := fun x _ y hy =>
    .inr (Set.mem_biUnion (x := x) (List.ne_nil_of_mem hy) hy)
  obtain ⟨n, hn⟩ : ∃ n, ∀ x ∈ hfin.toFinset.toList, Depth succ n x := exists_depth_list fun x hx =>
    exists_depth hs hclosed (fun x _ => hac x) (.inl (by simpa using hx))
  refine ⟨max n 1, fun x => ?_⟩
  by_cases hx : succ x = []
  · exact (hleaf x hx).mono (le_max_right ..)
  · exact (hn x (by simpa using hx)).mono (le_max_left ..)

/-- One bound for all vertices, if there is one. -/
noncomputable def bound (succ : α → List α) : Nat :=
  open Classical in if h : ∃ n, ∀ x, Depth succ n x then h.choose else 0

theorem depth_bound (hfin : {x | succ x ≠ []}.Finite) (hac : Acyclic (Edge succ)) (x : α) :
    Depth succ (bound succ) x := by
  have h := exists_depth_all hfin hac
  rw [bound, dif_pos h]
  exact h.choose_spec x

/-- What the vertices of the walk weigh, each counted as often as it is visited. -/
def weight (succ : α → List α) (w : α → Nat) (n : Nat) (x : α) : Nat := ((walk succ n x).map w).sum

/-- A vertex weighs its own and what its successors weigh. -/
theorem weight_eq {w : α → Nat} (h : ∀ x, Depth succ n x) (x : α) :
    weight succ w n x = w x + ((succ x).map (weight succ w n)).sum := by
  rw [weight, ← (h x).walk_eq (Nat.le_succ n), walk, List.map_cons, List.sum_cons, List.flatMap,
    List.map_flatten, List.sum_flatten, List.map_map, List.map_map]
  rfl

end Dag
