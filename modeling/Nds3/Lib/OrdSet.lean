import Mathlib.Data.List.Sort
import Mathlib.Data.Set.Basic

/-!
# Ordered sets

A finite set over a linear order that can be traversed in order: the strictly increasing list of
its elements.
-/

/-- A strictly increasing list. -/
structure OrdSet (α : Type*) [LinearOrder α] where
  elems : List α
  sorted : elems.Pairwise (· < ·)

namespace OrdSet

variable {α : Type*} [LinearOrder α] {a b : α} {s : OrdSet α}

instance : Membership α (OrdSet α) := ⟨fun s a => a ∈ s.elems⟩

instance : EmptyCollection (OrdSet α) := ⟨⟨[], List.Pairwise.nil⟩⟩

instance (a : α) (s : OrdSet α) : Decidable (a ∈ s) := inferInstanceAs (Decidable (a ∈ s.elems))

instance : DecidableEq (OrdSet α) := fun s t =>
  decidable_of_iff (s.elems = t.elems) ⟨fun h => by cases s; cases t; cases h; rfl, fun h => h ▸ rfl⟩

theorem mem_elems : a ∈ s.elems ↔ a ∈ s := Iff.rfl

@[simp] theorem not_mem_empty : ¬ a ∈ (∅ : OrdSet α) := List.not_mem_nil

theorem elems_eq_nil : s.elems = [] ↔ s = ∅ := by
  constructor
  · intro h
    cases s
    cases h
    rfl
  · rintro rfl
    rfl

theorem nodup (s : OrdSet α) : s.elems.Nodup := s.sorted.imp fun h => ne_of_lt h

theorem pairwise_orderedInsert {l : List α} (h : l.Pairwise (· < ·)) (ha : a ∉ l) :
    (l.orderedInsert (· ≤ ·) a).Pairwise (· < ·) := by
  have hle : (l.orderedInsert (· ≤ ·) a).Pairwise (· ≤ ·) :=
    List.Pairwise.orderedInsert a l (h.imp le_of_lt)
  have hnd : (l.orderedInsert (· ≤ ·) a).Nodup :=
    (List.perm_orderedInsert _ a l).nodup_iff.mpr
      (List.nodup_cons.mpr ⟨ha, h.imp fun hlt => ne_of_lt hlt⟩)
  exact hle.imp₂ (fun _ _ hab hne => lt_of_le_of_ne hab hne) hnd

/-- Insertion; an element that is there already is not inserted again. -/
def insert (a : α) (s : OrdSet α) : OrdSet α :=
  if h : a ∈ s.elems then s else ⟨s.elems.orderedInsert (· ≤ ·) a, pairwise_orderedInsert s.sorted h⟩

def erase (a : α) (s : OrdSet α) : OrdSet α :=
  ⟨s.elems.filter (· ≠ a), s.sorted.filter _⟩

@[simp] theorem mem_insert : b ∈ s.insert a ↔ b = a ∨ b ∈ s := by
  unfold insert
  split
  · next h =>
    refine ⟨.inr, ?_⟩
    rintro (rfl | hb)
    · exact h
    · exact hb
  · exact List.mem_orderedInsert ..

@[simp] theorem mem_erase : b ∈ s.erase a ↔ b ∈ s ∧ b ≠ a := by
  rw [← mem_elems, erase, List.mem_filter, mem_elems, decide_eq_true_iff]

@[simp] theorem erase_erase : (s.erase a).erase a = s.erase a := by
  simp [erase, List.filter_filter]

end OrdSet
