import Mathlib.Data.List.Basic

/-!
# Spellings of paths

A path is spelled with a separator in front of each of its names. Two paths have one spelling only
if they part at a name that goes on with the separator in the other path.
-/

namespace Spelling

variable {α : Type*} {s : α} {p q : List (List α)}

/-- The names of a path, with a separator in front of each. -/
def spell (s : α) (p : List (List α)) : List α := p.flatMap (s :: ·)

@[simp] theorem spell_nil : spell s [] = [] := rfl

@[simp] theorem spell_cons (n : List α) (p : List (List α)) :
    spell s (n :: p) = s :: (n ++ spell s p) := rfl

@[simp] theorem spell_append (p q : List (List α)) : spell s (p ++ q) = spell s p ++ spell s q :=
  List.flatMap_append

theorem spell_eq_nil : spell s p = [] ↔ p = [] := by
  cases p with
  | nil => simp
  | cons n p => simp

/-- The paths part at a name that goes on with a separator in the second one, and what is below
fills the difference. -/
def Splits (s : α) (p q : List (List α)) : Prop :=
  ∃ above n below m below', p = above ++ n :: below ∧ q = above ++ (n ++ s :: m) :: below' ∧
    spell s below = s :: m ++ spell s below'

theorem Splits.cons (h : Splits s p q) (n : List α) : Splits s (n :: p) (n :: q) := by
  obtain ⟨above, c, below, m, below', rfl, rfl, hb⟩ := h
  exact ⟨n :: above, c, below, m, below', rfl, rfl, hb⟩

theorem Splits.spell_eq (h : Splits s p q) : spell s p = spell s q := by
  obtain ⟨above, n, below, m, below', rfl, rfl, hb⟩ := h
  simp only [spell_append, spell_cons, hb, List.append_assoc]

theorem Splits.ne (h : Splits s p q) : p ≠ q := by
  obtain ⟨above, n, below, m, below', rfl, rfl, -⟩ := h
  intro heq
  have hn := (List.cons.inj (List.append_cancel_left heq)).1
  have := congrArg List.length hn
  simp at this

theorem splits_of_append {n r : List α} (hr : r ≠ []) (h : spell s p = r ++ spell s q) :
    Splits s (n :: p) ((n ++ r) :: q) := by
  cases r with
  | nil => exact absurd rfl hr
  | cons x m =>
    cases p with
    | nil => cases h
    | cons c p =>
      obtain rfl : s = x := (List.cons.inj h).1
      exact ⟨[], n, c :: p, m, q, rfl, rfl, h⟩

/-- Different paths of one spelling split, by induction on the first path. -/
theorem splits_of_spell_eq (h : spell s p = spell s q) (hne : p ≠ q) :
    Splits s p q ∨ Splits s q p := by
  induction p generalizing q with
  | nil => exact absurd (spell_eq_nil.mp h.symm).symm hne
  | cons n p ih =>
    cases q with
    | nil => cases h
    | cons n' q =>
      rw [spell_cons, spell_cons, List.cons_inj_right] at h
      by_cases hn : n = n'
      · subst hn
        have hrest := ih (List.append_cancel_left h) fun hpq => hne (congrArg (n :: ·) hpq)
        exact hrest.imp (·.cons n) (·.cons n)
      · obtain ⟨r, rfl, hr⟩ | ⟨r, rfl, hr⟩ := List.append_eq_append_iff.mp h
        · refine .inl (splits_of_append ?_ hr)
          rintro rfl
          exact hn (List.append_nil n).symm
        · refine .inr (splits_of_append ?_ hr)
          rintro rfl
          exact hn (List.append_nil n')

theorem Splits.exists_mem (h : Splits s p q) : ∃ n ∈ q, s ∈ n := by
  obtain ⟨above, n, below, m, below', rfl, rfl, -⟩ := h
  exact ⟨n ++ s :: m, by simp, by simp⟩

end Spelling
