import Mathlib.Algebra.Order.BigOperators.Group.Finset
import Mathlib.Data.Prod.Lex

/-!
# Measures over the members of a system

The measure of a system is the sum of those of its members, so a step of one member that takes
something off its measure takes something off that of the system.
-/

namespace Measure

variable {T α : Type*} [DecidableEq T] {ts : Finset T} {f : T → α} {i : T} {x : α} {g : α → ℕ}

theorem sum_update_le (h : g x ≤ g (f i)) :
    ∑ j ∈ ts, g (Function.update f i x j) ≤ ∑ j ∈ ts, g (f j) := by
  refine Finset.sum_le_sum fun j _ => ?_
  by_cases hj : j = i
  · rw [hj, Function.update_self]
    exact h
  · rw [Function.update_of_ne hj]

theorem sum_update_lt (hi : i ∈ ts) (h : g x < g (f i)) :
    ∑ j ∈ ts, g (Function.update f i x j) < ∑ j ∈ ts, g (f j) := by
  refine Finset.sum_lt_sum (fun j _ => ?_) ⟨i, hi, by rw [Function.update_self]; exact h⟩
  by_cases hj : j = i
  · rw [hj, Function.update_self]
    exact h.le
  · rw [Function.update_of_ne hj]

/-- The first of three measures that changes goes down. -/
theorem lex_lt {a a' b b' c c' : ℕ}
    (h : a' < a ∨ a' ≤ a ∧ (b' < b ∨ b' ≤ b ∧ c' < c)) :
    (toLex (a', toLex (b', c')) : ℕ ×ₗ ℕ ×ₗ ℕ) < toLex (a, toLex (b, c)) := by
  simp only [Prod.Lex.toLex_lt_toLex]
  omega

theorem lex_lt_pair {a a' b b' : ℕ} (h : a' < a ∨ a' ≤ a ∧ b' < b) :
    (toLex (a', b') : ℕ ×ₗ ℕ) < toLex (a, b) := by
  simp only [Prod.Lex.toLex_lt_toLex]
  omega

end Measure
