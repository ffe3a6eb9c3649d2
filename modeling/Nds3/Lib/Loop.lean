import Mathlib.Data.List.Induction

/-!
# Loops of a program that may throw

A turn of a loop ends it with a result (`inl`), goes on with another state (`inr`), or throws. A
loop that counts is a `foldlM` over a range. The rule for each carries an invariant, and says that
the loop comes to its end.
-/

namespace Loop

variable {ε ρ σ : Type*}

/-- At most `n` turns of a loop; `none` when they do not suffice. -/
def run (turn : σ → Except ε (ρ ⊕ σ)) : Nat → σ → Option (Except ε ρ)
  | 0, _ => none
  | n + 1, s =>
    match turn s with
    | .error e => some (.error e)
    | .ok (.inl r) => some (.ok r)
    | .ok (.inr s) => run turn n s

/-- A loop whose turns keep `I` and let `variant` fall ends with `Q`, after no more turns than
`variant` says. -/
theorem run_of_variant {turn : σ → Except ε (ρ ⊕ σ)} {I : σ → Prop} {Q : ρ → Prop}
    (variant : σ → Nat)
    (hturn : ∀ s, I s → (∃ r, turn s = .ok (.inl r) ∧ Q r) ∨
      ∃ s', turn s = .ok (.inr s') ∧ I s' ∧ variant s' < variant s)
    {s : σ} (hs : I s) : ∃ r, Q r ∧ ∀ n, variant s < n → run turn n s = some (.ok r) := by
  induction hv : variant s using Nat.strongRecOn generalizing s with
  | ind v ih =>
    subst hv
    obtain ⟨r, hr, hq⟩ | ⟨s', hs', hI, hless⟩ := hturn s hs
    · refine ⟨r, hq, fun n hn => ?_⟩
      obtain ⟨m, rfl⟩ := Nat.exists_eq_succ_of_ne_zero (Nat.ne_zero_of_lt hn)
      rw [run, hr]
    · obtain ⟨r, hq, hrun⟩ := ih (variant s') hless hI rfl
      refine ⟨r, hq, fun n hn => ?_⟩
      obtain ⟨m, rfl⟩ := Nat.exists_eq_succ_of_ne_zero (Nat.ne_zero_of_lt hn)
      rw [run, hs']
      exact hrun m (by omega)

/-- A loop from 0 to `n` whose turn `k` leads from `I k` to `I (k + 1)` ends with `I n`. -/
theorem foldlM_range {f : σ → Nat → Except ε σ} {I : Nat → σ → Prop} {n : Nat} {s : σ}
    (h0 : I 0 s)
    (hstep : ∀ k < n, ∀ s, I k s → ∃ s', f s k = .ok s' ∧ I (k + 1) s') :
    ∃ s', (List.range n).foldlM f s = .ok s' ∧ I n s' := by
  induction n with
  | zero => exact ⟨s, rfl, h0⟩
  | succ n ih =>
    obtain ⟨s1, hs1, hI1⟩ := ih fun k hk => hstep k (by omega)
    obtain ⟨s2, hs2, hI2⟩ := hstep n (by omega) s1 hI1
    refine ⟨s2, ?_, hI2⟩
    rw [List.range_succ, List.foldlM_append, hs1]
    simp only [bind, Except.bind, List.foldlM_cons, hs2]
    rfl

/-! ## What the last turn leaves -/

section

variable {α β : Type*}

/-- `x` is what `f` reads off the last element that it reads anything off. It is given the elements
before, too. -/
def Last (f : List α → α → Option β) (l : List α) (x : β) : Prop :=
  ∃ l₁ e l₂, l = l₁ ++ e :: l₂ ∧ f l₁ e = some x ∧
    ∀ l₃ e' l₄, l₂ = l₃ ++ e' :: l₄ → f (l₁ ++ e :: l₃) e' = none

variable {f : List α → α → Option β} {l : List α} {x : β}

theorem not_last_nil : ¬ Last f [] x := by
  rintro ⟨l₁, e, l₂, h, -⟩
  simp at h

theorem last_concat {e : α} :
    Last f (l ++ [e]) x ↔ f l e = some x ∨ f l e = none ∧ Last f l x := by
  constructor
  · rintro ⟨l₁, e₁, l₂, hl, hx, hnone⟩
    rcases List.eq_nil_or_concat l₂ with rfl | ⟨l₃, e₃, rfl⟩
    · obtain ⟨rfl, he₁⟩ := List.append_inj' hl rfl
      cases he₁
      exact .inl hx
    · have hl' : l ++ [e] = (l₁ ++ e₁ :: l₃) ++ [e₃] := by simpa using hl
      obtain ⟨rfl, he₃⟩ := List.append_inj' hl' rfl
      cases he₃
      refine .inr ⟨hnone l₃ e [] (by simp), l₁, e₁, l₃, rfl, hx, fun l₄ e' l₅ h => ?_⟩
      exact hnone l₄ e' (l₅ ++ [e]) (by simp [h])
  · rintro (hx | ⟨he, l₁, e₁, l₂, rfl, hx, hnone⟩)
    · exact ⟨l, e, [], rfl, hx, fun l₃ e' l₄ h => by simp at h⟩
    · refine ⟨l₁, e₁, l₂ ++ [e], by simp, hx, fun l₃ e' l₄ h => ?_⟩
      rcases List.eq_nil_or_concat l₄ with rfl | ⟨l₅, e₅, rfl⟩
      · obtain ⟨rfl, he'⟩ := List.append_inj' h rfl
        cases he'
        exact he
      · have h' : l₂ ++ [e] = (l₃ ++ e' :: l₅) ++ [e₅] := by simpa using h
        obtain ⟨rfl, -⟩ := List.append_inj' h' rfl
        exact hnone l₃ e' l₅ rfl

/-- A loop that in each turn sets a value to what `f` reads, or leaves it, ends with what `f` has
read last. -/
theorem foldl_eq_some_iff (value : σ → Option β) {turn : σ → α → σ} {s : σ} (h0 : value s = none)
    (hturn : ∀ l e, value (turn (l.foldl turn s) e) = (f l e).or (value (l.foldl turn s))) :
    value (l.foldl turn s) = some x ↔ Last f l x := by
  induction l using List.reverseRecOn with
  | nil => exact iff_of_false (by simp [h0]) not_last_nil
  | append_singleton l e ih =>
    rw [List.foldl_append, List.foldl_cons, List.foldl_nil, hturn, last_concat, ← ih]
    cases f l e <;> simp

end

end Loop
