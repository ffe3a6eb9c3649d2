import Nds3.Tree.Naming

/-!
# Separators

The separator of a level is that of the last level before it that the rules define, but
`getSeparator` looks no further than the level itself when the rules start below level 1.
-/

namespace Nds3

namespace Naming

/-- The value of `separatork` in a section. -/
def separatorOf (keys : AList fun _ : String => String) (k : Nat) : Option String :=
  keys.lookup ("separator" ++ toString k)

variable {keys : AList fun _ : String => String} {getDefaultSeparator : Nat → String}
  {n : Nat} {s : String}

/-- The separator of a level: that of the last defined level that is not deeper, or the default
one. -/
inductive Inherits (keys : AList fun _ : String => String) (getDefaultSeparator : Nat → String)
    (n : Nat) (s : String) : Prop
  | defined (k : Nat) (hk : k ≤ n) (hs : separatorOf keys k = some s)
    (hlast : ∀ j, k < j → j ≤ n → separatorOf keys j = none)
  | default (hnone : ∀ k ≤ n, separatorOf keys k = none) (hs : s = getDefaultSeparator n)

/-- The levels where the shortcut makes no difference: a separator is defined for level 0 or 1, for
the level itself, for none before it, or the last one before it is the default one. -/
def ShortcutAgrees (keys : AList fun _ : String => String) (getDefaultSeparator : Nat → String)
    (n : Nat) : Prop :=
  (separatorOf keys 0).isSome ∨ (separatorOf keys 1).isSome ∨ (separatorOf keys n).isSome ∨
    (∀ k < n, separatorOf keys k = none) ∨
    ∃ k < n, separatorOf keys k = some (getDefaultSeparator n) ∧
      ∀ j, k < j → j < n → separatorOf keys j = none

theorem Inherits.of_self (h : separatorOf keys n = some s) :
    Inherits keys getDefaultSeparator n s :=
  .defined n (le_refl n) h fun j hj hjn => absurd hj (by omega)

theorem Inherits.succ {k : Nat} (hk : k ≤ n) (hs : separatorOf keys k = some s)
    (hlast : ∀ j, k < j → j ≤ n → separatorOf keys j = none)
    (hnone : separatorOf keys (n + 1) = none) : Inherits keys getDefaultSeparator (n + 1) s := by
  refine .defined k (by omega) hs fun j hj hjn => ?_
  obtain rfl | hlt := Nat.eq_or_lt_of_le hjn
  · exact hnone
  · exact hlast j hj (by omega)

section Active

variable {cs : Naming} {rules : Sections}

theorem getSeparator_zero (ha : cs.active = some rules)
    (hk : rules.lookup cs.namingRulesName = some keys) :
    cs.getSeparator 0 = .ok ((separatorOf keys 0).getD (cs.getDefaultSeparator 0)) := by
  unfold getSeparator
  rw [ha]
  simp only [Sections.getString, hk]
  rfl

theorem getSeparator_succ (ha : cs.active = some rules)
    (hk : rules.lookup cs.namingRulesName = some keys) (hs : cs.getSeparator n = .ok s) :
    cs.getSeparator (n + 1) = .ok ((separatorOf keys (n + 1)).getD
      (if (separatorOf keys 1).isSome || (separatorOf keys 0).isSome then s
        else cs.getDefaultSeparator (n + 1))) := by
  have hkey : "separator" ++ toString (n + 1) ≠ "" := by
    rw [ne_eq, String.append_eq_empty_iff, not_and]
    exact fun h => absurd h (by decide)
  unfold getSeparator
  rw [ha]
  simp only [Sections.getString, Sections.keyExists, hk, hs, bind, Except.bind, if_neg hkey]
  split
  · next h =>
    rw [show (separatorOf keys 1).isSome || (separatorOf keys 0).isSome from h, if_pos rfl]
    rfl
  · next h =>
    rw [show ((separatorOf keys 1).isSome || (separatorOf keys 0).isSome) = false from
      Bool.eq_false_iff.mpr h]
    rfl

/-- When level 0 or 1 has a separator, every level inherits, by induction on the level. -/
theorem getSeparator_of_started (ha : cs.active = some rules)
    (hk : rules.lookup cs.namingRulesName = some keys)
    (hstart : (separatorOf keys 0).isSome ∨ (separatorOf keys 1).isSome) (n : Nat) :
    ∃ s, cs.getSeparator n = .ok s ∧ Inherits keys cs.getDefaultSeparator n s := by
  induction n with
  | zero =>
    refine ⟨_, getSeparator_zero ha hk, ?_⟩
    cases h : separatorOf keys 0 with
    | some s => exact .of_self h
    | none => exact .default (fun k hk => Nat.le_zero.mp hk ▸ h) rfl
  | succ n ih =>
    obtain ⟨s, hs, hin⟩ := ih
    refine ⟨_, getSeparator_succ ha hk hs, ?_⟩
    cases h : separatorOf keys (n + 1) with
    | some s => exact .of_self h
    | none =>
      rw [if_pos (by simpa [or_comm] using hstart), Option.getD_none]
      cases hin with
      | defined k hk hs hlast => exact .succ hk hs hlast h
      | default hnone hs =>
        -- Then level 1 is the first one, and it has a separator.
        rw [hnone 0 (Nat.zero_le n)] at hstart
        obtain h0 | h1 := hstart
        · cases h0
        · cases n with
          | zero =>
            rw [h] at h1
            cases h1
          | succ n =>
            rw [hnone 1 (by omega)] at h1
            cases h1

theorem getSeparator_of_not_started (ha : cs.active = some rules)
    (hk : rules.lookup cs.namingRulesName = some keys) (h0 : separatorOf keys 0 = none)
    (h1 : separatorOf keys 1 = none) (n : Nat) :
    cs.getSeparator n = .ok ((separatorOf keys n).getD (cs.getDefaultSeparator n)) := by
  induction n with
  | zero => exact getSeparator_zero ha hk
  | succ n ih =>
    rw [getSeparator_succ ha hk ih, h0, h1]
    rfl

/-- `getSeparator` gives the separator of the last defined level exactly where the shortcut makes no
difference. -/
theorem getSeparator_inherits_iff (cs : Naming) (rules : Sections)
    (keys : AList fun _ : String => String) (ha : cs.active = some rules)
    (hk : rules.lookup cs.namingRulesName = some keys) (n : Nat) :
    (∃ s, cs.getSeparator n = .ok s ∧ Inherits keys cs.getDefaultSeparator n s) ↔
      ShortcutAgrees keys cs.getDefaultSeparator n := by
  unfold ShortcutAgrees
  by_cases hstart : (separatorOf keys 0).isSome ∨ (separatorOf keys 1).isSome
  · refine iff_of_true (getSeparator_of_started ha hk hstart n) ?_
    exact hstart.elim .inl fun h => .inr (.inl h)
  · obtain ⟨h0, h1⟩ := not_or.mp hstart
    rw [← or_assoc, or_iff_right hstart]
    rw [Option.not_isSome_iff_eq_none] at h0 h1
    rw [getSeparator_of_not_started ha hk h0 h1]
    cases h : separatorOf keys n with
    | some s => exact iff_of_true ⟨s, rfl, .of_self h⟩ (.inl rfl)
    | none =>
      rw [Option.getD_none, Option.isSome_none, Bool.false_eq_true, false_or]
      constructor
      · rintro ⟨s, hs, hin⟩
        obtain rfl := Except.ok.inj hs
        cases hin with
        | defined k hk hs hlast =>
          refine .inr ⟨k, Nat.lt_of_le_of_ne hk ?_, hs, fun j hj hjn => hlast j hj hjn.le⟩
          rintro rfl
          rw [h] at hs
          cases hs
        | default hnone hs => exact .inl fun k hk => hnone k hk.le
      · have hupto {k : Nat} (hlast : ∀ j, k ≤ j → j < n → separatorOf keys j = none) (j : Nat)
            (hj : k ≤ j) (hjn : j ≤ n) : separatorOf keys j = none := by
          obtain rfl | hlt := Nat.eq_or_lt_of_le hjn
          · exact h
          · exact hlast j hj hlt
        refine fun hor => ⟨_, rfl, ?_⟩
        obtain hnone | ⟨k, hk, hs, hlast⟩ := hor
        · exact .default (fun k hk => hupto (fun j _ => hnone j) k (Nat.zero_le k) hk) rfl
        · exact .defined k hk.le hs (hupto hlast)

/-- A section with one key. -/
def oneKey (key value : String) : AList fun _ : String => String := AList.singleton key value

/-- The naming rules with one section of one key. -/
def oneRule (key value : String) : Naming :=
  ⟨some (AList.singleton "s" (oneKey key value)), "s", fun _ => "-"⟩

theorem getSeparator_inherits_three :
    ∃ s, (oneRule "separator1" "/").getSeparator 3 = .ok s ∧
      Inherits (oneKey "separator1" "/") (fun _ => "-") 3 s :=
  (getSeparator_inherits_iff (oneRule "separator1" "/") _ _ rfl rfl 3).mpr
    (.inr (.inl (by decide)))

/-- Only `separator2` is defined: level 3 does not inherit it. -/
theorem separator2_not_inherited : ¬ ∀ (cs : Naming) (rules : Sections)
    (keys : AList fun _ : String => String), cs.active = some rules →
      rules.lookup cs.namingRulesName = some keys → ∀ n, ∃ s, cs.getSeparator n = .ok s ∧
        Inherits keys cs.getDefaultSeparator n s := by
  intro h
  obtain ⟨s, hs, hin⟩ := h (oneRule "separator2" "/") _ (oneKey "separator2" "/") rfl rfl 3
  obtain rfl : "-" = s := Except.ok.inj hs
  cases hin with
  | defined k hk hs hlast =>
    have hno : ∀ k ≤ 3, separatorOf (oneKey "separator2" "/") k ≠ some "-" := by decide
    exact hno k hk hs
  | default hnone _ => exact absurd (hnone 2 (by decide)) (by decide)

end Active

end Naming

end Nds3
