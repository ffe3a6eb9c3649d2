import Mathlib.Data.List.DropRight

/-!
# Scanning

Lists without the blanks at their ends, and lists cut at a delimiter that an escape hides.
-/

namespace Scan

variable {α : Type*}

section Strip

variable {p : α → Bool} {l a b : List α}

/-- The list does not start or end with a blank. -/
def Trimmed (p : α → Bool) (l : List α) : Prop :=
  (∀ x ∈ l.head?, p x = false) ∧ ∀ x ∈ l.getLast?, p x = false

instance (p : α → Bool) (l : List α) : Decidable (Trimmed p l) :=
  inferInstanceAs (Decidable (_ ∧ _))

/-- The list without the blanks at its ends. -/
def strip (p : α → Bool) (l : List α) : List α := (l.dropWhile p).rdropWhile p

theorem dropWhile_append_of_all (h : ∀ x ∈ a, p x) : (a ++ l).dropWhile p = l.dropWhile p := by
  rw [List.dropWhile_append, List.dropWhile_eq_nil_iff.mpr h]
  rfl

theorem rdropWhile_append_of_all (h : ∀ x ∈ b, p x) :
    (l ++ b).rdropWhile p = l.rdropWhile p := by
  rw [List.rdropWhile, List.reverse_append, dropWhile_append_of_all (by simpa using h),
    List.rdropWhile]

/-- Nothing in front of something else than a blank is dropped at the end. -/
theorem rdropWhile_append_cons {x : α} (h : p x = false) :
    (a ++ x :: b).rdropWhile p = a ++ x :: b.rdropWhile p := by
  induction b using List.reverseRecOn with
  | nil => exact List.rdropWhile_concat_neg p a x (by simp [h])
  | append_singleton b y ih =>
    rw [← List.cons_append, ← List.append_assoc, List.rdropWhile_concat, List.rdropWhile_concat,
      ih]
    split
    · rfl
    · rw [List.append_assoc, List.cons_append]

@[simp] theorem strip_nil : strip p [] = [] := rfl

theorem strip_append_left (h : ∀ x ∈ a, p x) : strip p (a ++ l) = strip p l := by
  rw [strip, dropWhile_append_of_all h, strip]

theorem strip_eq_nil_of_all (h : ∀ x ∈ l, p x) : strip p l = [] := by
  rw [strip, List.dropWhile_eq_nil_iff.mpr h, List.rdropWhile_nil]

theorem strip_cons {x : α} (h : p x = false) : strip p (x :: l) = (x :: l).rdropWhile p := by
  rw [strip, List.dropWhile_cons_of_neg (by simp [h])]

theorem strip_append_right (h : ∀ x ∈ b, p x) : strip p (l ++ b) = strip p l := by
  rw [strip, List.dropWhile_append]
  split
  · rename_i hl
    rw [List.isEmpty_iff] at hl
    rw [strip, hl, List.dropWhile_eq_nil_iff.mpr h]
  · rw [rdropWhile_append_of_all h, strip]

theorem strip_of_trimmed (h : Trimmed p l) : strip p l = l := by
  cases l with
  | nil => rfl
  | cons x l =>
    rw [strip_cons (h.1 x rfl), List.rdropWhile_eq_self_iff]
    intro hl
    simp [h.2 _ (List.getLast?_eq_some_getLast hl)]

theorem trimmed_strip : Trimmed p (strip p l) := by
  constructor
  · intro x hx
    obtain ⟨t, ht⟩ := List.rdropWhile_prefix p (l := l.dropWhile p)
    have hhead : x ∈ (l.dropWhile p).head? := by
      rw [← ht]
      exact List.mem_head?_append_of_mem_head? hx
    have := List.head?_dropWhile_not p l
    rw [Option.mem_def.mp hhead] at this
    simpa using this
  · intro x hx
    obtain ⟨hl, rfl⟩ := List.mem_getLast?_eq_getLast hx
    exact Bool.eq_false_iff.mpr (List.rdropWhile_last_not p (l.dropWhile p) hl)

theorem exists_eq_strip (p : α → Bool) (l : List α) :
    ∃ a b, l = a ++ (strip p l ++ b) ∧ (∀ x ∈ a, p x) ∧ ∀ x ∈ b, p x := by
  refine ⟨l.takeWhile p, (l.dropWhile p).rtakeWhile p, ?_, fun x => List.mem_takeWhile_imp,
    fun x => List.mem_rtakeWhile_imp⟩
  rw [strip, List.rdropWhile_append_rtakeWhile, List.takeWhile_append_dropWhile]

end Strip

section Cut

variable {esc c x : α} {prev : Option α} {l a b : List α}

theorem getLast?_or_ne (he : esc ∉ a) (hp : prev ≠ some esc) :
    a.getLast?.or prev ≠ some esc := by
  cases hl : a.getLast? with
  | none => rwa [Option.none_or]
  | some y =>
    rw [Option.some_or]
    rintro ⟨⟩
    exact he (List.mem_of_getLast? hl)

variable [DecidableEq α]

/-- The list before and after the first `c` that `esc` does not precede. The element before the
list is `prev`. -/
def cut (esc c : α) : Option α → List α → Option (List α × List α)
  | _, [] => none
  | prev, x :: l =>
    if x = c ∧ prev ≠ some esc then some ([], l)
    else (cut esc c (some x) l).map fun (a, b) => (x :: a, b)

theorem eq_of_cut (h : cut esc c prev l = some (a, b)) : l = a ++ c :: b := by
  induction l generalizing prev a with
  | nil => cases h
  | cons x l ih =>
    rw [cut] at h
    split at h
    · rename_i hx
      cases h
      rw [hx.1, List.nil_append]
    · obtain ⟨⟨a, b⟩, hl, h⟩ := Option.map_eq_some_iff.mp h
      cases h
      rw [ih hl, List.cons_append]

theorem cut_of_notMem (h : c ∉ l) : cut esc c prev l = none := by
  induction l generalizing prev with
  | nil => rfl
  | cons x l ih =>
    rw [List.mem_cons, not_or] at h
    rw [cut, if_neg fun hx => h.1 hx.1.symm, ih h.2, Option.map_none]

theorem cut_append (h : c ∉ a) :
    cut esc c prev (a ++ l) =
      (cut esc c (a.getLast?.or prev) l).map fun (d, b) => (a ++ d, b) := by
  induction a generalizing prev with
  | nil => simp
  | cons x a ih =>
    rw [List.mem_cons, not_or] at h
    rw [List.cons_append, cut, if_neg fun hx => h.1 hx.1.symm, ih h.2, Option.map_map]
    congr 2
    cases a with
    | nil => rfl
    | cons y a => rw [List.getLast?_cons_cons, List.getLast?_cons, Option.some_or, Option.some_or]

theorem cut_unescaped (h : c ∉ a) (hp : a.getLast?.or prev ≠ some esc) :
    cut esc c prev (a ++ c :: b) = some (a, b) := by
  rw [cut_append h, cut, if_pos ⟨rfl, hp⟩, Option.map_some]
  exact congrArg (fun d => some (d, b)) (List.append_nil a)

theorem cut_escaped (h : c ∉ a) (hp : a.getLast?.or prev = some esc) :
    cut esc c prev (a ++ c :: b) =
      (cut esc c (some c) b).map fun (d, e) => (a ++ c :: d, e) := by
  rw [cut_append h, cut, if_neg fun hx => hx.2 hp, Option.map_map]
  rfl

theorem cut_of_ne (hp : prev ≠ some esc) : cut esc c prev l = cut esc c none l := by
  cases l with
  | nil => rfl
  | cons x l => simp only [cut, hp, ne_eq, not_false_eq_true, and_true, reduceCtorEq]

theorem cut_append_right (h : c ∉ b) :
    cut esc c prev (l ++ b) = (cut esc c prev l).map fun (d, e) => (d, e ++ b) := by
  induction l generalizing prev with
  | nil => rw [List.nil_append, cut_of_notMem h, cut, Option.map_none]
  | cons x l ih =>
    rw [List.cons_append, cut, cut, ih]
    split
    · rfl
    · rw [Option.map_map, Option.map_map]
      rfl

theorem cut_append_cons (h : c ∉ a) (he : esc ∉ a) (hp : prev ≠ some esc) :
    cut esc c prev (a ++ c :: b) = some (a, b) := cut_unescaped h (getLast?_or_ne he hp)

end Cut

end Scan
