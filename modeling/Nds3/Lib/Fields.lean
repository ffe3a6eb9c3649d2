import Mathlib.Data.List.Basic

/-!
# Fields

A list separated into fields. A separator between quotes separates nothing; the quotes belong to the
field they are in. Empty fields are dropped.
-/

namespace Fields

variable {α : Type*}

/-- The field, unless it is empty. -/
def nonempty (field : List α) : List (List α) :=
  match field with
  | [] => []
  | x :: field => [x :: field]

theorem nonempty_of_ne {field : List α} (h : field ≠ []) : nonempty field = [field] := by
  cases field with
  | nil => exact absurd rfl h
  | cons x field => rfl

section

variable [DecidableEq α] (separator quote : α → Bool)

/-- The fields of a list when `field` is what has been read of the first one, and a quote may be
open. -/
def fieldsFrom : Option α → List α → List α → List (List α)
  | _, field, [] => nonempty field
  | some q, field, x :: l => fieldsFrom (if x = q then none else some q) (field ++ [x]) l
  | none, field, x :: l =>
    if quote x then fieldsFrom (some x) (field ++ [x]) l
    else if separator x then nonempty field ++ fieldsFrom none [] l
    else fieldsFrom none (field ++ [x]) l

/-- The fields of a list. -/
def fields (l : List α) : List (List α) := fieldsFrom separator quote none [] l

/-- Every quote is closed in the field, and every separator is between quotes. -/
inductive Whole : List α → Prop where
  | nil : Whole []
  | cons {x : α} {l : List α} (hs : separator x = false) (hq : quote x = false) (h : Whole l) :
      Whole (x :: l)
  | quoted {q : α} {l l' : List α} (hq : quote q = true) (hl : q ∉ l) (h : Whole l') :
      Whole (q :: (l ++ q :: l'))

end

/-- The list has these fields with a separator between every two of them. -/
inductive Joined (separator : α → Bool) : List (List α) → List α → Prop where
  | nil : Joined separator [] []
  | last (field : List α) : Joined separator [field] field
  | cons {x : α} {field l : List α} {fs : List (List α)} (hx : separator x = true)
      (hne : fs ≠ []) (h : Joined separator fs l) :
      Joined separator (field :: fs) (field ++ x :: l)

section

variable {separator quote : α → Bool} {field w l : List α}

theorem Joined.forall_mem {p : α → Prop} {fs : List (List α)} (h : Joined separator fs l)
    (hsep : ∀ x, separator x = true → p x) (hfs : ∀ f ∈ fs, ∀ x ∈ f, p x) : ∀ x ∈ l, p x := by
  induction h with
  | nil => exact fun x hx => absurd hx List.not_mem_nil
  | last f => exact hfs f (List.mem_singleton_self f)
  | @cons y f l fs hy _ _ ih =>
    intro x hx
    obtain hx | hx := List.mem_append.mp hx
    · exact hfs f (List.mem_cons_self ..) x hx
    obtain rfl | hx := List.mem_cons.mp hx
    · exact hsep x hy
    · exact ih (fun f hf => hfs f (List.mem_cons_of_mem _ hf)) x hx

theorem Whole.of_forall (h : ∀ x ∈ w, separator x = false ∧ quote x = false) :
    Whole separator quote w := by
  induction w with
  | nil => exact .nil
  | cons x w ih =>
    obtain ⟨hs, hq⟩ := h x (List.mem_cons_self ..)
    exact .cons hs hq (ih fun y hy => h y (List.mem_cons_of_mem _ hy))

variable [DecidableEq α]

theorem fieldsFrom_open {q : α} (h : q ∉ w) :
    fieldsFrom separator quote (some q) field (w ++ q :: l) =
      fieldsFrom separator quote none (field ++ w ++ [q]) l := by
  induction w generalizing field with
  | nil => rw [List.nil_append, fieldsFrom, if_pos rfl, List.append_nil]
  | cons x w ih =>
    rw [List.mem_cons, not_or] at h
    rw [List.cons_append, fieldsFrom, if_neg (Ne.symm h.1), ih h.2, List.append_assoc field,
      List.singleton_append]

theorem Whole.fieldsFrom_append (h : Whole separator quote w) :
    fieldsFrom separator quote none field (w ++ l) =
      fieldsFrom separator quote none (field ++ w) l := by
  induction h generalizing field with
  | nil => rw [List.nil_append, List.append_nil]
  | @cons x w hs hq _ ih =>
    rw [List.cons_append, fieldsFrom, if_neg (by simp [hq]), if_neg (by simp [hs]), ih,
      List.append_assoc, List.singleton_append]
  | @quoted q w w' hq hw _ ih =>
    rw [List.cons_append, fieldsFrom, if_pos hq, List.append_assoc, List.cons_append,
      fieldsFrom_open hw, ih]
    simp

theorem Whole.fields_eq (h : Whole separator quote w) : fields separator quote w = nonempty w := by
  have : fieldsFrom separator quote none [] (w ++ []) =
      fieldsFrom separator quote none ([] ++ w) [] := h.fieldsFrom_append
  rwa [List.append_nil, List.nil_append] at this

theorem Whole.fields_append {x : α} (h : Whole separator quote w) (hx : separator x = true)
    (hq : quote x = false) :
    fields separator quote (w ++ x :: l) = nonempty w ++ fields separator quote l := by
  rw [fields, h.fieldsFrom_append, List.nil_append, fieldsFrom, if_neg (by simp [hq]), if_pos hx,
    fields]

/-- **Whole fields come back** from the list they are joined to. -/
theorem fields_of_joined {fs : List (List α)} (hsep : ∀ x, separator x = true → quote x = false)
    (h : Joined separator fs l) (hfs : ∀ f ∈ fs, Whole separator quote f ∧ f ≠ []) :
    fields separator quote l = fs := by
  induction h with
  | nil => rfl
  | last f =>
    obtain ⟨hw, hne⟩ := hfs f (List.mem_singleton_self f)
    rw [hw.fields_eq, nonempty_of_ne hne]
  | @cons x f l fs hx _ _ ih =>
    obtain ⟨hw, hne⟩ := hfs f (List.mem_cons_self ..)
    rw [hw.fields_append hx (hsep x hx), nonempty_of_ne hne,
      ih fun f hf => hfs f (List.mem_cons_of_mem _ hf), List.singleton_append]

end

end Fields
