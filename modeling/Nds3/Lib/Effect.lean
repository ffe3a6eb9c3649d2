import Mathlib.Logic.Basic

/-!
# Computations that keep their state when they fail

`EStateM ε σ α` without backtracking: a computation ends with a value or an error, and in both
cases with the state it has reached. `Moves R m` says that `m` takes every state to one related
to it, however it ends; for a preorder `R` it is enough that every part of `m` does so.
-/

namespace Effect

variable {ε σ α β : Type}

/-- The state a computation ends in. -/
def after (m : EStateM ε σ α) (s : σ) : σ :=
  match m s with
  | .ok _ s' => s'
  | .error _ s' => s'

theorem after_of_ok {m : EStateM ε σ α} {s s' : σ} {a : α} (h : m s = .ok a s') :
    after m s = s' := by
  rw [after, h]

theorem after_of_error {m : EStateM ε σ α} {s s' : σ} {e : ε} (h : m s = .error e s') :
    after m s = s' := by
  rw [after, h]

theorem bind_of_ok {m : EStateM ε σ α} {f : α → EStateM ε σ β} {s s' : σ} {a : α}
    (h : m s = .ok a s') : (m >>= f) s = f a s' := by
  simp only [bind, EStateM.bind, h]

theorem bind_of_error {m : EStateM ε σ α} {f : α → EStateM ε σ β} {s s' : σ} {e : ε}
    (h : m s = .error e s') : (m >>= f) s = .error e s' := by
  simp only [bind, EStateM.bind, h]

theorem bind_eq_ok {m : EStateM ε σ α} {f : α → EStateM ε σ β} {s s' : σ} {b : β} :
    (m >>= f) s = .ok b s' ↔ ∃ a s1, m s = .ok a s1 ∧ f a s1 = .ok b s' := by
  cases h : m s with
  | ok a s1 =>
    rw [bind_of_ok h]
    constructor
    · exact fun hf => ⟨a, s1, rfl, hf⟩
    · rintro ⟨a', s1', ha, hf⟩
      obtain ⟨rfl, rfl⟩ := EStateM.Result.ok.inj ha
      exact hf
  | error e s1 => simp [bind_of_error h]

theorem pure_eq_ok {a b : α} {s s' : σ} :
    (pure a : EStateM ε σ α) s = .ok b s' ↔ a = b ∧ s = s' := by
  simp [pure, EStateM.pure]

/-- Every state is taken to one related to it. -/
def Moves (R : σ → σ → Prop) (m : EStateM ε σ α) : Prop := ∀ s, R s (after m s)

section

variable {R : σ → σ → Prop}

theorem Moves.pure (hrefl : ∀ s, R s s) (a : α) : Moves R (pure a : EStateM ε σ α) :=
  fun s => hrefl s

theorem Moves.throw (hrefl : ∀ s, R s s) (e : ε) : Moves R (throw e : EStateM ε σ α) :=
  fun s => hrefl s

/-- What comes next moves on from where the first part has ended. -/
theorem Moves.after_bind (hrefl : ∀ s, R s s) {m : EStateM ε σ α} {f : α → EStateM ε σ β}
    (hf : ∀ a, Moves R (f a)) (s : σ) : R (after m s) (after (m >>= f) s) := by
  cases h : m s with
  | ok a s1 =>
    rw [after_of_ok h, after, bind_of_ok h]
    exact hf a s1
  | error e s1 =>
    rw [after_of_error h, after_of_error (bind_of_error h)]
    exact hrefl s1

theorem Moves.bind (hrefl : ∀ s, R s s) (htrans : ∀ s1 s2 s3, R s1 s2 → R s2 s3 → R s1 s3)
    {m : EStateM ε σ α} {f : α → EStateM ε σ β} (hm : Moves R m) (hf : ∀ a, Moves R (f a)) :
    Moves R (m >>= f) :=
  fun s => htrans _ _ _ (hm s) (Moves.after_bind hrefl hf s)

theorem Moves.forM (hrefl : ∀ s, R s s) (htrans : ∀ s1 s2 s3, R s1 s2 → R s2 s3 → R s1 s3)
    {f : α → EStateM ε σ PUnit} (hf : ∀ a, Moves R (f a)) (as : List α) :
    Moves R (forM as f) := by
  induction as with
  | nil => exact Moves.pure hrefl PUnit.unit
  | cons a as ih =>
    rw [List.forM_cons]
    exact Moves.bind hrefl htrans (hf a) fun _ => ih

end

end Effect
