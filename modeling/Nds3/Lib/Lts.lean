import Mathlib.Order.RelClasses

/-!
# Labelled systems and their runs

A system is a partial step function `step : σ → ε → Option σ`; `none` says that the label is
not enabled. `exec` replays a list of labels. `Reach step ok s₀ s` is a run from `s₀` to `s`
all of whose steps meet `ok`, a condition on the state before the step and on the label: the
assumptions of a property, or the restriction under which it holds.
-/

namespace Lts

variable {σ ε : Type*} {step : σ → ε → Option σ} {ok : σ → ε → Prop}

/-- Replay of a list of labels. -/
def exec (step : σ → ε → Option σ) : σ → List ε → Option σ
  | s, [] => some s
  | s, e :: es => (step s e).bind (exec step · es)

@[simp] theorem exec_singleton (s : σ) (e : ε) : exec step s [e] = step s e := by
  simp [exec]

/-- What is true of the labels so far and of the state, and stays true with each allowed label, is
true of every replay: of its labels and of the state it ends in. -/
theorem exec_history {s s' : σ} {l es : List ε} {allowed : ε → Prop} {I : List ε → σ → Prop}
    (h0 : I l s)
    (hstep : ∀ {es s e s'}, I es s → allowed e → step s e = some s' → I (es ++ [e]) s')
    (hes : ∀ e ∈ es, allowed e) (h : exec step s es = some s') : I (l ++ es) s' := by
  induction es generalizing l s with
  | nil =>
    simp only [exec, Option.some.injEq] at h
    rwa [List.append_nil, ← h]
  | cons e es ih =>
    obtain ⟨s1, hs1, h1⟩ := Option.bind_eq_some_iff.mp h
    rw [List.append_cons]
    exact ih (hstep h0 (hes e (List.mem_cons_self ..)) hs1)
      (fun x hx => hes x (List.mem_cons_of_mem _ hx)) h1

/-- What `f` reads off the last label that it reads anything off. -/
def latest {β : Type*} (f : ε → Option β) (es : List ε) : Option β := es.reverse.findSome? f

section

variable {β : Type*} (f : ε → Option β)

theorem latest_concat (es : List ε) (e : ε) :
    latest f (es ++ [e]) = (f e).or (latest f es) := by
  rw [latest, List.reverse_append, List.reverse_singleton, List.singleton_append,
    List.findSome?_cons]
  cases f e <;> rfl

end

/-- What `f` reads off the last step that it reads anything off: off its label and the state before
it. -/
def latestAt {β : Type*} (step : σ → ε → Option σ) (f : σ → ε → Option β) : σ → List ε → Option β
  | _, [] => none
  | s, e :: es => ((step s e).bind (latestAt step f · es)).or (f s e)

/-- Where each step leaves a value at what `f` reads off it, or as it was, a replay leaves it at
what `f` has read last. -/
theorem exec_latestAt {β : Type*} {f : σ → ε → Option β} (value : σ → β) (P : σ → Prop)
    (hP : ∀ {s e s'}, step s e = some s' → P s' → P s)
    (hstep : ∀ {s e s'}, step s e = some s' → P s' → value s' = (f s e).getD (value s))
    {s s' : σ} {es : List ε} (h : exec step s es = some s') (hs' : P s') :
    value s' = (latestAt step f s es).getD (value s) := by
  have hback : ∀ {s es}, exec step s es = some s' → P s := by
    intro s es h
    induction es generalizing s with
    | nil =>
      simp only [exec, Option.some.injEq] at h
      exact h ▸ hs'
    | cons e es ih =>
      obtain ⟨s1, hs1, h1⟩ := Option.bind_eq_some_iff.mp h
      exact hP hs1 (ih h1)
  induction es generalizing s with
  | nil =>
    simp only [exec, Option.some.injEq] at h
    rw [h]
    rfl
  | cons e es ih =>
    obtain ⟨s1, hs1, h1⟩ := Option.bind_eq_some_iff.mp h
    rw [ih h1, hstep hs1 (hback h1), latestAt, hs1, Option.bind_some]
    cases latestAt step f s1 es <;> rfl

/-- Runs all of whose steps meet `ok`. -/
inductive Reach (step : σ → ε → Option σ) (ok : σ → ε → Prop) (s₀ : σ) : σ → Prop where
  | refl : Reach step ok s₀ s₀
  | step {s s' : σ} {e : ε} : Reach step ok s₀ s → ok s e → step s e = some s' →
      Reach step ok s₀ s'

/-- What the initial state has and every allowed step keeps holds along every run. -/
theorem Reach.invariant {s₀ s : σ} {I : σ → Prop} (h : Reach step ok s₀ s) (h0 : I s₀)
    (hstep : ∀ {s s' e}, I s → ok s e → step s e = some s' → I s') : I s := by
  induction h with
  | refl => exact h0
  | step _ hok hs ih => exact hstep ih hok hs

theorem Reach.mono {s₀ s : σ} {ok' : σ → ε → Prop} (h : Reach step ok s₀ s)
    (hok : ∀ s e, ok s e → ok' s e) : Reach step ok' s₀ s := by
  induction h with
  | refl => exact .refl
  | step _ he hs ih => exact ih.step (hok _ _ he) hs

/-- Every step of the replay meets `ok`. -/
def Meets (step : σ → ε → Option σ) (ok : σ → ε → Prop) : σ → List ε → Prop
  | _, [] => True
  | s, e :: es => ok s e ∧ ∀ s', step s e = some s' → Meets step ok s' es

theorem Meets.of_forall {s : σ} {es : List ε} (h : ∀ s, ∀ e ∈ es, ok s e) : Meets step ok s es := by
  induction es generalizing s with
  | nil => trivial
  | cons e es ih =>
    refine ⟨h s e (List.mem_cons_self ..), fun _ _ => ih fun s x hx => ?_⟩
    exact h s x (List.mem_cons_of_mem _ hx)

theorem Meets.append {s : σ} {es es' : List ε} (h : Meets step ok s es)
    (h' : ∀ s', exec step s es = some s' → Meets step ok s' es') : Meets step ok s (es ++ es') := by
  induction es generalizing s with
  | nil => exact h' s rfl
  | cons e es ih =>
    refine ⟨h.1, fun s1 hs1 => ih (h.2 s1 hs1) fun s' hs' => h' s' ?_⟩
    exact Option.bind_eq_some_iff.mpr ⟨s1, hs1, hs'⟩

/-- A replay whose steps meet `ok` extends a run. -/
theorem Reach.exec {s₀ s s' : σ} (h : Reach step ok s₀ s) (es : List ε)
    (hm : Meets step ok s es) (he : exec step s es = some s') : Reach step ok s₀ s' := by
  induction es generalizing s with
  | nil =>
    simp only [Lts.exec, Option.some.injEq] at he
    exact he ▸ h
  | cons e es ih =>
    obtain ⟨s1, hs1, he1⟩ := Option.bind_eq_some_iff.mp he
    exact ih (h.step hm.1 hs1) (hm.2 s1 hs1) he1

/-- Where each step keeps `P` exactly when it meets `ok`, a replay keeps `P` exactly when all its
steps meet `ok`. The steps are those with an allowed label from a state with the invariant `I`. -/
theorem exec_iff_meets {s s' : σ} {es : List ε} {I P : σ → Prop} {allowed : ε → Prop}
    (hI : ∀ {s e s'}, I s → allowed e → step s e = some s' → I s' ∧ (P s' ↔ P s ∧ ok s e))
    (hs : I s) (hes : ∀ e ∈ es, allowed e) (he : exec step s es = some s') :
    I s' ∧ (P s' ↔ P s ∧ Meets step ok s es) := by
  induction es generalizing s with
  | nil =>
    simp only [Lts.exec, Option.some.injEq] at he
    simpa [← he, Meets] using hs
  | cons e es ih =>
    obtain ⟨s1, hs1, he1⟩ := Option.bind_eq_some_iff.mp he
    obtain ⟨hI1, hP1⟩ := hI hs (hes e (List.mem_cons_self ..)) hs1
    obtain ⟨hI', hP'⟩ := ih hI1 (fun e he => hes e (List.mem_cons_of_mem _ he)) he1
    refine ⟨hI', ?_⟩
    rw [hP', hP1, and_assoc, Meets]
    refine and_congr_right fun _ => and_congr_right fun _ => ?_
    constructor
    · rintro h s2 hs2
      rw [hs1, Option.some.injEq] at hs2
      exact hs2 ▸ h
    · exact fun h => h s1 hs1

/-! ## Coming to an end -/

section

variable {α : Type*} [LT α] [WellFoundedLT α] {allowed : ε → Prop} {done I : σ → Prop} {m : σ → α}
  {s : σ}

/-- Where some allowed step goes down until the system is done, some replay gets it done. -/
theorem exists_exec
    (hstep : ∀ s, I s → ¬ done s → ∃ e s', allowed e ∧ step s e = some s' ∧ I s' ∧ m s' < m s)
    (h : I s) : ∃ es s', (∀ e ∈ es, allowed e) ∧ exec step s es = some s' ∧ I s' ∧ done s' := by
  generalize hm : m s = n
  induction n using WellFoundedLT.induction generalizing s with
  | ind n ih =>
    subst hm
    by_cases hd : done s
    · exact ⟨[], s, (fun _ he => by cases he), rfl, h, hd⟩
    · obtain ⟨e, s1, he, hs1, h1, hlt⟩ := hstep s h hd
      obtain ⟨es, s', hes, hexec, h'⟩ := ih _ hlt h1 rfl
      refine ⟨e :: es, s', ?_, Option.bind_eq_some_iff.mpr ⟨s1, hs1, hexec⟩, h'⟩
      intro x hx
      rcases List.mem_cons.mp hx with rfl | hx
      · exact he
      · exact hes x hx

/-- Whatever allowed steps are taken, the system comes to an end, and until it is done it can take
one of those by which it `goes` on. -/
inductive Completes (step : σ → ε → Option σ) (allowed goes : ε → Prop) (done : σ → Prop) :
    σ → Prop where
  | intro {s : σ}
      (hstep : ∀ e s', allowed e → step s e = some s' → Completes step allowed goes done s')
      (hend : (∀ e, goes e → step s e = none) → done s) : Completes step allowed goes done s

/-- Where every allowed step goes down, and one by which it goes on is there until it is done. -/
theorem completes_of_measure {goes : ε → Prop}
    (hstep : ∀ {s e s'}, I s → allowed e → step s e = some s' → I s' ∧ m s' < m s)
    (hend : ∀ s, I s → ¬ done s → ∃ e s', goes e ∧ step s e = some s') (h : I s) :
    Completes step allowed goes done s := by
  generalize hm : m s = n
  induction n using WellFoundedLT.induction generalizing s with
  | ind n ih =>
    subst hm
    refine .intro (fun e s' he hs => ?_) fun hstuck => ?_
    · obtain ⟨h', hlt⟩ := hstep h he hs
      exact ih _ hlt h' rfl
    · by_contra hd
      obtain ⟨e, s', he, hs⟩ := hend s h hd
      rw [hstuck e he] at hs
      cases hs

end

/-! ## What is seen of a run -/

theorem exec_append (s : σ) (es es' : List ε) :
    exec step s (es ++ es') = (exec step s es).bind (exec step · es') := by
  induction es generalizing s with
  | nil => rfl
  | cons e es ih =>
    rw [List.cons_append, exec, exec, Option.bind_assoc]
    exact Option.bind_congr fun s' _ => ih s'

section

variable {α β : Type*} {spec : α → β → Option α} {sees : σ → ε → List β} {R : σ → α → Prop}
  {s s' : σ} {a : α} {es : List ε}

/-- What is seen of a replay, where `sees` is what is seen of one step. -/
def observed (step : σ → ε → Option σ) (sees : σ → ε → List β) : σ → List ε → List β
  | _, [] => []
  | s, e :: es => sees s e ++ ((step s e).map (observed step sees · es)).getD []

end

end Lts
