import Nds3.StateMachine.Concurrent

/-!
# `deinitialize` and the accepted transitions

`deinitialize` joins `m_transitionThread` under `m_lockTransitionThread` and then deregisters the
node. That waits for the transitions the thread was started for, and for nothing else: a
transition between its acceptance and its launch, one running inline in the thread that requested
it (synchronous machine) and one accepted while `deinitialize` is in progress all outlive it.
`Barrier` excludes the three; under it `deinitialize` is the barrier it is meant to be.
-/

namespace Nds3

namespace System

/-- Accepted, and the notification of the intermediate state went through: the request leaves a
transition to execute. -/
def admits (s : System) (r : Request) : Prop :=
  s.machine.accepts r = true ∧ notify r.answers = .ok ()

/-- `deinitialize` finds every unresolved transition running in `m_transitionThread`, and no
request is admitted while it is in progress. -/
def Barrier (s : System) : Event → Prop
  | .deinitLock => ∀ i t, s.tasks i = some t →
      s.machine.bAsync = true ∧ s.transitionThread = some i
  | .setState r => s.lockHeld = true → ¬ s.admits r
  | _ => True

/-- The invariant of the runs that meet `Barrier`. -/
structure Draining (s : System) : Prop where
  locked : s.deinit = .locked → ∀ i t, s.tasks i = some t →
    s.machine.bAsync = true ∧ s.transitionThread = some i
  joined : s.deinit = .joined → ∀ i, s.tasks i = none

namespace Draining

variable {s s' : System}

theorem of_not_held (h : s.lockHeld = false) : Draining s := by
  constructor <;> intro hd <;> simp [lockHeld, hd] at h

theorem not_held (h : s.lockHeld = false) (hd : s'.deinit = s.deinit) : Draining s' := by
  apply of_not_held
  rw [lockHeld, hd]
  exact h

theorem keep (h : Draining s) {i : Nat} {t : Task} {q : Option Task} (ht : s.tasks i = some t)
    (hd : s'.deinit = s.deinit) (hb : s'.machine.bAsync = s.machine.bAsync)
    (hth : s'.transitionThread = s.transitionThread)
    (hs : s'.tasks = Function.update s.tasks i q) : Draining s' := by
  refine ⟨fun hl j t' hj => ?_, fun hj => ?_⟩
  · rw [hd] at hl
    rw [hb, hth]
    by_cases hji : j = i
    · exact hji ▸ h.locked hl i t ht
    · rw [hs, Function.update_of_ne hji] at hj
      exact h.locked hl j t' hj
  · rw [hd] at hj
    rw [h.joined hj i] at ht
    cases ht

theorem raise (h : Draining s) {i : Nat} {t : Task} (ht : s.tasks i = some t) (m : StateMachine)
    (hm : m.bAsync = s.machine.bAsync) (tr : Transition) (e : Exn) :
    Draining (({ s with machine := m } : System).raise i tr e) := by
  unfold System.raise
  split
  · exact h.keep ht rfl hm rfl rfl
  · exact h.keep ht rfl hm rfl rfl

/-- **Step lemma.** -/
theorem step {ev : Event} (h : Draining s) (hok : Barrier s ev) (hs : s.step ev = some s') :
    Draining s' := by
  cases step_effect hs with
  | rejected _ => exact h
  | accepted ha _ hn =>
    by_cases hl : s.lockHeld = true
    · exact absurd ⟨ha, hn⟩ (hok hl)
    · rw [Bool.not_eq_true] at hl
      exact not_held hl rfl
  | stuck _ _ _ => exact ⟨h.locked, h.joined⟩
  | launchAsync _ _ hl _ => exact not_held hl rfl
  | launchSync ht _ => exact h.keep ht rfl rfl rfl rfl
  | call ht => exact h.keep ht rfl rfl rfl rfl
  | returned ht => exact h.keep ht rfl rfl rfl rfl
  | thrown ht => exact h.raise ht s.machine rfl _ _
  | finished ht _ => exact h.keep ht rfl rfl rfl rfl
  | finishThrown ht _ => exact h.raise ht _ (by rfl) _ _
  | handled ht => exact h.keep ht rfl rfl rfl rfl
  | deinitLock _ => exact ⟨fun _ i t ht => hok i t ht, fun hj => by cases hj⟩
  | deinitJoin hl he =>
    refine ⟨fun hl' => (by cases hl'), fun _ i => ?_⟩
    cases ht : s.tasks i with
    | none => rfl
    | some t =>
      rw [threadEnded, (h.locked hl i t ht).2] at he
      simp [ht] at he
  | deinitReturn _ => exact of_not_held rfl

end Draining

/-- **The barrier.** In every run whose steps meet `Barrier`, no transition accepted before
`deinitialize` returns is still pending or executing when it does. -/
theorem deinitialize_barrier {bAsync : Bool} {u ts : Timespec} {s s' : System}
    (h : Lts.Reach step Barrier (initial bAsync u ts) s) (hs : s.step .deinitReturn = some s')
    (i : Nat) : s'.tasks i = none := by
  have hd : Draining s := h.invariant (Draining.of_not_held rfl) fun hi hok hs => hi.step hok hs
  cases step_effect hs with
  | deinitReturn hj => exact hd.joined hj i

/-- `deinitialize` waiting for the switch-on function of an asynchronous machine. -/
theorem deinitialize_barrier_switchOn :
    ∃ s s', Lts.exec step (initial true ⟨0, 0⟩ ⟨1, 0⟩) [.setState (.unobserved .on), .launch 0,
        .call 0, .deinitLock, .exit 0 none, .finish 0 ⟨3, 0⟩ [], .deinitJoin] = some s ∧
      s.step .deinitReturn = some s' ∧ s'.machine.localState = .on ∧ s'.tasks 0 = none := by
  refine ⟨_, _, rfl, rfl, rfl, ?_⟩
  have hinit : Lts.Reach step Barrier (initial true ⟨0, 0⟩ ⟨1, 0⟩) _ := .refl
  refine deinitialize_barrier (hinit.exec [.setState (.unobserved .on), .launch 0, .call 0,
    .deinitLock, .exit 0 none, .finish 0 ⟨3, 0⟩ [], .deinitJoin] ?_ rfl) rfl 0
  refine ⟨fun h => (by cases h), fun s h => ⟨trivial, fun s h' => ⟨trivial, fun s h'' => ?_⟩⟩⟩
  refine ⟨?_, fun s _ => ⟨trivial, fun s _ => ⟨trivial, fun s _ => ⟨trivial, fun s _ => trivial⟩⟩⟩⟩
  -- the only transition is the one `m_transitionThread` was started for
  cases h; cases h'; cases h''
  intro i t ht
  refine ⟨rfl, ?_⟩
  by_cases hi : i = 0
  · rw [hi]; rfl
  · simp [setTask, hi, idle, initial] at ht

/-! ## Asynchronous machines: the restriction is exact -/

/-- The transitions an asynchronous machine has launched run in `m_transitionThread`, and the
numbers not handed out yet are free. -/
structure Threaded (s : System) : Prop where
  async : s.machine.bAsync = true
  fresh : ∀ i, s.tasks i ≠ none → i < s.accepted
  launched : ∀ i t, s.tasks i = some t → t.phase ≠ .accepted → s.transitionThread = some i

namespace Threaded

variable {s s' : System}

theorem initial (u ts : Timespec) : Threaded (System.initial true u ts) :=
  ⟨rfl, fun _ h => absurd rfl h, fun _ _ h => by cases h⟩

theorem ended (h : Threaded s) (he : s.threadEnded = true) {i : Nat} {t : Task}
    (ht : s.tasks i = some t) : t.phase = .accepted := by
  by_contra hp
  rw [threadEnded, h.launched i t ht hp] at he
  simp [ht] at he

theorem keep (h : Threaded s) {i : Nat} {t : Task} {q : Option Task} (ht : s.tasks i = some t)
    (hp : t.phase ≠ .accepted) (hb : s'.machine.bAsync = s.machine.bAsync)
    (ha : s'.accepted = s.accepted) (hth : s'.transitionThread = s.transitionThread)
    (hs : s'.tasks = Function.update s.tasks i q) : Threaded s' := by
  refine ⟨hb.trans h.async, fun j hj => ?_, fun j t' hj hp' => ?_⟩
  · rw [ha]
    by_cases hji : j = i
    · exact hji ▸ h.fresh i (by simp [ht])
    · rw [hs, Function.update_of_ne hji] at hj
      exact h.fresh j hj
  · rw [hth]
    by_cases hji : j = i
    · exact hji ▸ h.launched i t ht hp
    · rw [hs, Function.update_of_ne hji] at hj
      exact h.launched j t' hj hp'

theorem raise (h : Threaded s) {i : Nat} {t : Task} (ht : s.tasks i = some t)
    (hp : t.phase ≠ .accepted) (m : StateMachine) (hm : m.bAsync = s.machine.bAsync)
    (tr : Transition) (e : Exn) : Threaded (({ s with machine := m } : System).raise i tr e) := by
  unfold System.raise
  split
  · exact h.keep ht hp hm rfl rfl rfl
  · exact h.keep ht hp hm rfl rfl rfl

theorem step {ev : Event} (h : Threaded s) (hs : s.step ev = some s') : Threaded s' := by
  cases step_effect hs with
  | rejected _ => exact h
  | accepted _ _ _ =>
    refine ⟨h.async, fun j hj => ?_, fun j t' hj hp => ?_⟩
    · by_cases hja : j = s.accepted
      · exact hja ▸ Nat.lt_succ_self _
      · simp only [Function.update_of_ne hja] at hj
        exact Nat.lt_succ_of_lt (h.fresh j hj)
    · by_cases hja : j = s.accepted
      · subst hja
        simp only [Function.update_self, Option.some.injEq] at hj
        exact absurd (hj ▸ rfl) hp
      · simp only [Function.update_of_ne hja] at hj
        exact h.launched j t' hj hp
  | stuck _ _ _ => exact ⟨h.async, h.fresh, h.launched⟩
  | @launchAsync i t ht _ _ he =>
    refine ⟨h.async, fun j hj => ?_, fun j t' hj hp => ?_⟩
    · by_cases hji : j = i
      · exact hji ▸ h.fresh i (by simp [ht])
      · simp only [setTask, Function.update_of_ne hji] at hj
        exact h.fresh j hj
    · by_cases hji : j = i
      · rw [hji]
      · simp only [setTask, Function.update_of_ne hji] at hj
        exact absurd (h.ended he hj) hp
  | launchSync _ hb => rw [h.async] at hb; cases hb
  | call ht => exact h.keep ht (by simp) rfl rfl rfl rfl
  | returned ht => exact h.keep ht (by simp) rfl rfl rfl rfl
  | thrown ht => exact h.raise ht (by simp) s.machine rfl _ _
  | finished ht _ => exact h.keep ht (by simp) rfl rfl rfl rfl
  | finishThrown ht _ => exact h.raise ht (by simp) _ (by rfl) _ _
  | handled ht => exact h.keep ht (by simp) rfl rfl rfl rfl
  | deinitLock _ => exact ⟨h.async, h.fresh, h.launched⟩
  | deinitJoin _ he =>
    exact ⟨h.async, h.fresh, fun j t' hj hp => absurd (h.ended he hj) hp⟩
  | deinitReturn _ => exact ⟨h.async, h.fresh, h.launched⟩

end Threaded

/-- Transition `i` waits for `m_lockTransitionThread`, which `deinitialize` holds. -/
def Waiting (s : System) (i : Nat) : Prop :=
  s.lockHeld = true ∧ ∃ t, s.tasks i = some ⟨t, .accepted⟩

/-- Only `deinitialize` returning lets a waiting transition go on. -/
theorem Waiting.step {s s' : System} {ev : Event} {i : Nat} (hi : s.Waiting i) (h : Threaded s)
    (hev : ev ≠ .deinitReturn) (hs : s.step ev = some s') : s'.Waiting i := by
  obtain ⟨hl, t, ht⟩ := hi
  -- a step on another transition leaves this one alone
  have other : ∀ {j : Nat} {u : Task} {q : Option Task}, s.tasks j = some u →
      u.phase ≠ .accepted → Function.update s.tasks j q i = some ⟨t, .accepted⟩ := by
    intro j u q hj hp
    rw [Function.update_of_ne, ht]
    rintro rfl
    rw [ht, Option.some.injEq] at hj
    exact hp (hj ▸ rfl)
  cases step_effect hs with
  | rejected _ | stuck _ _ _ => exact ⟨hl, t, ht⟩
  | accepted _ _ _ =>
    refine ⟨hl, t, ?_⟩
    have hlt := h.fresh i (by simp [ht])
    show Function.update s.tasks s.accepted _ i = _
    rw [Function.update_of_ne (Nat.ne_of_lt hlt), ht]
  | launchAsync _ _ hf _ => rw [hl] at hf; cases hf
  | launchSync _ hb => rw [h.async] at hb; cases hb
  | call hj | returned hj | finished hj _ | handled hj => exact ⟨hl, t, other hj (by simp)⟩
  | thrown hj | finishThrown hj _ =>
    unfold raise
    split
    · exact ⟨hl, t, other hj (by simp)⟩
    · exact ⟨hl, t, other hj (by simp)⟩
  | deinitLock hf => rw [hl] at hf; cases hf
  | deinitJoin _ _ => exact ⟨rfl, t, ht⟩
  | deinitReturn _ => exact absurd rfl hev

theorem Waiting.exec {s s' : System} {es : List Event} {i : Nat} (hi : s.Waiting i)
    (h : Threaded s) (hes : Event.deinitReturn ∉ es) (hs : Lts.exec System.step s es = some s') :
    s'.Waiting i := by
  induction es generalizing s with
  | nil =>
    simp only [Lts.exec, Option.some.injEq] at hs
    exact hs ▸ hi
  | cons ev es ih =>
    obtain ⟨s1, hs1, he1⟩ := Option.bind_eq_some_iff.mp hs
    simp only [List.mem_cons, not_or] at hes
    exact ih (hi.step h (Ne.symm hes.1) hs1) (h.step hs1) hes.2 he1

/-- While the lock is held, a run that ends with nothing pending has met `Barrier`. -/
theorem meets_of_drained {s s' : System} {es : List Event} (h : Threaded s)
    (hl : s.lockHeld = true) (hes : Event.deinitReturn ∉ es)
    (hs : Lts.exec step s es = some s') (hd : ∀ i, s'.tasks i = none) :
    Lts.Meets step Barrier s es := by
  induction es generalizing s with
  | nil => trivial
  | cons ev es ih =>
    obtain ⟨s1, hs1, he1⟩ := Option.bind_eq_some_iff.mp hs
    simp only [List.mem_cons, not_or] at hes
    have hl1 : s1.lockHeld = true := by
      cases step_effect hs1 with
      | thrown _ | finishThrown _ _ => unfold raise; split <;> exact hl
      | deinitJoin _ _ => rfl
      | deinitLock _ => rfl
      | deinitReturn _ => exact absurd rfl hes.1
      | _ => exact hl
    refine ⟨?_, fun s2 hs2 => ?_⟩
    · cases step_effect hs1 with
      | rejected hr => exact fun _ hc => absurd hc.1 (by simp [hr])
      | accepted _ _ _ =>
        -- the request leaves a transition waiting, which is still there at the end
        have hw : System.Waiting _ s.accepted := ⟨hl1, _, Function.update_self ..⟩
        obtain ⟨-, t, ht⟩ := hw.exec (h.step hs1) hes.2 he1
        rw [hd] at ht
        cases ht
      | stuck _ _ hn => exact fun _ hc => absurd hc.2 (by simp [hn])
      | deinitLock hf => rw [hl] at hf; cases hf
      | _ => trivial
    · rw [hs1, Option.some.injEq] at hs2
      exact hs2 ▸ ih (h.step hs1) hl1 hes.2 he1

/-- **The barrier of an asynchronous machine, exactly.** A call of `deinitialize` returns with
nothing pending or executing if and only if its steps meet `Barrier`. -/
theorem deinitialize_barrier_iff {u ts : Timespec} {s₀ s₁ s₂ s₃ : System} {es : List Event}
    (h : Lts.Reach step (fun _ _ => True) (initial true u ts) s₀)
    (hlock : s₀.step .deinitLock = some s₁) (hes : Event.deinitReturn ∉ es)
    (hrun : Lts.exec step s₁ es = some s₂) (hret : s₂.step .deinitReturn = some s₃) :
    (∀ i, s₃.tasks i = none) ↔ Barrier s₀ .deinitLock ∧ Lts.Meets step Barrier s₁ es := by
  have ht0 : Threaded s₀ := h.invariant (Threaded.initial u ts) fun hi _ hs => hi.step hs
  have htasks : s₃.tasks = s₂.tasks := by cases step_effect hret with | deinitReturn _ => rfl
  have hf : s₀.lockHeld = false := by cases step_effect hlock with | deinitLock hf => exact hf
  have hl1 : s₁.lockHeld = true := by cases step_effect hlock with | deinitLock _ => rfl
  have hk1 : s₁.tasks = s₀.tasks := by cases step_effect hlock with | deinitLock _ => rfl
  rw [htasks]
  constructor
  · intro hd
    refine ⟨fun i t ht => ⟨ht0.async, ?_⟩,
      meets_of_drained (ht0.step hlock) hl1 hes hrun hd⟩
    refine ht0.launched i t ht fun hp => ?_
    have hw : s₁.Waiting i := ⟨hl1, t.transition, by rw [hk1, ht, ← hp]⟩
    obtain ⟨-, t', ht'⟩ := hw.exec (ht0.step hlock) hes hrun
    rw [hd] at ht'
    cases ht'
  · rintro ⟨hb, hm⟩
    have hd1 : Draining s₁ := (Draining.of_not_held hf).step hb hlock
    have hd2 : Draining s₂ := (Lts.Reach.exec .refl es hm hrun).invariant hd1
      fun hi hok hs => hi.step hok hs
    cases step_effect hret with
    | deinitReturn hj => exact hd2.joined hj

/-- Without the restriction the barrier leaks, on either kind of machine: a request accepted just
before `deinitialize` is still pending when it returns, and its function runs afterwards. -/
theorem deinitialize_leaks :
    let leaks := fun bAsync : Bool => ∃ s s' s'' : System,
      Lts.exec step (initial bAsync ⟨0, 0⟩ ⟨1, 0⟩)
        [.setState (.unobserved .on), .deinitLock, .deinitJoin] = some s ∧
      s.step .deinitReturn = some s' ∧ s'.tasks 0 = some ⟨⟨.off, .on, .switchOn⟩, .accepted⟩ ∧
      Lts.exec step s' [.launch 0, .call 0] = some s'' ∧
      s''.tasks 0 = some ⟨⟨.off, .on, .switchOn⟩, .executing⟩
    leaks false ∧ leaks true :=
  ⟨⟨_, _, _, rfl, rfl, rfl, rfl, rfl⟩, ⟨_, _, _, rfl, rfl, rfl, rfl, rfl⟩⟩

end System

end Nds3
