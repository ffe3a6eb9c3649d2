import Nds3.StateMachine.WriteState
import Nds3.Lib.Measure
import Mathlib.Data.Set.Finite.Basic

/-!
# The machine does not get stuck

An accepted transition may have to wait: for `m_lockTransitionThread`, which `deinitialize` may hold,
and for the thread of the transition before it. As only one transition is pending at a time, that
thread has ended by then, so `deinitialize` gets its join and returns, and the transition is
launched. Without new calls everything that is under way comes to an end, and from there a machine
whose transitions succeed can be brought to each of its stable states but fault.
-/

namespace Nds3

namespace System

variable {s s' : System} {ev : Event}

/-- The steps of the calls that are under way. -/
def Continues : Event → Prop
  | .setState _ | .deinitLock => False
  | .exit _ outcome => ∀ e, outcome = some e → e.isRuntimeError = true
  | .finish _ _ answers | .handle _ _ answers => ∀ a ∈ answers, a = none
  | .launch _ | .call _ | .deinitJoin | .deinitReturn => True

theorem Continues.assumed (h : Continues ev) : Assumed s ev := by
  cases ev with
  | setState r => cases h
  | deinitLock => cases h
  | _ => exact h

/-- No transition is pending and `deinitialize` is not under way. -/
structure Quiet (s : System) : Prop where
  alive : s.terminated = false
  tasks : ∀ i, s.tasks i = none
  free : s.lockHeld = false
  stable : s.machine.localState.isIntermediateState = false

/-- The invariant: what is on its way to the handlers is caught by `executeTransitionThread`, and
the thread to be joined is that of a transition that has been launched. -/
structure Going (s : System) : Prop where
  exclusive : Exclusive s
  alive : s.terminated = false
  caught : ∀ i t e, s.tasks i = some ⟨t, .unwinding e⟩ → e.isRuntimeError = true
  fresh : ∀ i, s.tasks i ≠ none → i < s.accepted
  known : ∀ i, s.transitionThread = some i → i < s.accepted
  launched : ∀ i t, s.transitionThread = some i → s.tasks i = some t → t.phase ≠ .accepted

namespace Going

theorem initial (bAsync : Bool) (u ts : Timespec) : Going (initial bAsync u ts) where
  exclusive := Exclusive.idle rfl
  alive := rfl
  caught _ _ _ h := by cases h
  fresh _ h := absurd rfl h
  known _ h := by cases h
  launched _ _ h := by cases h

theorem advance (h : Going s) (hx : Exclusive s') {i : Nat} {t : Transition} {p q : Phase}
    (ht : s.tasks i = some ⟨t, p⟩) (hq : ∀ e, q = .unwinding e → e.isRuntimeError = true)
    (hqa : q ≠ .accepted) (halive : s'.terminated = s.terminated) (ha : s'.accepted = s.accepted)
    (hth : s'.transitionThread = s.transitionThread ∨ s'.transitionThread = some i)
    (hs : s'.tasks = Function.update s.tasks i (some ⟨t, q⟩)) : Going s' := by
  have hi : i < s.accepted := h.fresh i (by simp [ht])
  refine ⟨hx, halive.trans h.alive, fun j u e hj => ?_, fun j hj => ?_, fun j hj => ?_,
    fun j u hj hu => ?_⟩
  · by_cases hji : j = i
    · subst hji
      rw [hs, Function.update_self, Option.some.injEq, Task.mk.injEq] at hj
      exact hq e hj.2
    · rw [hs, Function.update_of_ne hji] at hj
      exact h.caught j u e hj
  · rw [ha]
    by_cases hji : j = i
    · exact hji ▸ hi
    · rw [hs, Function.update_of_ne hji] at hj
      exact h.fresh j hj
  · rw [ha]
    rcases hth with hth | hth
    · exact h.known j (hth ▸ hj)
    · rw [hth, Option.some.injEq] at hj
      exact hj ▸ hi
  · by_cases hji : j = i
    · subst hji
      rw [hs, Function.update_self, Option.some.injEq] at hu
      exact hu ▸ hqa
    · rw [hs, Function.update_of_ne hji] at hu
      rcases hth with hth | hth
      · exact h.launched j u (hth ▸ hj) hu
      · rw [hth, Option.some.injEq] at hj
        exact absurd hj.symm hji

theorem resolve (h : Going s) (hx : Exclusive s') {i : Nat} (halive : s'.terminated = false)
    (ha : s'.accepted = s.accepted) (hth : s'.transitionThread = s.transitionThread)
    (hs : s'.tasks = Function.update s.tasks i none) : Going s' := by
  have hold : ∀ j u, s'.tasks j = some u → s.tasks j = some u := by
    intro j u hj
    by_cases hji : j = i
    · rw [hs, hji, Function.update_self] at hj
      cases hj
    · rwa [hs, Function.update_of_ne hji] at hj
  refine ⟨hx, halive, fun j u e hj => h.caught j u e (hold j _ hj), fun j hj => ?_,
    fun j hj => ha ▸ h.known j (hth ▸ hj), fun j u hj hu => h.launched j u (hth ▸ hj) (hold j u hu)⟩
  obtain ⟨u, hu⟩ := Option.ne_none_iff_exists'.mp hj
  rw [ha]
  exact h.fresh j (by simp [hold j u hu])

/-- **Step lemma.** -/
theorem step (h : Going s) (hok : Assumed s ev) (hs : s.step ev = some s') : Going s' := by
  have hx : Exclusive s' := h.exclusive.step hok hs
  cases step_effect hs with
  | rejected _ => exact h
  | @accepted r f st _ hf _ =>
    have hnone := h.exclusive.no_task (not_intermediate_of_findTransition hf)
    refine ⟨hx, h.alive, fun j u e hj => ?_, fun j hj => ?_, fun j hj =>
      Nat.lt_succ_of_lt (h.known j hj), fun j u hj hu => ?_⟩
    · by_cases hja : j = s.accepted
      · subst hja
        simp only [Function.update_self, Option.some.injEq, Task.mk.injEq, reduceCtorEq,
          and_false] at hj
      · simp only [Function.update_of_ne hja, hnone j] at hj
        cases hj
    · by_cases hja : j = s.accepted
      · exact hja ▸ Nat.lt_succ_self _
      · simp only [Function.update_of_ne hja, hnone j, ne_eq, not_true] at hj
    · have hja : j ≠ s.accepted := (h.known j hj).ne
      simp only [Function.update_of_ne hja, hnone j] at hu
      cases hu
  | stuck _ _ hn =>
    rw [notify_eq_ok.2 hok] at hn
    cases hn
  | launchAsync ht _ _ _ => exact h.advance hx ht (by simp) (by simp) rfl rfl (.inr rfl) rfl
  | launchSync ht _ => exact h.advance hx ht (by simp) (by simp) rfl rfl (.inl rfl) rfl
  | call ht => exact h.advance hx ht (by simp) (by simp) rfl rfl (.inl rfl) rfl
  | returned ht => exact h.advance hx ht (by simp) (by simp) rfl rfl (.inl rfl) rfl
  | @thrown i t e ht =>
    have hr : e.isRuntimeError = true := hok e rfl
    rw [raise, if_pos (by simp [hr])] at hx ⊢
    refine h.advance hx ht (fun e' he => ?_) (by simp) rfl rfl (.inl rfl) rfl
    cases he
    exact hr
  | finished ht _ => exact h.resolve hx h.alive rfl rfl rfl
  | finishThrown _ hn =>
    rw [notify_eq_ok.2 hok] at hn
    cases hn
  | @handled i t ts a e ht =>
    refine h.resolve (i := i) hx ?_ rfl rfl rfl
    have hr : (rethrown e (notify a)).isRuntimeError = true := by
      rw [notify_eq_ok.2 hok]
      exact h.caught i t e ht
    simp [escape, hr]
  | deinitLock _ => exact ⟨hx, h.alive, h.caught, h.fresh, h.known, h.launched⟩
  | deinitJoin _ _ =>
    exact ⟨hx, h.alive, h.caught, h.fresh, (fun _ hj => by cases hj), fun _ _ hj => by cases hj⟩
  | deinitReturn _ => exact ⟨hx, h.alive, h.caught, h.fresh, h.known, h.launched⟩

/-- **Run lemma.** -/
theorem reach {bAsync : Bool} {u ts : Timespec}
    (h : Lts.Reach System.step Assumed (System.initial bAsync u ts) s) : Going s :=
  h.invariant (I := Going) (initial bAsync u ts) fun hi hok hs => hi.step hok hs

/-- Nothing but the pending transition keeps the thread from ending. -/
theorem threadEnded (h : Going s) (ht : ∀ i t, s.tasks i = some t → t.phase = .accepted) :
    s.threadEnded = true := by
  cases hth : s.transitionThread with
  | none => simp [System.threadEnded, hth]
  | some i =>
    cases hi : s.tasks i with
    | none => simp [System.threadEnded, hth, hi]
    | some t => exact absurd (ht i t hi) (h.launched i t hth hi)

theorem exists_deinit (h : Going s) (ht : ∀ i t, s.tasks i = some t → t.phase = .accepted)
    (hl : s.lockHeld = true) : ∃ ev s', Continues ev ∧ s.step ev = some s' := by
  have hth := h.threadEnded ht
  cases hd : s.deinit with
  | locked => exact ⟨.deinitJoin, _, trivial, by simp only [System.step, h.alive, hd, hth]; rfl⟩
  | joined => exact ⟨.deinitReturn, _, trivial, by simp only [System.step, h.alive, hd]; rfl⟩
  | _ => simp [lockHeld, hd] at hl

theorem accepted_of_mem (h : Going s) {i : Nat} {t : Transition}
    (hi : s.tasks i = some ⟨t, .accepted⟩) {j : Nat} {u : Task} (hj : s.tasks j = some u) :
    u.phase = .accepted := by
  obtain rfl := h.exclusive.atMostOne i j (by simp [hi]) (by simp [hj])
  rw [hi] at hj
  cases hj
  rfl

theorem exists_launch (h : Going s) {i : Nat} {t : Transition}
    (hi : s.tasks i = some ⟨t, .accepted⟩) (hl : s.lockHeld = false) :
    ∃ s', s.step (.launch i) = some s' ∧ s'.machine = s.machine ∧ s'.terminated = false ∧
      s'.deinit = s.deinit ∧ s'.tasks = Function.update s.tasks i (some ⟨t, .launched⟩) := by
  have hth : s.threadEnded = true := h.threadEnded fun j u hj => h.accepted_of_mem hi hj
  cases hb : s.machine.bAsync with
  | true =>
    refine ⟨{ s.setTask i (some ⟨t, .launched⟩) with transitionThread := some i }, ?_, rfl,
      h.alive, rfl, rfl⟩
    simp [System.step, h.alive, hi, hb, hl, hth]
  | false =>
    refine ⟨s.setTask i (some ⟨t, .launched⟩), ?_, rfl, h.alive, rfl, rfl⟩
    simp [System.step, h.alive, hi, hb]

/-- **Progress.** -/
theorem exists_step (h : Going s) (hq : ¬ Quiet s) :
    ∃ ev s', Continues ev ∧ s.step ev = some s' := by
  by_cases hnone : ∀ i, s.tasks i = none
  · have hl : s.lockHeld = true := by
      by_contra hl
      refine hq ⟨h.alive, hnone, by simpa using hl, ?_⟩
      by_contra hint
      obtain ⟨i, t, ht⟩ := h.exclusive.pending (by simpa using hint)
      rw [hnone i] at ht
      cases ht
    exact h.exists_deinit (fun i t ht => by rw [hnone i] at ht; cases ht) hl
  · push Not at hnone
    obtain ⟨i, hi⟩ := hnone
    obtain ⟨⟨t, p⟩, ht⟩ := Option.ne_none_iff_exists'.mp hi
    cases p with
    | accepted =>
      cases hl : s.lockHeld with
      | true => exact h.exists_deinit (fun j u hj => h.accepted_of_mem ht hj) hl
      | false =>
        obtain ⟨s', hs, -⟩ := h.exists_launch ht hl
        exact ⟨.launch i, s', trivial, hs⟩
    | launched => exact ⟨.call i, _, trivial, by simp only [System.step, h.alive, ht]; rfl⟩
    | executing =>
      refine ⟨.exit i none, _, fun e he => ?_, by simp only [System.step, h.alive, ht]; rfl⟩
      cases he
    | returned =>
      refine ⟨.finish i ⟨0, 0⟩ [], _, fun a ha => ?_, by
        simp only [System.step, h.alive, ht, StateMachine.changeState, notify]; rfl⟩
      cases ha
    | unwinding e =>
      refine ⟨.handle i ⟨0, 0⟩ [], _, fun a ha => ?_, by
        simp only [System.step, h.alive, ht]; rfl⟩
      cases ha

end Going

/-! ## The measure -/

/-- How many steps a pending transition has still to do. -/
def remainingSteps : Option Task → Nat
  | none => 0
  | some t =>
    match t.phase with
    | .accepted => 4
    | .launched => 3
    | .executing => 2
    | .returned | .unwinding _ => 1

/-- And a call of `deinitialize`. -/
def deinitSteps : Deinit → Nat
  | .locked => 2
  | .joined => 1
  | .none | .returned => 0

/-- The transitions of `ts` and `deinitialize`. -/
def remaining (ts : Finset Nat) (s : System) : Nat :=
  ∑ i ∈ ts, remainingSteps (s.tasks i) + deinitSteps s.deinit

def PendingIn (ts : Finset Nat) (s : System) : Prop := ∀ i, s.tasks i ≠ none → i ∈ ts

theorem remaining_update {ts : Finset Nat} (hts : PendingIn ts s) {i : Nat} {t : Task}
    {q : Option Task} (ht : s.tasks i = some t) (hq : remainingSteps q < remainingSteps (some t))
    (hd : s'.deinit = s.deinit) (hs : s'.tasks = Function.update s.tasks i q) :
    PendingIn ts s' ∧ remaining ts s' < remaining ts s := by
  have hi : i ∈ ts := hts i (by simp [ht])
  refine ⟨fun j hj => ?_, ?_⟩
  · by_cases hji : j = i
    · exact hji ▸ hi
    · rw [hs, Function.update_of_ne hji] at hj
      exact hts j hj
  · rw [remaining, remaining, hs, hd]
    exact Nat.add_lt_add_right (Measure.sum_update_lt hi (ht ▸ hq)) _

/-- **Step lemma.** -/
theorem remaining_step {ts : Finset Nat} (hts : PendingIn ts s) (hc : Continues ev)
    (hs : s.step ev = some s') : PendingIn ts s' ∧ remaining ts s' < remaining ts s := by
  cases step_effect hs with
  | rejected _ | accepted _ _ _ | stuck _ _ _ | deinitLock _ => cases hc
  | launchAsync ht _ _ _ => exact remaining_update hts ht (by simp [remainingSteps]) rfl rfl
  | launchSync ht _ => exact remaining_update hts ht (by simp [remainingSteps]) rfl rfl
  | call ht => exact remaining_update hts ht (by simp [remainingSteps]) rfl rfl
  | returned ht => exact remaining_update hts ht (by simp [remainingSteps]) rfl rfl
  | @thrown i t e ht =>
    rw [raise, if_pos (by simp [hc e rfl])]
    exact remaining_update hts ht (by simp [remainingSteps]) rfl rfl
  | finished ht _ => exact remaining_update hts ht (by simp [remainingSteps]) rfl rfl
  | finishThrown _ hn =>
    rw [notify_eq_ok.2 hc] at hn
    cases hn
  | handled ht => exact remaining_update hts ht (by simp [remainingSteps]) rfl rfl
  | deinitJoin hd _ =>
    refine ⟨hts, ?_⟩
    simp [remaining, deinitSteps, hd]
  | deinitReturn hd =>
    refine ⟨hts, ?_⟩
    simp [remaining, deinitSteps, hd]

theorem Exclusive.pendingIn (h : Exclusive s) : ∃ ts, PendingIn ts s := by
  have hfin : {i | s.tasks i ≠ none}.Finite :=
    Set.Subsingleton.finite fun i hi j hj => h.atMostOne i j hi hj
  exact ⟨hfin.toFinset, fun i hi => hfin.mem_toFinset.mpr hi⟩

/-! ## Results -/

/-- **The calls complete.** From every state of a run, without new calls, every schedule of what is
under way is finite, and it ends with no transition pending, the machine in a state that is not
intermediate, and `deinitialize` returned. -/
theorem transitions_complete {bAsync : Bool} {u ts : Timespec}
    (h : Lts.Reach step Assumed (initial bAsync u ts) s) :
    Lts.Completes step Continues Continues Quiet s := by
  have hg : Going s := .reach h
  obtain ⟨pending, hp⟩ := hg.exclusive.pendingIn
  refine Lts.completes_of_measure (I := fun s => Going s ∧ PendingIn pending s)
    (m := remaining pending) ?_ ?_ ⟨hg, hp⟩
  · rintro s ev s' ⟨hg, hp⟩ hc hs
    obtain ⟨hp', hlt⟩ := remaining_step hp hc hs
    exact ⟨⟨hg.step hc.assumed hs, hp'⟩, hlt⟩
  · rintro s ⟨hg, -⟩ hq
    exact hg.exists_step hq

/-- `deinitialize` has taken the lock before the transition that was accepted is launched. -/
theorem transitions_complete_deinitialize :
    ∃ s, Lts.exec step (initial true ⟨0, 0⟩ ⟨1, 0⟩) [.setState (.unobserved .on), .deinitLock] =
        some s ∧ s.step (.launch 0) = none ∧ Lts.Completes step Continues Continues Quiet s := by
  refine ⟨_, rfl, rfl, ?_⟩
  have hinit : Lts.Reach step Assumed (initial true ⟨0, 0⟩ ⟨1, 0⟩) _ := .refl
  refine transitions_complete (hinit.exec [.setState (.unobserved .on), .deinitLock] ?_ rfl)
  simp [Lts.Meets, Assumed, Request.unobserved]

/-- What a transition that succeeds does to a quiet machine. -/
def succeed (s : System) (newState : State) : List Event :=
  [.setState (.unobserved newState), .launch s.accepted, .call s.accepted, .exit s.accepted none,
    .finish s.accepted ⟨0, 0⟩ []]

theorem meets_succeed (s0 : System) (newState : State) :
    Lts.Meets step Assumed s (s0.succeed newState) := by
  simp [Lts.Meets, succeed, Assumed, Request.unobserved]

theorem exec_launched (halive : s.terminated = false) {i : Nat} {t : Transition}
    (hi : s.tasks i = some ⟨t, .launched⟩) :
    Lts.exec step s [.call i, .exit i none, .finish i ⟨0, 0⟩ []] =
      some { s with
        machine := (s.machine.changeState t.finalState ⟨0, 0⟩ []).1
        tasks := Function.update s.tasks i none } := by
  simp [Lts.exec, step, halive, hi, setTask, StateMachine.changeState, notify]

theorem Quiet.exec_succeed (h : Quiet s) (hg : Going s) {newState : State} {f : Delegate}
    {st : State} (hf : findTransition s.machine.localState newState = some (f, st)) :
    ∃ s', Lts.exec step s (s.succeed newState) = some s' ∧ Quiet s' ∧
      s'.machine.localState = newState := by
  have hne := findTransition_ne hf
  have hstable : newState.isIntermediateState = false := by
    have := (documentedPair_stable f).2
    rwa [(findTransition_documented hf).1] at this
  let t : Transition := ⟨s.machine.localState, newState, f⟩
  let s1 : System := { s with
    machine := (s.machine.changeState st ⟨2, 0⟩ []).1
    accepted := s.accepted + 1
    tasks := Function.update s.tasks s.accepted (some ⟨t, .accepted⟩) }
  have h1 : s.step (.setState (.unobserved newState)) = some s1 := by
    simp [step, h.alive, StateMachine.setStateLocked, Request.unobserved, hne, hf,
      StateMachine.changeState, notify, s1, t]
  have hg1 : Going s1 := hg.step (by simp [Assumed, Request.unobserved]) h1
  obtain ⟨s2, h2, -, halive, hdeinit, htasks⟩ :=
    hg1.exists_launch (i := s.accepted) (Function.update_self ..) h.free
  have h3 := exec_launched halive (i := s.accepted) (t := t) (by rw [htasks, Function.update_self])
  have hexec : Lts.exec step s (s.succeed newState) =
      Lts.exec step s2 [.call s.accepted, .exit s.accepted none, .finish s.accepted ⟨0, 0⟩ []] := by
    rw [succeed, Lts.exec, h1, Option.bind_some, Lts.exec, h2, Option.bind_some]
  refine ⟨_, hexec.trans h3, ⟨halive, fun i => ?_, ?_, hstable⟩, rfl⟩
  · by_cases hi : i = s.accepted
    · simp [hi]
    · simp [hi, htasks, s1, h.tasks i]
  · rw [lockHeld, hdeinit]
    exact h.free

/-- The states a machine can be told to go to, one after the other. -/
def Leads (l n : State) : Prop := ∃ p, findTransition l n = some p

theorem Quiet.exists_exec (h : Quiet s) (hg : Going s) {st : State}
    (hpath : Relation.ReflTransGen Leads s.machine.localState st) :
    ∃ es s', Lts.Meets step Assumed s es ∧ Lts.exec step s es = some s' ∧ Quiet s' ∧
      s'.machine.localState = st := by
  induction hpath with
  | refl => exact ⟨[], s, trivial, rfl, h, rfl⟩
  | @tail l n _ hn ih =>
    obtain ⟨es, s1, hm, he, h1, rfl⟩ := ih
    obtain ⟨⟨f, i⟩, hf⟩ := hn
    have hg1 : Going s1 := by
      refine Lts.Reach.invariant (I := Going) (Lts.Reach.refl.exec es hm he) hg ?_
      exact fun hi hok hs => hi.step hok hs
    obtain ⟨s', he', h', hl⟩ := h1.exec_succeed hg1 hf
    refine ⟨es ++ s1.succeed n, s', hm.append fun s2 _ => meets_succeed .., ?_, h', hl⟩
    rw [Lts.exec_append, he]
    exact he'

theorem leads_of_stable {l st : State} (hl : l = .off ∨ l = .on ∨ l = .running ∨ l = .fault)
    (hst : st = .off ∨ st = .on ∨ st = .running) : Relation.ReflTransGen Leads l st := by
  have hoff : Relation.ReflTransGen Leads .off st := by
    have hon : Leads .off .on := ⟨_, rfl⟩
    rcases hst with rfl | rfl | rfl
    · exact .refl
    · exact .single hon
    · exact .head hon (.single ⟨_, rfl⟩)
  have hdown : Relation.ReflTransGen Leads l .off := by
    rcases hl with rfl | rfl | rfl | rfl
    · exact .refl
    · exact .single ⟨_, rfl⟩
    · exact .head (b := .on) ⟨_, rfl⟩ (.single ⟨_, rfl⟩)
    · exact .single ⟨_, rfl⟩
  exact hdown.trans hoff

theorem stable_cases {name : String} {st : State} (hname : getStateName st = .ok name)
    (hpos : 0 < st.toInt) (hst : st.isIntermediateState = false) :
    st = .off ∨ st = .on ∨ st = .running ∨ st = .fault := by
  cases st with
  | off | on | running | fault => simp
  | unknown => exact absurd hpos (by decide)
  | MAX_STATE_NUM | raw r => cases hname
  | _ => cases hst

/-- **The machine can be recovered.** From every state of a run there is a way for the machine to
get off, on or running, whichever is asked for, with nothing left pending. -/
theorem recoverable {bAsync : Bool} {u ts : Timespec} {st : State}
    (h : Lts.Reach step Assumed (initial bAsync u ts) s)
    (hst : st = .off ∨ st = .on ∨ st = .running) :
    ∃ es s', Lts.Meets step Assumed s es ∧ Lts.exec step s es = some s' ∧ Quiet s' ∧
      s'.machine.localState = st := by
  have hg : Going s := .reach h
  obtain ⟨pending, hp⟩ := hg.exclusive.pendingIn
  -- what is under way ends first
  obtain ⟨es, s1, hes, he, ⟨hg1, -⟩, hq⟩ :
      ∃ es s1, (∀ ev ∈ es, Continues ev) ∧ Lts.exec step s es = some s1 ∧
        (Going s1 ∧ PendingIn pending s1) ∧ Quiet s1 := by
    refine Lts.exists_exec (m := remaining pending) (fun s hs hq => ?_) ⟨hg, hp⟩
    obtain ⟨ev, s', hc, hstep⟩ := hs.1.exists_step hq
    obtain ⟨hp', hlt⟩ := remaining_step hs.2 hc hstep
    exact ⟨ev, s', hc, hstep, ⟨hs.1.step hc.assumed hstep, hp'⟩, hlt⟩
  have hm : Lts.Meets step Assumed s es := .of_forall fun _ ev hev => (hes ev hev).assumed
  have h1 : Lts.Reach step (fun _ _ => True) (initial bAsync u ts) s1 :=
    (h.exec es hm he).mono fun _ _ _ => trivial
  obtain ⟨name, hname⟩ := named_localState h1
  obtain ⟨es', s', hm', he', hq', hl⟩ := hq.exists_exec hg1
    (leads_of_stable (stable_cases hname (known_localState h1) hq.stable) hst)
  refine ⟨es ++ es', s', hm.append fun s2 hs2 => ?_, ?_, hq', hl⟩
  · rw [he, Option.some.injEq] at hs2
    exact hs2 ▸ hm'
  · rw [Lts.exec_append, he]
    exact he'

/-- From fault to running. -/
theorem recoverable_fault :
    ∃ s, Lts.exec step (initial true ⟨0, 0⟩ ⟨1, 0⟩)
        [.setState (.unobserved .on), .launch 0, .call 0, .exit 0 (some ⟨.runtimeError, "fan"⟩),
          .handle 0 ⟨3, 0⟩ []] = some s ∧ s.machine.localState = .fault ∧
      ∃ es s', Lts.Meets step Assumed s es ∧ Lts.exec step s es = some s' ∧ Quiet s' ∧
        s'.machine.localState = .running := by
  refine ⟨_, rfl, rfl, ?_⟩
  have hinit : Lts.Reach step Assumed (initial true ⟨0, 0⟩ ⟨1, 0⟩) _ := .refl
  refine recoverable (hinit.exec [.setState (.unobserved .on), .launch 0, .call 0,
    .exit 0 (some ⟨.runtimeError, "fan"⟩), .handle 0 ⟨3, 0⟩ []] ?_ rfl) (.inr (.inr rfl))
  simp [Lts.Meets, Assumed, Request.unobserved, Exn.isRuntimeError, ExnClass.isRuntimeError]

end System

end Nds3
