import Nds3.Logging.Streams

/-!
# The lifetimes of log streams

What happens to a stream is decided by what comes first after it has been allocated: the end of its
thread, or the destructor of the object that gave it. The end of the thread deletes it, and so does
the destructor if it is called in the same thread. A destructor that is called in another thread
leaves it behind: the key is gone, so the end of the thread does not delete it any more
(`stream_lifetimes`).
-/

namespace Nds3

namespace LogStreams

/-- The streams that are deleted in a run. -/
def deletions (es : List LogEvent) : List Nat := es.flatMap LogEvent.deletes

/-- What ends the time in which the thread gets streams from the object. -/
def firstEnd (es : List LogEvent) (t g : Nat) : Option LogEvent := es.find? (·.ends t g)

variable {s s' : LogStreams} {es : List LogEvent} {e : LogEvent} {t g i p : Nat}

/-- The thread has not ended, and the object has not been destroyed. -/
def Open (s : LogStreams) (t g : Nat) : Prop := s.ended t = false ∧ s.getters g ≠ .destroyed

/-- What a run and the state it leads to have to do with each other. -/
structure Traced (es : List LogEvent) (s : LogStreams) : Prop where
  consistent : Consistent s
  open_iff : ∀ t g, s.Open t g ↔ firstEnd es t g = none
  /-- A stream that a thread has was given to it. -/
  held : ∀ {t g i p}, s.stream t g i = some p →
    firstEnd es t g = none ∧ ∃ logLevel : LogLevel, logLevel.toNat = i ∧
      .getLogger t g logLevel (.ok p) ∈ es
  kept : ∀ {t g p} {logLevel : LogLevel}, .getLogger t g logLevel (.ok p) ∈ es →
    firstEnd es t g = none → s.stream t g logLevel.toNat = some p
  same : ∀ {t g t' g' p p'} {logLevel logLevel' : LogLevel},
    .getLogger t g logLevel (.ok p) ∈ es → .getLogger t' g' logLevel' (.ok p') ∈ es →
    (p = p' ↔ t = t' ∧ g = g' ∧ logLevel = logLevel')
  fresh : ∀ {t g p} {logLevel : LogLevel}, .getLogger t g logLevel (.ok p) ∈ es → p < s.nextStream
  given : ∀ {p}, p ∈ deletions es → ∃ t g logLevel, .getLogger t g logLevel (.ok p) ∈ es
  deleted : ∀ {t g p} {logLevel : LogLevel}, .getLogger t g logLevel (.ok p) ∈ es →
    (deletions es).count p = if (firstEnd es t g).any (·.own t) then 1 else 0

theorem traced_empty : Traced [] empty where
  consistent := consistent_empty
  open_iff _ _ := ⟨fun _ => rfl, fun _ => ⟨rfl, LogStreamGetter.noConfusion⟩⟩
  held h := by cases h
  kept h := by cases h
  same h := by cases h
  fresh h := by cases h
  given h := by cases h
  deleted h := by cases h

theorem firstEnd_concat (es : List LogEvent) (e : LogEvent) (t g : Nat) :
    firstEnd (es ++ [e]) t g = (firstEnd es t g).or (if e.ends t g then some e else none) := by
  rw [firstEnd, List.find?_append, firstEnd, List.find?_singleton]

theorem firstEnd_concat_eq_none :
    firstEnd (es ++ [e]) t g = none ↔ firstEnd es t g = none ∧ e.ends t g = false := by
  rw [firstEnd_concat, Option.or_eq_none_iff]
  simp

theorem deletions_concat (es : List LogEvent) (e : LogEvent) :
    deletions (es ++ [e]) = deletions es ++ e.deletes := by
  simp [deletions]

namespace Traced

theorem stream_eq (h : Traced es s) {t' g' i' : Nat} (hp : s.stream t g i = some p)
    (hp' : s.stream t' g' i' = some p) : t = t' ∧ g = g' ∧ i = i' := by
  obtain ⟨-, logLevel, rfl, hgiven⟩ := h.held hp
  obtain ⟨-, logLevel', rfl, hgiven'⟩ := h.held hp'
  obtain ⟨rfl, rfl, rfl⟩ := (h.same hgiven hgiven').mp rfl
  exact ⟨rfl, rfl, rfl⟩

theorem distinct (h : Traced es s) (t : Nat) : s.Distinct t :=
  fun _ _ _ _ _ hp hp' => (h.stream_eq hp hp').2

/-- A step that allocates no stream: it deletes the streams that the thread which takes it has, as
far as they end with it. -/
theorem step_of (h : Traced es s) (hc : Consistent s')
    (hgives : ∀ t g logLevel p, e = .getLogger t g logLevel (.ok p) → e ∈ es)
    (hopen : ∀ t g, s'.Open t g ↔ s.Open t g ∧ e.ends t g = false)
    (hstream : ∀ t g i, s'.stream t g i = if e.ends t g then none else s.stream t g i)
    (hdeletes : ∀ p, p ∈ e.deletes ↔
      ∃ t g i, e.ends t g = true ∧ e.own t = true ∧ s.stream t g i = some p)
    (hnd : e.deletes.Nodup) (hnext : s'.nextStream = s.nextStream) : Traced (es ++ [e]) s' := by
  have hmem : ∀ {t g p} {logLevel : LogLevel},
      .getLogger t g logLevel (.ok p) ∈ es ++ [e] ↔ .getLogger t g logLevel (.ok p) ∈ es := by
    intro t g p logLevel
    rw [List.mem_append, List.mem_singleton]
    exact or_iff_left_of_imp fun he => he ▸ hgives t g logLevel p he.symm
  refine ⟨hc, fun t g => ?_, fun {t g i p} hp => ?_, fun {t g p logLevel} hp hend => ?_,
    fun hp hp' => h.same (hmem.mp hp) (hmem.mp hp'), fun hp => hnext ▸ h.fresh (hmem.mp hp),
    fun {p} hp => ?_, fun {t g p logLevel} hp => ?_⟩
  · rw [hopen, h.open_iff, firstEnd_concat_eq_none]
  · rw [hstream] at hp
    split at hp
    · cases hp
    · next hends =>
      obtain ⟨hend, logLevel, hi, hgiven⟩ := h.held hp
      exact ⟨firstEnd_concat_eq_none.mpr ⟨hend, by simpa using hends⟩, logLevel, hi,
        hmem.mpr hgiven⟩
  · obtain ⟨hend, hends⟩ := firstEnd_concat_eq_none.mp hend
    rw [hstream, hends]
    exact h.kept (hmem.mp hp) hend
  · simp only [hmem]
    rw [deletions_concat, List.mem_append] at hp
    rcases hp with hp | hp
    · exact h.given hp
    · obtain ⟨t, g, i, -, -, hs⟩ := (hdeletes p).mp hp
      obtain ⟨-, logLevel, -, hgiven⟩ := h.held hs
      exact ⟨t, g, logLevel, hgiven⟩
  · have hp := hmem.mp hp
    -- the stream is among the deleted ones exactly if it is still there and ends here
    have hiff : p ∈ e.deletes ↔ firstEnd es t g = none ∧ e.ends t g = true ∧ e.own t = true := by
      rw [hdeletes]
      constructor
      · rintro ⟨t', g', i, hends, hown, hs⟩
        obtain ⟨hend, logLevel', -, hgiven⟩ := h.held hs
        obtain ⟨rfl, rfl, -⟩ := (h.same hp hgiven).mp rfl
        exact ⟨hend, hends, hown⟩
      · rintro ⟨hend, hends, hown⟩
        exact ⟨t, g, _, hends, hown, h.kept hp hend⟩
    rw [deletions_concat, List.count_append, h.deleted hp, firstEnd_concat,
      hnd.count]
    simp only [hiff]
    cases firstEnd es t g with
    | some e0 => cases hown : e0.own t <;> simp [hown]
    | none => cases e.ends t g <;> simp

theorem new (h : Traced es s) {logLevel : LogLevel} (hc : Consistent s')
    (hended : s'.ended = s.ended) (hgetters : s'.getters = s.getters) (hopen : s.Open t g)
    (hnone : s.stream t g logLevel.toNat = none) (hnext : s'.nextStream = s.nextStream + 1)
    (hstream : ∀ t' g' i, s'.stream t' g' i =
      if t' = t ∧ g' = g ∧ i = logLevel.toNat then some s.nextStream else s.stream t' g' i) :
    Traced (es ++ [.getLogger t g logLevel (.ok s.nextStream)]) s' := by
  have hend : ∀ t' g', firstEnd (es ++ [.getLogger t g logLevel (.ok s.nextStream)]) t' g' =
      firstEnd es t' g' := fun t' g' => by
    rw [firstEnd_concat]
    exact Option.or_none
  have hdel : deletions (es ++ [.getLogger t g logLevel (.ok s.nextStream)]) = deletions es := by
    rw [deletions_concat]
    exact List.append_nil _
  have hmem : ∀ {t' g' p} {logLevel' : LogLevel}, .getLogger t' g' logLevel' (.ok p) ∈
      es ++ [.getLogger t g logLevel (.ok s.nextStream)] ↔
      .getLogger t' g' logLevel' (.ok p) ∈ es ∨
        (t' = t ∧ g' = g ∧ logLevel' = logLevel) ∧ p = s.nextStream := by
    intro t' g' p logLevel'
    simp [and_assoc]
  have hnew : ∀ {p}, .getLogger t g logLevel (.ok p) ∉ es := fun hp => by
    have hs := h.kept hp ((h.open_iff t g).mp hopen)
    rw [hnone] at hs
    cases hs
  refine ⟨hc, fun t' g' => ?_, fun {t' g' i p} hp => ?_, fun {t' g' p l'} hp he => ?_,
    fun {t1 g1 t2 g2 p1 p2 l1 l2} h1 h2 => ?_, fun {t' g' p l'} hp => ?_, fun {p} hp => ?_,
    fun {t' g' p l'} hp => ?_⟩
  · rw [hend, ← h.open_iff, Open, Open, hended, hgetters]
  · rw [hend]
    rw [hstream] at hp
    split at hp
    · next heq =>
      obtain ⟨rfl, rfl, rfl⟩ := heq
      cases hp
      exact ⟨(h.open_iff _ _).mp hopen, logLevel, rfl, hmem.mpr (.inr ⟨⟨rfl, rfl, rfl⟩, rfl⟩)⟩
    · obtain ⟨he, l', hi, hgiven⟩ := h.held hp
      exact ⟨he, l', hi, hmem.mpr (.inl hgiven)⟩
  · rw [hend] at he
    rw [hstream]
    rcases hmem.mp hp with hold | ⟨⟨rfl, rfl, rfl⟩, rfl⟩
    · rw [if_neg, h.kept hold he]
      rintro ⟨rfl, rfl, hl⟩
      exact hnew (LogLevel.toNat_injective hl ▸ hold)
    · rw [if_pos ⟨rfl, rfl, rfl⟩]
  · rcases hmem.mp h1 with hold1 | ⟨⟨rfl, rfl, rfl⟩, rfl⟩ <;>
      rcases hmem.mp h2 with hold2 | ⟨⟨rfl, rfl, rfl⟩, rfl⟩
    · exact h.same hold1 hold2
    · refine iff_of_false (Nat.ne_of_lt (h.fresh hold1)) ?_
      rintro ⟨rfl, rfl, rfl⟩
      exact hnew hold1
    · refine iff_of_false (Nat.ne_of_gt (h.fresh hold2)) ?_
      rintro ⟨rfl, rfl, rfl⟩
      exact hnew hold2
    · simp
  · rw [hnext]
    rcases hmem.mp hp with hold | ⟨-, rfl⟩
    · exact Nat.lt_succ_of_lt (h.fresh hold)
    · exact Nat.lt_succ_self _
  · rw [hdel] at hp
    obtain ⟨t', g', l', hgiven⟩ := h.given hp
    exact ⟨t', g', l', hmem.mpr (.inl hgiven)⟩
  · rw [hdel, hend]
    rcases hmem.mp hp with hold | ⟨⟨rfl, rfl, rfl⟩, rfl⟩
    · exact h.deleted hold
    · rw [(h.open_iff _ _).mp hopen]
      refine List.count_eq_zero.mpr fun hp => ?_
      obtain ⟨t', g', l', hgiven⟩ := h.given hp
      exact absurd (h.fresh hgiven) (Nat.lt_irrefl _)

/-- **Step lemma.** -/
theorem step (h : Traced es s) (hs : s.step e = some s') : Traced (es ++ [e]) s' := by
  cases e with
  | construct g keys =>
    obtain ⟨hc, hg, hstream, hended, hnext, hgetters⟩ := step_construct h.consistent hs
    refine h.step_of hc (fun _ _ _ _ he => by cases he) (fun t' g' => ?_) (fun t' g' i => ?_)
      (fun p => ?_) List.nodup_nil hnext
    · rw [Open, Open, hended, hgetters]
      by_cases hg' : g' = g
      · subst hg'
        simp [hg, LogEvent.ends]
      · simp [hg', LogEvent.ends]
    · rw [hstream]
      rfl
    · simp [LogEvent.deletes, LogEvent.ends]
  | getLogger t g logLevel result =>
    cases result with
    | error e =>
      obtain rfl := step_getLogger_error hs
      exact h.step_of h.consistent (fun _ _ _ _ he => by cases he)
        (fun _ _ => (and_iff_left rfl).symm) (fun _ _ _ => rfl)
        (fun p => by simp [LogEvent.deletes, LogEvent.ends]) List.nodup_nil rfl
    | ok p =>
      obtain ⟨hc, ht, ⟨keys, hg⟩, hended, hgetters, hcase⟩ := step_getLogger h.consistent hs
      rcases hcase with ⟨hp, rfl⟩ | ⟨hnone, rfl, hnext, hstream⟩
      · obtain ⟨-, l, hl, hgiven⟩ := h.held hp
        obtain rfl := LogLevel.toNat_injective hl
        exact h.step_of h.consistent (fun _ _ _ _ _ => hgiven)
          (fun _ _ => (and_iff_left rfl).symm) (fun _ _ _ => rfl)
          (fun p => by simp [LogEvent.deletes, LogEvent.ends]) List.nodup_nil rfl
      · exact h.new hc hended hgetters ⟨ht, by rw [hg]; exact LogStreamGetter.noConfusion⟩ hnone
          hnext hstream
  | destroy t g deleted =>
    obtain ⟨hc, ht, ⟨keys, hg⟩, hended, hnext, hgetters, hstream, hdel, hnd⟩ :=
      step_destroy h.consistent hs
    refine h.step_of hc (fun _ _ _ _ he => by cases he) (fun t' g' => ?_) (fun t' g' i => ?_)
      (fun p => ?_) (hnd (h.distinct t)) hnext
    · rw [Open, Open, hended, hgetters]
      by_cases hg' : g' = g
      · simp [hg', LogEvent.ends]
      · simp [hg', Ne.symm hg', LogEvent.ends]
    · rw [hstream]
      simp only [LogEvent.ends, decide_eq_true_eq]
      exact if_congr eq_comm rfl rfl
    · simp only [LogEvent.deletes, hdel, LogEvent.ends, LogEvent.own, decide_eq_true_eq]
      constructor
      · rintro ⟨i, hi⟩
        exact ⟨t, g, i, rfl, rfl, hi⟩
      · rintro ⟨_, _, i, rfl, rfl, hi⟩
        exact ⟨i, hi⟩
  | exit t deleted =>
    obtain ⟨hc, ht, hended, hnext, hgetters, hstream, hdel, hnd⟩ := step_exit h.consistent hs
    refine h.step_of hc (fun _ _ _ _ he => by cases he) (fun t' g' => ?_) (fun t' g' i => ?_)
      (fun p => ?_) (hnd (h.distinct t)) hnext
    · rw [Open, Open, hended, hgetters]
      by_cases ht' : t' = t
      · simp [ht', LogEvent.ends]
      · simp [ht', Ne.symm ht', LogEvent.ends]
    · rw [hstream]
      simp only [LogEvent.ends, decide_eq_true_eq]
      exact if_congr eq_comm rfl rfl
    · simp only [LogEvent.deletes, hdel, LogEvent.ends, LogEvent.own, decide_eq_true_eq]
      constructor
      · rintro ⟨g, i, hi⟩
        exact ⟨t, g, i, rfl, rfl, hi⟩
      · rintro ⟨_, g, i, rfl, -, hi⟩
        exact ⟨g, i, hi⟩

/-- **Run lemma.** -/
theorem of_exec (h : Lts.exec LogStreams.step .empty es = some s) : Traced es s :=
  have hall : ∀ e ∈ es, True := fun _ _ => trivial
  Lts.exec_history (I := Traced) (l := []) traced_empty (fun h _ hs => h.step hs) hall h

end Traced

/-! ## No call is undefined -/

theorem exists_getLogger (hc : Consistent s) (ht : s.ended t = false) {keys : List Nat}
    (hg : s.getters g = .constructed keys) {logLevel : LogLevel} (hl : logLevel ≠ .none) :
    ∃ p s', s.step (.getLogger t g logLevel (.ok p)) = some s' := by
  have hlt : logLevel.toNat < keys.length := by
    rw [hc.length hg]
    cases logLevel <;> first | decide | exact absurd rfl hl
  obtain ⟨k, hk⟩ : ∃ k, keys[logLevel.toNat]? = some k := ⟨_, List.getElem?_eq_getElem hlt⟩
  have hmem := hc.mem_keys ((key_constructed hg).trans hk)
  obtain ⟨p, s', hget⟩ : ∃ p s', s.getLogStream t g logLevel = some (p, s') := by
    cases hv : s.tsd.value t k with
    | some p =>
      refine ⟨p, s, ?_⟩
      simp [getLogStream, hg, LogStreamGetter.loggersKeys, hk, ThreadSpecific.getspecific_eq hmem,
        hv]
    | none =>
      obtain ⟨tsd, htsd, -⟩ := ThreadSpecific.setspecific_mem hmem t (some s.nextStream)
      refine ⟨s.nextStream, { s with tsd, nextStream := s.nextStream + 1 }, ?_⟩
      simp [getLogStream, hg, LogStreamGetter.loggersKeys, hk, ThreadSpecific.getspecific_eq hmem,
        hv, htsd]
  exact ⟨p, s', by simp [LogStreams.step, ht, getLogger, hl, hget]⟩

theorem exists_destroy (hc : Consistent s) (ht : s.ended t = false) {keys : List Nat}
    (hg : s.getters g = .constructed keys) : ∃ ps s', s.step (.destroy t g ps) = some s' := by
  obtain ⟨tsd, htsd, -⟩ := LogStreamGetter.destroy_keys (t := t) (hc.nodup hg) fun k hk => by
    obtain ⟨i, hi⟩ := List.mem_iff_getElem?.mp hk
    exact hc.mem_keys ((key_constructed hg).trans hi)
  refine ⟨keys.filterMap (s.tsd.value t),
    { s with tsd, getters := Function.update s.getters g .destroyed }, ?_⟩
  simp [LogStreams.step, ht, hg, htsd]

/-! ## The streams of a run -/

/-- **Each log stream has one user and is deleted at most once.** Whatever objects are constructed
and destroyed, whatever threads call `getLogger` and end, in any order, with any keys used again:

* two calls return the same stream exactly if they are those of one thread, to one object, for one
  severity;
* no call returns a stream that has been deleted;
* only streams that have been returned are deleted, and a stream is deleted once if its thread ends
  before the object is destroyed or destroys the object itself, and never if another thread does
  that before it ends;
* every call in a thread that has not ended to an object that has not been destroyed has an
  outcome. -/
theorem stream_lifetimes (h : Lts.exec LogStreams.step .empty es = some s) :
    (∀ {t g t' g' p p'} {logLevel logLevel' : LogLevel},
      .getLogger t g logLevel (.ok p) ∈ es → .getLogger t' g' logLevel' (.ok p') ∈ es →
      (p = p' ↔ t = t' ∧ g = g' ∧ logLevel = logLevel')) ∧
    (∀ {es₁ es₂ t g p} {logLevel : LogLevel},
      es = es₁ ++ .getLogger t g logLevel (.ok p) :: es₂ → p ∉ deletions es₁) ∧
    (∀ p ∈ deletions es, ∃ t g logLevel, .getLogger t g logLevel (.ok p) ∈ es) ∧
    (∀ t g logLevel p, .getLogger t g logLevel (.ok p) ∈ es →
      (deletions es).count p = if (firstEnd es t g).any (·.own t) then 1 else 0) ∧
    ∀ {t g keys}, s.ended t = false → s.getters g = .constructed keys →
      (∀ logLevel ≠ .none, ∃ p s', s.step (.getLogger t g logLevel (.ok p)) = some s') ∧
      ∃ ps s', s.step (.destroy t g ps) = some s' := by
  have ht := Traced.of_exec h
  refine ⟨ht.same, fun {es₁ es₂ t g p logLevel} hes hp => ?_, fun _ => ht.given,
    fun _ _ _ _ => ht.deleted,
    fun {t g keys} hrun hg => ⟨fun logLevel hl => ?_, ?_⟩⟩
  · subst hes
    rw [Lts.exec_append] at h
    obtain ⟨s₁, h₁, hrest⟩ := Option.bind_eq_some_iff.mp h
    obtain ⟨s₂, hs₂, -⟩ := Option.bind_eq_some_iff.mp hrest
    have ht₁ := Traced.of_exec h₁
    have ht₂ := ht₁.step hs₂
    obtain ⟨-, hend, ⟨keys, hg⟩, -⟩ := step_getLogger ht₁.consistent hs₂
    have hopen : firstEnd es₁ t g = none :=
      (ht₁.open_iff t g).mp ⟨hend, by rw [hg]; exact LogStreamGetter.noConfusion⟩
    have hcount := ht₂.deleted (List.mem_append_right _ (List.mem_singleton_self _))
    rw [firstEnd_concat_eq_none.mpr ⟨hopen, rfl⟩, deletions_concat] at hcount
    exact List.count_eq_zero.mp hcount (List.mem_append_left _ hp)
  · exact exists_getLogger ht.consistent hrun hg hl
  · exact exists_destroy ht.consistent hrun hg

/-- The thread 1 uses two severities and the thread 2 one; the thread 1 destroys the object, and
its keys are used again. -/
theorem stream_lifetimes_two : ∃ s, Lts.exec LogStreams.step .empty
    [.construct 0 [4, 5, 6, 7], .getLogger 1 0 .debug (.ok 0), .getLogger 2 0 .debug (.ok 1),
      .getLogger 1 0 .error (.ok 2), .destroy 1 0 [0, 2], .construct 1 [7, 6, 5, 4],
      .getLogger 2 1 .error (.ok 3), .exit 2 [3]] = some s ∧
    (deletions [.construct 0 [4, 5, 6, 7], .getLogger 1 0 .debug (.ok 0),
      .getLogger 2 0 .debug (.ok 1), .getLogger 1 0 .error (.ok 2), .destroy 1 0 [0, 2],
      .construct 1 [7, 6, 5, 4], .getLogger 2 1 .error (.ok 3), .exit 2 [3]]).count 1 = 0 := by
  obtain ⟨s, hs⟩ : ∃ s, Lts.exec LogStreams.step .empty
    [.construct 0 [4, 5, 6, 7], .getLogger 1 0 .debug (.ok 0), .getLogger 2 0 .debug (.ok 1),
      .getLogger 1 0 .error (.ok 2), .destroy 1 0 [0, 2], .construct 1 [7, 6, 5, 4],
      .getLogger 2 1 .error (.ok 3), .exit 2 [3]] = some s := ⟨_, rfl⟩
  obtain ⟨-, -, -, hcount, -⟩ := stream_lifetimes hs
  refine ⟨s, hs, hcount 2 0 .debug 1 ?_⟩
  exact List.mem_cons_of_mem _ (List.mem_cons_of_mem _ (List.mem_cons_self ..))

end LogStreams

end Nds3
