import Nds3.Registry.Push

/-!
# What a push can do

Facts about every push, however it ends: whatever the replication graph is and whatever the
subscribers do. `Push` says what the pushes of an acyclic graph amount to when all subscribers
accept the value; here a push may stop at a subscriber that throws or at a lock of its own.
-/

namespace Nds3

open Relation Dag

theorem returned_ne_relocked (q : Nat) : PushEnd.returned ≠ .relocked q := by simp

theorem exists_of_forall₂ {α β : Type*} {R : α → β → Prop} {as : List α} {bs : List β}
    (h : List.Forall₂ R as bs) {a : α} (ha : a ∈ as) : ∃ b, R a b := by
  induction h with
  | nil => cases ha
  | cons hab _ ih =>
    rcases List.mem_cons.mp ha with rfl | ha
    · exact ⟨_, hab⟩
    · exact ih ha

variable {V : Type*}

/-- The event is one of the countdown of the input PV. -/
def PushEvent.At (x : Nat) : PushEvent V → Prop
  | .push p _ _ | .forward p _ _ => p = x
  | .write .. => False

/-- What a push does, however it ends, in a call that holds the locks of the PVs `held`: it adds
`l` to the log and changes no link, and if it takes no lock again it leaves the held PVs alone. -/
structure Frame (held : List Nat) (s s' : PushState V) (r : PushEnd) (l : List (PushEvent V)) :
    Prop where
  log : s'.log = s.log ++ l
  subscribers : ∀ x,
    (s'.inputPVs x).subscriberOutputPVs = (s.inputPVs x).subscriberOutputPVs
  destinations : ∀ x,
    (s'.inputPVs x).replicationDestinationPVs = (s.inputPVs x).replicationDestinationPVs
  held : (∀ q, r ≠ .relocked q) → ∀ x ∈ held,
    s'.inputPVs x = s.inputPVs x ∧ ∀ ev ∈ l, ¬ ev.At x

section

variable {write : Nat → Timespec → V → Option Exn} {t : Timespec} {v : V} {s s' : PushState V}
  {r : PushEnd} {held : List Nat}

theorem Frame.trans {s1 : PushState V} {l1 l2 : List (PushEvent V)}
    (h1 : Frame held s s1 .returned l1) (h2 : Frame held s1 s' r l2) :
    Frame held s s' r (l1 ++ l2) where
  log := by rw [h2.log, h1.log, List.append_assoc]
  subscribers x := (h2.subscribers x).trans (h1.subscribers x)
  destinations x := (h2.destinations x).trans (h1.destinations x)
  held hr x hx := by
    obtain ⟨hpv1, hl1⟩ := h1.held returned_ne_relocked x hx
    obtain ⟨hpv2, hl2⟩ := h2.held hr x hx
    refine ⟨hpv2.trans hpv1, fun ev hev => ?_⟩
    rcases List.mem_append.mp hev with hev | hev
    · exact hl1 ev hev
    · exact hl2 ev hev

theorem Frame.linked {subscribers destinations : Nat → OrdSet Nat} {l : List (PushEvent V)}
    (h : Frame held s s' r l) (hl : Linked subscribers destinations s) :
    Linked subscribers destinations s' :=
  ⟨fun x => (h.subscribers x).trans (hl.subscribers x),
    fun x => (h.destinations x).trans (hl.destinations x)⟩

/-- The loop over the subscribers only adds writes to the log, the same ones in every state, and
ends at the first that throws. -/
theorem writeEach_eq (write : Nat → Timespec → V → Option Exn) (t : Timespec) (v : V) (p : Nat)
    (qs : List Nat) :
    ∃ l, (∀ ev ∈ l, ∃ q ∈ qs, ev = .write p q t v) ∧ ∀ s : PushState V,
      writeEach write t v p qs s = ({ s with log := s.log ++ l }, qs.findSome? (write · t v)) := by
  induction qs with
  | nil => exact ⟨[], by simp, fun s => by simp [writeEach]⟩
  | cons q qs ih =>
    obtain ⟨l, hl, hs⟩ := ih
    cases hq : write q t v with
    | none =>
      refine ⟨.write p q t v :: l, fun ev hev => ?_, fun s => ?_⟩
      · rcases List.mem_cons.mp hev with rfl | hev
        · exact ⟨q, List.mem_cons_self .., rfl⟩
        · obtain ⟨q', hq', rfl⟩ := hl ev hev
          exact ⟨q', List.mem_cons_of_mem _ hq', rfl⟩
      · simp [writeEach, hq, hs]
    | some e =>
      refine ⟨[.write p q t v], fun ev hev => ?_, fun s => by simp [writeEach, hq]⟩
      exact ⟨q, List.mem_cons_self .., List.mem_singleton.mp hev⟩

theorem writeEach_log {p : Nat} {qs : List Nat} {e : Option Exn}
    (h : writeEach write t v p qs s = (s', e)) :
    ∃ l, s' = { s with log := s.log ++ l } ∧ ∀ ev ∈ l, ∃ q ∈ qs, ev = .write p q t v := by
  obtain ⟨l, hl, hs⟩ := writeEach_eq write t v p qs
  rw [hs] at h
  exact ⟨l, (Prod.mk.inj h).1.symm, hl⟩

theorem writeEach_frame (held : List Nat) (r : PushEnd) {p : Nat} {qs : List Nat} {e : Option Exn}
    (h : writeEach write t v p qs s = (s', e)) : ∃ l, Frame held s s' r l := by
  obtain ⟨l, rfl, hl⟩ := writeEach_log h
  refine ⟨l, rfl, fun _ => rfl, fun _ => rfl, fun _ x _ => ⟨rfl, fun ev hev => ?_⟩⟩
  obtain ⟨q, -, rfl⟩ := hl ev hev
  exact id

theorem accepted_of_writeEach {p : Nat} {qs : List Nat}
    (h : writeEach write t v p qs s = (s', none)) : ∀ q ∈ qs, write q t v = none := by
  obtain ⟨l, -, hs⟩ := writeEach_eq write t v p qs
  rw [hs] at h
  exact List.findSome?_eq_none_iff.mp (Prod.mk.inj h).2

theorem pushEach_frame {push : Nat → PushState V → Option (PushState V × PushEnd)} {ds : List Nat}
    (hpush : ∀ {d s s' r}, push d s = some (s', r) → ∃ l, Frame held s s' r l)
    (h : pushEach push ds s = some (s', r)) : ∃ l, Frame held s s' r l := by
  induction ds generalizing s with
  | nil =>
    obtain ⟨rfl, rfl⟩ := Prod.mk.inj (Option.some.inj h)
    exact ⟨[], ⟨by simp, fun _ => rfl, fun _ => rfl, fun _ _ _ => ⟨rfl, fun _ h => by cases h⟩⟩⟩
  | cons d ds ih =>
    rw [pushEach] at h
    split at h
    · next s1 hd =>
      obtain ⟨l1, h1⟩ := hpush hd
      obtain ⟨l2, h2⟩ := ih h
      exact ⟨l1 ++ l2, h1.trans h2⟩
    · exact hpush h

theorem pushEach_returned {push : Nat → PushState V → Option (PushState V × PushEnd)}
    {ds : List Nat} {subscribers destinations : Nat → OrdSet Nat}
    (hpush : ∀ {d s s' r}, push d s = some (s', r) → ∃ l, Frame held s s' r l)
    (hlinks : Linked subscribers destinations s)
    (h : pushEach push ds s = some (s', .returned)) :
    ∃ logs, s'.log = s.log ++ logs.flatten ∧
      List.Forall₂ (fun d l => ∃ s s', Linked subscribers destinations s ∧
        push d s = some (s', .returned) ∧ s'.log = s.log ++ l) ds logs := by
  induction ds generalizing s with
  | nil =>
    obtain ⟨rfl, -⟩ := Prod.mk.inj (Option.some.inj h)
    exact ⟨[], by simp, .nil⟩
  | cons d ds ih =>
    rw [pushEach] at h
    split at h
    · next s1 hd =>
      obtain ⟨l, hl⟩ := hpush hd
      obtain ⟨logs, hlog, hlogs⟩ := ih (hl.linked hlinks) h
      exact ⟨l :: logs, by rw [hlog, hl.log]; simp, .cons ⟨s, s1, hlinks, hd, hl.log⟩ hlogs⟩
    · next hne => exact absurd h (hne s')

/-- What arrives at a PV counts, and may be forwarded. -/
def arrival (t : Timespec) (v : V) (p : Nat) (pv : PVBaseIn) : List (PushEvent V) :=
  .push p t v :: if pv.decimate.2 then [.forward p t v] else []

theorem arrive_frame {p : Nat} (hp : (∀ q, r ≠ .relocked q) → p ∉ held) :
    Frame held s (arrive t v p s) r (arrival t v p (s.inputPVs p)) where
  log := rfl
  subscribers := (Linked.arrive ⟨fun _ => rfl, fun _ => rfl⟩ p).subscribers
  destinations := (Linked.arrive ⟨fun _ => rfl, fun _ => rfl⟩ p).destinations
  held hr x hx := by
    have hxp : x ≠ p := fun h => hp hr (h ▸ hx)
    refine ⟨Function.update_of_ne hxp .., fun ev hev hat => hxp ?_⟩
    rcases List.mem_cons.mp hev with rfl | hev
    · exact hat.symm
    · split at hev
      · rw [List.mem_singleton.mp hev] at hat
        exact hat.symm
      · cases hev

/-- The ways a push can go: it stops at its own lock, at a subscriber that throws, or it comes to
the replication destinations. -/
theorem push_cases {n p : Nat} (h : push write t v (n + 1) held p s = some (s', r)) :
    (p ∈ held ∧ s' = arrive t v p s ∧ r = .relocked p) ∨
    (p ∉ held ∧ ∃ e, r = .threw e ∧ writeEach write t v p
      (s.inputPVs p).subscriberOutputPVs.elems (arrive t v p s) = (s', some e)) ∨
    (p ∉ held ∧ ∃ s1, writeEach write t v p
      (s.inputPVs p).subscriberOutputPVs.elems (arrive t v p s) = (s1, none) ∧
      pushEach (push write t v n (p :: held))
        (s.inputPVs p).replicationDestinationPVs.elems s1 = some (s', r)) := by
  have hlinks : Linked (fun x => (s.inputPVs x).subscriberOutputPVs)
      (fun x => (s.inputPVs x).replicationDestinationPVs) (arrive t v p s) :=
    Linked.arrive ⟨fun _ => rfl, fun _ => rfl⟩ p
  rw [push] at h
  simp only [hlinks.subscribers] at h
  split at h
  · next hp =>
    obtain ⟨rfl, rfl⟩ := Prod.mk.inj (Option.some.inj h)
    exact .inl ⟨hp, rfl, rfl⟩
  · next hp =>
    split at h
    · next e hw =>
      obtain ⟨rfl, rfl⟩ := Prod.mk.inj (Option.some.inj h)
      exact .inr (.inl ⟨hp, _, rfl, hw⟩)
    · next s1 hw =>
      obtain ⟨l, rfl, -⟩ := writeEach_log hw
      refine .inr (.inr ⟨hp, _, hw, ?_⟩)
      rw [← hlinks.destinations]
      exact h

theorem push_frame {n p : Nat} (h : push write t v n held p s = some (s', r)) :
    ∃ l, Frame held s s' r l := by
  induction n generalizing held p s s' r with
  | zero => cases h
  | succ n ih =>
    rcases push_cases h with ⟨-, rfl, rfl⟩ | ⟨hp, e, rfl, hw⟩ | ⟨hp, s1, hw, hds⟩
    · exact ⟨_, arrive_frame fun hr => absurd rfl (hr p)⟩
    · obtain ⟨l, hl⟩ := writeEach_frame held (.threw e) hw
      exact ⟨_, (arrive_frame fun _ => hp).trans hl⟩
    · obtain ⟨l, hl⟩ := writeEach_frame held .returned hw
      obtain ⟨l', hl'⟩ := pushEach_frame ih hds
      have hds' : Frame held s1 s' r l' := ⟨hl'.log, hl'.subscribers, hl'.destinations,
        fun hr x hx => hl'.held hr x (List.mem_cons_of_mem _ hx)⟩
      exact ⟨_, ((arrive_frame fun _ => hp).trans hl).trans hds'⟩

/-- What follows the arrival when the value is delivered: the subscribers are written once each, in
their order, and then the replication destinations are pushed once each, every push of them adding
its own log. -/
def Delivered (write : Nat → Timespec → V → Option Exn) (t : Timespec) (v : V) (p : Nat)
    (pv : PVBaseIn) (l : List (PushEvent V)) : Prop :=
  ∃ logs : List (List (PushEvent V)),
    l = pv.subscriberOutputPVs.elems.map (.write p · t v) ++ logs.flatten ∧
    List.Forall₂ (fun d l => ∃ fuel held s s', push write t v fuel held d s = some (s', .returned) ∧
      s'.log = s.log ++ l) pv.replicationDestinationPVs.elems logs

/-- **The shape of a push.** The value arrives at the PV, and what follows does not touch its
countdown unless the call takes a lock again. -/
theorem push_shape {n p : Nat} (h : push write t v n held p s = some (s', r)) :
    ∃ rest, s'.log = s.log ++ (arrival t v p (s.inputPVs p) ++ rest) ∧
      ((∀ q, r ≠ .relocked q) → s'.inputPVs p = (s.inputPVs p).decimate.1 ∧
        ∀ ev ∈ rest, ¬ ev.At p) ∧
      (r = .returned → Delivered write t v p (s.inputPVs p) rest) := by
  cases n with
  | zero => cases h
  | succ n =>
    have hpv : (arrive t v p s).inputPVs p = (s.inputPVs p).decimate.1 := Function.update_self ..
    rcases push_cases h with ⟨hp, rfl, rfl⟩ | ⟨hp, e, rfl, hw⟩ | ⟨hp, s1, hw, hds⟩
    · exact ⟨[], by simp [arrive, arrival], fun hr => absurd rfl (hr p), fun h => by cases h⟩
    · obtain ⟨l, hl⟩ := writeEach_frame [p] (.threw e) hw
      refine ⟨l, by rw [hl.log]; simp [arrive, arrival], fun hr => ?_, fun h => by cases h⟩
      rw [← hpv]
      exact hl.held hr p (List.mem_singleton_self p)
    · have hw' := writeEach_of_accepted (s := arrive t v p s) (p := p) (accepted_of_writeEach hw)
      rw [hw] at hw'
      obtain rfl := (Prod.mk.inj hw').1
      obtain ⟨l, hl⟩ := pushEach_frame push_frame hds
      refine ⟨(s.inputPVs p).subscriberOutputPVs.elems.map (.write p · t v) ++ l, ?_, fun hr => ?_,
        ?_⟩
      · rw [hl.log]
        simp [arrive, arrival]
      · obtain ⟨hkept, hnot⟩ := hl.held hr p (List.mem_cons_self ..)
        refine ⟨hkept.trans hpv, fun ev hev => ?_⟩
        rcases List.mem_append.mp hev with hev | hev
        · obtain ⟨q, -, rfl⟩ := List.mem_map.mp hev
          exact id
        · exact hnot ev hev
      · rintro rfl
        obtain ⟨logs, hlog, hlogs⟩ :=
          pushEach_returned push_frame ⟨fun _ => rfl, fun _ => rfl⟩ hds
        have hll : l = logs.flatten := List.append_cancel_left (hl.log.symm.trans hlog)
        refine ⟨logs, by rw [hll], hlogs.imp fun d l h => ?_⟩
        obtain ⟨s2, s3, -, hd, hlog⟩ := h
        exact ⟨n, p :: held, s2, s3, hd, hlog⟩

/-- A push that returns has met no cycle, no lock of its call, and no subscriber that throws. -/
theorem passed_of_push {subscribers destinations : Nat → OrdSet Nat} {n p : Nat}
    (hl : Linked subscribers destinations s)
    (h : push write t v n held p s = some (s', .returned)) :
    Depth (succ destinations) n p ∧
      (∀ x ∈ held, ¬ ReflTransGen (Edge (succ destinations)) p x) ∧
      ∀ x, ReflTransGen (Edge (succ destinations)) p x → ∀ q ∈ subscribers x,
        write q t v = none := by
  induction n generalizing held p s s' with
  | zero => cases h
  | succ n ih =>
    rcases push_cases h with ⟨-, -, hr⟩ | ⟨-, e, hr, -⟩ | ⟨hp, s1, hw, hds⟩
    · cases hr
    · cases hr
    obtain ⟨l, hl1⟩ := writeEach_frame held .returned hw
    obtain ⟨logs, -, hlogs⟩ := pushEach_returned push_frame (hl1.linked (hl.arrive p)) hds
    have hdst : ∀ d ∈ succ destinations p, Depth (succ destinations) n d ∧
        (∀ x ∈ p :: held, ¬ ReflTransGen (Edge (succ destinations)) d x) ∧
        ∀ x, ReflTransGen (Edge (succ destinations)) d x → ∀ q ∈ subscribers x,
          write q t v = none := by
      intro d hd
      rw [succ, ← hl.destinations] at hd
      obtain ⟨l, s2, s3, hl2, hd, -⟩ := exists_of_forall₂ hlogs hd
      exact ih hl2 hd
    refine ⟨fun d hd => (hdst d hd).1, fun x hx hpx => ?_, fun x hpx => ?_⟩
    · rcases ReflTransGen.cases_head hpx with rfl | ⟨d, hd, hdx⟩
      · exact hp hx
      · exact (hdst d hd).2.1 x (List.mem_cons_of_mem _ hx) hdx
    · rcases ReflTransGen.cases_head hpx with rfl | ⟨d, hd, hdx⟩
      · rw [← hl.subscribers]
        exact accepted_of_writeEach hw
      · exact (hdst d hd).2.2 x hdx

/-- The event is one of a push along the replications from `p`. -/
def PushEvent.Along (subscribers destinations : Nat → OrdSet Nat) (p : Nat) (t : Timespec) (v : V)
    (ev : PushEvent V) : Prop :=
  ∃ x, ReflTransGen (Edge (succ destinations)) p x ∧
    (ev = .push x t v ∨ ev = .forward x t v ∨ ∃ q ∈ subscribers x, ev = .write x q t v)

section

variable {subscribers destinations : Nat → OrdSet Nat}

theorem PushEvent.Along.head {p d : Nat} {ev : PushEvent V} (hd : d ∈ destinations p)
    (h : ev.Along subscribers destinations d t v) : ev.Along subscribers destinations p t v := by
  obtain ⟨x, hx, hev⟩ := h
  exact ⟨x, .head hd hx, hev⟩

theorem pushEach_events {push : Nat → PushState V → Option (PushState V × PushEnd)} {ds : List Nat}
    {P : PushEvent V → Prop} (hl : Linked subscribers destinations s)
    (hpush : ∀ {d s s' r}, d ∈ ds → Linked subscribers destinations s →
      push d s = some (s', r) →
      Linked subscribers destinations s' ∧ ∀ ev ∈ s'.log, ev ∈ s.log ∨ P ev)
    (h : pushEach push ds s = some (s', r)) : ∀ ev ∈ s'.log, ev ∈ s.log ∨ P ev := by
  induction ds generalizing s with
  | nil =>
    obtain ⟨rfl, -⟩ := Prod.mk.inj (Option.some.inj h)
    exact fun ev hev => .inl hev
  | cons d ds ih =>
    rw [pushEach] at h
    split at h
    · next s1 hd =>
      obtain ⟨hl1, hev1⟩ := hpush (List.mem_cons_self ..) hl hd
      intro ev hev
      rcases ih hl1 (fun hd => hpush (List.mem_cons_of_mem _ hd)) h ev hev with hev | hev
      · exact hev1 ev hev
      · exact .inr hev
    · exact (hpush (List.mem_cons_self ..) hl h).2

theorem arrive_events (p : Nat) :
    ∀ ev ∈ (arrive t v p s).log, ev ∈ s.log ∨ ev.Along subscribers destinations p t v := by
  intro ev hev
  refine (List.mem_append.mp hev).imp_right fun hev => ⟨p, .refl, ?_⟩
  rcases List.mem_cons.mp hev with rfl | hev
  · exact .inl rfl
  · split at hev
    · exact .inr (.inl (List.mem_singleton.mp hev))
    · cases hev

theorem writeEach_events {p : Nat} {s1 : PushState V} {e : Option Exn}
    (hl : Linked subscribers destinations s)
    (h : writeEach write t v p (s.inputPVs p).subscriberOutputPVs.elems (arrive t v p s) =
      (s1, e)) :
    ∀ ev ∈ s1.log, ev ∈ s.log ∨ ev.Along subscribers destinations p t v := by
  intro ev hev
  obtain ⟨l, rfl, hwrite⟩ := writeEach_log h
  rcases List.mem_append.mp hev with hev | hev
  · exact arrive_events p ev hev
  · obtain ⟨q, hq, rfl⟩ := hwrite ev hev
    rw [hl.subscribers] at hq
    exact .inr ⟨p, .refl, .inr (.inr ⟨q, hq, rfl⟩)⟩

/-- **What a push reaches.** Everything a push does, it does along the replications from its PV. -/
theorem push_events {n p : Nat} (hl : Linked subscribers destinations s)
    (h : push write t v n held p s = some (s', r)) :
    ∀ ev ∈ s'.log, ev ∈ s.log ∨ ev.Along subscribers destinations p t v := by
  induction n generalizing held p s s' r with
  | zero => cases h
  | succ n ih =>
    rcases push_cases h with ⟨-, rfl, -⟩ | ⟨-, e, -, hw⟩ | ⟨-, s1, hw, hds⟩
    · exact arrive_events p
    · exact writeEach_events hl hw
    · obtain ⟨l, hf⟩ := writeEach_frame held .returned hw
      rw [hl.destinations] at hds
      have hpush : ∀ {d s s' r}, d ∈ (destinations p).elems → Linked subscribers destinations s →
          push write t v n (p :: held) d s = some (s', r) →
          Linked subscribers destinations s' ∧
            ∀ ev ∈ s'.log, ev ∈ s.log ∨ ev.Along subscribers destinations p t v := by
        intro d s2 s3 r hd hl2 hpush
        obtain ⟨l, hf⟩ := push_frame hpush
        exact ⟨hf.linked hl2, fun ev hev => (ih hl2 hpush ev hev).imp_right (.head hd)⟩
      intro ev hev
      rcases pushEach_events (hf.linked (hl.arrive p)) hpush hds ev hev with hev | hev
      · exact writeEach_events hl hw ev hev
      · exact .inr hev

end

end

end Nds3
