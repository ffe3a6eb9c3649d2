import Nds3.Registry.Decimation

/-!
# Decimation zero

A factor of zero is documented to switch the forwarding off. The count wraps around instead, so the
push number `2 ^ 32` is forwarded. What is left of the promise depends on the links too: a push that
one of them ends with an exception does not come to those behind it. All links are served when all
but the last one return, and the last one comes back (`PushCall.Serves`). A push that would take a
lock of its own again, which is undefined behaviour, does not come back.
-/

namespace Nds3

open Relation Dag

variable {V : Type*}

/-! ## The loops up to their last element -/

section

variable {write : Nat → Timespec → V → Option Exn} {t : Timespec} {v : V} {s s' s1 : PushState V}
  {push : Nat → PushState V → Option (PushState V × PushEnd)} {p : Nat} {qs : List Nat}
  {ds ds' : List Nat}

theorem writeEach_threw {e : Exn} (h : writeEach write t v p qs s = (s', some e)) :
    ∃ qs1 q qs2, qs = qs1 ++ q :: qs2 ∧ (∀ x ∈ qs1, write x t v = none) ∧ write q t v = some e ∧
      s'.log = s.log ++ (qs1 ++ [q]).map (.write p · t v) := by
  induction qs generalizing s with
  | nil => cases h
  | cons q qs ih =>
    rw [writeEach] at h
    split at h
    · next hq =>
      obtain ⟨qs1, q', qs2, rfl, hqs1, hq', hlog⟩ := ih h
      refine ⟨q :: qs1, q', qs2, rfl, List.forall_mem_cons.mpr ⟨hq, hqs1⟩, hq', ?_⟩
      rw [hlog]
      simp
    · next e' hq =>
      obtain ⟨rfl, he⟩ := Prod.mk.inj h
      exact ⟨[], q, qs, rfl, by simp, hq.trans he, rfl⟩

theorem writeEach_of_dropLast (h : ∀ q ∈ qs.dropLast, write q t v = none) :
    ∃ e, writeEach write t v p qs s = ({ s with log := s.log ++ qs.map (.write p · t v) }, e) := by
  induction qs generalizing s with
  | nil => exact ⟨none, by simp [writeEach]⟩
  | cons q qs ih =>
    cases qs with
    | nil =>
      cases hq : write q t v with
      | none => exact ⟨none, by simp [writeEach, hq]⟩
      | some e => exact ⟨some e, by simp [writeEach, hq]⟩
    | cons q' qs =>
      rw [List.dropLast_cons_cons, List.forall_mem_cons] at h
      obtain ⟨e, he⟩ := @ih { s with log := s.log ++ [.write p q t v] } h.2
      refine ⟨e, ?_⟩
      rw [writeEach, h.1]
      simp only
      rw [he]
      simp

theorem pushEach_append : pushEach push (ds ++ ds') s =
    match pushEach push ds s with
    | some (s, .returned) => pushEach push ds' s
    | r => r := by
  induction ds generalizing s with
  | nil => rfl
  | cons d ds ih =>
    rw [List.cons_append, pushEach, pushEach]
    split
    · exact ih
    · next hne =>
      split
      · next s1 h => exact absurd h (hne s1)
      · rfl

theorem pushEach_singleton {d : Nat} : pushEach push [d] s = push d s := by
  rw [pushEach]
  split
  · next h => rw [h]; rfl
  · rfl

theorem pushEach_threw {e : Exn} (h : pushEach push ds s = some (s', .threw e)) :
    ∃ ds1 d ds2 s1, ds = ds1 ++ d :: ds2 ∧ pushEach push ds1 s = some (s1, .returned) ∧
      push d s1 = some (s', .threw e) := by
  induction ds generalizing s with
  | nil => cases h
  | cons d ds ih =>
    rw [pushEach] at h
    split at h
    · next s1 hd =>
      obtain ⟨ds1, d', ds2, s2, rfl, h1, h2⟩ := ih h
      exact ⟨d :: ds1, d', ds2, s2, rfl, by rw [pushEach, hd]; exact h1, h2⟩
    · exact ⟨[], d, ds, s, rfl, rfl, h⟩

end

namespace PushCall

variable {fuel p d : Nat} {s s' s1 : PushState V} {n : Nat} {held ds : List Nat} {c : PushCall V}
  {subscribers destinations : Nat → OrdSet Nat}

/-! ## How a push comes back -/

section

variable (subscribers destinations) (c)

/-- No chain of replications from the PV has a cycle or leads to a PV whose lock is held, and the
output PVs along the chains accept the value. -/
structure Returns (held : List Nat) (p : Nat) : Prop where
  depth : ∃ n, Depth (succ destinations) n p
  apart : ∀ x ∈ held, ¬ ReflTransGen (Edge (succ destinations)) p x
  accepted : ∀ x, ReflTransGen (Edge (succ destinations)) p x → ∀ q ∈ subscribers x,
    c.write q c.timestamp c.value = none

/-- A chain of replications from the PV leads to an output PV that throws, and what comes before it
returns. -/
inductive Throws : List Nat → Nat → Prop where
  | here {held : List Nat} {p q : Nat} (hp : p ∉ held) (hq : q ∈ subscribers p)
      (hthrows : c.write q c.timestamp c.value ≠ none) : Throws held p
  | there {held : List Nat} {p : Nat} {ds : List Nat} {d : Nat} {ds' : List Nat} (hp : p ∉ held)
      (haccept : ∀ q ∈ subscribers p, c.write q c.timestamp c.value = none)
      (hsplit : (destinations p).elems = ds ++ d :: ds')
      (hreturn : ∀ x ∈ ds, c.Returns subscribers destinations (p :: held) x)
      (hthrows : Throws (p :: held) d) : Throws held p

/-- All links of the PV return but the last one, in the order of the loops, which returns or ends
with an exception. -/
structure Serves (p : Nat) : Prop where
  written : ∀ q, q ∈ (if (destinations p).elems = [] then (subscribers p).elems.dropLast
    else (subscribers p).elems) → c.write q c.timestamp c.value = none
  pushed : ∀ ds d, (destinations p).elems = ds ++ [d] →
    (∀ x ∈ ds, c.Returns subscribers destinations [p] x) ∧
      (c.Returns subscribers destinations [p] d ∨ c.Throws subscribers destinations [p] d)

end

abbrev run (c : PushCall V) : Nat → List Nat → Nat → PushState V → Option (PushState V × PushEnd) :=
  Nds3.push c.write c.timestamp c.value

theorem returns_of_push (hl : Linked subscribers destinations s)
    (h : c.run fuel held p s = some (s', .returned)) :
    c.Returns subscribers destinations held p := by
  obtain ⟨hd, ha, hw⟩ := passed_of_push hl h
  exact ⟨⟨fuel, hd⟩, ha, hw⟩

theorem Returns.push (h : c.Returns subscribers destinations held p) : ∃ N, ∀ fuel ≥ N, ∀ {s},
    Linked subscribers destinations s → ∃ s', c.run fuel held p s = some (s', .returned) := by
  obtain ⟨N, hN⟩ := h.depth
  exact ⟨N, fun fuel hfuel s hl =>
    ⟨_, push_eq_walk hl (hN.mono hfuel) h.apart h.accepted⟩⟩

theorem run_linked {r : PushEnd} (hl : Linked subscribers destinations s)
    (h : c.run fuel held p s = some (s', r)) : Linked subscribers destinations s' := by
  obtain ⟨l, hf⟩ := push_frame h
  exact hf.linked hl

theorem pushEach_linked {r : PushEnd} (hl : Linked subscribers destinations s)
    (h : pushEach (c.run fuel held) ds s = some (s', r)) : Linked subscribers destinations s' := by
  obtain ⟨l, hf⟩ := pushEach_frame push_frame h
  exact hf.linked hl

theorem returns_of_pushEach (hl : Linked subscribers destinations s)
    (h : pushEach (c.run fuel held) ds s = some (s', .returned)) :
    ∀ x ∈ ds, c.Returns subscribers destinations held x := by
  intro x hx
  obtain ⟨logs, -, hlogs⟩ := pushEach_returned push_frame hl h
  obtain ⟨l, s2, s3, hl2, hd, -⟩ := exists_of_forall₂ hlogs hx
  exact returns_of_push hl2 hd

/-- One bound on the fuel for all destinations. -/
theorem pushEach_of_returns (h : ∀ x ∈ ds, c.Returns subscribers destinations held x) :
    ∃ N, ∀ fuel ≥ N, ∀ {s}, Linked subscribers destinations s →
      ∃ s', pushEach (c.run fuel held) ds s = some (s', .returned) := by
  induction ds with
  | nil => exact ⟨0, fun _ _ s _ => ⟨s, rfl⟩⟩
  | cons d ds ih =>
    obtain ⟨hd, hds⟩ := List.forall_mem_cons.mp h
    obtain ⟨N, hN⟩ := hd.push
    obtain ⟨M, hM⟩ := ih hds
    refine ⟨max N M, fun fuel hfuel s hl => ?_⟩
    obtain ⟨s1, h1⟩ := hN fuel (le_of_max_le_left hfuel) hl
    obtain ⟨s2, h2⟩ := hM fuel (le_of_max_le_right hfuel) (run_linked hl h1)
    exact ⟨s2, by rw [pushEach, h1]; exact h2⟩

theorem throws_of_push {e : Exn} (hl : Linked subscribers destinations s)
    (h : c.run fuel held p s = some (s', .threw e)) :
    c.Throws subscribers destinations held p := by
  induction fuel generalizing held p s s' with
  | zero => cases h
  | succ fuel ih =>
    rcases push_cases h with ⟨-, -, hr⟩ | ⟨hp, e', -, hw⟩ | ⟨hp, s1, hw, hds⟩
    · cases hr
    · obtain ⟨qs1, q, qs2, hqs, -, hq, -⟩ := writeEach_threw hw
      have hmem : q ∈ (s.inputPVs p).subscriberOutputPVs.elems := hqs ▸ by simp
      rw [hl.subscribers] at hmem
      exact .here hp hmem (by rw [hq]; simp)
    · obtain ⟨l, hf⟩ := writeEach_frame held .returned hw
      have hl1 : Linked subscribers destinations s1 := hf.linked (hl.arrive p)
      obtain ⟨ds1, d, ds2, s2, hsplit, h1, h2⟩ := pushEach_threw hds
      rw [hl.destinations] at hsplit
      have hw := accepted_of_writeEach hw
      rw [hl.subscribers] at hw
      exact .there hp hw hsplit (returns_of_pushEach hl1 h1) (ih (pushEach_linked hl1 h1) h2)

theorem Throws.push (h : c.Throws subscribers destinations held p) : ∃ N, ∀ fuel ≥ N, ∀ {s},
    Linked subscribers destinations s → ∃ s' e, c.run fuel held p s = some (s', .threw e) := by
  induction h with
  | @here held p q hp hq hthrows =>
    refine ⟨1, fun fuel hfuel s hl => ?_⟩
    obtain ⟨fuel, rfl⟩ := Nat.exists_eq_add_one_of_ne_zero (by omega : fuel ≠ 0)
    rw [run, Nds3.push, if_neg hp, (hl.arrive p).subscribers]
    cases hw : writeEach c.write c.timestamp c.value p (subscribers p).elems
        (arrive c.timestamp c.value p s) with
    | mk s1 e =>
      cases e with
      | some e => exact ⟨s1, e, rfl⟩
      | none => exact absurd (accepted_of_writeEach hw q hq) hthrows
  | @there held p ds d ds' hp haccept hsplit hreturn _ ih =>
    obtain ⟨N, hN⟩ := pushEach_of_returns hreturn
    obtain ⟨M, hM⟩ := ih
    refine ⟨max N M + 1, fun fuel hfuel s hl => ?_⟩
    obtain ⟨fuel, rfl⟩ := Nat.exists_eq_add_one_of_ne_zero (by omega : fuel ≠ 0)
    have hvisit : Linked subscribers destinations (visit c.timestamp c.value s p) := hl.visit p
    obtain ⟨s1, h1⟩ := hN fuel (by omega) hvisit
    obtain ⟨s2, e, h2⟩ := hM fuel (by omega) (pushEach_linked hvisit h1)
    have h2 : Nds3.push c.write c.timestamp c.value fuel (p :: held) d s1 =
        some (s2, .threw e) := h2
    refine ⟨s2, e, ?_⟩
    rw [run, push_of_accepted hl hp haccept, succ, hsplit, pushEach_append, h1]
    simp only
    rw [pushEach, h2]

/-! ## What is withheld and delivered -/

/-- The loop over the destinations has come to the last of them. -/
def PushesAll (push : Nat → PushState V → Option (PushState V × PushEnd)) (ds : List Nat)
    (s s' : PushState V) : Prop :=
  ds = [] ∧ s' = s ∨ ∃ ds' d s1 r, ds = ds' ++ [d] ∧ pushEach push ds' s = some (s1, .returned) ∧
    push d s1 = some (s', r)

/-- The push comes back, the control system is not given the value, and every link is. -/
structure Withheld (fuel p : Nat) (c : PushCall V) (s s' : PushState V) : Prop where
  /-- It takes no lock again; it may end with an exception. -/
  ends : ∃ r, c.run fuel [] p s = some (s', r) ∧ ∀ q, r ≠ .relocked q
  withheld : ∃ rest, s'.log = s.log ++ rest ∧ ∀ t v, .forward p t v ∉ rest
  /-- Behind the writes of all subscribers the destinations are pushed, all of them. -/
  delivers : PushesAll (c.run (fuel - 1) [p]) (s.inputPVs p).replicationDestinationPVs.elems
    (visit c.timestamp c.value s p) s'

/-- All the pushes of a sequence are withheld. -/
def AllWithheld (fuel p : Nat) : List (PushCall V) → PushState V → Prop
  | [], _ => True
  | c :: cs, s => ∃ s', c.Withheld fuel p s s' ∧ AllWithheld fuel p cs s'

theorem decimate_counted (h : (s.inputPVs p).Counted 0 n) (hn : n < 2 ^ 32) :
    (s.inputPVs p).decimate.2 = true ↔ n + 1 = 2 ^ 32 := by
  refine h.decimate.2.trans ⟨fun hd => ?_, fun h => ?_⟩
  · exact le_antisymm hn (Nat.le_of_dvd n.succ_pos hd)
  · rw [h]
    exact dvd_refl _

theorem Withheld.counted {d : UInt32} (h : c.Withheld fuel p s s')
    (hc : (s.inputPVs p).Counted d n) : (s'.inputPVs p).Counted d (n + 1) := by
  obtain ⟨r, hr, hne⟩ := h.ends
  obtain ⟨rest, -, hcount, -⟩ := push_shape hr
  rw [(hcount hne).1]
  exact hc.decimate.1

theorem Withheld.not_forwarded (h : c.Withheld fuel p s s') :
    (s.inputPVs p).decimate.2 = false := by
  obtain ⟨r, hr, -⟩ := h.ends
  obtain ⟨rest, hlog, hnot⟩ := h.withheld
  obtain ⟨rest', hlog', -⟩ := push_shape hr
  by_contra hf
  rw [hlog, arrival, if_pos (by simpa using hf)] at hlog'
  have hrest := List.append_cancel_left hlog'
  exact hnot c.timestamp c.value (hrest ▸ by simp)

theorem pushesAll_concat {push : Nat → PushState V → Option (PushState V × PushEnd)} :
    PushesAll push (ds ++ [d]) s s' ↔
      ∃ s1 r, pushEach push ds s = some (s1, .returned) ∧ push d s1 = some (s', r) := by
  constructor
  · rintro (⟨h, -⟩ | ⟨ds', d', s1, r, h, h1, h2⟩)
    · simp at h
    · obtain ⟨hds, hd⟩ := List.append_inj' h rfl
      obtain rfl := hds
      obtain rfl := List.singleton_inj.mp hd
      exact ⟨s1, r, h1, h2⟩
  · rintro ⟨s1, r, h1, h2⟩
    exact .inr ⟨ds, d, s1, r, rfl, h1, h2⟩

/-- A subscriber that throws is the last link of its PV if all links are served. -/
theorem last_of_threw {e : Exn}
    (hw : writeEach c.write c.timestamp c.value p (s.inputPVs p).subscriberOutputPVs.elems
      (arrive c.timestamp c.value p s) = (s', some e))
    (hdel : PushesAll (c.run fuel held) ds (visit c.timestamp c.value s p) s') :
    ds = [] ∧ ∀ q ∈ (s.inputPVs p).subscriberOutputPVs.elems.dropLast,
      c.write q c.timestamp c.value = none := by
  obtain ⟨qs1, q, qs2, hqs, hqs1, -, hlog⟩ := writeEach_threw hw
  have hlen := congrArg List.length hlog
  have hvisit : (visit c.timestamp c.value s p).log.length =
      (arrive c.timestamp c.value p s).log.length + (qs1 ++ q :: qs2).length := by
    rw [← hqs, visit, List.length_append, List.length_map]
  simp only [List.length_append, List.length_map, List.length_cons, List.length_nil] at hlen hvisit
  rcases hdel with ⟨rfl, rfl⟩ | ⟨ds', d, s1, r, -, h1, h2⟩
  · have hqs2 : qs2 = [] := List.eq_nil_of_length_eq_zero (by omega)
    refine ⟨rfl, ?_⟩
    rw [hqs, hqs2, List.dropLast_concat]
    exact hqs1
  · -- a push of the loop would be seen in the log behind all the writes
    obtain ⟨l, hf⟩ : ∃ l, Frame held _ s1 .returned l := pushEach_frame push_frame h1
    obtain ⟨rest, hrest, -⟩ := push_shape h2
    have hlen1 := congrArg List.length hf.log
    have hlen2 := congrArg List.length hrest
    simp only [arrival, List.length_append, List.length_cons] at hlen1 hlen2
    omega

/-- A push comes to all destinations only if those before the last return. -/
theorem Withheld.serves (hl : Linked subscribers destinations s) (h : c.Withheld fuel p s s') :
    c.Serves subscribers destinations p := by
  obtain ⟨⟨r, hr, hne⟩, -, hdel⟩ := h
  cases fuel with
  | zero => cases hr
  | succ fuel =>
    rw [Nat.add_sub_cancel, hl.destinations] at hdel
    have hvisit : Linked subscribers destinations (visit c.timestamp c.value s p) := hl.visit p
    rcases push_cases hr with ⟨hp, -⟩ | ⟨hp, e, -, hw⟩ | ⟨hp, s1, hw, hds⟩
    · cases hp
    · -- a subscriber throws: nothing comes after it, so it is the last link
      obtain ⟨hnil, hlast⟩ := last_of_threw hw hdel
      rw [hl.subscribers] at hlast
      exact ⟨fun q hq => hlast q (by rwa [if_pos hnil] at hq),
        fun ds d h => absurd (hnil.symm.trans h) (by simp)⟩
    · have haccept := accepted_of_writeEach hw
      rw [writeEach_of_accepted haccept] at hw
      obtain rfl : visit c.timestamp c.value s p = s1 := (Prod.mk.inj hw).1
      rw [hl.subscribers] at haccept
      rw [hl.destinations] at hds
      refine ⟨fun q hq => haccept q ?_, fun ds d hsplit => ?_⟩
      · split at hq
        · exact List.mem_of_mem_dropLast hq
        · exact hq
      · rw [hsplit] at hdel hds
        obtain ⟨s2, r', h1, h2⟩ := pushesAll_concat.mp hdel
        have h2' : c.run fuel [p] d s2 = some (s', r) := by
          rw [pushEach_append, h1] at hds
          exact pushEach_singleton.symm.trans hds
        have hl2 := pushEach_linked hvisit h1
        refine ⟨returns_of_pushEach hvisit h1, ?_⟩
        cases r with
        | returned => exact .inl (returns_of_push hl2 h2')
        | threw e => exact .inr (throws_of_push hl2 h2')
        | relocked q => exact absurd rfl (hne q)

/-- What comes after the arrival of a value does not forward it. -/
theorem withheld_of_run {r : PushEnd} (hf : (s.inputPVs p).decimate.2 = false)
    (hr : c.run fuel [] p s = some (s', r)) (hne : ∀ q, r ≠ .relocked q)
    (hdel : PushesAll (c.run (fuel - 1) [p]) (s.inputPVs p).replicationDestinationPVs.elems
      (visit c.timestamp c.value s p) s') : c.Withheld fuel p s s' := by
  obtain ⟨rest, hlog, hcount, -⟩ := push_shape hr
  refine ⟨⟨r, hr, hne⟩, ⟨_, hlog, fun t v hmem => ?_⟩, hdel⟩
  rw [arrival, hf] at hmem
  simp only [Bool.false_eq_true, if_false, List.cons_append, List.nil_append, List.mem_cons,
    reduceCtorEq, false_or] at hmem
  exact (hcount hne).2 _ hmem rfl

/-- The last destination comes back. -/
theorem exists_run (h : c.Returns subscribers destinations held p ∨
    c.Throws subscribers destinations held p) : ∃ N, ∀ fuel ≥ N, ∀ {s},
      Linked subscribers destinations s →
        ∃ s' r, c.run fuel held p s = some (s', r) ∧ ∀ q, r ≠ .relocked q := by
  rcases h with h | h
  · obtain ⟨N, hN⟩ := h.push
    refine ⟨N, fun fuel hfuel s hl => ?_⟩
    obtain ⟨s', hs'⟩ := hN fuel hfuel hl
    exact ⟨s', .returned, hs', returned_ne_relocked⟩
  · obtain ⟨N, hN⟩ := h.push
    refine ⟨N, fun fuel hfuel s hl => ?_⟩
    obtain ⟨s', e, hs'⟩ := hN fuel hfuel hl
    exact ⟨s', .threw e, hs', fun q h => by cases h⟩

/-- Without destinations the last subscriber may throw. -/
theorem withheld_of_nil (hl : Linked subscribers destinations s)
    (hf : (s.inputPVs p).decimate.2 = false) (hnil : (destinations p).elems = [])
    (hwritten : ∀ q ∈ (subscribers p).elems.dropLast, c.write q c.timestamp c.value = none) :
    c.Withheld (fuel + 1) p s (visit c.timestamp c.value s p) := by
  obtain ⟨e, he⟩ := @writeEach_of_dropLast _ _ _ _ (arrive c.timestamp c.value p s) p _ hwritten
  have hwrite : writeEach c.write c.timestamp c.value p (subscribers p).elems
      (arrive c.timestamp c.value p s) = (visit c.timestamp c.value s p, e) := by
    rw [he, visit, hl.subscribers]
  have hdst := (hl.visit (t := c.timestamp) (v := c.value) p).destinations p
  have hdel : PushesAll (c.run (fuel + 1 - 1) [p]) (s.inputPVs p).replicationDestinationPVs.elems
      (visit c.timestamp c.value s p) (visit c.timestamp c.value s p) := by
    rw [hl.destinations]
    exact .inl ⟨hnil, rfl⟩
  cases e with
  | none =>
    refine withheld_of_run hf ?_ returned_ne_relocked hdel
    rw [run, Nds3.push, if_neg List.not_mem_nil, (hl.arrive p).subscribers, hwrite]
    simp only [hdst, hnil, pushEach]
  | some e =>
    refine withheld_of_run hf (r := .threw e) ?_ (fun q h => by cases h) hdel
    rw [run, Nds3.push, if_neg List.not_mem_nil, (hl.arrive p).subscribers, hwrite]

theorem Serves.withheld (h : c.Serves subscribers destinations p) : ∃ N, ∀ fuel ≥ N, ∀ {s},
    Linked subscribers destinations s → (s.inputPVs p).decimate.2 = false →
      ∃ s', c.Withheld fuel p s s' := by
  rcases List.eq_nil_or_concat (destinations p).elems with hnil | ⟨ds, d, hsplit⟩
  · refine ⟨1, fun fuel hfuel s hl hf => ?_⟩
    obtain ⟨fuel, rfl⟩ := Nat.exists_eq_add_one_of_ne_zero (by omega : fuel ≠ 0)
    have hwritten := h.written
    rw [if_pos hnil] at hwritten
    exact ⟨_, withheld_of_nil hl hf hnil hwritten⟩
  · rw [List.concat_eq_append] at hsplit
    have haccept := h.written
    rw [if_neg (by simp [hsplit])] at haccept
    obtain ⟨hreturn, hlast⟩ := h.pushed ds d hsplit
    obtain ⟨N, hN⟩ := pushEach_of_returns hreturn
    obtain ⟨M, hM⟩ := exists_run hlast
    refine ⟨max N M + 1, fun fuel hfuel s hl hf => ?_⟩
    obtain ⟨fuel, rfl⟩ := Nat.exists_eq_add_one_of_ne_zero (by omega : fuel ≠ 0)
    have hvisit : Linked subscribers destinations (visit c.timestamp c.value s p) := hl.visit p
    obtain ⟨s1, h1⟩ := hN fuel (by omega) hvisit
    obtain ⟨s2, r, h2, hne⟩ := hM fuel (by omega) (pushEach_linked hvisit h1)
    refine ⟨s2, withheld_of_run hf ?_ hne ?_⟩
    · rw [run, push_of_accepted hl List.not_mem_nil haccept, succ, hsplit, pushEach_append, h1]
      exact pushEach_singleton.trans h2
    · rw [hl.destinations, hsplit, Nat.add_sub_cancel]
      exact pushesAll_concat.mpr ⟨s1, r, h1, h2⟩

/-! ## All the pushes of a sequence -/

/-- **Run lemma.** The pushes that are withheld are too few for the count to wrap around. -/
theorem AllWithheld.serves {cs : List (PushCall V)} (hl : Linked subscribers destinations s)
    (hcounted : (s.inputPVs p).Counted 0 n) (hn : n < 2 ^ 32) (h : AllWithheld fuel p cs s) :
    n + cs.length < 2 ^ 32 ∧ ∀ c ∈ cs, c.Serves subscribers destinations p := by
  induction cs generalizing s n with
  | nil => exact ⟨hn, fun _ h => by cases h⟩
  | cons c cs ih =>
    obtain ⟨s', hw, hcs⟩ := h
    have hlt : n + 1 < 2 ^ 32 := by
      refine lt_of_le_of_ne hn fun hlast => ?_
      have hforward := (decimate_counted hcounted hn).mpr hlast
      rw [hw.not_forwarded] at hforward
      cases hforward
    obtain ⟨r, hr, -⟩ := hw.ends
    obtain ⟨hlen, hall⟩ := ih (run_linked hl hr) (hw.counted hcounted) hlt hcs
    rw [List.length_cons, List.forall_mem_cons]
    exact ⟨by omega, hw.serves hl, hall⟩

/-- **Run lemma.** One bound on the fuel for all pushes. -/
theorem exists_allWithheld {cs : List (PushCall V)}
    (h : ∀ c ∈ cs, c.Serves subscribers destinations p) :
    ∃ N, ∀ fuel ≥ N, ∀ {s n}, Linked subscribers destinations s → (s.inputPVs p).Counted 0 n →
      n + cs.length < 2 ^ 32 → AllWithheld fuel p cs s := by
  induction cs with
  | nil => exact ⟨0, fun _ _ _ _ _ _ _ => trivial⟩
  | cons c cs ih =>
    obtain ⟨hc, hcs⟩ := List.forall_mem_cons.mp h
    obtain ⟨N, hN⟩ := hc.withheld
    obtain ⟨M, hM⟩ := ih hcs
    refine ⟨max N M, fun fuel hfuel s n hl hcounted hlen => ?_⟩
    rw [List.length_cons] at hlen
    have hf : (s.inputPVs p).decimate.2 = false := by
      rw [← Bool.not_eq_true, decimate_counted hcounted (by omega)]
      omega
    obtain ⟨s', hw⟩ := hN fuel (le_of_max_le_left hfuel) hl hf
    obtain ⟨r, hr, -⟩ := hw.ends
    exact ⟨s', hw, hM fuel (le_of_max_le_right hfuel) (run_linked hl hr) (hw.counted hcounted)
      (by omega)⟩

/-- **Decimation zero.** After the factor was set to zero the pushes are all delivered and none is
forwarded if and only if there are fewer than `2 ^ 32` of them, and the links of the PV but the last
return, and the last one returns or throws. -/
theorem decimation_zero_iff {s₀ : PushState V} {cs : List (PushCall V)}
    (hs : PVCall.step 0 p s₀ (.setDecimation 0) = some s) :
    (∃ N, ∀ fuel ≥ N, AllWithheld fuel p cs s) ↔ cs.length < 2 ^ 32 ∧
      ∀ c ∈ cs, c.Serves (fun x => (s.inputPVs x).subscriberOutputPVs)
        (fun x => (s.inputPVs x).replicationDestinationPVs) p := by
  have hcounted : (s.inputPVs p).Counted 0 0 := by
    obtain rfl := Option.some.inj hs
    simp only [Function.update_self]
    exact PVBaseIn.counted_setDecimation _ 0
  have hlinks : Linked (fun x => (s.inputPVs x).subscriberOutputPVs)
      (fun x => (s.inputPVs x).replicationDestinationPVs) s := ⟨fun _ => rfl, fun _ => rfl⟩
  constructor
  · rintro ⟨N, h⟩
    obtain ⟨hlen, hall⟩ := (h N (le_refl N)).serves hlinks hcounted (by decide)
    exact ⟨by omega, hall⟩
  · rintro ⟨hlen, hall⟩
    obtain ⟨N, hN⟩ := exists_allWithheld hall
    exact ⟨N, fun fuel hfuel => hN fuel hfuel hlinks hcounted (by omega)⟩

/-- Two pushes with decimation zero. The PV has a subscriber and a replication destination; what is
subscribed to the destination throws. -/
theorem decimation_zero_two :
    let source := (PVBaseIn.construct.subscribeReceiver 7).replicateTo 2
    let destination := PVBaseIn.construct.subscribeReceiver 8
    let e : Exn := ⟨.runtimeError, "rejected"⟩
    let c : PushCall String := ⟨fun q _ _ => if q = 8 then some e else none, ⟨1, 0⟩, "value"⟩
    let inputPVs := fun x => if x = 1 then source else if x = 2 then destination else .construct
    ∃ s, PVCall.step 0 1 ⟨inputPVs, []⟩ (.setDecimation 0) = some s ∧
      ∃ N, ∀ fuel ≥ N, AllWithheld fuel 1 [c, c] s := by
  intro source destination e c inputPVs
  refine ⟨_, rfl, (decimation_zero_iff rfl).mpr ⟨by decide, fun c' hc' => ?_⟩⟩
  obtain rfl : c' = c := by simpa using hc'
  refine ⟨fun q hq => ?_, fun ds d h => ?_⟩
  · have hq : q ∈ [7] := hq
    rw [List.mem_singleton.mp hq]
    rfl
  · have h : [] ++ [2] = ds ++ [d] := h
    obtain ⟨rfl, hd⟩ := List.append_inj' h rfl
    obtain rfl := List.singleton_inj.mp hd
    have hthrows : c.write 8 c.timestamp c.value ≠ none := by simp [c]
    exact ⟨fun _ hx => absurd hx List.not_mem_nil, .inr (.here (by decide) (by decide) hthrows)⟩

theorem since_push (n : Nat) (c : PushCall V) (d : UInt32) (m : Nat) :
    PVCall.since (List.replicate n (.push c)) (d, m) = (d, m + n) := by
  induction n generalizing m with
  | zero => rfl
  | succ n ih =>
    rw [List.replicate_succ, PVCall.since, ih, Nat.add_right_comm, Nat.add_assoc]

/-- The push number `2 ^ 32` is forwarded. -/
theorem decimation_zero_forwards :
    let c : PushCall String := ⟨fun _ _ _ => none, ⟨1, 0⟩, "value"⟩
    ∃ s s' s'', PVCall.step 0 1 ⟨fun _ => .construct, []⟩ (.setDecimation 0) = some s ∧
      Lts.exec (PVCall.step 1 1) s (List.replicate (2 ^ 32 - 1) (.push c)) = some s' ∧
      push c.write c.timestamp c.value 1 [] 1 s' = some (s'', .returned) ∧
      .forward 1 c.timestamp c.value ∈ s''.log := by
  intro c
  obtain ⟨s, hs⟩ : ∃ s, PVCall.step 0 1 ⟨fun _ => .construct, []⟩
      (.setDecimation 0 : PVCall String) = some s := ⟨_, rfl⟩
  have hl : Linked (fun _ => ∅) (fun _ => ∅) s := by
    obtain rfl := Option.some.inj hs
    constructor <;> intro x <;> by_cases hx : x = 1 <;>
      simp [hx, PVBaseIn.setDecimation, PVBaseIn.construct]
  have hcounted : (s.inputPVs 1).Counted 0 0 := by
    obtain rfl := Option.some.inj hs
    exact PVBaseIn.counted_setDecimation _ 0
  have hdepth : Depth (succ fun _ => ∅) 1 1 := fun y hy => by cases hy
  obtain ⟨s', hs', hl'⟩ := PVCall.exec_ends (List.replicate (2 ^ 32 - 1) (.push c)) hl hdepth
  have hcounted' := PVCall.exec_counted hcounted hs'
  rw [since_push] at hcounted'
  have hr : push c.write c.timestamp c.value 1 [] 1 s' = some (_, .returned) :=
    push_eq_walk hl' hdepth (fun _ h => by cases h) fun _ _ _ hq => by cases hq
  refine ⟨s, s', _, hs, hs', hr, ?_⟩
  obtain ⟨rest, hlog, -⟩ := push_shape hr
  have hforward : (s'.inputPVs 1).decimate.2 = true := hcounted'.decimate.2.mpr (by decide)
  rw [hlog, arrival, if_pos hforward]
  simp

end PushCall

end Nds3
