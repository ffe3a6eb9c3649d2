import Nds3.Registry.Decimation

/-!
# The fan-out of a push

On an acyclic replication relation, with output PVs that accept the value, a push is the walk of
`push_eq_walk`: every input PV is pushed once for each path to it, and each of these pushes takes
one from its `m_decimationCount`. What the counts are then, and how many of the values have been
forwarded, is given here by arithmetic on the count and the factor (`countAfter`, `forwards`).

The pushes and the writes are those of the call. A function behind an output PV may make pushes of
its own, as that of the PV `setState` of a state machine does; an output PV that accepts the value
is here one that returns and makes none.
-/

namespace Nds3

open Relation Dag

namespace PVBaseIn

/-! ## The countdown in numbers -/

/-- `m_decimationCount` after `k` pushes. The first value is forwarded when the count is up, and
then one for each round of the factor. -/
def countAfter (pv : PVBaseIn) (k : Nat) : UInt32 :=
  let first := ratio pv.decimationCount
  let round := ratio pv.decimationFactor
  if k < first then UInt32.ofNat (first - k) else UInt32.ofNat (round - (k - first) % round)

/-- How many of `k` pushes are forwarded. -/
def forwards (pv : PVBaseIn) (k : Nat) : Nat :=
  let first := ratio pv.decimationCount
  let round := ratio pv.decimationFactor
  if k < first then 0 else (k - first) / round + 1

variable {pv : PVBaseIn} {k : Nat}

/-- The count is up, or one less is left to count. -/
theorem decimate_cases (pv : PVBaseIn) :
    (ratio pv.decimationCount = 1 ∧
      pv.decimate = ({ pv with decimationCount := pv.decimationFactor }, true)) ∨
    (ratio pv.decimationCount = ratio (pv.decimationCount - 1) + 1 ∧
      pv.decimate = ({ pv with decimationCount := pv.decimationCount - 1 }, false)) := by
  have hone : pv.decimationCount - 1 = 0 ↔ ratio pv.decimationCount = 1 := by
    rw [← sub_one_eq_zero_iff ratio_pos ratio_le, ofNat_ratio]
  by_cases hc : pv.decimationCount - 1 = 0
  · exact .inl ⟨hone.mp hc, if_pos hc⟩
  · refine .inr ⟨?_, if_neg hc⟩
    have hlt := pv.decimationCount.toNat_lt
    have hsub : (pv.decimationCount - 1).toNat =
        (2 ^ 32 - 1 + pv.decimationCount.toNat) % 2 ^ 32 := UInt32.toNat_sub ..
    rw [ratio, ratio, if_neg hc]
    split
    · next h0 =>
      rw [hsub, h0]
      rfl
    · next h0 =>
      have hpos : pv.decimationCount.toNat ≠ 0 := fun h => h0 (UInt32.toNat_inj.mp h)
      omega

/-- **The count is one of the pushes.** -/
theorem countAfter_decimate : pv.decimate.1.countAfter k = pv.countAfter (k + 1) := by
  have hround : 0 < ratio pv.decimationFactor := ratio_pos
  rcases decimate_cases pv with ⟨hone, h⟩ | ⟨hmore, h⟩
  · rw [h]
    simp only [countAfter, hone]
    rw [if_neg (by omega : ¬ k + 1 < 1), Nat.add_sub_cancel]
    split
    · next hk => rw [Nat.mod_eq_of_lt hk]
    · next hk => rw [Nat.mod_eq_sub_mod (by omega : ratio pv.decimationFactor ≤ k)]
  · rw [h]
    simp only [countAfter, hmore, Nat.add_lt_add_iff_right, Nat.add_sub_add_right]

theorem forwards_succ : pv.forwards (k + 1) =
    (if pv.decimate.2 then 1 else 0) + pv.decimate.1.forwards k := by
  have hround : 0 < ratio pv.decimationFactor := ratio_pos
  rcases decimate_cases pv with ⟨hone, h⟩ | ⟨hmore, h⟩
  · rw [h]
    simp only [forwards, hone, if_true]
    rw [if_neg (by omega : ¬ k + 1 < 1), Nat.add_sub_cancel]
    split
    · next hk => rw [Nat.div_eq_of_lt hk]
    · next hk =>
      rw [Nat.div_eq_sub_div hround (by omega)]
      omega
  · rw [h]
    simp only [forwards, hmore, Nat.add_lt_add_iff_right, Nat.add_sub_add_right, Bool.false_eq_true,
      if_false, Nat.zero_add]

theorem countAfter_zero : pv.countAfter 0 = pv.decimationCount := by
  simp only [countAfter]
  rw [if_pos ratio_pos, Nat.sub_zero, ofNat_ratio]

theorem forwards_zero : pv.forwards 0 = 0 := if_pos ratio_pos

end PVBaseIn

section

variable {V : Type*} {t : Timespec} {v : V} {subscribers destinations : Nat → OrdSet Nat}
  {s : PushState V}

/-! ## What the walk amounts to -/

def visitEvents (t : Timespec) (v : V) (p : Nat) (pv : PVBaseIn) : List (PushEvent V) :=
  .push p t v :: ((if pv.decimate.2 then [.forward p t v] else []) ++
    pv.subscriberOutputPVs.elems.map (.write p · t v))

theorem visit_log (s : PushState V) (p : Nat) :
    (visit t v s p).log = s.log ++ visitEvents t v p (s.inputPVs p) := by
  simp [visit, arrive, visitEvents]

theorem visit_inputPVs (s : PushState V) (p x : Nat) :
    (visit t v s p).inputPVs x =
      if p = x then (s.inputPVs x).decimate.1 else s.inputPVs x := by
  by_cases hx : p = x
  · subst hx
    simp [visit, arrive]
  · simp [visit, arrive, hx, Function.update_of_ne (Ne.symm hx)]

/-- The pushes of a list of PVs count at each PV as often as it is in the list. -/
theorem foldl_visit_inputPVs (ps : List Nat) (s : PushState V) (x : Nat) :
    (ps.foldl (visit t v) s).inputPVs x =
      { s.inputPVs x with decimationCount := (s.inputPVs x).countAfter (ps.count x) } := by
  induction ps generalizing s with
  | nil => rw [List.count_nil, PVBaseIn.countAfter_zero]; rfl
  | cons p ps ih =>
    rw [List.foldl_cons, ih, visit_inputPVs, List.count_cons]
    by_cases hx : p = x
    · subst hx
      rw [if_pos rfl, PVBaseIn.countAfter_decimate, if_pos (beq_self_eq_true p)]
      rcases PVBaseIn.decimate_cases (s.inputPVs p) with ⟨-, h⟩ | ⟨-, h⟩ <;> rw [h]
    · simp [hx]

theorem foldl_visit_events (ps : List Nat) (s : PushState V) :
    ∀ ev ∈ (ps.foldl (visit t v) s).log, ev ∈ s.log ∨
      ∃ x, ev = .push x t v ∨ ev = .forward x t v ∨ ∃ q, ev = .write x q t v := by
  induction ps generalizing s with
  | nil => exact fun ev hev => .inl hev
  | cons p ps ih =>
    intro ev hev
    rcases ih _ ev hev with h | h
    · rw [visit_log, List.mem_append] at h
      refine h.imp_right fun h => ⟨p, ?_⟩
      simp only [visitEvents, List.mem_cons, List.mem_append, List.mem_map] at h
      rcases h with rfl | h | ⟨q, -, rfl⟩
      · exact .inl rfl
      · split at h
        · exact .inr (.inl (List.mem_singleton.mp h))
        · cases h
      · exact .inr (.inr ⟨q, rfl⟩)
    · exact .inr h

variable [DecidableEq V]

theorem count_push_visitEvents (p x : Nat) (pv : PVBaseIn) :
    (visitEvents t v p pv).count (.push x t v) = if p = x then 1 else 0 := by
  have hw : (pv.subscriberOutputPVs.elems.map (PushEvent.write p · t v)).count (.push x t v) = 0 :=
    List.count_eq_zero.mpr (by simp)
  rw [visitEvents, List.count_cons, List.count_append, hw]
  by_cases hx : p = x <;> split <;> simp_all

theorem count_forward_visitEvents (p x : Nat) (pv : PVBaseIn) :
    (visitEvents t v p pv).count (.forward x t v) =
      if p = x ∧ pv.decimate.2 = true then 1 else 0 := by
  have hw : (pv.subscriberOutputPVs.elems.map (PushEvent.write p · t v)).count
      (.forward x t v) = 0 := List.count_eq_zero.mpr (by simp)
  rw [visitEvents, List.count_cons, List.count_append, hw]
  by_cases hx : p = x <;> split <;> simp_all

theorem count_write_visitEvents (p x q : Nat) (pv : PVBaseIn) :
    (visitEvents t v p pv).count (.write x q t v) =
      if p = x ∧ q ∈ pv.subscriberOutputPVs then 1 else 0 := by
  have hf : (if pv.decimate.2 = true then [PushEvent.forward p t v] else []).count
      (.write x q t v) = 0 := by
    split <;> simp
  rw [visitEvents, List.count_cons, List.count_append, hf, if_neg (by simp), Nat.add_zero,
    Nat.zero_add]
  by_cases hx : p = x
  · subst hx
    have hinj : Function.Injective fun r : Nat => PushEvent.write p r t v := fun a b h => by
      cases h
      rfl
    rw [List.count_map_of_injective _ _ hinj]
    by_cases hq : q ∈ pv.subscriberOutputPVs
    · rw [List.count_eq_one_of_mem pv.subscriberOutputPVs.nodup hq, if_pos ⟨rfl, hq⟩]
    · rw [List.count_eq_zero.mpr hq, if_neg (fun h => hq h.2)]
  · rw [if_neg (fun h => hx h.1)]
    exact List.count_eq_zero.mpr (by simp [hx])

theorem foldl_visit_pushes (ps : List Nat) (s : PushState V) (x : Nat) :
    (ps.foldl (visit t v) s).log.count (.push x t v) =
      s.log.count (.push x t v) + ps.count x := by
  induction ps generalizing s with
  | nil => rfl
  | cons p ps ih =>
    rw [List.foldl_cons, ih, visit_log, List.count_append, count_push_visitEvents, List.count_cons]
    simp only [beq_iff_eq]
    omega

theorem foldl_visit_forwards (ps : List Nat) (s : PushState V) (x : Nat) :
    (ps.foldl (visit t v) s).log.count (.forward x t v) =
      s.log.count (.forward x t v) + (s.inputPVs x).forwards (ps.count x) := by
  induction ps generalizing s with
  | nil => rw [List.count_nil, PVBaseIn.forwards_zero]; rfl
  | cons p ps ih =>
    rw [List.foldl_cons, ih, visit_log, List.count_append, count_forward_visitEvents,
      visit_inputPVs, List.count_cons]
    by_cases hx : p = x
    · subst hx
      simp [PVBaseIn.forwards_succ, Nat.add_assoc]
    · simp [hx]

theorem foldl_visit_writes (hl : Linked subscribers destinations s) (ps : List Nat) (x q : Nat) :
    (ps.foldl (visit t v) s).log.count (.write x q t v) =
      s.log.count (.write x q t v) + if q ∈ subscribers x then ps.count x else 0 := by
  induction ps generalizing s with
  | nil => simp
  | cons p ps ih =>
    rw [List.foldl_cons, ih (hl.visit p), visit_log, List.count_append, count_write_visitEvents,
      hl.subscribers, List.count_cons]
    by_cases hx : p = x
    · subst hx
      by_cases hq : q ∈ subscribers p <;> simp [hq]
      omega
    · simp [hx]

end

/-- What a push of `S` amounts to, given the number of its paths to each input PV. -/
structure FanOut {V : Type*} [DecidableEq V] (f : NdsFactory) (paths : Nat → Nat) (t : Timespec)
    (v : V) (s : PushState V) : Prop where
  /-- Every PV is pushed once for each path. -/
  pushes : ∀ x, s.log.count (.push x t v) = paths x
  /-- Every subscriber is written once for each push of its source. -/
  writes : ∀ x q, s.log.count (.write x q t v) = if q ∈ f.subscribers x then paths x else 0
  /-- Every push counts once against the decimation of its PV, and changes nothing else there. -/
  decimation : ∀ x, s.inputPVs x =
    { f.inputPVs x with decimationCount := (f.inputPVs x).countAfter (paths x) }
  /-- The value is forwarded as often as the count comes to its end. -/
  forwards : ∀ x, s.log.count (.forward x t v) = (f.inputPVs x).forwards (paths x)
  /-- Nothing else is pushed, written or forwarded. -/
  only : ∀ ev ∈ s.log, ∃ x, ev = .push x t v ∨ ev = .forward x t v ∨ ∃ q, ev = .write x q t v

/-- **The fan-out of a push.** On an acyclic replication relation, with subscribers that accept the
value, `push` returns, and pushes every input PV once for each replication path to it. -/
theorem push_fanout {V : Type*} [DecidableEq V] {f : NdsFactory} {S : Nat} {t : Timespec} {v : V}
    {write : Nat → Timespec → V → Option Exn} (hc : f.Closed) (hac : f.Acyclic)
    (hS : f.Registered S)
    (haccept : ∀ x, ReflTransGen (Edge (succ f.destinations)) S x → ∀ q ∈ f.subscribers x,
      write q t v = none) :
    ∃ s, (∃ N, ∀ fuel ≥ N, f.push write t v fuel S = some (s, .returned)) ∧
      FanOut f (fun x => Nat.card (Path (succ f.destinations) S x)) t v s := by
  obtain ⟨N, hN⟩ := hac.exists_depth hc hS
  have hcount := hN.count_walk fun x => (f.destinations x).nodup
  refine ⟨(walk (succ f.destinations) N S).foldl (visit t v) ⟨f.inputPVs, []⟩,
    ⟨N, fun fuel hfuel => ?_⟩, ⟨fun x => ?_, fun x q => ?_, fun x => ?_, fun x => ?_, ?_⟩⟩
  · rw [← hN.walk_eq hfuel]
    exact push_eq_walk NdsFactory.linked (hN.mono hfuel) (fun _ h => by cases h) haccept
  · rw [foldl_visit_pushes, hcount]
    simp
  · rw [foldl_visit_writes NdsFactory.linked, hcount]
    simp
  · rw [foldl_visit_inputPVs, hcount]
  · rw [foldl_visit_forwards, hcount]
    simp
  · intro ev hev
    exact (foldl_visit_events _ _ ev hev).resolve_left List.not_mem_nil

/-- Four PVs: `1` is replicated to `2` and `3`, which are both replicated to `4`; the output PV `7`
is subscribed to `4`. -/
def diamond : NdsFactory where
  registeredInputPVs :=
    (((AList.singleton "a" 1 |>.insert "b" 2) |>.insert "c" 3) |>.insert "d" 4)
  registeredOutputPVs := AList.singleton "out" 7
  inputPVs p :=
    { PVBaseIn.construct with
      subscriberOutputPVs := if p = 4 then ⟨[7], by decide⟩ else ∅
      replicationDestinationPVs :=
        if p = 1 then ⟨[2, 3], by decide⟩ else if p = 2 ∨ p = 3 then ⟨[4], by decide⟩ else ∅ }

theorem registered_diamond {p : Nat} (h : p ∈ [1, 2, 3, 4]) : diamond.Registered p := by
  simp only [List.mem_cons, List.not_mem_nil, or_false] at h
  rcases h with rfl | rfl | rfl | rfl
  · exact ⟨"a", rfl⟩
  · exact ⟨"b", rfl⟩
  · exact ⟨"c", rfl⟩
  · exact ⟨"d", rfl⟩

theorem lt_of_mem_diamond {p d : Nat} (h : d ∈ diamond.destinations p) :
    p < d ∧ d ∈ [1, 2, 3, 4] := by
  have hd : d ∈ (if p = 1 then ⟨[2, 3], by decide⟩ else
      if p = 2 ∨ p = 3 then ⟨[4], by decide⟩ else ∅ : OrdSet Nat).elems := h
  split at hd
  · rcases List.mem_pair.mp hd with rfl | rfl <;> simp_all
  split at hd
  · rw [List.mem_singleton.mp hd]
    refine ⟨by omega, by decide⟩
  · cases hd

theorem closed_diamond : diamond.Closed := fun _ _ _ hd =>
  registered_diamond (lt_of_mem_diamond hd).2

theorem acyclic_edges_diamond : Dag.Acyclic (Edge (succ diamond.destinations)) := by
  have up : ∀ {p d}, TransGen (Edge (succ diamond.destinations)) p d → p < d := by
    intro p d h
    induction h with
    | single h => exact (lt_of_mem_diamond h).1
    | tail _ h ih => exact ih.trans (lt_of_mem_diamond h).1
  exact fun p h => lt_irrefl p (up h)

theorem acyclic_diamond : diamond.Acyclic := fun p _ => acyclic_edges_diamond p

/-- A push through the diamond. -/
theorem push_fanout_diamond :
    ∃ s, (∃ N, ∀ fuel ≥ N, diamond.push (fun _ _ _ => none) ⟨1, 0⟩ "value" fuel 1 =
        some (s, .returned)) ∧
      FanOut diamond (fun x => Nat.card (Path (succ diamond.destinations) 1 x)) ⟨1, 0⟩ "value" s :=
  push_fanout closed_diamond acyclic_diamond (registered_diamond (by decide)) fun _ _ _ _ => rfl

end Nds3
