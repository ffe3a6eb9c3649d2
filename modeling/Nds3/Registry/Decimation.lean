import Nds3.Registry.Shape
import Nds3.Lib.Lts

/-!
# Decimation

The countdown of `PVBaseInImpl::push`. A push takes one from `m_decimationCount` and forwards the
value when that makes it zero, so a factor `d` forwards every `d`-th push. A factor of zero starts
the count at zero, and the first push wraps it around: it counts `2 ^ 32` pushes (`ratio`).
-/

namespace Nds3

open Relation Dag

namespace PVBaseIn

/-- How many pushes a factor counts, the count being an `std::uint32_t`. -/
def ratio (d : UInt32) : Nat := if d = 0 then 2 ^ 32 else d.toNat

/-- `n` pushes after the factor was set to `d`. -/
structure Counted (pv : PVBaseIn) (d : UInt32) (n : Nat) : Prop where
  factor : pv.decimationFactor = d
  count : pv.decimationCount = UInt32.ofNat (ratio d - n % ratio d)

variable {pv : PVBaseIn} {d : UInt32} {n : Nat}

theorem ratio_pos : 0 < ratio d := by
  unfold ratio
  split
  · decide
  · next h => exact Nat.pos_of_ne_zero fun h0 => h (UInt32.toNat_inj.mp h0)

theorem ratio_le : ratio d ≤ 2 ^ 32 := by
  unfold ratio
  split
  · exact le_refl _
  · exact d.toNat_lt.le

theorem ofNat_ratio : UInt32.ofNat (ratio d) = d := by
  unfold ratio
  split
  · next h => rw [h]; rfl
  · exact UInt32.ofNat_toNat

theorem remaining_pos : 0 < ratio d - n % ratio d := Nat.sub_pos_of_lt (Nat.mod_lt _ ratio_pos)

theorem counted_setDecimation (pv : PVBaseIn) (d : UInt32) : Counted (pv.setDecimation d) d 0 where
  factor := rfl
  count := by rw [Nat.zero_mod, Nat.sub_zero, ofNat_ratio]; rfl

theorem Counted.count_ne_zero (h : pv.Counted d n) (hd : d ≠ 0) : pv.decimationCount ≠ 0 := by
  have hr : ratio d < 2 ^ 32 := by
    rw [ratio, if_neg hd]
    exact d.toNat_lt
  have hpos : 0 < ratio d - n % ratio d := remaining_pos
  have hlt : ratio d - n % ratio d < 2 ^ 32 := lt_of_le_of_lt (Nat.sub_le ..) hr
  intro h0
  have hz : (UInt32.ofNat (ratio d - n % ratio d)).toNat = 0 := by rw [← h.count, h0]; rfl
  rw [UInt32.toNat_ofNat_of_lt' hlt] at hz
  omega

theorem sub_one_eq_zero_iff {k : Nat} (hk : 0 < k) (hk' : k ≤ 2 ^ 32) :
    UInt32.ofNat k - 1 = 0 ↔ k = 1 := by
  obtain ⟨k, rfl⟩ := Nat.exists_eq_add_one_of_ne_zero (Nat.pos_iff_ne_zero.mp hk)
  have hs : UInt32.ofNat (k + 1) - 1 = UInt32.ofNat k := by
    rw [UInt32.ofNat_add]
    exact UInt32.add_sub_cancel ..
  rw [hs, ← UInt32.toNat_inj, UInt32.toNat_ofNat_of_lt' (by omega : k < 2 ^ 32)]
  show k = 0 ↔ k + 1 = 1
  omega

/-- **The countdown.** Of the pushes after the factor was set those are forwarded whose number the
ratio divides. -/
theorem Counted.decimate (h : pv.Counted d n) :
    pv.decimate.1.Counted d (n + 1) ∧ (pv.decimate.2 = true ↔ ratio d ∣ n + 1) := by
  have hlt : n % ratio d < ratio d := Nat.mod_lt _ ratio_pos
  have hle : ratio d - n % ratio d ≤ 2 ^ 32 := (Nat.sub_le ..).trans ratio_le
  have hz := sub_one_eq_zero_iff (k := ratio d - n % ratio d) remaining_pos hle
  rw [← h.count] at hz
  rw [Nat.dvd_iff_mod_eq_zero]
  by_cases hlast : n % ratio d + 1 = ratio d
  · -- the last push of a round: it is forwarded, and the count starts over
    have hmod : (n + 1) % ratio d = 0 := by
      rw [← Nat.mod_add_mod, hlast, Nat.mod_self]
    have hc : pv.decimationCount - 1 = 0 := hz.mpr (by omega)
    simp only [PVBaseIn.decimate, hc, if_true, hmod, and_true]
    exact ⟨h.factor, by rw [hmod, Nat.sub_zero, ofNat_ratio]; exact h.factor⟩
  · have hmod : (n + 1) % ratio d = n % ratio d + 1 := by
      rw [← Nat.mod_add_mod, Nat.mod_eq_of_lt (by omega)]
    have hc : ¬ pv.decimationCount - 1 = 0 := fun hc => by
      have := hz.mp hc
      omega
    simp only [PVBaseIn.decimate, if_neg hc, hmod]
    refine ⟨⟨h.factor, ?_⟩, by simp⟩
    show pv.decimationCount - 1 = _
    obtain ⟨k, hk⟩ : ∃ k, ratio d - n % ratio d = k + 1 := ⟨ratio d - n % ratio d - 1, by omega⟩
    rw [h.count, hmod, hk, show ratio d - (n % ratio d + 1) = k by omega, UInt32.ofNat_add]
    exact UInt32.add_sub_cancel ..

end PVBaseIn

/-! ## Sequences of calls -/

variable {V : Type*}

/-- A call of `push`, and how the output PVs react to what is written during it. -/
structure PushCall (V : Type*) where
  write : Nat → Timespec → V → Option Exn
  timestamp : Timespec
  value : V

/-- A call on an input PV. -/
inductive PVCall (V : Type*) where
  | setDecimation (decimation : UInt32)
  | push (c : PushCall V)

namespace PVCall

/-- The call on the PV `p`. A push that tries to take a lock it holds does not come back. -/
def step (fuel p : Nat) (s : PushState V) : PVCall V → Option (PushState V)
  | .setDecimation d =>
    some { s with inputPVs := Function.update s.inputPVs p ((s.inputPVs p).setDecimation d) }
  | .push c =>
    match Nds3.push c.write c.timestamp c.value fuel [] p s with
    | some (_, .relocked _) | none => none
    | some (s, _) => some s

/-- The factor in force after the calls, and the number of pushes since it was set; the constructor
sets it to 1. -/
def since : List (PVCall V) → UInt32 × Nat → UInt32 × Nat
  | [], dn => dn
  | .setDecimation d :: calls, _ => since calls (d, 0)
  | .push _ :: calls, (d, n) => since calls (d, n + 1)

variable {fuel p : Nat} {s s' : PushState V} {d : UInt32} {n : Nat}

/-- **Step lemma.** -/
theorem step_counted {c : PVCall V} (h : (s.inputPVs p).Counted d n)
    (hs : step fuel p s c = some s') :
    (s'.inputPVs p).Counted (since [c] (d, n)).1 (since [c] (d, n)).2 := by
  cases c with
  | setDecimation d' =>
    obtain rfl := Option.some.inj hs
    simp only [Function.update_self]
    exact PVBaseIn.counted_setDecimation _ d'
  | push c =>
    simp only [step] at hs
    split at hs
    · cases hs
    · cases hs
    · next s1 r hr hpush =>
      obtain rfl := Option.some.inj hs
      obtain ⟨rest, -, hcount, -⟩ := push_shape hpush
      rw [(hcount hr).1]
      exact h.decimate.1

/-- **Run lemma.** The countdown follows the calls. -/
theorem exec_counted {calls : List (PVCall V)} (h : (s.inputPVs p).Counted d n)
    (hs : Lts.exec (step fuel p) s calls = some s') :
    (s'.inputPVs p).Counted (since calls (d, n)).1 (since calls (d, n)).2 := by
  induction calls generalizing s d n with
  | nil =>
    obtain rfl := Option.some.inj hs
    exact h
  | cons c calls ih =>
    obtain ⟨s1, hs1, hrest⟩ := Option.bind_eq_some_iff.mp hs
    cases c <;> exact ih (step_counted h hs1) hrest

theorem step_ends {subscribers destinations : Nat → OrdSet Nat} (c : PVCall V)
    (hl : Linked subscribers destinations s) (hd : Depth (succ destinations) fuel p) :
    ∃ s', step fuel p s c = some s' ∧ Linked subscribers destinations s' := by
  cases c with
  | setDecimation d =>
    refine ⟨_, rfl, fun x => ?_, fun x => ?_⟩
    all_goals
      by_cases hx : x = p
      · subst hx
        simp [PVBaseIn.setDecimation, hl.subscribers, hl.destinations]
      · simp [Function.update_of_ne hx, hl.subscribers, hl.destinations]
  | push c =>
    obtain ⟨s', r, hpush, hl', hr⟩ :=
      push_ends hl hd fun x hx => absurd hx List.not_mem_nil
    refine ⟨s', ?_, hl'⟩
    rw [step, hpush]
    cases r with
    | returned | threw => rfl
    | relocked q => exact absurd rfl (hr q)

/-- Where the chains of replications from the PV have an end, so have the calls on it. -/
theorem exec_ends {subscribers destinations : Nat → OrdSet Nat} (calls : List (PVCall V))
    (hl : Linked subscribers destinations s) (hd : Depth (succ destinations) fuel p) :
    ∃ s', Lts.exec (step fuel p) s calls = some s' ∧ Linked subscribers destinations s' := by
  induction calls generalizing s with
  | nil => exact ⟨s, rfl, hl⟩
  | cons c calls ih =>
    obtain ⟨s1, hs1, hl1⟩ := step_ends c hl hd
    obtain ⟨s', hs', hl'⟩ := ih hl1
    exact ⟨s', Option.bind_eq_some_iff.mpr ⟨s1, hs1, hs'⟩, hl'⟩

theorem since_ne_zero {calls : List (PVCall V)} (hd : d ≠ 0)
    (hcalls : ∀ d', .setDecimation d' ∈ calls → d' ≠ 0) : (since calls (d, n)).1 ≠ 0 := by
  induction calls generalizing d n with
  | nil => exact hd
  | cons c calls ih =>
    have hrest : ∀ d', .setDecimation d' ∈ calls → d' ≠ 0 :=
      fun d' hd' => hcalls d' (List.mem_cons_of_mem _ hd')
    cases c with
    | setDecimation d' => exact ih (hcalls d' (List.mem_cons_self ..)) hrest
    | push c => exact ih hd hrest

end PVCall

section

variable {fuel p : Nat} {s₀ s s' : PushState V} {r : PushEnd}

/-- **Decimation ratio.** The push that is the `m`-th since the factor was set to `d` forwards its
value and its timestamp exactly if `d` divides `m`. It finds the count above zero; if it returns,
it has written each subscriber once and has pushed each replication destination once. With enough
fuel the calls and the push end where the replication is acyclic (`PVCall.exec_ends`, `push_ends`).
-/
theorem decimation_ratio {calls : List (PVCall V)} (c : PushCall V)
    (hnew : (s₀.inputPVs p).decimationFactor = 1 ∧ (s₀.inputPVs p).decimationCount = 1)
    (hcalls : ∀ d, .setDecimation d ∈ calls → 1 ≤ d)
    (hs : Lts.exec (PVCall.step fuel p) s₀ calls = some s)
    (hpush : push c.write c.timestamp c.value fuel [] p s = some (s', r)) :
    let d := (PVCall.since calls (1, 0)).1
    let m := (PVCall.since calls (1, 0)).2 + 1
    1 ≤ (s.inputPVs p).decimationCount ∧
    ∃ rest, s'.log = s.log ++ (.push p c.timestamp c.value ::
        ((if d.toNat ∣ m then [.forward p c.timestamp c.value] else []) ++ rest)) ∧
      ((∀ q, r ≠ .relocked q) → ∀ ev ∈ rest, ¬ ev.At p) ∧
      (r = .returned → Delivered c.write c.timestamp c.value p (s.inputPVs p) rest) := by
  intro d m
  have one_le : ∀ {x : UInt32}, 1 ≤ x ↔ x ≠ 0 := by
    intro x
    rw [UInt32.le_iff_toNat_le, ne_eq, ← UInt32.toNat_inj]
    exact Nat.one_le_iff_ne_zero
  have hd : d ≠ 0 := PVCall.since_ne_zero (by decide) fun d' hd' => one_le.mp (hcalls d' hd')
  have hcounted : (s.inputPVs p).Counted d (m - 1) :=
    PVCall.exec_counted ⟨hnew.1, hnew.2⟩ hs
  refine ⟨one_le.mpr (hcounted.count_ne_zero hd), ?_⟩
  obtain ⟨rest, hlog, hcount, hdel⟩ := push_shape hpush
  refine ⟨rest, ?_, fun hr => (hcount hr).2, hdel⟩
  have hforward : (s.inputPVs p).decimate.2 = true ↔ d.toNat ∣ m := by
    rw [hcounted.decimate.2, PVBaseIn.ratio, if_neg hd]
    rfl
  rw [hlog, arrival]
  simp only [hforward, List.cons_append]

end

/-- Every second push is forwarded. -/
theorem decimation_ratio_two :
    ∃ s s' r, Lts.exec (PVCall.step 1 1) ⟨fun _ => .construct, []⟩
        [.setDecimation 2, .push ⟨fun _ _ _ => none, ⟨1, 0⟩, "first"⟩] = some s ∧
      push (fun _ _ _ => none) ⟨2, 0⟩ "second" 1 [] 1 s = some (s', r) ∧
      1 ≤ (s.inputPVs 1).decimationCount ∧
      ∃ rest, s'.log = s.log ++ (.push 1 ⟨2, 0⟩ "second" ::
        ([.forward 1 ⟨2, 0⟩ "second"] ++ rest)) := by
  obtain ⟨s, hs⟩ : ∃ s, Lts.exec (PVCall.step 1 1) ⟨fun _ => .construct, []⟩
      [.setDecimation 2, .push ⟨fun _ _ _ => none, ⟨1, 0⟩, "first"⟩] = some s := ⟨_, rfl⟩
  obtain ⟨s', r, hpush⟩ : ∃ s' r,
      push (fun _ _ _ => none) ⟨2, 0⟩ "second" 1 [] 1 s = some (s', r) := by
    cases hs
    exact ⟨_, _, rfl⟩
  have hfactor : ∀ d, .setDecimation d ∈
      ([.setDecimation 2, .push ⟨fun _ _ _ => none, ⟨1, 0⟩, "first"⟩] : List (PVCall String)) →
      1 ≤ d := by
    simp only [List.mem_cons, List.not_mem_nil, or_false, PVCall.setDecimation.injEq, reduceCtorEq,
      forall_eq]
    decide
  obtain ⟨hcount, rest, hlog, -⟩ :=
    decimation_ratio ⟨fun _ _ _ => none, ⟨2, 0⟩, "second"⟩ ⟨rfl, rfl⟩ hfactor hs hpush
  exact ⟨s, s', r, hs, hpush, hcount, rest, hlog⟩

/-- A subscriber that throws keeps the value from the next one. -/
theorem push_undelivered :
    let pv := (PVBaseIn.construct.subscribeReceiver 7).subscribeReceiver 8
    let e : Exn := ⟨.runtimeError, "rejected"⟩
    ∃ s', push (fun q _ _ => if q = 7 then some e else none) ⟨1, 0⟩ "value" 1 [] 1
        ⟨fun _ => pv, []⟩ = some (s', .threw e) ∧
      8 ∈ pv.subscriberOutputPVs ∧ .write 1 8 ⟨1, 0⟩ "value" ∉ s'.log := by
  refine ⟨_, rfl, by decide, ?_⟩
  decide

end Nds3
