import Nds3.Registry.SetValue
import Nds3.Lib.Lts

/-!
# `PVVariableInImpl::setValue`: threads

Any number of threads call `setValue` on one input variable, subscribe output PVs to it and
unsubscribe them, and write output PVs. One step is one critical section:

* `store`: `setValue` stores the value and the timestamp, under `m_pvMutex` of the input;
* `notify`: it writes the subscribed output PVs, under `m_lockSubscribersList`;
* `subscribeReceiver`, `unsubscribeReceiver`: under `m_lockSubscribersList`;
* `write`: somebody else writes an output PV, under its own `m_pvMutex`.

Nothing orders the `notify` of two calls as their `store`. The input holds what was stored last, an
output variable what was notified last, and these may be different calls.
-/

namespace Nds3

variable {V : Type*}

/-- An output PV subscribed to the input variable. -/
inductive OutputPV (V : Type*) where
  /-- A `PVVariableOutImpl` with the data type of the input: `m_timestamp` and `m_value`. -/
  | pvVariableOut (stored : Timespec × V)
  /-- Any other: what its `write` answers. -/
  | other (answer : Timespec → V → Option Exn)

namespace OutputPV

def write : OutputPV V → Timespec → V → OutputPV V × Option Exn
  | .pvVariableOut _, timestamp, value => (.pvVariableOut (timestamp, value), none)
  | .other answer, timestamp, value => (.other answer, answer timestamp value)

@[simp] theorem write_write (pv : OutputPV V) (t t' : Timespec) (v v' : V) :
    ((pv.write t v).1.write t' v').2 = (pv.write t' v').2 := by
  cases pv <;> rfl

end OutputPV

/-- The loop of `setValue` over the subscribed output PVs. -/
def writeOutputs (timestamp : Timespec) (value : V) :
    List Nat → (Nat → OutputPV V) → (Nat → OutputPV V) × Option Exn
  | [], outputs => (outputs, none)
  | q :: qs, outputs =>
    let (pv, answer) := (outputs q).write timestamp value
    let outputs := Function.update outputs q pv
    match answer with
    | none => writeOutputs timestamp value qs outputs
    | some e => (outputs, some e)

/-- Where a call of `setValue` is. -/
inductive SetValueCall (V : Type*) where
  | notCalled
  /-- It has released `m_pvMutex`. -/
  | stored (timestamp : Timespec) (value : V)
  | ended (r : PushEnd)

/-- An input variable and the calls of `setValue` on it. -/
structure VariableIn (V : Type*) where
  /-- `m_timestamp` and `m_value`. -/
  input : Timespec × V
  outputs : Nat → OutputPV V
  subscriberOutputPVs : OrdSet Nat
  calls : Nat → SetValueCall V

inductive VariableEvent (V : Type*) where
  | store (i : Nat) (timestamp : Timespec) (value : V)
  | notify (i : Nat)
  | subscribeReceiver (q : Nat)
  | unsubscribeReceiver (q : Nat)
  | write (q : Nat) (timestamp : Timespec) (value : V)

namespace VariableIn

def setCall (s : VariableIn V) (i : Nat) (c : SetValueCall V) : VariableIn V :=
  { s with calls := Function.update s.calls i c }

def step (s : VariableIn V) : VariableEvent V → Option (VariableIn V)
  | .store i timestamp value =>
    match s.calls i with
    | .notCalled => some { s.setCall i (.stored timestamp value) with input := (timestamp, value) }
    | _ => none
  | .notify i =>
    match s.calls i with
    | .stored timestamp value =>
      let (outputs, thrown) := writeOutputs timestamp value s.subscriberOutputPVs.elems s.outputs
      some { s.setCall i (.ended (.ofLoop thrown)) with outputs }
    | _ => none
  | .subscribeReceiver q => some { s with subscriberOutputPVs := s.subscriberOutputPVs.insert q }
  | .unsubscribeReceiver q => some { s with subscriberOutputPVs := s.subscriberOutputPVs.erase q }
  | .write q timestamp value =>
    some { s with
      outputs := Function.update s.outputs q ((s.outputs q).write timestamp value).1 }

end VariableIn

/-! ## The loop -/

section

variable {t : Timespec} {v : V} {qs : List Nat} {outputs : Nat → OutputPV V}

theorem writeOutputs_of_accepted {q : Nat} {pv : OutputPV V}
    (h : (outputs q).write t v = (pv, none)) :
    writeOutputs t v (q :: qs) outputs = writeOutputs t v qs (Function.update outputs q pv) := by
  rw [writeOutputs, h]

theorem writeOutputs_of_threw {q : Nat} {pv : OutputPV V} {e : Exn}
    (h : (outputs q).write t v = (pv, some e)) :
    writeOutputs t v (q :: qs) outputs = (Function.update outputs q pv, some e) := by
  rw [writeOutputs, h]

/-- An output variable is left alone or given the value, and it is given the value when the loop
comes to it. -/
theorem writeOutputs_variable {q : Nat} {m : Timespec × V} (h : outputs q = .pvVariableOut m) :
    ∃ m', (writeOutputs t v qs outputs).1 q = .pvVariableOut m' ∧ (m' = m ∨ m' = (t, v)) ∧
      ((writeOutputs t v qs outputs).2 = none → q ∈ qs → m' = (t, v)) := by
  induction qs generalizing outputs m with
  | nil => exact ⟨m, h, .inl rfl, fun _ hq => by cases hq⟩
  | cons r rs ih =>
    by_cases hr : r = q
    · subst hr
      have hw : (outputs r).write t v = (.pvVariableOut (t, v), none) := by rw [h]; rfl
      rw [writeOutputs_of_accepted hw]
      obtain ⟨m', hm', hold, -⟩ := ih (Function.update_self r (.pvVariableOut (t, v)) outputs)
      have hval : m' = (t, v) := hold.elim id id
      exact ⟨m', hm', .inr hval, fun _ _ => hval⟩
    · have hkept (pv : OutputPV V) : Function.update outputs r pv q = .pvVariableOut m := by
        rw [Function.update_of_ne (Ne.symm hr), h]
      cases hw : (outputs r).write t v with
      | mk pv answer =>
        cases answer with
        | none =>
          rw [writeOutputs_of_accepted hw]
          obtain ⟨m', hm', hold, hval⟩ := ih (hkept pv)
          refine ⟨m', hm', hold, fun hnone hq => hval hnone ?_⟩
          exact (List.mem_cons.mp hq).resolve_left (Ne.symm hr)
        | some e =>
          rw [writeOutputs_of_threw hw]
          exact ⟨m, hkept pv, .inl rfl, fun hnone => by cases hnone⟩

/-- What a write does to the output PVs. -/
def PushEvent.deliver (outputs : Nat → OutputPV V) : PushEvent V → Nat → OutputPV V
  | .write _ q t v => Function.update outputs q ((outputs q).write t v).1
  | _ => outputs

theorem writeOutputs_eq {write : Nat → Timespec → V → Option Exn}
    (hwrite : ∀ q t v, ((outputs q).write t v).2 = write q t v) (p : Nat) (s : PushState V) :
    ∃ l, (writeEach write t v p qs s).1.log = s.log ++ l ∧
      writeOutputs t v qs outputs =
        (l.foldl PushEvent.deliver outputs, (writeEach write t v p qs s).2) := by
  induction qs generalizing outputs s with
  | nil => exact ⟨[], by simp [writeEach], rfl⟩
  | cons q qs ih =>
    cases hw : (outputs q).write t v with
    | mk pv answer =>
      have ha : write q t v = answer := by rw [← hwrite, hw]
      cases answer with
      | none =>
        have hkept : ∀ r t v, ((Function.update outputs q pv r).write t v).2 = write r t v := by
          intro r t' v'
          by_cases hr : r = q
          · subst hr
            rw [Function.update_self, ← hwrite, ← OutputPV.write_write (outputs r) t t' v v', hw]
          · rw [Function.update_of_ne hr, hwrite]
        obtain ⟨l, hlog, hout⟩ := ih hkept { s with log := s.log ++ [.write p q t v] }
        refine ⟨.write p q t v :: l, ?_, ?_⟩
        · simp only [writeEach, ha, hlog, List.append_assoc, List.singleton_append]
        · rw [writeOutputs_of_accepted hw, hout]
          simp only [writeEach, ha, List.foldl_cons, PushEvent.deliver, hw]
      | some e =>
        refine ⟨[.write p q t v], ?_, ?_⟩
        · simp only [writeEach, ha]
        · rw [writeOutputs_of_threw hw]
          simp only [writeEach, ha, List.foldl_cons, List.foldl_nil, PushEvent.deliver, hw]

end

namespace VariableIn

open Lts

variable {s₀ s s' : VariableIn V} {es : List (VariableEvent V)} {q : Nat}

/-- What the output PVs answer. -/
def answers (s : VariableIn V) (q : Nat) (t : Timespec) (v : V) : Option Exn :=
  ((s.outputs q).write t v).2

/-- **A call nothing comes between is `setValue`**: the input holds the value, the output PVs have
what was written to them, and the call ends as it does there. -/
theorem exec_setValue {i p : Nat} {t : Timespec} {v : V} (hi : s.calls i = .notCalled)
    (values : Nat → Timespec × V) {inputPVs : Nat → PVBaseIn}
    (hp : (inputPVs p).subscriberOutputPVs = s.subscriberOutputPVs) :
    let r := setValue s.answers t v p values ⟨inputPVs, []⟩
    exec step s [.store i t v, .notify i] = some { s with
      input := r.1 p
      outputs := r.2.1.log.foldl PushEvent.deliver s.outputs
      calls := Function.update s.calls i (.ended r.2.2) } := by
  obtain ⟨l, hlog, hout⟩ : ∃ l,
      (writeEach s.answers t v p s.subscriberOutputPVs.elems ⟨inputPVs, []⟩).1.log = l ∧
        writeOutputs t v s.subscriberOutputPVs.elems s.outputs =
          (l.foldl PushEvent.deliver s.outputs,
            (writeEach s.answers t v p s.subscriberOutputPVs.elems ⟨inputPVs, []⟩).2) :=
    writeOutputs_eq (fun _ _ _ => rfl) p ⟨inputPVs, []⟩
  simp [exec, step, hi, setCall, setValue, hp, hout, hlog]

/-! ## What the calls leave -/

/-- What the call `i` has stored. -/
def storedBy (i : Nat) : List (VariableEvent V) → Option (Timespec × V) :=
  latest fun
    | .store j t v => if j = i then some (t, v) else none
    | _ => none

/-- What the call that stored last has stored. -/
def lastStored : List (VariableEvent V) → Option (Timespec × V) :=
  latest fun
    | .store _ t v => some (t, v)
    | _ => none

def lastNotifier : List (VariableEvent V) → Option Nat :=
  latest fun
    | .notify i => some i
    | _ => none

/-- What the call that notified last has stored. -/
def lastNotified (es : List (VariableEvent V)) : Option (Timespec × V) :=
  (lastNotifier es).bind (storedBy · es)

/-- Nobody but the calls of `setValue` writes the output PV, and nobody unsubscribes it. -/
def LeavesAlone (q : Nat) : VariableEvent V → Prop
  | .unsubscribeReceiver r | .write r _ _ => r ≠ q
  | _ => True

/-- What the events so far say about the state. -/
structure History (s₀ : VariableIn V) (q : Nat) (m₀ : Timespec × V) (es : List (VariableEvent V))
    (s : VariableIn V) : Prop where
  input : s.input = (lastStored es).getD s₀.input
  stored : ∀ i t v, s.calls i = .stored t v → storedBy i es = some (t, v)
  notifier : ∀ i, lastNotifier es = some i → ∃ r, s.calls i = .ended r
  subscribed : q ∈ s.subscriberOutputPVs
  holds : ∃ m, s.outputs q = .pvVariableOut m
  /-- As long as no call has thrown. -/
  output : (∀ i e, s.calls i ≠ .ended (.threw e)) →
    s.outputs q = .pvVariableOut ((lastNotified es).getD m₀)

section

variable {m₀ : Timespec × V}

theorem History.init (hvar : s₀.outputs q = .pvVariableOut m₀) (hsub : q ∈ s₀.subscriberOutputPVs)
    (hcalls : ∀ i, s₀.calls i = .notCalled) : History s₀ q m₀ [] s₀ where
  input := rfl
  stored i t v h := by
    rw [hcalls i] at h
    cases h
  notifier i h := by cases h
  subscribed := hsub
  holds := ⟨m₀, hvar⟩
  output _ := hvar

theorem History.store {i : Nat} {t : Timespec} {v : V} (h : History s₀ q m₀ es s)
    (hi : s.calls i = .notCalled) :
    History s₀ q m₀ (es ++ [.store i t v])
      { s.setCall i (.stored t v) with input := (t, v) } := by
  have hother {j : Nat} {c : SetValueCall V} (hc : s.calls j = c) (hne : c ≠ .notCalled) :
      i ≠ j := by
    rintro rfl
    exact hne (hc.symm.trans hi)
  have hnotifier : lastNotifier (es ++ [.store i t v]) = lastNotifier es := by
    simp [lastNotifier, latest_concat]
  have hstoredBy {j : Nat} (hj : i ≠ j) : storedBy j (es ++ [.store i t v]) = storedBy j es := by
    simp [storedBy, latest_concat, hj]
  refine ⟨by simp [lastStored, latest_concat], fun j t' v' hj => ?_, fun j hj => ?_, h.subscribed,
    h.holds, fun hthrew => ?_⟩
  · by_cases hji : i = j
    · subst hji
      obtain ⟨rfl, rfl⟩ : t = t' ∧ v = v' := by simpa [setCall] using hj
      simp [storedBy, latest_concat]
    · rw [hstoredBy hji]
      exact h.stored j t' v' ((Function.update_of_ne (Ne.symm hji) ..).symm.trans hj)
  · rw [hnotifier] at hj
    obtain ⟨r, hr⟩ := h.notifier j hj
    exact ⟨r, (Function.update_of_ne (Ne.symm (hother hr (by simp))) ..).trans hr⟩
  · have hkept : lastNotified (es ++ [.store i t v]) = lastNotified es := by
      rw [lastNotified, hnotifier, lastNotified]
      cases hlast : lastNotifier es with
      | none => rfl
      | some j =>
        obtain ⟨r, hr⟩ := h.notifier j hlast
        exact hstoredBy (hother hr (by simp))
    rw [hkept]
    refine h.output fun j e hj => hthrew j e ?_
    exact (Function.update_of_ne (Ne.symm (hother hj (by simp))) ..).trans hj

/-- A notification that comes to its end gives the output PV what its own call stored, whatever has
been stored or notified since. -/
theorem History.notify {i : Nat} {t : Timespec} {v : V} {outputs : Nat → OutputPV V}
    {thrown : Option Exn} (h : History s₀ q m₀ es s) (hi : s.calls i = .stored t v)
    (hw : writeOutputs t v s.subscriberOutputPVs.elems s.outputs = (outputs, thrown)) :
    History s₀ q m₀ (es ++ [.notify i]) { s.setCall i (.ended (.ofLoop thrown)) with outputs } := by
  have hstoredBy (j : Nat) : storedBy j (es ++ [.notify i]) = storedBy j es := by
    simp [storedBy, latest_concat]
  have hnotifier : lastNotifier (es ++ [.notify i]) = some i := by
    simp [lastNotifier, latest_concat]
  obtain ⟨m, hm⟩ := h.holds
  obtain ⟨m', hm', hval⟩ : ∃ m', outputs q = .pvVariableOut m' ∧ (thrown = none → m' = (t, v)) := by
    obtain ⟨m', hm', -, hval⟩ := @writeOutputs_variable V t v s.subscriberOutputPVs.elems _ q m hm
    rw [hw] at hm' hval
    exact ⟨m', hm', fun hnone => hval hnone h.subscribed⟩
  refine ⟨?_, fun j t' v' hj => ?_, fun j hj => ?_, h.subscribed, ⟨m', hm'⟩, fun hthrew => ?_⟩
  · rw [lastStored, latest_concat]
    exact h.input
  · by_cases hji : j = i
    · subst hji
      simp [setCall] at hj
    · rw [hstoredBy]
      exact h.stored j t' v' ((Function.update_of_ne hji ..).symm.trans hj)
  · rw [hnotifier, Option.some.injEq] at hj
    exact ⟨.ofLoop thrown, hj ▸ Function.update_self ..⟩
  · have hnone : thrown = none := by
      cases thrown with
      | none => rfl
      | some e => exact absurd (Function.update_self ..) (hthrew i e)
    have hlast : lastNotified (es ++ [.notify i]) = some (t, v) := by
      rw [lastNotified, hnotifier, Option.bind_some, hstoredBy, h.stored i t v hi]
    rw [hlast]
    show outputs q = _
    rw [hm', hval hnone]
    rfl

theorem History.other {e : VariableEvent V} (h : History s₀ q m₀ es s)
    (hstore : ∀ i t v, e ≠ .store i t v) (hnotify : ∀ i, e ≠ .notify i)
    (hinput : s'.input = s.input) (hcalls : s'.calls = s.calls)
    (hsub : q ∈ s'.subscriberOutputPVs) (hout : s'.outputs q = s.outputs q) :
    History s₀ q m₀ (es ++ [e]) s' := by
  obtain ⟨hlast, hnotifier, hstoredBy⟩ : lastStored (es ++ [e]) = lastStored es ∧
      lastNotifier (es ++ [e]) = lastNotifier es ∧
      ∀ i, storedBy i (es ++ [e]) = storedBy i es := by
    cases e with
    | store i t v => exact absurd rfl (hstore i t v)
    | notify i => exact absurd rfl (hnotify i)
    | _ => simp [lastStored, lastNotifier, storedBy, latest_concat]
  have hnotified : lastNotified (es ++ [e]) = lastNotified es := by
    simp only [lastNotified, hnotifier, hstoredBy]
  constructor
  · rw [hinput, hlast]
    exact h.input
  · simp only [hcalls, hstoredBy]
    exact h.stored
  · simp only [hcalls, hnotifier]
    exact h.notifier
  · exact hsub
  · rw [hout]
    exact h.holds
  · rw [hcalls, hout, hnotified]
    exact h.output

theorem History.step {e : VariableEvent V} (h : History s₀ q m₀ es s) (he : LeavesAlone q e)
    (hs : step s e = some s') : History s₀ q m₀ (es ++ [e]) s' := by
  cases e with
  | store i t v =>
    simp only [VariableIn.step] at hs
    split at hs
    · next hi =>
      obtain rfl := Option.some.inj hs
      exact h.store hi
    · cases hs
  | notify i =>
    simp only [VariableIn.step] at hs
    split at hs
    · next t v hi =>
      obtain rfl := Option.some.inj hs
      exact h.notify hi rfl
    · cases hs
  | subscribeReceiver r =>
    obtain rfl := Option.some.inj hs
    exact h.other (by simp) (by simp) rfl rfl (OrdSet.mem_insert.mpr (.inr h.subscribed)) rfl
  | unsubscribeReceiver r =>
    obtain rfl := Option.some.inj hs
    exact h.other (by simp) (by simp) rfl rfl
      (OrdSet.mem_erase.mpr ⟨h.subscribed, Ne.symm he⟩) rfl
  | write r t v =>
    obtain rfl := Option.some.inj hs
    exact h.other (by simp) (by simp) rfl rfl h.subscribed
      (Function.update_of_ne (Ne.symm he) ..)

theorem History.run (hvar : s₀.outputs q = .pvVariableOut m₀) (hsub : q ∈ s₀.subscriberOutputPVs)
    (hcalls : ∀ i, s₀.calls i = .notCalled) (hes : ∀ e ∈ es, LeavesAlone q e)
    (hrun : exec VariableIn.step s₀ es = some s) : History s₀ q m₀ es s :=
  exec_history (l := []) (History.init hvar hsub hcalls) History.step hes hrun

end

/-- **What the calls leave.** When all the calls have returned, the output variable holds what the
input holds exactly when the call that notified last had stored what was stored last. -/
theorem outputs_eq_input_iff {m₀ : Timespec × V} (hcalls : ∀ i, s₀.calls i = .notCalled)
    (hvar : s₀.outputs q = .pvVariableOut m₀) (hsub : q ∈ s₀.subscriberOutputPVs)
    (hes : ∀ e ∈ es, LeavesAlone q e) (hrun : exec step s₀ es = some s)
    (hreturned : ∀ i, s.calls i = .notCalled ∨ s.calls i = .ended .returned) :
    s.outputs q = .pvVariableOut s.input ↔
      (lastNotified es).getD m₀ = (lastStored es).getD s₀.input := by
  have h := History.run hvar hsub hcalls hes hrun
  have hout : s.outputs q = .pvVariableOut ((lastNotified es).getD m₀) := by
    refine h.output fun i e hi => ?_
    rcases hreturned i with hr | hr <;> rw [hr] at hi <;> cases hi
  rw [hout, OutputPV.pvVariableOut.injEq, h.input]

/-- Output 1 is subscribed, and nobody has called `setValue`. -/
def unset : VariableIn Int :=
  ⟨(⟨0, 0⟩, 0), fun _ => .pvVariableOut (⟨0, 0⟩, 0), (∅ : OrdSet Nat).insert 1,
    fun _ => .notCalled⟩

/-- Two calls that notify in the order in which they stored. -/
theorem outputs_eq_input_inOrder :
    ∃ s, exec step unset [.store 0 ⟨1, 0⟩ 10, .store 1 ⟨2, 0⟩ 20, .notify 0, .notify 1] = some s ∧
      s.outputs 1 = .pvVariableOut s.input := by
  have hcalls : ∀ i, unset.calls i = .notCalled := fun _ => rfl
  have hes : ∀ e ∈ [.store 0 ⟨1, 0⟩ 10, .store 1 ⟨2, 0⟩ 20, .notify 0, .notify 1],
      LeavesAlone (V := Int) 1 e := by simp [LeavesAlone]
  refine ⟨_, rfl, (outputs_eq_input_iff hcalls rfl (by decide) hes rfl fun i => ?_).mpr rfl⟩
  rcases i with _ | _ | i
  · exact .inr rfl
  · exact .inr rfl
  · exact .inl rfl

/-- The call that stores first notifies last. -/
theorem outputs_ne_input :
    ∃ s, exec step unset [.store 0 ⟨1, 0⟩ 10, .store 1 ⟨2, 0⟩ 20, .notify 1, .notify 0] = some s ∧
      (∀ i, s.calls i = .notCalled ∨ s.calls i = .ended .returned) ∧
      s.outputs 1 ≠ .pvVariableOut s.input := by
  refine ⟨_, rfl, fun i => ?_, fun h => ?_⟩
  · rcases i with _ | _ | i
    · exact .inr rfl
    · exact .inr rfl
    · exact .inl rfl
  · have hvalue : (10 : Int) = 20 := congrArg Prod.snd (OutputPV.pvVariableOut.inj h)
    exact absurd hvalue (by decide)

end VariableIn

end Nds3
