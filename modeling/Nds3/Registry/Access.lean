import Nds3.Registry.Types
import Nds3.Registry.FanOut

/-!
# From an input PV to a reader of an output PV

A value that is pushed through the registry arrives at the output PVs that are subscribed, through
the overload of `write` of its type; a `PVVariableOut` keeps it, with the timestamp, and the control
system reads it through one of the overloads of `read`. These fall back on one another as those of
`write` do: an array of `int8` is read through an array of `uint8`, and that as a string.

What is read at the type that was pushed is what was pushed (`read_latest`).

All output PVs are variables here, whose `write` keeps the value and returns. One with a function of
the user or of a state machine behind it may throw, and what comes after it gets nothing. The `push`
of the port, which a value is forwarded to, is taken to return.
-/

namespace Nds3

open Relation Dag

section

/-- A call of an overload of `read` on a PV that holds the value, with what the overload does where
it is not overridden. -/
def readOverload (stored : Value) (t : DataType) (base : Except Abort Value) :
    Except Abort Value :=
  if stored.dataType = t then .ok stored else base

def readString (stored : Value) : Except Abort Value :=
  readOverload stored .dataString (.error .terminate)

/-- The bytes of the string are copied. -/
def readUint8Array (stored : Value) : Except Abort Value :=
  readOverload stored .dataUint8Array <|
    match readString stored with
    | .ok (.string bytes) => .ok (.uint8Array bytes)
    | r => r

/-- The pointer is cast. -/
def readInt8Array (stored : Value) : Except Abort Value :=
  readOverload stored .dataInt8Array <|
    match readUint8Array stored with
    | .ok (.uint8Array v) => .ok (.int8Array (v.map UInt8.toInt8))
    | r => r

/-- `read`, of an input or of an output PV, through the overload of the type. -/
def read (stored : Value) : DataType → Except Abort Value
  | .dataInt8Array => readInt8Array stored
  | .dataUint8Array => readUint8Array stored
  | .dataString => readString stored
  | t => readOverload stored t (.error .terminate)

variable {own t : DataType} {v w : Value}

/-- **The round trip of one value.** What a PV accepts at a type it gives back at that type. -/
theorem read_write (h : PVBaseOut.write own v = .ok w) : read w v.dataType = .ok v := by
  have hbytes : ∀ l : List Int8, (l.map Int8.toUInt8).map UInt8.toInt8 = l := by
    intro l
    rw [List.map_map]
    exact (List.map_congr_left fun x _ => Int8.toInt8_toUInt8 x).trans (List.map_id _)
  cases v with
  | int8Array l =>
    simp only [PVBaseOut.write, PVBaseOut.writeInt8Array, PVBaseOut.writeUint8Array,
      PVBaseOut.writeString, PVBaseOut.overload] at h
    split at h
    · cases h
      rfl
    · split at h
      · cases h
        exact congrArg (fun l => Except.ok (Value.int8Array l)) (hbytes l)
      · split at h
        · cases h
          exact congrArg (fun l => Except.ok (Value.int8Array l)) (hbytes l)
        · cases h
  | uint8Array l =>
    simp only [PVBaseOut.write, PVBaseOut.writeUint8Array, PVBaseOut.writeString,
      PVBaseOut.overload] at h
    split at h
    · cases h
      rfl
    · split at h
      · cases h
        rfl
      · cases h
  | _ =>
    simp only [PVBaseOut.write, PVBaseOut.writeString, PVBaseOut.overload] at h
    split at h
    · cases h
      rfl
    · cases h

end

/-! ## Runs -/

inductive AccessCall where
  | push (p : Nat) (timestamp : Timespec) (value : Value)
  /-- The control system writes an output PV. -/
  | write (q : Nat) (timestamp : Timespec) (value : Value)

/-- The input PVs, and the timestamp and the value of each output PV. -/
structure DataPath where
  inputPVs : Nat → PVBaseIn
  values : Nat → Timespec × Value

namespace DataPath

variable (types : PVTypes)

/-- `write` of the output PV; `none` if it ends the process. -/
def store (values : Nat → Timespec × Value) (q : Nat) (t : Timespec) (v : Value) :
    Option (Nat → Timespec × Value) :=
  match PVBaseOut.write (types.output q) v with
  | .ok w => some (Function.update values q (t, w))
  | .error _ => none

/-- What a push has written arrives. -/
def deliver : List (PushEvent Value) → (Nat → Timespec × Value) →
    Option (Nat → Timespec × Value)
  | [], values => some values
  | .write _ q t v :: log, values => (store types values q t v).bind (deliver log)
  | _ :: log, values => deliver log values

/-- The variables accept what they are written. -/
def step (fuel : Nat) (s : DataPath) : AccessCall → Option DataPath
  | .push p t v =>
    match Nds3.push (fun _ _ _ => none) t v fuel [] p ⟨s.inputPVs, []⟩ with
    | some (r, .returned) => (deliver types r.log s.values).map fun values => ⟨r.inputPVs, values⟩
    | _ => none
  | .write q t v => (store types s.values q t v).map fun values => { s with values }

end DataPath

namespace NdsFactory

/-- The push of an input PV comes to the output PV. -/
def Leads (f : NdsFactory) (p q : Nat) : Prop :=
  ∃ x, ReflTransGen f.Replicates p x ∧ q ∈ f.subscribers x

open Classical in
/-- What a call writes an output PV. -/
noncomputable def given (f : NdsFactory) (q : Nat) : AccessCall → Option (Timespec × Value)
  | .push p t v => if f.Leads p q then some (t, v) else none
  | .write q' t v => if q' = q then some (t, v) else none

/-- A push is of a value of the type of the PV, and a write of one the PV handles. -/
def Proper (f : NdsFactory) (types : PVTypes) : AccessCall → Prop
  | .push p _ v => f.Registered p ∧ v.dataType = types.input p
  | .write q _ v => Handles v.dataType (types.output q)

end NdsFactory

namespace DataPath

open NdsFactory

variable {types : PVTypes} {values values' : Nat → Timespec × Value} {q : Nat} {t : Timespec}
  {v : Value}

/-- The output PV holds what is read as the value. -/
def Holds (values : Nat → Timespec × Value) (q : Nat) (d : Timespec × Value) : Prop :=
  (values q).1 = d.1 ∧ read (values q).2 d.2.dataType = .ok d.2

theorem store_handled (values : Nat → Timespec × Value) (t : Timespec)
    (h : Handles v.dataType (types.output q)) :
    ∃ values', store types values q t v = some values' ∧ Holds values' q (t, v) ∧
      ∀ q', q' ≠ q → values' q' = values q' := by
  obtain ⟨w, hw, -⟩ := write_eq_ok_iff.mpr h
  refine ⟨Function.update values q (t, w), by rw [store, hw], ⟨?_, ?_⟩, fun q' hq' => ?_⟩
  · rw [Function.update_self]
  · rw [Function.update_self]
    exact read_write hw
  · exact Function.update_of_ne hq' _ _

/-- The writes of one push leave every output PV with its value, or as it was. -/
theorem deliver_push (values : Nat → Timespec × Value) {log : List (PushEvent Value)}
    (hlog : ∀ x q t' v', .write x q t' v' ∈ log →
      (t', v') = (t, v) ∧ Handles v.dataType (types.output q)) :
    ∃ values', deliver types log values = some values' ∧ ∀ q,
      ((∃ x, .write x q t v ∈ log) → Holds values' q (t, v)) ∧
      ((¬ ∃ x, .write x q t v ∈ log) → values' q = values q) := by
  induction log generalizing values with
  | nil => exact ⟨values, rfl, fun q => ⟨fun ⟨x, hx⟩ => (by cases hx), fun _ => rfl⟩⟩
  | cons ev log ih =>
    have hrest : ∀ x q t' v', .write x q t' v' ∈ log →
        (t', v') = (t, v) ∧ Handles v.dataType (types.output q) :=
      fun x q t' v' h => hlog x q t' v' (List.mem_cons_of_mem _ h)
    cases ev with
    | write x q t' v' =>
      obtain ⟨heq, hq⟩ := hlog x q t' v' (List.mem_cons_self ..)
      cases heq
      obtain ⟨values1, hstore, hholds, hother⟩ := store_handled values t hq
      obtain ⟨values2, hdeliver, hvalues⟩ := ih values1 hrest
      refine ⟨values2, by rw [deliver, hstore, Option.bind_some, hdeliver], fun r => ?_⟩
      obtain ⟨hin, hout⟩ := hvalues r
      by_cases hr : ∃ y, .write y r t v ∈ log
      · obtain ⟨y, hy⟩ := hr
        exact ⟨fun _ => hin ⟨y, hy⟩, fun hnot => absurd ⟨y, List.mem_cons_of_mem _ hy⟩ hnot⟩
      · have hlast := hout hr
        refine ⟨?_, fun hnot => ?_⟩
        · rintro ⟨y, hy⟩
          rcases List.mem_cons.mp hy with heq | hy
          · cases heq
            rw [Holds, hlast]
            exact hholds
          · exact absurd ⟨y, hy⟩ hr
        · rw [hlast]
          refine hother r fun hc => hnot ⟨x, ?_⟩
          rw [hc]
          exact List.mem_cons_self ..
    | push | forward =>
      obtain ⟨values', hdeliver, hvalues⟩ := ih values hrest
      refine ⟨values', hdeliver, fun r => ?_⟩
      simpa using hvalues r

variable {f : NdsFactory} {s s' : DataPath} {n fuel : Nat} {c : AccessCall}

theorem push_writes (hl : Linked f.subscribers f.destinations (⟨s.inputPVs, []⟩ : PushState Value))
    {p : Nat} (hd : Depth (succ f.destinations) fuel p) :
    ∃ r, Nds3.push (fun _ _ _ => none) t v fuel [] p ⟨s.inputPVs, []⟩ = some (r, .returned) ∧
      Linked f.subscribers f.destinations r ∧
      (∀ x q t' v', .write x q t' v' ∈ r.log → (t', v') = (t, v)) ∧
      ∀ x q, .write x q t v ∈ r.log ↔ ReflTransGen f.Replicates p x ∧ q ∈ f.subscribers x := by
  have hpush : Nds3.push (fun _ _ _ => none) t v fuel [] p ⟨s.inputPVs, []⟩ = _ :=
    push_eq_walk hl hd (fun _ h => by cases h) fun _ _ _ _ => rfl
  refine ⟨_, hpush, hl.foldl_visit _, fun x q t' v' hmem => ?_, fun x q => ?_⟩
  · rcases foldl_visit_events _ _ _ hmem with hmem | ⟨y, hev | hev | ⟨q', hev⟩⟩
    · cases hmem
    · cases hev
    · cases hev
    · cases hev
      rfl
  · rw [← List.count_pos_iff, foldl_visit_writes hl, List.count_nil, Nat.zero_add]
    split
    · next hq => rw [List.count_pos_iff, hd.mem_walk]; exact (and_iff_left hq).symm
    · next hq => exact iff_of_false (Nat.lt_irrefl 0) fun h => hq h.2

/-- **Step lemma.** A proper call leaves every output PV it writes with its value. -/
theorem step_proper (hd : ∀ p, Depth (succ f.destinations) fuel p) (hsafe : f.TypeSafe types)
    (hl : Linked f.subscribers f.destinations (⟨s.inputPVs, []⟩ : PushState Value))
    (hc : f.Proper types c) :
    ∃ s', step types fuel s c = some s' ∧
      Linked f.subscribers f.destinations (⟨s'.inputPVs, []⟩ : PushState Value) ∧
      ∀ q, match f.given q c with
        | none => s'.values q = s.values q
        | some d => Holds s'.values q d := by
  cases c with
  | push p t v =>
    obtain ⟨hp, hv⟩ := hc
    obtain ⟨r, hpush, hr, hsame, hwrites⟩ := push_writes (t := t) (v := v) hl (hd p)
    have hlog : ∀ x q t' v', .write x q t' v' ∈ r.log →
        (t', v') = (t, v) ∧ Handles v.dataType (types.output q) := by
      intro x q t' v' hmem
      have heq := hsame x q t' v' hmem
      cases heq
      obtain ⟨hx, hq⟩ := (hwrites x q).mp hmem
      exact ⟨rfl, hv ▸ (hsafe.reached p hp x hx).2 q hq⟩
    obtain ⟨values, hdeliver, hvalues⟩ := deliver_push s.values hlog
    refine ⟨⟨r.inputPVs, values⟩, ?_, ⟨hr.subscribers, hr.destinations⟩, fun q => ?_⟩
    · simp only [step, hpush, hdeliver, Option.map_some]
    · have hleads : (∃ x, .write x q t v ∈ r.log) ↔ f.Leads p q :=
        exists_congr fun x => hwrites x q
      obtain ⟨hin, hout⟩ := hvalues q
      rw [hleads] at hin hout
      by_cases hq : f.Leads p q
      · rw [given, if_pos hq]
        exact hin hq
      · rw [given, if_neg hq]
        exact hout hq
  | write q t v =>
    obtain ⟨values, hstore, hholds, hother⟩ := store_handled s.values t hc
    refine ⟨{ s with values }, by rw [step, hstore, Option.map_some], hl, fun r => ?_⟩
    by_cases hq : q = r
    · subst hq
      rw [given, if_pos rfl]
      exact hholds
    · rw [given, if_neg hq]
      exact hother r (Ne.symm hq)

/-- **Read back.** On type safe links without a cycle, any sequence of pushes of values of their PVs'
types and of writes that the output PVs handle comes to its end, and every output PV then holds the
last value that it has been given, by a write or by a push of any input PV that leads to it: read at
the type of that value it is exactly that value, with its timestamp. -/
theorem read_latest (hsafe : f.TypeSafe types) (hfew : {p | succ f.destinations p ≠ []}.Finite)
    (hac : Dag.Acyclic (Edge (succ f.destinations))) (calls : List AccessCall)
    (hcalls : ∀ c ∈ calls, f.Proper types c) (values : Nat → Timespec × Value) :
    ∃ n, ∀ fuel ≥ n, ∃ s, Lts.exec (step types fuel) ⟨f.inputPVs, values⟩ calls = some s ∧
      ∀ q, match Lts.latest (f.given q) calls with
        | none => s.values q = values q
        | some d => (s.values q).1 = d.1 ∧ read (s.values q).2 d.2.dataType = .ok d.2 := by
  obtain ⟨n, hn⟩ := exists_depth_all hfew hac
  refine ⟨n, fun fuel hfuel => ?_⟩
  have hd : ∀ p, Depth (succ f.destinations) fuel p := fun p => (hn p).mono hfuel
  -- the induction goes over the calls from the last one
  suffices hrun : ∃ s, Lts.exec (step types fuel) ⟨f.inputPVs, values⟩ calls = some s ∧
      Linked f.subscribers f.destinations (⟨s.inputPVs, []⟩ : PushState Value) ∧
      ∀ q, match Lts.latest (f.given q) calls with
        | none => s.values q = values q
        | some d => Holds s.values q d by
    obtain ⟨s, hs, -, hvalues⟩ := hrun
    exact ⟨s, hs, hvalues⟩
  induction calls using List.reverseRecOn with
  | nil => exact ⟨_, rfl, linked, fun q => rfl⟩
  | append_singleton calls c ih =>
    obtain ⟨s, hs, hl, hvalues⟩ := ih fun c hc => hcalls c (List.mem_append_left _ hc)
    obtain ⟨s', hs', hl', hstep⟩ := step_proper hd hsafe hl
      (hcalls c (List.mem_append_right _ (List.mem_singleton_self c)))
    refine ⟨s', ?_, hl', fun q => ?_⟩
    · rw [Lts.exec_append, hs, Option.bind_some, Lts.exec_singleton, hs']
    · rw [Lts.latest_concat]
      have hq := hstep q
      cases hg : f.given q c with
      | none =>
        rw [hg] at hq
        have hv := hvalues q
        rw [Option.none_or]
        cases hlast : Lts.latest (f.given q) calls with
        | none =>
          rw [hlast] at hv
          exact Eq.trans hq hv
        | some d =>
          rw [hlast] at hv
          show Holds s'.values q d
          rw [Holds, show s'.values q = s.values q from hq]
          exact hv
      | some d =>
        rw [hg] at hq
        exact hq

/-- A string PV that is subscribed to an array of `int8` is read as one. -/
theorem read_latest_conversion :
    let types : PVTypes := ⟨fun _ => .dataInt8Array, fun _ => .dataString⟩
    ∃ f, Lts.exec (NdsFactory.step ⟨fun _ => "in", fun _ => "out"⟩) .empty
        [.registerInputPV 1, .registerOutputPV 7, .subscribe "in" "out"] = some f ∧
      ∃ n, ∀ fuel ≥ n, ∃ s, Lts.exec (step types fuel)
          ⟨f.inputPVs, fun _ => (⟨0, 0⟩, .string [])⟩
          [.write 7 ⟨3, 0⟩ (.string [65]), .push 1 ⟨4, 0⟩ (.int8Array [-1, 2])] = some s ∧
        (s.values 7).1 = ⟨4, 0⟩ ∧
        read (s.values 7).2 .dataInt8Array = .ok (.int8Array [-1, 2]) := by
  intro types
  obtain ⟨f, hf⟩ : ∃ f, Lts.exec (NdsFactory.step ⟨fun _ => "in", fun _ => "out"⟩) .empty
    [.registerInputPV 1, .registerOutputPV 7, .subscribe "in" "out"] = some f := ⟨_, rfl⟩
  have hops : ∀ op ∈ [Op.registerInputPV 1, .registerOutputPV 7, .subscribe "in" "out"],
      Linking op := by
    simp [Linking, Growing]
  obtain ⟨ha, hm⟩ : Anchored f ∧ (f.Matched types ↔ NdsFactory.empty.Matched types ∧
      Lts.Meets (NdsFactory.step ⟨fun _ => "in", fun _ => "out"⟩) (Matching types) .empty
        [.registerInputPV 1, .registerOutputPV 7, .subscribe "in" "out"]) :=
    Lts.exec_iff_meets (I := Anchored) (P := Matched types) (fun h hop hs => h.step hop hs)
      anchored_empty hops hf
  have hsafe : f.TypeSafe types := by
    refine ha.typeSafe_iff.mpr (hm.mpr ⟨fun x => ⟨fun d hd => ?_, fun q hq => ?_⟩, ?_⟩)
    · exact absurd hd OrdSet.not_mem_empty
    · exact absurd hq OrdSet.not_mem_empty
    · exact ⟨trivial, fun _ _ => ⟨trivial, fun _ _ =>
        ⟨fun _ _ _ _ => .inr (.inl ⟨rfl, .inr rfl⟩), fun _ _ => trivial⟩⟩⟩
  have hnone : ∀ p, succ f.destinations p = [] := by
    intro p
    cases hf
    exact congrArg OrdSet.elems (replicationDestinationPVs_modify 1 7 p)
  have hleads : f.Leads 1 7 := by
    cases hf
    exact ⟨1, .refl, by decide⟩
  obtain ⟨n, hn⟩ := read_latest hsafe (by simp [hnone])
    (fun x hx => by
      obtain ⟨y, hy, -⟩ := TransGen.head'_iff.mp hx
      rw [Edge, hnone] at hy
      cases hy)
    [.write 7 ⟨3, 0⟩ (.string [65]), .push 1 ⟨4, 0⟩ (.int8Array [-1, 2])]
    (by
      have hregistered : f.Registered 1 := by
        cases hf
        exact ⟨"in", rfl⟩
      simp [Proper, hregistered, types, Value.dataType, Handles])
    fun _ => (⟨0, 0⟩, .string [])
  refine ⟨f, hf, n, fun fuel hfuel => ?_⟩
  obtain ⟨s, hs, hvalues⟩ := hn fuel hfuel
  have h7 := hvalues 7
  have hlatest : Lts.latest (f.given 7) [.write 7 ⟨3, 0⟩ (.string [65]),
      .push 1 ⟨4, 0⟩ (.int8Array [-1, 2])] = some (⟨4, 0⟩, .int8Array [-1, 2]) := by
    simp [Lts.latest, given, hleads]
  rw [hlatest] at h7
  exact ⟨s, hs, h7⟩

end DataPath

end Nds3
