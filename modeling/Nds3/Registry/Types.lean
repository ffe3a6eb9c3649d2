import Nds3.Registry.Shape
import Nds3.Registry.Replication

/-!
# Data types of linked PVs

The overloads of `write`, one for each data type. A class of output PVs overrides the one of its
own type; the others stay as `PVBaseOutImpl` has them, and these throw without an exception at
hand, apart from two that hand the value on to another overload (`int8` arrays go on as `uint8`
arrays, `uint8` arrays as strings). The operations that link PVs do not look at types, so what a
push runs into depends on what has been linked.
-/

namespace Nds3

open Relation Dag

/-- `dataType_t`. -/
inductive DataType where
  | dataInt32
  | dataFloat64
  | dataInt8Array
  | dataUint8Array
  | dataInt32Array
  | dataFloat64Array
  | dataString
  deriving DecidableEq, Repr

/-- The values that are pushed. A `double` is given by its bits, a `std::string` by its bytes. -/
inductive Value where
  | int32 (v : Int32)
  | float64 (bits : UInt64)
  | int8Array (v : List Int8)
  | uint8Array (v : List UInt8)
  | int32Array (v : List Int32)
  | float64Array (bits : List UInt64)
  | string (bytes : List UInt8)
  deriving DecidableEq

/-- `getDataTypeForCPPType`. -/
def Value.dataType : Value → DataType
  | int32 _ => .dataInt32
  | float64 _ => .dataFloat64
  | int8Array _ => .dataInt8Array
  | uint8Array _ => .dataUint8Array
  | int32Array _ => .dataInt32Array
  | float64Array _ => .dataFloat64Array
  | string _ => .dataString

namespace PVBaseOut

/-- A call of an overload of `write` on a PV of the type `own`, with what the overload does where
it is not overridden. The value that arrives at the PV, or the end of the process. -/
def overload (own : DataType) (value : Value) (base : Except Abort Value) : Except Abort Value :=
  if own = value.dataType then .ok value else base

def writeString (own : DataType) (value : List UInt8) : Except Abort Value :=
  overload own (.string value) (.error .terminate)

def writeUint8Array (own : DataType) (value : List UInt8) : Except Abort Value :=
  overload own (.uint8Array value) (writeString own value)

def writeInt8Array (own : DataType) (value : List Int8) : Except Abort Value :=
  overload own (.int8Array value) (writeUint8Array own (value.map Int8.toUInt8))

def write (own : DataType) : Value → Except Abort Value
  | .int8Array value => writeInt8Array own value
  | .uint8Array value => writeUint8Array own value
  | .string value => writeString own value
  | value => overload own value (.error .terminate)

end PVBaseOut

/-- An output PV of the type `own` handles values of the type `t`. -/
def Handles (t own : DataType) : Prop :=
  own = t ∨ (t = .dataInt8Array ∧ (own = .dataUint8Array ∨ own = .dataString)) ∨
    (t = .dataUint8Array ∧ own = .dataString)

instance (t own : DataType) : Decidable (Handles t own) := inferInstanceAs (Decidable (_ ∨ _))

/-- A `write` arrives, as a value of the PV's own type, exactly if the PV handles the type of the
value; else it ends the process. -/
theorem write_eq_ok_iff {own : DataType} {v : Value} :
    (∃ v', PVBaseOut.write own v = .ok v' ∧ v'.dataType = own) ↔ Handles v.dataType own := by
  cases v <;> cases own <;>
    simp [PVBaseOut.write, PVBaseOut.writeInt8Array, PVBaseOut.writeUint8Array,
      PVBaseOut.writeString, PVBaseOut.overload, Value.dataType, Handles]

/-- `getDataType` of the input and of the output PVs. -/
structure PVTypes where
  input : Nat → DataType
  output : Nat → DataType

/-- An event of a push that respects the types: what an input PV is pushed or forwards has its
type, and an output PV handles what it is written. -/
def PushEvent.WellTyped (types : PVTypes) : PushEvent Value → Prop
  | .push p _ v | .forward p _ v => v.dataType = types.input p
  | .write _ q _ v => ∃ v', PVBaseOut.write (types.output q) v = .ok v' ∧
      v'.dataType = types.output q

namespace NdsFactory

variable (types : PVTypes)

structure TypeSafe (f : NdsFactory) : Prop where
  /-- The PVs that the replications from a registered input PV lead to have its type, and the
  output PVs subscribed to them handle it. -/
  reached : ∀ p, f.Registered p → ∀ x, ReflTransGen f.Replicates p x →
    types.input x = types.input p ∧ ∀ q ∈ f.subscribers x, Handles (types.input p) (types.output q)
  /-- Every push of a value of the PV's own type, whatever the decimation counts are and whatever
  the output PVs do, respects the types. -/
  pushed : ∀ p, f.Registered p → ∀ write t v fuel s s' r,
    Linked f.subscribers f.destinations s → s.log = [] → v.dataType = types.input p →
    Nds3.push write t v fuel [] p s = some (s', r) → ∀ ev ∈ s'.log, ev.WellTyped types

/-- The registrations and the operations that link PVs. -/
def Linking : Op → Prop
  | .subscribePV _ _ | .subscribe _ _ => True
  | op => Growing op

/-- The types of the PVs an operation links match. -/
def Matching (f : NdsFactory) : Op → Prop
  | .subscribePV src q => ∀ p, f.registeredInputPVs.lookup src = some p →
      Handles (types.input p) (types.output q)
  | .subscribe src dst => ∀ p q, f.registeredInputPVs.lookup src = some p →
      f.registeredOutputPVs.lookup dst = some q → Handles (types.input p) (types.output q)
  | .replicatePV src d => ∀ p, f.registeredInputPVs.lookup src = some p →
      types.input d = types.input p
  | .replicate src dst => ∀ p d, f.registeredInputPVs.lookup src = some p →
      f.registeredInputPVs.lookup dst = some d → types.input d = types.input p
  | _ => True

/-- Every link joins PVs whose types match. -/
def Matched (f : NdsFactory) : Prop :=
  ∀ x, (∀ d ∈ f.destinations x, types.input d = types.input x) ∧
    ∀ q ∈ f.subscribers x, Handles (types.input x) (types.output q)

/-- Only registered input PVs have links. -/
def Anchored (f : NdsFactory) : Prop :=
  ∀ x, (∃ d, d ∈ f.destinations x) ∨ (∃ q, q ∈ f.subscribers x) → f.Registered x

variable {types} {names : FullNames} {f f' : NdsFactory}

/-- **The types are safe when those of every link match.** -/
theorem Anchored.typeSafe_iff (h : Anchored f) : f.TypeSafe types ↔ f.Matched types := by
  constructor
  · intro hs x
    refine ⟨fun d hd => ?_, fun q hq => ?_⟩
    · exact (hs.reached x (h x (.inl ⟨d, hd⟩)) d (.single hd)).1
    · exact (hs.reached x (h x (.inr ⟨q, hq⟩)) x .refl).2 q hq
  · intro hm
    have hreached : ∀ {p x}, ReflTransGen f.Replicates p x → types.input x = types.input p := by
      intro p x hx
      induction hx with
      | refl => rfl
      | tail _ hd ih => exact ((hm _).1 _ hd).trans ih
    refine ⟨fun p _ x hx => ⟨hreached hx, fun q hq => hreached hx ▸ (hm x).2 q hq⟩, ?_⟩
    intro p _ write t v fuel s s' r hl hlog hv hpush ev hev
    obtain ⟨x, hx, hev⟩ := (push_events hl hpush ev hev).resolve_left (by rw [hlog]; simp)
    have hvx : v.dataType = types.input x := hv.trans (hreached hx).symm
    rcases hev with rfl | rfl | ⟨q, hq, rfl⟩
    · exact hvx
    · exact hvx
    · exact write_eq_ok_iff.mpr (hvx ▸ (hm x).2 q hq)

theorem anchored_empty : Anchored .empty := by
  rintro x (⟨d, hd⟩ | ⟨q, hq⟩)
  · exact absurd hd OrdSet.not_mem_empty
  · exact absurd hq OrdSet.not_mem_empty

theorem Anchored.register (types : PVTypes) (h : Anchored f) (f' : NdsFactory)
    (hlinks : f'.inputPVs = f.inputPVs) (hreg : ∀ p, f.Registered p → f'.Registered p) :
    Anchored f' ∧ (f'.Matched types ↔ f.Matched types) := by
  have hs : f'.subscribers = f.subscribers := funext fun p => by rw [subscribers, hlinks]; rfl
  have hd : f'.destinations = f.destinations := funext fun p => by rw [destinations, hlinks]; rfl
  refine ⟨fun x hx => hreg x (h x ?_), by rw [Matched, Matched, hs, hd]⟩
  rwa [hs, hd] at hx

theorem Anchored.subscribePV (types : PVTypes) (h : Anchored f) {src : String} {q : Nat}
    (hx : f.subscribePV names src q = (f', .ok ())) :
    Anchored f' ∧ (f'.Matched types ↔ f.Matched types ∧ f.Matching types (.subscribePV src q)) := by
  obtain ⟨-, p, hp, rfl⟩ := subscribePV_ok hx
  have hdst : (f.modify p (·.subscribeReceiver q)).destinations = f.destinations :=
    funext (replicationDestinationPVs_modify p q)
  have hsub : ∀ x q', q' ∈ (f.modify p (·.subscribeReceiver q)).subscribers x ↔
      q' ∈ f.subscribers x ∨ x = p ∧ q' = q := fun _ _ => mem_subscriberOutputPVs_modify
  refine ⟨fun x hx => ?_, ?_⟩
  · rw [hdst] at hx
    rcases hx with hx | ⟨q', hq'⟩
    · exact h x (.inl hx)
    · rcases (hsub x q').mp hq' with hq' | ⟨rfl, -⟩
      · exact h x (.inr ⟨q', hq'⟩)
      · exact ⟨src, hp⟩
  · simp only [Matched, Matching, hdst, hsub, hp, Option.some.injEq, forall_eq']
    constructor
    · exact fun hm => ⟨fun x => ⟨(hm x).1, fun q' hq' => (hm x).2 q' (.inl hq')⟩,
        (hm p).2 q (.inr ⟨rfl, rfl⟩)⟩
    · rintro ⟨hm, hq⟩ x
      refine ⟨(hm x).1, fun q' hq' => ?_⟩
      rcases hq' with hq' | ⟨rfl, rfl⟩
      · exact (hm x).2 q' hq'
      · exact hq

theorem Anchored.replicatePV (types : PVTypes) (h : Anchored f) {src : String} {d : Nat}
    (hx : f.replicatePV names src d = (f', .ok ())) :
    Anchored f' ∧ (f'.Matched types ↔ f.Matched types ∧ f.Matching types (.replicatePV src d)) := by
  obtain ⟨-, p, hp, rfl⟩ := replicatePV_ok hx
  have hsub : (f.modify p (·.replicateTo d)).subscribers = f.subscribers :=
    funext (subscriberOutputPVs_modify p d)
  have hdst : ∀ x d', d' ∈ (f.modify p (·.replicateTo d)).destinations x ↔
      d' ∈ f.destinations x ∨ x = p ∧ d' = d := fun _ _ => mem_replicationDestinationPVs_modify
  refine ⟨fun x hx => ?_, ?_⟩
  · rw [hsub] at hx
    rcases hx with ⟨d', hd'⟩ | hx
    · rcases (hdst x d').mp hd' with hd' | ⟨rfl, -⟩
      · exact h x (.inl ⟨d', hd'⟩)
      · exact ⟨src, hp⟩
    · exact h x (.inr hx)
  · simp only [Matched, Matching, hsub, hdst, hp, Option.some.injEq, forall_eq']
    constructor
    · exact fun hm => ⟨fun x => ⟨fun d' hd' => (hm x).1 d' (.inl hd'), (hm x).2⟩,
        (hm p).1 d (.inr ⟨rfl, rfl⟩)⟩
    · rintro ⟨hm, hd⟩ x
      refine ⟨fun d' hd' => ?_, (hm x).2⟩
      rcases hd' with hd' | ⟨rfl, rfl⟩
      · exact (hm x).1 d' hd'
      · exact hd

/-- **Step lemma.** -/
theorem Anchored.step {op : Op} (h : Anchored f) (hop : Linking op)
    (hs : f.step names op = some f') :
    Anchored f' ∧ (f'.Matched types ↔ f.Matched types ∧ f.Matching types op) := by
  rw [step_eq_some] at hs
  cases op with
  | registerInputPV p =>
    obtain ⟨hi, -, rfl⟩ := registerInputPV_ok hs
    obtain ⟨ha, hm⟩ := h.register types { f with
      registeredInputPVs := f.registeredInputPVs.insert (names.input p) p } rfl
      fun x ⟨n, hn⟩ => ⟨n, by
        rw [AList.lookup_insert_ne fun hc => hi (AList.lookup_isSome.mp (by rw [← hc, hn]; rfl))]
        exact hn⟩
    exact ⟨ha, hm.trans (and_iff_left trivial).symm⟩
  | registerOutputPV q =>
    obtain ⟨-, -, rfl⟩ := registerOutputPV_ok hs
    obtain ⟨ha, hm⟩ := h.register types { f with
      registeredOutputPVs := f.registeredOutputPVs.insert (names.output q) q } rfl fun _ h => h
    exact ⟨ha, hm.trans (and_iff_left trivial).symm⟩
  | subscribePV src q => exact h.subscribePV types hs
  | replicatePV src d => exact h.replicatePV types hs
  | subscribe src dst =>
    obtain ⟨op', hop, hs'⟩ := exec_resolve hs
    obtain ⟨q, hq, rfl⟩ := Option.map_eq_some_iff.mp hop
    obtain ⟨ha, hm⟩ := h.subscribePV types hs'
    refine ⟨ha, hm.trans (and_congr_right fun _ => ?_)⟩
    simp [Matching, hq]
  | replicate src dst =>
    obtain ⟨op', hop, hs'⟩ := exec_resolve hs
    obtain ⟨d, hd, rfl⟩ := Option.map_eq_some_iff.mp hop
    obtain ⟨ha, hm⟩ := h.replicatePV types hs'
    refine ⟨ha, hm.trans (and_congr_right fun _ => ?_)⟩
    simp [Matching, hd]
  | _ => cases hop

/-- **Which links are type safe.** After any sequence of registrations, subscriptions and
replications that did not throw, the links are type safe if and only if every subscription was to a
PV that handles the type of its source, and every replication to one of the same type. -/
theorem typeSafe_iff_matching {ops : List Op} (hops : ∀ op ∈ ops, Linking op)
    (hs : Lts.exec (step names) .empty ops = some f) :
    f.TypeSafe types ↔ Lts.Meets (step names) (Matching types) .empty ops := by
  obtain ⟨ha, hm⟩ : Anchored f ∧ (f.Matched types ↔
      NdsFactory.empty.Matched types ∧ Lts.Meets (step names) (Matching types) .empty ops) :=
    Lts.exec_iff_meets (I := Anchored) (P := Matched types)
      (fun h hop hs => h.step hop hs) anchored_empty hops hs
  rw [ha.typeSafe_iff, hm]
  refine and_iff_right fun x => ⟨fun d hd => ?_, fun q hq => ?_⟩
  · exact absurd hd OrdSet.not_mem_empty
  · exact absurd hq OrdSet.not_mem_empty

/-- A string PV subscribed to an `int8` array. -/
theorem typeSafe_conversion :
    ∃ f, Lts.exec (step ⟨fun _ => "in", fun _ => "out"⟩) .empty
        [.registerInputPV 1, .registerOutputPV 7, .subscribe "in" "out"] = some f ∧
      f.TypeSafe ⟨fun _ => .dataInt8Array, fun _ => .dataString⟩ := by
  obtain ⟨f, hs⟩ : ∃ f, Lts.exec (step ⟨fun _ => "in", fun _ => "out"⟩) .empty
    [.registerInputPV 1, .registerOutputPV 7, .subscribe "in" "out"] = some f := ⟨_, rfl⟩
  refine ⟨f, hs, (typeSafe_iff_matching ?_ hs).mpr ?_⟩
  · simp [Linking, Growing]
  · exact ⟨trivial, fun _ _ => ⟨trivial, fun _ _ =>
      ⟨fun _ _ _ _ => .inr (.inl ⟨rfl, .inr rfl⟩), fun _ _ => trivial⟩⟩⟩

/-- A string PV subscribed to an `int32` PV: the first push ends the process. -/
theorem subscribe_mistyped :
    ∃ f, Lts.exec (step ⟨fun _ => "in", fun _ => "out"⟩) .empty
        [.registerInputPV 1, .registerOutputPV 7, .subscribe "in" "out"] = some f ∧
      ¬ f.TypeSafe ⟨fun _ => .dataInt32, fun _ => .dataString⟩ ∧
      (∃ s r, f.push (fun _ _ _ => none) ⟨1, 0⟩ (Value.int32 5) 1 1 = some (s, r) ∧
        .write 1 7 ⟨1, 0⟩ (.int32 5) ∈ s.log) ∧
      PVBaseOut.write .dataString (.int32 5) = .error .terminate := by
  refine ⟨_, rfl, fun h => ?_, ⟨_, _, rfl, by decide⟩, rfl⟩
  have hq := (h.reached 1 ⟨"in", rfl⟩ 1 .refl).2 7 (by decide)
  exact absurd hq (by decide)

end NdsFactory

end Nds3
