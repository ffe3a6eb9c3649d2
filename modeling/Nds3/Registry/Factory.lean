import Nds3.Definitions
import Nds3.Lib.OrdSet
import Mathlib.Data.List.AList
import Mathlib.Logic.Function.Basic

/-!
# The PV registry

`NdsFactoryImpl`: the maps from full names to registered PVs, and the operations that link the PVs
they find there. The links themselves are in the input PVs: the set of subscribed output PVs and
the set of replication destinations, both sets of raw pointers.

A pointer is the address of a PV. A PV keeps its full name (`m_cachedFullName`, built by
`initialize` before the registration) from then on, so the names are a parameter.
-/

namespace Nds3

/-- `getFullName` of the input and of the output PVs. -/
structure FullNames where
  input : Nat → String
  output : Nat → String

/-- The members of `PVBaseInImpl` besides its type. -/
structure PVBaseIn where
  subscriberOutputPVs : OrdSet Nat
  replicationDestinationPVs : OrdSet Nat
  decimationFactor : UInt32
  decimationCount : UInt32
  deriving DecidableEq

namespace PVBaseIn

/-- The constructor. -/
def construct : PVBaseIn := ⟨∅, ∅, 1, 1⟩

def subscribeReceiver (pv : PVBaseIn) (pReceiver : Nat) : PVBaseIn :=
  { pv with subscriberOutputPVs := pv.subscriberOutputPVs.insert pReceiver }

def unsubscribeReceiver (pv : PVBaseIn) (pReceiver : Nat) : PVBaseIn :=
  { pv with subscriberOutputPVs := pv.subscriberOutputPVs.erase pReceiver }

def replicateTo (pv : PVBaseIn) (pDestination : Nat) : PVBaseIn :=
  { pv with replicationDestinationPVs := pv.replicationDestinationPVs.insert pDestination }

def stopReplicationTo (pv : PVBaseIn) (pDestination : Nat) : PVBaseIn :=
  { pv with replicationDestinationPVs := pv.replicationDestinationPVs.erase pDestination }

def setDecimation (pv : PVBaseIn) (decimation : UInt32) : PVBaseIn :=
  { pv with decimationFactor := decimation, decimationCount := decimation }

@[simp] theorem unsubscribeReceiver_idem (q : Nat) (pv : PVBaseIn) :
    (pv.unsubscribeReceiver q).unsubscribeReceiver q = pv.unsubscribeReceiver q := by
  simp [unsubscribeReceiver]

@[simp] theorem stopReplicationTo_idem (d : Nat) (pv : PVBaseIn) :
    (pv.stopReplicationTo d).stopReplicationTo d = pv.stopReplicationTo d := by
  simp [stopReplicationTo]

end PVBaseIn

/-- The registry, and the input PVs by their addresses. -/
structure NdsFactory where
  registeredInputPVs : AList fun _ : String => Nat
  registeredOutputPVs : AList fun _ : String => Nat
  inputPVs : Nat → PVBaseIn

namespace NdsFactory

/-- Nothing is registered, and no input PV has any link. -/
def empty : NdsFactory := ⟨∅, ∅, fun _ => .construct⟩

/-- Change the input PV at an address. -/
def modify (f : NdsFactory) (p : Nat) (g : PVBaseIn → PVBaseIn) : NdsFactory :=
  { f with inputPVs := Function.update f.inputPVs p (g (f.inputPVs p)) }

/-- The loop over `m_registeredInputPVs` that four operations have. -/
def scanInputs (f : NdsFactory) (g : PVBaseIn → PVBaseIn) : NdsFactory :=
  (f.registeredInputPVs.entries.map Sigma.snd).foldl (·.modify · g) f

section

variable (names : FullNames) (f : NdsFactory)

def registerInputPV (pSender : Nat) : NdsFactory × Except Exn Unit :=
  let fullName := names.input pSender
  if fullName ∈ f.registeredInputPVs then
    (f, .error ⟨.PVAlreadyDeclared,
      "The input PV with name " ++ fullName ++ " has already been registered"⟩)
  else if fullName ∈ f.registeredOutputPVs then
    (f, .error ⟨.PVAlreadyDeclared, "The input PV with name " ++ fullName ++
      " has already been registered as an output PV"⟩)
  else
    ({ f with registeredInputPVs := f.registeredInputPVs.insert fullName pSender }, .ok ())

def registerOutputPV (pReceiver : Nat) : NdsFactory × Except Exn Unit :=
  let fullName := names.output pReceiver
  if fullName ∈ f.registeredOutputPVs then
    (f, .error ⟨.PVAlreadyDeclared,
      "The output PV with name " ++ fullName ++ " has already been registered"⟩)
  else if fullName ∈ f.registeredInputPVs then
    (f, .error ⟨.PVAlreadyDeclared, "The output PV with name " ++ fullName ++
      " has already been registered as an input PV"⟩)
  else
    ({ f with registeredOutputPVs := f.registeredOutputPVs.insert fullName pReceiver }, .ok ())

/-- The entry under the name of the PV is erased, whichever PV it is for. -/
def deregisterInputPV (pSender : Nat) : NdsFactory × Except Exn Unit :=
  (scanInputs { f with
      registeredInputPVs := f.registeredInputPVs.erase (names.input pSender) }
    (·.stopReplicationTo pSender), .ok ())

def deregisterOutputPV (pReceiver : Nat) : NdsFactory × Except Exn Unit :=
  (scanInputs { f with
      registeredOutputPVs := f.registeredOutputPVs.erase (names.output pReceiver) }
    (·.unsubscribeReceiver pReceiver), .ok ())

/-- `subscribe(const std::string&, PVBaseOutImpl*)`. -/
def subscribePV (pushFrom : String) (pReceiver : Nat) : NdsFactory × Except Exn Unit :=
  match f.registeredOutputPVs.lookup (names.output pReceiver) with
  | none => (f, .error ⟨.logicError,
      "The output PV " ++ names.output pReceiver ++ " was never registered"⟩)
  | some findOutput =>
    if findOutput ≠ pReceiver then
      (f, .error ⟨.logicError,
        "A different output PV " ++ names.output pReceiver ++ " was registered"⟩)
    else
      match f.registeredInputPVs.lookup pushFrom with
      | none => (f, .error ⟨.MissingInputPV, "Cannot subscribe " ++ names.output pReceiver ++ " to "
          ++ pushFrom ++ " because the input PV cannot be located"⟩)
      | some findInput => (f.modify findInput (·.subscribeReceiver pReceiver), .ok ())

/-- `subscribe(const std::string&, const std::string&)`. -/
def subscribe (pushFrom pushTo : String) : NdsFactory × Except Exn Unit :=
  match f.registeredOutputPVs.lookup pushTo with
  | none => (f, .error ⟨.MissingOutputPV, "Cannot subscribe " ++ pushTo ++ " to " ++ pushFrom ++
      " because the output PV cannot be located"⟩)
  | some findOutput => subscribePV names f pushFrom findOutput

/-- `unsubscribe(PVBaseOutImpl*)`. -/
def unsubscribePV (pReceiver : Nat) : NdsFactory × Except Exn Unit :=
  (f.scanInputs (·.unsubscribeReceiver pReceiver), .ok ())

/-- `unsubscribe(const std::string&)`. -/
def unsubscribe (pushTo : String) : NdsFactory × Except Exn Unit :=
  match f.registeredOutputPVs.lookup pushTo with
  | none => (f, .error ⟨.MissingOutputPV, "Cannot unsubscribe " ++ pushTo ++
      " because the output PV cannot be located"⟩)
  | some findOutput => f.unsubscribePV findOutput

/-- `replicate(const std::string&, PVBaseInImpl*)`. -/
def replicatePV (replicateSource : String) (pDestination : Nat) : NdsFactory × Except Exn Unit :=
  match f.registeredInputPVs.lookup (names.input pDestination) with
  | none => (f, .error ⟨.logicError,
      "The input PV " ++ names.input pDestination ++ " was never registered"⟩)
  | some findDestination =>
    if findDestination ≠ pDestination then
      (f, .error ⟨.logicError,
        "A different input PV " ++ names.input pDestination ++ " was registered"⟩)
    else
      match f.registeredInputPVs.lookup replicateSource with
      | none => (f, .error ⟨.MissingInputPV, "Cannot replicate " ++ replicateSource ++ " to " ++
          names.input pDestination ++ " because the source PV cannot be located"⟩)
      | some findInput => (f.modify findInput (·.replicateTo pDestination), .ok ())

/-- `replicate(const std::string&, const std::string&)`. -/
def replicate (replicateSource replicateDestination : String) : NdsFactory × Except Exn Unit :=
  match f.registeredInputPVs.lookup replicateDestination with
  | none => (f, .error ⟨.MissingDestinationPV, "Cannot replicate " ++ replicateSource ++ " to " ++
      replicateDestination ++ " because the destination PV cannot be located"⟩)
  | some findDestination => replicatePV names f replicateSource findDestination

/-- `stopReplicationTo(PVBaseInImpl*)`. -/
def stopReplicationToPV (pDestination : Nat) : NdsFactory × Except Exn Unit :=
  (f.scanInputs (·.stopReplicationTo pDestination), .ok ())

/-- `stopReplicationTo(const std::string&)`. -/
def stopReplicationTo (replicateDestination : String) : NdsFactory × Except Exn Unit :=
  match f.registeredInputPVs.lookup replicateDestination with
  | none => (f, .error ⟨.MissingInputPV, "Cannot stop the replication of " ++
      replicateDestination ++ " because the input PV cannot be located"⟩)
  | some findDestination => f.stopReplicationToPV findDestination

end

/-! ## Small lemmas -/

section

variable {f : NdsFactory} {g : PVBaseIn → PVBaseIn}

@[simp] theorem modify_inputPVs_self (p : Nat) : (f.modify p g).inputPVs p = g (f.inputPVs p) :=
  Function.update_self ..

theorem modify_inputPVs_of_ne {p q : Nat} (h : q ≠ p) :
    (f.modify p g).inputPVs q = f.inputPVs q := Function.update_of_ne h ..

theorem modify_inputPVs_congr {β : Type*} (φ : PVBaseIn → β) (hg : ∀ pv, φ (g pv) = φ pv)
    (p q : Nat) : φ ((f.modify p g).inputPVs q) = φ (f.inputPVs q) := by
  by_cases h : q = p
  · rw [h, modify_inputPVs_self, hg]
  · rw [modify_inputPVs_of_ne h]

theorem replicationDestinationPVs_modify (p q x : Nat) :
    ((f.modify p (·.subscribeReceiver q)).inputPVs x).replicationDestinationPVs =
      (f.inputPVs x).replicationDestinationPVs :=
  modify_inputPVs_congr (g := (·.subscribeReceiver q)) (·.replicationDestinationPVs)
    (fun _ => rfl) p x

theorem subscriberOutputPVs_modify (p d x : Nat) :
    ((f.modify p (·.replicateTo d)).inputPVs x).subscriberOutputPVs =
      (f.inputPVs x).subscriberOutputPVs :=
  modify_inputPVs_congr (g := (·.replicateTo d)) (·.subscriberOutputPVs) (fun _ => rfl) p x

theorem mem_subscriberOutputPVs_modify {p q x q' : Nat} :
    q' ∈ ((f.modify p (·.subscribeReceiver q)).inputPVs x).subscriberOutputPVs ↔
      q' ∈ (f.inputPVs x).subscriberOutputPVs ∨ x = p ∧ q' = q := by
  by_cases h : x = p
  · subst h
    rw [modify_inputPVs_self]
    refine OrdSet.mem_insert.trans ?_
    simp [or_comm]
  · rw [modify_inputPVs_of_ne h]
    simp [h]

theorem mem_replicationDestinationPVs_modify {p d x d' : Nat} :
    d' ∈ ((f.modify p (·.replicateTo d)).inputPVs x).replicationDestinationPVs ↔
      d' ∈ (f.inputPVs x).replicationDestinationPVs ∨ x = p ∧ d' = d := by
  by_cases h : x = p
  · subst h
    rw [modify_inputPVs_self]
    refine OrdSet.mem_insert.trans ?_
    simp [or_comm]
  · rw [modify_inputPVs_of_ne h]
    simp [h]

theorem foldl_modify (ps : List Nat) :
    (ps.foldl (·.modify · g) f).registeredInputPVs = f.registeredInputPVs ∧
    (ps.foldl (·.modify · g) f).registeredOutputPVs = f.registeredOutputPVs ∧
    ∀ p, p ∉ ps → (ps.foldl (·.modify · g) f).inputPVs p = f.inputPVs p := by
  induction ps generalizing f with
  | nil => exact ⟨rfl, rfl, fun _ _ => rfl⟩
  | cons q ps ih =>
    obtain ⟨hi, ho, hp⟩ := ih (f := f.modify q g)
    refine ⟨hi, ho, fun p hm => ?_⟩
    simp only [List.mem_cons, not_or] at hm
    exact (hp p hm.2).trans (modify_inputPVs_of_ne hm.1)

theorem foldl_modify_outputs {r : AList fun _ : String => Nat} (ps : List Nat) :
    ps.foldl (·.modify · g) { f with registeredOutputPVs := r } =
      { ps.foldl (·.modify · g) f with registeredOutputPVs := r } := by
  induction ps generalizing f with
  | nil => rfl
  | cons q ps ih => exact ih (f := f.modify q g)

/-- The loop applies `g`, once or more often, to the PVs of the list. -/
theorem foldl_modify_of_mem (hg : ∀ pv, g (g pv) = g pv) {ps : List Nat} {p : Nat} (hp : p ∈ ps) :
    (ps.foldl (·.modify · g) f).inputPVs p = g (f.inputPVs p) := by
  induction ps generalizing f with
  | nil => cases hp
  | cons q ps ih =>
    by_cases hps : p ∈ ps
    · refine (ih (f := f.modify q g) hps).trans ?_
      by_cases hpq : p = q
      · rw [hpq, modify_inputPVs_self, hg]
      · rw [modify_inputPVs_of_ne hpq]
    · obtain rfl : p = q := (List.mem_cons.mp hp).resolve_right hps
      exact ((foldl_modify (f := f.modify p g) ps).2.2 p hps).trans (modify_inputPVs_self p)

@[simp] theorem scanInputs_registeredInputPVs :
    (f.scanInputs g).registeredInputPVs = f.registeredInputPVs := (foldl_modify _).1

@[simp] theorem scanInputs_registeredOutputPVs :
    (f.scanInputs g).registeredOutputPVs = f.registeredOutputPVs := (foldl_modify _).2.1

theorem scanInputs_inputPVs (hg : ∀ pv, g (g pv) = g pv) {n : String} {p : Nat}
    (hp : f.registeredInputPVs.lookup n = some p) :
    (f.scanInputs g).inputPVs p = g (f.inputPVs p) := by
  refine foldl_modify_of_mem hg (List.mem_map.mpr ⟨⟨n, p⟩, ?_, rfl⟩)
  exact AList.mem_lookup_iff.mp hp

theorem scanInputs_inputPVs_of_not {p : Nat} (hp : ∀ n, f.registeredInputPVs.lookup n ≠ some p) :
    (f.scanInputs g).inputPVs p = f.inputPVs p := by
  refine (foldl_modify _).2.2 p fun hm => ?_
  obtain ⟨⟨n, q⟩, hq, rfl⟩ := List.mem_map.mp hm
  exact hp n (AList.mem_lookup_iff.mpr hq)

end

end NdsFactory

end Nds3
