import Nds3.Registry.Factory
import Nds3.Lib.Lts

/-!
# The registry refines a relation

What the registry is for: a set of registered input PVs, a set of registered output PVs, and two
relations between them, the subscriptions and the replications (`Links`). A successful operation
changes them as its name says; an operation that throws changes nothing.

`Refines` ties the maps and the pointer sets to that. It is kept by every operation, on two
conditions: an input PV that was registered once is not registered again (the sets of a
deregistered PV are not purged, and come back with it), and a PV is not deregistered while another
one is registered under its name (the entry is erased by name).
-/

namespace Nds3

/-- The operations of the registry, in their forms by name and by pointer. -/
inductive Op where
  | registerInputPV (pSender : Nat)
  | registerOutputPV (pReceiver : Nat)
  | deregisterInputPV (pSender : Nat)
  | deregisterOutputPV (pReceiver : Nat)
  | subscribePV (pushFrom : String) (pReceiver : Nat)
  | subscribe (pushFrom pushTo : String)
  | unsubscribePV (pReceiver : Nat)
  | unsubscribe (pushTo : String)
  | replicatePV (replicateSource : String) (pDestination : Nat)
  | replicate (replicateSource replicateDestination : String)
  | stopReplicationToPV (pDestination : Nat)
  | stopReplicationTo (replicateDestination : String)
  deriving DecidableEq

def NdsFactory.exec (names : FullNames) (f : NdsFactory) : Op → NdsFactory × Except Exn Unit
  | .registerInputPV p => f.registerInputPV names p
  | .registerOutputPV q => f.registerOutputPV names q
  | .deregisterInputPV p => f.deregisterInputPV names p
  | .deregisterOutputPV q => f.deregisterOutputPV names q
  | .subscribePV src q => f.subscribePV names src q
  | .subscribe src dst => f.subscribe names src dst
  | .unsubscribePV q => f.unsubscribePV q
  | .unsubscribe dst => f.unsubscribe dst
  | .replicatePV src p => f.replicatePV names src p
  | .replicate src dst => f.replicate names src dst
  | .stopReplicationToPV p => f.stopReplicationToPV p
  | .stopReplicationTo dst => f.stopReplicationTo dst

/-! ## The abstract registry -/

/-- Who is registered, who has ever been, and the links. -/
structure Links where
  inputs : Set Nat
  outputs : Set Nat
  seen : Set Nat
  subscriptions : Set (Nat × Nat)
  replications : Set (Nat × Nat)

namespace Links

def empty : Links := ⟨∅, ∅, ∅, ∅, ∅⟩

variable (names : FullNames) (a : Links)

def input (n : String) : Set Nat := {p | p ∈ a.inputs ∧ names.input p = n}

def output (n : String) : Set Nat := {q | q ∈ a.outputs ∧ names.output q = n}

/-- What a successful operation does to the relation. -/
def apply : Op → Links
  | .registerInputPV p => { a with inputs := insert p a.inputs, seen := insert p a.seen }
  | .registerOutputPV q => { a with outputs := insert q a.outputs }
  | .deregisterInputPV p =>
    { a with
      inputs := a.inputs \ {p}
      subscriptions := {l ∈ a.subscriptions | l.1 ≠ p}
      replications := {l ∈ a.replications | l.1 ≠ p ∧ l.2 ≠ p} }
  | .deregisterOutputPV q =>
    { a with
      outputs := a.outputs \ {q}
      subscriptions := {l ∈ a.subscriptions | l.2 ≠ q} }
  | .subscribePV src q =>
    { a with subscriptions := a.subscriptions ∪ a.input names src ×ˢ {q} }
  | .subscribe src dst =>
    { a with subscriptions := a.subscriptions ∪ a.input names src ×ˢ a.output names dst }
  | .unsubscribePV q => { a with subscriptions := {l ∈ a.subscriptions | l.2 ≠ q} }
  | .unsubscribe dst => { a with subscriptions := {l ∈ a.subscriptions | l.2 ∉ a.output names dst} }
  | .replicatePV src p => { a with replications := a.replications ∪ a.input names src ×ˢ {p} }
  | .replicate src dst =>
    { a with replications := a.replications ∪ a.input names src ×ˢ a.input names dst }
  | .stopReplicationToPV p => { a with replications := {l ∈ a.replications | l.2 ≠ p} }
  | .stopReplicationTo dst =>
    { a with replications := {l ∈ a.replications | l.2 ∉ a.input names dst} }

end Links

/-- The registry with its abstract counterpart. -/
structure Tracked where
  factory : NdsFactory
  links : Links

namespace Tracked

variable (names : FullNames)

def empty : Tracked := ⟨.empty, .empty⟩

/-- An operation, and the change of the relation if it does not throw. -/
def step (s : Tracked) (op : Op) : Option Tracked :=
  match s.factory.exec names op with
  | (f, .ok ()) => some ⟨f, s.links.apply names op⟩
  | (f, .error _) => some ⟨f, s.links⟩

/-- No input PV is registered twice, and no PV is deregistered while another one is registered
under its name. -/
def Disciplined (s : Tracked) : Op → Prop
  | .registerInputPV p => p ∉ s.links.seen
  | .deregisterInputPV p => ∀ p' ∈ s.links.inputs, names.input p' = names.input p → p' = p
  | .deregisterOutputPV q => ∀ q' ∈ s.links.outputs, names.output q' = names.output q → q' = q
  | _ => True

end Tracked

/-- The maps hold exactly the registered PVs under their names, no name twice; the sets of a
registered input PV hold exactly its links, and links join registered PVs; an input PV that was
never registered has no link. -/
structure Refines (names : FullNames) (f : NdsFactory) (a : Links) : Prop where
  inputs : ∀ n p, f.registeredInputPVs.lookup n = some p ↔ p ∈ a.input names n
  outputs : ∀ n q, f.registeredOutputPVs.lookup n = some q ↔ q ∈ a.output names n
  apart : ∀ p ∈ a.inputs, ∀ q ∈ a.outputs, names.input p ≠ names.output q
  subscribers : ∀ p ∈ a.inputs, ∀ q,
    q ∈ (f.inputPVs p).subscriberOutputPVs ↔ (p, q) ∈ a.subscriptions
  destinations : ∀ p ∈ a.inputs, ∀ p',
    p' ∈ (f.inputPVs p).replicationDestinationPVs ↔ (p, p') ∈ a.replications
  subscriptions : ∀ l ∈ a.subscriptions, l.1 ∈ a.inputs ∧ l.2 ∈ a.outputs
  replications : ∀ l ∈ a.replications, l.1 ∈ a.inputs ∧ l.2 ∈ a.inputs
  seen : a.inputs ⊆ a.seen
  unlinked : ∀ p, p ∉ a.seen → (f.inputPVs p).subscriberOutputPVs = ∅ ∧
    (f.inputPVs p).replicationDestinationPVs = ∅

/-! ## An operation that throws -/

namespace NdsFactory

variable {names : FullNames} {f f' : NdsFactory} {e : Exn}

theorem subscribePV_error {src : String} {q : Nat}
    (h : f.subscribePV names src q = (f', .error e)) : f' = f := by
  unfold subscribePV at h
  split at h
  · exact (Prod.mk.inj h).1.symm
  split at h
  · exact (Prod.mk.inj h).1.symm
  split at h
  · exact (Prod.mk.inj h).1.symm
  · cases h

theorem replicatePV_error {src : String} {p : Nat}
    (h : f.replicatePV names src p = (f', .error e)) : f' = f := by
  unfold replicatePV at h
  split at h
  · exact (Prod.mk.inj h).1.symm
  split at h
  · exact (Prod.mk.inj h).1.symm
  split at h
  · exact (Prod.mk.inj h).1.symm
  · cases h

/-- **An operation that throws leaves the registry and the links unchanged.** -/
theorem exec_error {op : Op} (h : f.exec names op = (f', .error e)) : f' = f := by
  cases op with
  | registerInputPV p | registerOutputPV q =>
    simp only [exec, registerInputPV, registerOutputPV] at h
    split at h
    · exact (Prod.mk.inj h).1.symm
    split at h
    · exact (Prod.mk.inj h).1.symm
    · cases h
  | deregisterInputPV p | deregisterOutputPV q | unsubscribePV q | stopReplicationToPV p => cases h
  | subscribePV src q => exact subscribePV_error h
  | replicatePV src p => exact replicatePV_error h
  | subscribe src dst =>
    simp only [exec, subscribe] at h
    split at h
    · exact (Prod.mk.inj h).1.symm
    · exact subscribePV_error h
  | replicate src dst =>
    simp only [exec, replicate] at h
    split at h
    · exact (Prod.mk.inj h).1.symm
    · exact replicatePV_error h
  | unsubscribe dst | stopReplicationTo dst =>
    simp only [exec, unsubscribe, stopReplicationTo] at h
    split at h
    · exact (Prod.mk.inj h).1.symm
    · cases h

/-! ## An operation that succeeds -/

theorem registerInputPV_ok {p : Nat} (h : f.registerInputPV names p = (f', .ok ())) :
    names.input p ∉ f.registeredInputPVs ∧ names.input p ∉ f.registeredOutputPVs ∧
      f' = { f with registeredInputPVs := f.registeredInputPVs.insert (names.input p) p } := by
  simp only [registerInputPV] at h
  split at h
  · cases h
  split at h
  · cases h
  · next hi ho => exact ⟨hi, ho, (Prod.mk.inj h).1.symm⟩

theorem registerOutputPV_ok {q : Nat} (h : f.registerOutputPV names q = (f', .ok ())) :
    names.output q ∉ f.registeredOutputPVs ∧ names.output q ∉ f.registeredInputPVs ∧
      f' = { f with registeredOutputPVs := f.registeredOutputPVs.insert (names.output q) q } := by
  simp only [registerOutputPV] at h
  split at h
  · cases h
  split at h
  · cases h
  · next ho hi => exact ⟨ho, hi, (Prod.mk.inj h).1.symm⟩

theorem subscribePV_ok {src : String} {q : Nat} (h : f.subscribePV names src q = (f', .ok ())) :
    f.registeredOutputPVs.lookup (names.output q) = some q ∧
      ∃ p, f.registeredInputPVs.lookup src = some p ∧ f' = f.modify p (·.subscribeReceiver q) := by
  unfold subscribePV at h
  split at h
  · cases h
  split at h
  · cases h
  · next o ho hq =>
    rw [ne_eq, not_not] at hq
    split at h
    · cases h
    · next p hp => exact ⟨hq ▸ ho, p, hp, (Prod.mk.inj h).1.symm⟩

theorem replicatePV_ok {src : String} {d : Nat} (h : f.replicatePV names src d = (f', .ok ())) :
    f.registeredInputPVs.lookup (names.input d) = some d ∧
      ∃ p, f.registeredInputPVs.lookup src = some p ∧ f' = f.modify p (·.replicateTo d) := by
  unfold replicatePV at h
  split at h
  · cases h
  split at h
  · cases h
  · next o ho hd =>
    rw [ne_eq, not_not] at hd
    split at h
    · cases h
    · next p hp => exact ⟨hd ▸ ho, p, hp, (Prod.mk.inj h).1.symm⟩

/-- The pointer form an operation by name comes down to. -/
def resolve (f : NdsFactory) : Op → Option Op
  | .subscribe src dst => (f.registeredOutputPVs.lookup dst).map (.subscribePV src)
  | .unsubscribe dst => (f.registeredOutputPVs.lookup dst).map .unsubscribePV
  | .replicate src dst => (f.registeredInputPVs.lookup dst).map (.replicatePV src)
  | .stopReplicationTo dst => (f.registeredInputPVs.lookup dst).map .stopReplicationToPV
  | op => some op

/-- An operation by name looks its target up and does the same as the pointer form. -/
theorem exec_resolve {op : Op} (h : f.exec names op = (f', .ok ())) :
    ∃ op', f.resolve op = some op' ∧ f.exec names op' = (f', .ok ()) := by
  cases op with
  | subscribe src dst =>
    simp only [exec, subscribe] at h
    split at h
    · cases h
    · next q hq => exact ⟨.subscribePV src q, by rw [resolve, hq]; rfl, h⟩
  | unsubscribe dst =>
    simp only [exec, unsubscribe] at h
    split at h
    · cases h
    · next q hq => exact ⟨.unsubscribePV q, by rw [resolve, hq]; rfl, h⟩
  | replicate src dst =>
    simp only [exec, replicate] at h
    split at h
    · cases h
    · next p hp => exact ⟨.replicatePV src p, by rw [resolve, hp]; rfl, h⟩
  | stopReplicationTo dst =>
    simp only [exec, stopReplicationTo] at h
    split at h
    · cases h
    · next p hp => exact ⟨.stopReplicationToPV p, by rw [resolve, hp]; rfl, h⟩
  | _ => exact ⟨_, rfl, h⟩

end NdsFactory

theorem lookup_erase_eq_some {r : AList fun _ : String => Nat} {m n : String} {p : Nat} :
    (r.erase m).lookup n = some p ↔ n ≠ m ∧ r.lookup n = some p := by
  by_cases hn : n = m
  · subst hn
    simp
  · rw [AList.lookup_erase_ne hn]
    simp [hn]

namespace Refines

variable {names : FullNames} {f f' : NdsFactory} {a : Links}

theorem empty : Refines names .empty .empty where
  inputs n p := by simp [NdsFactory.empty, Links.input, Links.empty]
  outputs n q := by simp [NdsFactory.empty, Links.output, Links.empty]
  apart p hp := absurd hp (Set.notMem_empty p)
  subscribers p hp := absurd hp (Set.notMem_empty p)
  destinations p hp := absurd hp (Set.notMem_empty p)
  subscriptions l hl := absurd hl (Set.notMem_empty l)
  replications l hl := absurd hl (Set.notMem_empty l)
  seen := Set.Subset.rfl
  unlinked _ _ := ⟨rfl, rfl⟩

theorem input_eq (h : Refines names f a) {n : String} {p : Nat}
    (hp : f.registeredInputPVs.lookup n = some p) : a.input names n = {p} := by
  ext p'
  rw [← h.inputs, hp, Option.some.injEq, Set.mem_singleton_iff, eq_comm]

theorem output_eq (h : Refines names f a) {n : String} {q : Nat}
    (hq : f.registeredOutputPVs.lookup n = some q) : a.output names n = {q} := by
  ext q'
  rw [← h.outputs, hq, Option.some.injEq, Set.mem_singleton_iff, eq_comm]

theorem apply_resolve (h : Refines names f a) {op op' : Op} (hr : f.resolve op = some op') :
    a.apply names op = a.apply names op' := by
  cases op with
  | subscribe src dst =>
    obtain ⟨q, hq, rfl⟩ := Option.map_eq_some_iff.mp hr
    simp only [Links.apply, h.output_eq hq]
  | unsubscribe dst =>
    obtain ⟨q, hq, rfl⟩ := Option.map_eq_some_iff.mp hr
    simp only [Links.apply, h.output_eq hq, Set.mem_singleton_iff, ne_eq]
  | replicate src dst =>
    obtain ⟨p, hp, rfl⟩ := Option.map_eq_some_iff.mp hr
    simp only [Links.apply, h.input_eq hp]
  | stopReplicationTo dst =>
    obtain ⟨p, hp, rfl⟩ := Option.map_eq_some_iff.mp hr
    simp only [Links.apply, h.input_eq hp, Set.mem_singleton_iff, ne_eq]
  | _ => cases hr; rfl

theorem mem_inputs (h : Refines names f a) {p : Nat} :
    p ∈ a.inputs ↔ f.registeredInputPVs.lookup (names.input p) = some p := by
  rw [h.inputs]
  exact ⟨fun hp => ⟨hp, rfl⟩, fun hp => hp.1⟩

theorem mem_outputs (h : Refines names f a) {q : Nat} :
    q ∈ a.outputs ↔ f.registeredOutputPVs.lookup (names.output q) = some q := by
  rw [h.outputs]
  exact ⟨fun hq => ⟨hq, rfl⟩, fun hq => hq.1⟩

/-! ### The pointer forms -/

theorem lookup_insert_iff {r : AList fun _ : String => Nat} {pvs : Set Nat} {name : Nat → String}
    (h : ∀ n x, r.lookup n = some x ↔ x ∈ pvs ∧ name x = n) {p : Nat} (hp : name p ∉ r)
    (n : String) (x : Nat) :
    (r.insert (name p) p).lookup n = some x ↔ x ∈ insert p pvs ∧ name x = n := by
  by_cases hn : n = name p
  · subst hn
    rw [AList.lookup_insert, Option.some.injEq]
    constructor
    · rintro rfl
      exact ⟨Set.mem_insert .., rfl⟩
    · rintro ⟨rfl | hx, hn⟩
      · rfl
      · have hx' := (h _ x).mpr ⟨hx, hn⟩
        rw [AList.lookup_eq_none.mpr hp] at hx'
        cases hx'
  · rw [AList.lookup_insert_ne hn, h]
    constructor
    · exact fun hx => ⟨.inr hx.1, hx.2⟩
    · rintro ⟨rfl | hx, rfl⟩
      · exact absurd rfl hn
      · exact ⟨hx, rfl⟩

theorem registerInputPV (h : Refines names f a) {p : Nat} (hseen : p ∉ a.seen)
    (hs : f.registerInputPV names p = (f', .ok ())) :
    Refines names f' (a.apply names (.registerInputPV p)) := by
  obtain ⟨hi, ho, rfl⟩ := NdsFactory.registerInputPV_ok hs
  have ho' := AList.lookup_eq_none.mpr ho
  have hold : ∀ {p'}, p' ∈ insert p a.inputs → p' = p ∨ (p' ≠ p ∧ p' ∈ a.inputs) := by
    rintro p' (rfl | hp')
    · exact .inl rfl
    · exact .inr ⟨fun hc => hseen (h.seen (hc ▸ hp')), hp'⟩
  obtain ⟨hsub, hdst⟩ := h.unlinked p hseen
  refine ⟨lookup_insert_iff h.inputs hi, h.outputs, ?_, ?_, ?_, ?_, ?_, ?_, ?_⟩
  · rintro p' hp' q hq hn
    rcases hold hp' with rfl | ⟨-, hp'⟩
    · have hq' := h.mem_outputs.mp hq
      rw [← hn, ho'] at hq'
      cases hq'
    · exact h.apart p' hp' q hq hn
  · intro p' hp' q
    rcases hold hp' with rfl | ⟨-, hp'⟩
    · rw [hsub]
      exact ⟨fun hq => absurd hq OrdSet.not_mem_empty,
        fun hl => absurd (h.seen (h.subscriptions _ hl).1) hseen⟩
    · exact h.subscribers p' hp' q
  · intro p' hp' d
    rcases hold hp' with rfl | ⟨-, hp'⟩
    · rw [hdst]
      exact ⟨fun hd => absurd hd OrdSet.not_mem_empty,
        fun hl => absurd (h.seen (h.replications _ hl).1) hseen⟩
    · exact h.destinations p' hp' d
  · exact fun l hl => ⟨.inr (h.subscriptions l hl).1, (h.subscriptions l hl).2⟩
  · exact fun l hl => ⟨.inr (h.replications l hl).1, .inr (h.replications l hl).2⟩
  · exact Set.insert_subset_insert h.seen
  · exact fun p' hp' => h.unlinked p' fun hc => hp' (.inr hc)

theorem registerOutputPV (h : Refines names f a) {q : Nat}
    (hs : f.registerOutputPV names q = (f', .ok ())) :
    Refines names f' (a.apply names (.registerOutputPV q)) := by
  obtain ⟨ho, hi, rfl⟩ := NdsFactory.registerOutputPV_ok hs
  have hi' := AList.lookup_eq_none.mpr hi
  refine ⟨h.inputs, lookup_insert_iff h.outputs ho, ?_, h.subscribers, h.destinations, ?_,
    h.replications, h.seen, h.unlinked⟩
  · rintro p hp q' (rfl | hq') hn
    · have hp' := h.mem_inputs.mp hp
      rw [hn, hi'] at hp'
      cases hp'
    · exact h.apart p hp q' hq' hn
  · exact fun l hl => ⟨(h.subscriptions l hl).1, .inr (h.subscriptions l hl).2⟩

theorem unlinked_scanInputs {r : AList fun _ : String => Nat} {g : PVBaseIn → PVBaseIn}
    (h : Refines names f a) (hr : ∀ n p, r.lookup n = some p → p ∈ a.inputs) {p : Nat}
    (hp : p ∉ a.seen) :
    ((NdsFactory.scanInputs { f with registeredInputPVs := r } g).inputPVs
        p).subscriberOutputPVs = ∅ ∧
      ((NdsFactory.scanInputs { f with registeredInputPVs := r } g).inputPVs
        p).replicationDestinationPVs = ∅ := by
  rw [NdsFactory.scanInputs_inputPVs_of_not fun n hn => hp (h.seen (hr n p hn))]
  exact h.unlinked p hp

theorem lookup_mem (h : Refines names f a) {n : String} {p : Nat}
    (hp : f.registeredInputPVs.lookup n = some p) : p ∈ a.inputs := ((h.inputs n p).mp hp).1

theorem unsubscribePV (h : Refines names f a) (q : Nat) :
    Refines names (f.unsubscribePV q).1 (a.apply names (.unsubscribePV q)) := by
  have hpv : ∀ p ∈ a.inputs, ((f.unsubscribePV q).1.inputPVs p) =
      (f.inputPVs p).unsubscribeReceiver q := fun p hp =>
    NdsFactory.scanInputs_inputPVs (PVBaseIn.unsubscribeReceiver_idem q) (h.mem_inputs.mp hp)
  refine ⟨fun n p => ?_, fun n q' => ?_, h.apart, fun p hp q' => ?_, fun p hp d => ?_, ?_,
    h.replications, h.seen, fun p hp => h.unlinked_scanInputs (fun _ _ => h.lookup_mem) hp⟩
  · rw [NdsFactory.unsubscribePV, NdsFactory.scanInputs_registeredInputPVs]
    exact h.inputs n p
  · rw [NdsFactory.unsubscribePV, NdsFactory.scanInputs_registeredOutputPVs]
    exact h.outputs n q'
  · rw [hpv p hp]
    exact OrdSet.mem_erase.trans (and_congr_left fun _ => h.subscribers p hp q')
  · rw [hpv p hp]
    exact h.destinations p hp d
  · exact fun l hl => h.subscriptions l hl.1

theorem stopReplicationToPV (h : Refines names f a) (d : Nat) :
    Refines names (f.stopReplicationToPV d).1 (a.apply names (.stopReplicationToPV d)) := by
  have hpv : ∀ p ∈ a.inputs, ((f.stopReplicationToPV d).1.inputPVs p) =
      (f.inputPVs p).stopReplicationTo d := fun p hp =>
    NdsFactory.scanInputs_inputPVs (PVBaseIn.stopReplicationTo_idem d) (h.mem_inputs.mp hp)
  refine ⟨fun n p => ?_, fun n q' => ?_, h.apart, fun p hp q' => ?_, fun p hp d' => ?_,
    h.subscriptions, ?_, h.seen, fun p hp => h.unlinked_scanInputs (fun _ _ => h.lookup_mem) hp⟩
  · rw [NdsFactory.stopReplicationToPV, NdsFactory.scanInputs_registeredInputPVs]
    exact h.inputs n p
  · rw [NdsFactory.stopReplicationToPV, NdsFactory.scanInputs_registeredOutputPVs]
    exact h.outputs n q'
  · rw [hpv p hp]
    exact h.subscribers p hp q'
  · rw [hpv p hp]
    exact OrdSet.mem_erase.trans (and_congr_left fun _ => h.destinations p hp d')
  · exact fun l hl => h.replications l hl.1

theorem deregisterOutputPV (h : Refines names f a) {q : Nat}
    (hd : ∀ q' ∈ a.outputs, names.output q' = names.output q → q' = q) :
    Refines names (f.deregisterOutputPV names q).1 (a.apply names (.deregisterOutputPV q)) := by
  have hq := h.unsubscribePV q
  have he : (f.deregisterOutputPV names q).1 = { (f.unsubscribePV q).1 with
      registeredOutputPVs := f.registeredOutputPVs.erase (names.output q) } :=
    NdsFactory.foldl_modify_outputs _
  rw [he]
  refine ⟨hq.inputs, fun n q' => ?_, fun p hp q' hq' => h.apart p hp q' hq'.1, hq.subscribers,
    hq.destinations, fun l hl => ?_, hq.replications, hq.seen, hq.unlinked⟩
  · show (f.registeredOutputPVs.erase (names.output q)).lookup n = some q' ↔ _
    rw [lookup_erase_eq_some, h.outputs]
    constructor
    · rintro ⟨hn, hq', rfl⟩
      exact ⟨⟨hq', fun hc => hn (hc ▸ rfl)⟩, rfl⟩
    · rintro ⟨⟨hq', hne⟩, rfl⟩
      exact ⟨fun hc => hne (hd q' hq' hc), hq', rfl⟩
  · exact ⟨(h.subscriptions l hl.1).1, (h.subscriptions l hl.1).2, hl.2⟩

theorem deregisterInputPV (h : Refines names f a) {d : Nat}
    (hd : ∀ p' ∈ a.inputs, names.input p' = names.input d → p' = d) :
    Refines names (f.deregisterInputPV names d).1 (a.apply names (.deregisterInputPV d)) := by
  have hlookup : ∀ n p, (f.registeredInputPVs.erase (names.input d)).lookup n = some p ↔
      (p ∈ a.inputs ∧ p ≠ d) ∧ names.input p = n := fun n p => by
    rw [lookup_erase_eq_some, h.inputs]
    constructor
    · rintro ⟨hn, hp, rfl⟩
      exact ⟨⟨hp, fun hc => hn (hc ▸ rfl)⟩, rfl⟩
    · rintro ⟨⟨hp, hne⟩, rfl⟩
      exact ⟨fun hc => hne (hd p hp hc), hp, rfl⟩
  have hpv : ∀ p ∈ a.inputs, p ≠ d → ((f.deregisterInputPV names d).1.inputPVs p) =
      (f.inputPVs p).stopReplicationTo d := fun p hp hne =>
    NdsFactory.scanInputs_inputPVs (PVBaseIn.stopReplicationTo_idem d)
      ((hlookup _ p).mpr ⟨⟨hp, hne⟩, rfl⟩)
  refine ⟨fun n p => ?_, fun n q => ?_, fun p hp => h.apart p hp.1, fun p hp q => ?_,
    fun p hp d' => ?_, fun l hl => ?_, fun l hl => ?_, fun p hp => h.seen hp.1,
    fun p hp => h.unlinked_scanInputs (fun n p hp => ((hlookup n p).mp hp).1.1) hp⟩
  · rw [NdsFactory.deregisterInputPV, NdsFactory.scanInputs_registeredInputPVs]
    exact hlookup n p
  · rw [NdsFactory.deregisterInputPV, NdsFactory.scanInputs_registeredOutputPVs]
    exact h.outputs n q
  · rw [hpv p hp.1 hp.2]
    exact (h.subscribers p hp.1 q).trans (and_iff_left hp.2).symm
  · rw [hpv p hp.1 hp.2]
    refine OrdSet.mem_erase.trans ?_
    rw [h.destinations p hp.1 d']
    exact and_congr_right fun _ => (and_iff_right hp.2).symm
  · exact ⟨⟨(h.subscriptions l hl.1).1, hl.2⟩, (h.subscriptions l hl.1).2⟩
  · exact ⟨⟨(h.replications l hl.1).1, hl.2.1⟩, (h.replications l hl.1).2, hl.2.2⟩

theorem subscribePV (h : Refines names f a) {src : String} {q : Nat}
    (hs : f.subscribePV names src q = (f', .ok ())) :
    Refines names f' (a.apply names (.subscribePV src q)) := by
  obtain ⟨ho, p, hp, rfl⟩ := NdsFactory.subscribePV_ok hs
  have hsrc := h.input_eq hp
  simp only [Links.apply, hsrc]
  refine ⟨h.inputs, h.outputs, h.apart, fun p' hp' q' => ?_, fun p' hp' d => ?_, fun l hl => ?_,
    h.replications, h.seen, fun p' hp' => ?_⟩
  · rw [NdsFactory.mem_subscriberOutputPVs_modify, h.subscribers p' hp' q']
    simp [or_comm]
  · rw [NdsFactory.replicationDestinationPVs_modify]
    exact h.destinations p' hp' d
  · rcases hl with hl | ⟨hl1, hl2⟩
    · exact h.subscriptions l hl
    · rw [Set.mem_singleton_iff] at hl1 hl2
      rw [hl1, hl2]
      exact ⟨h.lookup_mem hp, h.mem_outputs.mpr ho⟩
  · have hne : p' ≠ p := by
      rintro rfl
      exact hp' (h.seen (h.lookup_mem hp))
    rw [NdsFactory.modify_inputPVs_of_ne hne]
    exact h.unlinked p' hp'

theorem replicatePV (h : Refines names f a) {src : String} {d : Nat}
    (hs : f.replicatePV names src d = (f', .ok ())) :
    Refines names f' (a.apply names (.replicatePV src d)) := by
  obtain ⟨ho, p, hp, rfl⟩ := NdsFactory.replicatePV_ok hs
  have hsrc := h.input_eq hp
  simp only [Links.apply, hsrc]
  refine ⟨h.inputs, h.outputs, h.apart, fun p' hp' q => ?_, fun p' hp' d' => ?_, h.subscriptions,
    fun l hl => ?_, h.seen, fun p' hp' => ?_⟩
  · rw [NdsFactory.subscriberOutputPVs_modify]
    exact h.subscribers p' hp' q
  · rw [NdsFactory.mem_replicationDestinationPVs_modify, h.destinations p' hp' d']
    simp [or_comm]
  · rcases hl with hl | ⟨hl1, hl2⟩
    · exact h.replications l hl
    · rw [Set.mem_singleton_iff] at hl1 hl2
      rw [hl1, hl2]
      exact ⟨h.lookup_mem hp, h.mem_inputs.mpr ho⟩
  · have hne : p' ≠ p := by
      rintro rfl
      exact hp' (h.seen (h.lookup_mem hp))
    rw [NdsFactory.modify_inputPVs_of_ne hne]
    exact h.unlinked p' hp'

/-- A successful operation in its pointer form. -/
theorem exec (h : Refines names f a) {op : Op} (hd : Tracked.Disciplined names ⟨f, a⟩ op)
    (hp : f.resolve op = some op) (hx : f.exec names op = (f', .ok ())) :
    Refines names f' (a.apply names op) := by
  have hfst : (f.exec names op).1 = f' := congrArg Prod.fst hx
  cases op with
  | registerInputPV p => exact h.registerInputPV hd hx
  | registerOutputPV q => exact h.registerOutputPV hx
  | deregisterInputPV p => exact hfst ▸ h.deregisterInputPV hd
  | deregisterOutputPV q => exact hfst ▸ h.deregisterOutputPV hd
  | subscribePV src q => exact h.subscribePV hx
  | unsubscribePV q => exact hfst ▸ h.unsubscribePV q
  | replicatePV src p => exact h.replicatePV hx
  | stopReplicationToPV p => exact hfst ▸ h.stopReplicationToPV p
  | subscribe | unsubscribe | replicate | stopReplicationTo =>
    obtain ⟨_, _, hc⟩ := Option.map_eq_some_iff.mp hp
    cases hc

/-- **Step lemma.** -/
theorem step {s s' : Tracked} {op : Op} (h : Refines names s.factory s.links)
    (hd : s.Disciplined names op) (hs : s.step names op = some s') :
    Refines names s'.factory s'.links := by
  unfold Tracked.step at hs
  cases hx : s.factory.exec names op with
  | mk f r =>
    rw [hx] at hs
    cases r with
    | error e =>
      cases hs
      rw [NdsFactory.exec_error hx]
      exact h
    | ok u =>
      cases hs
      show Refines names f (s.links.apply names op)
      obtain ⟨op', hr, hx'⟩ := NdsFactory.exec_resolve hx
      rw [h.apply_resolve hr]
      -- an operation by name comes down to one that is not restricted
      cases op with
      | subscribe | unsubscribe | replicate | stopReplicationTo =>
        obtain ⟨_, -, rfl⟩ := Option.map_eq_some_iff.mp hr
        exact h.exec trivial rfl hx'
      | _ =>
        cases hr
        exact h.exec hd rfl hx'

end Refines

/-- **The registry refines the relation.** After every disciplined sequence of operations: a full
name belongs to one registered PV at most, and the maps hold the registered PVs under their names;
the sets of a registered input PV are exactly its links; a link target of a registered input PV is
registered under its own name and pointer; and an operation that throws changes nothing. -/
theorem registry_refines {names : FullNames} {s : Tracked}
    (h : Lts.Reach (Tracked.step names) (Tracked.Disciplined names) .empty s) :
    (∀ n p, s.factory.registeredInputPVs.lookup n = some p ↔
      p ∈ s.links.inputs ∧ names.input p = n) ∧
    (∀ n q, s.factory.registeredOutputPVs.lookup n = some q ↔
      q ∈ s.links.outputs ∧ names.output q = n) ∧
    (∀ n, n ∈ s.factory.registeredInputPVs → n ∉ s.factory.registeredOutputPVs) ∧
    (∀ p ∈ s.links.inputs,
      (∀ q, q ∈ (s.factory.inputPVs p).subscriberOutputPVs ↔ (p, q) ∈ s.links.subscriptions) ∧
      (∀ d, d ∈ (s.factory.inputPVs p).replicationDestinationPVs ↔ (p, d) ∈ s.links.replications) ∧
      (∀ q ∈ (s.factory.inputPVs p).subscriberOutputPVs,
        s.factory.registeredOutputPVs.lookup (names.output q) = some q) ∧
      (∀ d ∈ (s.factory.inputPVs p).replicationDestinationPVs,
        s.factory.registeredInputPVs.lookup (names.input d) = some d)) ∧
    (∀ op e f', s.factory.exec names op = (f', .error e) → f' = s.factory) := by
  have hr : Refines names s.factory s.links :=
    h.invariant (I := fun s => Refines names s.factory s.links) Refines.empty
      fun hi hok hs => Refines.step hi hok hs
  refine ⟨hr.inputs, hr.outputs, fun n hi ho => ?_, fun p hp => ⟨hr.subscribers p hp,
    hr.destinations p hp, fun q hq => ?_, fun d hd => ?_⟩, fun op e f' => NdsFactory.exec_error⟩
  · obtain ⟨p, hp⟩ := Option.isSome_iff_exists.mp (AList.lookup_isSome.mpr hi)
    obtain ⟨q, hq⟩ := Option.isSome_iff_exists.mp (AList.lookup_isSome.mpr ho)
    obtain ⟨hpi, hpn⟩ := (hr.inputs n p).mp hp
    obtain ⟨hqo, hqn⟩ := (hr.outputs n q).mp hq
    exact hr.apart p hpi q hqo (hpn.trans hqn.symm)
  · exact hr.mem_outputs.mp (hr.subscriptions _ ((hr.subscribers p hp q).mp hq)).2
  · exact hr.mem_inputs.mp (hr.replications _ ((hr.destinations p hp d).mp hd)).2

/-- An output PV subscribed by name to an input PV. -/
theorem registry_refines_subscribe :
    let names : FullNames := ⟨fun _ => "in", fun _ => "out"⟩
    ∃ s, Lts.exec (Tracked.step names) .empty
        [.registerInputPV 1, .registerOutputPV 2, .subscribe "in" "out"] = some s ∧
      2 ∈ (s.factory.inputPVs 1).subscriberOutputPVs ∧
      s.factory.registeredOutputPVs.lookup (names.output 2) = some 2 := by
  refine ⟨_, rfl, by decide, ?_⟩
  have hm : Lts.Meets (Tracked.step ⟨fun _ => "in", fun _ => "out"⟩)
      (Tracked.Disciplined ⟨fun _ => "in", fun _ => "out"⟩) .empty
      [.registerInputPV 1, .registerOutputPV 2, .subscribe "in" "out"] :=
    ⟨Set.notMem_empty 1, fun _ _ => ⟨trivial, fun _ _ => ⟨trivial, fun _ _ => trivial⟩⟩⟩
  have hr := registry_refines (Lts.Reach.refl.exec _ hm rfl)
  exact (hr.2.2.2.1 1 (.inl rfl)).2.2.1 2 (by decide)

/-- Without the second condition it does not: `1` is registered and deregistered, `2` takes its
name and becomes a replication destination of `3`; deregistering `1` once more erases the entry of
`2`, and `3` keeps a pointer to a PV that is not registered. -/
theorem registry_dangling :
    let names : FullNames := ⟨fun p => if p = 3 then "source" else "name", fun _ => "out"⟩
    ∃ s, Lts.exec (Tracked.step names) .empty
        [.registerInputPV 1, .registerInputPV 3, .deregisterInputPV 1, .registerInputPV 2,
          .replicatePV "source" 2, .deregisterInputPV 1] = some s ∧
      s.factory.registeredInputPVs.lookup "source" = some 3 ∧
      2 ∈ (s.factory.inputPVs 3).replicationDestinationPVs ∧
      2 ∈ s.links.inputs ∧
      s.factory.registeredInputPVs.lookup (names.input 2) = none := by
  refine ⟨_, rfl, by decide, by decide, ?_, by decide⟩
  exact ⟨.inl rfl, by decide⟩

end Nds3
