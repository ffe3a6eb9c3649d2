import Nds3.Tree.Failure
import Nds3.Tree.RoundTrip

/-!
# Several devices

Devices come and go in any order: a control system initializes the tree of a device and, when it
destroys the device, deinitializes it, and in between the PVs are linked by name and by pointer.
The registry then holds the PVs of the devices that are there and no others, each under a name of
its own, and a push on one of them stays among them (`Devices.runs_isolated`). Who comes or goes
leaves the links among the others as they are.

A device that is initialized has new PVs, whose addresses may be those of PVs that are gone. An
initialization that throws leaves PVs of a device that does not come to be in the registry; the runs
are those in which none does.
-/

namespace Nds3

open Relation Effect Element Dag

namespace NdsFactory

variable {f : NdsFactory} {x p q : Nat} {n : String} {pv pv' : PVPointer} {v : Visit}
  {vs vs' : List Visit}

/-! ## The links of the others -/

/-- Who enters has no links to anyone, and no one has links to it. -/
theorem linkedTo_enterAll : (vs.foldl enter f).LinkedTo x pv ↔ f.LinkedTo x pv := by
  induction vs generalizing f with
  | nil => rfl
  | cons v vs ih =>
    refine ih.trans ?_
    obtain ⟨i, m, p | q⟩ := v <;> cases pv <;> rfl

theorem LinkedTo.stopReplicationTo (h : f.LinkedTo x pv) (hne : pv ≠ .input p) :
    (f.scanInputs (·.stopReplicationTo p)).LinkedTo x pv := by
  cases pv with
  | output q =>
    rw [LinkedTo, (History.scan_stopReplication p x).1]
    exact h
  | input d =>
    have hd : d ≠ p := fun hc => hne (congrArg PVPointer.input hc)
    by_cases hx : f.Registered x
    · obtain ⟨n, hn⟩ := hx
      rw [LinkedTo, destinations, scanInputs_inputPVs (PVBaseIn.stopReplicationTo_idem p) hn]
      exact OrdSet.mem_erase.mpr ⟨h, hd⟩
    · rw [LinkedTo, destinations, scanInputs_inputPVs_of_not fun n hn => hx ⟨n, hn⟩]
      exact h

theorem LinkedTo.unsubscribeReceiver (h : f.LinkedTo x pv) (hne : pv ≠ .output q) :
    (f.scanInputs (·.unsubscribeReceiver q)).LinkedTo x pv := by
  cases pv with
  | input d =>
    rw [LinkedTo, (History.scan_unsubscribe q x).2]
    exact h
  | output q' =>
    have hq : q' ≠ q := fun hc => hne (congrArg PVPointer.output hc)
    by_cases hx : f.Registered x
    · obtain ⟨n, hn⟩ := hx
      rw [LinkedTo, subscribers, scanInputs_inputPVs (PVBaseIn.unsubscribeReceiver_idem q) hn]
      exact OrdSet.mem_erase.mpr ⟨h, hq⟩
    · rw [LinkedTo, subscribers, scanInputs_inputPVs_of_not fun n hn => hx ⟨n, hn⟩]
      exact h

theorem LinkedTo.leaveAll (h : f.LinkedTo x pv) (hne : ∀ v ∈ vs, pv ≠ v.pv) :
    (vs.foldl leave f).LinkedTo x pv := by
  induction vs generalizing f with
  | nil => exact h
  | cons v vs ih =>
    obtain ⟨hv, hvs⟩ := List.forall_mem_cons.mp hne
    refine ih ?_ hvs
    obtain ⟨i, m, p | q⟩ := v
    · exact LinkedTo.stopReplicationTo
        (f := { f with registeredInputPVs := f.registeredInputPVs.erase m }) h hv
    · exact LinkedTo.unsubscribeReceiver
        (f := { f with registeredOutputPVs := f.registeredOutputPVs.erase m }) h hv

/-- Every PV enters under a name that is unused when it does. -/
def Fresh : NdsFactory → List Visit → Prop
  | _, [] => True
  | f, v :: vs => f.Unused v.fullName ∧ (f.enter v).Fresh vs

theorem fresh_append : f.Fresh (vs ++ vs') ↔ f.Fresh vs ∧ (vs.foldl enter f).Fresh vs' := by
  induction vs generalizing f with
  | nil => simp [Fresh]
  | cons v vs ih => simp [Fresh, ih, and_assoc]

theorem Fresh.unused (h : f.Fresh vs) (hv : v ∈ vs) : f.Unused v.fullName := by
  induction vs generalizing f with
  | nil => cases hv
  | cons w vs ih =>
    obtain ⟨hw, hvs⟩ := h
    rcases List.mem_cons.mp hv with rfl | hv
    · exact hw
    · intro pv hpv
      by_cases hn : v.fullName = w.fullName
      · exact hw pv (hn ▸ hpv)
      · exact ih hvs hv pv (registeredAs_enter hpv hn)

theorem registeredAs_enter_self : (f.enter v).RegisteredAs v.fullName v.pv := by
  obtain ⟨i, m, p | q⟩ := v
  · exact AList.lookup_insert _
  · exact AList.lookup_insert _

theorem Fresh.registeredAs (h : f.Fresh vs) : (vs.foldl enter f).RegisteredAs n pv ↔
    f.RegisteredAs n pv ∨ (n, pv) ∈ vs.map Visit.declared := by
  induction vs generalizing f with
  | nil => simp
  | cons v vs ih =>
    have hfirst : (f.enter v).RegisteredAs n pv ↔ f.RegisteredAs n pv ∨ (n, pv) = v.declared := by
      constructor
      · refine fun hpv => (registeredAs_of_enter hpv).imp_right ?_
        rintro ⟨rfl, rfl⟩
        rfl
      · rintro (hpv | hpv)
        · exact registeredAs_enter hpv fun hn => h.1 pv (hn ▸ hpv)
        · obtain ⟨rfl, rfl⟩ := Prod.mk.inj hpv
          exact registeredAs_enter_self
    refine (ih h.2).trans ?_
    rw [hfirst, List.map_cons, List.mem_cons, or_assoc]

def DistinctNames (f : NdsFactory) : Prop :=
  ∀ n pv pv', f.RegisteredAs n pv → f.RegisteredAs n pv' → pv = pv'

theorem DistinctNames.enterAll (hf : f.DistinctNames) (h : f.Fresh vs) :
    (vs.foldl enter f).DistinctNames := by
  induction vs generalizing f with
  | nil => exact hf
  | cons v vs ih =>
    refine ih (fun n pv pv' hpv hpv' => ?_) h.2
    rcases registeredAs_of_enter hpv with hpv | ⟨rfl, rfl⟩
    · rcases registeredAs_of_enter hpv' with hpv' | ⟨rfl, rfl⟩
      · exact hf n pv pv' hpv hpv'
      · exact absurd hpv (h.1 pv)
    · rcases registeredAs_of_enter hpv' with hpv' | ⟨-, rfl⟩
      · exact absurd hpv' (h.1 pv')
      · rfl

/-- What an operation on the links can do. -/
theorem exec_links_cases {names : FullNames} {op : Op} (hop : op.Links) :
    (f.exec names op).1 = f ∨
    (∃ p q n, f.RegisteredAs n (.output q) ∧
      (f.exec names op).1 = f.modify p (·.subscribeReceiver q)) ∨
    (∃ p d n, f.RegisteredAs n (.input d) ∧
      (f.exec names op).1 = f.modify p (·.replicateTo d)) ∨
    (∃ q, (f.exec names op).1 = f.scanInputs (·.unsubscribeReceiver q)) ∨
    ∃ d, (f.exec names op).1 = f.scanInputs (·.stopReplicationTo d) := by
  cases hx : f.exec names op with
  | mk f' r =>
    cases r with
    | error e => exact .inl (exec_error hx)
    | ok u =>
      -- an operation by name comes down to its pointer form
      obtain ⟨op', hr, hx'⟩ := exec_resolve hx
      cases op with
      | registerInputPV | registerOutputPV | deregisterInputPV | deregisterOutputPV => cases hop
      | subscribePV src q =>
        obtain ⟨hq, p, -, hf⟩ := subscribePV_ok hx
        exact .inr (.inl ⟨p, q, _, hq, hf⟩)
      | subscribe src dst =>
        obtain ⟨q, -, rfl⟩ := Option.map_eq_some_iff.mp hr
        obtain ⟨hq, p, -, hf⟩ := subscribePV_ok hx'
        exact .inr (.inl ⟨p, q, _, hq, hf⟩)
      | replicatePV src d =>
        obtain ⟨hd, p, -, hf⟩ := replicatePV_ok hx
        exact .inr (.inr (.inl ⟨p, d, _, hd, hf⟩))
      | replicate src dst =>
        obtain ⟨d, -, rfl⟩ := Option.map_eq_some_iff.mp hr
        obtain ⟨hd, p, -, hf⟩ := replicatePV_ok hx'
        exact .inr (.inr (.inl ⟨p, d, _, hd, hf⟩))
      | unsubscribePV q => exact .inr (.inr (.inr (.inl ⟨q, (Prod.mk.inj hx).1.symm⟩)))
      | unsubscribe dst =>
        obtain ⟨q, -, rfl⟩ := Option.map_eq_some_iff.mp hr
        exact .inr (.inr (.inr (.inl ⟨q, (Prod.mk.inj hx').1.symm⟩)))
      | stopReplicationToPV d => exact .inr (.inr (.inr (.inr ⟨d, (Prod.mk.inj hx).1.symm⟩)))
      | stopReplicationTo dst =>
        obtain ⟨d, -, rfl⟩ := Option.map_eq_some_iff.mp hr
        exact .inr (.inr (.inr (.inr ⟨d, (Prod.mk.inj hx').1.symm⟩)))

theorem linkedTo_of_exec {names : FullNames} {op : Op} (hop : op.Links)
    (h : (f.exec names op).1.LinkedTo x pv) : f.LinkedTo x pv ∨ ∃ n, f.RegisteredAs n pv := by
  rcases @exec_links_cases f names op hop with
    hf | ⟨p, q, n, hq, hf⟩ | ⟨p, d, n, hd, hf⟩ | ⟨q, hf⟩ | ⟨d, hf⟩ <;> rw [hf] at h
  · exact .inl h
  · cases pv with
    | input d =>
      rw [LinkedTo, destinations, replicationDestinationPVs_modify] at h
      exact .inl h
    | output q' =>
      rcases mem_subscriberOutputPVs_modify.mp h with h | ⟨-, rfl⟩
      · exact .inl h
      · exact .inr ⟨n, hq⟩
  · cases pv with
    | input d' =>
      rcases mem_replicationDestinationPVs_modify.mp h with h | ⟨-, rfl⟩
      · exact .inl h
      · exact .inr ⟨n, hd⟩
    | output q =>
      rw [LinkedTo, subscribers, subscriberOutputPVs_modify] at h
      exact .inl h
  · cases pv with
    | input d =>
      rw [LinkedTo, (History.scan_unsubscribe q x).2] at h
      exact .inl h
    | output q' => exact .inl ((History.scan_unsubscribe q x).1 q' h).1
  · cases pv with
    | input d' => exact .inl ((History.scan_stopReplication d x).2 d' h).1
    | output q =>
      rw [LinkedTo, (History.scan_stopReplication d x).1] at h
      exact .inl h

end NdsFactory

/-! ## The two walks -/

section

variable {cs : ControlSystem}

mutual

theorem initializeElement_fresh {parents : List Link} {port : Option Nat} :
    (e : Element) → ∀ {e' w w'}, initializeElement cs parents port e w = .ok e' w' →
      w.factory.Fresh (e'.visits port)
  | .inputPV ptr name b t, e', w, w', h => by
    simp only [initializeElement, bind_eq_ok, pure_eq_ok] at h
    obtain ⟨b1, w1, hb, _, w2, hr, rfl, rfl⟩ := h
    obtain ⟨i, w3, rfl, hreg, -, rfl⟩ := pvInitialize_registers hb
    obtain ⟨hi, ho, -⟩ := NdsFactory.registerInputPV_ok (Init.registry_ok hr).1
    have hw : w3.factory = w.factory := hreg.factory
    exact ⟨NdsFactory.unused_iff.mpr ⟨hw ▸ hi, hw ▸ ho⟩, trivial⟩
  | .outputPV ptr name b t, e', w, w', h => by
    simp only [initializeElement, bind_eq_ok, pure_eq_ok] at h
    obtain ⟨b1, w1, hb, _, w2, hr, rfl, rfl⟩ := h
    obtain ⟨i, w3, rfl, hreg, -, rfl⟩ := pvInitialize_registers hb
    obtain ⟨ho, hi, -⟩ := NdsFactory.registerOutputPV_ok (Init.registry_ok hr).1
    have hw : w3.factory = w.factory := hreg.factory
    exact ⟨NdsFactory.unused_iff.mpr ⟨hw ▸ hi, hw ▸ ho⟩, trivial⟩
  | .node name b t k children, e', w, w', h => by
    simp only [initializeElement, bind_eq_ok, pure_eq_ok] at h
    obtain ⟨k1, w1, hk, b1, w2, hb, _, w3, hp, children1, w4, hc, _, w5, ht, rfl, rfl⟩ := h
    obtain rfl := setParents_ok hp
    have hw : w3.factory = w.factory := (baseInitialize_registers hb).factory.trans
      (createInterface_registers hk).1.factory
    exact hw ▸ initializeChildren_fresh children hc
  | .stateMachine b m children, e', w, w', h => by
    simp only [initializeElement, bind_eq_ok, pure_eq_ok] at h
    obtain ⟨b1, w2, hb, _, w3, hp, children1, w4, hc, m1, w5, hm, rfl, rfl⟩ := h
    obtain rfl := setParents_ok hp
    have hw : w3.factory = w.factory := (baseInitialize_registers hb).factory
    exact hw ▸ initializeChildren_fresh children hc

theorem initializeChildren_fresh {parents : List Link} {port : Option Nat} :
    (children : List Element) → ∀ {children' w w'},
      initializeChildren cs parents port children w = .ok children' w' →
      w.factory.Fresh (visitsAll port children')
  | [], children', w, w', h => by
    obtain ⟨rfl, rfl⟩ := pure_eq_ok.mp h
    trivial
  | c :: children, children', w, w', h => by
    simp only [initializeChildren, bind_eq_ok, pure_eq_ok] at h
    obtain ⟨c1, w1, hc, children1, w2, hcs, rfl, rfl⟩ := h
    refine NdsFactory.fresh_append.mpr ⟨initializeElement_fresh c hc, ?_⟩
    rw [← (initializeElement_walked c hc).registers.factory]
    exact initializeChildren_fresh children hcs

end

end

section

variable {d : Deregistration} {s s' : Undo}

theorem Undoing.call_ok {answer : Undo → Option Exn} {effect : Undo → Undo}
    (h : Undoing.call answer effect s = .ok () s') : s' = effect s := by
  unfold Undoing.call at h
  split at h
  · exact (EStateM.Result.ok.inj h).2.symm
  · cases h

theorem deinitializeBase_ok {b : Base} (h : deinitializeBase d b s = .ok () s') :
    s'.factory = s.factory := by
  have hloop : ∀ {commands : List Command} {s},
      commands.forM (fun _ => deregisterCommand d b.cachedFullName) s = .ok () s' →
        s'.factory = s.factory := by
    intro commands
    induction commands with
    | nil =>
      intro s h
      rw [(pure_eq_ok.mp h).2]
    | cons c commands ih =>
      intro s h
      obtain ⟨_, s1, h1, h2⟩ := bind_eq_ok.mp h
      rw [ih h2, Undoing.call_ok h1]
  exact hloop h

theorem deinitializePV_ok {port : Option Nat} {pv : PVPointer} {b : Base}
    (h : deinitializePV d port pv b s = .ok () s') : s'.factory = s.factory := by
  obtain ⟨_, s1, h1, h2⟩ := bind_eq_ok.mp h
  cases port with
  | none => cases h2
  | some i => rw [Undoing.call_ok h2, deinitializeBase_ok h1]

mutual

theorem deinitializeElement_leaves {port : Option Nat} : (e : Element) → e.Settled port →
    ∀ {s s'}, deinitializeElement d port e s = .ok () s' →
      s'.factory = (e.visits port).foldl .leave s.factory
  | .inputPV ptr name b t, he, s, s', h => by
    cases he with | inputPV => ?_
    obtain ⟨_, s1, h1, h2⟩ := bind_eq_ok.mp h
    obtain ⟨-, rfl⟩ := EStateM.Result.ok.inj h1
    exact deinitializePV_ok h2
  | .outputPV ptr name b t, he, s, s', h => by
    cases he with | outputPV => ?_
    obtain ⟨_, s1, h1, h2⟩ := bind_eq_ok.mp h
    obtain ⟨-, rfl⟩ := EStateM.Result.ok.inj h1
    exact deinitializePV_ok h2
  | .node name b t k children, he, s, s', h => by
    cases he with | node hk hcs => ?_
    rw [deinitializeElement, if_neg hk] at h
    obtain ⟨_, s1, h1, h2⟩ := bind_eq_ok.mp h
    rw [visits, ← deinitializeBase_ok h1]
    exact deinitializeChildren_leaves children hcs h2
  | .stateMachine b m children, he, s, s', h => by
    cases he with | stateMachine hcs => ?_
    obtain ⟨_, s1, h1, h2⟩ := bind_eq_ok.mp h
    rw [visits, ← deinitializeBase_ok h1]
    exact deinitializeChildren_leaves children hcs h2

theorem deinitializeChildren_leaves {port : Option Nat} : (children : List Element) →
    (∀ c ∈ children, c.Settled port) → ∀ {s s'},
      deinitializeChildren d port children s = .ok () s' →
        s'.factory = (visitsAll port children).foldl .leave s.factory
  | [], _, s, s', h => by rw [(pure_eq_ok.mp h).2]; rfl
  | c :: children, hcs, s, s', h => by
    obtain ⟨_, s1, h1, h2⟩ := bind_eq_ok.mp h
    obtain ⟨hc, hcs⟩ := List.forall_mem_cons.mp hcs
    rw [deinitializeChildren_leaves children hcs h2, deinitializeElement_leaves c hc h1, visitsAll,
      List.foldl_append]

end

end

/-! ## Devices that come and go -/

/-- The registry when a device has constructed these PVs. -/
def NdsFactory.construct (f : NdsFactory) (pvs : List PVPointer) : NdsFactory :=
  { f with inputPVs := fun p => if .input p ∈ pvs then .construct else f.inputPVs p }

namespace NdsFactory

variable {f : NdsFactory} {pvs : List PVPointer} {x : Nat} {n : String} {pv : PVPointer}

theorem registeredAs_construct : (f.construct pvs).RegisteredAs n pv ↔ f.RegisteredAs n pv := by
  cases pv <;> rfl

theorem linkedTo_construct :
    (f.construct pvs).LinkedTo x pv ↔ .input x ∉ pvs ∧ f.LinkedTo x pv := by
  by_cases hx : .input x ∈ pvs
  · have hnew : (f.construct pvs).inputPVs x = .construct := if_pos hx
    cases pv <;> simp [LinkedTo, destinations, subscribers, hnew, PVBaseIn.construct, hx]
  · have hold : (f.construct pvs).inputPVs x = f.inputPVs x := if_neg hx
    cases pv <;> simp [LinkedTo, destinations, subscribers, hold, hx]

end NdsFactory

/-- What is called from outside of the trees. The functions of the control systems, and the names
that PVs have, are those of the call. -/
inductive DeviceCall where
  /-- A device constructs the tree and calls `initializeRootNode`. -/
  | initializeRootNode (cs : ControlSystem) (pDevice : Nat) (root : Element)
  | link (names : FullNames) (op : Op)
  /-- `destroyDevice(void*)`. -/
  | destroyDevice (d : Deregistration) (pDevice : Nat)

namespace World

/-- The PVs of a device. -/
def visits (w : World) (pDevice : Nat) : List Visit :=
  (w.heldNodes pDevice).flatMap (·.visits none)

/-- The device has a PV with this full name. -/
def Owns (w : World) (pDevice : Nat) (n : String) (pv : PVPointer) : Prop :=
  (n, pv) ∈ (w.visits pDevice).map Visit.declared

end World

namespace Devices

/-- There is no step when a call throws. -/
def step (w : World) : DeviceCall → Option World
  | .initializeRootNode cs pDevice root =>
    let factory := w.factory.construct ((root.declared []).map Prod.snd)
    match initializeRootNode cs pDevice root { w with factory } with
    | .ok _ w' => some w'
    | .error _ _ => none
  | .link names op => some { w with factory := (w.factory.exec names op).1 }
  | .destroyDevice d pDevice =>
    match (w.heldNodes pDevice).forM (deinitializeRootNode d) ⟨w.factory, [], []⟩ with
    | .ok _ s => some { w with
        factory := s.factory
        heldNodes := Function.update w.heldNodes pDevice [] }
    | .error _ _ => none

/-- The PVs of a new device are none of those that are there, and it is by the walks only that PVs
are registered and deregistered. -/
def Allowed (w : World) : DeviceCall → Prop
  | .initializeRootNode _ _ root =>
    ∀ pv ∈ (root.declared []).map Prod.snd, ∀ p n, ¬ w.Owns p n pv
  | .link _ op => op.Links
  | .destroyDevice .. => True

/-- The registry holds the PVs of the devices that are there, no two of them have one name, links
from one of them lead to others, and a push on one of them stays among them. -/
structure Isolated (w : World) : Prop where
  registered : ∀ n pv, w.factory.RegisteredAs n pv ↔ ∃ p, w.Owns p n pv
  names : ∀ p q n pv pv', w.Owns p n pv → w.Owns q n pv' → p = q ∧ pv = pv'
  /-- This is so for a push, too, that does not come to an end. -/
  reached : ∀ x y, w.factory.Registered x → ReflTransGen (Edge (succ w.factory.destinations)) x y →
    (∃ p n, w.Owns p n (.input y)) ∧ ∀ q ∈ w.factory.subscribers y, ∃ p n, w.Owns p n (.output q)
  pushes : ∀ x, w.factory.Registered x → ∀ {V : Type} {log : List (PushEvent V)},
    w.factory.Pushes x log → ∀ ev ∈ log, (∀ y, ev.At y → ∃ p n, w.Owns p n (.input y)) ∧
      ∀ y q t v, ev = .write y q t v → ∃ p n, w.Owns p n (.output q)

structure Inv (w : World) : Prop where
  registered : ∀ n pv, w.factory.RegisteredAs n pv ↔ ∃ p, w.Owns p n pv
  owner : ∀ p q n pv pv', w.Owns p n pv → w.Owns q n pv' → p = q
  names : w.factory.DistinctNames
  settled : ∀ p, ∀ root ∈ w.heldNodes p, root.Settled none
  linked : ∀ x pv, w.factory.Registered x → w.factory.LinkedTo x pv →
    ∃ n, w.factory.RegisteredAs n pv

variable {w w' : World} {cs : ControlSystem} {d : Deregistration} {pDevice x : Nat}
  {root : Element} {pv : PVPointer} {n : String}

theorem Inv.reached (h : Inv w) {y : Nat} (hx : w.factory.Registered x)
    (hy : ReflTransGen (Edge (succ w.factory.destinations)) x y) : w.factory.Registered y := by
  induction hy with
  | refl => exact hx
  | tail _ hd ih => exact h.linked _ (.input _) ih hd

theorem Inv.owned (h : Inv w) (hpv : ∃ n, w.factory.RegisteredAs n pv) :
    ∃ p n, w.Owns p n pv := by
  obtain ⟨n, hn⟩ := hpv
  obtain ⟨p, hp⟩ := (h.registered n pv).mp hn
  exact ⟨p, n, hp⟩

theorem Inv.isolated (h : Inv w) : Isolated w where
  registered := h.registered
  names p q n pv pv' hp hq := ⟨h.owner p q n pv pv' hp hq,
    h.names n pv pv' ((h.registered n pv).mpr ⟨p, hp⟩) ((h.registered n pv').mpr ⟨q, hq⟩)⟩
  reached x y hx hy :=
    have hy := h.reached hx hy
    ⟨@Inv.owned w (.input y) h hy, fun q hq => h.owned (h.linked y (.output q) hy hq)⟩
  pushes := by
    rintro x hx V log ⟨write, t, v, fuel, s1, s2, r, hl, hlog, hpush, rfl⟩ ev hev
    obtain ⟨y, hy, hev⟩ := (push_events hl hpush ev hev).resolve_left (by rw [hlog]; simp)
    have hy := h.reached hx hy
    have hinput := @Inv.owned w (.input y) h hy
    rcases hev with rfl | rfl | ⟨q, hq, rfl⟩
    · refine ⟨fun z hz => ?_, nofun⟩
      obtain rfl := hz
      exact hinput
    · refine ⟨fun z hz => ?_, nofun⟩
      obtain rfl := hz
      exact hinput
    · refine ⟨nofun, ?_⟩
      rintro _ _ _ _ ⟨⟩
      exact h.owned (h.linked y (.output q) hy hq)

theorem Inv.empty : Inv .empty where
  registered n pv := by
    constructor
    · cases pv <;> intro hn <;> cases hn
    · rintro ⟨p, hp⟩
      cases hp
  owner p q n pv pv' hp := nomatch hp
  names n pv pv' hn := by cases pv <;> cases hn
  settled p root hr := nomatch hr
  linked x pv hx := by
    obtain ⟨n, hn⟩ := hx
    cases hn

/-! ### A device that comes -/

/-- What an initialization has made of the world. -/
structure Arrived (w w' : World) (pDevice : Nat) (root root' : Element) : Prop where
  factory : w'.factory =
    (root'.visits none).foldl .enter (w.factory.construct ((root.declared []).map Prod.snd))
  fresh : (w.factory.construct ((root.declared []).map Prod.snd)).Fresh (root'.visits none)
  declared : (root'.visits none).map Visit.declared = root.declared []
  heldNodes : w'.heldNodes =
    Function.update w.heldNodes pDevice (w.heldNodes pDevice ++ [root'])
  settled : root'.Settled none

theorem closed_heldNodes : Closed fun w w' => w'.heldNodes = w.heldNodes where
  refl _ := rfl
  trans _ _ _ h h' := h'.trans h
  registerCommand _ _ _ := rfl
  registerPV _ _ _ := rfl
  registerInputPV _ _ _ := rfl
  registerOutputPV _ _ _ := rfl
  getNewInterface _ := rfl

theorem initializeRootNode_heldNodes {root' : Element}
    (h : initializeRootNode cs pDevice root w = .ok root' w') :
    w'.heldNodes = Function.update w.heldNodes pDevice (w.heldNodes pDevice ++ [root']) := by
  unfold initializeRootNode at h
  cases hp : root.base.hasParent with
  | true => rw [hp] at h; cases h
  | false =>
    rw [hp] at h
    obtain ⟨e, w1, he, h⟩ := bind_eq_ok.mp h
    obtain ⟨rfl, rfl⟩ := EStateM.Result.ok.inj h
    have hheld := @Closed.initializeElement cs _ closed_heldNodes [] none root w
    rw [after_of_ok he] at hheld
    rw [hheld]

theorem step_initialize (h : step w (.initializeRootNode cs pDevice root) = some w') :
    ∃ root', Arrived w w' pDevice root root' := by
  simp only [step] at h
  split at h
  · next root' w1 hi =>
    obtain rfl := Option.some.inj h
    obtain ⟨hreg, hset, hdecl, -⟩ := initializeRootNode_walked hi
    obtain ⟨w2, he⟩ := initializeRootNode_ok hi
    have hheld := initializeRootNode_heldNodes hi
    exact ⟨root', hreg.factory, initializeElement_fresh root he, hdecl, hheld, hset⟩
  · cases h

section

variable {root' : Element}

theorem Arrived.owns (h : Arrived w w' pDevice root root') {q : Nat} : w'.Owns q n pv ↔
    w.Owns q n pv ∨ q = pDevice ∧ (n, pv) ∈ (root'.visits none).map Visit.declared := by
  rw [World.Owns, World.Owns, World.visits, World.visits, h.heldNodes]
  by_cases hq : q = pDevice
  · subst hq
    simp
  · simp [hq]

theorem Arrived.mem_declared (h : Arrived w w' pDevice root root')
    (hnew : (n, pv) ∈ (root'.visits none).map Visit.declared) :
    pv ∈ (root.declared []).map Prod.snd :=
  List.mem_map.mpr ⟨(n, pv), h.declared ▸ hnew, rfl⟩

theorem Arrived.registeredAs (h : Arrived w w' pDevice root root') :
    w'.factory.RegisteredAs n pv ↔
      w.factory.RegisteredAs n pv ∨ (n, pv) ∈ (root'.visits none).map Visit.declared := by
  rw [h.factory, h.fresh.registeredAs, NdsFactory.registeredAs_construct]

theorem Arrived.unused (h : Arrived w w' pDevice root root')
    (hnew : (n, pv) ∈ (root'.visits none).map Visit.declared) : w.factory.Unused n := by
  obtain ⟨v, hv, heq⟩ := List.mem_map.mp hnew
  obtain ⟨rfl, -⟩ := Prod.mk.inj heq
  exact fun pv' hpv' => h.fresh.unused hv pv' (NdsFactory.registeredAs_construct.mpr hpv')

theorem Arrived.linkedTo (h : Arrived w w' pDevice root root') : w'.factory.LinkedTo x pv ↔
    .input x ∉ (root.declared []).map Prod.snd ∧ w.factory.LinkedTo x pv := by
  rw [h.factory, NdsFactory.linkedTo_enterAll, NdsFactory.linkedTo_construct]

theorem Inv.arrived (h : Inv w) (ha : Arrived w w' pDevice root root') : Inv w' where
  registered n pv := by
    rw [ha.registeredAs, h.registered]
    constructor
    · rintro (⟨p, hp⟩ | hnew)
      · exact ⟨p, ha.owns.mpr (.inl hp)⟩
      · exact ⟨pDevice, ha.owns.mpr (.inr ⟨rfl, hnew⟩)⟩
    · rintro ⟨p, hp⟩
      rcases ha.owns.mp hp with hp | ⟨-, hnew⟩
      · exact .inl ⟨p, hp⟩
      · exact .inr hnew
  owner p q n pv pv' hp hq := by
    -- the name of a PV that is there is not unused
    have hold : ∀ {p pv pv'}, w.Owns p n pv →
        (n, pv') ∉ (root'.visits none).map Visit.declared := fun hp hnew =>
      ha.unused hnew _ ((h.registered n _).mpr ⟨_, hp⟩)
    rcases ha.owns.mp hp with hp | ⟨rfl, hnew⟩
    · rcases ha.owns.mp hq with hq | ⟨rfl, hnew⟩
      · exact h.owner p q n pv pv' hp hq
      · exact absurd hnew (hold hp)
    · rcases ha.owns.mp hq with hq | ⟨rfl, -⟩
      · exact absurd hnew (hold hq)
      · rfl
  names := by
    rw [ha.factory]
    refine NdsFactory.DistinctNames.enterAll (fun n pv pv' hpv hpv' => ?_) ha.fresh
    exact h.names n pv pv' (NdsFactory.registeredAs_construct.mp hpv)
      (NdsFactory.registeredAs_construct.mp hpv')
  settled p e he := by
    rw [ha.heldNodes] at he
    by_cases hp : p = pDevice
    · subst hp
      rw [Function.update_self, List.mem_append, List.mem_singleton] at he
      rcases he with he | rfl
      · exact h.settled p e he
      · exact ha.settled
    · rw [Function.update_of_ne hp] at he
      exact h.settled p e he
  linked x pv hx hl := by
    obtain ⟨hold, hl⟩ := ha.linkedTo.mp hl
    obtain ⟨m, hm⟩ := hx
    have hm : w'.factory.RegisteredAs m (.input x) := hm
    have hm := (ha.registeredAs.mp hm).resolve_right fun hnew => hold (ha.mem_declared hnew)
    obtain ⟨n, hn⟩ := h.linked x pv ⟨m, hm⟩ hl
    exact ⟨n, ha.registeredAs.mpr (.inl hn)⟩

end

/-! ### A device that goes -/

theorem deinitializeNodes_leave {roots : List Element} (hroots : ∀ e ∈ roots, e.Settled none) :
    ∀ {s s' : Undo}, roots.forM (deinitializeRootNode d) s = .ok () s' →
      s'.factory = (roots.flatMap (·.visits none)).foldl .leave s.factory := by
  induction roots with
  | nil =>
    intro s s' h
    rw [(pure_eq_ok.mp h).2]
    rfl
  | cons e roots ih =>
    intro s s' h
    obtain ⟨he, hes⟩ := List.forall_mem_cons.mp hroots
    obtain ⟨_, s1, h1, h2⟩ := bind_eq_ok.mp h
    have hfirst : deinitializeElement d none e s = .ok () s1 := by
      unfold deinitializeRootNode at h1
      cases hp : e.base.hasParent with
      | true => rw [hp] at h1; cases h1
      | false => rw [hp] at h1; exact h1
    rw [ih hes h2, deinitializeElement_leaves e he hfirst, List.flatMap_cons, List.foldl_append]

/-- What the end of a device has made of the world. -/
structure Left (w w' : World) (pDevice : Nat) : Prop where
  factory : w'.factory = (w.visits pDevice).foldl .leave w.factory
  heldNodes : w'.heldNodes = Function.update w.heldNodes pDevice []

theorem step_destroy (h : Inv w) (hs : step w (.destroyDevice d pDevice) = some w') :
    Left w w' pDevice := by
  simp only [step] at hs
  split at hs
  · next s hd =>
    obtain rfl := Option.some.inj hs
    exact ⟨deinitializeNodes_leave (h.settled pDevice) hd, rfl⟩
  · cases hs

theorem Left.owns (h : Left w w' pDevice) {q : Nat} :
    w'.Owns q n pv ↔ q ≠ pDevice ∧ w.Owns q n pv := by
  rw [World.Owns, World.Owns, World.visits, World.visits, h.heldNodes]
  by_cases hq : q = pDevice
  · subst hq
    simp
  · simp [hq]

theorem Left.registeredAs (h : Left w w' pDevice) (hi : Inv w) :
    w'.factory.RegisteredAs n pv ↔ w.factory.RegisteredAs n pv ∧ ¬ w.Owns pDevice n pv := by
  rw [h.factory]
  constructor
  · intro hpv
    obtain ⟨hpv, hne⟩ := NdsFactory.registeredAs_of_leaveAll hpv
    refine ⟨hpv, fun howns => ?_⟩
    obtain ⟨v, hv, heq⟩ := List.mem_map.mp howns
    obtain ⟨rfl, rfl⟩ := Prod.mk.inj heq
    exact hne v hv ⟨rfl, rfl⟩
  · rintro ⟨hpv, hnot⟩
    refine NdsFactory.registeredAs_leaveAll hpv fun v hv hn => hnot ?_
    have howns : w.Owns pDevice n v.pv := by
      rw [hn]
      exact List.mem_map_of_mem hv
    have hv' := (hi.registered n v.pv).mpr ⟨pDevice, howns⟩
    rwa [hi.names n pv v.pv hpv hv']

/-- Of the links of the PVs that stay, those to the PVs that go are taken away. -/
theorem Left.linkedTo (h : Left w w' pDevice) (hx : w'.factory.Registered x) :
    w'.factory.LinkedTo x pv ↔ w.factory.LinkedTo x pv ∧ ∀ n, ¬ w.Owns pDevice n pv := by
  rw [h.factory] at hx ⊢
  constructor
  · intro hl
    obtain ⟨hl, hne⟩ := NdsFactory.linkedTo_of_leaveAll hl
    refine ⟨hl, fun n howns => ?_⟩
    obtain ⟨v, hv, heq⟩ := List.mem_map.mp howns
    exact hne hx v hv (Prod.mk.inj heq).2.symm
  · rintro ⟨hl, hne⟩
    refine hl.leaveAll fun v hv hpv => hne v.fullName ?_
    rw [hpv]
    exact List.mem_map_of_mem hv

theorem Inv.left (h : Inv w) (hl : Left w w' pDevice) : Inv w' where
  registered n pv := by
    rw [hl.registeredAs h, h.registered]
    constructor
    · rintro ⟨⟨p, hp⟩, hnot⟩
      refine ⟨p, hl.owns.mpr ⟨?_, hp⟩⟩
      rintro rfl
      exact hnot hp
    · rintro ⟨p, hp⟩
      obtain ⟨hne, hp⟩ := hl.owns.mp hp
      exact ⟨⟨p, hp⟩, fun hd => hne (h.owner p pDevice n pv pv hp hd)⟩
  owner p q n pv pv' hp hq := h.owner p q n pv pv' (hl.owns.mp hp).2 (hl.owns.mp hq).2
  names n pv pv' hpv hpv' :=
    h.names n pv pv' ((hl.registeredAs h).mp hpv).1 ((hl.registeredAs h).mp hpv').1
  settled p e he := by
    rw [hl.heldNodes] at he
    by_cases hp : p = pDevice
    · subst hp
      rw [Function.update_self] at he
      cases he
    · rw [Function.update_of_ne hp] at he
      exact h.settled p e he
  linked x pv hx hlink := by
    obtain ⟨hlink, hne⟩ := (hl.linkedTo hx).mp hlink
    obtain ⟨m, hm⟩ := hx
    have hm : w'.factory.RegisteredAs m (.input x) := hm
    obtain ⟨n, hn⟩ := h.linked x pv ⟨m, ((hl.registeredAs h).mp hm).1⟩ hlink
    exact ⟨n, (hl.registeredAs h).mpr ⟨hn, hne n⟩⟩

/-! ### Any number of devices -/

theorem Inv.link (h : Inv w) (names : FullNames) {op : Op} (hop : op.Links) :
    Inv { w with factory := (w.factory.exec names op).1 } := by
  have hreg : ∀ {n pv}, (w.factory.exec names op).1.RegisteredAs n pv ↔
      w.factory.RegisteredAs n pv := by
    intro n pv
    obtain ⟨hi, ho⟩ := @NdsFactory.exec_links names w.factory op hop
    cases pv with
    | input p => rw [NdsFactory.RegisteredAs, hi, NdsFactory.RegisteredAs]
    | output q => rw [NdsFactory.RegisteredAs, ho, NdsFactory.RegisteredAs]
  refine ⟨fun n pv => hreg.trans (h.registered n pv), h.owner, fun n pv pv' hpv hpv' => ?_,
    h.settled, fun x pv hx hl => ?_⟩
  · exact h.names n pv pv' (hreg.mp hpv) (hreg.mp hpv')
  · obtain ⟨m, hm⟩ := hx
    have hm : (w.factory.exec names op).1.RegisteredAs m (.input x) := hm
    rcases NdsFactory.linkedTo_of_exec hop hl with hl | ⟨n, hn⟩
    · obtain ⟨n, hn⟩ := h.linked x pv ⟨m, hreg.mp hm⟩ hl
      exact ⟨n, hreg.mpr hn⟩
    · exact ⟨n, hreg.mpr hn⟩

theorem Inv.step {call : DeviceCall} (h : Inv w) (ha : Allowed w call)
    (hs : step w call = some w') : Inv w' := by
  cases call with
  | initializeRootNode cs pDevice root =>
    obtain ⟨root', harrived⟩ := step_initialize hs
    exact h.arrived harrived
  | link names op =>
    obtain rfl := Option.some.inj hs
    exact h.link names ha
  | destroyDevice d pDevice => exact h.left (step_destroy h hs)

/-- **Devices do not get at each other's PVs.** In every run the registry holds the PVs of the
devices that are there, and a push on one of them stays among them. The links of the PVs that are
there stay as they are when a device comes, and those of the PVs that stay lose their targets in
the device that goes, and no other. -/
theorem runs_isolated (h : Lts.Reach step Allowed .empty w) : Isolated w ∧
    (∀ cs pDevice root w', Allowed w (.initializeRootNode cs pDevice root) →
      step w (.initializeRootNode cs pDevice root) = some w' → ∀ x pv, w.factory.Registered x →
        (w'.factory.LinkedTo x pv ↔ w.factory.LinkedTo x pv)) ∧
    (∀ d pDevice w', step w (.destroyDevice d pDevice) = some w' → ∀ x pv, w'.factory.Registered x →
      (w'.factory.LinkedTo x pv ↔
        w.factory.LinkedTo x pv ∧ ∀ n, ¬ w.Owns pDevice n pv)) := by
  have hi : Inv w := h.invariant .empty fun hi ha hs => hi.step ha hs
  refine ⟨hi.isolated, ?_, ?_⟩
  · intro cs pDevice root w' ha hs x pv hx
    obtain ⟨root', harrived⟩ := step_initialize hs
    obtain ⟨n, hn⟩ := hx
    obtain ⟨p, hp⟩ := (hi.registered n (.input x)).mp hn
    rw [harrived.linkedTo]
    exact and_iff_right fun hnew => ha _ hnew p n hp
  · intro d pDevice w' hs x pv hx
    exact (step_destroy hi hs).linkedTo hx

/-- A port with an output PV. -/
def outputOnly : Element :=
  .node "other" (.construct "other" []) .generic (.portImpl none)
    [.outputPV 3 "out" (.construct "out" outputCommands) .generic]

/-- Two devices, and an input PV of the first that is linked to an output PV of each. -/
def twoDevices : List DeviceCall :=
  [.initializeRootNode testControlSystem 1 inputAndOutput,
    .initializeRootNode testControlSystem 2 outputOnly,
    .link (.ofPV "root-out") (.subscribe "root-in" "root-out"),
    .link (.ofPV "other-out") (.subscribe "root-in" "other-out")]

/-- When the second device goes, one of the links is left. -/
theorem runs_isolated_two : ∃ w w', Lts.exec step .empty twoDevices = some w ∧
    step w (.destroyDevice testDeregistration 2) = some w' ∧
    w.factory.LinkedTo 1 (.output 2) ∧ w.factory.LinkedTo 1 (.output 3) ∧
    w'.factory.LinkedTo 1 (.output 2) ∧ ¬ w'.factory.LinkedTo 1 (.output 3) := by
  have hrun : (Lts.exec step .empty twoDevices).any (fun w =>
      decide (2 ∈ w.factory.subscribers 1 ∧ 3 ∈ w.factory.subscribers 1 ∧
        (w.visits 2).map Visit.declared = [("other-out", .output 3)]) &&
      (step w (.destroyDevice testDeregistration 2)).any fun w' =>
        decide (w'.factory.registeredInputPVs.lookup "root-in" = some 1)) = true := by
    decide +kernel
  obtain ⟨w, hw, hcheck⟩ := (Option.any_eq_true ..).mp hrun
  obtain ⟨hlinks, hcheck⟩ := Bool.and_eq_true_iff.mp hcheck
  obtain ⟨w', hw', hx⟩ := (Option.any_eq_true ..).mp hcheck
  obtain ⟨hsub2, hsub3, hvisits⟩ := of_decide_eq_true hlinks
  have hmeets : Lts.Meets step Allowed .empty twoDevices := by
    refine ⟨fun _ _ p n hp => (nomatch hp), fun w1 h1 => ⟨?_, fun _ _ => ⟨trivial, fun _ _ =>
      ⟨trivial, fun _ _ => trivial⟩⟩⟩⟩
    -- the second device has none of the pointers of the first
    intro pv hpv p n hp
    obtain ⟨root', ha⟩ := step_initialize h1
    rcases ha.owns.mp hp with hp | ⟨-, hnew⟩
    · cases hp
    · have hdisjoint : ∀ pv ∈ (outputOnly.declared []).map Prod.snd,
          pv ∉ (inputAndOutput.declared []).map Prod.snd := by decide
      exact hdisjoint pv hpv (ha.mem_declared hnew)
  obtain ⟨-, -, hleft⟩ := runs_isolated (Lts.Reach.refl.exec twoDevices hmeets hw)
  have hkept := fun pv => hleft testDeregistration 2 w' hw' 1 pv ⟨_, of_decide_eq_true hx⟩
  have howns : ∀ n pv, w.Owns 2 n pv ↔ (n, pv) = ("other-out", .output 3) := by
    intro n pv
    rw [World.Owns, hvisits, List.mem_singleton]
  refine ⟨w, w', hw, hw', hsub2, hsub3, (hkept _).mpr ⟨hsub2, fun n hn => ?_⟩, fun hl => ?_⟩
  · cases (howns n _).mp hn
  · exact ((hkept _).mp hl).2 "other-out" ((howns _ _).mpr rfl)

end Devices

end Nds3
