import Nds3.Registry.Shape
import Nds3.Registry.Refinement

/-!
# Deregistered PVs

Links are kept on the source side only. A deregistration goes through the sources that are
registered and takes the PV out of their sets; the sets of the PV itself stay as they are. So a PV
that is deregistered with links of its own goes on writing and pushing to their targets, also
after these have been deregistered, since the scan does not come to it any more. Where no PV
leaves the registry with links of its own, a deregistered PV is disconnected.
-/

namespace Nds3

open Relation Dag

/-- The registry, and the PVs that have been deregistered and not registered again. -/
structure History where
  factory : NdsFactory
  goneInputs : Set Nat
  goneOutputs : Set Nat

namespace NdsFactory

variable (f : NdsFactory)

def RegisteredOutput (q : Nat) : Prop := ∃ n, f.registeredOutputPVs.lookup n = some q

/-- A push on the input PV `p` can have this log, whatever the decimation counts are and whatever
the output PVs do. -/
def Pushes {V : Type} (p : Nat) (log : List (PushEvent V)) : Prop :=
  ∃ write t v fuel s s' r, Linked f.subscribers f.destinations s ∧ s.log = [] ∧
    Nds3.push write t v fuel [] p s = some (s', r) ∧ s'.log = log

end NdsFactory

namespace History

variable (names : FullNames)

def empty : History := ⟨.empty, ∅, ∅⟩

/-- What an operation that does not throw adds to the history. -/
def record (s : History) : Op → History
  | .registerInputPV p => { s with goneInputs := s.goneInputs \ {p} }
  | .registerOutputPV q => { s with goneOutputs := s.goneOutputs \ {q} }
  | .deregisterInputPV p => { s with goneInputs := insert p s.goneInputs }
  | .deregisterOutputPV q => { s with goneOutputs := insert q s.goneOutputs }
  | _ => s

def step (s : History) (op : Op) : Option History :=
  match s.factory.exec names op with
  | (f, .ok ()) => some { s.record op with factory := f }
  | (f, .error _) => some { s with factory := f }

/-- The input PV registered under the name of one that is deregistered has no subscribers, and is
replicated to nothing but itself. -/
def Bare (s : History) : Op → Prop
  | .deregisterInputPV p => ∀ x, s.factory.registeredInputPVs.lookup (names.input p) = some x →
      (∀ q, q ∉ s.factory.subscribers x) ∧ ∀ d ∈ s.factory.destinations x, d = x
  | _ => True

/-- The deregistered PVs are disconnected. -/
structure Disconnected (s : History) : Prop where
  /-- No push on a registered input PV reaches a deregistered one. -/
  unreached : ∀ p ∈ s.goneInputs, ∀ x, s.factory.Registered x → ∀ {V : Type}
    {log : List (PushEvent V)}, s.factory.Pushes x log → ∀ ev ∈ log, ¬ ev.At p
  /-- A push on a deregistered input PV writes no output PV and pushes no other input PV. -/
  silent : ∀ p ∈ s.goneInputs, ∀ {V : Type} {log : List (PushEvent V)},
    s.factory.Pushes p log → ∀ ev ∈ log, ev.At p
  /-- No push writes a deregistered output PV. -/
  unwritten : ∀ q ∈ s.goneOutputs, ∀ p, ∀ {V : Type} {log : List (PushEvent V)},
    s.factory.Pushes p log → ∀ x t v, .write x q t v ∉ log

/-- The entries are under the names of their PVs, only registered input PVs have links to others,
and no link leads to a deregistered PV. -/
structure Inv (s : History) : Prop where
  inputNames : ∀ n p, s.factory.registeredInputPVs.lookup n = some p → names.input p = n
  outputNames : ∀ n q, s.factory.registeredOutputPVs.lookup n = some q → names.output q = n
  unlinked : ∀ x, ¬ s.factory.Registered x →
    (∀ q, q ∉ s.factory.subscribers x) ∧ ∀ d ∈ s.factory.destinations x, d = x
  inputs : ∀ p ∈ s.goneInputs, ¬ s.factory.Registered p
  outputs : ∀ q ∈ s.goneOutputs, ¬ s.factory.RegisteredOutput q
  destinations : ∀ p ∈ s.goneInputs, ∀ x, p ∈ s.factory.destinations x → p = x
  subscribers : ∀ q ∈ s.goneOutputs, ∀ x, q ∉ s.factory.subscribers x

variable {names} {s s' : History}

/-! ## The invariant is what it takes -/

theorem Inv.disconnected (h : Inv names s) : s.Disconnected := by
  -- only the PV itself is reached from a deregistered one, and it is reached from no other
  have from_gone : ∀ {p x}, p ∈ s.goneInputs →
      ReflTransGen (Edge (succ s.factory.destinations)) p x → x = p := by
    intro p x hp hx
    induction hx with
    | refl => rfl
    | tail _ hd ih =>
      subst ih
      exact (h.unlinked _ (h.inputs _ hp)).2 _ hd
  have to_gone : ∀ {p x}, p ∈ s.goneInputs →
      ReflTransGen (Edge (succ s.factory.destinations)) x p → x = p := by
    intro p x hp hx
    induction hx using ReflTransGen.head_induction_on with
    | refl => rfl
    | head hd _ ih =>
      subst ih
      exact (h.destinations _ hp _ hd).symm
  refine ⟨?_, ?_, ?_⟩
  · rintro p hp x hx V log ⟨write, t, v, fuel, s1, s2, r, hl, hlog, hpush, rfl⟩ ev hev hat
    obtain ⟨y, hy, hev⟩ := (push_events hl hpush ev hev).resolve_left (by rw [hlog]; simp)
    rcases hev with rfl | rfl | ⟨q, -, rfl⟩
    · subst hat
      exact h.inputs _ hp (to_gone hp hy ▸ hx)
    · subst hat
      exact h.inputs _ hp (to_gone hp hy ▸ hx)
    · exact hat
  · rintro p hp V log ⟨write, t, v, fuel, s1, s2, r, hl, hlog, hpush, rfl⟩ ev hev
    obtain ⟨y, hy, hev⟩ := (push_events hl hpush ev hev).resolve_left (by rw [hlog]; simp)
    obtain rfl := from_gone hp hy
    rcases hev with rfl | rfl | ⟨q, hq, rfl⟩
    · rfl
    · rfl
    · exact absurd hq ((h.unlinked y (h.inputs y hp)).1 q)
  · rintro q hq p V log ⟨write, t, v, fuel, s1, s2, r, hl, hlog, hpush, rfl⟩ x t' v' hev
    obtain ⟨y, hy, hev⟩ := (push_events hl hpush _ hev).resolve_left (by rw [hlog]; simp)
    rcases hev with hev | hev | ⟨q', hq', hev⟩
    · cases hev
    · cases hev
    · cases hev
      exact h.subscribers q hq x hq'

/-! ## The invariant is kept -/

theorem Inv.empty : Inv names .empty where
  inputNames n p hp := by simp [History.empty, NdsFactory.empty] at hp
  outputNames n q hq := by simp [History.empty, NdsFactory.empty] at hq
  unlinked x _ := ⟨fun _ => OrdSet.not_mem_empty, fun _ hd => absurd hd OrdSet.not_mem_empty⟩
  inputs p hp := absurd hp (Set.notMem_empty p)
  outputs q hq := absurd hq (Set.notMem_empty q)
  destinations p hp := absurd hp (Set.notMem_empty p)
  subscribers q hq := absurd hq (Set.notMem_empty q)

theorem lookup_of_insert {r : AList fun _ : String => Nat} {m n : String} {p x : Nat}
    (h : (r.insert m p).lookup n = some x) : (n = m ∧ x = p) ∨ r.lookup n = some x := by
  by_cases hn : n = m
  · subst hn
    rw [AList.lookup_insert, Option.some.injEq] at h
    exact .inl ⟨rfl, h.symm⟩
  · rw [AList.lookup_insert_ne hn] at h
    exact .inr h

/-- Taking links away, with the registrations as they are, keeps the invariant. -/
theorem Inv.shrink (h : Inv names s) {f : NdsFactory}
    (hi : f.registeredInputPVs = s.factory.registeredInputPVs)
    (ho : f.registeredOutputPVs = s.factory.registeredOutputPVs)
    (hsub : ∀ x, ∀ q ∈ f.subscribers x, q ∈ s.factory.subscribers x)
    (hdst : ∀ x, ∀ d ∈ f.destinations x, d ∈ s.factory.destinations x) :
    Inv names { s with factory := f } where
  inputNames := by rw [hi]; exact h.inputNames
  outputNames := by rw [ho]; exact h.outputNames
  unlinked x hx := by
    rw [NdsFactory.Registered, hi] at hx
    exact ⟨fun q hq => (h.unlinked x hx).1 q (hsub x q hq),
      fun d hd => (h.unlinked x hx).2 d (hdst x d hd)⟩
  inputs p hp := by rw [NdsFactory.Registered, hi]; exact h.inputs p hp
  outputs q hq := by rw [NdsFactory.RegisteredOutput, ho]; exact h.outputs q hq
  destinations p hp x hx := h.destinations p hp x (hdst x p hx)
  subscribers q hq x hx := h.subscribers q hq x (hsub x q hx)

theorem Inv.registerInputPV (h : Inv names s) {p : Nat} {f : NdsFactory}
    (hx : s.factory.registerInputPV names p = (f, .ok ())) :
    Inv names { s with factory := f, goneInputs := s.goneInputs \ {p} } := by
  obtain ⟨hi, -, rfl⟩ := NdsFactory.registerInputPV_ok hx
  have hkept : ∀ {x}, s.factory.Registered x → ∃ n,
      (s.factory.registeredInputPVs.insert (names.input p) p).lookup n = some x := by
    rintro x ⟨n, hn⟩
    refine ⟨n, ?_⟩
    rw [AList.lookup_insert_ne fun hc => hi (AList.lookup_isSome.mp (by rw [← hc, hn]; rfl))]
    exact hn
  refine ⟨fun n x hn => ?_, h.outputNames, fun x hx => h.unlinked x fun hc => hx (hkept hc),
    fun x hx hr => ?_, h.outputs, fun x hx => h.destinations x hx.1, h.subscribers⟩
  · rcases lookup_of_insert hn with ⟨rfl, rfl⟩ | hn
    · rfl
    · exact h.inputNames n x hn
  · obtain ⟨n, hn⟩ := hr
    rcases lookup_of_insert hn with ⟨-, rfl⟩ | hn
    · exact hx.2 rfl
    · exact h.inputs x hx.1 ⟨n, hn⟩

theorem Inv.registerOutputPV (h : Inv names s) {q : Nat} {f : NdsFactory}
    (hx : s.factory.registerOutputPV names q = (f, .ok ())) :
    Inv names { s with factory := f, goneOutputs := s.goneOutputs \ {q} } := by
  obtain ⟨-, -, rfl⟩ := NdsFactory.registerOutputPV_ok hx
  refine ⟨h.inputNames, fun n x hn => ?_, h.unlinked, h.inputs, fun x hx hr => ?_, h.destinations,
    fun x hx => h.subscribers x hx.1⟩
  · rcases lookup_of_insert hn with ⟨rfl, rfl⟩ | hn
    · rfl
    · exact h.outputNames n x hn
  · obtain ⟨n, hn⟩ := hr
    rcases lookup_of_insert hn with ⟨-, rfl⟩ | hn
    · exact hx.2 rfl
    · exact h.outputs x hx.1 ⟨n, hn⟩

section

variable {f : NdsFactory} {x : Nat}

theorem scan_unsubscribe (q : Nat) (x : Nat) :
    (∀ q' ∈ (f.scanInputs (·.unsubscribeReceiver q)).subscribers x,
      q' ∈ f.subscribers x ∧ (f.Registered x → q' ≠ q)) ∧
    (f.scanInputs (·.unsubscribeReceiver q)).destinations x = f.destinations x := by
  by_cases hx : f.Registered x
  · obtain ⟨n, hn⟩ := id hx
    rw [NdsFactory.subscribers, NdsFactory.destinations,
      NdsFactory.scanInputs_inputPVs (PVBaseIn.unsubscribeReceiver_idem q) hn]
    refine ⟨fun q' hq' => ?_, rfl⟩
    obtain ⟨hold, hne⟩ := OrdSet.mem_erase.mp hq'
    exact ⟨hold, fun _ => hne⟩
  · rw [NdsFactory.subscribers, NdsFactory.destinations,
      NdsFactory.scanInputs_inputPVs_of_not fun n hn => hx ⟨n, hn⟩]
    exact ⟨fun _ hq' => ⟨hq', fun h => absurd h hx⟩, rfl⟩

theorem scan_stopReplication (d : Nat) (x : Nat) :
    (f.scanInputs (·.stopReplicationTo d)).subscribers x = f.subscribers x ∧
    ∀ d' ∈ (f.scanInputs (·.stopReplicationTo d)).destinations x,
      d' ∈ f.destinations x ∧ (f.Registered x → d' ≠ d) := by
  by_cases hx : f.Registered x
  · obtain ⟨n, hn⟩ := id hx
    rw [NdsFactory.subscribers, NdsFactory.destinations,
      NdsFactory.scanInputs_inputPVs (PVBaseIn.stopReplicationTo_idem d) hn]
    refine ⟨rfl, fun d' hd' => ?_⟩
    obtain ⟨hold, hne⟩ := OrdSet.mem_erase.mp hd'
    exact ⟨hold, fun _ => hne⟩
  · rw [NdsFactory.subscribers, NdsFactory.destinations,
      NdsFactory.scanInputs_inputPVs_of_not fun n hn => hx ⟨n, hn⟩]
    exact ⟨rfl, fun _ hd' => ⟨hd', fun h => absurd h hx⟩⟩

end

theorem Inv.unsubscribePV (h : Inv names s) (q : Nat) :
    Inv names { s with factory := (s.factory.unsubscribePV q).1 } :=
  h.shrink NdsFactory.scanInputs_registeredInputPVs NdsFactory.scanInputs_registeredOutputPVs
    (fun x q' hq' => ((scan_unsubscribe q x).1 q' hq').1)
    fun x d hd => by
      rw [NdsFactory.unsubscribePV, (scan_unsubscribe q x).2] at hd
      exact hd

theorem Inv.stopReplicationToPV (h : Inv names s) (d : Nat) :
    Inv names { s with factory := (s.factory.stopReplicationToPV d).1 } :=
  h.shrink NdsFactory.scanInputs_registeredInputPVs NdsFactory.scanInputs_registeredOutputPVs
    (fun x q hq => by
      rw [NdsFactory.stopReplicationToPV, (scan_stopReplication d x).1] at hq
      exact hq)
    fun x d' hd' => ((scan_stopReplication d x).2 d' hd').1

theorem Inv.deregisterOutputPV (h : Inv names s) (q : Nat) :
    Inv names { s with
      factory := (s.factory.deregisterOutputPV names q).1
      goneOutputs := insert q s.goneOutputs } := by
  have hs := h.unsubscribePV q
  have he : (s.factory.deregisterOutputPV names q).1 = { (s.factory.unsubscribePV q).1 with
      registeredOutputPVs := s.factory.registeredOutputPVs.erase (names.output q) } :=
    NdsFactory.foldl_modify_outputs _
  rw [he]
  refine ⟨hs.inputNames, fun n q' hq' => ?_, hs.unlinked, hs.inputs, fun q' hq' hr => ?_,
    hs.destinations, fun q' hq' x hx => ?_⟩
  · exact h.outputNames n q' (lookup_erase_eq_some.mp hq').2
  · obtain ⟨n, hn⟩ := hr
    obtain ⟨hne, hold⟩ := lookup_erase_eq_some.mp hn
    rcases hq' with rfl | hq'
    · exact hne (h.outputNames n q' hold).symm
    · exact h.outputs q' hq' ⟨n, hold⟩
  · rcases hq' with rfl | hq'
    · -- the loop has seen the registered PVs, and the others have no subscribers
      obtain ⟨hold, hne⟩ := (scan_unsubscribe q' x).1 q' hx
      by_cases hr : s.factory.Registered x
      · exact hne hr rfl
      · exact (h.unlinked x hr).1 q' hold
    · exact hs.subscribers q' hq' x hx

theorem Inv.deregisterInputPV (h : Inv names s) {p : Nat}
    (hb : s.Bare names (.deregisterInputPV p)) :
    Inv names { s with
      factory := (s.factory.deregisterInputPV names p).1
      goneInputs := insert p s.goneInputs } := by
  let f : NdsFactory := { s.factory with
    registeredInputPVs := s.factory.registeredInputPVs.erase (names.input p) }
  have hreg : ∀ {x}, f.Registered x → s.factory.Registered x ∧ names.input x ≠ names.input p := by
    rintro x ⟨n, hn⟩
    obtain ⟨hne, hn⟩ := lookup_erase_eq_some.mp hn
    exact ⟨⟨n, hn⟩, (h.inputNames n x hn).symm ▸ hne⟩
  have hunlinked : ∀ x, ¬ f.Registered x →
      (∀ q, q ∉ s.factory.subscribers x) ∧ ∀ d ∈ s.factory.destinations x, d = x := by
    intro x hx
    by_cases hr : s.factory.Registered x
    · obtain ⟨n, hn⟩ := hr
      refine hb x ?_
      by_cases hne : n = names.input p
      · exact hne ▸ hn
      · exact absurd ⟨n, lookup_erase_eq_some.mpr ⟨hne, hn⟩⟩ hx
    · exact h.unlinked x hr
  have hf : (s.factory.deregisterInputPV names p).1 = f.scanInputs (·.stopReplicationTo p) := rfl
  have hinputs : ∀ {x}, (f.scanInputs (·.stopReplicationTo p)).Registered x ↔ f.Registered x := by
    intro x
    rw [NdsFactory.Registered, NdsFactory.scanInputs_registeredInputPVs, NdsFactory.Registered]
  rw [hf]
  refine ⟨fun n x hn => ?_, fun n q hq => ?_, fun x hx => ?_, fun x hx hr => ?_, fun q hq hr => ?_,
    fun x hx y hy => ?_, fun q hq x hx => ?_⟩
  · rw [NdsFactory.scanInputs_registeredInputPVs] at hn
    exact h.inputNames n x (lookup_erase_eq_some.mp hn).2
  · rw [NdsFactory.scanInputs_registeredOutputPVs] at hq
    exact h.outputNames n q hq
  · obtain ⟨hsub, hdst⟩ := hunlinked x fun hr => hx (hinputs.mpr hr)
    refine ⟨fun q hq => hsub q ?_, fun d hd => hdst d ((scan_stopReplication p x).2 d hd).1⟩
    rw [(scan_stopReplication p x).1] at hq
    exact hq
  · obtain ⟨hr, hne⟩ := hreg (hinputs.mp hr)
    rcases hx with rfl | hx
    · exact hne rfl
    · exact h.inputs x hx hr
  · rw [NdsFactory.RegisteredOutput, NdsFactory.scanInputs_registeredOutputPVs] at hr
    exact h.outputs q hq hr
  · obtain ⟨hold, hne⟩ := (scan_stopReplication p y).2 x hy
    rcases hx with rfl | hx
    · by_cases hr : f.Registered y
      · exact absurd rfl (hne hr)
      · exact (hunlinked y hr).2 x hold
    · exact h.destinations x hx y hold
  · rw [(scan_stopReplication p x).1] at hx
    exact h.subscribers q hq x hx

theorem Inv.link (h : Inv names s) {p : Nat} {g : PVBaseIn → PVBaseIn}
    (hp : s.factory.Registered p)
    (hsub : ∀ q ∈ (g (s.factory.inputPVs p)).subscriberOutputPVs,
      q ∈ s.factory.subscribers p ∨ s.factory.RegisteredOutput q)
    (hdst : ∀ d ∈ (g (s.factory.inputPVs p)).replicationDestinationPVs,
      d ∈ s.factory.destinations p ∨ s.factory.Registered d) :
    Inv names { s with factory := s.factory.modify p g } := by
  have hpv : ∀ x, ¬ s.factory.Registered x → (s.factory.modify p g).inputPVs x =
      s.factory.inputPVs x := fun x hx =>
    NdsFactory.modify_inputPVs_of_ne fun hc => hx (hc ▸ hp)
  refine ⟨h.inputNames, h.outputNames, fun x hx => ?_, h.inputs, h.outputs, fun x hx y hy => ?_,
    fun q hq x hx => ?_⟩
  · show (∀ q, q ∉ (s.factory.modify p g).subscribers x) ∧
      ∀ d ∈ (s.factory.modify p g).destinations x, d = x
    rw [NdsFactory.subscribers, NdsFactory.destinations, hpv x hx]
    exact h.unlinked x hx
  · by_cases hyp : y = p
    · subst hyp
      replace hy : x ∈ ((s.factory.modify y g).inputPVs y).replicationDestinationPVs := hy
      rw [NdsFactory.modify_inputPVs_self] at hy
      rcases hdst x hy with hy | hr
      · exact h.destinations x hx y hy
      · exact absurd hr (h.inputs x hx)
    · replace hy : x ∈ ((s.factory.modify p g).inputPVs y).replicationDestinationPVs := hy
      rw [NdsFactory.modify_inputPVs_of_ne hyp] at hy
      exact h.destinations x hx y hy
  · by_cases hxp : x = p
    · subst hxp
      replace hx : q ∈ ((s.factory.modify x g).inputPVs x).subscriberOutputPVs := hx
      rw [NdsFactory.modify_inputPVs_self] at hx
      rcases hsub q hx with hx | hr
      · exact h.subscribers q hq x hx
      · exact absurd hr (h.outputs q hq)
    · replace hx : q ∈ ((s.factory.modify p g).inputPVs x).subscriberOutputPVs := hx
      rw [NdsFactory.modify_inputPVs_of_ne hxp] at hx
      exact h.subscribers q hq x hx

theorem Inv.subscribePV (h : Inv names s) {src : String} {q : Nat} {f : NdsFactory}
    (hx : s.factory.subscribePV names src q = (f, .ok ())) : Inv names { s with factory := f } := by
  obtain ⟨hq, p, hp, rfl⟩ := NdsFactory.subscribePV_ok hx
  refine h.link ⟨src, hp⟩ (fun q' hq' => ?_) fun d hd => .inl hd
  rcases OrdSet.mem_insert.mp hq' with rfl | hq'
  · exact .inr ⟨_, hq⟩
  · exact .inl hq'

theorem Inv.replicatePV (h : Inv names s) {src : String} {d : Nat} {f : NdsFactory}
    (hx : s.factory.replicatePV names src d = (f, .ok ())) : Inv names { s with factory := f } := by
  obtain ⟨hd, p, hp, rfl⟩ := NdsFactory.replicatePV_ok hx
  refine h.link ⟨src, hp⟩ (fun q hq => .inl hq) fun d' hd' => ?_
  rcases OrdSet.mem_insert.mp hd' with rfl | hd'
  · exact .inr ⟨_, hd⟩
  · exact .inl hd'

/-- **Step lemma.** -/
theorem Inv.step {op : Op} (h : Inv names s) (hb : s.Bare names op)
    (hs : s.step names op = some s') : Inv names s' := by
  unfold History.step at hs
  cases hx : s.factory.exec names op with
  | mk f r =>
    rw [hx] at hs
    cases r with
    | error e =>
      cases hs
      rw [NdsFactory.exec_error hx]
      exact h
    | ok u =>
      cases hs
      -- an operation by name comes down to its pointer form, and leaves no more in the history
      obtain ⟨op', hr, hx'⟩ := NdsFactory.exec_resolve hx
      have hfst : (s.factory.exec names op').1 = f := congrArg Prod.fst hx'
      cases op with
      | registerInputPV p => exact h.registerInputPV hx
      | registerOutputPV q => exact h.registerOutputPV hx
      | deregisterInputPV p =>
        cases hr
        exact hfst ▸ h.deregisterInputPV hb
      | deregisterOutputPV q =>
        cases hr
        exact hfst ▸ h.deregisterOutputPV q
      | subscribePV src q => exact h.subscribePV hx
      | replicatePV src d => exact h.replicatePV hx
      | unsubscribePV q =>
        cases hr
        exact hfst ▸ h.unsubscribePV q
      | stopReplicationToPV d =>
        cases hr
        exact hfst ▸ h.stopReplicationToPV d
      | subscribe src dst =>
        obtain ⟨q, -, rfl⟩ := Option.map_eq_some_iff.mp hr
        exact h.subscribePV hx'
      | replicate src dst =>
        obtain ⟨d, -, rfl⟩ := Option.map_eq_some_iff.mp hr
        exact h.replicatePV hx'
      | unsubscribe dst =>
        obtain ⟨q, -, rfl⟩ := Option.map_eq_some_iff.mp hr
        exact hfst ▸ h.unsubscribePV q
      | stopReplicationTo dst =>
        obtain ⟨d, -, rfl⟩ := Option.map_eq_some_iff.mp hr
        exact hfst ▸ h.stopReplicationToPV d

/-- **Deregistered PVs are disconnected** in every state of a run in which no PV is taken out of
the registry with links of its own. -/
theorem disconnected_of_bare (h : Lts.Reach (step names) (Bare names) .empty s) :
    s.Disconnected :=
  (h.invariant (I := Inv names) Inv.empty fun hi hb hs => Inv.step hi hb hs).disconnected

/-- An input PV is unsubscribed from and deregistered. -/
theorem disconnected_unsubscribed :
    let names : FullNames := ⟨fun _ => "in", fun _ => "out"⟩
    ∃ s, Lts.exec (step names) .empty [.registerInputPV 1, .registerOutputPV 7,
        .subscribe "in" "out", .unsubscribe "out", .deregisterInputPV 1] = some s ∧
      1 ∈ s.goneInputs ∧ s.Disconnected := by
  intro names
  obtain ⟨s, hs⟩ : ∃ s, Lts.exec (step names) .empty [.registerInputPV 1, .registerOutputPV 7,
    .subscribe "in" "out", .unsubscribe "out", .deregisterInputPV 1] = some s := ⟨_, rfl⟩
  refine ⟨s, hs, ?_, disconnected_of_bare (Lts.Reach.refl.exec _ ?_ hs)⟩
  · cases hs
    exact .inl rfl
  · refine ⟨trivial, fun s1 h1 => ⟨trivial, fun s2 h2 => ⟨trivial, fun s3 h3 => ⟨trivial,
      fun s4 h4 => ⟨?_, fun _ _ => trivial⟩⟩⟩⟩⟩
    cases h1
    cases h2
    cases h3
    cases h4
    intro x hx
    obtain rfl := Option.some.inj hx
    refine ⟨fun q hq => ?_, fun d hd => ?_⟩
    · cases hq
    · cases hd

/-- An input PV with a subscriber is deregistered, and then the subscriber is: a push on the input
PV still writes it. -/
theorem deregistered_writes :
    let names : FullNames := ⟨fun _ => "in", fun _ => "out"⟩
    ∃ s, Lts.exec (step names) .empty [.registerInputPV 1, .registerOutputPV 7,
        .subscribe "in" "out", .deregisterInputPV 1, .deregisterOutputPV 7] = some s ∧
      1 ∈ s.goneInputs ∧ 7 ∈ s.goneOutputs ∧
      ∃ log : List (PushEvent String), s.factory.Pushes 1 log ∧
        .write 1 7 ⟨1, 0⟩ "value" ∈ log := by
  refine ⟨_, rfl, .inl rfl, .inl rfl, _, ⟨fun _ _ _ => none, ⟨1, 0⟩, "value", 1, ⟨_, []⟩, _, _,
    NdsFactory.linked, rfl, rfl, rfl⟩, ?_⟩
  decide

end History

end Nds3
