import Nds3.Registry.Push
import Nds3.Registry.Refinement

/-!
# Replication graphs that can be pushed through

`replicate` checks that both ends of a link are registered, and nothing else: it accepts a link
that closes a cycle, and a PV as its own source. A push into a cycle comes back to a PV whose
`m_lockSubscribersList` it holds. The replication relation stays acyclic exactly as long as no
call of `replicate` has a source that its destination already reaches (`NoCycle`).
-/

namespace Nds3

open Relation Dag

theorem Refines.closed {names : FullNames} {f : NdsFactory} {a : Links} (h : Refines names f a) :
    f.Closed := by
  rintro p ⟨n, hn⟩ d hd
  have hp := h.lookup_mem hn
  have hl := h.replications _ ((h.destinations p hp d).mp hd)
  exact ⟨_, h.mem_inputs.mp hl.2⟩

namespace NdsFactory

/-- The edges of the replication graph. -/
abbrev Replicates (f : NdsFactory) : Nat → Nat → Prop := Edge (succ f.destinations)

/-- An operation that does not throw. -/
def step (names : FullNames) (f : NdsFactory) (op : Op) : Option NdsFactory :=
  match f.exec names op with
  | (f', .ok ()) => some f'
  | (_, .error _) => none

/-- The registrations and the replications. -/
def Growing : Op → Prop
  | .registerInputPV _ | .registerOutputPV _ | .replicatePV _ _ | .replicate _ _ => True
  | _ => False

/-- The source of a replication is not reached from its destination. -/
def NoCycle (f : NdsFactory) : Op → Prop
  | .replicatePV src d =>
    ∀ p, f.registeredInputPVs.lookup src = some p → ¬ ReflTransGen f.Replicates d p
  | .replicate src dst => ∀ p d, f.registeredInputPVs.lookup src = some p →
      f.registeredInputPVs.lookup dst = some d → ¬ ReflTransGen f.Replicates d p
  | _ => True

/-- The replication relation is acyclic, and every push on a registered input PV ends without
taking a lock it holds. -/
structure Pushable (f : NdsFactory) : Prop where
  acyclic : f.Acyclic
  ends : ∀ {V : Type} (write : Nat → Timespec → V → Option Exn) (t : Timespec) (v : V) (p : Nat),
    f.Registered p → ∃ N, ∀ fuel ≥ N, ∃ s r, f.push write t v fuel p = some (s, r) ∧
      ∀ q, r ≠ .relocked q

/-- The links of the registry are among registered PVs, and a PV that is not registered has
none. -/
structure Rooted (f : NdsFactory) : Prop where
  closed : f.Closed
  unlinked : ∀ p d, d ∈ f.destinations p → f.Registered p

theorem rooted_empty : Rooted .empty where
  closed p hp := by
    obtain ⟨n, hn⟩ := hp
    simp [NdsFactory.empty] at hn
  unlinked p d hd := absurd hd OrdSet.not_mem_empty

variable {names : FullNames} {f f' : NdsFactory}

/-- Among the links of a rooted registry only those of registered PVs can form a cycle. -/
theorem Rooted.acyclic_iff (h : Rooted f) : Dag.Acyclic f.Replicates ↔ f.Acyclic := by
  refine ⟨fun ha p _ => ha p, fun ha p hp => ha p ?_ hp⟩
  obtain ⟨d, hd, -⟩ := TransGen.head'_iff.mp hp
  exact h.unlinked p d hd

/-- **Acyclic is all a push needs.** -/
theorem Rooted.pushable_iff (h : Rooted f) : f.Pushable ↔ Dag.Acyclic f.Replicates := by
  rw [h.acyclic_iff]
  refine ⟨Pushable.acyclic, fun ha => ⟨ha, fun write t v p hp => ?_⟩⟩
  obtain ⟨N, hN⟩ := ha.exists_depth h.closed hp
  refine ⟨N, fun fuel hfuel => ?_⟩
  obtain ⟨s, r, hs, -, hr⟩ : ∃ s r, f.push write t v fuel p = some (s, r) ∧
      Linked f.subscribers f.destinations s ∧ ∀ q, r ≠ .relocked q :=
    push_ends linked (hN.mono hfuel) fun _ h => by cases h
  exact ⟨s, r, hs, hr⟩

/-! ## What the steps do to the graph -/

theorem step_eq_some {op : Op} : f.step names op = some f' ↔ f.exec names op = (f', .ok ()) := by
  unfold step
  split
  · next f1 h => rw [h]; simp
  · next f1 e h => rw [h]; simp

theorem Rooted.register (h : Rooted f) (f' : NdsFactory) (hlinks : f'.inputPVs = f.inputPVs)
    (hreg : ∀ p, f.Registered p → f'.Registered p) :
    Rooted f' ∧ (Dag.Acyclic f'.Replicates ↔ Dag.Acyclic f.Replicates) := by
  have hd : f'.destinations = f.destinations := funext fun p => by rw [destinations, hlinks]; rfl
  refine ⟨⟨fun p hp d hd' => ?_, fun p d hd' => ?_⟩, by rw [Replicates, hd]⟩
  · rw [hd] at hd'
    exact hreg d (h.closed p (h.unlinked p d hd') d hd')
  · rw [hd] at hd'
    exact hreg p (h.unlinked p d hd')

theorem Rooted.replicate (h : Rooted f) {src : String} {p d : Nat}
    (hp : f.registeredInputPVs.lookup src = some p) (hd : f.Registered d)
    (hf : f' = f.modify p (·.replicateTo d)) :
    Rooted f' ∧ (Dag.Acyclic f'.Replicates ↔
      Dag.Acyclic f.Replicates ∧ ¬ ReflTransGen f.Replicates d p) := by
  have hedge : ∀ x y, y ∈ f'.destinations x ↔ y ∈ f.destinations x ∨ x = p ∧ y = d := by
    intro x y
    rw [hf]
    exact mem_replicationDestinationPVs_modify
  have hreg : ∀ x, f'.Registered x ↔ f.Registered x := fun x => by rw [hf]; rfl
  refine ⟨⟨fun x hx y hy => ?_, fun x y hy => ?_⟩, ?_⟩
  · rw [hreg] at hx ⊢
    rcases (hedge x y).mp hy with hy | ⟨-, rfl⟩
    · exact h.closed x hx y hy
    · exact hd
  · rw [hreg]
    rcases (hedge x y).mp hy with hy | ⟨rfl, -⟩
    · exact h.unlinked x y hy
    · exact ⟨src, hp⟩
  · rw [← acyclic_insert]
    have : f'.Replicates = fun x y => f.Replicates x y ∨ x = p ∧ y = d :=
      funext fun x => funext fun y => propext (hedge x y)
    rw [this]

/-- **Step lemma.** -/
theorem Rooted.step {op : Op} (h : Rooted f) (hg : Growing op) (hs : f.step names op = some f') :
    Rooted f' ∧ (Dag.Acyclic f'.Replicates ↔ Dag.Acyclic f.Replicates ∧ f.NoCycle op) := by
  rw [step_eq_some] at hs
  have replicatePV : ∀ {src d}, f.exec names (.replicatePV src d) = (f', .ok ()) →
      Rooted f' ∧ (Dag.Acyclic f'.Replicates ↔
        Dag.Acyclic f.Replicates ∧ f.NoCycle (.replicatePV src d)) := by
    intro src d hs
    obtain ⟨hd, p, hp, hf⟩ := replicatePV_ok hs
    obtain ⟨hr, ha⟩ := h.replicate hp ⟨_, hd⟩ hf
    refine ⟨hr, ha.trans (and_congr_right fun _ => ?_)⟩
    simp [NoCycle, hp]
  cases op with
  | registerInputPV p =>
    obtain ⟨hi, -, rfl⟩ := registerInputPV_ok hs
    obtain ⟨hr, ha⟩ := h.register { f with
      registeredInputPVs := f.registeredInputPVs.insert (names.input p) p } rfl
      fun x ⟨n, hn⟩ => ⟨n, by
        rw [AList.lookup_insert_ne fun hc => hi (AList.lookup_isSome.mp (by rw [← hc, hn]; rfl))]
        exact hn⟩
    exact ⟨hr, ha.trans (and_iff_left trivial).symm⟩
  | registerOutputPV q =>
    obtain ⟨-, -, rfl⟩ := registerOutputPV_ok hs
    obtain ⟨hr, ha⟩ := h.register { f with
      registeredOutputPVs := f.registeredOutputPVs.insert (names.output q) q } rfl fun _ h => h
    exact ⟨hr, ha.trans (and_iff_left trivial).symm⟩
  | replicatePV src d => exact replicatePV hs
  | replicate src dst =>
    obtain ⟨op', hop, hs'⟩ := exec_resolve hs
    obtain ⟨d, hd, rfl⟩ := Option.map_eq_some_iff.mp hop
    obtain ⟨hr, ha⟩ := replicatePV hs'
    refine ⟨hr, ha.trans (and_congr_right fun _ => ?_)⟩
    simp [NoCycle, hd]
  | _ => cases hg

/-- **Which replication graphs can be pushed through.** After any sequence of registrations and
replications that did not throw, the replication relation is acyclic and every push ends without
taking a lock it holds, if and only if no replication of the sequence closed a cycle. -/
theorem pushable_iff_noCycle {ops : List Op} (hops : ∀ op ∈ ops, Growing op)
    (hs : Lts.exec (step names) .empty ops = some f) :
    f.Pushable ↔ Lts.Meets (step names) NoCycle .empty ops := by
  obtain ⟨hr, ha⟩ : Rooted f ∧ (Dag.Acyclic f.Replicates ↔
      Dag.Acyclic NdsFactory.empty.Replicates ∧ Lts.Meets (step names) NoCycle .empty ops) :=
    Lts.exec_iff_meets (I := Rooted) (P := fun f => Dag.Acyclic f.Replicates)
      (fun h hg hs => h.step hg hs) rooted_empty hops hs
  rw [hr.pushable_iff, ha]
  refine and_iff_right fun p hp => ?_
  obtain ⟨d, hd, -⟩ := TransGen.head'_iff.mp hp
  exact OrdSet.not_mem_empty hd

/-- Two PVs, one replicated to the other. -/
theorem pushable_replicate :
    let names : FullNames := ⟨fun p => if p = 1 then "a" else "b", fun _ => "out"⟩
    ∃ f, Lts.exec (step names) .empty
      [.registerInputPV 1, .registerInputPV 2, .replicate "a" "b"] = some f ∧ f.Pushable := by
  intro names
  obtain ⟨f, hs⟩ : ∃ f, Lts.exec (step names) .empty
    [.registerInputPV 1, .registerInputPV 2, .replicate "a" "b"] = some f := ⟨_, rfl⟩
  refine ⟨f, hs, (pushable_iff_noCycle ?_ hs).mpr ?_⟩
  · simp [Growing]
  · refine ⟨trivial, fun f hf => ⟨trivial, fun f' hf' => ⟨?_, fun _ _ => trivial⟩⟩⟩
    cases hf
    cases hf'
    intro p d hp hd h
    -- there is no link yet, and the two PVs differ
    rcases ReflTransGen.cases_head h with rfl | ⟨c, hc, -⟩
    · have hp1 : 1 = d := Option.some.inj hp
      have hd2 : 2 = d := Option.some.inj hd
      omega
    · cases hc

/-- A PV replicated from itself is accepted, and the first push on it tries to take the lock it
holds. -/
theorem replicate_cycle :
    let names : FullNames := ⟨fun _ => "a", fun _ => "out"⟩
    ∃ f, Lts.exec (step names) .empty [.registerInputPV 1, .replicate "a" "a"] = some f ∧
      ¬ f.Pushable ∧
      ∀ fuel, (f.push (fun _ _ _ => none) ⟨1, 0⟩ "value" (fuel + 2) 1).map Prod.snd =
        some (.relocked 1) := by
  refine ⟨_, rfl, fun h => ?_, fun fuel => ?_⟩
  · exact h.acyclic 1 ⟨"a", rfl⟩ (.single (by show 1 ∈ [1]; decide))
  · rfl

end NdsFactory

end Nds3
