import Nds3.Registry.Shape
import Mathlib.Data.Finset.Card

/-!
# `PVVariableInImpl::setValue`

The value is stored under `m_pvMutex`; then, under `m_lockSubscribersList`, the subscribed output
PVs are written, in a loop that is a copy of the one in `push`. `push` has a second loop after it,
over the replication destinations, and `setValue` has none. `replicateFrom` documents that what is
pushed or set with `setValue` is pushed or written to the destination.

As in `Push`, an output PV accepts the value or throws, and the `push` of the port is taken to
return.
-/

namespace Nds3

variable {V : Type*}

/-- How a call ends that has nothing to do after the loop over the subscribers. -/
def PushEnd.ofLoop : Option Exn → PushEnd
  | none => .returned
  | some e => .threw e

/-- `PVVariableInImpl::setValue`. `values` holds `m_timestamp` and `m_value` of the variables. -/
def setValue (write : Nat → Timespec → V → Option Exn) (timestamp : Timespec) (value : V) (p : Nat)
    (values : Nat → Timespec × V) (s : PushState V) :
    (Nat → Timespec × V) × PushState V × PushEnd :=
  let values := Function.update values p (timestamp, value)
  let (s, thrown) := writeEach write timestamp value p (s.inputPVs p).subscriberOutputPVs.elems s
  (values, s, .ofLoop thrown)

/-- The value goes to the same output PVs and to the same replication destinations. -/
structure SameDeliveries (t : Timespec) (v : V) (l l' : List (PushEvent V)) : Prop where
  written : ∀ q, (∃ x, .write x q t v ∈ l) ↔ ∃ x, .write x q t v ∈ l'
  pushed : ∀ d, .push d t v ∈ l ↔ .push d t v ∈ l'

section

variable {write : Nat → Timespec → V → Option Exn} {t : Timespec} {v : V} {s s' : PushState V}
  {r : PushEnd} {held : List Nat} {subscribers destinations : Nat → OrdSet Nat}

/-- However the replications are wired, a push among finitely many PVs ends: it holds one lock more
at each level, and stops at a lock it holds. -/
theorem push_ends_of_finite {S : Finset Nat} (hS : ∀ x ∈ S, ∀ d ∈ destinations x, d ∈ S) {n p : Nat}
    (hl : Linked subscribers destinations s) (hp : p ∈ S) (hn : (S \ held.toFinset).card < n) :
    ∃ s' r, push write t v n held p s = some (s', r) ∧ Linked subscribers destinations s' := by
  induction n generalizing p held s with
  | zero => exact absurd hn (Nat.not_lt_zero _)
  | succ n ih =>
    by_cases hheld : p ∈ held
    · exact ⟨_, _, by rw [push, if_pos hheld], hl.arrive p⟩
    · have hfree : p ∈ S \ held.toFinset := by simp [hp, hheld]
      have hless : (S \ (p :: held).toFinset).card < n := by
        have herase : S \ (p :: held).toFinset = (S \ held.toFinset).erase p := by
          ext x
          simp only [List.toFinset_cons, Finset.mem_sdiff, Finset.mem_insert, Finset.mem_erase]
          tauto
        have := Finset.card_erase_lt_of_mem hfree
        rw [herase]
        omega
      obtain ⟨s', r, hpush, hl', -⟩ := push_ends_of_destinations (P := fun _ => True) trivial
        (fun _ => trivial) hl hheld fun d hd s hl => by
          obtain ⟨s', r, hpush, hl'⟩ := ih hl (hS p hp d hd) hless
          exact ⟨s', r, hpush, hl', trivial⟩
      exact ⟨s', r, hpush, hl'⟩

theorem pushEach_first {n d : Nat} {ds : List Nat}
    (h : pushEach (push write t v n held) (d :: ds) s = some (s', r)) :
    ∃ rest, s'.log = s.log ++ .push d t v :: rest := by
  rw [pushEach] at h
  split at h
  · next s1 hd =>
    obtain ⟨rest, hlog, -⟩ := push_shape hd
    obtain ⟨l, hl⟩ := pushEach_frame push_frame h
    exact ⟨_, by rw [hl.log, hlog, arrival, List.append_assoc, List.append_assoc,
      List.cons_append]⟩
  · obtain ⟨rest, hlog, -⟩ := push_shape h
    exact ⟨_, by rw [hlog, arrival, List.cons_append]⟩

theorem SameDeliveries.forwarded (b : Bool) (p : Nat) (l : List (PushEvent V)) :
    SameDeliveries t v l ((if b then [.forward p t v] else []) ++ l) := by
  constructor <;> intro q <;> cases b <;> simp

/-- **What `setValue` leaves out.** When a push of the value ends, it has delivered what `setValue`
delivers exactly when there was nothing to replicate to, or a subscriber threw before the
replications. The first event of the push is the call itself. -/
theorem sameDeliveries_iff {fuel p : Nat} {inputPVs : Nat → PVBaseIn}
    (values : Nat → Timespec × V)
    (h : push write t v fuel [] p ⟨inputPVs, []⟩ = some (s', r)) :
    SameDeliveries t v (setValue write t v p values ⟨inputPVs, []⟩).2.1.log s'.log.tail ↔
      (inputPVs p).replicationDestinationPVs = ∅ ∨
        ∃ q ∈ (inputPVs p).subscriberOutputPVs, write q t v ≠ none := by
  cases fuel with
  | zero => cases h
  | succ n =>
    obtain ⟨l, hl, hw⟩ := writeEach_eq write t v p (inputPVs p).subscriberOutputPVs.elems
    have hset : (setValue write t v p values ⟨inputPVs, []⟩).2.1.log = l := by
      simp only [setValue, hw, List.nil_append]
    rw [hset]
    rcases push_cases h with ⟨hp, -, -⟩ | ⟨-, e, -, hthrew⟩ | ⟨-, s1, hpassed, hds⟩
    · cases hp
    · -- both loops stop at the subscriber that throws
      rw [hw] at hthrew
      obtain ⟨rfl, hsome⟩ := Prod.mk.inj hthrew
      obtain ⟨q, hq, hqe⟩ := List.exists_of_findSome?_eq_some hsome
      refine iff_of_true (.forwarded _ p l) (.inr ⟨q, hq, ?_⟩)
      rw [hqe]
      exact Option.some_ne_none e
    · have haccept := accepted_of_writeEach hpassed
      rw [hw] at hpassed
      obtain ⟨rfl, -⟩ := Prod.mk.inj hpassed
      cases hd : (inputPVs p).replicationDestinationPVs.elems with
      | nil =>
        rw [hd] at hds
        obtain ⟨rfl, -⟩ := Prod.mk.inj (Option.some.inj hds)
        exact iff_of_true (.forwarded _ p l) (.inl (OrdSet.elems_eq_nil.mp hd))
      | cons d ds =>
        rw [hd] at hds
        obtain ⟨rest, hlog⟩ := pushEach_first hds
        refine iff_of_false (fun hsame => ?_) ?_
        · have hpushed : .push d t v ∈ s'.log.tail := by
            rw [hlog]
            simp [arrive]
          obtain ⟨q, -, hev⟩ := hl _ ((hsame.pushed d).mpr hpushed)
          cases hev
        · rintro (hnone | ⟨q, hq, hthrows⟩)
          · rw [hnone] at hd
            cases hd
          · exact hthrows (haccept q hq)

end

/-- `setValue` reaches the output PVs and the destinations that `push` reaches exactly when the PV
has no replication destination or one of its subscribers throws, whatever the links, the timestamp
and the value are. -/
theorem setValue_delivers_iff (write : Nat → Timespec → V → Option Exn) (t : Timespec) (v : V)
    (values : Nat → Timespec × V) {inputPVs : Nat → PVBaseIn} {S : Finset Nat}
    (hS : ∀ x ∈ S, ∀ d ∈ (inputPVs x).replicationDestinationPVs, d ∈ S) {p : Nat} (hp : p ∈ S) :
    ∃ n, ∀ fuel ≥ n, ∃ s r, push write t v fuel [] p ⟨inputPVs, []⟩ = some (s, r) ∧
      (SameDeliveries t v (setValue write t v p values ⟨inputPVs, []⟩).2.1.log s.log.tail ↔
        (inputPVs p).replicationDestinationPVs = ∅ ∨
          ∃ q ∈ (inputPVs p).subscriberOutputPVs, write q t v ≠ none) := by
  refine ⟨S.card + 1, fun fuel hfuel => ?_⟩
  have hless : (S \ ([] : List Nat).toFinset).card < fuel := by
    rw [List.toFinset_nil, Finset.sdiff_empty]
    omega
  have hlinks : Linked _ _ (⟨inputPVs, []⟩ : PushState V) := ⟨fun _ => rfl, fun _ => rfl⟩
  obtain ⟨s, r, hpush, -⟩ : ∃ s r, push write t v fuel [] p ⟨inputPVs, []⟩ = some (s, r) ∧
    Linked _ _ s := push_ends_of_finite hS hlinks hp hless
  exact ⟨s, r, hpush, sameDeliveries_iff values hpush⟩

/-- PV 1 is replicated to PV 2. -/
def replicated : Nat → PVBaseIn :=
  Function.update (fun _ => .construct) 1 (PVBaseIn.construct.replicateTo 2)

theorem setValue_delivers_iff_replicated :
    ∃ n, ∀ fuel ≥ n, ∃ s r,
      push (fun _ _ _ => none) ⟨5, 0⟩ (7 : Int) fuel [] 1 ⟨replicated, []⟩ = some (s, r) ∧
        ¬ SameDeliveries ⟨5, 0⟩ 7 (setValue (fun _ _ _ => none) ⟨5, 0⟩ (7 : Int) 1
          (fun _ => (⟨0, 0⟩, 0)) ⟨replicated, []⟩).2.1.log s.log.tail := by
  have hclosed : ∀ x ∈ ({1, 2} : Finset Nat),
      ∀ d ∈ (replicated x).replicationDestinationPVs, d ∈ ({1, 2} : Finset Nat) := by
    intro x hx d hd
    rcases Finset.mem_insert.mp hx with rfl | hx
    · have hd2 : d = 2 := by
        simpa [replicated, PVBaseIn.replicateTo, PVBaseIn.construct] using hd
      simp [hd2]
    · rw [Finset.mem_singleton.mp hx] at hd
      cases hd
  obtain ⟨n, hn⟩ := setValue_delivers_iff (fun _ _ _ => none) ⟨5, 0⟩ (7 : Int)
    (fun _ => (⟨0, 0⟩, 0)) hclosed (Finset.mem_insert_self 1 {2})
  refine ⟨n, fun fuel hfuel => ?_⟩
  obtain ⟨s, r, hpush, hiff⟩ := hn fuel hfuel
  refine ⟨s, r, hpush, fun hsame => ?_⟩
  rcases hiff.mp hsame with hnone | ⟨q, -, hthrows⟩
  · exact absurd hnone (by decide)
  · exact hthrows rfl

theorem setValue_not_replicated :
    ∃ s, push (fun _ _ _ => none) ⟨5, 0⟩ (7 : Int) 2 [] 1 ⟨replicated, []⟩ = some (s, .returned) ∧
      ¬ SameDeliveries ⟨5, 0⟩ 7 (setValue (fun _ _ _ => none) ⟨5, 0⟩ (7 : Int) 1
        (fun _ => (⟨0, 0⟩, 0)) ⟨replicated, []⟩).2.1.log s.log.tail :=
  ⟨_, rfl, fun h => by
    have hpushed := (h.pushed 2).mpr (by decide)
    revert hpushed
    decide⟩

end Nds3
