import Nds3.Registry.Factory
import Nds3.Lib.Dag

/-!
# `PVBaseInImpl::push`

A push counts against the PV's decimation, and is forwarded to the port when the count is up; then,
under `m_lockSubscribersList`, it writes the subscribed output PVs and pushes the replication
destinations, which keep the locks of their own. The recursion is bounded by fuel, and carries the
locks the call holds: taking one of them again is undefined, `m_lockSubscribersList` being a
`std::mutex`.

The walk a push makes is the preorder walk of the replication graph (`push_eq_walk`), so on an
acyclic graph every PV is pushed once for each path that leads to it.

Every PV a push reaches has a port, since `initialize` registers it there before it registers it
in the registry. Two things a push depends on are outside of the model. The function behind an
output PV accepts the value or throws, and what else it does is not seen: that of the PV `setState`
of a state machine takes the mutex of the machine and pushes the PV `getState`. And the `push` of
the interface that a value is forwarded to, a function of the control system, is taken to return.
-/

namespace Nds3

open Relation Dag

/-- What can be seen of a push. -/
inductive PushEvent (V : Type*) where
  /-- `push` is called on the input PV. -/
  | push (pv : Nat) (timestamp : Timespec) (value : V)
  /-- The port of the input PV is given the value. -/
  | forward (pv : Nat) (timestamp : Timespec) (value : V)
  /-- The input PV writes an output PV subscribed to it. -/
  | write (source pv : Nat) (timestamp : Timespec) (value : V)
  deriving DecidableEq

/-- The input PVs, and what has happened. -/
structure PushState (V : Type*) where
  inputPVs : Nat → PVBaseIn
  log : List (PushEvent V)

inductive PushEnd where
  | returned
  | threw (e : Exn)
  /-- The call tries to take the lock of this PV, which it holds. -/
  | relocked (pv : Nat)
  deriving DecidableEq

namespace PVBaseIn

/-- `--m_decimationCount == 0`, and the count starting over. -/
def decimate (pv : PVBaseIn) : PVBaseIn × Bool :=
  let count := pv.decimationCount - 1
  if count = 0 then ({ pv with decimationCount := pv.decimationFactor }, true)
  else ({ pv with decimationCount := count }, false)

@[simp] theorem decimate_subscriberOutputPVs (pv : PVBaseIn) :
    pv.decimate.1.subscriberOutputPVs = pv.subscriberOutputPVs := by
  simp only [decimate]
  split <;> rfl

@[simp] theorem decimate_replicationDestinationPVs (pv : PVBaseIn) :
    pv.decimate.1.replicationDestinationPVs = pv.replicationDestinationPVs := by
  simp only [decimate]
  split <;> rfl

end PVBaseIn

section

variable {V : Type*} (write : Nat → Timespec → V → Option Exn) (timestamp : Timespec) (value : V)

/-- `push` up to the lock. The port takes what is forwarded to it. -/
def arrive (p : Nat) (s : PushState V) : PushState V where
  inputPVs := Function.update s.inputPVs p (s.inputPVs p).decimate.1
  log := s.log ++ .push p timestamp value ::
    if (s.inputPVs p).decimate.2 then [.forward p timestamp value] else []

/-- The loop over the subscribed output PVs. -/
def writeEach (p : Nat) : List Nat → PushState V → PushState V × Option Exn
  | [], s => (s, none)
  | q :: qs, s =>
    let s := { s with log := s.log ++ [.write p q timestamp value] }
    match write q timestamp value with
    | none => writeEach p qs s
    | some e => (s, some e)

/-- The loop over the replication destinations. -/
def pushEach (push : Nat → PushState V → Option (PushState V × PushEnd)) :
    List Nat → PushState V → Option (PushState V × PushEnd)
  | [], s => some (s, .returned)
  | d :: ds, s =>
    match push d s with
    | some (s, .returned) => pushEach push ds s
    | r => r

/-- `PVBaseInImpl::push` in a call that holds the locks of the PVs `held`. -/
def push : Nat → List Nat → Nat → PushState V → Option (PushState V × PushEnd)
  | 0, _, _, _ => none
  | fuel + 1, held, p, s =>
    let s := arrive timestamp value p s
    if p ∈ held then some (s, .relocked p)
    else
      match writeEach write timestamp value p (s.inputPVs p).subscriberOutputPVs.elems s with
      | (s, some e) => some (s, .threw e)
      | (s, none) =>
        pushEach (push fuel (p :: held)) (s.inputPVs p).replicationDestinationPVs.elems s

/-- A push of one PV whose subscribers accept the value, without its replication. -/
def visit (s : PushState V) (p : Nat) : PushState V :=
  { arrive timestamp value p s with
    log := (arrive timestamp value p s).log ++
      (s.inputPVs p).subscriberOutputPVs.elems.map (.write p · timestamp value) }

end

/-! ## The links are not touched -/

/-- The subscribers and the replication destinations of the PVs. -/
structure Linked {V : Type*} (subscribers destinations : Nat → OrdSet Nat) (s : PushState V) :
    Prop where
  subscribers : ∀ p, (s.inputPVs p).subscriberOutputPVs = subscribers p
  destinations : ∀ p, (s.inputPVs p).replicationDestinationPVs = destinations p

section

variable {V : Type*} {write : Nat → Timespec → V → Option Exn} {t : Timespec} {v : V}
  {subscribers destinations : Nat → OrdSet Nat} {s : PushState V}

theorem Linked.arrive (h : Linked subscribers destinations s) (p : Nat) :
    Linked subscribers destinations (arrive t v p s) := by
  constructor
  · intro x
    by_cases hx : x = p
    · subst hx
      simp [Nds3.arrive, h.subscribers]
    · simp [Nds3.arrive, Function.update_of_ne hx, h.subscribers]
  · intro x
    by_cases hx : x = p
    · subst hx
      simp [Nds3.arrive, h.destinations]
    · simp [Nds3.arrive, Function.update_of_ne hx, h.destinations]

theorem Linked.visit (h : Linked subscribers destinations s) (p : Nat) :
    Linked subscribers destinations (visit t v s p) :=
  have ha := h.arrive (t := t) (v := v) p
  ⟨ha.subscribers, ha.destinations⟩

theorem Linked.foldl_visit (h : Linked subscribers destinations s) (ps : List Nat) :
    Linked subscribers destinations (ps.foldl (Nds3.visit t v) s) := by
  induction ps generalizing s with
  | nil => exact h
  | cons p ps ih => exact ih (h.visit p)

theorem Linked.writeEach (h : Linked subscribers destinations s) (p : Nat) (qs : List Nat) :
    Linked subscribers destinations (writeEach write t v p qs s).1 := by
  induction qs generalizing s with
  | nil => exact h
  | cons q qs ih =>
    have hs : Linked subscribers destinations { s with log := s.log ++ [.write p q t v] } :=
      ⟨h.subscribers, h.destinations⟩
    simp only [Nds3.writeEach]
    split
    · exact ih hs
    · exact hs

theorem writeEach_of_accepted {p : Nat} {qs : List Nat} (h : ∀ q ∈ qs, write q t v = none) :
    writeEach write t v p qs s = ({ s with log := s.log ++ qs.map (.write p · t v) }, none) := by
  induction qs generalizing s with
  | nil => simp [writeEach]
  | cons q qs ih =>
    rw [writeEach, h q (List.mem_cons_self ..)]
    simp only
    rw [ih fun q hq => h q (List.mem_cons_of_mem _ hq)]
    simp

/-! ## The walk of a push -/

/-- The replication graph. -/
abbrev succ (destinations : Nat → OrdSet Nat) (p : Nat) : List Nat := (destinations p).elems

theorem pushEach_of_walk {push : Nat → PushState V → Option (PushState V × PushEnd)}
    {walk : Nat → List Nat} {ds : List Nat} (hl : Linked subscribers destinations s)
    (h : ∀ d ∈ ds, ∀ s, Linked subscribers destinations s →
      push d s = some ((walk d).foldl (visit t v) s, .returned)) :
    pushEach push ds s = some ((ds.flatMap walk).foldl (visit t v) s, .returned) := by
  induction ds generalizing s with
  | nil => rfl
  | cons d ds ih =>
    rw [pushEach, h d (List.mem_cons_self ..) s hl]
    simp only
    rw [ih (hl.foldl_visit _) fun e he => h e (List.mem_cons_of_mem _ he), List.flatMap_cons,
      List.foldl_append]

/-- Where the subscribers accept the value, a push comes to the replication destinations. -/
theorem push_of_accepted {n p : Nat} {held : List Nat} (hl : Linked subscribers destinations s)
    (hp : p ∉ held) (hw : ∀ q ∈ subscribers p, write q t v = none) :
    push write t v (n + 1) held p s =
      pushEach (push write t v n (p :: held)) (succ destinations p) (visit t v s p) := by
  have hw : ∀ q ∈ (subscribers p).elems, write q t v = none := hw
  have hsub := (hl.arrive (t := t) (v := v) p).subscribers p
  have hdst := (hl.visit (t := t) (v := v) p).destinations p
  have hvisit : visit t v s p = { arrive t v p s with
      log := (arrive t v p s).log ++ (subscribers p).elems.map (.write p · t v) } := by
    rw [visit, hl.subscribers]
  simp only [push, if_neg hp, hsub, writeEach_of_accepted hw, ← hvisit, hdst]

/-- **A push is the preorder walk of the replication graph.** -/
theorem push_eq_walk {n p : Nat} {held : List Nat} (hl : Linked subscribers destinations s)
    (hd : Depth (succ destinations) n p)
    (hheld : ∀ x ∈ held, ¬ ReflTransGen (Edge (succ destinations)) p x)
    (haccept : ∀ x, ReflTransGen (Edge (succ destinations)) p x → ∀ q ∈ subscribers x,
      write q t v = none) :
    push write t v n held p s =
      some ((walk (succ destinations) n p).foldl (visit t v) s, .returned) := by
  induction n generalizing p held s with
  | zero => cases hd
  | succ n ih =>
    have hp : p ∉ held := fun hp => hheld p hp .refl
    rw [push_of_accepted hl hp (haccept p .refl)]
    refine pushEach_of_walk (hl.visit p) fun d hpd s' hl' => ih hl' (hd d hpd) ?_ ?_
    · -- a destination that reached a lock of the call would close a cycle
      intro x hx hdx
      rcases List.mem_cons.mp hx with rfl | hx
      · exact hd.irrefl (TransGen.head' hpd hdx)
      · exact hheld x hx (.head hpd hdx)
    · exact fun x hx => haccept x (.head hpd hx)

theorem pushEach_ends {push : Nat → PushState V → Option (PushState V × PushEnd)} {ds : List Nat}
    {P : PushEnd → Prop} (hP : P .returned) (hl : Linked subscribers destinations s)
    (h : ∀ d ∈ ds, ∀ s, Linked subscribers destinations s →
      ∃ s' r, push d s = some (s', r) ∧ Linked subscribers destinations s' ∧ P r) :
    ∃ s' r, pushEach push ds s = some (s', r) ∧ Linked subscribers destinations s' ∧ P r := by
  induction ds generalizing s with
  | nil => exact ⟨s, .returned, rfl, hl, hP⟩
  | cons d ds ih =>
    obtain ⟨s1, r, hs1, hl1, hr⟩ := h d (List.mem_cons_self ..) s hl
    rw [pushEach, hs1]
    cases r with
    | returned => exact ih hl1 fun e he => h e (List.mem_cons_of_mem _ he)
    | threw e => exact ⟨s1, .threw e, rfl, hl1, hr⟩
    | relocked q => exact ⟨s1, .relocked q, rfl, hl1, hr⟩

theorem push_ends_of_destinations {P : PushEnd → Prop} (hP : P .returned)
    (hthrew : ∀ e, P (.threw e)) {n p : Nat} {held : List Nat}
    (hl : Linked subscribers destinations s) (hp : p ∉ held)
    (h : ∀ d ∈ succ destinations p, ∀ s, Linked subscribers destinations s →
      ∃ s' r, push write t v n (p :: held) d s = some (s', r) ∧
        Linked subscribers destinations s' ∧ P r) :
    ∃ s' r, push write t v (n + 1) held p s = some (s', r) ∧
      Linked subscribers destinations s' ∧ P r := by
  have ha := hl.arrive (t := t) (v := v) p
  rw [push, if_neg hp, ha.subscribers]
  have hw : Linked subscribers destinations
      (writeEach write t v p (subscribers p).elems (arrive t v p s)).1 := ha.writeEach p _
  cases he : writeEach write t v p (subscribers p).elems (arrive t v p s) with
  | mk s1 e =>
    rw [he] at hw
    cases e with
    | some e => exact ⟨s1, .threw e, rfl, hw, hthrew e⟩
    | none =>
      show ∃ s' r, pushEach (push write t v n (p :: held))
        (s1.inputPVs p).replicationDestinationPVs.elems s1 = some (s', r) ∧ _
      rw [hw.destinations]
      exact pushEach_ends hP hw h

/-- Whatever the subscribers do, a push of bounded depth ends, and takes no lock it holds. -/
theorem push_ends {n p : Nat} {held : List Nat} (hl : Linked subscribers destinations s)
    (hd : Depth (succ destinations) n p)
    (hheld : ∀ x ∈ held, ¬ ReflTransGen (Edge (succ destinations)) p x) :
    ∃ s' r, push write t v n held p s = some (s', r) ∧ Linked subscribers destinations s' ∧
      ∀ q, r ≠ .relocked q := by
  induction n generalizing p held s with
  | zero => cases hd
  | succ n ih =>
    have hp : p ∉ held := fun hp => hheld p hp .refl
    refine push_ends_of_destinations (fun _ h => by cases h) (fun _ _ h => by cases h) hl hp
      fun d hpd s' hl' => ih hl' (hd d hpd) fun x hx hdx => ?_
    rcases List.mem_cons.mp hx with rfl | hx
    · exact hd.irrefl (TransGen.head' hpd hdx)
    · exact hheld x hx (.head hpd hdx)

end

/-! ## Pushing through a registry -/

namespace NdsFactory

variable (f : NdsFactory)

def Registered (p : Nat) : Prop := ∃ n, f.registeredInputPVs.lookup n = some p

def subscribers (p : Nat) : OrdSet Nat := (f.inputPVs p).subscriberOutputPVs

def destinations (p : Nat) : OrdSet Nat := (f.inputPVs p).replicationDestinationPVs

/-- The replication relation is one among the registered input PVs. -/
def Closed : Prop := ∀ p, f.Registered p → ∀ d ∈ f.destinations p, f.Registered d

/-- No registered input PV is replicated to itself, directly or through others. -/
def Acyclic : Prop := ∀ p, f.Registered p → ¬ TransGen (Edge (succ f.destinations)) p p

/-- `push` on an input PV of the registry. -/
def push {V : Type*} (write : Nat → Timespec → V → Option Exn) (t : Timespec) (v : V)
    (fuel p : Nat) : Option (PushState V × PushEnd) :=
  Nds3.push write t v fuel [] p ⟨f.inputPVs, []⟩

variable {f}

theorem linked {V : Type*} : Linked f.subscribers f.destinations (⟨f.inputPVs, []⟩ : PushState V) :=
  ⟨fun _ => rfl, fun _ => rfl⟩

theorem finite_registered : {p | f.Registered p}.Finite := by
  refine (List.finite_toSet (f.registeredInputPVs.entries.map Sigma.snd)).subset ?_
  rintro p ⟨n, hn⟩
  exact List.mem_map.mpr ⟨⟨n, p⟩, AList.mem_lookup_iff.mp hn, rfl⟩

theorem Acyclic.exists_depth (h : f.Acyclic) (hc : f.Closed) {p : Nat} (hp : f.Registered p) :
    ∃ n, Depth (succ f.destinations) n p :=
  Dag.exists_depth finite_registered hc h hp

end NdsFactory

end Nds3
