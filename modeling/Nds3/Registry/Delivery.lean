import Nds3.Registry.Termination

/-!
# What a call delivers does not depend on the other threads

While no operation changes the links, a call of `push` or `setValue` makes the pushes and the writes
that it makes alone, in the same order, whatever the other threads do meanwhile. So among all of
them no delivery is lost and none is made twice. What is forwarded to the ports depends on the
common countdown, and is left out here.

An output PV answers one timestamp and value always alike (`Answering`), and does nothing but
accept or throw.
-/

namespace Nds3

open Relation Dag

variable {V : Type*}

/-- A push or a write. -/
def PushEvent.isDelivery : PushEvent V → Bool
  | .forward _ _ _ => false
  | _ => true

/-- The pushes and writes of a call that nobody else disturbs, as the sequential model has them. -/
def ThreadCall.alone (write : Nat → Timespec → V → Option Exn) (f : NdsFactory)
    (stored : Nat → Timespec × V) (fuel : Nat) : ThreadCall V → List (PushEvent V)
  | .push p t v =>
    match f.push write t v fuel p with
    | some (s, _) => s.log.filter (·.isDelivery)
    | none => []
  | .setValue p t v =>
    (Nds3.setValue write t v p stored ⟨f.inputPVs, []⟩).2.1.log.filter (·.isDelivery)
  | .operate _ => []

/-- What a thread that has `l` to do delivers, if the links stay as they are in `f`. -/
inductive Alone (write : Nat → Timespec → V → Option Exn) (f : NdsFactory) :
    List (Instr V) → List (PushEvent V) → Prop where
  | nil : Alone write f [] []
  | store {p : Nat} {t : Timespec} {v : V} {rest : List (Instr V)} {l : List (PushEvent V)}
      (h : Alone write f rest l) : Alone write f (.store p t v :: rest) l
  | push {p : Nat} {t : Timespec} {v : V} {rest : List (Instr V)} {l : List (PushEvent V)}
      (h : Alone write f rest l) : Alone write f (.push p t v :: rest) (.push p t v :: l)
  | lock {p : Nat} {t : Timespec} {v : V} {replicate : Bool} {rest : List (Instr V)}
      {l : List (PushEvent V)}
      (h : Alone write f (Instr.deliveries (f.inputPVs p) p t v replicate ++
        .release (.lockSubscribersList p) :: rest) l) :
      Alone write f (.lockSubscribersList p t v replicate :: rest) l
  | write {p q : Nat} {t : Timespec} {v : V} {rest : List (Instr V)} {l : List (PushEvent V)}
      (haccept : write q t v = none) (h : Alone write f rest l) :
      Alone write f (.write p q t v :: rest) (.write p q t v :: l)
  | threw {p q : Nat} {t : Timespec} {v : V} {e : Exn} {rest : List (Instr V)}
      (hthrew : write q t v = some e) :
      Alone write f (.write p q t v :: rest) [.write p q t v]
  | release {m : Mutex} {rest : List (Instr V)} {l : List (PushEvent V)}
      (h : Alone write f rest l) : Alone write f (.release m :: rest) l

/-- The instructions do what leads the sequential model from `s` to `s'`. -/
def Does (write : Nat → Timespec → V → Option Exn) (f : NdsFactory) (is : List (Instr V))
    (s s' : PushState V) (r : PushEnd) : Prop :=
  ∃ l, s'.log = s.log ++ l ∧
    (r = .returned → ∀ rest k, Alone write f rest k →
      Alone write f (is ++ rest) (l.filter (·.isDelivery) ++ k)) ∧
    ∀ e, r = .threw e → ∀ rest, Alone write f (is ++ rest) (l.filter (·.isDelivery))

section

variable {write : Nat → Timespec → V → Option Exn} {f : NdsFactory} {is is' : List (Instr V)}
  {s s1 s' : PushState V} {r : PushEnd} {t : Timespec} {v : V} {p : Nat}

theorem Does.nil : Does write f [] s s .returned :=
  ⟨[], by simp, fun _ _ _ h => h, fun _ h => by cases h⟩

theorem Does.append (h : Does write f is s s1 .returned) (h' : Does write f is' s1 s' r) :
    Does write f (is ++ is') s s' r := by
  obtain ⟨l, hl, hreturned, -⟩ := h
  obtain ⟨l', hl', hreturned', hthrew'⟩ := h'
  refine ⟨l ++ l', by rw [hl', hl, List.append_assoc], fun hr rest k hk => ?_, fun e hr rest => ?_⟩
  · rw [List.append_assoc, List.filter_append, List.append_assoc]
    exact hreturned rfl _ _ (hreturned' hr _ _ hk)
  · rw [List.append_assoc, List.filter_append]
    exact hreturned rfl _ _ (hthrew' e hr _)

/-- What comes after an exception is not done. -/
theorem Does.append_threw {e : Exn} (h : Does write f is s s' (.threw e)) (is' : List (Instr V)) :
    Does write f (is ++ is') s s' (.threw e) := by
  obtain ⟨l, hl, -, hthrew⟩ := h
  refine ⟨l, hl, (fun hr => by cases hr), fun x hr rest => ?_⟩
  rw [List.append_assoc]
  exact hthrew x hr _

theorem does_writeEach {qs : List Nat} {thrown : Option Exn}
    (h : writeEach write t v p qs s = (s', thrown)) :
    Does write f (qs.map (.write p · t v)) s s' (.ofLoop thrown) := by
  induction qs generalizing s with
  | nil =>
    obtain ⟨rfl, rfl⟩ := Prod.mk.inj h
    exact .nil
  | cons q qs ih =>
    rw [writeEach] at h
    cases hq : write q t v with
    | none =>
      rw [hq] at h
      have hfirst : Does write f [.write p q t v] s
          { s with log := s.log ++ [.write p q t v] } .returned :=
        ⟨[.write p q t v], rfl, fun _ rest k hk => .write hq hk, fun _ h => by cases h⟩
      exact hfirst.append (ih h)
    | some e =>
      rw [hq] at h
      obtain ⟨rfl, rfl⟩ := Prod.mk.inj h
      exact ⟨[.write p q t v], rfl, (fun hr => by cases hr), fun _ _ _ => .threw hq⟩

theorem does_pushEach {push : Nat → PushState V → Option (PushState V × PushEnd)} {ds : List Nat}
    {subscribers destinations : Nat → OrdSet Nat} (hl : Linked subscribers destinations s)
    (hpush : ∀ {d s s' r}, Linked subscribers destinations s → push d s = some (s', r) →
      (∀ q, r ≠ .relocked q) → Linked subscribers destinations s' ∧
        Does write f (Instr.pushBody t v d) s s' r)
    (h : pushEach push ds s = some (s', r)) (hr : ∀ q, r ≠ .relocked q) :
    Does write f (ds.flatMap (Instr.pushBody t v)) s s' r := by
  induction ds generalizing s with
  | nil =>
    obtain ⟨rfl, rfl⟩ := Prod.mk.inj (Option.some.inj h)
    exact .nil
  | cons d ds ih =>
    rw [pushEach] at h
    rw [List.flatMap_cons]
    split at h
    · next s1 hd =>
      obtain ⟨hl1, hdoes⟩ := hpush hl hd returned_ne_relocked
      exact hdoes.append (ih hl1 h)
    · next hne =>
      obtain ⟨-, hdoes⟩ := hpush hl h hr
      cases r with
      | returned => exact absurd h (hne s')
      | threw e => exact hdoes.append_threw _
      | relocked q => exact absurd rfl (hr q)

theorem Does.lock {replicate : Bool}
    (h : Does write f (Instr.deliveries (f.inputPVs p) p t v replicate) s s' r) :
    Does write f [.lockSubscribersList p t v replicate] s s' r := by
  obtain ⟨l, hl, hreturned, hthrew⟩ := h
  exact ⟨l, hl, fun hr rest k hk => .lock (hreturned hr _ _ (.release hk)),
    fun e hr rest => .lock (hthrew e hr _)⟩

theorem does_arrive : Does write f [.push p t v] s (arrive t v p s) .returned := by
  refine ⟨arrival t v p (s.inputPVs p), rfl, fun _ rest k hk => ?_, fun _ h => by cases h⟩
  have hfilter : (arrival t v p (s.inputPVs p)).filter (·.isDelivery) = [.push p t v] := by
    rw [arrival]
    split <;> rfl
  rw [hfilter]
  exact .push hk

/-- **A push of the sequential model** is what the instructions of the call do. -/
theorem does_push {n : Nat} {held : List Nat} (hl : Linked f.subscribers f.destinations s)
    (h : push write t v n held p s = some (s', r)) (hr : ∀ q, r ≠ .relocked q) :
    Does write f (Instr.pushBody t v p) s s' r := by
  induction n generalizing p held s s' r with
  | zero => cases h
  | succ n ih =>
    refine does_arrive.append (Does.lock ?_)
    have hsub : (s.inputPVs p).subscriberOutputPVs = (f.inputPVs p).subscriberOutputPVs :=
      hl.subscribers p
    have hdst : (s.inputPVs p).replicationDestinationPVs =
        (f.inputPVs p).replicationDestinationPVs := hl.destinations p
    rcases push_cases h with ⟨-, -, hrelocked⟩ | ⟨-, e, rfl, hw⟩ | ⟨-, s1, hw, hds⟩
    · exact absurd hrelocked (hr p)
    · rw [hsub] at hw
      exact (does_writeEach hw).append_threw _
    · rw [hsub] at hw
      rw [hdst] at hds
      refine (does_writeEach hw).append ?_
      have hl1 : Linked f.subscribers f.destinations s1 := by
        have hw' : Linked f.subscribers f.destinations
            (writeEach write t v p (f.inputPVs p).subscriberOutputPVs.elems (arrive t v p s)).1 :=
          (hl.arrive p).writeEach p _
        rwa [hw] at hw'
      refine does_pushEach hl1 (fun {d s s' r} hl hd hr => ?_) hds hr
      obtain ⟨l, hframe⟩ := push_frame hd
      exact ⟨hframe.linked hl, ih hl hd hr⟩

/-- **A call** does what the sequential model says. -/
theorem alone_body {c : ThreadCall V} (hc : ∀ op, c ≠ .operate op) {N fuel : Nat}
    (hN : ∀ p, Depth (succ f.destinations) N p) (hfuel : N ≤ fuel)
    (stored : Nat → Timespec × V) :
    Alone write f c.body (c.alone write f stored fuel) := by
  have hl : Linked f.subscribers f.destinations (⟨f.inputPVs, []⟩ : PushState V) :=
    NdsFactory.linked
  cases c with
  | push p t v =>
    obtain ⟨s', r, hpush, -, hr⟩ : ∃ s' r, push write t v fuel [] p ⟨f.inputPVs, []⟩ = some (s', r) ∧
        Linked f.subscribers f.destinations s' ∧ ∀ q, r ≠ .relocked q :=
      push_ends hl ((hN p).mono hfuel) fun _ h => by cases h
    obtain ⟨l, hlog, hreturned, hthrew⟩ := does_push hl hpush hr
    have halone : (ThreadCall.push p t v).alone write f stored fuel =
        l.filter (·.isDelivery) := by
      simp only [ThreadCall.alone, NdsFactory.push, hpush, hlog, List.nil_append]
    rw [halone]
    show Alone write f (Instr.pushBody t v p) _
    cases r with
    | returned => simpa using hreturned rfl [] [] .nil
    | threw e => simpa using hthrew e rfl []
    | relocked q => exact absurd rfl (hr q)
  | setValue p t v =>
    cases hw : writeEach write t v p (f.inputPVs p).subscriberOutputPVs.elems
      ⟨f.inputPVs, []⟩ with
    | mk s' thrown =>
      have hlock : Does write f [.lockSubscribersList p t v false] ⟨f.inputPVs, []⟩ s'
          (.ofLoop thrown) := by
        refine Does.lock ?_
        rw [Instr.deliveries, if_neg Bool.false_ne_true, List.append_nil]
        exact does_writeEach hw
      obtain ⟨l, hlog, hreturned, hthrew⟩ := hlock
      have halone : (ThreadCall.setValue p t v).alone write f stored fuel =
          l.filter (·.isDelivery) := by
        simp only [ThreadCall.alone, Nds3.setValue, hw, hlog, List.nil_append]
      rw [halone]
      refine .store ?_
      cases thrown with
      | none => simpa using hreturned rfl [] [] .nil
      | some e => simpa using hthrew e rfl []
  | operate op => exact absurd rfl (hc op)

theorem alone_releases (l : List (Instr V)) :
    Alone write f (l.filter (·.released.isSome)) [] := by
  induction l with
  | nil => exact .nil
  | cons x l ih =>
    rw [List.filter_cons]
    cases x with
    | release m => exact .release ih
    | _ => exact ih

end

/-! ## Runs -/

def Happened.delivery : Happened V → Option (PushEvent V)
  | .saw ev => if ev.isDelivery then some ev else none
  | _ => none

def Happened.call : Happened V → Option (ThreadCall V)
  | .called c => some c
  | _ => none

namespace Threads

def happened (s : Threads V) (i : Nat) : List (Happened V) :=
  (s.log.filter (·.1 = i)).map Prod.snd

/-- What the thread has delivered. -/
def deliveriesOf (s : Threads V) (i : Nat) : List (PushEvent V) :=
  (s.happened i).filterMap Happened.delivery

def callsOf (s : Threads V) (i : Nat) : List (ThreadCall V) :=
  (s.happened i).filterMap Happened.call

/-- No operation is called, and the output PVs answer as `write` says. -/
def Answering (write : Nat → Timespec → V → Option Exn) (s : Threads V) (e : ThreadEvent V) :
    Prop :=
  NoOperation s e ∧ ∀ i answer p q t v rest, e = .run i answer →
    s.todo i = .write p q t v :: rest → answer = write q t v

variable {names : FullNames} {s s' : Threads V} {e : ThreadEvent V}
  {write : Nat → Timespec → V → Option Exn} {f : NdsFactory} {stored : Nat → Timespec × V}
  {fuel : Nat}

theorem happened_record (s : Threads V) (i : Nat) (l : List (Happened V)) :
    (s.record i l).happened i = s.happened i ++ l := by
  have hall : (l.map (i, ·)).filter (fun x => decide (x.1 = i)) = l.map (i, ·) :=
    List.filter_eq_self.mpr fun x hx => by
      obtain ⟨y, -, rfl⟩ := List.mem_map.mp hx
      exact decide_eq_true rfl
  rw [happened, record, List.filter_append, hall, List.map_append, List.map_map, happened]
  congr 1
  exact List.map_id l

theorem happened_record_of_ne {i j : Nat} (h : j ≠ i) (l : List (Happened V)) :
    (s.record i l).happened j = s.happened j := by
  have hnone : (l.map (i, ·)).filter (fun x => decide (x.1 = j)) = [] :=
    List.filter_eq_nil_iff.mpr fun x hx => by
      obtain ⟨y, -, rfl⟩ := List.mem_map.mp hx
      simpa using Ne.symm h
  rw [happened, record, List.filter_append, hnone, List.append_nil, happened]

/-- What the thread has delivered and has still to deliver is what its calls deliver alone. -/
def OnTrack (write : Nat → Timespec → V → Option Exn) (f : NdsFactory)
    (stored : Nat → Timespec × V) (fuel : Nat) (s : Threads V) (i : Nat) : Prop :=
  ∃ l, Alone write f (s.todo i) l ∧
    (s.callsOf i).flatMap (ThreadCall.alone write f stored fuel) = s.deliveriesOf i ++ l

/-- The step of a thread leaves the others on track, -/
theorem OnTrack.of_ne {i j : Nat} {l : List (Instr V)} {hs : List (Happened V)}
    (h : OnTrack write f stored fuel s j) (hj : j ≠ i) (htodo : s'.todo = Function.update s.todo i l)
    (hlog : s'.log = (s.record i hs).log) : OnTrack write f stored fuel s' j := by
  have hh : s'.happened j = s.happened j := by
    rw [happened, hlog]
    exact happened_record_of_ne hj hs
  rw [OnTrack, callsOf, deliveriesOf, hh, htodo, Function.update_of_ne hj]
  exact h

/-- and stays on track itself, if it delivers what it had to. -/
theorem OnTrack.of_step {i : Nat} {l : List (Instr V)} {hs : List (Happened V)}
    (htodo : s'.todo = Function.update s.todo i l) (hlog : s'.log = (s.record i hs).log)
    {k : List (PushEvent V)} (hk : Alone write f l k)
    (hcalls : (s.callsOf i ++ hs.filterMap Happened.call).flatMap
        (ThreadCall.alone write f stored fuel) =
      s.deliveriesOf i ++ hs.filterMap Happened.delivery ++ k) :
    OnTrack write f stored fuel s' i := by
  have hh : s'.happened i = s.happened i ++ hs := by
    rw [happened, hlog]
    exact happened_record s i hs
  refine ⟨k, ?_, ?_⟩
  · rw [htodo, Function.update_self]
    exact hk
  · rw [callsOf, deliveriesOf, hh, List.filterMap_append, List.filterMap_append]
    exact hcalls

theorem OnTrack.of_run {i : Nat} {l : List (Instr V)} {hs : List (Happened V)}
    (htodo : s'.todo = Function.update s.todo i l) (hlog : s'.log = (s.record i hs).log)
    {d k : List (PushEvent V)} (hk : Alone write f l k) (hcall : hs.filterMap Happened.call = [])
    (hdelivery : hs.filterMap Happened.delivery = d)
    (hcalls : (s.callsOf i).flatMap (ThreadCall.alone write f stored fuel) =
      s.deliveriesOf i ++ (d ++ k)) : OnTrack write f stored fuel s' i := by
  refine .of_step htodo hlog hk ?_
  rw [hcall, hdelivery, List.append_nil, hcalls, List.append_assoc]

/-- The links are those of `f`, and every thread is on track. -/
structure DeliveryInv (write : Nat → Timespec → V → Option Exn) (f : NdsFactory)
    (stored : Nat → Timespec × V) (fuel : Nat) (s : Threads V) : Prop where
  delivering : Delivering s
  subscribers : s.factory.subscribers = f.subscribers
  destinations : s.factory.destinations = f.destinations
  onTrack : ∀ i, OnTrack write f stored fuel s i

theorem DeliveryInv.initial : DeliveryInv write f stored fuel (Threads.initial f stored) :=
  ⟨.initial f stored, rfl, rfl, fun _ => ⟨[], .nil, rfl⟩⟩

/-- **Step lemma.** -/
theorem onTrack_step {N : Nat} (hN : ∀ p, Depth (succ f.destinations) N p) (hfuel : N ≤ fuel)
    (h : DeliveryInv write f stored fuel s) (he : Answering write s e)
    (hs : s.step names e = some s') (j : Nat) : OnTrack write f stored fuel s' j := by
  have hj := h.onTrack j
  have hsilent : ∀ i, s.log = (s.record i []).log := fun i => (List.append_nil _).symm
  cases step_effect hs with
  | @call i c htodo =>
    by_cases hji : j = i
    · subst hji
      obtain ⟨l, hl, hcalls⟩ := hj
      rw [htodo] at hl
      cases hl
      have hc : ∀ op, c ≠ .operate op := fun op hc => by
        subst hc
        exact he.1
      refine .of_step rfl rfl (alone_body hc hN hfuel stored) ?_
      rw [List.flatMap_append, hcalls]
      simp [Happened.call, Happened.delivery]
    · exact hj.of_ne hji rfl rfl
  | @store i p t v answer rest htodo =>
    by_cases hji : j = i
    · subst hji
      obtain ⟨l, hl, hcalls⟩ := hj
      rw [htodo] at hl
      cases hl with
      | store hl => exact .of_run rfl (hsilent j) hl rfl rfl hcalls
    · exact hj.of_ne hji rfl (hsilent i)
  | @push i p t v answer rest htodo =>
    by_cases hji : j = i
    · subst hji
      obtain ⟨l, hl, hcalls⟩ := hj
      rw [htodo] at hl
      cases hl with
      | push hl =>
        refine .of_run (d := [.push p t v]) rfl rfl hl ?_ ?_ hcalls
        · split <;> rfl
        · split <;> rfl
    · exact hj.of_ne hji rfl rfl
  | @lock i p t v replicate answer rest htodo hfree =>
    by_cases hji : j = i
    · subst hji
      obtain ⟨l, hl, hcalls⟩ := hj
      rw [htodo] at hl
      have hsame : Instr.deliveries (s.factory.inputPVs p) p t v replicate =
          Instr.deliveries (f.inputPVs p) p t v replicate := by
        have hsub : (s.factory.inputPVs p).subscriberOutputPVs =
            (f.inputPVs p).subscriberOutputPVs := congrFun h.subscribers p
        have hdst : (s.factory.inputPVs p).replicationDestinationPVs =
            (f.inputPVs p).replicationDestinationPVs := congrFun h.destinations p
        rw [Instr.deliveries, Instr.deliveries, hsub, hdst]
      cases hl with
      | lock hl =>
        rw [← hsame] at hl
        exact .of_run rfl rfl hl rfl rfl hcalls
    · exact hj.of_ne hji rfl rfl
  | @write i p q t v rest htodo =>
    by_cases hji : j = i
    · subst hji
      have hanswer := he.2 j none p q t v rest rfl htodo
      obtain ⟨l, hl, hcalls⟩ := hj
      rw [htodo] at hl
      cases hl with
      | write haccept hl => exact .of_run rfl rfl hl rfl rfl hcalls
      | threw hthrew =>
        rw [hthrew] at hanswer
        cases hanswer
    · exact hj.of_ne hji rfl rfl
  | @threw i p q t v x rest htodo =>
    by_cases hji : j = i
    · subst hji
      have hanswer := he.2 j (some x) p q t v rest rfl htodo
      obtain ⟨l, hl, hcalls⟩ := hj
      rw [htodo] at hl
      cases hl with
      | write haccept hl =>
        rw [haccept] at hanswer
        cases hanswer
      | threw hthrew => exact .of_run rfl rfl (alone_releases rest) rfl rfl hcalls
    · exact hj.of_ne hji rfl rfl
  | @release i m answer rest htodo =>
    by_cases hji : j = i
    · subst hji
      obtain ⟨l, hl, hcalls⟩ := hj
      rw [htodo] at hl
      cases hl with
      | release hl => exact .of_run rfl (hsilent j) hl rfl rfl hcalls
    · exact hj.of_ne hji rfl (hsilent i)
  | @operate i op answer rest g htodo _ _ =>
    exact (h.delivering i (.operate op) (htodo ▸ List.mem_cons_self ..)).elim
  | @refused i op answer rest x htodo _ _ =>
    exact (h.delivering i (.operate op) (htodo ▸ List.mem_cons_self ..)).elim
  | @change i c answer rest htodo _ =>
    exact (h.delivering i (.change c) (htodo ▸ List.mem_cons_self ..)).elim

/-- **Nothing is lost and nothing is doubled.** While the links stay, on an acyclic replication
relation, a thread that is done has delivered what its calls deliver one after the other in the
sequential model; and one that is not has delivered a first part of it. -/
theorem deliveries_alone (hfew : f.FewReplicated)
    (hac : Dag.Acyclic (Edge (succ f.destinations)))
    (h : Lts.Reach (Threads.step names) (Answering write) (Threads.initial f stored) s) :
    ∃ N, ∀ fuel ≥ N, ∀ i,
      s.deliveriesOf i <+: (s.callsOf i).flatMap (ThreadCall.alone write f stored fuel) ∧
      (s.todo i = [] →
        s.deliveriesOf i = (s.callsOf i).flatMap (ThreadCall.alone write f stored fuel)) := by
  obtain ⟨N, hN⟩ := exists_depth_all hfew hac
  refine ⟨N, fun fuel hfuel i => ?_⟩
  have hinv : DeliveryInv write f stored fuel s :=
    h.invariant (I := DeliveryInv write f stored fuel) .initial fun {s s' e} hi he hs => by
      obtain ⟨hdel, hlinks⟩ := hi.delivering.step he.1 hs
      exact ⟨hdel, hlinks.subscribers.trans hi.subscribers,
        hlinks.destinations.trans hi.destinations, onTrack_step hN hfuel hi he hs⟩
  obtain ⟨l, hl, hcalls⟩ := hinv.onTrack i
  refine ⟨⟨l, hcalls.symm⟩, fun hdone => ?_⟩
  rw [hdone] at hl
  cases hl
  rw [hcalls, List.append_nil]

/-- A push waits for the variable that another thread sets. -/
theorem deliveries_alone_diamond :
    ∃ s, Lts.exec (Threads.step ⟨fun _ => "in", fun _ => "out"⟩)
        (Threads.initial diamond fun _ => (⟨0, 0⟩, ""))
        [.call 1 (.push 2 ⟨1, 0⟩ "pushed"), .call 2 (.setValue 4 ⟨2, 0⟩ "set"), .run 2 none,
          .run 1 none, .run 1 none, .run 2 none, .run 1 none, .run 2 none, .run 2 none] = some s ∧
      s.todo 2 = [] ∧ s.deliveriesOf 2 = [.write 4 7 ⟨2, 0⟩ "set"] ∧
      ∃ N, ∀ fuel ≥ N, ∀ i,
        s.deliveriesOf i <+: (s.callsOf i).flatMap
          (ThreadCall.alone (fun _ _ _ => none) diamond (fun _ => (⟨0, 0⟩, "")) fuel) ∧
        (s.todo i = [] → s.deliveriesOf i = (s.callsOf i).flatMap
          (ThreadCall.alone (fun _ _ _ => none) diamond (fun _ => (⟨0, 0⟩, "")) fuel)) := by
  obtain ⟨s, hs⟩ : ∃ s, Lts.exec (Threads.step ⟨fun _ => "in", fun _ => "out"⟩)
    (Threads.initial diamond fun _ => (⟨0, 0⟩, ""))
    [.call 1 (.push 2 ⟨1, 0⟩ "pushed"), .call 2 (.setValue 4 ⟨2, 0⟩ "set"), .run 2 none,
      .run 1 none, .run 1 none, .run 2 none, .run 1 none, .run 2 none, .run 2 none] = some s :=
        ⟨_, rfl⟩
  refine ⟨s, hs, ?_, ?_, deliveries_alone finite_edges_diamond acyclic_edges_diamond
    (Lts.Reach.refl.exec _ (.of_forall fun s e he => ⟨?_, ?_⟩) hs)⟩
  · cases hs
    rfl
  · cases hs
    rfl
  · simp only [List.mem_cons, List.not_mem_nil, or_false] at he
    rcases he with rfl | rfl | rfl | rfl | rfl | rfl | rfl | rfl | rfl <;> trivial
  · rintro i answer p q t v rest rfl -
    simp only [List.mem_cons, List.not_mem_nil, or_false, reduceCtorEq, ThreadEvent.run.injEq,
      false_or] at he
    tauto

end Threads

end Nds3
