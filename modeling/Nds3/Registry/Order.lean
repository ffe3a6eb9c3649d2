import Nds3.Registry.Deadlock

/-!
# The order in which values reach the output PVs

The values a PV delivers are in the order in which its lock was taken for them. An output PV is
written a part of them, in that order and each at most once, whatever is subscribed and
unsubscribed meanwhile (`written_sublist`). One that stays subscribed is written all of them
(`written_eq`), while the subscribers throw nothing: the writes a thread has still to do are those
of one PV, and come before everything else it has to do.
-/

namespace Nds3

open Locks

variable {V : Type*}

/-- The value that the lock of `p` is taken for. -/
def Happened.lockedOf (p : Nat) : Happened V → Option (Timespec × V)
  | .locked x t v => if x = p then some (t, v) else none
  | _ => none

/-- The value that `p` writes `q`. -/
def Happened.writtenOf (p q : Nat) : Happened V → Option (Timespec × V)
  | .saw (.write x y t v) => if x = p ∧ y = q then some (t, v) else none
  | _ => none

/-- The value that `p` is to write `q`. -/
def Instr.writeOf (p q : Nat) : Instr V → Option (Timespec × V)
  | .write x y t v => if x = p ∧ y = q then some (t, v) else none
  | _ => none

namespace Threads

/-- The values that `p` delivers, in the order of its lock. -/
def locked (s : Threads V) (p : Nat) : List (Timespec × V) := s.log.filterMap (·.2.lockedOf p)

/-- The values that `p` has written `q`. -/
def written (s : Threads V) (p q : Nat) : List (Timespec × V) :=
  s.log.filterMap (·.2.writtenOf p q)

/-- The values that the owner of the lock of `p` is to write `q`. -/
def pending (s : Threads V) (p q : Nat) : List (Timespec × V) :=
  match s.owner (.lockSubscribersList p) with
  | none => []
  | some i => (s.todo i).filterMap (Instr.writeOf p q)

end Threads

/-! ## The writes of a thread -/

def NoWrite (l : List (Instr V)) : Prop := ∀ x ∈ l, ∀ p q, Instr.writeOf p q x = none

/-- The writes come first, and are those of one PV whose lock is held. -/
inductive WritesFirst : List (Instr V) → Prop where
  | noWrite {l : List (Instr V)} (h : NoWrite l) : WritesFirst l
  | writes {p : Nat} {t : Timespec} {v : V} {qs : List Nat} {rest : List (Instr V)}
      (hqs : qs.Nodup) (hrest : NoWrite rest)
      (hheld : .lockSubscribersList p ∈ held Instr.released rest) :
      WritesFirst (qs.map (.write p · t v) ++ rest)

section

variable {l rest : List (Instr V)} {x : Instr V} {p q : Nat} {t : Timespec} {v : V}

theorem NoWrite.filterMap (h : NoWrite l) : l.filterMap (Instr.writeOf p q) = [] :=
  List.filterMap_eq_nil_iff.mpr fun x hx => h x hx p q

theorem NoWrite.of_subset {l' : List (Instr V)} (h : NoWrite l) (hl : ∀ x ∈ l', x ∈ l) :
    NoWrite l' := fun x hx => h x (hl x hx)

theorem noWrite_releases (l : List (Instr V)) : NoWrite (l.filter (·.released.isSome)) := by
  intro x hx p q
  have hrel := (List.mem_filter.mp hx).2
  cases x with
  | write => cases hrel
  | _ => rfl

theorem WritesFirst.tail (h : WritesFirst (x :: l)) (hx : ∀ p q, Instr.writeOf p q x = none) :
    NoWrite l := by
  generalize hl : x :: l = l' at h
  cases h with
  | noWrite h => exact (hl ▸ h).of_subset fun y hy => List.mem_cons_of_mem _ hy
  | @writes p t v qs rest hqs hrest hheld =>
    cases qs with
    | nil =>
      have hrest' : NoWrite (x :: l) := hl ▸ hrest
      exact hrest'.of_subset fun y hy => List.mem_cons_of_mem _ hy
    | cons q qs =>
      obtain ⟨rfl, -⟩ := List.cons.inj hl
      have := hx p q
      simp [Instr.writeOf] at this

theorem WritesFirst.of_write (h : WritesFirst (.write p q t v :: l)) :
    WritesFirst l ∧ .lockSubscribersList p ∈ held Instr.released l ∧
      ∀ p' q', p' ≠ p → l.filterMap (Instr.writeOf p' q') = [] := by
  generalize hl : Instr.write p q t v :: l = l' at h
  cases h with
  | noWrite h =>
    have := h (.write p q t v) (hl ▸ List.mem_cons_self ..) p q
    simp [Instr.writeOf] at this
  | @writes p' t' v' qs rest hqs hrest hheld =>
    cases qs with
    | nil =>
      have hrest' : NoWrite (.write p q t v :: l) := hl ▸ hrest
      have := hrest' (.write p q t v) (List.mem_cons_self ..) p q
      simp [Instr.writeOf] at this
    | cons r qs =>
      obtain ⟨hw, rfl⟩ := List.cons.inj hl
      cases hw
      have hnone : ∀ x ∈ qs.map (Instr.write p · t v), x.released = none := by
        intro x hx
        obtain ⟨r, -, rfl⟩ := List.mem_map.mp hx
        rfl
      refine ⟨.writes (List.nodup_cons.mp hqs).2 hrest hheld, ?_, fun p' q' hp => ?_⟩
      · show _ ∈ held Instr.released (qs.map (Instr.write p · t v) ++ rest)
        rw [held_append hnone]
        exact hheld
      · refine List.filterMap_eq_nil_iff.mpr fun x hx => ?_
        rcases List.mem_append.mp hx with hx | hx
        · obtain ⟨r, -, rfl⟩ := List.mem_map.mp hx
          simp [Instr.writeOf, Ne.symm hp]
        · exact hrest x hx p' q'

theorem filterMap_writes {qs : List Nat} (hqs : qs.Nodup) (p' q' : Nat) :
    (qs.map (Instr.write p · t v)).filterMap (Instr.writeOf p' q') =
      if p' = p ∧ q' ∈ qs then [(t, v)] else [] := by
  induction qs with
  | nil => simp
  | cons r qs ih =>
    obtain ⟨hr, hqs⟩ := List.nodup_cons.mp hqs
    rw [List.map_cons, List.filterMap_cons, ih hqs]
    by_cases hp : p = p' ∧ r = q'
    · obtain ⟨rfl, rfl⟩ := hp
      simp [Instr.writeOf, hr]
    · have hiff : (p' = p ∧ q' ∈ r :: qs) ↔ (p' = p ∧ q' ∈ qs) := by
        rw [List.mem_cons]
        refine and_congr_right fun hpp => or_iff_right fun hrq => hp ⟨hpp.symm, hrq.symm⟩
      simp only [hiff]
      simp [Instr.writeOf, hp]

/-- A thread has at most one value to write to an output PV. -/
theorem WritesFirst.length_le (h : WritesFirst l) :
    (l.filterMap (Instr.writeOf p q)).length ≤ 1 := by
  cases h with
  | noWrite h =>
    rw [h.filterMap]
    exact Nat.zero_le 1
  | writes hqs hrest hheld =>
    rw [List.filterMap_append, hrest.filterMap, filterMap_writes hqs, List.append_nil]
    split
    · exact le_refl 1
    · exact Nat.zero_le 1

theorem deliveries_writes {pv : PVBaseIn} {replicate : Bool} (hrest : NoWrite rest) :
    WritesFirst (Instr.deliveries pv p t v replicate ++ .release (.lockSubscribersList p) :: rest) ∧
    ∀ p' q', (Instr.deliveries pv p t v replicate ++
        .release (.lockSubscribersList p) :: rest).filterMap (Instr.writeOf p' q') =
      if p' = p ∧ q' ∈ pv.subscriberOutputPVs then [(t, v)] else [] := by
  let pushes : List (Instr V) :=
    if replicate then pv.replicationDestinationPVs.elems.flatMap (Instr.pushBody t v) else []
  have hpushes : NoWrite (pushes ++ .release (.lockSubscribersList p) :: rest) := by
    intro x hx p' q'
    rcases List.mem_append.mp hx with hx | hx
    · by_cases hr : replicate = true
      · simp only [pushes, if_pos hr] at hx
        obtain ⟨d, -, hx⟩ := List.mem_flatMap.mp hx
        rcases List.mem_pair.mp hx with rfl | rfl <;> rfl
      · simp only [pushes, if_neg hr] at hx
        cases hx
    · rcases List.mem_cons.mp hx with rfl | hx
      · rfl
      · exact hrest x hx p' q'
  have hnone : ∀ x ∈ pushes, x.released = none := by
    intro x hx
    by_cases hr : replicate = true
    · simp only [pushes, if_pos hr] at hx
      obtain ⟨d, -, hx⟩ := List.mem_flatMap.mp hx
      rcases List.mem_pair.mp hx with rfl | rfl <;> rfl
    · simp only [pushes, if_neg hr] at hx
      cases hx
  have hsplit : Instr.deliveries pv p t v replicate ++ .release (.lockSubscribersList p) :: rest =
      pv.subscriberOutputPVs.elems.map (.write p · t v) ++
        (pushes ++ .release (.lockSubscribersList p) :: rest) := by
    rw [Instr.deliveries, List.append_assoc]
  rw [hsplit]
  refine ⟨.writes pv.subscriberOutputPVs.nodup hpushes ?_, fun p' q' => ?_⟩
  · rw [held_append hnone, held_cons_some (show Instr.released (.release _) = some _ from rfl)]
    exact List.mem_cons_self ..
  · rw [List.filterMap_append, hpushes.filterMap, List.append_nil]
    exact filterMap_writes pv.subscriberOutputPVs.nodup p' q'

end

/-! ## The step -/

namespace Threads

variable {names : FullNames} {s s' : Threads V} {e : ThreadEvent V}

theorem writesFirst_update {todo : Nat → List (Instr V)} {i : Nat} {l : List (Instr V)}
    (h : ∀ j, WritesFirst (todo j)) (hl : WritesFirst l) (j : Nat) :
    WritesFirst (Function.update todo i l j) := by
  by_cases hj : j = i
  · rw [hj, Function.update_self]
    exact hl
  · rw [Function.update_of_ne hj]
    exact h j

theorem noWrite_body (c : ThreadCall V) : NoWrite c.body := by
  intro x hx p q
  cases c with
  | push p t v | setValue p t v => rcases List.mem_pair.mp hx with rfl | rfl <;> rfl
  | operate op =>
    rw [List.mem_singleton.mp hx]
    rfl

theorem noWrite_changes {cs : List LinkChange} {m : Mutex} {rest : List (Instr V)}
    (h : NoWrite rest) : NoWrite (cs.map Instr.change ++ .release m :: rest) := by
  intro x hx p q
  rcases List.mem_append.mp hx with hx | hx
  · obtain ⟨c, -, rfl⟩ := List.mem_map.mp hx
    rfl
  · rcases List.mem_cons.mp hx with rfl | hx
    · rfl
    · exact h x hx p q

/-- **Step lemma.** -/
theorem writesFirst_step (h : ∀ i, WritesFirst (s.todo i)) (hs : s.step names e = some s') (j : Nat) :
    WritesFirst (s'.todo j) := by
  have htail : ∀ {i x rest}, s.todo i = x :: rest → (∀ p q, Instr.writeOf p q x = none) →
      NoWrite rest := fun htodo hx => (htodo ▸ h _).tail hx
  cases step_effect hs with
  | call htodo => exact writesFirst_update h (.noWrite (noWrite_body _)) j
  | store htodo => exact writesFirst_update h (.noWrite (htail htodo fun _ _ => rfl)) j
  | push htodo => exact writesFirst_update h (.noWrite (htail htodo fun _ _ => rfl)) j
  | lock htodo hfree =>
    exact writesFirst_update h (deliveries_writes (htail htodo fun _ _ => rfl)).1 j
  | write htodo => exact writesFirst_update h (htodo ▸ h _).of_write.1 j
  | threw htodo => exact writesFirst_update h (.noWrite (noWrite_releases _)) j
  | release htodo => exact writesFirst_update h (.noWrite (htail htodo fun _ _ => rfl)) j
  | operate htodo hfree hok =>
    exact writesFirst_update h (.noWrite (noWrite_changes (htail htodo fun _ _ => rfl))) j
  | refused htodo hfree herror =>
    exact writesFirst_update h (.noWrite (htail htodo fun _ _ => rfl)) j
  | change htodo hfree => exact writesFirst_update h (.noWrite (htail htodo fun _ _ => rfl)) j

/-- The values that `p` has written `q` or is to write it. -/
def delivered (s : Threads V) (p q : Nat) : List (Timespec × V) := s.written p q ++ s.pending p q

/-- What a step is to the values that go from `p` to `q`. -/
inductive Delivery (s : Threads V) (e : ThreadEvent V) (s' : Threads V) (p q : Nat) : Prop where
  | same (hlocked : s'.locked p = s.locked p) (hdelivered : s'.delivered p q = s.delivered p q)
  | locked {t : Timespec} {v : V} (hlocked : s'.locked p = s.locked p ++ [(t, v)])
      (hdelivered : s'.delivered p q = s.delivered p q ++
        if q ∈ s.factory.subscribers p then [(t, v)] else [])
  | threw {i r : Nat} {t : Timespec} {v : V} {x : Exn} {rest : List (Instr V)}
      (he : e = .run i (some x)) (htodo : s.todo i = .write p r t v :: rest)
      (hlocked : s'.locked p = s.locked p)
      (hdelivered : (s'.delivered p q).Sublist (s.delivered p q))

variable {p q : Nat}

theorem locked_append (s : Threads V) (i : Nat) (l : List (Happened V)) :
    (s.record i l).locked p = s.locked p ++ l.filterMap (Happened.lockedOf p) := by
  rw [Threads.locked, record, List.filterMap_append, List.filterMap_map]
  rfl

theorem written_append (s : Threads V) (i : Nat) (l : List (Happened V)) :
    (s.record i l).written p q = s.written p q ++ l.filterMap (Happened.writtenOf p q) := by
  rw [written, record, List.filterMap_append, List.filterMap_map]
  rfl

theorem pending_of_owner {i : Nat} (h : s.owner (.lockSubscribersList p) = some i) :
    s.pending p q = (s.todo i).filterMap (Instr.writeOf p q) := by
  rw [pending, h]

theorem pending_record {i : Nat} {l : List (Instr V)} {hs : List (Happened V)}
    (h : s.owner (.lockSubscribersList p) = some i) :
    ((s.goto i l).record i hs).pending p q = l.filterMap (Instr.writeOf p q) := by
  have hown : ((s.goto i l).record i hs).owner (.lockSubscribersList p) = some i := h
  rw [pending_of_owner hown]
  simp only [record, goto, Function.update_self]

theorem pending_of_free (h : s.owner (.lockSubscribersList p) = none) : s.pending p q = [] := by
  rw [pending, h]

theorem pending_congr (howner : s'.owner (.lockSubscribersList p) = s.owner (.lockSubscribersList p))
    (htodo : ∀ j, (s'.todo j).filterMap (Instr.writeOf p q) =
      (s.todo j).filterMap (Instr.writeOf p q)) : s'.pending p q = s.pending p q := by
  rw [pending, pending, howner]
  cases s.owner (.lockSubscribersList p) with
  | none => rfl
  | some j => exact htodo j

theorem filterMap_update {todo : Nat → List (Instr V)} {i : Nat} {l : List (Instr V)}
    (hl : l.filterMap (Instr.writeOf p q) = (todo i).filterMap (Instr.writeOf p q)) (j : Nat) :
    (Function.update todo i l j).filterMap (Instr.writeOf p q) =
      (todo j).filterMap (Instr.writeOf p q) := by
  by_cases hj : j = i
  · rw [hj, Function.update_self, hl]
  · rw [Function.update_of_ne hj]

/-- A step that neither takes the lock of `p` nor writes `q` for it. -/
theorem Delivery.of_other {i : Nat} {l : List (Happened V)} (hlog : s'.log = (s.record i l).log)
    (hlocked : l.filterMap (Happened.lockedOf p) = [])
    (hwritten : l.filterMap (Happened.writtenOf p q) = [])
    (hpending : s'.pending p q = s.pending p q) : Delivery s e s' p q := by
  have hl : s'.locked p = s.locked p := by
    rw [Threads.locked, hlog]
    exact (locked_append s i l).trans (by rw [hlocked, List.append_nil])
  have hw : s'.written p q = s.written p q := by
    rw [written, hlog]
    exact (written_append s i l).trans (by rw [hwritten, List.append_nil])
  exact .same hl (by rw [delivered, delivered, hw, hpending])

/-- **Step lemma.** -/
theorem delivery_step (hinv : LockInv s) (hfirst : ∀ i, WritesFirst (s.todo i))
    (hs : s.step names e = some s') : Delivery s e s' p q := by
  have htail : ∀ {i x rest}, s.todo i = x :: rest → (∀ p q, Instr.writeOf p q x = none) →
      NoWrite rest := fun htodo hx => (htodo ▸ hfirst _).tail hx
  -- without writes before and after, there are as many for `q`
  have hquiet : ∀ {i : Nat} {x : Instr V} {rest l : List (Instr V)}, s.todo i = x :: rest →
      (∀ p q, Instr.writeOf p q x = none) → NoWrite l →
      l.filterMap (Instr.writeOf p q) = (s.todo i).filterMap (Instr.writeOf p q) := by
    intro i x rest l htodo hx hl
    rw [hl.filterMap, htodo, List.filterMap_cons_none (hx p q), (htail htodo hx).filterMap]
  cases step_effect hs with
  | @call i c htodo =>
    refine .of_other rfl rfl rfl (pending_congr rfl (filterMap_update ?_))
    rw [(noWrite_body c).filterMap, htodo]
    rfl
  | @store i p' t v answer rest htodo =>
    refine .of_other (i := i) (l := []) (by simp [record, goto]) rfl rfl
      (pending_congr rfl (filterMap_update ?_))
    exact hquiet htodo (fun _ _ => rfl) (htail htodo fun _ _ => rfl)
  | @push i p' t v answer rest htodo =>
    refine .of_other rfl ?_ ?_ (pending_congr rfl (filterMap_update ?_))
    · split <;> rfl
    · split <;> rfl
    · exact hquiet htodo (fun _ _ => rfl) (htail htodo fun _ _ => rfl)
  | @lock i p' t v replicate answer rest htodo hfree =>
    have hq := (deliveries_writes (htail htodo fun _ _ => rfl) :
      WritesFirst (Instr.deliveries (s.factory.inputPVs p') p' t v replicate ++
        .release (.lockSubscribersList p') :: rest) ∧ _).2
    by_cases hp : p = p'
    · subst hp
      refine .locked (t := t) (v := v) ?_ ?_
      · refine (locked_append _ i _).trans ?_
        simp [Happened.lockedOf, Threads.locked, own, goto]
      · have hnew := hq p q
        simp only [true_and] at hnew
        rw [delivered, delivered, pending_of_free hfree, List.append_nil]
        congr 1
        · refine (written_append _ i _).trans ?_
          simp [Happened.writtenOf, written, own, goto]
        · refine (pending_of_owner (i := i) (Function.update_self ..)).trans ?_
          simp only [own, goto, record, Function.update_self]
          exact hnew
    · have hne : Mutex.lockSubscribersList p ≠ .lockSubscribersList p' := by simpa using hp
      refine .of_other (i := i) rfl ?_ rfl (pending_congr ?_ (filterMap_update ?_))
      · simp [Happened.lockedOf, Ne.symm hp]
      · exact Function.update_of_ne hne ..
      · rw [hq p q, if_neg fun h => hp h.1, htodo, List.filterMap_cons_none rfl,
          (htail htodo fun _ _ => rfl).filterMap]
  | @write i p' q' t v rest htodo =>
    obtain ⟨-, hheld, -⟩ := (htodo ▸ hfirst i).of_write
    have hown : s.owner (.lockSubscribersList p') = some i :=
      (hinv.owns.iff i _).mpr (by rw [htodo]; exact hheld)
    by_cases hpq : p' = p ∧ q' = q
    · obtain ⟨rfl, rfl⟩ := hpq
      refine .same ((locked_append _ i _).trans (List.append_nil _)) ?_
      have hw : ((s.goto i rest).record i [.saw (.write p' q' t v)]).written p' q' =
          s.written p' q' ++ [(t, v)] := by
        refine (written_append _ i _).trans ?_
        simp [Happened.writtenOf, written, goto]
      have hnew : ((s.goto i rest).record i [.saw (.write p' q' t v)]).pending p' q' =
          rest.filterMap (Instr.writeOf p' q') := pending_record hown
      have hold : s.pending p' q' = (t, v) :: rest.filterMap (Instr.writeOf p' q') := by
        rw [pending_of_owner hown, htodo]
        simp [Instr.writeOf]
      rw [delivered, delivered, hw, hnew, hold, List.append_assoc, List.singleton_append]
    · refine .of_other (i := i) rfl rfl ?_ (pending_congr rfl (filterMap_update ?_))
      · simp [Happened.writtenOf, hpq]
      · rw [htodo, List.filterMap_cons_none]
        simp [Instr.writeOf, hpq]
  | @threw i p' q' t v x rest htodo =>
    obtain ⟨-, hheld, hothers⟩ := (htodo ▸ hfirst i).of_write
    have hown : s.owner (.lockSubscribersList p') = some i :=
      (hinv.owns.iff i _).mpr (by rw [htodo]; exact hheld)
    by_cases hp : p' = p
    · subst hp
      refine .threw rfl htodo ((locked_append _ i _).trans (List.append_nil _)) ?_
      have hnew : ((s.goto i (rest.filter (·.released.isSome))).record i
          [.saw (.write p' q' t v)]).pending p' q = [] :=
        (pending_record hown).trans (noWrite_releases rest).filterMap
      have hold : s.pending p' q = [Happened.saw (.write p' q' t v)].filterMap
          (Happened.writtenOf p' q) ++ rest.filterMap (Instr.writeOf p' q) := by
        rw [pending_of_owner hown, htodo]
        by_cases hq : q' = q <;> simp [Instr.writeOf, Happened.writtenOf, hq]
      rw [delivered, delivered, hnew, hold, written_append, List.append_nil, ← List.append_assoc]
      exact List.sublist_append_left ..
    · refine .of_other (i := i) rfl rfl ?_ (pending_congr rfl (filterMap_update ?_))
      · simp [Happened.writtenOf, hp]
      · rw [(noWrite_releases rest).filterMap, htodo, List.filterMap_cons_none,
          hothers p q (Ne.symm hp)]
        simp [Instr.writeOf, hp]
  | @release i m answer rest htodo =>
    have htodo' : rest.filterMap (Instr.writeOf p q) =
        (s.todo i).filterMap (Instr.writeOf p q) :=
      hquiet htodo (fun _ _ => rfl) (htail htodo fun _ _ => rfl)
    refine .of_other (i := i) (l := []) (by simp [record, goto, own]) rfl rfl ?_
    by_cases hm : m = .lockSubscribersList p
    · subst hm
      have hown : s.owner (.lockSubscribersList p) = some i :=
        (hinv.owns.iff i _).mpr (by rw [htodo]; exact List.mem_cons_self ..)
      rw [pending_of_owner hown, ← htodo', (htail htodo fun _ _ => rfl).filterMap]
      exact pending_of_free (Function.update_self ..)
    · exact pending_congr (Function.update_of_ne (Ne.symm hm) ..) (filterMap_update htodo')
  | @operate i op answer rest f htodo hfree hok =>
    have hne : Mutex.lockSubscribersList p ≠ .lockRegisteredPVs := by simp
    refine .of_other rfl rfl rfl (pending_congr ?_ (filterMap_update ?_))
    · exact Function.update_of_ne hne (some i) s.owner
    · exact hquiet htodo (fun _ _ => rfl) (noWrite_changes (htail htodo fun _ _ => rfl))
  | @refused i op answer rest x htodo hfree herror =>
    refine .of_other rfl rfl rfl (pending_congr rfl (filterMap_update ?_))
    exact hquiet htodo (fun _ _ => rfl) (htail htodo fun _ _ => rfl)
  | @change i c answer rest htodo hfree =>
    refine .of_other (i := i) (l := []) (by simp [record, goto]) rfl rfl
      (pending_congr rfl (filterMap_update ?_))
    exact hquiet htodo (fun _ _ => rfl) (htail htodo fun _ _ => rfl)

/-! ## Runs -/

/-- What the order of the values rests on. -/
structure OrderInv (s : Threads V) : Prop where
  locks : LockInv s
  first : ∀ i, WritesFirst (s.todo i)

theorem OrderInv.initial (f : NdsFactory) (stored : Nat → Timespec × V) :
    OrderInv (initial f stored) :=
  ⟨.initial f stored, fun _ => .noWrite fun _ hx => by cases hx⟩

theorem OrderInv.step (h : OrderInv s) (hs : s.step names e = some s') : OrderInv s' :=
  ⟨h.locks.step hs, writesFirst_step h.first hs⟩

/-- **No value is written twice, and none overtakes another.** Whatever the threads do, what an
input PV has written an output PV is a part of the values its lock was taken for, in that order. -/
theorem written_sublist {f : NdsFactory} {stored : Nat → Timespec × V}
    (h : Lts.Reach (Threads.step names) (fun _ _ => True) (Threads.initial f stored) s)
    (p q : Nat) : (s.written p q).Sublist (s.locked p) := by
  have hinv := h.invariant (I := fun s => OrderInv s ∧ (s.delivered p q).Sublist (s.locked p))
    ⟨.initial f stored, List.Sublist.refl []⟩ fun hi _ hs => by
      refine ⟨hi.1.step hs, ?_⟩
      cases delivery_step (p := p) (q := q) hi.1.locks hi.1.first hs with
      | same hlocked hdelivered =>
        rw [hlocked, hdelivered]
        exact hi.2
      | locked hlocked hdelivered =>
        rw [hlocked, hdelivered]
        refine hi.2.append ?_
        split
        · exact List.Sublist.refl _
        · exact List.nil_sublist _
      | threw he htodo hlocked hdelivered =>
        rw [hlocked]
        exact hdelivered.trans hi.2
  exact (List.sublist_append_left ..).trans hinv.2

/-- Two threads set a variable, one after the other. -/
theorem written_sublist_diamond :
    ∃ s, Lts.exec (Threads.step ⟨fun _ => "in", fun _ => "out"⟩)
        (Threads.initial diamond fun _ => (⟨0, 0⟩, ""))
        [.call 1 (.setValue 4 ⟨1, 0⟩ "first"), .call 2 (.setValue 4 ⟨2, 0⟩ "second"), .run 1 none,
          .run 2 none, .run 2 none, .run 2 none, .run 2 none, .run 1 none] = some s ∧
      s.locked 4 = [(⟨2, 0⟩, "second"), (⟨1, 0⟩, "first")] ∧
      (s.written 4 7).Sublist (s.locked 4) := by
  obtain ⟨s, hs⟩ : ∃ s, Lts.exec (Threads.step ⟨fun _ => "in", fun _ => "out"⟩)
    (Threads.initial diamond fun _ => (⟨0, 0⟩, ""))
    [.call 1 (.setValue 4 ⟨1, 0⟩ "first"), .call 2 (.setValue 4 ⟨2, 0⟩ "second"), .run 1 none,
      .run 2 none, .run 2 none, .run 2 none, .run 2 none, .run 1 none] = some s := ⟨_, rfl⟩
  refine ⟨s, hs, ?_, written_sublist (Lts.Reach.refl.exec _ (.of_forall fun _ _ _ => trivial) hs) ..⟩
  cases hs
  rfl

/-- `q` is subscribed to `p`, and no subscriber of `p` throws. -/
def Accepting (p q : Nat) (s : Threads V) (e : ThreadEvent V) : Prop :=
  q ∈ s.factory.subscribers p ∧ ∀ i x r t v rest, e = .run i (some x) →
    s.todo i ≠ .write p r t v :: rest

/-- **A subscriber is written every value.** While an output PV is subscribed to an input PV and no
subscriber throws, it has been written all the values the lock of the input PV was taken for, in
that order, but the one that its owner, if there is one, is about to write. -/
theorem written_eq {f : NdsFactory} {stored : Nat → Timespec × V} {p q : Nat}
    (h : Lts.Reach (Threads.step names) (Accepting p q) (Threads.initial f stored) s) :
    ∃ pending, s.locked p = s.written p q ++ pending ∧ pending.length ≤ 1 ∧
      (s.owner (.lockSubscribersList p) = none → pending = []) := by
  have hinv := h.invariant (I := fun s => OrderInv s ∧ s.delivered p q = s.locked p)
    ⟨.initial f stored, rfl⟩ fun hi he hs => by
      refine ⟨hi.1.step hs, ?_⟩
      cases delivery_step (p := p) (q := q) hi.1.locks hi.1.first hs with
      | same hlocked hdelivered => rw [hlocked, hdelivered, hi.2]
      | locked hlocked hdelivered => rw [hlocked, hdelivered, hi.2, if_pos he.1]
      | threw heq htodo hlocked hdelivered => exact absurd htodo (he.2 _ _ _ _ _ _ heq)
  refine ⟨s.pending p q, hinv.2.symm, ?_, fun hfree => pending_of_free hfree⟩
  cases hown : s.owner (.lockSubscribersList p) with
  | none =>
    rw [pending_of_free hown]
    exact Nat.zero_le 1
  | some i =>
    rw [pending_of_owner hown]
    exact (hinv.1.first i).length_le

/-- A variable is set, and its subscriber written. -/
theorem written_eq_diamond :
    ∃ s, Lts.exec (Threads.step ⟨fun _ => "in", fun _ => "out"⟩)
        (Threads.initial diamond fun _ => (⟨0, 0⟩, ""))
        [.call 1 (.setValue 4 ⟨1, 0⟩ "value"), .run 1 none, .run 1 none, .run 1 none] = some s ∧
      s.written 4 7 = [(⟨1, 0⟩, "value")] ∧
      ∃ pending, s.locked 4 = s.written 4 7 ++ pending ∧ pending.length ≤ 1 ∧
        (s.owner (.lockSubscribersList 4) = none → pending = []) := by
  obtain ⟨s, hs⟩ : ∃ s, Lts.exec (Threads.step ⟨fun _ => "in", fun _ => "out"⟩)
    (Threads.initial diamond fun _ => (⟨0, 0⟩, ""))
    [.call 1 (.setValue 4 ⟨1, 0⟩ "value"), .run 1 none, .run 1 none, .run 1 none] = some s :=
      ⟨_, rfl⟩
  have hsub : 7 ∈ diamond.subscribers 4 := List.mem_singleton.mpr rfl
  refine ⟨s, hs, ?_, written_eq (Lts.Reach.refl.exec _ ?_ hs)⟩
  · cases hs
    rfl
  · refine ⟨⟨hsub, fun _ _ _ _ _ _ h => by cases h⟩, fun s1 h1 => ?_⟩
    cases h1
    refine ⟨⟨hsub, fun _ _ _ _ _ _ h => by cases h⟩, fun s2 h2 => ?_⟩
    cases h2
    refine ⟨⟨hsub, fun _ _ _ _ _ _ h => by cases h⟩, fun s3 h3 => ?_⟩
    cases h3
    exact ⟨⟨hsub, fun _ _ _ _ _ _ h => by cases h⟩, fun _ _ => trivial⟩

end Threads

end Nds3
