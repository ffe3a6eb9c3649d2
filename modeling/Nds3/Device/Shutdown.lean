import Nds3.Device.Lifecycle

/-!
# The end of the devices

When the process ends, `~NdsFactoryImpl` calls `preDelete` of every factory, which deinitializes the
nodes that are left and deallocates the devices that are left. After an orderly run in which no call
is under way any more these are exactly the devices that `destroyDevice` has not deallocated, so
over its whole life every device is deallocated once, by the function of its own driver
(`deallocated_once`). Only an exception stops it: where `deinitializeRootNode` of a node throws, as
it does for a node that has got a parent, `preDelete` deallocates nothing.
-/

namespace Nds3

/-- The device that is deallocated, and the function that is called for it. -/
def DeviceEvent.deallocates : DeviceEvent → Option (Nat × Nat)
  | .deallocated _ device f => some (device, f)
  | _ => none

namespace DeviceFactory

/-- The last loop of `preDelete`, and the exception that ends it; `throws` gives the one of the
deallocation function of a device. -/
def deallocateDevices (t : Nat) (throws : Nat → Option Exn) :
    List (Sigma fun _ : String => AllocatedDevice) → List DeviceEvent →
      List DeviceEvent × Option Exn
  | [], history => (history, none)
  | ⟨_, _, none, _⟩ :: _, history =>
    (.badFunctionCall t :: history, some ⟨.badFunctionCall, "bad_function_call"⟩)
  | ⟨_, _, some f, device⟩ :: devices, history =>
    match throws device with
    | none => deallocateDevices t throws devices (.deallocated t device f :: history)
    | some e => (.deallocated t device f :: history, some e)

/-- `preDelete`, called in the thread `t`. The keys of `m_heldNodes` are given in their order.
`failure` is the place of the first node whose `deinitializeRootNode` throws, and what it throws. -/
def preDelete (s : DeviceFactory) (t : Nat) (pDevices : List Nat) (failure : Option (Nat × Exn))
    (throws : Nat → Option Exn) : DeviceFactory × Option Exn :=
  let nodes := pDevices.flatMap s.heldNodes
  match failure.filter (·.1 < nodes.length) with
  | some (k, e) =>
    ({ s with history := deinitializeNodes t (nodes.take (k + 1)) s.history }, some e)
  | none =>
    let (history, thrown) := deallocateDevices t throws
      (s.allocatedDevices.entries.insertionSort fun a b => a.1 ≤ b.1)
      (deinitializeNodes t nodes s.history)
    ({ s with heldNodes := fun _ => [], history }, thrown)

/-- No call is under way. -/
def Idle (s : DeviceFactory) : Prop :=
  ∀ t, (s.calls t).creates = none ∧ (s.calls t).destroys = none

/-- The devices that have been deallocated, with the function that was called. -/
def deallocations (history : List DeviceEvent) : List (Nat × Nat) :=
  history.filterMap DeviceEvent.deallocates

section

variable {drivers : String → Option Nat} {history : List DeviceEvent} {device f : Nat}

theorem mem_deallocations :
    (device, f) ∈ deallocations history ↔ ∃ t, .deallocated t device f ∈ history := by
  simp only [deallocations, List.mem_filterMap]
  constructor
  · rintro ⟨e, he, hd⟩
    cases e with
    | deallocated t x g =>
      cases hd
      exact ⟨t, he⟩
    | _ => cases hd
  · rintro ⟨t, ht⟩
    exact ⟨_, ht, rfl⟩

@[simp] theorem deallocations_deinitializeNodes (t : Nat) (nodes : List RootNode) :
    deallocations (deinitializeNodes t nodes history) = deallocations history := by
  induction nodes generalizing history with
  | nil => rfl
  | cons node nodes ih => exact ih

theorem Safe.nodup_deallocations (h : Safe drivers history) :
    ((deallocations history).map Prod.fst).Nodup := by
  induction history with
  | nil => exact List.nodup_nil
  | cons e history ih =>
    cases e with
    | deallocated t device f =>
      refine List.nodup_cons.mpr ⟨fun hmem => ?_, ih h.2⟩
      obtain ⟨⟨x, g⟩, hx, rfl⟩ := List.mem_map.mp hmem
      obtain ⟨u, hu⟩ := mem_deallocations.mp hx
      exact h.1.2 u g hu
    | _ => exact ih h.2

end

/-! ## The devices that are left -/

/-- A device that has been created is in the map until it is deallocated. -/
def Kept (s : DeviceFactory) : Prop :=
  ∀ device d n, .created device d n ∈ s.history →
    (∃ t f, .deallocated t device f ∈ s.history) ∨
      ∃ entry, s.allocatedDevices.lookup n = some entry ∧ entry.createdBy = device

section

variable {controlSystem : String} {drivers : String → Option Nat} {s s' : DeviceFactory}

/-- A step that creates no device. An entry that it takes away is that of no device, or of one that
it deallocates. -/
theorem Kept.mono (h : Kept s) (hsub : ∀ e ∈ s.history, e ∈ s'.history)
    (hnew : ∀ device d n, .created device d n ∈ s'.history → .created device d n ∈ s.history)
    (hmap : ∀ n entry, s.allocatedDevices.lookup n = some entry →
      s'.allocatedDevices.lookup n = some entry ∨
        (∀ d m, .created entry.createdBy d m ∉ s.history) ∨
        ∃ t f, .deallocated t entry.createdBy f ∈ s'.history) : Kept s' := by
  intro device d n hc
  rcases h device d n (hnew device d n hc) with ⟨t, f, hd⟩ | ⟨entry, hn, rfl⟩
  · exact .inl ⟨t, f, hsub _ hd⟩
  · rcases hmap n entry hn with hn' | hnot | hd
    · exact .inr ⟨entry, hn', rfl⟩
    · exact absurd (hnew _ d n hc) (hnot d n)
    · exact .inl hd

theorem Kept.same (h : Kept s) (hhistory : s'.history = s.history)
    (hmap : s'.allocatedDevices = s.allocatedDevices) : Kept s' := by
  refine h.mono (fun e he => hhistory ▸ he) (fun _ _ _ hc => hhistory ▸ hc) fun n entry hn => ?_
  rw [hmap]
  exact .inl hn

/-- A step that deinitializes nodes, and what it may add to the history. -/
theorem Kept.record (h : Kept s) (es : List DeviceEvent) (t : Nat) (nodes : List RootNode)
    (hes : ∀ e ∈ es, ∀ device d n, e ≠ .created device d n)
    (hhistory : s'.history = es ++ deinitializeNodes t nodes s.history)
    (hmap : ∀ n entry, s.allocatedDevices.lookup n = some entry →
      s'.allocatedDevices.lookup n = some entry ∨
        ∃ t f, .deallocated t entry.createdBy f ∈ es) : Kept s' := by
  refine h.mono (fun e he => ?_) (fun device d n hc => ?_) fun n entry hn => ?_
  · rw [hhistory]
    exact List.mem_append_right _ (mem_deinitializeNodes_of_mem he)
  · rw [hhistory] at hc
    rcases List.mem_append.mp hc with hc | hc
    · exact absurd rfl (hes _ hc device d n)
    · exact mem_of_mem_deinitializeNodes hc nofun
  · rcases hmap n entry hn with hn' | ⟨u, f, hd⟩
    · exact .inl hn'
    · exact .inr (.inr ⟨u, f, hhistory ▸ List.mem_append_left _ hd⟩)

theorem Inv.not_created (hi : Inv drivers s) {t : Nat} {n : String} {entry : AllocatedDevice}
    (ht : (s.calls t).creates = some n) (hn : s.allocatedDevices.lookup n = some entry)
    (d m : String) : .created entry.createdBy d m ∉ s.history := by
  intro hc
  have hph := (hi.entries.placeholder t n ht).symm.trans hn
  obtain rfl := Option.some.inj hph
  rw [hi.recorded.created _ d m hc] at ht
  cases ht

/-- **Step lemma.** -/
theorem Kept.step (h : Kept s) (hi : Inv drivers s) {a : DeviceAction}
    (hs : DeviceFactory.step controlSystem drivers s a = some s') : Kept s' := by
  cases step_effect hs with
  | refused _ | driverNotFound _ | driverFound _ _ | constructed _ | held _ | allocationReturned _
  | allocationThrew _ | nullFound _ | notFound _ => exact h.same rfl rfl
  | @published t d n hc hn =>
    refine h.mono (fun _ => id) (fun _ _ _ => id) fun m entry hm => .inl ?_
    have hmn : m ≠ n := by
      rintro rfl
      rw [hn] at hm
      cases hm
    simpa [lookup_insert, hmn] using hm
  | @committed t f p d n hc =>
    have hph := hi.entries.placeholder t n (by rw [hc]; rfl)
    intro device d' m hcr
    rcases List.mem_cons.mp hcr with heq | hold
    · cases heq
      exact .inr ⟨⟨p, some f, t⟩, AList.lookup_insert _, rfl⟩
    · rcases h device d' m hold with ⟨u, g, hd⟩ | ⟨entry, hm, rfl⟩
      · exact .inl ⟨u, g, List.mem_cons_of_mem _ hd⟩
      · by_cases hmn : m = n
        · subst hmn
          exact absurd hold (hi.not_created (by rw [hc]; rfl) hm d' m)
        · exact .inr ⟨entry, by simpa [lookup_insert, hmn] using hm, rfl⟩
  | @rolledBack t n e hc =>
    refine h.mono (fun _ => id) (fun _ _ _ => id) fun m entry hm => ?_
    by_cases hmn : m = n
    · subst hmn
      exact .inr (.inl (hi.not_created (by rw [hc]; rfl) hm))
    · exact .inl (by simpa [lookup_erase, hmn] using hm)
  | @found t n entry hc hn hp =>
    exact h.record [.found t n entry.createdBy] t [] (by simp) rfl fun _ _ hm => .inl hm
  | deinitializeThrew hc => exact h.record [] _ _ (by simp) rfl fun _ _ hm => .inl hm
  | noDevice hc hp => exact h.record [] _ _ (by simp) rfl fun _ _ hm => .inl hm
  | @emptyFunction t p q device n m e hc hp =>
    exact h.record [.badFunctionCall t] t _ (by simp) rfl fun _ _ hm => .inl hm
  | @deallocateThrew t p q f device n m e hc hp =>
    exact h.record [.deallocated t device f] t _ (by simp) rfl fun _ _ hm => .inl hm
  | @destroyed t p q f device n m hc hp =>
    obtain ⟨hm, -⟩ := findPointer_eq_some hp
    refine h.record [.deallocated t device f] t _ (by simp) rfl fun k entry hk => ?_
    by_cases hkm : k = m
    · subst hkm
      rw [hm] at hk
      cases hk
      exact .inr ⟨t, f, List.mem_singleton_self _⟩
    · exact .inl (by simpa [lookup_erase, hkm] using hk)

/-- **Run lemma.** -/
theorem Kept.of_reach
    (h : Lts.Reach (DeviceFactory.step controlSystem drivers)
      (fun s a => Allocates s a ∧ Orderly s a) initial s) : Inv drivers s ∧ Kept s := by
  refine h.invariant (I := fun s => Inv drivers s ∧ Kept s) ⟨Inv.initial, nofun⟩ ?_
  rintro s a s' ⟨hi, hk⟩ hok hs
  exact ⟨hi.step hok.1 hok.2 hs, hk.step hi hs⟩

end

/-! ## The last loop -/

def deallocationOf (x : Sigma fun _ : String => AllocatedDevice) : Nat × Nat :=
  (x.2.createdBy, x.2.deallocationFunction.getD 0)

section

variable {controlSystem : String} {drivers : String → Option Nat} {s : DeviceFactory}
  {t : Nat} {throws : Nat → Option Exn} {history : List DeviceEvent}
  {l : List (Sigma fun _ : String => AllocatedDevice)}

/-- The loop deallocates the devices in their order. It stops early only at a function that
throws. -/
theorem deallocateDevices_eq (t : Nat) (throws : Nat → Option Exn) (history : List DeviceEvent)
    (hl : ∀ x ∈ l, ∃ f, x.2.deallocationFunction = some f) :
    ∃ devices, devices <+: l ∧
      deallocations (deallocateDevices t throws l history).1 =
        (devices.map deallocationOf).reverse ++ deallocations history ∧
      ((deallocateDevices t throws l history).2 = none → devices = l) ∧
      ∀ e, (deallocateDevices t throws l history).2 = some e →
        ∃ x ∈ devices, throws x.2.createdBy = some e := by
  induction l generalizing history with
  | nil => exact ⟨[], List.prefix_rfl, rfl, fun _ => rfl, nofun⟩
  | cons x l ih =>
    obtain ⟨n, p, g, device⟩ := x
    obtain ⟨f, hf⟩ := hl _ (List.mem_cons_self ..)
    dsimp only at hf
    subst hf
    simp only [deallocateDevices]
    cases hthrow : throws device with
    | none =>
      obtain ⟨devices, hdone, hdeallocations, hall, hthrown⟩ :=
        ih (.deallocated t device f :: history) fun x hx => hl x (List.mem_cons_of_mem _ hx)
      refine ⟨⟨n, p, some f, device⟩ :: devices, (List.prefix_cons_inj _).mpr hdone, ?_, ?_, ?_⟩
      · rw [hdeallocations, List.map_cons, List.reverse_cons, List.append_assoc]
        rfl
      · exact fun hnone => congrArg _ (hall hnone)
      · intro e he
        obtain ⟨x, hx, hxe⟩ := hthrown e he
        exact ⟨x, List.mem_cons_of_mem _ hx, hxe⟩
    | some e =>
      refine ⟨[⟨n, p, some f, device⟩], ⟨l, rfl⟩, rfl, nofun, fun e' he' => ?_⟩
      exact ⟨_, List.mem_singleton_self _, hthrow.trans he'⟩

theorem mem_deallocateDevices (hl : ∀ x ∈ l, ∃ f, x.2.deallocationFunction = some f)
    {ev : DeviceEvent} (hev : ev.deallocates = none) :
    ev ∈ (deallocateDevices t throws l history).1 ↔ ev ∈ history := by
  induction l generalizing history with
  | nil => rfl
  | cons x l ih =>
    obtain ⟨n, p, g, device⟩ := x
    obtain ⟨f, hf⟩ := hl _ (List.mem_cons_self ..)
    dsimp only at hf
    subst hf
    have hne : ev ≠ .deallocated t device f := fun h => by
      rw [h] at hev
      cases hev
    simp only [deallocateDevices]
    split
    · rw [ih fun x hx => hl x (List.mem_cons_of_mem _ hx), List.mem_cons, or_iff_right hne]
    · rw [List.mem_cons, or_iff_right hne]

theorem Idle.live (hidle : s.Idle) (hi : Inv drivers s)
    {x : Sigma fun _ : String => AllocatedDevice} (hx : x ∈ s.allocatedDevices.entries) :
    Live drivers s.history x.1 x.2 := by
  rcases hi.entries.entry x.1 x.2 (AList.mem_lookup_iff.mpr hx) with hc | hl
  · rw [(hidle _).1] at hc
    cases hc
  · exact hl

theorem Idle.entry_unique (hidle : s.Idle) (hi : Inv drivers s)
    {x y : Sigma fun _ : String => AllocatedDevice} (hx : x ∈ s.allocatedDevices.entries)
    (hy : y ∈ s.allocatedDevices.entries) (h : x.2.createdBy = y.2.createdBy) : x = y := by
  obtain ⟨d, -, -, -, hcx⟩ := (hidle.live hi hx).created
  obtain ⟨d', -, -, -, hcy⟩ := (hidle.live hi hy).created
  rw [← h] at hcy
  have hname : x.1 = y.1 := (hi.recorded.once _ _ _ _ _ hcx hcy).2
  have hlookup : s.allocatedDevices.lookup y.1 = some x.2 := hname ▸ AList.mem_lookup_iff.mpr hx
  have hentry : x.2 = y.2 :=
    Option.some.inj (hlookup.symm.trans (AList.mem_lookup_iff.mpr hy))
  exact Sigma.ext hname (heq_of_eq hentry)

theorem Idle.function (hidle : s.Idle) (hi : Inv drivers s) :
    ∀ x ∈ s.allocatedDevices.entries.insertionSort fun a b => a.1 ≤ b.1,
      ∃ f, x.2.deallocationFunction = some f := by
  intro x hx
  obtain ⟨-, f, hf, -⟩ := (hidle.live hi ((List.mem_insertionSort _).mp hx)).created
  exact ⟨f, hf⟩

/-- What `preDelete` does: it deallocates devices of the map, which are alive, after those that are
deallocated already, and all of them unless a function throws. -/
theorem Idle.preDelete_eq (hidle : s.Idle) (hi : Inv drivers s) (t : Nat) (pDevices : List Nat)
    (failure : Option (Nat × Exn)) (throws : Nat → Option Exn) :
    ∃ devices : List (Sigma fun _ : String => AllocatedDevice), devices.Nodup ∧
      (∀ x ∈ devices, x ∈ s.allocatedDevices.entries) ∧
      deallocations (s.preDelete t pDevices failure throws).1.history =
        (devices.map deallocationOf).reverse ++ deallocations s.history ∧
      ((s.preDelete t pDevices failure throws).2 = none →
        ∀ x ∈ s.allocatedDevices.entries, x ∈ devices) ∧
      ∀ e, (s.preDelete t pDevices failure throws).2 = some e →
        (∃ k, failure = some (k, e)) ∨ ∃ device, throws device = some e := by
  simp only [preDelete]
  split
  · next k e hfailure =>
    refine ⟨[], List.nodup_nil, nofun, deallocations_deinitializeNodes .., nofun, fun e' he' => ?_⟩
    obtain rfl := Option.some.inj he'
    exact .inl ⟨k, (Option.filter_eq_some_iff.mp hfailure).1⟩
  · obtain ⟨devices, hdone, hdeallocations, hall, hthrown⟩ :=
      deallocateDevices_eq t throws (deinitializeNodes t (pDevices.flatMap s.heldNodes) s.history)
        (hidle.function hi)
    rw [deallocations_deinitializeNodes] at hdeallocations
    refine ⟨devices, ?_, fun x hx => ?_, hdeallocations, fun hnone x hx => ?_, fun e he => ?_⟩
    · exact hdone.sublist.nodup ((List.perm_insertionSort _ _).nodup_iff.mpr
        s.allocatedDevices.nodupKeys.nodup)
    · exact (List.mem_insertionSort _).mp (hdone.subset hx)
    · rw [hall hnone]
      exact (List.mem_insertionSort _).mpr hx
    · obtain ⟨x, -, hx⟩ := hthrown e he
      exact .inr ⟨_, hx⟩

theorem Idle.mem_preDelete (hidle : s.Idle) (hi : Inv drivers s) {pDevices : List Nat}
    {failure : Option (Nat × Exn)} {ev : DeviceEvent} (hev : ev.deallocates = none)
    (hnode : ∀ node, ev ≠ .deinitialized t node) :
    ev ∈ (s.preDelete t pDevices failure throws).1.history ↔ ev ∈ s.history := by
  have hmem : ∀ nodes, ev ∈ deinitializeNodes t nodes s.history ↔ ev ∈ s.history := fun nodes =>
    ⟨fun h => mem_of_mem_deinitializeNodes h hnode, mem_deinitializeNodes_of_mem⟩
  simp only [preDelete]
  split
  · exact hmem _
  · exact (mem_deallocateDevices (hidle.function hi) hev).trans (hmem _)

theorem Inv.created_of_deallocations (hi : Inv drivers s) {device f : Nat}
    (h : (device, f) ∈ deallocations s.history) :
    ∃ d n, .created device d n ∈ s.history ∧ drivers d = some f := by
  obtain ⟨u, hu⟩ := mem_deallocations.mp h
  obtain ⟨before, hbefore, ⟨n, d, -, hc, hdf⟩, -⟩ := hi.recorded.safe.of_mem hu
  exact ⟨d, n, hbefore _ hc, hdf⟩

/-- **Every device is deallocated once.** After an orderly run in which every call has returned,
`preDelete` deallocates the devices that are left: over the whole life of the factory no device is
deallocated twice, and the devices that are deallocated are those that were created, each by the
function of its own driver. Only a function that throws keeps the rest from being deallocated, and
no empty function is called. -/
theorem deallocated_once
    (h : Lts.Reach (step controlSystem drivers) (fun s a => Allocates s a ∧ Orderly s a) initial s)
    (hidle : s.Idle) (t : Nat) (pDevices : List Nat) (failure : Option (Nat × Exn))
    (throws : Nat → Option Exn) :
    let r := s.preDelete t pDevices failure throws
    ((deallocations r.1.history).map Prod.fst).Nodup ∧
    (∀ device f, (device, f) ∈ deallocations r.1.history →
      ∃ d n, .created device d n ∈ r.1.history ∧ drivers d = some f) ∧
    (r.2 = none → ∀ device d n, .created device d n ∈ r.1.history →
      ∃ f, drivers d = some f ∧ (device, f) ∈ deallocations r.1.history) ∧
    (∀ e, r.2 = some e → (∃ k, failure = some (k, e)) ∨ ∃ device, throws device = some e) ∧
    ∀ u, .badFunctionCall u ∉ r.1.history := by
  intro r
  obtain ⟨hi, hkept⟩ := Kept.of_reach h
  obtain ⟨devices, hnodup, hsub, hdeallocations, hall, hthrown⟩ :=
    hidle.preDelete_eq hi t pDevices failure throws
  have hcreated : ∀ device d n,
      .created device d n ∈ r.1.history ↔ .created device d n ∈ s.history :=
    fun _ _ _ => hidle.mem_preDelete hi rfl nofun
  have hbad : ∀ u, .badFunctionCall u ∉ r.1.history := fun u hu => by
    replace hu := (hidle.mem_preDelete hi rfl fun _ h => by cases h).mp hu
    obtain ⟨_, -, hright⟩ := hi.recorded.safe.of_mem hu
    exact hright
  simp only [hcreated]
  simp only [r, hdeallocations, List.mem_append, List.mem_reverse, List.mem_map, deallocationOf,
    Prod.mk.injEq]
  refine ⟨?_, ?_, ?_, hthrown, hbad⟩
  · -- the devices left are alive, and each has one entry
    rw [List.map_append, List.map_reverse, List.map_map]
    refine List.Nodup.append ?_ hi.recorded.safe.nodup_deallocations ?_
    · rw [List.nodup_reverse]
      exact hnodup.map_on fun x hx y hy => hidle.entry_unique hi (hsub x hx) (hsub y hy)
    · intro device hnew hold
      obtain ⟨x, hx, rfl⟩ := List.mem_map.mp (List.mem_reverse.mp hnew)
      obtain ⟨⟨device, f⟩, hmem, hdevice⟩ := List.mem_map.mp hold
      obtain rfl : device = x.2.createdBy := hdevice
      obtain ⟨u, hu⟩ := mem_deallocations.mp hmem
      exact (hidle.live hi (hsub x hx)).alive u f hu
  · rintro device f (⟨x, hx, rfl, rfl⟩ | hold)
    · obtain ⟨d, g, hg, hdg, hc⟩ := (hidle.live hi (hsub x hx)).created
      exact ⟨d, x.1, hc, by rw [hg, hdg, Option.getD_some]⟩
    · exact hi.created_of_deallocations hold
  · intro hnone device d n hc
    rcases hkept device d n hc with ⟨u, f, hu⟩ | ⟨entry, hn, rfl⟩
    · have hmem := mem_deallocations.mpr ⟨u, hu⟩
      obtain ⟨d', n', hc', hdf⟩ := hi.created_of_deallocations hmem
      obtain ⟨rfl, -⟩ := hi.recorded.once _ _ _ _ _ hc hc'
      exact ⟨f, hdf, .inr hmem⟩
    · have hentry := AList.mem_lookup_iff.mp hn
      obtain ⟨d', f, hf, hdf, hc'⟩ := (hidle.live hi hentry).created
      obtain ⟨rfl, -⟩ := hi.recorded.once _ _ _ _ _ hc hc'
      exact ⟨f, hdf, .inl ⟨_, hall hnone _ hentry, rfl, congrArg (Option.getD · 0) hf⟩⟩

/-- Of two devices one is destroyed in the run and the other by `preDelete`. -/
theorem deallocated_once_two :
    ∃ s, Lts.exec (step "cs" fun _ => some 7) initial [.createDevice 0 "driver" "a",
        .findDriver 0, .construct 0 5, .allocationReturns 0, .commit 0,
        .createDevice 1 "driver" "b", .findDriver 1, .construct 1 6, .holdNode 1 9,
        .allocationReturns 1, .commit 1, .destroyDevice 2 "a", .destroyPointer 2 none] = some s ∧
      (s.preDelete 3 [6] none fun _ => none).2 = none ∧
      deallocations (s.preDelete 3 [6] none fun _ => none).1.history = [(1, 7), (0, 7)] ∧
      ((deallocations (s.preDelete 3 [6] none fun _ => none).1.history).map Prod.fst).Nodup := by
  refine ⟨_, rfl, rfl, rfl, ?_⟩
  have h0 : Lts.Reach (step "cs" fun _ => some 7) (fun s a => Allocates s a ∧ Orderly s a)
      initial _ := .refl
  have h1 := h0.exec [.createDevice 0 "driver" "a", .findDriver 0]
    (.of_forall (by simp [Allocates, Orderly])) rfl
  have h2 := h1.step (e := DeviceAction.construct 0 5)
    ⟨.of_entries (l := [⟨"a", 0, none, 0⟩]) rfl (by decide) (by simp)
      fun u h => (by cases u <;> cases h), rfl, fun u n h => by cases u <;> cases h⟩ rfl
  have h3 := h2.exec [.allocationReturns 0, .commit 0, .createDevice 1 "driver" "b", .findDriver 1]
    (.of_forall (by simp [Allocates, Orderly])) rfl
  have h4 := h3.step (e := DeviceAction.construct 1 6)
    ⟨.of_entries (l := [⟨"b", 0, none, 1⟩, ⟨"a", 5, some 7, 0⟩]) rfl (by decide) (by simp)
      fun u h => (by rcases u with _ | _ | u <;> cases h),
      rfl, fun u n h => by rcases u with _ | _ | u <;> cases h⟩ rfl
  have h5 := h4.exec [.holdNode 1 9, .allocationReturns 1, .commit 1, .destroyDevice 2 "a"]
    (.of_forall (by simp [Allocates, Orderly])) rfl
  have h6 := h5.step (e := DeviceAction.destroyPointer 2 none)
    ⟨trivial, fun n h => (by cases h), fun e h => (by cases h)⟩ rfl
  refine (deallocated_once h6 (fun u => ?_) 3 [6] none fun _ => none).1
  rcases u with _ | _ | _ | u <;> exact ⟨rfl, rfl⟩

end

end DeviceFactory

end Nds3
