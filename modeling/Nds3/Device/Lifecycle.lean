import Nds3.Device.Factory

/-!
# The lifecycle of the devices

`destroyDevice` looks a name up and destroys by pointer in a second section. In between the device
may be destroyed and its address used again, and the null pointer is that of every placeholder.
Where no address is used again too early, and no null pointer is destroyed while a device is being
created, every call of `destroyDevice` deals with the device it has found (`devices_safe`).
-/

namespace Nds3

namespace DeviceFactory

variable (drivers : String → Option Nat)

/-- An event is right after those of the history. -/
def Right (history : List DeviceEvent) : DeviceEvent → Prop
  | .created _ _ _ => True
  | .found _ deviceName device =>
    (∃ driverName, .created device driverName deviceName ∈ history) ∧
    ∀ t f, .deallocated t device f ∉ history
  | .deinitialized t node => ∃ deviceName, .found t deviceName node.createdBy ∈ history
  | .deallocated t device f =>
    (∃ deviceName driverName, .found t deviceName device ∈ history ∧
      .created device driverName deviceName ∈ history ∧ drivers driverName = some f) ∧
    ∀ t' f', .deallocated t' device f' ∉ history
  | .badFunctionCall _ => False

/-- Every event is right. -/
def Safe : List DeviceEvent → Prop
  | [] => True
  | e :: history => Right drivers history e ∧ Safe history

/-- Allocation functions make their objects at addresses that are not null and that no live device
has. -/
def Allocates (s : DeviceFactory) : DeviceAction → Prop
  | .construct _ p => p ≠ 0 ∧
    (∀ n entry, s.allocatedDevices.lookup n = some entry → entry.pDevice ≠ p) ∧
    ∀ t, (s.calls t).object ≠ some p
  | _ => True

/-- An allocation function makes no object at an address that is on its way to be destroyed, or
that nodes are still held for. No null pointer is destroyed while there is a placeholder, and no
deallocation function throws. -/
def Orderly (s : DeviceFactory) : DeviceAction → Prop
  | .construct _ p => s.heldNodes p = [] ∧ ∀ t n, (s.calls t).destroys ≠ some (n, p)
  | .destroyPointer t failure =>
    (∀ n, s.calls t = .destroying n 0 →
      ∀ m entry, s.allocatedDevices.lookup m = some entry → entry.pDevice ≠ 0) ∧
    ∀ e, failure ≠ some (.deallocationFunction e)
  | _ => True

/-! ## The invariant -/

/-- The device of the call is at the address: it is in the map, or being made. -/
def Owner (s : DeviceFactory) (p device : Nat) : Prop :=
  (∃ n entry, s.allocatedDevices.lookup n = some entry ∧ entry.createdBy = device ∧
    entry.pDevice = p ∧ p ≠ 0) ∨
  (s.calls device).object = some p

/-- No address has two owners, and the nodes held at an address are those of its owner. -/
structure Addresses (s : DeviceFactory) : Prop where
  notNull : ∀ p device, s.Owner p device → p ≠ 0
  unique : ∀ p device device', s.Owner p device → s.Owner p device' → device = device'
  held : ∀ p, ∀ node ∈ s.heldNodes p, p ≠ 0 ∧ ∀ device, s.Owner p device → node.createdBy = device

/-- The entry is that of a live device. -/
structure Live (history : List DeviceEvent) (n : String) (entry : AllocatedDevice) : Prop where
  pDevice : entry.pDevice ≠ 0
  created : ∃ d f, entry.deallocationFunction = some f ∧ drivers d = some f ∧
    .created entry.createdBy d n ∈ history
  alive : ∀ t f, .deallocated t entry.createdBy f ∉ history

/-- Every entry is the placeholder of a call or that of a live device. -/
structure Entries (s : DeviceFactory) : Prop where
  placeholder : ∀ t n, (s.calls t).creates = some n →
    s.allocatedDevices.lookup n = some ⟨0, none, t⟩
  entry : ∀ n entry, s.allocatedDevices.lookup n = some entry →
    (s.calls entry.createdBy).creates = some n ∨ Live drivers s.history n entry

/-- The calls that have created a device have returned, and the history is right. -/
structure Recorded (s : DeviceFactory) : Prop where
  driver : ∀ t d f, (s.calls t).driver = some (d, f) → drivers d = some f
  created : ∀ device d n, .created device d n ∈ s.history → s.calls device = .returned
  once : ∀ device d n d' n', .created device d n ∈ s.history →
    .created device d' n' ∈ s.history → d = d' ∧ n = n'
  safe : Safe drivers s.history

/-- What is known of a call between its two sections: nobody but the device it has found can be at
the address. -/
def Destroying (s : DeviceFactory) (t : Nat) (n : String) (p : Nat) : Prop :=
  ∃ device d, .found t n device ∈ s.history ∧ .created device d n ∈ s.history ∧
    (∀ x, s.Owner p x → x = device) ∧ ∀ node ∈ s.heldNodes p, node.createdBy = device

/-- The invariant of the orderly runs. -/
structure Inv (s : DeviceFactory) : Prop where
  addresses : s.Addresses
  entries : Entries drivers s
  recorded : Recorded drivers s
  destroying : ∀ t n p, (s.calls t).destroys = some (n, p) → p ≠ 0 → s.Destroying t n p

variable {drivers}

/-! ### Histories -/

theorem Safe.of_mem {history : List DeviceEvent} (h : Safe drivers history) {e : DeviceEvent}
    (he : e ∈ history) :
    ∃ before, (∀ x ∈ before, x ∈ history) ∧ Right drivers before e := by
  induction history with
  | nil => cases he
  | cons e' history ih =>
    rcases List.mem_cons.mp he with rfl | he
    · exact ⟨history, fun x => List.mem_cons_of_mem _, h.1⟩
    · obtain ⟨before, hsub, hright⟩ := ih h.2 he
      exact ⟨before, fun x hx => List.mem_cons_of_mem _ (hsub x hx), hright⟩

theorem Safe.created_of_deallocated {history : List DeviceEvent} (h : Safe drivers history)
    {t device f : Nat} (he : .deallocated t device f ∈ history) :
    ∃ d n, .created device d n ∈ history := by
  obtain ⟨before, hsub, ⟨n, d, -, hc, -⟩, -⟩ := h.of_mem he
  exact ⟨d, n, hsub _ hc⟩

theorem mem_deinitializeNodes {t : Nat} {nodes : List RootNode} {history : List DeviceEvent}
    {e : DeviceEvent} : e ∈ deinitializeNodes t nodes history ↔
      e ∈ history ∨ ∃ node ∈ nodes, e = .deinitialized t node := by
  induction nodes generalizing history with
  | nil => simp [deinitializeNodes]
  | cons node nodes ih =>
    rw [deinitializeNodes, List.foldl_cons, ← deinitializeNodes, ih]
    simp only [List.mem_cons, exists_eq_or_imp]
    tauto

theorem mem_deinitializeNodes_of_mem {t : Nat} {nodes : List RootNode} {history : List DeviceEvent}
    {e : DeviceEvent} (h : e ∈ history) : e ∈ deinitializeNodes t nodes history :=
  mem_deinitializeNodes.mpr (.inl h)

theorem mem_of_mem_deinitializeNodes {t : Nat} {nodes : List RootNode} {history : List DeviceEvent}
    {e : DeviceEvent} (h : e ∈ deinitializeNodes t nodes history)
    (hne : ∀ node, e ≠ .deinitialized t node) : e ∈ history :=
  (mem_deinitializeNodes.mp h).resolve_right fun ⟨node, _, hnode⟩ => hne node hnode

theorem Safe.deinitializeNodes {t : Nat} {nodes : List RootNode} {history : List DeviceEvent}
    (h : Safe drivers history)
    (hn : ∀ node ∈ nodes, ∃ n, .found t n node.createdBy ∈ history) :
    Safe drivers (deinitializeNodes t nodes history) := by
  induction nodes generalizing history with
  | nil => exact h
  | cons node nodes ih =>
    refine ih ⟨hn node (List.mem_cons_self ..), h⟩ fun m hm => ?_
    obtain ⟨n, hfound⟩ := hn m (List.mem_cons_of_mem _ hm)
    exact ⟨n, List.mem_cons_of_mem _ hfound⟩

theorem Live.mono {history history' : List DeviceEvent} {n : String} {entry : AllocatedDevice}
    (h : Live drivers history n entry) (hsub : ∀ e ∈ history, e ∈ history')
    (hdead : ∀ t f, .deallocated t entry.createdBy f ∈ history' →
      .deallocated t entry.createdBy f ∈ history) : Live drivers history' n entry := by
  obtain ⟨d, f, hf, hdf, hcreated⟩ := h.created
  exact ⟨h.pDevice, ⟨d, f, hf, hdf, hsub _ hcreated⟩, fun t f ht => h.alive t f (hdead t f ht)⟩

/-! ### The parts of the invariant

A step is given by what it makes of the calls, the map, the held nodes and the history. -/

section

variable {s s' : DeviceFactory} {t : Nat} {c : Call} {d n : String} {p : Nat}

/-- What a call has, it had before, if it is not one that went on and came to have it. -/
theorem of_update {γ : Type} (g : Call → Option γ) (hcalls : s'.calls = Function.update s.calls t c)
    (hc : g c = none ∨ g c = g (s.calls t)) {u : Nat} {x : γ} (h : g (s'.calls u) = some x) :
    g (s.calls u) = some x := by
  rw [hcalls, Function.update_apply] at h
  split at h
  · next hut =>
    rcases hc with hc | hc
    · exact nomatch hc.symm.trans h
    · rw [hut, ← hc, h]
  · exact h

theorem creates_update (hcalls : s'.calls = Function.update s.calls t c)
    (hc : c.creates = (s.calls t).creates) (u : Nat) :
    (s'.calls u).creates = (s.calls u).creates := by
  rw [hcalls, Function.update_apply]
  split
  · next hut => rw [hut]; exact hc
  · rfl

theorem Owner.of_lookup {entry : AllocatedDevice} (h : s.allocatedDevices.lookup n = some entry)
    (hp : entry.pDevice ≠ 0) : s.Owner entry.pDevice entry.createdBy :=
  .inl ⟨n, entry, h, rfl, rfl, hp⟩

theorem Owner.mono {device : Nat} (h : s'.Owner p device)
    (hmap : ∀ n entry, s'.allocatedDevices.lookup n = some entry → entry.pDevice ≠ 0 →
      s.Owner entry.pDevice entry.createdBy)
    (hobject : (s'.calls device).object = some p → (s.calls device).object = some p) :
    s.Owner p device := by
  rcases h with ⟨n, entry, hn, rfl, rfl, hp⟩ | h
  · exact hmap n entry hn hp
  · exact .inr (hobject h)

theorem Addresses.mono (h : s.Addresses) (hown : ∀ p x, s'.Owner p x → s.Owner p x)
    (hheld : ∀ p, ∀ node ∈ s'.heldNodes p, node ∈ s.heldNodes p) : s'.Addresses where
  notNull p x hx := h.notNull p x (hown p x hx)
  unique p x y hx hy := h.unique p x y (hown p x hx) (hown p y hy)
  held p node hnode :=
    have hold := h.held p node (hheld p node hnode)
    ⟨hold.1, fun x hx => hold.2 x (hown p x hx)⟩

theorem Addresses.construct (h : s.Addresses) (hp : p ≠ 0) (hnone : ∀ x, ¬s.Owner p x)
    (hempty : s.heldNodes p = [])
    (hown : ∀ q x, s'.Owner q x → s.Owner q x ∨ (q = p ∧ x = t))
    (hheld : s'.heldNodes = s.heldNodes) : s'.Addresses where
  notNull q x hx := by
    rcases hown q x hx with hx | ⟨rfl, -⟩
    · exact h.notNull q x hx
    · exact hp
  unique q x y hx hy := by
    rcases hown q x hx with hx | ⟨rfl, rfl⟩
    · rcases hown q y hy with hy | ⟨rfl, -⟩
      · exact h.unique q x y hx hy
      · exact absurd hx (hnone x)
    · rcases hown q y hy with hy | ⟨-, rfl⟩
      · exact absurd hy (hnone y)
      · rfl
  held q node hnode := by
    rw [hheld] at hnode
    obtain ⟨hq, howner⟩ := h.held q node hnode
    refine ⟨hq, fun x hx => ?_⟩
    rcases hown q x hx with hx | ⟨rfl, -⟩
    · exact howner x hx
    · rw [hempty] at hnode
      cases hnode

theorem Addresses.hold (h : s.Addresses) {node : Nat} (ht : s.Owner p t)
    (hown : ∀ q x, s'.Owner q x → s.Owner q x)
    (hheld : s'.heldNodes = Function.update s.heldNodes p (s.heldNodes p ++ [⟨t, node⟩])) :
    s'.Addresses where
  notNull q x hx := h.notNull q x (hown q x hx)
  unique q x y hx hy := h.unique q x y (hown q x hx) (hown q y hy)
  held q x hx := by
    rw [hheld, Function.update_apply] at hx
    split at hx
    · next hqp =>
      subst hqp
      rcases List.mem_append.mp hx with hx | hx
      · obtain ⟨hq, howner⟩ := h.held q x hx
        exact ⟨hq, fun y hy => howner y (hown q y hy)⟩
      · rw [List.mem_singleton.mp hx]
        exact ⟨h.notNull q t ht, fun y hy => h.unique q t y ht (hown q y hy)⟩
    · obtain ⟨hq, howner⟩ := h.held q x hx
      exact ⟨hq, fun y hy => howner y (hown q y hy)⟩

theorem Entries.mono (h : Entries drivers s)
    (hcreates : ∀ u, (s'.calls u).creates = (s.calls u).creates)
    (hmap : ∀ m x, s'.allocatedDevices.lookup m = some x → s.allocatedDevices.lookup m = some x)
    (hplaceholder : ∀ u m, (s.calls u).creates = some m →
      s'.allocatedDevices.lookup m = s.allocatedDevices.lookup m)
    (hlive : ∀ m x, s'.allocatedDevices.lookup m = some x → Live drivers s.history m x →
      Live drivers s'.history m x) : Entries drivers s' where
  placeholder u m hu := by
    rw [hcreates] at hu
    rw [hplaceholder u m hu, h.placeholder u m hu]
  entry m x hx := by
    rw [hcreates]
    exact (h.entry m x (hmap m x hx)).imp_right (hlive m x hx)

theorem Entries.publish (h : Entries drivers s) (ht : (s.calls t).creates = none)
    (hn : s.allocatedDevices.lookup n = none)
    (hcalls : s'.calls = Function.update s.calls t (.creating d n))
    (hlookup : ∀ m, s'.allocatedDevices.lookup m =
      if m = n then some ⟨0, none, t⟩ else s.allocatedDevices.lookup m)
    (hhistory : s'.history = s.history) : Entries drivers s' where
  placeholder u m hu := by
    rw [hcalls, Function.update_apply] at hu
    rw [hlookup]
    split at hu
    · next hut => rw [if_pos (Option.some.inj hu).symm, hut]
    · have hm := h.placeholder u m hu
      rw [if_neg, hm]
      rintro rfl
      exact nomatch hn.symm.trans hm
  entry m x hx := by
    rw [hlookup] at hx
    rw [hcalls, Function.update_apply, hhistory]
    split at hx
    · next hmn =>
      obtain rfl := Option.some.inj hx
      exact .inl (by rw [if_pos rfl, hmn]; rfl)
    · refine (h.entry m x hx).imp_left fun hc => ?_
      rw [if_neg]
      · exact hc
      · intro hxt
        rw [hxt, ht] at hc
        cases hc

theorem Entries.finish (h : Entries drivers s) (ht : (s.calls t).creates = some n)
    (hc : c.creates = none) (hcalls : s'.calls = Function.update s.calls t c)
    (hlookup : ∀ m, m ≠ n → s'.allocatedDevices.lookup m = s.allocatedDevices.lookup m)
    (hn : ∀ x, s'.allocatedDevices.lookup n = some x → Live drivers s'.history n x)
    (hlive : ∀ m x, Live drivers s.history m x → Live drivers s'.history m x) :
    Entries drivers s' where
  placeholder u m hu := by
    rw [hcalls, Function.update_apply] at hu
    split at hu
    · exact nomatch hc.symm.trans hu
    · next hut =>
      rw [hlookup m, h.placeholder u m hu]
      rintro rfl
      have hsame := (h.placeholder u m hu).symm.trans (h.placeholder t m ht)
      exact hut (congrArg AllocatedDevice.createdBy (Option.some.inj hsame))
  entry m x hx := by
    by_cases hmn : m = n
    · subst hmn
      exact .inr (hn x hx)
    · rw [hlookup m hmn] at hx
      refine (h.entry m x hx).imp (fun hcr => ?_) (hlive m x)
      rw [hcalls, Function.update_of_ne]
      · exact hcr
      · intro hxt
        exact hmn (Option.some.inj ((hxt ▸ hcr).symm.trans ht))

theorem Recorded.mono (h : Recorded drivers s) (hcalls : s'.calls = Function.update s.calls t c)
    (hne : s.calls t ≠ .returned) (hdriver : ∀ d f, c.driver = some (d, f) → drivers d = some f)
    (hcreated : ∀ x d n, .created x d n ∈ s'.history → .created x d n ∈ s.history)
    (hsafe : Safe drivers s'.history) : Recorded drivers s' where
  driver u d f hu := by
    rw [hcalls, Function.update_apply] at hu
    split at hu
    · exact hdriver d f hu
    · exact h.driver u d f hu
  created x d n hx := by
    have hold := h.created x d n (hcreated x d n hx)
    rw [hcalls, Function.update_of_ne]
    · exact hold
    · rintro rfl
      exact hne hold
  once x d n d' n' hx hx' := h.once x d n d' n' (hcreated x d n hx) (hcreated x d' n' hx')
  safe := hsafe

theorem Recorded.commit (h : Recorded drivers s) (hne : s.calls t ≠ .returned)
    (hcalls : s'.calls = Function.update s.calls t .returned)
    (hhistory : s'.history = .created t d n :: s.history) : Recorded drivers s' where
  driver u d f hu := by
    rw [hcalls, Function.update_apply] at hu
    split at hu
    · cases hu
    · exact h.driver u d f hu
  created x d' n' hx := by
    rw [hcalls, Function.update_apply]
    rw [hhistory] at hx
    split
    · rfl
    · next hxt =>
      rcases List.mem_cons.mp hx with hx | hx
      · cases hx
        exact absurd rfl hxt
      · exact h.created x d' n' hx
  once x d1 n1 d2 n2 hx hx' := by
    rw [hhistory] at hx hx'
    rcases List.mem_cons.mp hx with hx | hx <;> rcases List.mem_cons.mp hx' with hx' | hx'
    · cases hx
      cases hx'
      exact ⟨rfl, rfl⟩
    · cases hx
      exact absurd (h.created _ _ _ hx') hne
    · cases hx'
      exact absurd (h.created _ _ _ hx) hne
    · exact h.once x d1 n1 d2 n2 hx hx'
  safe := by
    rw [hhistory]
    exact ⟨trivial, h.safe⟩

theorem Destroying.mono (h : s.Destroying t n p) (hown : ∀ x, s'.Owner p x → s.Owner p x)
    (hheld : ∀ node ∈ s'.heldNodes p, node ∈ s.heldNodes p)
    (hsub : ∀ e ∈ s.history, e ∈ s'.history) : s'.Destroying t n p := by
  obtain ⟨device, d, hfound, hcreated, howner, hnodes⟩ := h
  exact ⟨device, d, hsub _ hfound, hsub _ hcreated, fun x hx => howner x (hown x hx),
    fun node hnode => hnodes node (hheld node hnode)⟩

/-! ### The steps -/

theorem Inv.initial : Inv drivers initial := by
  have hnone : ∀ p x, ¬DeviceFactory.initial.Owner p x := by
    rintro p x (⟨n, entry, h, -⟩ | h)
    · cases h
    · cases h
  exact {
    addresses := ⟨fun p x h => absurd h (hnone p x), fun p x _ h => absurd h (hnone p x), nofun⟩
    entries := ⟨fun t n h => (by cases h), fun n entry h => (by cases h)⟩
    recorded := ⟨fun t d f h => (by cases h), nofun, nofun, trivial⟩
    destroying := fun t n p h => (by cases h) }

/-- A step after which no address has a new owner or holds a new node, and no call has found a
device. -/
theorem Inv.mono (hi : Inv drivers s) (hown : ∀ p x, s'.Owner p x → s.Owner p x)
    (hheld : ∀ p, ∀ node ∈ s'.heldNodes p, node ∈ s.heldNodes p)
    (hsub : ∀ e ∈ s.history, e ∈ s'.history)
    (hcalls : s'.calls = Function.update s.calls t c)
    (hdestroys : ∀ m p, c.destroys = some (m, p) → p = 0)
    (hentries : Entries drivers s') (hrecorded : Recorded drivers s') : Inv drivers s' where
  addresses := hi.addresses.mono hown hheld
  entries := hentries
  recorded := hrecorded
  destroying u m p hu hp := by
    rw [hcalls, Function.update_apply] at hu
    split at hu
    · exact absurd (hdestroys m p hu) hp
    · exact (hi.destroying u m p hu hp).mono (hown p) (hheld p) hsub

theorem Inv.continued (hi : Inv drivers s) (hcreates : c.creates = (s.calls t).creates)
    (hobject : c.object = none ∨ c.object = (s.calls t).object)
    (hdriver : ∀ d f, c.driver = some (d, f) → drivers d = some f)
    (hdestroys : ∀ m p, c.destroys = some (m, p) → p = 0) (hne : s.calls t ≠ .returned) :
    Inv drivers (s.setCall t c) :=
  hi.mono (fun _ _ hx => hx.mono (fun _ _ hn => .of_lookup hn) (of_update Call.object rfl hobject))
    (fun _ _ => id) (fun _ => id) rfl hdestroys
    (hi.entries.mono (creates_update rfl hcreates) (fun _ _ => id) (fun _ _ _ => rfl)
      fun _ _ _ => id)
    (hi.recorded.mono rfl hne hdriver (fun _ _ _ => id) hi.recorded.safe)

theorem Inv.published (hi : Inv drivers s) (h : s.calls t = .notCalled)
    (hn : s.allocatedDevices.lookup n = none) :
    Inv drivers { s.setCall t (.creating d n) with
      allocatedDevices := s.allocatedDevices.insert n ⟨0, none, t⟩ } := by
  have hlookup := lookup_insert s.allocatedDevices n ⟨0, none, t⟩
  refine hi.mono
    (fun p x hx => hx.mono (fun m entry hm hp => ?_) (of_update Call.object rfl (.inl rfl)))
    (fun _ _ => id) (fun _ => id) rfl (fun _ _ hd => by cases hd)
    (hi.entries.publish (by rw [h]; rfl) hn rfl hlookup rfl)
    (hi.recorded.mono rfl (by rw [h]; nofun) (fun _ _ hd => by cases hd) (fun _ _ _ => id)
      hi.recorded.safe)
  -- the placeholder is at no address
  rw [hlookup] at hm
  split at hm
  · obtain rfl := Option.some.inj hm
    exact absurd rfl hp
  · exact .of_lookup hm hp

theorem Inv.constructed (hi : Inv drivers s) {f : Nat} (h : s.calls t = .allocating d n f none)
    (ha : Allocates s (.construct t p)) (hor : Orderly s (.construct t p)) :
    Inv drivers (s.setCall t (.allocating d n f (some p))) := by
  obtain ⟨hp0, hfresh, hobjects⟩ := ha
  obtain ⟨hempty, hnew⟩ := hor
  have hnone : ∀ x, ¬s.Owner p x := by
    rintro x (⟨m, entry, hm, -, hp, -⟩ | hx)
    · exact hfresh m entry hm hp
    · exact hobjects x hx
  have hown : ∀ q x, (s.setCall t (.allocating d n f (some p))).Owner q x →
      s.Owner q x ∨ (q = p ∧ x = t) := by
    rintro q x (hx | hx)
    · exact .inl (.inl hx)
    · rw [setCall_calls] at hx
      split at hx
      · next hxt => exact .inr ⟨(Option.some.inj hx).symm, hxt⟩
      · exact .inl (.inr hx)
  exact {
    addresses := hi.addresses.construct hp0 hnone hempty hown rfl
    entries := hi.entries.mono (creates_update rfl (by rw [h]; rfl)) (fun _ _ => id)
      (fun _ _ _ => rfl) fun _ _ _ => id
    recorded := by
      refine hi.recorded.mono rfl (by rw [h]; nofun) (fun d' f' hd => ?_) (fun _ _ _ => id)
        hi.recorded.safe
      exact hi.recorded.driver t d' f' (by rw [h]; exact hd)
    destroying := fun u m q hu hq => by
      have hdes : (s.calls u).destroys = some (m, q) := of_update Call.destroys rfl (.inl rfl) hu
      refine (hi.destroying u m q hdes hq).mono (fun x hx => ?_) (fun _ => id) fun _ => id
      refine (hown q x hx).resolve_right fun hqp => hnew u m ?_
      rw [hdes, hqp.1] }

theorem Inv.held (hi : Inv drivers s) {f node : Nat} (h : s.calls t = .allocating d n f (some p)) :
    Inv drivers { s with
      heldNodes := Function.update s.heldNodes p (s.heldNodes p ++ [⟨t, node⟩]) } := by
  have ht : s.Owner p t := .inr (by rw [h]; rfl)
  exact {
    addresses := hi.addresses.hold ht (fun _ _ => id) rfl
    entries := ⟨hi.entries.placeholder, hi.entries.entry⟩
    recorded := ⟨hi.recorded.driver, hi.recorded.created, hi.recorded.once, hi.recorded.safe⟩
    destroying := fun u m q hu hq => by
      have hdes := hi.destroying u m q hu hq
      refine hdes.mono (fun _ => id) (fun x hx => ?_) fun _ => id
      simp only [Function.update_apply] at hx
      split at hx
      · next hqp =>
        -- a device that is still being made has not been found
        subst hqp
        obtain ⟨device, d', -, hcreated, howner, -⟩ := hdes
        obtain rfl := howner t ht
        exact nomatch h.symm.trans (hi.recorded.created _ _ _ hcreated)
      · exact hx }

theorem Inv.committed (hi : Inv drivers s) {f : Nat} (h : s.calls t = .allocated d n f p)
    (hcalls : s'.calls = Function.update s.calls t .returned)
    (hmap : s'.allocatedDevices = s.allocatedDevices.insert n ⟨p, some f, t⟩)
    (hheld : s'.heldNodes = s.heldNodes)
    (hhistory : s'.history = .created t d n :: s.history) : Inv drivers s' := by
  have hlookup : ∀ m, s'.allocatedDevices.lookup m =
      if m = n then some ⟨p, some f, t⟩ else s.allocatedDevices.lookup m :=
    hmap ▸ lookup_insert _ _ _
  have hne : s.calls t ≠ .returned := by rw [h]; nofun
  have ht : s.Owner p t := .inr (by rw [h]; rfl)
  have hsub : ∀ e ∈ s.history, e ∈ s'.history :=
    fun e he => hhistory ▸ List.mem_cons_of_mem _ he
  have hold : ∀ e ∈ s'.history, e ≠ .created t d n → e ∈ s.history :=
    fun e he => (List.mem_cons.mp (hhistory ▸ he)).resolve_left
  -- the new device has not been deallocated
  have hnew : ∀ u f', .deallocated u t f' ∉ s.history := fun u f' hu => by
    obtain ⟨d', n', hcreated⟩ := hi.recorded.safe.created_of_deallocated hu
    exact hne (hi.recorded.created t d' n' hcreated)
  have hentries : Entries drivers s' := by
    refine hi.entries.finish (by rw [h]; rfl) rfl hcalls (fun m hm => ?_) (fun entry hentry => ?_)
      fun m entry hlive => hlive.mono hsub fun u f' hu => hold _ hu nofun
    · exact (hlookup m).trans (if_neg hm)
    · rw [hlookup, if_pos rfl] at hentry
      obtain rfl := Option.some.inj hentry
      refine ⟨hi.addresses.notNull p t ht, ⟨d, f, rfl, ?_, ?_⟩, fun u f' hu => ?_⟩
      · exact hi.recorded.driver t d f (by rw [h]; rfl)
      · rw [hhistory]
        exact List.mem_cons_self ..
      · exact hnew u f' (hold _ hu nofun)
  refine hi.mono (fun q x hx => ?_) (fun _ _ => hheld ▸ id) hsub hcalls (fun _ _ hd => by cases hd)
    hentries (hi.recorded.commit hne hcalls hhistory)
  refine hx.mono (fun m entry hm hp => ?_) (of_update Call.object hcalls (.inl rfl))
  rw [hlookup] at hm
  split at hm
  · obtain rfl := Option.some.inj hm
    exact ht
  · exact .of_lookup hm hp

theorem Inv.rolledBack (hi : Inv drivers s) {e : Exn} (h : s.calls t = .catching n e)
    (hcalls : s'.calls = Function.update s.calls t (.threw e))
    (hmap : s'.allocatedDevices = s.allocatedDevices.erase n)
    (hheld : s'.heldNodes = s.heldNodes) (hhistory : s'.history = s.history) : Inv drivers s' := by
  have hlookup : ∀ m, s'.allocatedDevices.lookup m =
      if m = n then none else s.allocatedDevices.lookup m := hmap ▸ lookup_erase _ _
  have hentries : Entries drivers s' := by
    refine hi.entries.finish (by rw [h]; rfl) rfl hcalls (fun m hm => ?_) (fun entry hentry => ?_)
      fun _ _ => hhistory ▸ id
    · exact (hlookup m).trans (if_neg hm)
    · rw [hlookup, if_pos rfl] at hentry
      cases hentry
  refine hi.mono (fun q x hx => ?_) (fun _ _ => hheld ▸ id) (fun _ => hhistory ▸ id) hcalls
    (fun _ _ hd => by cases hd) hentries
    (hi.recorded.mono hcalls (by rw [h]; nofun) (fun _ _ hd => by cases hd)
      (fun _ _ _ => hhistory ▸ id) (hhistory ▸ hi.recorded.safe))
  refine hx.mono (fun m entry hm hp => ?_) (of_update Call.object hcalls (.inl rfl))
  rw [hlookup] at hm
  split at hm
  · cases hm
  · exact .of_lookup hm hp

theorem Entries.live (h : Entries drivers s) {entry : AllocatedDevice}
    (hn : s.allocatedDevices.lookup n = some entry) (hp : entry.pDevice ≠ 0) :
    Live drivers s.history n entry := by
  refine (h.entry n entry hn).resolve_left fun hcreates => hp ?_
  have hph := (h.placeholder _ n hcreates).symm.trans hn
  exact (congrArg AllocatedDevice.pDevice (Option.some.inj hph)).symm

/-- The entry that is found is that of a live device, the only one at its address. -/
theorem Inv.found (hi : Inv drivers s) {entry : AllocatedDevice} (h : s.calls t = .notCalled)
    (hn : s.allocatedDevices.lookup n = some entry) (hp : entry.pDevice ≠ 0) :
    Inv drivers { s.setCall t (.destroying n entry.pDevice) with
      history := .found t n entry.createdBy :: s.history } := by
  have hlive := hi.entries.live hn hp
  obtain ⟨d, f, -, -, hcreated⟩ := hlive.created
  have howner : s.Owner entry.pDevice entry.createdBy := .of_lookup hn hp
  have hown : ∀ q x, ({ s.setCall t (.destroying n entry.pDevice) with
      history := .found t n entry.createdBy :: s.history } : DeviceFactory).Owner q x →
        s.Owner q x :=
    fun _ _ hx => hx.mono (fun _ _ hn => .of_lookup hn) (of_update Call.object rfl (.inl rfl))
  exact {
    addresses := hi.addresses.mono hown fun _ _ => id
    entries := hi.entries.mono (creates_update rfl (by rw [h]; rfl)) (fun _ _ => id)
      (fun _ _ _ => rfl) fun _ _ _ hl => hl.mono (fun _ => List.mem_cons_of_mem _)
        fun _ _ hu => (List.mem_cons.mp hu).resolve_left nofun
    recorded := hi.recorded.mono rfl (by rw [h]; nofun) (fun _ _ hd => by cases hd)
      (fun _ _ _ hx => (List.mem_cons.mp hx).resolve_left nofun)
      ⟨⟨⟨d, hcreated⟩, hlive.alive⟩, hi.recorded.safe⟩
    destroying := fun u m q hu hq => by
      simp only [setCall, Function.update_apply] at hu
      split at hu
      · next hut =>
        cases hu
        rw [hut]
        exact ⟨entry.createdBy, d, List.mem_cons_self .., List.mem_cons_of_mem _ hcreated,
          fun x hx => hi.addresses.unique _ _ _ (hown _ _ hx) howner,
          fun node hnode => (hi.addresses.held _ node hnode).2 _ howner⟩
      · exact (hi.destroying u m q hu hq).mono (hown q) (fun _ => id)
          fun _ => List.mem_cons_of_mem _ }

/-- The nodes held at the address a call is going to destroy are those of the device it has
found. -/
theorem Inv.nodes_found (hi : Inv drivers s) (h : s.calls t = .destroying n p) :
    ∀ node ∈ s.heldNodes p, ∃ m, .found t m node.createdBy ∈ s.history := by
  intro node hnode
  obtain ⟨device, d, hfound, -, -, hnodes⟩ :=
    hi.destroying t n p (by rw [h]; rfl) (hi.addresses.held p node hnode).1
  rw [hnodes node hnode]
  exact ⟨n, hfound⟩

theorem Inv.deinitialized (hi : Inv drivers s) {nodes : List RootNode}
    (h : s.calls t = .destroying n p) (hnodes : ∀ x ∈ nodes, x ∈ s.heldNodes p)
    (hcalls : s'.calls = Function.update s.calls t c) (hc : c.creates = none)
    (hobject : c.object = none) (hdriver : c.driver = none) (hdestroys : c.destroys = none)
    (hmap : s'.allocatedDevices = s.allocatedDevices)
    (hheld : ∀ q, ∀ x ∈ s'.heldNodes q, x ∈ s.heldNodes q)
    (hhistory : s'.history = deinitializeNodes t nodes s.history) : Inv drivers s' := by
  have hsub : ∀ e ∈ s.history, e ∈ s'.history :=
    fun e he => hhistory ▸ mem_deinitializeNodes_of_mem he
  have hold : ∀ e ∈ s'.history, (∀ node, e ≠ .deinitialized t node) → e ∈ s.history :=
    fun e he => mem_of_mem_deinitializeNodes (hhistory ▸ he)
  have hsafe : Safe drivers s'.history := by
    rw [hhistory]
    exact hi.recorded.safe.deinitializeNodes fun x hx => hi.nodes_found h x (hnodes x hx)
  have hentries : Entries drivers s' :=
    hi.entries.mono (creates_update hcalls (by rw [hc, h]; rfl)) (by simp [hmap]) (by simp [hmap])
      fun _ _ _ hl => hl.mono hsub fun u f hu => hold _ hu nofun
  refine hi.mono (fun q x hx => ?_) hheld hsub hcalls (by simp [hdestroys]) hentries
    (hi.recorded.mono hcalls (by rw [h]; nofun) (by simp [hdriver])
      (fun x d n hx => hold _ hx nofun) hsafe)
  refine hx.mono (fun m entry hm => ?_) (of_update Call.object hcalls (.inl hobject))
  rw [hmap] at hm
  exact .of_lookup hm

/-- The device at the address is the one the call has found. -/
theorem Inv.destroyed (hi : Inv drivers s) {f device : Nat} {m : String}
    (h : s.calls t = .destroying n p) (hp : p ≠ 0)
    (hm : s.allocatedDevices.lookup m = some ⟨p, some f, device⟩)
    (hcalls : s'.calls = Function.update s.calls t .returned)
    (hmap : s'.allocatedDevices = s.allocatedDevices.erase m)
    (hheld : s'.heldNodes = Function.update s.heldNodes p [])
    (hhistory : s'.history =
      .deallocated t device f :: deinitializeNodes t (s.heldNodes p) s.history) :
    Inv drivers s' := by
  have hlive := hi.entries.live hm hp
  obtain ⟨device', d', hfound, hcreated', howner, -⟩ := hi.destroying t n p (by rw [h]; rfl) hp
  obtain rfl : device = device' := howner device (.of_lookup hm hp)
  obtain ⟨d, f', hf, hdf, hcreated⟩ := hlive.created
  obtain rfl : f = f' := Option.some.inj hf
  obtain ⟨rfl, rfl⟩ : d = d' ∧ m = n := hi.recorded.once _ _ _ _ _ hcreated hcreated'
  have hsub : ∀ e ∈ s.history, e ∈ s'.history := fun e he => by
    rw [hhistory]
    exact List.mem_cons_of_mem _ (mem_deinitializeNodes_of_mem he)
  have hold : ∀ e ∈ s'.history, e ≠ .deallocated t device f →
      (∀ node, e ≠ .deinitialized t node) → e ∈ s.history := fun e he hne => by
    rw [hhistory] at he
    exact mem_of_mem_deinitializeNodes ((List.mem_cons.mp he).resolve_left hne)
  have hlookup : ∀ k, s'.allocatedDevices.lookup k =
      if k = m then none else s.allocatedDevices.lookup k := hmap ▸ lookup_erase _ _
  have herase : ∀ k x, s'.allocatedDevices.lookup k = some x →
      k ≠ m ∧ s.allocatedDevices.lookup k = some x := by
    intro k x hx
    rw [hlookup] at hx
    split at hx
    · cases hx
    · next hkm => exact ⟨hkm, hx⟩
  have hentries : Entries drivers s' := by
    refine hi.entries.mono (creates_update hcalls (by rw [h]; rfl))
      (fun k x hx => (herase k x hx).2) (fun u k hu => ?_)
      fun k x hx hl => hl.mono hsub fun u g hu => hold _ hu ?_ nofun
    · -- the entry that is erased is no placeholder
      refine (hlookup k).trans (if_neg ?_)
      rintro rfl
      have hph := (hi.entries.placeholder u k hu).symm.trans hm
      exact hp (congrArg AllocatedDevice.pDevice (Option.some.inj hph)).symm
    · -- the device of another entry was created under another name
      intro hux
      obtain ⟨d', f', -, -, hx'⟩ := hl.created
      rw [(DeviceEvent.deallocated.inj hux).2.1] at hx'
      exact (herase k x hx).1 (hi.recorded.once _ _ _ _ _ hx' hcreated).2
  have hsafe : Safe drivers s'.history := by
    rw [hhistory]
    refine ⟨⟨⟨m, d, ?_, ?_, hdf⟩, fun u g hu => ?_⟩, ?_⟩
    · exact mem_deinitializeNodes_of_mem hfound
    · exact mem_deinitializeNodes_of_mem hcreated
    · exact hlive.alive u g (mem_of_mem_deinitializeNodes hu nofun)
    · exact hi.recorded.safe.deinitializeNodes (hi.nodes_found h)
  refine hi.mono (fun q x hx => ?_) (fun q x hx => ?_) hsub hcalls (fun _ _ hd => by cases hd)
    hentries (hi.recorded.mono hcalls (by rw [h]; nofun) (fun _ _ hd => by cases hd)
      (fun x d n hx => hold _ hx nofun nofun) hsafe)
  · exact hx.mono (fun k entry hk => .of_lookup (herase k entry hk).2)
      (of_update Call.object hcalls (.inl rfl))
  · rw [hheld, Function.update_apply] at hx
    split at hx
    · cases hx
    · exact hx

end

theorem Orderly.not_null {s : DeviceFactory} {t : Nat} {failure : Option DestroyFailure}
    (hor : Orderly s (.destroyPointer t failure)) {n m : String} {entry : AllocatedDevice}
    (h : s.calls t = .destroying n entry.pDevice)
    (hm : s.allocatedDevices.lookup m = some entry) : entry.pDevice ≠ 0 :=
  fun h0 => hor.1 n (h0 ▸ h) m entry hm h0

theorem Inv.step {controlSystem : String} {s s' : DeviceFactory} {a : DeviceAction}
    (hi : Inv drivers s) (ha : Allocates s a) (hor : Orderly s a)
    (h : step controlSystem drivers s a = some s') : Inv drivers s' := by
  cases step_effect h with
  | refused hc | notFound hc =>
    exact hi.continued (by rw [hc]; rfl) (.inl rfl) (fun _ _ hd => by cases hd)
      (fun _ _ hd => by cases hd) (by rw [hc]; nofun)
  | published hc hn => exact hi.published hc hn
  | driverNotFound hc =>
    exact hi.continued (by rw [hc]; rfl) (.inl rfl) (fun _ _ hd => by cases hd)
      (fun _ _ hd => by cases hd) (by rw [hc]; nofun)
  | driverFound hc hf =>
    refine hi.continued (by rw [hc]; rfl) (.inl rfl) (fun d' f' hd => ?_)
      (fun _ _ hd => by cases hd) (by rw [hc]; nofun)
    obtain ⟨rfl, rfl⟩ := Prod.mk.inj (Option.some.inj hd)
    exact hf
  | constructed hc => exact hi.constructed hc ha hor
  | held hc => exact hi.held hc
  | allocationReturned hc =>
    refine hi.continued (by rw [hc]; rfl) (.inr (by rw [hc]; rfl)) (fun d' f' hd => ?_)
      (fun _ _ hd => by cases hd) (by rw [hc]; nofun)
    exact hi.recorded.driver _ d' f' (by rw [hc]; exact hd)
  | allocationThrew hc =>
    exact hi.continued (by rw [hc]; rfl) (.inl rfl) (fun _ _ hd => by cases hd)
      (fun _ _ hd => by cases hd) (by rw [hc]; nofun)
  | committed hc => exact hi.committed hc rfl rfl rfl rfl
  | rolledBack hc => exact hi.rolledBack hc rfl rfl rfl rfl
  | nullFound hc =>
    refine hi.continued (by rw [hc]; rfl) (.inl rfl) (fun _ _ hd => by cases hd) (fun m q hq => ?_)
      (by rw [hc]; nofun)
    exact (Prod.mk.inj (Option.some.inj hq)).2.symm
  | found hc hn hp => exact hi.found hc hn hp
  | deinitializeThrew hc =>
    exact hi.deinitialized hc (fun _ => List.mem_of_mem_take) rfl rfl rfl rfl rfl rfl
      (fun _ _ => id) rfl
  | noDevice hc hp =>
    refine hi.deinitialized hc (fun _ => id) rfl rfl rfl rfl rfl rfl (fun q x hx => ?_) rfl
    simp only [Function.update_apply] at hx
    split at hx
    · cases hx
    · exact hx
  | emptyFunction hc hp =>
    obtain ⟨hm, rfl⟩ := findPointer_eq_some hp
    obtain ⟨d, f, hf, -⟩ := (hi.entries.live hm (hor.not_null hc hm)).created
    cases hf
  | deallocateThrew hc hp => exact absurd rfl (hor.2 _)
  | destroyed hc hp =>
    obtain ⟨hm, rfl⟩ := findPointer_eq_some hp
    exact hi.destroyed hc (hor.not_null hc hm) hm rfl rfl rfl rfl

/-- **A safe lifecycle.** In every orderly run of any number of calls of `createDevice` and
`destroyDevice`, `destroyDevice` deinitializes the nodes of, and deallocates, only a device that it
has found alive under its name. No device is deallocated twice, each is by the function of its own
driver, and no empty function is called. -/
theorem devices_safe {controlSystem : String} {s : DeviceFactory}
    (h : Lts.Reach (step controlSystem drivers) (fun s a => Allocates s a ∧ Orderly s a) initial
      s) :
    Safe drivers s.history :=
  (h.invariant Inv.initial fun hi hok hs => hi.step hok.1 hok.2 hs).recorded.safe

theorem Allocates.of_entries {s : DeviceFactory} {t p : Nat}
    {l : List (Sigma fun _ : String => AllocatedDevice)} (hl : s.allocatedDevices.entries = l)
    (hp : p ≠ 0) (hentries : ∀ x ∈ l, x.2.pDevice ≠ p)
    (hcalls : ∀ u, (s.calls u).object ≠ some p) : Allocates s (.construct t p) :=
  ⟨hp, fun n entry hn => hentries ⟨n, entry⟩ (hl ▸ AList.mem_lookup_iff.mp hn), hcalls⟩

/-- A device is created while another one, which has a node, is destroyed. -/
theorem devices_safe_createDestroy :
    ∃ s, Lts.exec (step "cs" fun _ => some 7) initial [.createDevice 0 "driver" "a", .findDriver 0,
        .construct 0 5, .holdNode 0 9, .allocationReturns 0, .commit 0,
        .createDevice 1 "driver" "b", .findDriver 1, .destroyDevice 2 "a", .construct 1 6,
        .destroyPointer 2 none, .holdNode 1 8, .allocationReturns 1, .commit 1] = some s ∧
      s.history = [.created 1 "driver" "b", .deallocated 2 0 7, .deinitialized 2 ⟨0, 9⟩,
        .found 2 "a" 0, .created 0 "driver" "a"] ∧
      Safe (fun _ => some 7) s.history := by
  refine ⟨_, rfl, rfl, ?_⟩
  have h1 : Lts.Reach (step "cs" fun _ => some 7) (fun s a => Allocates s a ∧ Orderly s a)
      initial _ :=
    Lts.Reach.refl.exec [.createDevice 0 "driver" "a", .findDriver 0]
      (.of_forall (by simp [Allocates, Orderly])) rfl
  have h2 := h1.step (e := DeviceAction.construct 0 5)
    ⟨.of_entries (l := [⟨"a", 0, none, 0⟩]) rfl (by decide) (by simp) fun u => by cases u <;> nofun,
      rfl, fun u n => by cases u <;> nofun⟩ rfl
  have h3 := h2.exec [.holdNode 0 9, .allocationReturns 0, .commit 0, .createDevice 1 "driver" "b",
    .findDriver 1, .destroyDevice 2 "a"] (.of_forall (by simp [Allocates, Orderly])) rfl
  have h4 := h3.step (e := DeviceAction.construct 1 6)
    ⟨.of_entries (l := [⟨"b", 0, none, 1⟩, ⟨"a", 5, some 7, 0⟩]) rfl (by decide) (by simp)
      fun u => by rcases u with _ | _ | _ | u <;> nofun,
      rfl, fun u n h => by rcases u with _ | _ | _ | u <;> cases h⟩ rfl
  have h5 := h4.step (e := DeviceAction.destroyPointer 2 none)
    ⟨trivial, fun n h => (by cases h), nofun⟩ rfl
  exact devices_safe (h5.exec [.holdNode 1 8, .allocationReturns 1, .commit 1]
    (.of_forall (by simp [Allocates, Orderly])) rfl)

/-- It is not enough that the allocation functions keep to their contract. A call that has looked up
the placeholder of a device calls its empty function, and a call that has looked up a device `a`,
destroyed since by another call, deallocates a device `b` at the same address. -/
theorem devices_race :
    (∃ s, Lts.Reach (step "cs" fun _ => some 7) Allocates initial s ∧
      s.history = [.badFunctionCall 1] ∧ ¬Safe (fun _ => some 7) s.history) ∧
    ∃ s, Lts.Reach (step "cs" fun _ => some 7) Allocates initial s ∧
      s.history = [.deallocated 1 3 7, .created 3 "driver" "b", .deallocated 2 0 7,
        .found 2 "a" 0, .found 1 "a" 0, .created 0 "driver" "a"] ∧
      ¬Safe (fun _ => some 7) s.history := by
  have h0 : Lts.Reach (step "cs" fun _ => some 7) Allocates initial _ := .refl
  constructor
  · exact ⟨_, h0.exec [.createDevice 0 "driver" "a", .destroyDevice 1 "a", .destroyPointer 1 none]
      (.of_forall (by simp [Allocates])) rfl, rfl, fun h => h.1⟩
  · have h1 := h0.exec [.createDevice 0 "driver" "a", .findDriver 0]
      (.of_forall (by simp [Allocates])) rfl
    have h2 := h1.step (e := DeviceAction.construct 0 5)
      (.of_entries (l := [⟨"a", 0, none, 0⟩]) rfl (by decide) (by simp)
        fun u => by cases u <;> nofun) rfl
    have h3 := h2.exec [.allocationReturns 0, .commit 0, .destroyDevice 1 "a",
      .destroyDevice 2 "a", .destroyPointer 2 none, .createDevice 3 "driver" "b", .findDriver 3]
      (.of_forall (by simp [Allocates])) rfl
    have h4 := h3.step (e := DeviceAction.construct 3 5)
      (.of_entries (l := [⟨"b", 0, none, 3⟩]) rfl (by decide) (by simp)
        fun u => by rcases u with _ | _ | _ | _ | u <;> nofun) rfl
    refine ⟨_, h4.exec [.allocationReturns 3, .commit 3, .destroyPointer 1 none]
      (.of_forall (by simp [Allocates])) rfl, ?_⟩
    refine (and_congr_right fun h => by rw [h]).mpr ⟨rfl, fun h => ?_⟩
    -- the device that call 1 has found is 0
    obtain ⟨⟨n, d, hfound, -⟩, -⟩ := h.1
    simp at hfound

end DeviceFactory

end Nds3
