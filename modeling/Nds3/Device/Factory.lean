import Nds3.Definitions
import Nds3.Lib.Lts
import Mathlib.Data.List.AList
import Mathlib.Data.List.Sort
import Mathlib.Data.String.Basic

/-!
# `FactoryBaseImpl`: devices

Any number of threads call `createDevice` and `destroyDevice` on one factory. A step is one
critical section under `m_mutex`, or what the user's functions do between two of them:

* `createDevice`: the first section, which publishes a placeholder for the device;
* `findDriver`: `NdsFactoryImpl::createDevice` looks the driver up;
* `construct`, `holdNode`, `allocationReturns`, `allocationThrows`: the allocation function makes
  the device object at some address, initializes root nodes for it, which the factory holds, and
  returns the address or throws;
* `commit`, `rollBack`: the last section, and the handler;
* `destroyDevice`: the lookup of the name;
* `destroyPointer`: `destroyDevice(void*)`, with the exception a function it calls may throw.

Calls are numbered, and the null pointer is 0. Which call created a device, and which call the
allocation function of which initialized a node, is kept beside the members, and so is the history
of the calls, the last event first.
-/

namespace Nds3

/-- `allocatedDevice_t`. -/
structure AllocatedDevice where
  pDevice : Nat
  /-- `m_deallocationFunction`, unless it is empty. -/
  deallocationFunction : Option Nat
  /-- The call of `createDevice`. -/
  createdBy : Nat
  deriving DecidableEq

/-- A root node initialized by an allocation function. -/
structure RootNode where
  createdBy : Nat
  node : Nat
  deriving DecidableEq

/-- Where a call is, with the local variables it goes on with. -/
inductive Call where
  | notCalled
  /-- The placeholder is published. -/
  | creating (driverName deviceName : String)
  /-- The allocation function runs. It may have made the device object. -/
  | allocating (driverName deviceName : String) (deallocationFunction : Nat) (object : Option Nat)
  | allocated (driverName deviceName : String) (deallocationFunction : Nat) (newDevice : Nat)
  /-- In the handler of `createDevice`. -/
  | catching (deviceName : String) (e : Exn)
  /-- Between the two sections of `destroyDevice`. -/
  | destroying (deviceName : String) (pDevice : Nat)
  | returned
  | threw (e : Exn)
  deriving DecidableEq

namespace Call

/-- The name the call has published a placeholder for. -/
def creates : Call → Option String
  | creating _ n | allocating _ n _ _ | allocated _ n _ _ | catching n _ => some n
  | _ => none

/-- The address of the device object the call is making. -/
def object : Call → Option Nat
  | allocating _ _ _ p => p
  | allocated _ _ _ p => some p
  | _ => none

/-- The driver that the call has found. -/
def driver : Call → Option (String × Nat)
  | allocating d _ f _ | allocated d _ f _ => some (d, f)
  | _ => none

/-- The device the call is going to destroy. -/
def destroys : Call → Option (String × Nat)
  | destroying n p => some (n, p)
  | _ => none

end Call

inductive DeviceEvent where
  /-- `createDevice` has returned a device. -/
  | created (call : Nat) (driverName deviceName : String)
  /-- `destroyDevice` has found a device, and not only the placeholder of one. The device is given
  by the call of `createDevice`. -/
  | found (call : Nat) (deviceName : String) (device : Nat)
  | deinitialized (call : Nat) (node : RootNode)
  | deallocated (call : Nat) (device : Nat) (deallocationFunction : Nat)
  /-- `destroyDevice` has called an empty deallocation function. -/
  | badFunctionCall (call : Nat)
  deriving DecidableEq

/-- An exception inside `destroyDevice(void*)`: from `deinitializeRootNode` of one of the nodes, or
from the deallocation function. -/
inductive DestroyFailure where
  | deinitializeRootNode (node : Nat) (e : Exn)
  | deallocationFunction (e : Exn)

inductive DeviceAction where
  | createDevice (call : Nat) (driverName deviceName : String)
  | findDriver (call : Nat)
  | construct (call : Nat) (pDevice : Nat)
  | holdNode (call : Nat) (node : Nat)
  | allocationReturns (call : Nat)
  | allocationThrows (call : Nat) (e : Exn)
  | commit (call : Nat)
  | rollBack (call : Nat)
  | destroyDevice (call : Nat) (deviceName : String)
  | destroyPointer (call : Nat) (failure : Option DestroyFailure)

/-- A `FactoryBaseImpl` and the calls in progress on it. -/
structure DeviceFactory where
  allocatedDevices : AList fun _ : String => AllocatedDevice
  heldNodes : Nat → List RootNode
  calls : Nat → Call
  history : List DeviceEvent

namespace DeviceFactory

def initial : DeviceFactory := ⟨∅, fun _ => [], fun _ => .notCalled, []⟩

def setCall (s : DeviceFactory) (t : Nat) (c : Call) : DeviceFactory :=
  { s with calls := Function.update s.calls t c }

theorem setCall_calls (s : DeviceFactory) (t : Nat) (c : Call) (u : Nat) :
    (s.setCall t c).calls u = if u = t then c else s.calls u := by
  simp only [setCall, Function.update_apply]

theorem lookup_insert (devices : AList fun _ : String => AllocatedDevice) (n : String)
    (entry : AllocatedDevice) (m : String) :
    (devices.insert n entry).lookup m = if m = n then some entry else devices.lookup m := by
  split
  · next h => rw [h, AList.lookup_insert]
  · next h => rw [AList.lookup_insert_ne h]

theorem lookup_erase (devices : AList fun _ : String => AllocatedDevice) (n m : String) :
    (devices.erase n).lookup m = if m = n then none else devices.lookup m := by
  split
  · next h => rw [h, AList.lookup_erase]
  · next h => rw [AList.lookup_erase_ne h]

/-- The second loop of `destroyDevice(void*)`: the first entry with the pointer. -/
def findPointer (s : DeviceFactory) (pDevice : Nat) :
    Option (Sigma fun _ : String => AllocatedDevice) :=
  (s.allocatedDevices.entries.insertionSort fun a b => a.1 ≤ b.1).find? (·.2.pDevice == pDevice)

section

variable (controlSystem : String) (drivers : String → Option Nat)

def deviceAlreadyCreated (deviceName : String) : Exn :=
  ⟨.DeviceAlreadyCreated, "A device with named " ++ deviceName ++ " for the control system " ++
    controlSystem ++ " has already been created"⟩

def driverNotFound (driverName : String) : Exn :=
  ⟨.DriverNotFound, "The driver " ++ driverName ++ " has not been registered"⟩

def deviceNotAllocated (deviceName : String) : Exn :=
  ⟨.DeviceNotAllocated,
    "The device " ++ deviceName ++ " was never allocated or has already been destroyed"⟩

/-- The nodes are deinitialized one after the other. -/
def deinitializeNodes (t : Nat) (nodes : List RootNode) (history : List DeviceEvent) :
    List DeviceEvent :=
  nodes.foldl (fun history node => .deinitialized t node :: history) history

/-- `destroyDevice(void*)`. A call that throws has erased nothing. -/
def destroyPointer (s : DeviceFactory) (t pDevice : Nat) :
    Option DestroyFailure → Option DeviceFactory
  | some (.deinitializeRootNode k e) =>
    if k < (s.heldNodes pDevice).length then
      some { s.setCall t (.threw e) with
        history := deinitializeNodes t ((s.heldNodes pDevice).take (k + 1)) s.history }
    else none
  | failure =>
    let history := deinitializeNodes t (s.heldNodes pDevice) s.history
    let heldNodes := Function.update s.heldNodes pDevice []
    match s.findPointer pDevice, failure with
    | none, none => some { s.setCall t .returned with heldNodes, history }
    | some ⟨_, ⟨_, none, _⟩⟩, none =>
      some { s.setCall t (.threw ⟨.badFunctionCall, "bad_function_call"⟩) with
        history := .badFunctionCall t :: history }
    | some ⟨_, ⟨_, some f, device⟩⟩, some (.deallocationFunction e) =>
      some { s.setCall t (.threw e) with history := .deallocated t device f :: history }
    | some ⟨n, ⟨_, some f, device⟩⟩, none =>
      some { s.setCall t .returned with
        allocatedDevices := s.allocatedDevices.erase n
        heldNodes
        history := .deallocated t device f :: history }
    | _, _ => none

def step (s : DeviceFactory) : DeviceAction → Option DeviceFactory
  | .createDevice t driverName deviceName =>
    if s.calls t = .notCalled then
      match s.allocatedDevices.lookup deviceName with
      | some _ => some (s.setCall t (.threw (deviceAlreadyCreated controlSystem deviceName)))
      | none => some { s.setCall t (.creating driverName deviceName) with
          allocatedDevices := s.allocatedDevices.insert deviceName ⟨0, none, t⟩ }
    else none
  | .findDriver t =>
    match s.calls t with
    | .creating driverName deviceName =>
      match drivers driverName with
      | none => some (s.setCall t (.catching deviceName (driverNotFound driverName)))
      | some f => some (s.setCall t (.allocating driverName deviceName f none))
    | _ => none
  | .construct t pDevice =>
    match s.calls t with
    | .allocating driverName deviceName f none =>
      some (s.setCall t (.allocating driverName deviceName f (some pDevice)))
    | _ => none
  | .holdNode t node =>
    match s.calls t with
    | .allocating _ _ _ (some pDevice) => some { s with
        heldNodes := Function.update s.heldNodes pDevice (s.heldNodes pDevice ++ [⟨t, node⟩]) }
    | _ => none
  | .allocationReturns t =>
    match s.calls t with
    | .allocating driverName deviceName f (some pDevice) =>
      some (s.setCall t (.allocated driverName deviceName f pDevice))
    | _ => none
  | .allocationThrows t e =>
    match s.calls t with
    | .allocating _ deviceName _ _ => some (s.setCall t (.catching deviceName e))
    | _ => none
  | .commit t =>
    match s.calls t with
    | .allocated driverName deviceName f pDevice => some { s.setCall t .returned with
        allocatedDevices := s.allocatedDevices.insert deviceName ⟨pDevice, some f, t⟩
        history := .created t driverName deviceName :: s.history }
    | _ => none
  | .rollBack t =>
    match s.calls t with
    | .catching deviceName e => some { s.setCall t (.threw e) with
        allocatedDevices := s.allocatedDevices.erase deviceName }
    | _ => none
  | .destroyDevice t deviceName =>
    if s.calls t = .notCalled then
      if deviceName = "" then some (s.setCall t (.destroying deviceName 0))
      else
        match s.allocatedDevices.lookup deviceName with
        | none => some (s.setCall t (.threw (deviceNotAllocated deviceName)))
        | some entry => some { s.setCall t (.destroying deviceName entry.pDevice) with
            history :=
              if entry.pDevice = 0 then s.history
              else .found t deviceName entry.createdBy :: s.history }
    else none
  | .destroyPointer t failure =>
    match s.calls t with
    | .destroying _ pDevice => s.destroyPointer t pDevice failure
    | _ => none

/-! ## What a step can do -/

/-- The effects of the steps, one constructor for each way a step can go. -/
inductive Effect (s : DeviceFactory) : DeviceAction → DeviceFactory → Prop where
  | refused {t : Nat} {d n : String} {e : Exn} (h : s.calls t = .notCalled) :
      Effect s (.createDevice t d n) (s.setCall t (.threw e))
  | published {t : Nat} {d n : String} (h : s.calls t = .notCalled)
      (hn : s.allocatedDevices.lookup n = none) :
      Effect s (.createDevice t d n) { s.setCall t (.creating d n) with
        allocatedDevices := s.allocatedDevices.insert n ⟨0, none, t⟩ }
  | driverNotFound {t : Nat} {d n : String} {e : Exn} (h : s.calls t = .creating d n) :
      Effect s (.findDriver t) (s.setCall t (.catching n e))
  | driverFound {t f : Nat} {d n : String} (h : s.calls t = .creating d n)
      (hf : drivers d = some f) : Effect s (.findDriver t) (s.setCall t (.allocating d n f none))
  | constructed {t f p : Nat} {d n : String} (h : s.calls t = .allocating d n f none) :
      Effect s (.construct t p) (s.setCall t (.allocating d n f (some p)))
  | held {t f p node : Nat} {d n : String} (h : s.calls t = .allocating d n f (some p)) :
      Effect s (.holdNode t node) { s with
        heldNodes := Function.update s.heldNodes p (s.heldNodes p ++ [⟨t, node⟩]) }
  | allocationReturned {t f p : Nat} {d n : String} (h : s.calls t = .allocating d n f (some p)) :
      Effect s (.allocationReturns t) (s.setCall t (.allocated d n f p))
  | allocationThrew {t f : Nat} {d n : String} {object : Option Nat} {e : Exn}
      (h : s.calls t = .allocating d n f object) :
      Effect s (.allocationThrows t e) (s.setCall t (.catching n e))
  | committed {t f p : Nat} {d n : String} (h : s.calls t = .allocated d n f p) :
      Effect s (.commit t) { s.setCall t .returned with
        allocatedDevices := s.allocatedDevices.insert n ⟨p, some f, t⟩
        history := .created t d n :: s.history }
  | rolledBack {t : Nat} {n : String} {e : Exn} (h : s.calls t = .catching n e) :
      Effect s (.rollBack t) { s.setCall t (.threw e) with
        allocatedDevices := s.allocatedDevices.erase n }
  | nullFound {t : Nat} {n : String} (h : s.calls t = .notCalled) :
      Effect s (.destroyDevice t n) (s.setCall t (.destroying n 0))
  | notFound {t : Nat} {n : String} {e : Exn} (h : s.calls t = .notCalled) :
      Effect s (.destroyDevice t n) (s.setCall t (.threw e))
  | found {t : Nat} {n : String} {entry : AllocatedDevice} (h : s.calls t = .notCalled)
      (hn : s.allocatedDevices.lookup n = some entry) (hp : entry.pDevice ≠ 0) :
      Effect s (.destroyDevice t n) { s.setCall t (.destroying n entry.pDevice) with
        history := .found t n entry.createdBy :: s.history }
  | deinitializeThrew {t p k : Nat} {n : String} {e : Exn} (h : s.calls t = .destroying n p) :
      Effect s (.destroyPointer t (some (.deinitializeRootNode k e))) { s.setCall t (.threw e) with
        history := deinitializeNodes t ((s.heldNodes p).take (k + 1)) s.history }
  | noDevice {t p : Nat} {n : String} (h : s.calls t = .destroying n p)
      (hp : s.findPointer p = none) :
      Effect s (.destroyPointer t none) { s.setCall t .returned with
        heldNodes := Function.update s.heldNodes p []
        history := deinitializeNodes t (s.heldNodes p) s.history }
  | emptyFunction {t p q device : Nat} {n m : String} {e : Exn} (h : s.calls t = .destroying n p)
      (hp : s.findPointer p = some ⟨m, q, none, device⟩) :
      Effect s (.destroyPointer t none) { s.setCall t (.threw e) with
        history := .badFunctionCall t :: deinitializeNodes t (s.heldNodes p) s.history }
  | deallocateThrew {t p q f device : Nat} {n m : String} {e : Exn}
      (h : s.calls t = .destroying n p)
      (hp : s.findPointer p = some ⟨m, q, some f, device⟩) :
      Effect s (.destroyPointer t (some (.deallocationFunction e))) { s.setCall t (.threw e) with
        history := .deallocated t device f :: deinitializeNodes t (s.heldNodes p) s.history }
  | destroyed {t p q f device : Nat} {n m : String} (h : s.calls t = .destroying n p)
      (hp : s.findPointer p = some ⟨m, q, some f, device⟩) :
      Effect s (.destroyPointer t none) { s.setCall t .returned with
        allocatedDevices := s.allocatedDevices.erase m
        heldNodes := Function.update s.heldNodes p []
        history := .deallocated t device f :: deinitializeNodes t (s.heldNodes p) s.history }

variable {controlSystem drivers}

theorem destroyPointer_effect {s s' : DeviceFactory} {t p : Nat} {n : String}
    {failure : Option DestroyFailure} (hc : s.calls t = .destroying n p)
    (h : s.destroyPointer t p failure = some s') :
    Effect drivers s (.destroyPointer t failure) s' := by
  unfold destroyPointer at h
  split at h
  · split at h
    · obtain rfl := Option.some.inj h
      exact .deinitializeThrew hc
    · cases h
  · split at h
    · next hp _ =>
      obtain rfl := Option.some.inj h
      exact .noDevice hc hp
    · next hp _ =>
      obtain rfl := Option.some.inj h
      exact .emptyFunction hc hp
    · next hp _ =>
      obtain rfl := Option.some.inj h
      exact .deallocateThrew hc hp
    · next hp _ =>
      obtain rfl := Option.some.inj h
      exact .destroyed hc hp
    · cases h

theorem step_effect {s s' : DeviceFactory} {a : DeviceAction}
    (h : step controlSystem drivers s a = some s') : Effect drivers s a s' := by
  cases a with
  | createDevice t d n =>
    simp only [step] at h
    split at h
    · next hc =>
      split at h
      · obtain rfl := Option.some.inj h
        exact .refused hc
      · next hn =>
        obtain rfl := Option.some.inj h
        exact .published hc hn
    · cases h
  | findDriver t =>
    simp only [step] at h
    split at h
    · next d n hc =>
      split at h
      · obtain rfl := Option.some.inj h
        exact .driverNotFound hc
      · next f hf =>
        obtain rfl := Option.some.inj h
        exact .driverFound hc hf
    · cases h
  | construct t p =>
    simp only [step] at h
    split at h
    · next hc =>
      obtain rfl := Option.some.inj h
      exact .constructed hc
    · cases h
  | holdNode t node =>
    simp only [step] at h
    split at h
    · next hc =>
      obtain rfl := Option.some.inj h
      exact .held hc
    · cases h
  | allocationReturns t =>
    simp only [step] at h
    split at h
    · next hc =>
      obtain rfl := Option.some.inj h
      exact .allocationReturned hc
    · cases h
  | allocationThrows t e =>
    simp only [step] at h
    split at h
    · next hc =>
      obtain rfl := Option.some.inj h
      exact .allocationThrew hc
    · cases h
  | commit t =>
    simp only [step] at h
    split at h
    · next hc =>
      obtain rfl := Option.some.inj h
      exact .committed hc
    · cases h
  | rollBack t =>
    simp only [step] at h
    split at h
    · next hc =>
      obtain rfl := Option.some.inj h
      exact .rolledBack hc
    · cases h
  | destroyDevice t n =>
    simp only [step] at h
    split at h
    · next hc =>
      split at h
      · next hn =>
        obtain rfl := Option.some.inj h
        exact .nullFound hc
      · split at h
        · obtain rfl := Option.some.inj h
          exact .notFound hc
        · next entry hn =>
          obtain rfl := Option.some.inj h
          by_cases hp : entry.pDevice = 0
          · rw [if_pos hp, hp]
            exact .nullFound hc
          · rw [if_neg hp]
            exact .found hc hn hp
    · cases h
  | destroyPointer t failure =>
    simp only [step] at h
    split at h
    · next hc => exact destroyPointer_effect hc h
    · cases h

theorem findPointer_eq_some {s : DeviceFactory} {pDevice : Nat}
    {x : Sigma fun _ : String => AllocatedDevice} (h : s.findPointer pDevice = some x) :
    s.allocatedDevices.lookup x.1 = some x.2 ∧ x.2.pDevice = pDevice := by
  refine ⟨AList.mem_lookup_iff.mpr ?_, by simpa using List.find?_some h⟩
  exact (List.mem_insertionSort _).mp (List.mem_of_find?_eq_some h)

end

end DeviceFactory

end Nds3
