import Nds3.Device.Factory
import Nds3.Device.Folders

/-!
# Loading the modules

The constructor of `NdsFactoryImpl` opens the libraries that it finds in the folders of the modules:
first those with a control system, then those with a device. Of these it registers the functions
that they export. A library that cannot be opened has no handle, and without a handle `dlsym` looks
for a symbol in the whole process: in the program, and then in the libraries that have been opened,
in this order. The functions of the modules that the constructor calls, `allocateControlSystem` and
`getDeviceName`, are taken to return.

A device name gets the functions of the last module that registers it (`construct_eq_ok`).
-/

namespace Nds3

namespace NdsFactoryImpl

/-- The symbols of a library, with their addresses. -/
abbrev Symbols := String → Option Nat

/-- What the constructor calls. -/
structure Host where
  getenv : String → Option String
  /-- The names of the files in a folder, in the order of `readdir`, if it can be opened. -/
  opendir : String → Option (List String)
  /-- What is said of a folder that cannot be opened. -/
  strerror : String → String
  dlopen : String → Option Symbols
  /-- The symbols of the program and of what it is linked with. -/
  program : Symbols
  /-- What the function at an address returns, if it is called as `getDeviceName`. -/
  getDeviceName : Nat → String
  /-- The name of the factory that the function at an address makes, if it is called as
  `allocateControlSystem`. -/
  getName : Nat → String

inductive LoadFailure where
  | directoryNotFoundError (what : String)
  | driverDoesNotExportRegistrationFunctions (what : String)
  | abort (a : Abort)
  deriving DecidableEq

/-- The maps of the object, and the symbols of the libraries that have been opened: they stay
(`RTLD_NODELETE`), for all the process to see (`RTLD_GLOBAL`). A control system is given by the
function that has made it, and a driver by its two functions. -/
structure Modules where
  opened : List Symbols
  controlSystems : AList fun _ : String => Nat
  driversAllocDealloc : AList fun _ : String => Nat × Nat

variable (h : Host)

/-- `getAddress` of a module that has been opened, or not. -/
def getAddress (opened : List Symbols) : Option Symbols → Symbols
  | some symbols => symbols
  | none => fun functionName => (h.program :: opened).findSome? (· functionName)

/-- The condition of `listFiles`. -/
def isModule (libPrefix libSuffix fileName : List Char) : Bool :=
  if fileName.length < libPrefix.length + libSuffix.length then false
  else fileName.take libPrefix.length = libPrefix ∧
    fileName.drop (fileName.length - libSuffix.length) = libSuffix

/-- What the constructor of `Directory` throws. -/
def directoryNotFound (folder : String) : LoadFailure :=
  .directoryNotFoundError (h.strerror folder ++ " while opening the directory " ++ folder ++ "\n")

def directory (folder : String) : Except LoadFailure (List String) :=
  match h.opendir folder with
  | some fileNames => .ok fileNames
  | none => .error (directoryNotFound h folder)

def listFiles (libPrefix libSuffix : String) : List String → Except LoadFailure (List String)
  | [] => .ok []
  | folder :: folders => do
    let fileNames ← directory h folder
    let files ← listFiles libPrefix libSuffix folders
    return (fileNames.filter fun fileName =>
      isModule libPrefix.toList libSuffix.toList fileName.toList).map (folder ++ "/" ++ ·) ++ files

/-- The folders of the modules. -/
def moduleFolders (variableName : String) : Except LoadFailure (List String) :=
  match separateFoldersList (h.getenv "LD_LIBRARY_PATH"),
    separateFoldersList (h.getenv variableName) with
  | .ok folders, .ok folders' => .ok ("." :: (folders ++ folders'))
  | .error a, _ | _, .error a => .error (.abort a)

/-- A turn of the loop over the control systems. -/
def loadControlSystem (s : Modules) (fileName : String) : Modules :=
  let module := h.dlopen fileName
  let opened := s.opened ++ module.toList
  match getAddress h opened module "allocateControlSystem" with
  | none => { s with opened }
  | some allocateFunction =>
    { s with opened, controlSystems :=
      s.controlSystems.insert (h.getName allocateFunction) allocateFunction }

def registerDriver (s : Modules) (driverName : String)
    (allocateFunction deallocateFunction : Nat) : Modules :=
  { s with driversAllocDealloc :=
    s.driversAllocDealloc.insert driverName (allocateFunction, deallocateFunction) }

def loadDriver (s : Modules) (driverModuleName : String) : Modules × Option LoadFailure :=
  let module := h.dlopen driverModuleName
  let opened := s.opened ++ module.toList
  match getAddress h opened module "getDeviceName", getAddress h opened module "allocateDevice",
    getAddress h opened module "deallocateDevice" with
  | some nameFunction, some allocateFunction, some deallocateFunction =>
    (registerDriver { s with opened } (h.getDeviceName nameFunction) allocateFunction
      deallocateFunction, none)
  | _, _, _ => ({ s with opened }, some (.driverDoesNotExportRegistrationFunctions
    ("The driver " ++ driverModuleName ++ " does not export the registration functions")))

/-- The functions that `createDevice` finds for a driver. -/
def Modules.findDriver (s : Modules) (driverName : String) : Except Exn (Nat × Nat) :=
  match s.driversAllocDealloc.lookup driverName with
  | none => .error (DeviceFactory.driverNotFound driverName)
  | some functions => .ok functions

/-- The constructor. The exceptions of `loadDriver` are caught. -/
def construct : Except LoadFailure Modules := do
  let controlSystemsFolders ← moduleFolders h "NDS_CONTROL_SYSTEMS"
  let controlSystemModules ← listFiles h "lib" "NdsControlSystem.so" controlSystemsFolders
  let more ← listFiles h "lib" "NdsControlSystem" controlSystemsFolders
  let s := (controlSystemModules ++ more).foldl (loadControlSystem h) ⟨[], ∅, ∅⟩
  let devicesFolders ← moduleFolders h "NDS_DEVICES"
  let deviceModules ← listFiles h "lib" "NdsDevice.so" devicesFolders
  return deviceModules.foldl (fun s fileName => (loadDriver h s fileName).1) s

/-! ## The files of the modules -/

variable {h} {libPrefix libSuffix : String} {folders : List String}

theorem isModule_iff {libPrefix libSuffix fileName : List Char} :
    isModule libPrefix libSuffix fileName = true ↔
      ∃ name, fileName = libPrefix ++ name ++ libSuffix := by
  rw [isModule]
  split
  · next hlt =>
    refine iff_of_false Bool.false_ne_true ?_
    rintro ⟨name, rfl⟩
    simp only [List.length_append] at hlt
    omega
  · next hge =>
    rw [decide_eq_true_iff]
    constructor
    · rintro ⟨hp, hs⟩
      have hsplit := List.take_append_drop (fileName.length - libSuffix.length) fileName
      refine ⟨(fileName.take (fileName.length - libSuffix.length)).drop libPrefix.length, ?_⟩
      have htake : (fileName.take (fileName.length - libSuffix.length)).take libPrefix.length =
          libPrefix := by
        rw [List.take_take, Nat.min_eq_left (by omega), hp]
      have hpre := List.take_append_drop libPrefix.length
        (fileName.take (fileName.length - libSuffix.length))
      rw [htake] at hpre
      rw [hpre, ← hs]
      simpa [hs] using hsplit.symm
    · rintro ⟨name, rfl⟩
      constructor
      · simp
      · have hlength : (libPrefix ++ name ++ libSuffix).length - libSuffix.length =
            (libPrefix ++ name).length := by
          rw [List.length_append, Nat.add_sub_cancel]
        rw [hlength, List.drop_left]

def modules (h : Host) (libPrefix libSuffix : String) (folders : List String) : List String :=
  folders.flatMap fun folder => (((h.opendir folder).getD []).filter fun fileName =>
    isModule libPrefix.toList libSuffix.toList fileName.toList).map (folder ++ "/" ++ ·)

theorem mem_modules {m : String} : m ∈ modules h libPrefix libSuffix folders ↔
    ∃ folder ∈ folders, ∃ names name, h.opendir folder = some names ∧
      libPrefix ++ name ++ libSuffix ∈ names ∧
      m = folder ++ "/" ++ (libPrefix ++ name ++ libSuffix) := by
  simp only [modules, List.mem_flatMap, List.mem_map, List.mem_filter, isModule_iff]
  refine exists_congr fun folder => and_congr_right fun _ => ?_
  constructor
  · rintro ⟨fileName, ⟨hmem, name, hname⟩, rfl⟩
    have heq : fileName = libPrefix ++ String.ofList name ++ libSuffix := by
      rw [← String.toList_inj]
      simpa using hname
    cases hopen : h.opendir folder with
    | none =>
      rw [hopen] at hmem
      cases hmem
    | some names =>
      rw [hopen] at hmem
      exact ⟨names, String.ofList name, rfl, heq ▸ hmem, by rw [heq]⟩
  · rintro ⟨names, name, hopen, hmem, rfl⟩
    rw [hopen]
    exact ⟨_, ⟨hmem, name.toList, by simp⟩, rfl⟩

theorem listFiles_eq (h : Host) (libPrefix libSuffix : String) (folders : List String) :
    listFiles h libPrefix libSuffix folders =
      match folders.find? fun folder => (h.opendir folder).isNone with
      | none => .ok (modules h libPrefix libSuffix folders)
      | some folder => .error (directoryNotFound h folder) := by
  induction folders with
  | nil => rfl
  | cons folder folders ih =>
    rw [listFiles, directory]
    cases hopen : h.opendir folder with
    | none =>
      rw [List.find?_cons_of_pos (by rw [hopen]; rfl)]
      rfl
    | some names =>
      rw [List.find?_cons_of_neg (by rw [hopen]; exact Bool.false_ne_true), ih]
      cases folders.find? fun folder => (h.opendir folder).isNone with
      | some missing => rfl
      | none => simp [modules, hopen, bind, Except.bind, pure, Except.pure]

/-- The folders that a variable lists. -/
def listed (h : Host) (variableName : String) : List String :=
  match h.getenv variableName with
  | none => []
  | some text =>
    (Fields.fields separators.contains quotes.contains (cStr text)).map String.ofList

theorem separateFoldersList_getenv (h : Host) (variableName : String) :
    separateFoldersList (h.getenv variableName) = .ok (listed h variableName) := by
  rw [listed]
  cases h.getenv variableName with
  | none => rfl
  | some text => exact separateFoldersList_eq text

theorem moduleFolders_eq (h : Host) (variableName : String) : moduleFolders h variableName =
    .ok ("." :: (listed h "LD_LIBRARY_PATH" ++ listed h variableName)) := by
  rw [moduleFolders, separateFoldersList_getenv, separateFoldersList_getenv]

/-! ## What the modules register -/

/-- What `getAddress` finds for a module that is loaded after others: its own symbols, or if it
cannot be opened the first of the process. -/
def symbolsOf (h : Host) (before : List String) (module : String) : Symbols :=
  getAddress h (before.filterMap h.dlopen) (h.dlopen module)

/-- The function that makes the control system of the name, if the module has it. -/
def makes (h : Host) (name : String) (before : List String) (module : String) : Option Nat :=
  (symbolsOf h before module "allocateControlSystem").filter (h.getName · = name)

/-- The functions of the driver, if the module exports all three and is named so. -/
def registers (h : Host) (driverName : String) (before : List String) (module : String) :
    Option (Nat × Nat) :=
  match symbolsOf h before module "getDeviceName", symbolsOf h before module "allocateDevice",
    symbolsOf h before module "deallocateDevice" with
  | some nameFunction, some allocateFunction, some deallocateFunction =>
    if h.getDeviceName nameFunction = driverName then some (allocateFunction, deallocateFunction)
    else none
  | _, _, _ => none

/-- A library is looked at in the process only if it is not open itself. -/
theorem getAddress_toList (h : Host) (opened : List Symbols) (module : Option Symbols) :
    getAddress h (opened ++ module.toList) module = getAddress h opened module := by
  cases module with
  | none => rw [Option.toList_none, List.append_nil]
  | some symbols => rfl

theorem opened_loadControlSystem (h : Host) (s : Modules) (m : String) :
    (loadControlSystem h s m).opened = s.opened ++ (h.dlopen m).toList := by
  rw [loadControlSystem]
  split <;> rfl

theorem opened_loadDriver (h : Host) (s : Modules) (m : String) :
    (loadDriver h s m).1.opened = s.opened ++ (h.dlopen m).toList := by
  rw [loadDriver]
  split <;> rfl

theorem opened_foldl {turn : Modules → String → Modules}
    (hturn : ∀ s m, (turn s m).opened = s.opened ++ (h.dlopen m).toList) (l : List String)
    (s : Modules) : (l.foldl turn s).opened = s.opened ++ l.filterMap h.dlopen := by
  induction l generalizing s with
  | nil => simp
  | cons m l ih =>
    rw [List.foldl_cons, ih, hturn, List.append_assoc]
    cases hm : h.dlopen m <;> simp [hm]

theorem lookup_loadControlSystem (s : Modules) (before : List String) (m name : String)
    (hs : s.opened = before.filterMap h.dlopen) :
    (loadControlSystem h s m).controlSystems.lookup name =
      (makes h name before m).or (s.controlSystems.lookup name) := by
  rw [loadControlSystem, getAddress_toList, hs, makes, symbolsOf]
  cases getAddress h (before.filterMap h.dlopen) (h.dlopen m) "allocateControlSystem" with
  | none => rfl
  | some f =>
    by_cases hname : h.getName f = name
    · subst hname
      simp [Option.filter]
    · simp [hname, AList.lookup_insert_ne (Ne.symm hname), Option.filter]

theorem controlSystems_foldl (l : List String) (s : Modules) :
    (l.foldl (fun s m => (loadDriver h s m).1) s).controlSystems = s.controlSystems := by
  induction l generalizing s with
  | nil => rfl
  | cons m l ih =>
    rw [List.foldl_cons, ih, loadDriver]
    split <;> rfl

theorem driversAllocDealloc_foldl (l : List String) (s : Modules) :
    (l.foldl (loadControlSystem h) s).driversAllocDealloc = s.driversAllocDealloc := by
  induction l generalizing s with
  | nil => rfl
  | cons m l ih =>
    rw [List.foldl_cons, ih, loadControlSystem]
    split <;> rfl

theorem lookup_loadDriver (s : Modules) (before : List String) (m driverName : String)
    (hs : s.opened = before.filterMap h.dlopen) :
    (loadDriver h s m).1.driversAllocDealloc.lookup driverName =
      (registers h driverName before m).or (s.driversAllocDealloc.lookup driverName) := by
  rw [loadDriver, getAddress_toList, hs, registers, symbolsOf]
  split
  · next n a d hn ha hd =>
    by_cases hname : h.getDeviceName n = driverName
    · subst hname
      simp [registerDriver]
    · simp [registerDriver, hname, AList.lookup_insert_ne (Ne.symm hname)]
  · rfl

theorem findDriver_eq_ok {s : Modules} {driverName : String} {functions : Nat × Nat} :
    s.findDriver driverName = .ok functions ↔
      s.driversAllocDealloc.lookup driverName = some functions := by
  rw [Modules.findDriver]
  cases s.driversAllocDealloc.lookup driverName with
  | none => exact iff_of_false (fun h => by cases h) (fun h => by cases h)
  | some x => rw [Except.ok.injEq, Option.some.injEq]

theorem lookup_controlSystems (ms : List String) (name : String) (f : Nat) :
    (ms.foldl (loadControlSystem h) ⟨[], ∅, ∅⟩).controlSystems.lookup name = some f ↔
      Loop.Last (makes h name) ms f :=
  Loop.foldl_eq_some_iff (fun s : Modules => s.controlSystems.lookup name)
    (AList.lookup_empty name) fun l m =>
      lookup_loadControlSystem _ l m name (opened_foldl (opened_loadControlSystem h) l _)

/-- What the loop over the devices finds, after that over the control systems. -/
theorem lookup_driversAllocDealloc (cs ms : List String) (driverName : String)
    (functions : Nat × Nat) :
    (ms.foldl (fun s m => (loadDriver h s m).1)
      (cs.foldl (loadControlSystem h) ⟨[], ∅, ∅⟩)).driversAllocDealloc.lookup driverName =
        some functions ↔
      Loop.Last (fun before => registers h driverName (cs ++ before)) ms functions := by
  refine Loop.foldl_eq_some_iff
    (fun s : Modules => s.driversAllocDealloc.lookup driverName) ?_ fun l m => ?_
  · rw [driversAllocDealloc_foldl]
    exact AList.lookup_empty driverName
  · refine lookup_loadDriver _ (cs ++ l) m driverName ?_
    rw [opened_foldl (opened_loadDriver h), opened_foldl (opened_loadControlSystem h),
      List.filterMap_append, List.nil_append]

/-- **Which functions a driver gets.** Let the folders of the control systems and those of the
devices be the current one and those that the variables list. If one of them cannot be opened, the
constructor throws for the first such folder. Else it succeeds: then a control system is found
exactly if one of the modules `lib…NdsControlSystem.so` or `lib…NdsControlSystem` in the folders
makes it, and a driver exactly if one of the modules `lib…NdsDevice.so` registers it, and it is that
of the last such module. -/
theorem construct_eq (h : Host) :
    let path := listed h "LD_LIBRARY_PATH"
    let controlSystemsFolders := "." :: (path ++ listed h "NDS_CONTROL_SYSTEMS")
    let devicesFolders := "." :: (path ++ listed h "NDS_DEVICES")
    let controlSystemModules := modules h "lib" "NdsControlSystem.so" controlSystemsFolders ++
      modules h "lib" "NdsControlSystem" controlSystemsFolders
    match (controlSystemsFolders ++ devicesFolders).find?
        fun folder => (h.opendir folder).isNone with
    | some folder => construct h = .error (directoryNotFound h folder)
    | none => ∃ s, construct h = .ok s ∧
      (∀ name f, s.controlSystems.lookup name = some f ↔
        Loop.Last (makes h name) controlSystemModules f) ∧
      ∀ driverName functions, s.findDriver driverName = .ok functions ↔
        Loop.Last (fun before => registers h driverName (controlSystemModules ++ before))
          (modules h "lib" "NdsDevice.so" devicesFolders) functions := by
  intro path controlSystemsFolders devicesFolders controlSystemModules
  have hconstruct : construct h = (do
      let controlSystems ← listFiles h "lib" "NdsControlSystem.so" controlSystemsFolders
      let more ← listFiles h "lib" "NdsControlSystem" controlSystemsFolders
      let deviceModules ← listFiles h "lib" "NdsDevice.so" devicesFolders
      return deviceModules.foldl (fun s fileName => (loadDriver h s fileName).1)
        ((controlSystems ++ more).foldl (loadControlSystem h) ⟨[], ∅, ∅⟩)) := by
    rw [construct, moduleFolders_eq, moduleFolders_eq]
    rfl
  rw [hconstruct, listFiles_eq, listFiles_eq, listFiles_eq, List.find?_append]
  cases controlSystemsFolders.find? fun folder => (h.opendir folder).isNone with
  | some folder => rfl
  | none =>
    cases devicesFolders.find? fun folder => (h.opendir folder).isNone with
    | some folder => rfl
    | none =>
      refine ⟨_, rfl, fun name f => ?_, fun driverName functions => ?_⟩
      · rw [controlSystems_foldl]
        exact lookup_controlSystems controlSystemModules name f
      · rw [findDriver_eq_ok]
        exact lookup_driversAllocDealloc controlSystemModules _ driverName functions

end NdsFactoryImpl

end Nds3
