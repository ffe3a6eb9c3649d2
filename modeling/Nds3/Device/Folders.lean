import Nds3.Ini.Lines
import Nds3.Lib.Fields
import Nds3.Lib.Loop
import Nds3.Tree.Rules

/-!
# The folders of the modules

The constructor of `NdsFactoryImpl` loads what it finds in the folders that environment variables
list. `separateFoldersList` separates such a list; quotes protect the separators in a name, and
stay in it.
-/

namespace Nds3

namespace NdsFactoryImpl

def separators : List Char := ":; ".toList

def quotes : List Char := "'\"".toList

theorem separators_eq : separators = [':', ';', ' '] := rfl

theorem quotes_eq : quotes = ['\x27', '"'] := rfl

/-- The variables of the loop of `separateFoldersList`. -/
structure FoldersScan where
  /-- The quote that is open, or NUL. -/
  openQuotes : Char
  startString : Nat
  folders : List String

/-- A turn of the loop. -/
def scanFolders (foldersListString : List Char) (s : FoldersScan) (scanString : Nat) :
    Except Abort FoldersScan := do
  let currentChar ← charAt foldersListString scanString
  if currentChar = s.openQuotes then
    return { s with openQuotes := '\x00' }
  if s.openQuotes ≠ '\x00' then
    return s
  if quotes.contains currentChar then
    return { s with openQuotes := currentChar }
  if separators.contains currentChar then
    if scanString ≠ s.startString then
      let folder ← substr foldersListString s.startString (some (scanString - s.startString))
      return { s with
        folders := s.folders ++ [String.ofList folder]
        startString := scanString + 1 }
    return { s with startString := scanString + 1 }
  return s

/-- `separateFoldersList`, of a null pointer or of a C string. -/
def separateFoldersList : Option String → Except Abort (List String)
  | none => return []
  | some foldersList => do
    let foldersListString := cStr foldersList
    let s ← (List.range foldersListString.length).foldlM (scanFolders foldersListString)
      ⟨'\x00', 0, []⟩
    if s.startString ≠ foldersListString.length then
      let folder ← substr foldersListString s.startString none
      return s.folders ++ [String.ofList folder]
    return s.folders

/-! ## The fields of the list -/

open Fields

/-- The quote that is open. -/
def FoldersScan.openQuote (s : FoldersScan) : Option Char :=
  if s.openQuotes = '\x00' then none else some s.openQuotes

/-- `field` has been read since `startString`, and the folders found so far and those that the rest
gives are the fields of the list. -/
structure Scanned (l : List Char) (s : FoldersScan) (a field rest : List Char) : Prop where
  list : l = a ++ (field ++ rest)
  start : s.startString = a.length
  found : s.folders ++
    (fieldsFrom separators.contains quotes.contains s.openQuote field rest).map String.ofList =
      (fields separators.contains quotes.contains l).map String.ofList

section

variable {l a field rest : List Char} {s s' : FoldersScan} {c : Char}

theorem Scanned.read (h : Scanned l s a field (c :: rest)) (hstart : s'.startString = s.startString)
    (hfolders : s'.folders = s.folders)
    (hfield : fieldsFrom separators.contains quotes.contains s.openQuote field (c :: rest) =
      fieldsFrom separators.contains quotes.contains s'.openQuote (field ++ [c]) rest) :
    Scanned l s' a (field ++ [c]) rest where
  list := by rw [h.list, List.append_assoc, List.singleton_append]
  start := hstart.trans h.start
  found := by
    rw [hfolders, ← hfield]
    exact h.found

theorem Scanned.separate (h : Scanned l s a field (c :: rest)) (hquote : ¬ quotes.contains c)
    (hsep : separators.contains c) (hopen : s.openQuote = none)
    (hopen' : s'.openQuotes = s.openQuotes)
    (hstart : s'.startString = a.length + field.length + 1)
    (hfolders : s'.folders = s.folders ++ (nonempty field).map String.ofList) :
    Scanned l s' (a ++ field ++ [c]) [] rest where
  list := by rw [h.list]; simp
  start := by rw [hstart, List.length_append, List.length_append, List.length_singleton]
  found := by
    have hnone : s'.openQuote = none := by
      rw [FoldersScan.openQuote, hopen']
      exact hopen
    have := h.found
    rw [hopen, fieldsFrom, if_neg hquote, if_pos hsep, List.map_append, ← List.append_assoc]
      at this
    rw [hfolders, hnone, this]

theorem Scanned.scanFolders (h : Scanned l s a field (c :: rest)) (hc : c ≠ '\x00') :
    ∃ s', scanFolders l s (a.length + field.length) = .ok s' ∧
      (Scanned l s' a (field ++ [c]) rest ∨ Scanned l s' (a ++ field ++ [c]) [] rest) := by
  have hchar : charAt l (a.length + field.length) = .ok c := by
    rw [h.list, ← List.append_assoc, ← List.length_append]
    exact charAt_append
  simp only [NdsFactoryImpl.scanFolders, hchar, bind, Except.bind, pure, Except.pure]
  by_cases hclose : c = s.openQuotes
  · have hq : s.openQuote = some c := by rw [FoldersScan.openQuote, ← hclose, if_neg hc]
    refine ⟨_, if_pos hclose, .inl (h.read rfl rfl ?_)⟩
    rw [hq, fieldsFrom, if_pos rfl]
    rfl
  rw [if_neg hclose]
  by_cases hopen : s.openQuotes ≠ '\x00'
  · have hq : s.openQuote = some s.openQuotes := if_neg hopen
    refine ⟨s, if_pos hopen, .inl (h.read rfl rfl ?_)⟩
    rw [hq, fieldsFrom, if_neg hclose]
  rw [if_neg hopen]
  have hq : s.openQuote = none := if_pos (not_not.mp hopen)
  by_cases hquote : quotes.contains c
  · refine ⟨_, if_pos hquote, .inl (h.read rfl rfl ?_)⟩
    rw [hq, fieldsFrom, if_pos hquote, FoldersScan.openQuote, if_neg hc]
  rw [if_neg hquote]
  by_cases hsep : separators.contains c
  · rw [if_pos hsep]
    cases field with
    | nil =>
      refine ⟨_, if_neg (not_not.mpr h.start.symm), .inr ?_⟩
      exact h.separate hquote hsep hq rfl rfl (List.append_nil _).symm
    | cons x field =>
      have hsub : substr l s.startString
          (some (a.length + (x :: field).length - s.startString)) = .ok (x :: field) := by
        rw [h.list, h.start, Nat.add_sub_cancel_left]
        exact substr_append_append
      rw [if_pos (by simp [h.start]), hsub]
      exact ⟨_, rfl, .inr (h.separate hquote hsep hq rfl rfl rfl)⟩
  · refine ⟨s, if_neg hsep, .inl (h.read rfl rfl ?_)⟩
    rw [hq, fieldsFrom, if_neg hquote, if_neg hsep]

/-- The loop reads the whole list. -/
theorem exists_scanned (hl : '\x00' ∉ l) : ∃ s a field,
    (List.range l.length).foldlM (scanFolders l) ⟨'\x00', 0, []⟩ = .ok s ∧
      Scanned l s a field [] := by
  have hstep : ∀ k < l.length, ∀ s,
      (∃ a field rest, Scanned l s a field rest ∧ k = a.length + field.length) →
      ∃ s', scanFolders l s k = .ok s' ∧
        ∃ a field rest, Scanned l s' a field rest ∧ k + 1 = a.length + field.length := by
    rintro k hk s ⟨a, field, rest, h, rfl⟩
    cases rest with
    | nil =>
      rw [h.list, List.append_nil, List.length_append] at hk
      omega
    | cons c rest =>
      have hc : c ≠ '\x00' := by
        rintro rfl
        exact hl (by simp [h.list])
      obtain ⟨s', hs', hread | hsep⟩ := h.scanFolders hc
      · refine ⟨s', hs', _, _, _, hread, ?_⟩
        rw [List.length_append, List.length_singleton, Nat.add_assoc]
      · refine ⟨s', hs', _, _, _, hsep, ?_⟩
        simp only [List.length_append, List.length_singleton, List.length_nil, Nat.add_zero]
  have hinit : Scanned l ⟨'\x00', 0, []⟩ [] [] l := ⟨rfl, rfl, rfl⟩
  obtain ⟨s, hs, a, field, rest, h, hlen⟩ := Loop.foldlM_range ⟨[], [], l, hinit, rfl⟩ hstep
  have hrest : rest = [] := by
    have := congrArg List.length h.list
    rw [List.length_append, List.length_append, hlen] at this
    exact List.length_eq_zero_iff.mp (by omega)
  exact ⟨s, a, field, hs, hrest ▸ h⟩

/-- **`separateFoldersList` finds the fields** of the list up to its first NUL, quotes included. -/
theorem separateFoldersList_eq (foldersList : String) :
    separateFoldersList (some foldersList) =
      .ok ((fields separators.contains quotes.contains (cStr foldersList)).map String.ofList) := by
  have hnul : '\x00' ∉ cStr foldersList := fun h => by simpa using List.mem_takeWhile_imp h
  obtain ⟨s, a, field, hs, h⟩ := exists_scanned hnul
  have hfound := h.found
  rw [fieldsFrom] at hfound
  simp only [separateFoldersList, hs, bind, Except.bind, pure, Except.pure]
  rw [← hfound]
  cases field with
  | nil => rw [if_neg (by simp [h.start, h.list])]; simp [nonempty]
  | cons x field =>
    have hsub : substr (cStr foldersList) s.startString none = .ok (x :: field) := by
      rw [h.list, h.start, List.append_nil]
      exact substr_append
    rw [if_pos (by simp [h.start, h.list]), hsub]
    rfl

end

/-! ## Names written to a list -/

structure FolderName (name : String) : Prop where
  nonempty : name ≠ ""
  noQuotes : ∀ c ∈ name.toList, c ∉ quotes
  noNul : '\x00' ∉ name.toList

/-- A name with a separator in it is enclosed in quotes of one kind. -/
inductive Written (name : String) : List Char → Prop where
  | plain (h : ∀ c ∈ name.toList, c ∉ separators) : Written name name.toList
  | enclosed {quote : Char} (hquote : quote ∈ quotes) (h : ∃ c ∈ name.toList, c ∈ separators) :
      Written name (quote :: (name.toList ++ [quote]))

/-- The text lists the names, with a separator between every two of them. -/
def Lists (names : List String) (text : String) : Prop :=
  ∃ written, List.Forall₂ Written names written ∧
    Joined separators.contains written text.toList

section

variable {name text : String} {names : List String} {w : List Char} {written : List (List Char)}

theorem Written.ne_nil (h : Written name w) (hname : FolderName name) : w ≠ [] := by
  cases h with
  | plain => exact fun hnil => hname.nonempty (String.toList_eq_nil_iff.mp hnil)
  | enclosed => exact List.cons_ne_nil _ _

theorem Written.whole (h : Written name w) (hname : FolderName name) :
    Whole separators.contains quotes.contains w := by
  cases h with
  | plain h =>
    refine Whole.of_forall fun c hc => ⟨?_, ?_⟩
    · simpa using h c hc
    · simpa using hname.noQuotes c hc
  | enclosed hquote =>
    have hopen : _ ∉ name.toList := fun hc => hname.noQuotes _ hc hquote
    exact .quoted (List.contains_iff_mem.mpr hquote) hopen .nil

theorem Written.noNul (h : Written name w) (hname : FolderName name) : ∀ c ∈ w, c ≠ '\x00' := by
  have hplain : ∀ c ∈ name.toList, c ≠ '\x00' := fun c hc hnul => hname.noNul (hnul ▸ hc)
  cases h with
  | plain => exact hplain
  | @enclosed q hquote =>
    have hq : q ≠ '\x00' := by
      rintro rfl
      exact absurd hquote (by decide)
    intro c hc
    obtain rfl | hc := List.mem_cons.mp hc
    · exact hq
    obtain hc | hc := List.mem_append.mp hc
    · exact hplain c hc
    · rwa [List.mem_singleton.mp hc]

theorem Written.ofList_eq_iff (h : Written name w) :
    String.ofList w = name ↔ ∀ c ∈ name.toList, c ∉ separators := by
  cases h with
  | plain h => exact iff_of_true String.ofList_toList h
  | enclosed hquote h =>
    obtain ⟨c, hc, hsep⟩ := h
    refine iff_of_false (fun heq => ?_) fun hall => hall c hc hsep
    have := congrArg (fun s => s.toList.length) heq
    simp only [String.toList_ofList, List.length_cons, List.length_append] at this
    omega

theorem written_eq_iff (h : List.Forall₂ Written names written) :
    written.map String.ofList = names ↔ ∀ name ∈ names, ∀ c ∈ name.toList, c ∉ separators := by
  induction h with
  | nil => simp
  | cons hw _ ih => rw [List.map_cons, List.cons.injEq, List.forall_mem_cons, hw.ofList_eq_iff, ih]

theorem exists_written (hnames : ∀ name ∈ names, FolderName name)
    (h : List.Forall₂ Written names written) :
    ∀ w ∈ written, ∃ name, FolderName name ∧ Written name w := by
  induction h with
  | nil => exact fun w hw => absurd hw List.not_mem_nil
  | @cons name w names written hw _ ih =>
    rw [List.forall_mem_cons] at hnames
    exact List.forall_mem_cons.mpr ⟨⟨name, hnames.1, hw⟩, ih hnames.2⟩

/-- The folders are what is written, quotes included. -/
theorem separateFoldersList_of_joined (hnames : ∀ name ∈ names, FolderName name)
    (hwritten : List.Forall₂ Written names written)
    (htext : Joined separators.contains written text.toList) :
    separateFoldersList (some text) = .ok (written.map String.ofList) := by
  have hof := exists_written hnames hwritten
  have hnul : ∀ c ∈ text.toList, c ≠ '\x00' := by
    refine htext.forall_mem ?_ fun w hw => ?_
    · rintro c hsep rfl
      exact absurd hsep (by decide)
    · obtain ⟨name, hname, h⟩ := hof w hw
      exact h.noNul hname
  have hsep : ∀ c, separators.contains c = true → quotes.contains c = false := by
    intro c hc
    rw [List.contains_iff_mem, separators_eq] at hc
    obtain rfl | rfl | rfl : c = ':' ∨ c = ';' ∨ c = ' ' := by simpa using hc
    all_goals decide
  have hfields : fields separators.contains quotes.contains text.toList = written :=
    fields_of_joined hsep htext fun w hw => by
      obtain ⟨name, hname, h⟩ := hof w hw
      exact ⟨h.whole hname, h.ne_nil hname⟩
  rw [separateFoldersList_eq, cStr_of_notMem fun h => hnul _ h rfl, hfields]

/-- The names come back exactly when none of them needs quotes. -/
theorem separateFoldersList_roundTrip_iff (hnames : ∀ name ∈ names, FolderName name)
    (htext : Lists names text) :
    separateFoldersList (some text) = .ok names ↔
      ∀ name ∈ names, ∀ c ∈ name.toList, c ∉ separators := by
  obtain ⟨written, hwritten, hjoined⟩ := htext
  rw [separateFoldersList_of_joined hnames hwritten hjoined, Except.ok.injEq,
    written_eq_iff hwritten]

theorem separateFoldersList_plain :
    separateFoldersList (some "lib;x/y") = .ok ["lib", "x/y"] :=
  (separateFoldersList_roundTrip_iff
    (by
      intro name hname
      obtain rfl | rfl := List.mem_pair.mp hname
      · exact ⟨by decide, by simp [quotes_eq], by decide⟩
      · exact ⟨by decide, by simp [quotes_eq], by decide⟩)
    ⟨["lib".toList, "x/y".toList],
      .cons (.plain (by simp [separators_eq])) (.cons (.plain (by simp [separators_eq])) .nil),
      .cons (x := ';') rfl (List.cons_ne_nil _ _) (.last _)⟩).mpr (by simp [separators_eq])

/-- The name with a space in it comes back in the quotes that enclose it. -/
theorem separateFoldersList_enclosed :
    FolderName "a b" ∧ Lists ["a b"] "'a b'" ∧
      separateFoldersList (some "'a b'") = .ok ["'a b'"] ∧
      separateFoldersList (some "'a b'") ≠ .ok ["a b"] := by
  have hfolders : separateFoldersList (some "'a b'") = .ok ["'a b'"] := by decide
  refine ⟨⟨by decide, by simp [quotes_eq], by decide⟩, ?_, hfolders, ?_⟩
  · refine ⟨["'a b'".toList], .cons (.enclosed (by decide : '\x27' ∈ quotes) ?_) .nil, .last _⟩
    exact ⟨' ', by decide, by decide⟩
  · rw [hfolders]
    decide

end

end NdsFactoryImpl

end Nds3
