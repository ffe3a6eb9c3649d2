import Nds3.Ini.Lines

/-!
# Whole documents

How the constructor ends on any text, and what it stores for a document that keeps to the format.
-/

namespace Nds3

namespace IniFileParserImpl

open Scan

/-! ## Any text -/

/-- The line is no header and has an unescaped `=` with nothing before it, or with a quote behind
it that no unescaped quote of the same kind closes. -/
def BareThrow (line : List Char) : Prop :=
  sectionOf line = [] ∧ ∃ key value, cut '\\' '=' none line = some (key, value) ∧
    (strip isSpace key = [] ∨ ∃ q v, strip isSpace value = q :: v ∧ q ∈ m_quotes ∧
      cut '\\' q (some q) v = none)

/-- The line is no header, has no unescaped `=` and is neither blank nor a comment. -/
def Malformed (line : List Char) : Prop :=
  sectionOf line = [] ∧ cut '\\' '=' none line = none ∧
    ∃ c rest, strip isSpace line = c :: rest ∧ c ∉ commentStart

theorem valueOf_eq_none {value : List Char} :
    valueOf value = none ↔ ∃ q v, value = q :: v ∧ q ∈ m_quotes ∧ cut '\\' q (some q) v = none := by
  cases value with
  | nil => simp [valueOf]
  | cons q v =>
    rw [valueOf]
    split
    · rename_i hq
      rw [Option.map_eq_none_iff]
      constructor
      · exact fun h => ⟨q, v, rfl, List.contains_iff_mem.mp hq, h⟩
      · rintro ⟨_, _, ⟨⟩, -, h⟩
        exact h
    · rename_i hq
      constructor
      · intro h
        cases h
      · rintro ⟨_, _, ⟨⟩, h, -⟩
        exact absurd (List.contains_iff_mem.mpr h) hq

theorem readKeyValue_eq_crash {line : List Char} :
    readKeyValue line = .crash ↔ ∃ key value, cut '\\' '=' none line = some (key, value) ∧
      (strip isSpace key = [] ∨ valueOf (strip isSpace value) = none) := by
  rw [readKeyValue]
  cases cut '\\' '=' none line with
  | none =>
    simp only
    split <;> simp
    split <;> simp
  | some r =>
    obtain ⟨key, value⟩ := r
    simp only
    split
    · rename_i hkey
      simp [hkey]
    · rename_i hkey
      cases hv : valueOf (strip isSpace value) <;> simp [hkey, hv]

theorem readKeyValue_eq_syntaxError {line : List Char} :
    readKeyValue line = .syntaxError ↔ cut '\\' '=' none line = none ∧
      ∃ c rest, strip isSpace line = c :: rest ∧ c ∉ commentStart := by
  rw [readKeyValue]
  cases cut '\\' '=' none line with
  | none =>
    cases strip isSpace line with
    | nil => simp
    | cons c rest => simp
  | some r =>
    obtain ⟨key, value⟩ := r
    simp only
    split
    · simp
    · split <;> simp

theorem read_eq_crash {line : List Char} : read line = .crash ↔ BareThrow line := by
  rw [read, BareThrow]
  split
  · rename_i hs
    rw [readKeyValue_eq_crash]
    simp only [hs, true_and, valueOf_eq_none]
  · rename_i hs
    exact ⟨fun h => (by cases h), fun h => absurd h.1 hs⟩

theorem read_eq_syntaxError {line : List Char} : read line = .syntaxError ↔ Malformed line := by
  rw [read, Malformed]
  split
  · rename_i hs
    rw [readKeyValue_eq_syntaxError]
    simp only [hs, true_and]
  · rename_i hs
    exact ⟨fun h => (by cases h), fun h => absurd h.1 hs⟩

/-- The error of a malformed line. -/
def syntaxErrorOn (lineCounter : Nat) : Abort :=
  .throws ⟨.INIParserSyntaxError,
    "Syntax error on line " ++ toString lineCounter ++ ": " ++ "Syntax error"⟩

/-- How the loop over the lines ends: behind the last one, at a malformed one, or at a crash. -/
inductive Ends (lineCounter : Nat) (lines : List (List Char)) : Except Abort Sections → Prop
  | completes (sections : Sections) (h : ∀ line ∈ lines, ¬ Malformed line ∧ ¬ BareThrow line) :
    Ends lineCounter lines (.ok sections)
  | syntaxError (before : List (List Char)) (line : List Char) (rest : List (List Char))
    (hl : lines = before ++ line :: rest) (hm : Malformed line)
    (h : ∀ l ∈ before, ¬ Malformed l ∧ ¬ BareThrow l) :
    Ends lineCounter lines (.error (syntaxErrorOn (lineCounter + before.length + 1)))
  | crash (before : List (List Char)) (line : List Char) (rest : List (List Char))
    (hl : lines = before ++ line :: rest) (hb : BareThrow line)
    (h : ∀ l ∈ before, ¬ Malformed l ∧ ¬ BareThrow l) :
    Ends lineCounter lines (.error .terminate)

theorem Ends.cons {lineCounter : Nat} {line : List Char} {lines : List (List Char)}
    {r : Except Abort Sections} (h : Ends (lineCounter + 1) lines r)
    (hline : ¬ Malformed line ∧ ¬ BareThrow line) : Ends lineCounter (line :: lines) r := by
  cases h with
  | completes sections h => exact .completes sections (List.forall_mem_cons.mpr ⟨hline, h⟩)
  | syntaxError before l rest hl hm h =>
    have := @Ends.syntaxError lineCounter (line :: lines) (line :: before) l rest
      (congrArg (line :: ·) hl) hm (List.forall_mem_cons.mpr ⟨hline, h⟩)
    rwa [List.length_cons, ← Nat.add_assoc, Nat.add_right_comm lineCounter] at this
  | crash before l rest hl hb h =>
    exact .crash (line :: before) l rest (congrArg (line :: ·) hl) hb
      (List.forall_mem_cons.mpr ⟨hline, h⟩)

/-- The loop ends in one of these ways, by induction on the lines. -/
theorem parseLines_ends (lines : List (List Char)) (m_sections : Sections)
    (lastSection : List Char) (lineCounter : Nat) :
    Ends lineCounter lines (parseLines m_sections lastSection lineCounter lines) := by
  induction lines generalizing m_sections lastSection lineCounter with
  | nil => exact .completes m_sections (by simp)
  | cons line lines ih =>
    rw [parseLines, parseLine_eq]
    have hnot : read line ≠ .syntaxError → read line ≠ .crash →
        ¬ Malformed line ∧ ¬ BareThrow line := fun hs hc =>
      ⟨mt read_eq_syntaxError.mpr hs, mt read_eq_crash.mpr hc⟩
    cases hr : read line with
    | header name => exact (ih _ _ _).cons (hnot (by simp [hr]) (by simp [hr]))
    | assignment key value => exact (ih _ _ _).cons (hnot (by simp [hr]) (by simp [hr]))
    | nothing => exact (ih _ _ _).cons (hnot (by simp [hr]) (by simp [hr]))
    | syntaxError =>
      exact .syntaxError [] line lines rfl (read_eq_syntaxError.mp hr) (by simp)
    | crash => exact .crash [] line lines rfl (read_eq_crash.mp hr) (by simp)

/-- The constructor completes or throws `INIParserSyntaxError` for a line of the text. -/
def CompletesOrThrows (text : String) : Prop :=
  (∃ sections, parse text = .ok sections) ∨
    ∃ lineCounter what, 0 < lineCounter ∧ lineCounter ≤ (getlines text.toList).length ∧
      parse text = .error (.throws ⟨.INIParserSyntaxError,
        "Syntax error on line " ++ toString lineCounter ++ ": " ++ what⟩)

theorem Malformed.not_bareThrow {line : List Char} (h : Malformed line) : ¬ BareThrow line := by
  intro hb
  rw [← read_eq_syntaxError] at h
  rw [← read_eq_crash, h] at hb
  cases hb

/-- The constructor never crashes exactly when a malformed line comes before every line that would
run into a bare `throw`. -/
theorem completesOrThrows_iff (text : String) :
    CompletesOrThrows text ↔
      ∀ before line rest, getlines text.toList = before ++ line :: rest → BareThrow line →
        ∃ l ∈ before, Malformed l := by
  have hends : Ends 0 (getlines text.toList) (parse text) := parseLines_ends _ ∅ [] 0
  rw [CompletesOrThrows]
  generalize parse text = r at hends
  cases hends with
  | completes sections h =>
    refine iff_of_true (.inl ⟨sections, rfl⟩) fun before line rest hl hb => ?_
    exact absurd hb (h line (by simp [hl])).2
  | syntaxError first line rest hl hm h =>
    refine iff_of_true (.inr ⟨_, "Syntax error", Nat.succ_pos _, ?_, rfl⟩) ?_
    · rw [hl, List.length_append, List.length_cons]
      omega
    · intro before l after hl' hb
      rw [hl] at hl'
      obtain ⟨a, rfl, ha⟩ | ⟨a, rfl, ha⟩ := List.append_eq_append_iff.mp hl'
      · -- The malformed line is the first of `a`, or the crashing line itself.
        cases a with
        | nil =>
          cases ha
          exact absurd hb hm.not_bareThrow
        | cons x a =>
          cases ha
          exact ⟨line, by simp, hm⟩
      · cases a with
        | nil =>
          cases ha
          exact absurd hb hm.not_bareThrow
        | cons x a =>
          cases ha
          exact absurd hb (h l (by simp)).2
  | crash before line rest hl hb h =>
    refine iff_of_false ?_ fun hmal => ?_
    · rintro (⟨_, h⟩ | ⟨_, _, -, -, h⟩)
      · cases h
      · cases h
    · obtain ⟨l, hmem, hm⟩ := hmal before line rest hl hb
      exact (h l hmem).1 hm

theorem parse_empty_key : ¬ CompletesOrThrows "=value" := by
  rintro (⟨sections, h⟩ | ⟨n, what, -, -, h⟩)
  · cases h
  · cases h

example : parse "key = \"abc" = .error .terminate := by decide

/-! ## Documents that keep to the format -/

def Blank (l : List Char) : Prop := ∀ c ∈ l, isSpace c

instance (l : List Char) : Decidable (Blank l) := List.decidableBAll (isSpace ·) l

/-- What may stand behind the `=`, and the value it denotes. -/
inductive Value : List Char → List Char → Prop
  | empty (a : List Char) (ha : Blank a) : Value a []
  | quoted (a : List Char) (q : Char) (v rest : List Char) (ha : Blank a) (hq : q ∈ m_quotes)
    (hv : q ∉ v) (he : '\\' ∉ v) : Value (a ++ q :: (v ++ q :: rest)) v
  | token (a : List Char) (x : Char) (v rest : List Char) (ha : Blank a) (hx : x ∉ m_quotes)
    (hv : ∀ c ∈ x :: v, isSpace c = false) (hr : ∀ c ∈ rest.head?, isSpace c) :
    Value (a ++ (x :: v) ++ rest) (x :: v)

/-- The lines of the format and what they denote. The white space of the format is that of the
parser. -/
inductive Denotes : List Char → Reading → Prop
  | blank (line : List Char) (h : Blank line) : Denotes line .nothing
  | comment (a : List Char) (c : Char) (rest : List Char) (ha : Blank a)
    (hc : c ∈ commentStart) (hr : '=' ∉ rest) : Denotes (a ++ c :: rest) .nothing
  | header (a b name c rest : List Char) (ha : Blank a) (hb : Blank b) (hc : Blank c)
    (hne : name ≠ []) (ht : Trimmed isSpace name) (hend : ']' ∉ name) (he : '\\' ∉ name) :
    Denotes (a ++ '[' :: (b ++ name ++ c ++ ']' :: rest)) (.header name)
  | assignment (a : List Char) (x : Char) (key b rest value : List Char) (ha : Blank a)
    (hb : Blank b) (ht : Trimmed isSpace (x :: key)) (hx : x ≠ '[' ∧ x ∉ commentStart)
    (heq : '=' ∉ x :: key) (he : '\\' ∉ x :: key) (hv : Value rest value) :
    Denotes (a ++ (x :: key) ++ b ++ '=' :: rest) (.assignment (x :: key) value)

theorem mem_quotes {q : Char} (h : q ∈ m_quotes) : isSpace q = false ∧ q ≠ '\\' := by
  have hq : q = '\x27' ∨ q = '"' := by
    rwa [show m_quotes = ['\x27', '"'] from rfl, List.mem_pair] at h
  rcases hq with rfl | rfl <;> decide

theorem mem_commentStart {c : Char} (h : c ∈ commentStart) :
    isSpace c = false ∧ c ≠ '[' ∧ c ≠ '=' := by
  have hc : c = '#' ∨ c = ';' := by
    rwa [show commentStart = ['#', ';'] from rfl, List.mem_pair] at h
  rcases hc with rfl | rfl <;> decide

theorem Blank.not_mem {l : List Char} (h : Blank l) {c : Char} (hc : isSpace c = false) :
    c ∉ l := by
  intro hl
  rw [h c hl] at hc
  cases hc

theorem not_mem_padded {a m b : List Char} (ha : Blank a) (hb : Blank b) {c : Char}
    (hc : isSpace c = false) (hm : c ∉ m) : c ∉ a ++ m ++ b := by
  simp only [List.mem_append, not_or]
  exact ⟨⟨ha.not_mem hc, hm⟩, hb.not_mem hc⟩

theorem strip_padded {a m b : List Char} (ha : Blank a) (hb : Blank b)
    (hm : Trimmed isSpace m) : strip isSpace (a ++ m ++ b) = m := by
  rw [strip_append_right hb, strip_append_left ha, strip_of_trimmed hm]

/-- Behind the first character a stripped line goes on as it is, up to the spaces at its end. -/
theorem strip_append_cons {a l : List Char} {x : Char} (ha : Blank a) (hx : isSpace x = false) :
    strip isSpace (a ++ x :: l) = x :: l.rdropWhile isSpace := by
  rw [strip_append_left ha, strip_cons hx]
  exact @rdropWhile_append_cons _ _ [] l x hx

theorem sectionOf_of_ne {line rest : List Char} {x : Char} (h : strip isSpace line = x :: rest)
    (hx : x ≠ '[') : sectionOf line = [] := by
  simp only [sectionOf, h, if_neg hx]

theorem valueOf_of_value {rest value : List Char} (h : Value rest value) :
    valueOf (strip isSpace rest) = some value := by
  cases h with
  | empty _ ha => rw [strip_eq_nil_of_all ha, valueOf]
  | quoted a q v rest ha hq hv he =>
    obtain ⟨hs, hne⟩ := mem_quotes hq
    rw [strip_append_cons ha hs, rdropWhile_append_cons hs, valueOf,
      if_pos (List.contains_iff_mem.mpr hq),
      cut_append_cons hv he fun h => hne (Option.some.inj h)]
    rfl
  | token a x v rest ha hx hv hr =>
    -- The token ends with the line or in front of a space.
    have hstrip : strip isSpace (a ++ (x :: v) ++ rest) = x :: v ++ rest.rdropWhile isSpace := by
      obtain ⟨w, y, hw⟩ : ∃ w y, x :: v = w ++ [y] :=
        ⟨_, _, (List.dropLast_append_getLast (List.cons_ne_nil x v)).symm⟩
      have hy : isSpace y = false := hv y (by simp [hw])
      rw [List.append_assoc, strip_append_left ha, List.cons_append, strip_cons (hv x (by simp)),
        ← List.cons_append, hw, List.append_assoc, List.singleton_append,
        rdropWhile_append_cons hy, List.append_assoc, List.singleton_append]
    have hend : (rest.rdropWhile isSpace).takeWhile (fun c => !isSpace c) = [] := by
      obtain ⟨t, ht⟩ := List.rdropWhile_prefix isSpace (l := rest)
      cases hd : rest.rdropWhile isSpace with
      | nil => rfl
      | cons c l =>
        have hc : isSpace c := hr c (by rw [← ht, hd]; rfl)
        rw [List.takeWhile_cons_of_neg (by simp [hc])]
    rw [hstrip, List.cons_append, valueOf, if_neg (by simpa using hx), ← List.cons_append,
      List.takeWhile_append_of_pos (fun c hc => by rw [hv c hc, Bool.not_false]), hend,
      List.append_nil]

theorem read_of_denotes {line : List Char} {r : Reading} (h : Denotes line r) : read line = r := by
  cases h with
  | blank _ h =>
    have hstrip : strip isSpace line = [] := strip_eq_nil_of_all h
    have hsec : sectionOf line = [] := by rw [sectionOf, hstrip]
    rw [read, if_pos hsec, readKeyValue, cut_of_notMem (h.not_mem (by decide)), hstrip]
  | comment a c rest ha hc hr =>
    obtain ⟨hs, hbr, heq⟩ := mem_commentStart hc
    have hstrip := strip_append_cons (l := rest) ha hs
    rw [read, if_pos (sectionOf_of_ne hstrip hbr), readKeyValue, cut_of_notMem, hstrip]
    · exact if_pos (List.contains_iff_mem.mpr hc)
    · simp only [List.mem_append, List.mem_cons, not_or]
      exact ⟨ha.not_mem (by decide), Ne.symm heq, hr⟩
  | header a b name c rest ha hb hc hne ht hend he =>
    have hcut (rest : List Char) : cut '\\' ']' (some '[') (b ++ name ++ c ++ ']' :: rest) =
        some (b ++ name ++ c, rest) :=
      cut_append_cons (not_mem_padded hb hc (by decide) hend)
        (not_mem_padded hb hc (by decide) he) (by decide)
    have hsec : sectionOf (a ++ '[' :: (b ++ name ++ c ++ ']' :: rest)) = name := by
      rw [sectionOf, strip_append_cons ha (by decide), rdropWhile_append_cons (by decide)]
      simp only [if_true, hcut]
      exact strip_padded hb hc ht
    rw [read, hsec, if_neg hne]
  | assignment a x key b rest value ha hb ht hx heq he hv =>
    have hcut : cut '\\' '=' none (a ++ (x :: key) ++ b ++ '=' :: rest) =
        some (a ++ (x :: key) ++ b, rest) :=
      cut_append_cons (not_mem_padded ha hb (by decide) heq)
        (not_mem_padded ha hb (by decide) he) (by decide)
    have hstrip : strip isSpace (a ++ (x :: key) ++ b ++ '=' :: rest) =
        x :: (key ++ (b ++ '=' :: rest)).rdropWhile isSpace := by
      simp only [List.append_assoc, List.cons_append]
      exact strip_append_cons ha (ht.1 x rfl)
    rw [read, if_pos (sectionOf_of_ne hstrip hx.1), readKeyValue, hcut]
    simp only [strip_padded ha hb ht, reduceCtorEq, if_false, valueOf_of_value hv]

/-- The assignments of a document: section, key and value. Before the first header the section is
`section_`. -/
def assignments (section_ : String) : List Reading → List (String × String × String)
  | [] => []
  | .header name :: rs => assignments (String.ofList name) rs
  | .assignment key value :: rs =>
    (section_, String.ofList key, String.ofList value) :: assignments section_ rs
  | _ :: rs => assignments section_ rs

/-- The value of the last assignment of a key in a section. -/
def lastValue (as : List (String × String × String)) (section_ key : String) : Option String :=
  ((as.filter fun a => a.1 = section_ ∧ a.2.1 = key).getLast?).map fun a => a.2.2

/-- The value stored for a key. -/
def stored (m_sections : Sections) (section_ key : String) : Option String :=
  (m_sections.lookup section_).bind (·.lookup key)

theorem lookup_assign (m_sections : Sections) (s k v s' : String) :
    (assign m_sections s k v).lookup s' =
      if s' = s then some (((m_sections.lookup s).getD ∅).insert k v)
      else m_sections.lookup s' := by
  rw [assign]
  split
  · rename_i h
    rw [h, AList.lookup_insert]
  · rename_i h
    rw [AList.lookup_insert_ne h]

theorem stored_assign (m_sections : Sections) (s k v s' k' : String) :
    stored (assign m_sections s k v) s' k' =
      if s' = s ∧ k' = k then some v else stored m_sections s' k' := by
  rw [stored, lookup_assign, stored]
  by_cases hs : s' = s
  · rw [if_pos hs, Option.bind_some, hs]
    by_cases hk : k' = k
    · rw [if_pos ⟨rfl, hk⟩, hk, AList.lookup_insert]
    · rw [if_neg fun h => hk h.2, AList.lookup_insert_ne hk]
      cases m_sections.lookup s with
      | none => rfl
      | some keys => rfl
  · rw [if_neg hs, if_neg fun h => hs h.1]

theorem lastValue_cons (s k v s' k' : String) (as : List (String × String × String)) :
    lastValue ((s, k, v) :: as) s' k' =
      (lastValue as s' k').or (if s' = s ∧ k' = k then some v else none) := by
  rw [lastValue, List.filter_cons, lastValue]
  by_cases h : s = s' ∧ k = k'
  · obtain ⟨rfl, rfl⟩ := h
    simp only [and_self, decide_true, if_true, List.getLast?_cons]
    cases (as.filter fun a => decide (a.1 = s ∧ a.2.1 = k)).getLast? with
    | none => rfl
    | some a => rfl
  · have h' : ¬ (s' = s ∧ k' = k) := fun ⟨hs, hk⟩ => h ⟨hs.symm, hk.symm⟩
    simp only [h, h', decide_false, if_false, Option.or_none, Bool.false_eq_true]

theorem isSome_lastValue {as : List (String × String × String)} {s k : String} :
    (lastValue as s k).isSome ↔ ∃ a ∈ as, a.1 = s ∧ a.2.1 = k := by
  rw [lastValue, Option.isSome_map, List.getLast?_isSome]
  simp [List.filter_eq_nil_iff]

/-- What a run over lines that are passed stores, by induction on the lines: an assignment in them
wins over what was stored before. -/
theorem parseLines_of_passed {lines : List (List Char)}
    (h : ∀ line ∈ lines, ¬ Malformed line ∧ ¬ BareThrow line) (m_sections : Sections)
    (lastSection : List Char) (lineCounter : Nat) :
    ∃ r, parseLines m_sections lastSection lineCounter lines = .ok r ∧
      (∀ s, (r.lookup s).isSome ↔ (m_sections.lookup s).isSome ∨
        ∃ a ∈ assignments (String.ofList lastSection) (lines.map read), a.1 = s) ∧
      ∀ s k, stored r s k =
        (lastValue (assignments (String.ofList lastSection) (lines.map read)) s k).or
          (stored m_sections s k) := by
  induction lines generalizing m_sections lastSection lineCounter with
  | nil => exact ⟨m_sections, rfl, by simp [assignments], by simp [assignments, lastValue]⟩
  | cons line lines ih =>
    obtain ⟨hline, hlines⟩ := List.forall_mem_cons.mp h
    rw [← read_eq_syntaxError, ← read_eq_crash] at hline
    rw [parseLines, parseLine_eq, List.map_cons]
    cases hr : read line with
    | header name => exact ih hlines _ _ _
    | nothing => exact ih hlines _ _ _
    | syntaxError => exact absurd hr hline.1
    | crash => exact absurd hr hline.2
    | assignment key value =>
      obtain ⟨r, hr, hsec, hval⟩ := ih hlines (assign m_sections (String.ofList lastSection)
        (String.ofList key) (String.ofList value)) lastSection (lineCounter + 1)
      refine ⟨r, hr, fun s => ?_, fun s k => ?_⟩
      · rw [hsec, lookup_assign, assignments, List.exists_mem_cons_iff]
        by_cases hs : s = String.ofList lastSection
        · simp [hs]
        · simp [hs, Ne.symm hs]
      · rw [hval, stored_assign, assignments, lastValue_cons, Option.or_assoc]
        congr 1
        split
        · rfl
        · rfl

def readings (text : String) : List Reading := (getlines text.toList).map read

theorem parse_isOk_iff (text : String) : (∃ sections, parse text = .ok sections) ↔
    ∀ line ∈ getlines text.toList, ¬ Malformed line ∧ ¬ BareThrow line := by
  constructor
  · rintro ⟨sections, hp⟩
    have hends := parseLines_ends (getlines text.toList) ∅ [] 0
    rw [show parseLines ∅ [] 0 (getlines text.toList) = .ok sections from hp] at hends
    cases hends with
    | completes _ h => exact h
  · intro h
    obtain ⟨r, hr, -⟩ := parseLines_of_passed h ∅ [] 0
    exact ⟨r, hr⟩

/-- What the constructor stores: the sections of the assignments, and for a key the value of its
last assignment. -/
theorem parse_spec {text : String} {sections : Sections} (h : parse text = .ok sections) :
    (∀ s, (sections.lookup s).isSome ↔ ∃ a ∈ assignments "" (readings text), a.1 = s) ∧
      ∀ s k, stored sections s k = lastValue (assignments "" (readings text)) s k := by
  obtain ⟨r, hr, hsec, hval⟩ :=
    parseLines_of_passed ((parse_isOk_iff text).mp ⟨sections, h⟩) ∅ [] 0
  obtain rfl : r = sections := Except.ok.inj (hr.symm.trans h)
  refine ⟨fun s => ?_, fun s k => ?_⟩
  · rw [hsec, AList.lookup_empty, Option.isSome_none, Bool.false_eq_true, false_or]
    rfl
  · rw [hval, stored, AList.lookup_empty, Option.bind_none, Option.or_none]
    rfl

theorem Denotes.passed {line : List Char} {r : Reading} (h : Denotes line r) :
    ¬ Malformed line ∧ ¬ BareThrow line := by
  rw [← read_eq_syntaxError, ← read_eq_crash, read_of_denotes h]
  cases h with
  | blank | comment | header | assignment => exact ⟨by simp, by simp⟩

theorem map_read_of_denotes {lines : List (List Char)} {rs : List Reading}
    (h : List.Forall₂ Denotes lines rs) :
    lines.map read = rs ∧ ∀ line ∈ lines, ¬ Malformed line ∧ ¬ BareThrow line := by
  induction h with
  | nil => exact ⟨rfl, by simp⟩
  | cons hl _ ih =>
    rw [List.map_cons, read_of_denotes hl, ih.1, List.forall_mem_cons]
    exact ⟨rfl, hl.passed, ih.2⟩

/-- A document of the format is parsed, and the last assignment of a key in a section counts. -/
theorem parse_of_denotes (text : String) (rs : List Reading)
    (h : List.Forall₂ Denotes (getlines text.toList) rs) :
    ∃ sections, parse text = .ok sections ∧
      ∀ section_, (∃ a ∈ assignments "" rs, a.1 = section_) → ∀ key, key ≠ "" →
        (∀ defaultValue, sections.getString section_ key defaultValue =
          .ok ((lastValue (assignments "" rs) section_ key).getD defaultValue)) ∧
        ∃ b, sections.keyExists section_ key = .ok b ∧
          (b = true ↔ ∃ a ∈ assignments "" rs, a.1 = section_ ∧ a.2.1 = key) := by
  obtain ⟨hrs, hpass⟩ := map_read_of_denotes h
  obtain ⟨r, hr⟩ := (parse_isOk_iff text).mpr hpass
  obtain ⟨hsec, hval⟩ := parse_spec hr
  rw [show readings text = rs from hrs] at hsec hval
  refine ⟨r, hr, fun s hs k hk => ?_⟩
  obtain ⟨keys, hkeys⟩ := Option.isSome_iff_exists.mp ((hsec s).mpr hs)
  have hlookup : keys.lookup k = lastValue (assignments "" rs) s k := by
    have := hval s k
    rwa [stored, hkeys, Option.bind_some] at this
  constructor
  · intro d
    rw [Sections.getString, if_neg hk, hkeys]
    simp only [hlookup]
  · refine ⟨(keys.lookup k).isSome, by rw [Sections.keyExists, hkeys], ?_⟩
    rw [hlookup, isSome_lastValue]

theorem parse_of_denotes_two : ∃ sections,
    parse "k = '#=' rest\n [a] x\n;\n k=" = .ok sections ∧
      sections.getString "" "k" "d" = .ok "#=" ∧ sections.getString "a" "k" "d" = .ok "" := by
  have hden : List.Forall₂ Denotes (getlines "k = '#=' rest\n [a] x\n;\n k=".toList)
      [.assignment ['k'] "#=".toList, .header ['a'], .nothing, .assignment ['k'] []] :=
    .cons (.assignment [] 'k' [] [' '] " '#=' rest".toList "#=".toList (by decide) (by decide)
      (by decide) (by decide) (by decide) (by decide)
      (.quoted [' '] '\x27' "#=".toList " rest".toList (by decide) (by decide) (by decide)
        (by decide)))
    (.cons (.header [' '] [] ['a'] [] " x".toList (by decide) (by decide) (by decide) (by decide)
      (by decide) (by decide) (by decide))
    (.cons (.comment [] ';' [] (by decide) (by decide) (by decide))
    (.cons (.assignment [' '] 'k' [] [] [] [] (by decide) (by decide) (by decide) (by decide)
      (by decide) (by decide) (.empty [] (by decide))) .nil)))
  obtain ⟨sections, hp, h⟩ := parse_of_denotes _ _ hden
  exact ⟨sections, hp, (h "" ⟨_, .head _, rfl⟩ "k" (by decide)).1 "d",
    (h "a" ⟨_, .tail _ (.head _), rfl⟩ "k" (by decide)).1 "d"⟩

end IniFileParserImpl

end Nds3
