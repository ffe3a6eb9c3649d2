import Nds3.Ini.Document

/-!
# Line endings and blanks around the lines

The constructor cannot tell a text from one whose lines are padded with spaces, tabs and carriage
returns.
-/

namespace Nds3

/-- What `getlines` makes of the pieces between the line breaks: an empty one behind the last line
break is no line. -/
def completed : List (List Char) → List (List Char)
  | [] => []
  | [l] => if l = [] then [] else [l]
  | l :: l' :: ls => l :: completed (l' :: ls)

theorem completed_cons {ls : List (List Char)} (h : ls ≠ []) (l : List Char) :
    completed (l :: ls) = l :: completed ls := by
  cases ls with
  | nil => exact absurd rfl h
  | cons l' ls => rfl

theorem getlines_eq (text : List Char) : getlines text = completed (text.splitOn '\n') := by
  induction text with
  | nil => rfl
  | cons c text ih =>
    have hne : text.splitOn '\n' ≠ [] := List.splitOn_ne_nil _ _
    rw [getlines, ih, List.splitOn_cons_eq_if_modifyHead]
    by_cases hc : c = '\n'
    · rw [if_pos hc, if_pos (beq_iff_eq.mpr hc), completed_cons hne]
    · rw [if_neg hc, if_neg (by simpa using hc)]
      cases hs : text.splitOn '\n' with
      | nil => exact absurd hs hne
      | cons l ls =>
        cases ls with
        | nil =>
          by_cases hl : l = []
          · simp [completed, hl]
          · simp [completed, hl]
        | cons l' ls => rfl

namespace IniFileParserImpl

open Scan

/-- Spaces, tabs and carriage returns. -/
def Padding (l : List Char) : Prop := ∀ c ∈ l, c = ' ' ∨ c = '\t' ∨ c = '\r'

instance (l : List Char) : Decidable (Padding l) :=
  List.decidableBAll (fun c => c = ' ' ∨ c = '\t' ∨ c = '\r') l

/-- The second line is the first with padding at both ends. -/
def PaddedLine (line line' : List Char) : Prop :=
  ∃ a b, Padding a ∧ Padding b ∧ line' = a ++ line ++ b

/-- The second text is the first with padding around any of its lines. -/
def Padded (text text' : String) : Prop :=
  List.Forall₂ PaddedLine (text.toList.splitOn '\n') (text'.toList.splitOn '\n')

theorem Padding.blank {l : List Char} (h : Padding l) : Blank l := by
  intro c hc
  obtain rfl | rfl | rfl := h c hc
  · decide
  · decide
  · decide

/-- Blanks at its ends do not change what a line says. The search for the `=` looks at the raw
line, but a blank is neither an `=` nor hides one. -/
theorem read_padded {a b : List Char} (ha : Blank a) (hb : Blank b) (line : List Char) :
    read (a ++ line ++ b) = read line := by
  have hstrip : strip isSpace (a ++ line ++ b) = strip isSpace line := by
    rw [strip_append_right hb, strip_append_left ha]
  have hsec : sectionOf (a ++ line ++ b) = sectionOf line := by
    rw [sectionOf, hstrip, sectionOf]
  have hprev : a.getLast?.or none ≠ some '\\' :=
    getLast?_or_ne (ha.not_mem (by decide)) (by simp)
  have hcut : cut '\\' '=' none (a ++ line ++ b) =
      (cut '\\' '=' none line).map fun kv => (a ++ kv.1, kv.2 ++ b) := by
    rw [cut_append_right (hb.not_mem (by decide)), cut_append (ha.not_mem (by decide)),
      cut_of_ne hprev, Option.map_map]
    rfl
  rw [read, hsec, read, readKeyValue, hcut, hstrip, readKeyValue]
  cases cut '\\' '=' none line with
  | none => rfl
  | some r =>
    obtain ⟨key, value⟩ := r
    simp only [Option.map_some, strip_append_left ha, strip_append_right hb]

theorem PaddedLine.read_eq {line line' : List Char} (h : PaddedLine line line') :
    read line' = read line := by
  obtain ⟨a, b, ha, hb, rfl⟩ := h
  exact read_padded ha.blank hb.blank line

theorem PaddedLine.read_of_nil {line' : List Char} (h : PaddedLine [] line') :
    read line' = .nothing :=
  h.read_eq

/-- The loop over the first `n` lines, by induction on the pieces between the line breaks. -/
theorem parseLines_padded {ls ls' : List (List Char)} (h : List.Forall₂ PaddedLine ls ls') (n : Nat)
    (m_sections : Sections) (lastSection : List Char) (lineCounter : Nat) :
    parseLines m_sections lastSection lineCounter ((completed ls').take n) =
      parseLines m_sections lastSection lineCounter ((completed ls).take n) := by
  induction h generalizing n m_sections lastSection lineCounter with
  | nil => rfl
  | @cons line line' ls ls' hline hls ih =>
    cases n with
    | zero => rfl
    | succ n =>
      cases hls with
      | nil =>
        by_cases hl' : line' = []
        · -- Nothing was added to an empty piece.
          obtain ⟨a, b, -, -, rfl⟩ := hline
          rw [List.append_eq_nil_iff, List.append_eq_nil_iff] at hl'
          obtain ⟨⟨rfl, rfl⟩, rfl⟩ := hl'
          rfl
        by_cases hl : line = []
        · -- A line of padding behind the last line break.
          subst hl
          simp only [completed, if_neg hl', if_true, List.take_succ_cons, List.take_nil, parseLines,
            parseLine_eq, hline.read_of_nil]
          rfl
        · simp only [completed, if_neg hl', if_neg hl, List.take_succ_cons, List.take_nil,
            parseLines, parseLine_eq, hline.read_eq]
      | cons hnext hrest =>
        rw [completed_cons (List.cons_ne_nil _ _) line', completed_cons (List.cons_ne_nil _ _) line,
          List.take_succ_cons, List.take_succ_cons, parseLines, parseLines, parseLine_eq,
          parseLine_eq, hline.read_eq]
        cases (read line).apply m_sections lastSection with
        | error e => rfl
        | ok r => exact ih n r.1 r.2 (lineCounter + 1)

/-- The constructor on the first `n` lines of a text. -/
def parsePrefix (text : String) (n : Nat) : Except Abort Sections :=
  parseLines ∅ [] 0 ((getlines text.toList).take n)

/-- The constructor fails at the line with this number. -/
def FailsAt (text : String) (line : Nat) (e : Abort) : Prop :=
  ∃ n, line = n + 1 ∧ (∃ sections, parsePrefix text n = .ok sections) ∧
    parsePrefix text (n + 1) = .error e

theorem parsePrefix_padded {text text' : String} (h : Padded text text') (n : Nat) :
    parsePrefix text' n = parsePrefix text n := by
  rw [parsePrefix, getlines_eq, parsePrefix, getlines_eq]
  exact parseLines_padded h n ∅ [] 0

theorem parse_eq_parsePrefix {text : String} {n : Nat} (h : (getlines text.toList).length ≤ n) :
    parse text = parsePrefix text n := by
  rw [parsePrefix, List.take_of_length_le h, parse]

/-- Padding changes neither the sections nor the failure and its line. -/
theorem parse_padded (text text' : String) (h : Padded text text') :
    parse text' = parse text ∧ ∀ line e, FailsAt text' line e ↔ FailsAt text line e := by
  constructor
  · rw [parse_eq_parsePrefix (le_max_left _ (getlines text.toList).length),
      parse_eq_parsePrefix (le_max_right (getlines text'.toList).length _),
      parsePrefix_padded h]
  · intro line e
    simp only [FailsAt, parsePrefix_padded h]

/-- CRLF in place of LF. -/
theorem parse_padded_crlf : parse "[a]\r\n# c\r\nk = v\r\nx\r\n" = parse "[a]\n# c\nk = v\nx\n" ∧
    ∀ line e, FailsAt "[a]\r\n# c\r\nk = v\r\nx\r\n" line e ↔
      FailsAt "[a]\n# c\nk = v\nx\n" line e :=
  parse_padded _ _ <|
    .cons ⟨[], ['\r'], by decide, by decide, rfl⟩ <|
    .cons ⟨[], ['\r'], by decide, by decide, rfl⟩ <|
    .cons ⟨[], ['\r'], by decide, by decide, rfl⟩ <|
    .cons ⟨[], ['\r'], by decide, by decide, rfl⟩ <|
    .cons ⟨[], [], by decide, by decide, rfl⟩ .nil

example : FailsAt "[a]\r\n# c\r\nk = v\r\nx\r\n" 4 (syntaxErrorOn 4) :=
  ⟨3, rfl, ⟨_, rfl⟩, by decide⟩

end IniFileParserImpl

end Nds3
