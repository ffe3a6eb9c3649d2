import Nds3.Ini.Sections

/-!
# Comments

A line that starts with `#` or `;` is looked at for an assignment before it is taken for a comment.
-/

namespace Nds3

namespace Sections

/-- The two parsers answer every call alike. -/
structure SameAnswers (sections sections' : Sections) : Prop where
  getSections : sections.getSections = sections'.getSections
  getString : ∀ s key defaultValue,
    sections.getString s key defaultValue = sections'.getString s key defaultValue
  keyExists : ∀ s key, sections.keyExists s key = sections'.keyExists s key

variable {sections sections' : Sections}

/-- `std::map` keeps its keys in order, whatever was stored first. -/
theorem getSections_congr (h : ∀ s, (sections.lookup s).isSome = (sections'.lookup s).isSome) :
    sections.getSections = sections'.getSections := by
  have hperm : sections.keys.Perm sections'.keys :=
    (List.perm_ext_iff_of_nodup sections.keys_nodup sections'.keys_nodup).mpr fun s => by
      rw [← AList.mem_keys, ← AList.mem_keys, ← AList.lookup_isSome, ← AList.lookup_isSome, h]
  refine List.Perm.eq_of_pairwise' (r := (· ≤ ·)) ?_ ?_ ?_
  · exact List.pairwise_insertionSort _ _
  · exact List.pairwise_insertionSort _ _
  · exact ((List.perm_insertionSort _ _).trans hperm).trans (List.perm_insertionSort _ _).symm

open IniFileParserImpl

theorem getString_eq_stored (s k d : String) : sections.getString s k d =
    if k = "" then .ok d
    else if (sections.lookup s).isSome then .ok ((stored sections s k).getD d)
    else .error (missingSection s) := by
  rw [getString, stored]
  cases sections.lookup s with
  | none => rfl
  | some keys => rfl

theorem keyExists_eq_stored (s k : String) : sections.keyExists s k =
    if (sections.lookup s).isSome then .ok (stored sections s k).isSome
    else .error (missingSection s) := by
  rw [keyExists, stored]
  cases sections.lookup s with
  | none => rfl
  | some keys => rfl

theorem sameAnswers_of_stored
    (hsec : ∀ s, (sections.lookup s).isSome = (sections'.lookup s).isSome)
    (hval : ∀ s k, stored sections s k = stored sections' s k) :
    SameAnswers sections sections' := by
  refine ⟨getSections_congr hsec, fun s k d => ?_, fun s k => ?_⟩
  · rw [getString_eq_stored, getString_eq_stored, hsec, hval]
  · rw [keyExists_eq_stored, keyExists_eq_stored, hsec, hval]

theorem isSome_of_stored {s k v : String} (h : stored sections s k = some v) :
    (sections.lookup s).isSome := by
  obtain ⟨keys, hl, -⟩ := Option.bind_eq_some_iff.mp h
  rw [hl, Option.isSome_some]

theorem SameAnswers.stored_eq (h : SameAnswers sections sections') {s k v : String} (hk : k ≠ "")
    (hs : stored sections s k = some v) : stored sections' s k = some v := by
  have hexists := h.keyExists s k
  rw [keyExists_eq_stored, keyExists_eq_stored, if_pos (isSome_of_stored hs), hs] at hexists
  split at hexists
  · rename_i hl
    obtain ⟨v', hv'⟩ := Option.isSome_iff_exists.mp (Except.ok.inj hexists).symm
    have hget := h.getString s k ""
    rw [getString_eq_stored, getString_eq_stored, if_neg hk, if_neg hk,
      if_pos (isSome_of_stored hs), if_pos hl, hs, hv', Option.getD_some, Option.getD_some] at hget
    rw [hv', Except.ok.inj hget]
  · cases hexists

end Sections

namespace IniFileParserImpl

open Scan

/-- The first character that is not blank starts a comment. -/
def CommentLine (line : List Char) : Prop :=
  ∃ c rest, strip isSpace line = c :: rest ∧ c ∈ commentStart

/-- Taking the line out of the first text, or putting it into the second, keeps the text accepted
and the answers the same. -/
structure Inert (text text' : String) : Prop where
  remove : ∀ sections, parse text = .ok sections →
    ∃ sections', parse text' = .ok sections' ∧ sections.SameAnswers sections'
  insert : ∀ sections', parse text' = .ok sections' →
    ∃ sections, parse text = .ok sections ∧ sections.SameAnswers sections'

/-- The section that is open behind some lines. -/
def sectionAfter (section_ : String) : List Reading → String
  | [] => section_
  | .header name :: rs => sectionAfter (String.ofList name) rs
  | _ :: rs => sectionAfter section_ rs

/-- No assignment hides in the comment, or one that makes no difference: the key is assigned again
later in the section, or has the value already. -/
def Harmless (before : List Reading) (line : List Char) (after : List Reading) : Prop :=
  cut '\\' '=' none line = none ∨
    ∃ key value, read line = .assignment key value ∧
      ((∃ a ∈ assignments (sectionAfter "" before) after,
          a.1 = sectionAfter "" before ∧ a.2.1 = String.ofList key) ∨
        lastValue (assignments "" before) (sectionAfter "" before) (String.ofList key) =
          some (String.ofList value))

theorem assignments_append (section_ : String) (rs rs' : List Reading) :
    assignments section_ (rs ++ rs') =
      assignments section_ rs ++ assignments (sectionAfter section_ rs) rs' := by
  induction rs generalizing section_ with
  | nil => rfl
  | cons r rs ih =>
    cases r with
    | header name => exact ih _
    | assignment key value => exact congrArg (_ :: ·) (ih _)
    | nothing => exact ih _
    | syntaxError => exact ih _
    | crash => exact ih _

theorem lastValue_append (as bs : List (String × String × String)) (s k : String) :
    lastValue (as ++ bs) s k = (lastValue bs s k).or (lastValue as s k) := by
  rw [lastValue, List.filter_append, List.getLast?_append, Option.map_or]
  rfl

/-- A comment says nothing when it has no unescaped `=`. Else it is an assignment or crashes. -/
theorem CommentLine.read_cases {line : List Char} (h : CommentLine line) :
    (cut '\\' '=' none line = none ∧ read line = .nothing) ∨
      cut '\\' '=' none line ≠ none ∧
        (read line = .crash ∨ ∃ key value, key ≠ [] ∧ read line = .assignment key value) := by
  obtain ⟨c, rest, hstrip, hc⟩ := h
  have hsec := sectionOf_of_ne hstrip (mem_commentStart hc).2.1
  rw [read, if_pos hsec]
  cases hcut : cut '\\' '=' none line with
  | none =>
    refine .inl ⟨rfl, ?_⟩
    rw [readKeyValue, hcut, hstrip]
    exact if_pos (List.contains_iff_mem.mpr hc)
  | some r =>
    refine .inr ⟨by simp, ?_⟩
    rw [readKeyValue, hcut]
    simp only
    split
    · exact .inl rfl
    · rename_i hkey
      split
      · exact .inl rfl
      · exact .inr ⟨_, _, hkey, rfl⟩

theorem CommentLine.not_malformed {line : List Char} (h : CommentLine line) :
    ¬ Malformed line := by
  rw [← read_eq_syntaxError]
  obtain ⟨-, hr⟩ | ⟨-, hr | ⟨key, value, -, hr⟩⟩ := h.read_cases
  · simp [hr]
  · simp [hr]
  · simp [hr]

theorem Harmless.read_ne_crash {before after : List Reading} {line : List Char}
    (h : Harmless before line after) (hc : CommentLine line) : read line ≠ .crash := by
  obtain hcut | ⟨key, value, hr, -⟩ := h
  · obtain ⟨-, hr⟩ | ⟨hne, -⟩ := hc.read_cases
    · simp [hr]
    · exact absurd hcut hne
  · simp [hr]

theorem lastValue_insert (as bs : List (String × String × String)) (s k v s' k' : String) :
    lastValue (as ++ (s, k, v) :: bs) s' k' =
      ((lastValue bs s' k').or (if s' = s ∧ k' = k then some v else none)).or
        (lastValue as s' k') := by
  rw [lastValue_append, lastValue_cons]

section

variable {as bs : List (String × String × String)} {s k v : String}

/-- A value that is assigned again, or was there already, is in a section that is there anyway. -/
theorem exists_section_insert
    (h : (∃ a ∈ bs, a.1 = s ∧ a.2.1 = k) ∨ lastValue as s k = some v) (s' : String) :
    (∃ a ∈ as ++ (s, k, v) :: bs, a.1 = s') ↔ ∃ a ∈ as ++ bs, a.1 = s' := by
  have hmem : ∃ a ∈ as ++ bs, a.1 = s := by
    obtain ⟨a, ha, ho, -⟩ | hlast := h
    · exact ⟨a, List.mem_append_right _ ha, ho⟩
    · obtain ⟨a, ha, ho, -⟩ := isSome_lastValue.mp (Option.isSome_of_eq_some hlast)
      exact ⟨a, List.mem_append_left _ ha, ho⟩
  simp only [List.mem_append, List.mem_cons] at hmem ⊢
  constructor
  · rintro ⟨a, ha | rfl | ha, rfl⟩
    · exact ⟨a, .inl ha, rfl⟩
    · exact hmem
    · exact ⟨a, .inr ha, rfl⟩
  · rintro ⟨a, ha | ha, rfl⟩
    · exact ⟨a, .inl ha, rfl⟩
    · exact ⟨a, .inr (.inr ha), rfl⟩

theorem lastValue_insert_eq
    (h : (∃ a ∈ bs, a.1 = s ∧ a.2.1 = k) ∨ lastValue as s k = some v) (s' k' : String) :
    lastValue (as ++ (s, k, v) :: bs) s' k' = lastValue (as ++ bs) s' k' := by
  rw [lastValue_insert, lastValue_append]
  split
  · next heq =>
    obtain ⟨rfl, rfl⟩ := heq
    obtain hlater | hlast := h
    · obtain ⟨v', hv⟩ := Option.isSome_iff_exists.mp (isSome_lastValue.mpr hlater)
      rw [hv, Option.some_or, Option.some_or]
    · rw [hlast]
      cases lastValue bs s' k' with
      | none => rfl
      | some v' => rfl
  · rw [Option.or_none]

end

theorem Harmless.assignments_eq {before after : List Reading} {line : List Char}
    (h : Harmless before line after) (hc : CommentLine line) :
    (∀ s, (∃ a ∈ assignments "" (before ++ read line :: after), a.1 = s) ↔
      ∃ a ∈ assignments "" (before ++ after), a.1 = s) ∧
      ∀ s k, lastValue (assignments "" (before ++ read line :: after)) s k =
        lastValue (assignments "" (before ++ after)) s k := by
  rw [assignments_append, assignments_append]
  obtain hcut | ⟨key, value, hr, hval⟩ := h
  · obtain ⟨-, hr⟩ | ⟨hne, -⟩ := hc.read_cases
    · rw [hr]
      exact ⟨fun s => Iff.rfl, fun s k => rfl⟩
    · exact absurd hcut hne
  · rw [hr, assignments]
    exact ⟨exists_section_insert hval, lastValue_insert_eq hval⟩

theorem harmless_of_lastValue {before after : List Reading} {line key value : List Char}
    (hr : read line = .assignment key value)
    (h : ∀ v, lastValue (assignments "" (before ++ read line :: after)) (sectionAfter "" before)
        (String.ofList key) = some v →
      lastValue (assignments "" (before ++ after)) (sectionAfter "" before) (String.ofList key) =
        some v) :
    Harmless before line after := by
  refine .inr ⟨key, value, hr, ?_⟩
  rw [hr, assignments_append, assignments_append, assignments] at h
  rw [← isSome_lastValue]
  cases hlater : lastValue (assignments (sectionAfter "" before) after) (sectionAfter "" before)
      (String.ofList key) with
  | some v => exact .inl rfl
  | none =>
    refine .inr ?_
    have := h (String.ofList value) (by
      rw [lastValue_insert, hlater, if_pos ⟨rfl, rfl⟩, Option.none_or, Option.some_or])
    rwa [lastValue_append, hlater, Option.none_or] at this

theorem sameAnswers_of_assignments {text text' : String} {sections sections' : Sections}
    (h : parse text = .ok sections) (h' : parse text' = .ok sections')
    (hsec : ∀ s, (∃ a ∈ assignments "" (readings text), a.1 = s) ↔
      ∃ a ∈ assignments "" (readings text'), a.1 = s)
    (hval : ∀ s k, lastValue (assignments "" (readings text)) s k =
      lastValue (assignments "" (readings text')) s k) :
    sections.SameAnswers sections' := by
  obtain ⟨hs, hv⟩ := parse_spec h
  obtain ⟨hs', hv'⟩ := parse_spec h'
  refine Sections.sameAnswers_of_stored (fun s => ?_) fun s k => ?_
  · rw [Bool.eq_iff_iff, hs, hs', hsec]
  · rw [hv, hv', hval]

/-- A comment that says nothing, or one whose assignment makes no difference, is inert. A comment
with an assignment that makes one is not, and neither is one that crashes. -/
theorem inert_iff (text text' : String) (before : List (List Char)) (line : List Char)
    (after : List (List Char)) (h : getlines text.toList = before ++ line :: after)
    (h' : getlines text'.toList = before ++ after) (hc : CommentLine line) :
    Inert text text' ↔
      ((∀ l ∈ before ++ after, ¬ Malformed l ∧ ¬ BareThrow l) →
        Harmless (before.map read) line (after.map read)) := by
  have hok := parse_isOk_iff text
  have hok' := parse_isOk_iff text'
  have hread : readings text = before.map read ++ read line :: after.map read := by
    rw [readings, h, List.map_append, List.map_cons]
  have hread' : readings text' = before.map read ++ after.map read := by
    rw [readings, h', List.map_append]
  rw [h, List.forall_mem_append, List.forall_mem_cons] at hok
  rw [h', List.forall_mem_append] at hok'
  rw [List.forall_mem_append]
  constructor
  · intro hin hpass
    obtain ⟨sections', hp'⟩ := hok'.mpr hpass
    obtain ⟨sections, hp, hsame⟩ := hin.insert sections' hp'
    obtain ⟨hcut, -⟩ | ⟨-, hr | ⟨key, value, hkey, hr⟩⟩ := hc.read_cases
    · exact .inl hcut
    · exact absurd (read_eq_crash.mp hr) (hok.mp ⟨sections, hp⟩).2.1.2
    · refine harmless_of_lastValue hr fun v hv => ?_
      rw [← hread', ← (parse_spec hp').2]
      rw [← hread, ← (parse_spec hp).2] at hv
      exact hsame.stored_eq (mt String.ofList_eq_empty_iff.mp hkey) hv
  · intro hharmless
    have hsame (sections sections' : Sections) (hp : parse text = .ok sections)
        (hp' : parse text' = .ok sections') : sections.SameAnswers sections' := by
      obtain ⟨hsec, hval⟩ := (hharmless (hok'.mp ⟨sections', hp'⟩)).assignments_eq hc
      rw [← hread, ← hread'] at hsec hval
      exact sameAnswers_of_assignments hp hp' hsec hval
    constructor
    · intro sections hp
      obtain ⟨hbefore, -, hafter⟩ := hok.mp ⟨sections, hp⟩
      obtain ⟨sections', hp'⟩ := hok'.mpr ⟨hbefore, hafter⟩
      exact ⟨sections', hp', hsame sections sections' hp hp'⟩
    · intro sections' hp'
      obtain ⟨hbefore, hafter⟩ := hok'.mp ⟨sections', hp'⟩
      have hline : ¬ BareThrow line :=
        mt read_eq_crash.mpr ((hharmless ⟨hbefore, hafter⟩).read_ne_crash hc)
      obtain ⟨sections, hp⟩ := hok.mpr ⟨hbefore, ⟨hc.not_malformed, hline⟩, hafter⟩
      exact ⟨sections, hp, hsame sections sections' hp hp'⟩

theorem inert_two : Inert "[a]\n # b\nk = v" "[a]\nk = v" :=
  (inert_iff "[a]\n # b\nk = v" "[a]\nk = v" ["[a]".toList] " # b".toList ["k = v".toList] rfl rfl
    ⟨'#', " b".toList, rfl, by decide⟩).mpr fun _ => .inl rfl

/-- A comment with an assignment in it adds a section and a key. -/
theorem comment_assigns : ¬ ∀ (text text' : String) (before : List (List Char)) (line : List Char)
    (after : List (List Char)), getlines text.toList = before ++ line :: after →
      getlines text'.toList = before ++ after → CommentLine line → Inert text text' := by
  intro h
  obtain ⟨sections', hp', hsame⟩ := (h "# a=b" "" [] "# a=b".toList [] rfl rfl
    ⟨'#', " a=b".toList, rfl, by decide⟩).remove _ rfl
  obtain rfl := Except.ok.inj hp'
  have := hsame.keyExists "" "# a"
  cases this

end IniFileParserImpl

end Nds3
