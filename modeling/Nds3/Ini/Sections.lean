import Nds3.Ini.Document
import Mathlib.Data.List.Sort

/-!
# The sections of a document

`getSections`, and the naming rules that `loadNamingRules` activates. A section is stored with its
first key, so the headers that nothing is assigned under leave no trace.
-/

namespace Nds3

/-- `IniFileParserImpl::getSections`: the keys of a `std::map` in their order. -/
def Sections.getSections (sections : Sections) : List String :=
  sections.keys.insertionSort (· ≤ ·)

def Naming.loadNamingRules (cs : Naming) (rules : String) : Except Abort Naming := do
  let namingRules ← IniFileParserImpl.parse rules
  match namingRules.getSections with
  | [front] => return { cs with namingRules := some namingRules, namingRulesName := front }
  | _ => return { cs with namingRules := some namingRules, namingRulesName := "" }

@[simp] theorem Sections.mem_getSections {sections : Sections} {s : String} :
    s ∈ sections.getSections ↔ (sections.lookup s).isSome := by
  rw [Sections.getSections, List.mem_insertionSort, ← AList.mem_keys, ← AList.lookup_isSome]

theorem Sections.nodup_getSections (sections : Sections) : sections.getSections.Nodup :=
  (List.perm_insertionSort _ _).nodup_iff.mpr sections.keys_nodup

/-- Only the missing section makes `getString` throw. -/
theorem Sections.getString_eq_error {sections : Sections} {s key d : String} (hk : key ≠ "") :
    sections.getString s key d = .error (missingSection s) ↔ s ∉ sections.getSections := by
  rw [Sections.mem_getSections, Sections.getString, if_neg hk]
  cases sections.lookup s with
  | none => simp
  | some keys => simp

theorem Sections.keyExists_eq_error {sections : Sections} {s key : String} :
    sections.keyExists s key = .error (missingSection s) ↔ s ∉ sections.getSections := by
  rw [Sections.mem_getSections, Sections.keyExists]
  cases sections.lookup s with
  | none => simp
  | some keys => simp

theorem existsUnique_mem_iff {α : Type*} {l : List α} (h : l.Nodup) :
    (∃! x, x ∈ l) ↔ ∃ x, l = [x] := by
  constructor
  · rintro ⟨x, hx, hall⟩
    refine ⟨x, List.perm_singleton.mp ((List.perm_ext_iff_of_nodup h (by simp)).mpr fun y => ?_)⟩
    rw [List.mem_singleton]
    exact ⟨hall y, fun hy => hy ▸ hx⟩
  · rintro ⟨x, rfl⟩
    exact ⟨x, List.mem_singleton_self x, fun y hy => List.mem_singleton.mp hy⟩

namespace IniFileParserImpl

def headers (rs : List Reading) : List String :=
  rs.filterMap fun
    | .header name => some (String.ofList name)
    | _ => none

/-- An assignment precedes the first header. -/
def Leading : List Reading → Prop
  | [] => False
  | .header _ :: _ => False
  | .assignment _ _ :: _ => True
  | _ :: rs => Leading rs

/-- The sections of a text: those its headers name, and the one with the empty name when an
assignment precedes them. -/
def IsSection (text section_ : String) : Prop :=
  section_ ∈ headers (readings text) ∨ section_ = "" ∧ Leading (readings text)

def Assigned (rs : List Reading) (section_ : String) : Prop :=
  ∃ a ∈ assignments "" rs, a.1 = section_

instance (rs : List Reading) (section_ : String) : Decidable (Assigned rs section_) :=
  inferInstanceAs (Decidable (∃ a ∈ _, _))

/-- An assignment stands under a header or before all of them. -/
theorem section_of_mem_assignments {rs : List Reading} {start : String}
    {a : String × String × String} (h : a ∈ assignments start rs) :
    a.1 ∈ headers rs ∨ a.1 = start ∧ Leading rs := by
  induction rs generalizing start with
  | nil => cases h
  | cons r rs ih =>
    cases r with
    | header name =>
      obtain hmem | ⟨heq, -⟩ := ih h
      · exact .inl (List.mem_cons_of_mem _ hmem)
      · exact .inl (heq ▸ List.mem_cons_self)
    | assignment key value =>
      obtain rfl | hmem := List.mem_cons.mp h
      · exact .inr ⟨rfl, trivial⟩
      · obtain hmem | ⟨heq, -⟩ := ih hmem
        · exact .inl hmem
        · exact .inr ⟨heq, trivial⟩
    | nothing => exact ih h
    | syntaxError => exact ih h
    | crash => exact ih h

theorem exists_assignment_of_leading {rs : List Reading} {start : String} (h : Leading rs) :
    ∃ a ∈ assignments start rs, a.1 = start := by
  induction rs with
  | nil => cases h
  | cons r rs ih =>
    cases r with
    | header name => cases h
    | assignment key value => exact ⟨_, List.mem_cons_self, rfl⟩
    | nothing => exact ih h
    | syntaxError => exact ih h
    | crash => exact ih h

theorem leading_of_headers_eq_nil {rs : List Reading} {start : String} (hh : headers rs = [])
    (ha : assignments start rs ≠ []) : Leading rs := by
  obtain ⟨a, ha⟩ := List.exists_mem_of_ne_nil _ ha
  obtain h | ⟨-, h⟩ := section_of_mem_assignments ha
  · rw [hh] at h
    cases h
  · exact h

theorem ne_empty_of_mem_headers {text s : String} (h : s ∈ headers (readings text)) : s ≠ "" := by
  obtain ⟨r, hr, hs⟩ := List.mem_filterMap.mp h
  obtain ⟨line, -, rfl⟩ := List.mem_map.mp hr
  cases hread : read line with
  | header name =>
    rw [hread] at hs
    obtain rfl := Option.some.inj hs
    intro hname
    rw [String.ofList_eq_empty_iff] at hname
    rw [read] at hread
    split at hread
    · rename_i hsec
      obtain hk | hk | hk | ⟨key, value, -, hk⟩ := readKeyValue_cases line
      all_goals rw [hk] at hread; cases hread
    · rename_i hsec
      exact hsec (Reading.header.inj hread ▸ hname)
  | assignment key value => rw [hread] at hs; cases hs
  | nothing => rw [hread] at hs; cases hs
  | syntaxError => rw [hread] at hs; cases hs
  | crash => rw [hread] at hs; cases hs

theorem mem_getSections_iff {text : String} {sections : Sections}
    (h : parse text = .ok sections) (s : String) :
    s ∈ sections.getSections ↔ Assigned (readings text) s :=
  Sections.mem_getSections.trans ((parse_spec h).1 s)

theorem isSection_of_assigned {text s : String} (h : Assigned (readings text) s) :
    IsSection text s := by
  obtain ⟨a, ha, rfl⟩ := h
  exact section_of_mem_assignments ha

theorem getSections_eq_iff {text : String} {sections : Sections}
    (h : parse text = .ok sections) :
    (∀ s, s ∈ sections.getSections ↔ IsSection text s) ↔
      ∀ s ∈ headers (readings text), Assigned (readings text) s := by
  constructor
  · intro hall s hs
    exact (mem_getSections_iff h s).mp ((hall s).mpr (.inl hs))
  · intro hall s
    rw [mem_getSections_iff h]
    refine ⟨isSection_of_assigned, ?_⟩
    rintro (hs | ⟨rfl, hl⟩)
    · exact hall s hs
    · exact exists_assignment_of_leading hl

theorem isSome_active_iff {cs cs' : Naming} {text : String} {sections : Sections}
    (h : parse text = .ok sections) (hl : cs.loadNamingRules text = .ok cs') :
    cs'.active.isSome ↔ ∃ s, s ≠ "" ∧ sections.getSections = [s] := by
  rw [Naming.loadNamingRules, h] at hl
  simp only [bind, Except.bind] at hl
  split at hl
  · rename_i front hs
    obtain rfl := Except.ok.inj hl
    rw [Naming.active, hs]
    by_cases hf : front = "" <;> simp [hf]
  · rename_i hs
    obtain rfl := Except.ok.inj hl
    refine iff_of_false (by simp [Naming.active]) ?_
    rintro ⟨s, -, hs'⟩
    exact hs s hs'

/-- What the answers of the parser and the activation of the naming rules would be if the sections
were those of the text. -/
structure SectionsAreHeaders (text : String) (sections : Sections) : Prop where
  nodup : sections.getSections.Nodup
  getSections : ∀ s, s ∈ sections.getSections ↔ IsSection text s
  getString : ∀ s key defaultValue, key ≠ "" →
    (sections.getString s key defaultValue = .error (missingSection s) ↔ ¬ IsSection text s)
  keyExists : ∀ s key,
    sections.keyExists s key = .error (missingSection s) ↔ ¬ IsSection text s
  loadNamingRules : ∀ cs cs' : Naming, cs.loadNamingRules text = .ok cs' →
    (cs'.active.isSome ↔ ∃! s, IsSection text s)

/-- They are when something is assigned under every header, and not everything is assigned outside
of all sections: the rules of such a text would need a name to be active. -/
theorem sectionsAreHeaders_iff (text : String) (sections : Sections)
    (h : parse text = .ok sections) :
    SectionsAreHeaders text sections ↔
      (∀ s ∈ headers (readings text), Assigned (readings text) s) ∧
        ¬ (headers (readings text) = [] ∧ assignments "" (readings text) ≠ []) := by
  constructor
  · intro hp
    refine ⟨(getSections_eq_iff h).mp hp.getSections, fun ⟨hnone, hsome⟩ => ?_⟩
    have hlead := leading_of_headers_eq_nil hnone hsome
    have hsec (s : String) : IsSection text s ↔ s = "" := by simp [IsSection, hnone, hlead]
    obtain ⟨cs', hl⟩ : ∃ cs', (Naming.mk none "" fun _ => "").loadNamingRules text = .ok cs' := by
      rw [Naming.loadNamingRules, h]
      simp only [bind, Except.bind]
      split
      · exact ⟨_, rfl⟩
      · exact ⟨_, rfl⟩
    obtain ⟨s, hne, hs⟩ := (isSome_active_iff h hl).mp
      ((hp.loadNamingRules _ _ hl).mpr ⟨"", (hsec "").mpr rfl, fun s hs => (hsec s).mp hs⟩)
    exact hne ((hsec s).mp ((hp.getSections s).mp (hs ▸ List.mem_singleton_self s)))
  · rintro ⟨hall, hnot⟩
    have hget := (getSections_eq_iff h).mpr hall
    refine ⟨sections.nodup_getSections, hget, fun s key d hk => ?_, fun s key => ?_,
      fun cs cs' hl => ?_⟩
    · rw [Sections.getString_eq_error hk, hget]
    · rw [Sections.keyExists_eq_error, hget]
    · rw [isSome_active_iff h hl, ← existsUnique_congr hget,
        existsUnique_mem_iff sections.nodup_getSections]
      refine ⟨fun ⟨s, _, hs⟩ => ⟨s, hs⟩, fun ⟨s, hs⟩ => ⟨s, ?_, hs⟩⟩
      have hmem (s' : String) : IsSection text s' ↔ s' = s := by
        rw [← hget, hs, List.mem_singleton]
      obtain hh | ⟨rfl, hlead⟩ := (hmem s).mpr rfl
      · exact ne_empty_of_mem_headers hh
      · -- The only section has no header.
        refine absurd ⟨List.eq_nil_iff_forall_not_mem.mpr fun s' hs' => ?_, ?_⟩ hnot
        · exact ne_empty_of_mem_headers hs' ((hmem s').mp (.inl hs'))
        · obtain ⟨a, ha, -⟩ := @exists_assignment_of_leading _ "" hlead
          exact List.ne_nil_of_mem ha

theorem sectionsAreHeaders_two : ∃ sections, parse "[b]\nk = v\n[a]\nk =" = .ok sections ∧
    SectionsAreHeaders "[b]\nk = v\n[a]\nk =" sections :=
  ⟨_, rfl, (sectionsAreHeaders_iff _ _ rfl).mpr ⟨by decide, by decide⟩⟩

/-- A header that no assignment follows is lost. -/
theorem header_lost : ¬ ∀ text sections, parse text = .ok sections →
    SectionsAreHeaders text sections := by
  intro h
  have hmem : "a" ∈ Sections.getSections ∅ :=
    ((h "[a]" ∅ rfl).getSections "a").mpr (.inl (by decide))
  rw [Sections.mem_getSections, AList.lookup_empty] at hmem
  cases hmem

end IniFileParserImpl

end Nds3
