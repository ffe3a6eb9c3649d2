import Nds3.Tree.Separators
import Mathlib.Data.List.TakeWhile

/-!
# Names built from rules

What the first rule that a section defines makes of a name. `snprintf` writes no more than 1023
characters, and reads a rule up to its first NUL only.
-/

namespace Nds3

/-! ## Case -/

theorem char_cases {P : Char → Prop} (hle : ∀ n < 123, P (Char.ofNat n))
    (hself : ∀ c : Char, c.toUpper = c → c.toLower = c → P c) (c : Char) : P c := by
  by_cases h : c.toNat < 123
  · have := hle c.toNat h
    rwa [Char.ofNat_toNat] at this
  · refine hself c ?_ ?_
    · refine dif_neg ?_
      rintro ⟨-, hz⟩
      have : c.toNat ≤ 122 := UInt32.le_iff_toNat_le.mp hz
      omega
    · refine dif_neg ?_
      rintro ⟨-, hz⟩
      have : c.toNat ≤ 90 := UInt32.le_iff_toNat_le.mp hz
      omega

theorem toLower_toUpper (c : Char) : c.toUpper.toLower = c.toLower :=
  char_cases (P := fun c => c.toUpper.toLower = c.toLower) (by decide)
    (fun c hu _ => by rw [hu]) c

theorem toUpper_eq_nul (c : Char) : c.toUpper = '\x00' ↔ c = '\x00' :=
  char_cases (P := fun c => c.toUpper = '\x00' ↔ c = '\x00') (by decide)
    (fun c hu _ => by rw [hu]) c

theorem toLower_eq_nul (c : Char) : c.toLower = '\x00' ↔ c = '\x00' :=
  char_cases (P := fun c => c.toLower = '\x00' ↔ c = '\x00') (by decide)
    (fun c _ hl => by rw [hl]) c

/-! ## Formats -/

/-- A format with at most one `%s` and no other `%`. -/
inductive SimpleRule : List Char → Prop
  | literal (a : List Char) (ha : '%' ∉ a) : SimpleRule a
  | string (a b : List Char) (ha : '%' ∉ a) (hb : '%' ∉ b) : SimpleRule (a ++ '%' :: 's' :: b)

/-- The rule with the name for its `%s`. -/
def expand (name : List Char) : List Char → List Char
  | [] => []
  | '%' :: 's' :: rule => name ++ rule
  | c :: rule => c :: expand name rule

section Format

variable {a b name rule : List Char}

theorem expand_append (ha : '%' ∉ a) : expand name (a ++ b) = a ++ expand name b := by
  induction a with
  | nil => rfl
  | cons c a ih =>
    rw [List.mem_cons, not_or] at ha
    rw [List.cons_append, expand, ih ha.2]
    · rfl
    · rintro _ rfl
      exact absurd rfl ha.1

theorem expand_literal (ha : '%' ∉ a) : expand name a = a := by
  have := @expand_append a [] name ha
  rwa [List.append_nil, expand, List.append_nil] at this

theorem expand_string (ha : '%' ∉ a) :
    expand name (a ++ '%' :: 's' :: b) = a ++ (name ++ b) := by
  rw [expand_append ha, expand]

theorem formatString_append (ha : '%' ∉ a) :
    formatString name none (a ++ b) = a ++ formatString name none b := by
  induction a with
  | nil => rfl
  | cons c a ih =>
    rw [List.mem_cons, not_or] at ha
    rw [List.cons_append, formatString, if_neg (Ne.symm ha.1), ih ha.2, List.cons_append]

theorem formatString_literal (ha : '%' ∉ a) : formatString name none a = a := by
  have := @formatString_append a [] name ha
  rwa [List.append_nil, formatString, List.append_nil] at this

theorem formatString_string (ha : '%' ∉ a) (hb : '%' ∉ b) :
    formatString name none (a ++ '%' :: 's' :: b) = a ++ (name ++ b) := by
  rw [formatString_append ha, formatString, if_pos rfl, formatString, if_pos rfl,
    formatString_literal hb, Conversion.string]
  simp

theorem SimpleRule.formatString_eq (h : SimpleRule rule) :
    formatString name none rule = expand name rule := by
  cases h with
  | literal a ha => rw [formatString_literal ha, expand_literal ha]
  | string a b ha hb => rw [formatString_string ha hb, expand_string ha]

theorem cStr_of_notMem {s : String} (h : '\x00' ∉ s.toList) : cStr s = s.toList :=
  List.takeWhile_eq_self_iff.mpr fun c hc => by
    rw [decide_eq_true_iff]
    rintro rfl
    exact h hc

/-- A rule that is cut at a NUL is still simple, and gives a shorter name. -/
theorem SimpleRule.length_lt (h : SimpleRule (a ++ '\x00' :: b)) :
    (formatString name none a).length < (expand name (a ++ '\x00' :: b)).length := by
  generalize hr : a ++ '\x00' :: b = r at h
  cases h with
  | literal _ hmem =>
    subst hr
    rw [expand_literal hmem, formatString_literal fun ha => hmem (List.mem_append_left _ ha)]
    simp
  | string c d hc hd =>
    rw [expand_string hc]
    obtain ⟨e, rfl, he⟩ | ⟨e, rfl, he⟩ := List.append_eq_append_iff.mp hr
    · -- The NUL is in front of the `%s`.
      rw [formatString_literal fun ha => hc (List.mem_append_left _ ha)]
      cases e with
      | nil => cases he
      | cons x e =>
        simp only [List.length_append, List.length_cons]
        omega
    · -- It is behind.
      cases e with
      | nil => cases he
      | cons x e =>
        cases e with
        | nil => cases he
        | cons y e =>
          simp only [List.cons_append, List.cons.injEq] at he
          obtain ⟨rfl, rfl, rfl⟩ := he
          rw [formatString_string hc fun h' => hd (List.mem_append_left _ h')]
          simp only [List.length_append, List.length_cons]
          omega

end Format

/-! ## Names -/

namespace Naming

/-- The first rule that a section defines. There are no keys without a name. -/
def firstRule (keys : AList fun _ : String => String) : List String → String
  | [] => "%s"
  | key :: ruleKeys =>
    if key = "" then firstRule keys ruleKeys
    else (keys.lookup key).getD (firstRule keys ruleKeys)

/-- The name in the case that the section asks for. -/
def foldCase (keys : AList fun _ : String => String) (name : List Char) : List Char :=
  let upper := if keys.lookup "toUpper" = some "1" then name.map Char.toUpper else name
  if keys.lookup "toLower" = some "1" then upper.map Char.toLower else upper

/-- The name that a section gives: the first rule with the complete name for its `%s`, and `0` for
the spaces. -/
def ruleName (keys : AList fun _ : String => String) (ruleKeys : List String) (name : String) :
    List Char :=
  (expand (foldCase keys name.toList) (firstRule keys ruleKeys).toList).map
    fun c => if c = ' ' then '0' else c

/-- What is said of the names that a section gives to two elements: each is the first rule with the
complete name in it, and different names without spaces stay different. -/
structure BuildsNames (cs : Naming) (keys : AList fun _ : String => String)
    (ruleKeys : List String) (name name' : String) : Prop where
  first : cs.buildNameFromRule name ruleKeys = .ok (String.ofList (ruleName keys ruleKeys name))
  second : cs.buildNameFromRule name' ruleKeys = .ok (String.ofList (ruleName keys ruleKeys name'))
  distinct : name ≠ name' → ' ' ∉ name.toList → ' ' ∉ name'.toList →
    keys.lookup "toUpper" ≠ some "1" → keys.lookup "toLower" ≠ some "1" →
    '%' ∈ (firstRule keys ruleKeys).toList →
    cs.buildNameFromRule name ruleKeys ≠ cs.buildNameFromRule name' ruleKeys

variable {cs : Naming} {rules : Sections} {keys : AList fun _ : String => String}
  {ruleKeys : List String} {name : String}

theorem findRule_eq (hk : rules.lookup cs.namingRulesName = some keys) (ruleKeys : List String) :
    cs.findRule rules ruleKeys = .ok (firstRule keys ruleKeys) := by
  induction ruleKeys with
  | nil => rfl
  | cons key ruleKeys ih =>
    rw [findRule, ih, firstRule]
    simp only [bind, Except.bind, Sections.getString, hk]
    split
    · rfl
    · rfl

theorem foldCase_nul (h : '\x00' ∉ name.toList) : '\x00' ∉ foldCase keys name.toList := by
  have hupper : '\x00' ∉ if keys.lookup "toUpper" = some "1" then name.toList.map Char.toUpper
      else name.toList := by
    split
    · intro hmem
      obtain ⟨c, hc, hnul⟩ := List.mem_map.mp hmem
      exact h ((toUpper_eq_nul c).mp hnul ▸ hc)
    · exact h
  rw [foldCase]
  split
  · intro hmem
    obtain ⟨c, hc, hnul⟩ := List.mem_map.mp hmem
    exact hupper ((toLower_eq_nul c).mp hnul ▸ hc)
  · exact hupper

theorem getD_zero_eq_one {o : Option String} : o.getD "0" = "1" ↔ o = some "1" := by
  cases o with
  | none => decide
  | some v => simp

/-- The code changes the case of the name itself twice, the spec that of the upper-cased one. -/
theorem adjustedName_eq : (if (keys.lookup "toLower").getD "0" = "1" then name.map Char.toLower
    else if (keys.lookup "toUpper").getD "0" = "1" then name.map Char.toUpper else name) =
    String.ofList (foldCase keys name.toList) := by
  simp only [getD_zero_eq_one, foldCase]
  by_cases hl : keys.lookup "toLower" = some "1"
  · rw [if_pos hl, if_pos hl, String.map_eq_internal]
    split
    · rw [List.map_map, show Char.toLower ∘ Char.toUpper = Char.toLower from funext toLower_toUpper]
    · rfl
  · rw [if_neg hl, if_neg hl]
    split
    · rw [String.map_eq_internal]
    · rw [String.ofList_toList]

/-- `buildNameFromRule` cuts the rule at its first NUL and the name at 1023 characters. -/
theorem buildNameFromRule_eq (ha : cs.active = some rules)
    (hk : rules.lookup cs.namingRulesName = some keys) (hn : '\x00' ∉ name.toList) :
    cs.buildNameFromRule name ruleKeys = .ok (String.ofList
      (((formatString (foldCase keys name.toList) none (cStr (firstRule keys ruleKeys))).take
        1023).map fun c => if c = ' ' then '0' else c)) := by
  have hcut : cStr (String.ofList (foldCase keys name.toList)) = foldCase keys name.toList := by
    rw [cStr_of_notMem (by rw [String.toList_ofList]; exact foldCase_nul hn), String.toList_ofList]
  rw [buildNameFromRule, ha]
  simp only [findRule_eq hk, Sections.getString, hk, bind, Except.bind, pure, Except.pure,
    String.reduceEq, if_false]
  rw [adjustedName_eq, snprintf, hcut, String.map_eq_internal, String.toList_ofList]

theorem buildNameFromRule_iff (ha : cs.active = some rules)
    (hk : rules.lookup cs.namingRulesName = some keys)
    (hr : SimpleRule (firstRule keys ruleKeys).toList) (hn : '\x00' ∉ name.toList) :
    cs.buildNameFromRule name ruleKeys = .ok (String.ofList (ruleName keys ruleKeys name)) ↔
      '\x00' ∉ (firstRule keys ruleKeys).toList ∧ (ruleName keys ruleKeys name).length ≤ 1023 := by
  rw [buildNameFromRule_eq ha hk hn, Except.ok.injEq, String.ofList_inj]
  constructor
  · intro heq
    have hlen := congrArg List.length heq
    rw [List.length_map, List.length_take] at hlen
    have hnul : '\x00' ∉ (firstRule keys ruleKeys).toList := by
      intro hmem
      obtain ⟨a, b, hab, hnul⟩ := List.eq_append_cons_of_mem hmem
      have hcut : cStr (firstRule keys ruleKeys) = a := by
        rw [cStr, hab, List.takeWhile_append_of_pos, List.takeWhile_cons_of_neg (by simp),
          List.append_nil]
        intro c hc
        rw [decide_eq_true_iff]
        rintro rfl
        exact hnul hc
      rw [hab] at hr
      have hlt := @SimpleRule.length_lt a b (foldCase keys name.toList) hr
      rw [hcut, ruleName, List.length_map, hab] at hlen
      omega
    exact ⟨hnul, by omega⟩
  · rintro ⟨hnul, hle⟩
    rw [ruleName, List.length_map] at hle
    rw [cStr_of_notMem hnul, hr.formatString_eq, List.take_of_length_le hle, ruleName]

theorem ruleName_injective {name' : String} (hr : SimpleRule (firstRule keys ruleKeys).toList)
    (hmem : '%' ∈ (firstRule keys ruleKeys).toList) (hs : ' ' ∉ name.toList)
    (hs' : ' ' ∉ name'.toList) (hu : keys.lookup "toUpper" ≠ some "1")
    (hl : keys.lookup "toLower" ≠ some "1")
    (h : ruleName keys ruleKeys name = ruleName keys ruleKeys name') : name = name' := by
  have hzero {l : List Char} (hl : ' ' ∉ l) : (l.map fun c => if c = ' ' then '0' else c) = l :=
    (List.map_congr_left fun c hc => if_neg (ne_of_mem_of_not_mem hc hl)).trans (List.map_id l)
  have hfold (name : String) : foldCase keys name.toList = name.toList := by
    rw [foldCase, if_neg hl, if_neg hu]
  rw [ruleName, hfold, ruleName, hfold] at h
  generalize (firstRule keys ruleKeys).toList = rule at hr hmem h
  cases hr with
  | literal _ ha => exact absurd hmem ha
  | string a b ha hb =>
    rw [expand_string ha, expand_string ha] at h
    simp only [List.map_append, hzero hs, hzero hs', List.append_cancel_left_eq,
      List.append_cancel_right_eq] at h
    exact String.toList_injective h

/-- A section builds the names as its rules say exactly when the rule has no NUL and no name is
longer than the buffer of `snprintf`. -/
theorem buildsNames_iff (cs : Naming) (rules : Sections) (keys : AList fun _ : String => String)
    (ha : cs.active = some rules) (hk : rules.lookup cs.namingRulesName = some keys)
    (ruleKeys : List String) (hr : SimpleRule (firstRule keys ruleKeys).toList)
    (name name' : String) (hn : '\x00' ∉ name.toList) (hn' : '\x00' ∉ name'.toList) :
    BuildsNames cs keys ruleKeys name name' ↔
      '\x00' ∉ (firstRule keys ruleKeys).toList ∧
        (ruleName keys ruleKeys name).length ≤ 1023 ∧
        (ruleName keys ruleKeys name').length ≤ 1023 := by
  constructor
  · rintro ⟨hfirst, hsecond, -⟩
    obtain ⟨hnul, hlen⟩ := (buildNameFromRule_iff ha hk hr hn).mp hfirst
    exact ⟨hnul, hlen, ((buildNameFromRule_iff ha hk hr hn').mp hsecond).2⟩
  · rintro ⟨hnul, hlen, hlen'⟩
    have hfirst := (buildNameFromRule_iff ha hk hr hn).mpr ⟨hnul, hlen⟩
    have hsecond := (buildNameFromRule_iff ha hk hr hn').mpr ⟨hnul, hlen'⟩
    refine ⟨hfirst, hsecond, fun hne hs hs' hu hl hmem heq => hne ?_⟩
    rw [hfirst, hsecond, Except.ok.injEq, String.ofList_inj] at heq
    exact ruleName_injective hr hmem hs hs' hu hl heq

theorem buildsNames_two :
    BuildsNames (oneRule "outputPV" "SET %s") (oneKey "outputPV" "SET %s")
      ["setStatePV", "outputPV", "genericPV"] "a" "b" :=
  (buildsNames_iff _ _ (oneKey "outputPV" "SET %s") rfl rfl
    ["setStatePV", "outputPV", "genericPV"]
    (.string "SET ".toList [] (by decide) (by decide)) "a" "b" (by decide) (by decide)).mpr
    (by decide)

/-- A name of 1024 characters is cut. -/
theorem long_name_cut : ¬ ∀ (cs : Naming) (rules : Sections)
    (keys : AList fun _ : String => String), cs.active = some rules →
      rules.lookup cs.namingRulesName = some keys →
      ∀ ruleKeys, SimpleRule (firstRule keys ruleKeys).toList →
        ∀ name name', '\x00' ∉ name.toList → '\x00' ∉ name'.toList →
          BuildsNames cs keys ruleKeys name name' := by
  intro h
  have hnul : '\x00' ∉ (String.ofList (List.replicate 1024 'a')).toList := by
    rw [String.toList_ofList, List.mem_replicate]
    exact fun h' => absurd h'.2 (by decide)
  have hr : SimpleRule (firstRule (oneKey "outputPV" "%s") []).toList :=
    .string [] [] (by decide) (by decide)
  have hfirst := (h (oneRule "outputPV" "%s") _ (oneKey "outputPV" "%s") rfl rfl [] hr
    _ _ hnul hnul).first
  have hlen := ((@buildNameFromRule_iff (oneRule "outputPV" "%s") _ _ _ _ rfl rfl hr hnul).mp
    hfirst).2
  rw [ruleName, List.length_map, foldCase, if_neg (by decide), if_neg (by decide),
    String.toList_ofList, show (firstRule (oneKey "outputPV" "%s") []).toList =
      [] ++ '%' :: 's' :: [] from rfl, expand_string (by decide)] at hlen
  rw [List.nil_append, List.append_nil, List.length_replicate] at hlen
  omega

end Naming

end Nds3
