import Nds3.Ini.Parser
import Nds3.Lib.Scan

/-!
# What a line says

The positions of the parser left out: a line is stripped, cut at a delimiter, and one of five
things is read from it. The members of `std::string` never find a position out of range.
-/

namespace Nds3

section Find

variable {s a b : List Char} {p : Char → Bool} {pos : Nat} {x : Char}

theorem findFrom_eq_none (h : ∀ y ∈ s.drop pos, p y = false) : findFrom s p pos = none := by
  rw [findFrom, List.findIdx?_eq_none_iff.mpr h, Option.map_none]

theorem findFrom_eq_some (hs : s.drop pos = a ++ x :: b) (ha : ∀ y ∈ a, p y = false)
    (hx : p x) : findFrom s p pos = some (pos + a.length) := by
  rw [findFrom, hs, List.findIdx?_append, List.findIdx?_eq_none_iff.mpr ha, List.findIdx?_cons,
    if_pos hx]
  simp

theorem findFrom_char_eq_none (h : x ∉ s.drop pos) : findFrom s (· = x) pos = none :=
  findFrom_eq_none fun _ hy => decide_eq_false fun hc => h (hc ▸ hy)

theorem findFrom_char (h : x ∉ a) (hs : s.drop pos = a ++ x :: b) :
    findFrom s (· = x) pos = some (pos + a.length) :=
  findFrom_eq_some hs (fun _ hy => decide_eq_false fun hc => h (hc ▸ hy)) (decide_eq_true rfl)

theorem findLastNotOf_eq_none {set : List Char} (h : ∀ y ∈ s, set.contains y) :
    findLastNotOf s set = none := by
  rw [findLastNotOf, List.findIdx?_eq_none_iff.mpr fun y hy => by
    rw [h y (List.mem_reverse.mp hy), Bool.not_true], Option.map_none]

theorem findLastNotOf_eq_some {set : List Char} (hx : set.contains x = false)
    (hb : ∀ y ∈ b, set.contains y) : findLastNotOf (a ++ x :: b) set = some a.length := by
  have hrev : (a ++ x :: b).reverse = b.reverse ++ x :: a.reverse := by simp
  have hnone : b.reverse.findIdx? (fun c => !set.contains c) = none :=
    List.findIdx?_eq_none_iff.mpr fun y hy => by
      rw [hb y (List.mem_reverse.mp hy), Bool.not_true]
  rw [findLastNotOf, hrev, List.findIdx?_append, hnone, List.findIdx?_cons, hx]
  simp

theorem charAt_append : charAt (a ++ x :: b) a.length = .ok x := by
  rw [charAt, List.getElem?_append_right (le_refl _), Nat.sub_self, List.getElem?_cons_zero]

@[simp] theorem charAt_zero : charAt (x :: a) 0 = .ok x := rfl

theorem substr_append : substr (a ++ b) a.length none = .ok b := by
  rw [substr, if_pos (by simp)]
  simp

theorem substr_append_append {d : List Char} :
    substr (a ++ (b ++ d)) a.length (some b.length) = .ok b := by
  rw [substr, if_pos (by simp)]
  simp

theorem findFrom_takeWhile (p : Char → Bool) (s : List Char) :
    (findFrom s p 0 = none ∧ s.takeWhile (fun c => !p c) = s) ∨
      ∃ n, findFrom s p 0 = some n ∧ substr s 0 (some n) = .ok (s.takeWhile fun c => !p c) := by
  have hs := @List.takeWhile_append_dropWhile _ (fun c => !p c) s
  have ha : ∀ y ∈ s.takeWhile fun c => !p c, p y = false := fun y hy => by
    simpa using List.mem_takeWhile_imp hy
  cases hd : s.dropWhile fun c => !p c with
  | nil =>
    rw [hd, List.append_nil] at hs
    exact .inl ⟨findFrom_eq_none fun y hy => ha y (by rwa [hs]), hs⟩
  | cons x b =>
    rw [hd] at hs
    have hx : p x = true := by
      have := List.head?_dropWhile_not (fun c => !p c) s
      rw [hd] at this
      simpa using this
    refine .inr ⟨_, findFrom_eq_some hs.symm ha hx, ?_⟩
    have := @substr_append_append [] (s.takeWhile fun c => !p c) (x :: b)
    rwa [List.nil_append, hs, List.length_nil, ← Nat.zero_add (List.length _)] at this

theorem erase_append_right : erase (a ++ b) a.length none = .ok a := by
  rw [erase, if_pos (by simp)]
  simp

theorem erase_append_left : erase (a ++ b) 0 (some a.length) = .ok b := by
  rw [erase, if_pos (Nat.zero_le _)]
  simp

end Find

namespace IniFileParserImpl

open Scan

/-- The characters of `m_spaces`. -/
def isSpace (c : Char) : Bool := m_spaces.contains c

theorem trim_of_all {s : List Char} (h : ∀ c ∈ s, isSpace c) : trim s = .ok [] := by
  have hfirst : findFrom s (fun c => !m_spaces.contains c) 0 = none :=
    findFrom_eq_none fun c hc => by
      rw [show m_spaces.contains c = true from h c hc, Bool.not_true]
  simp only [trim, @findLastNotOf_eq_none s m_spaces h, hfirst]
  simp [pure, Except.pure]

theorem trim_append {a m b : List Char} {x y : Char} (hm : x :: m = d ++ [y])
    (hx : isSpace x = false) (hy : isSpace y = false) (ha : ∀ c ∈ a, isSpace c)
    (hb : ∀ c ∈ b, isSpace c) : trim (a ++ x :: m ++ b) = .ok (x :: m) := by
  have hfirst : findFrom (a ++ x :: m ++ b) (fun c => !m_spaces.contains c) 0 =
      some a.length := by
    have := @findFrom_eq_some (a ++ x :: m ++ b) a (m ++ b) (fun c => !m_spaces.contains c) 0 x
      (by simp)
      (fun c hc => by rw [show m_spaces.contains c = true from ha c hc, Bool.not_true])
      (by rw [show m_spaces.contains x = false from hx]; rfl)
    rwa [Nat.zero_add] at this
  have hlast : findLastNotOf (a ++ x :: m ++ b) m_spaces = some (a ++ d).length := by
    have hs : a ++ x :: m ++ b = (a ++ d) ++ y :: b := by rw [hm]; simp
    rw [hs]
    exact findLastNotOf_eq_some hy hb
  have hlen : (a ++ d).length + 1 = (a ++ x :: m).length := by
    rw [hm]
    simp
    omega
  rw [trim, hfirst, hlast]
  simp only [hlen, erase_append_right]
  split
  · -- No space at either end.
    rename_i h
    have hend : decrement (a ++ x :: m ++ b).length = some (a ++ d).length := h.1.symm
    have ha0 : a = [] := List.length_eq_zero_iff.mp (Option.some.inj h.2)
    have hb0 : b = [] := by
      rw [List.length_append, ← hlen, Nat.add_right_comm, decrement] at hend
      have := Option.some.inj hend
      exact List.length_eq_zero_iff.mp (by omega)
    rw [ha0, hb0, List.append_nil]
    rfl
  · change (if some a.length ≠ some 0 then _ else _) = _
    split
    · exact erase_append_left
    · rename_i h
      have ha0 : a = [] := List.length_eq_zero_iff.mp (Option.some.inj (not_not.mp h))
      rw [ha0]
      rfl

theorem trim_eq (s : List Char) : trim s = .ok (strip isSpace s) := by
  obtain ⟨a, b, hs, ha, hb⟩ := exists_eq_strip isSpace s
  have htr : Trimmed isSpace (strip isSpace s) := trimmed_strip
  revert hs htr
  cases strip isSpace s with
  | nil =>
    intro hs _
    refine trim_of_all fun c hc => ?_
    rw [hs, List.nil_append] at hc
    exact (List.mem_append.mp hc).elim (ha c) (hb c)
  | cons x m =>
    intro hs htr
    have hm := (List.dropLast_append_getLast (List.cons_ne_nil x m)).symm
    rw [hs, ← List.append_assoc]
    exact trim_append hm (htr.1 x rfl) (htr.2 _ (List.getLast?_eq_some_getLast _)) ha hb

/-- A turn that finds the character, not the first of the string, looks at what precedes it. -/
theorem findUnescaped_of_mem {c : Char} {n : Nat} {a d b : List Char} (hd : c ∉ d) :
    findUnescaped (a ++ d ++ c :: b) c (n + 1) a.length =
      if (a ++ d).getLast? = some '\\' then
        findUnescaped (a ++ d ++ c :: b) c n (a ++ d ++ [c]).length
      else .ok (some (a ++ d).length) := by
  have hfind : findFrom (a ++ d ++ c :: b) (· = c) a.length = some (a ++ d).length := by
    rw [List.length_append]
    exact findFrom_char hd (by rw [List.append_assoc, List.drop_left])
  rw [findUnescaped, if_pos (by simp), hfind]
  generalize a ++ d = p
  cases hp : p.getLast? with
  | none =>
    rw [List.getLast?_eq_none_iff.mp hp]
    rfl
  | some y =>
    obtain ⟨e, rfl⟩ := List.getLast?_eq_some_iff.mp hp
    have hchar : charAt (e ++ [y] ++ c :: b) e.length = .ok y := by
      rw [List.append_assoc, List.singleton_append]
      exact charAt_append
    simp only [List.length_append, List.length_singleton, hchar, bind, Except.bind]
    by_cases hy : y = '\\'
    · rw [if_neg (not_not.mpr hy), if_pos (congrArg some hy)]
    · rw [if_pos hy, if_neg fun h => hy (Option.some.inj h)]
      rfl

theorem findUnescaped_of_notMem {c : Char} {n : Nat} {a l : List Char} (hc : c ∉ l) :
    findUnescaped (a ++ l) c (n + 1) a.length = .ok none := by
  rw [findUnescaped, findFrom_char_eq_none (by rwa [List.drop_left])]
  split
  · rfl
  · rfl

/-- The loop of the search cuts what is left at the first unescaped character. The induction is on
the turns left, which are no fewer than the characters left. -/
theorem findUnescaped_eq (c : Char) : ∀ (n : Nat) (a l : List Char), l.length ≤ n →
    findUnescaped (a ++ l) c n a.length =
      .ok ((cut '\\' c a.getLast? l).map fun r => a.length + r.1.length) := by
  intro n
  induction n with
  | zero =>
    intro a l hl
    rw [List.length_eq_zero_iff.mp (Nat.le_zero.mp hl)]
    rfl
  | succ n ih =>
    intro a l hl
    by_cases hc : c ∈ l
    · obtain ⟨d, b, rfl, hd⟩ := List.eq_append_cons_of_mem hc
      rw [← List.append_assoc, findUnescaped_of_mem hd]
      split
      · -- An escaped one: the next turn starts behind it.
        next hp =>
        have hb : b.length ≤ n := by
          rw [List.length_append, List.length_cons] at hl
          omega
        have hnext := ih (a ++ d ++ [c]) b hb
        rw [List.append_assoc (a ++ d), List.singleton_append, List.getLast?_append,
          List.getLast?_singleton, Option.some_or] at hnext
        rw [hnext, cut_escaped hd (List.getLast?_append ▸ hp), Option.map_map]
        congr 2
        funext r
        simp only [Function.comp_apply, List.length_append, List.length_cons, List.length_nil]
        omega
      · next hp =>
        rw [cut_unescaped hd (List.getLast?_append ▸ hp), Option.map_some, List.length_append]
    · rw [findUnescaped_of_notMem hc, cut_of_notMem hc, Option.map_none]

theorem findFirstUnescapedChar_eq (c : Char) (a l : List Char) :
    findFirstUnescapedChar (a ++ l) c a.length =
      .ok ((cut '\\' c a.getLast? l).map fun r => a.length + r.1.length) :=
  findUnescaped_eq c _ a l (by simp)

/-- The name in the brackets that a line starts with. -/
def sectionOf (line : List Char) : List Char :=
  match strip isSpace line with
  | [] => []
  | c :: rest =>
    if c = '[' then
      match cut '\\' ']' (some '[') rest with
      | none => []
      | some (name, _) => strip isSpace name
    else []

theorem getSection_eq (line : List Char) : getSection line = .ok (sectionOf line) := by
  rw [getSection, trim_eq, sectionOf]
  cases strip isSpace line with
  | nil => rfl
  | cons c rest =>
    by_cases hc : c = '['
    · subst hc
      have hfind := findFirstUnescapedChar_eq ']' [] ('[' :: rest)
      rw [cut, if_neg (by decide), List.nil_append, List.length_nil] at hfind
      simp only [bind, Except.bind, reduceCtorEq, if_false, charAt_zero, ne_eq, not_true_eq_false,
        if_true, hfind]
      cases hcut : cut '\\' ']' (some '[') rest with
      | none => rfl
      | some r =>
        obtain ⟨name, b⟩ := r
        have hsub := @substr_append_append ['['] name (']' :: b)
        rw [List.singleton_append, List.length_singleton, ← eq_of_cut hcut] at hsub
        simp only [Option.map_some, List.length_cons, Nat.zero_add, decrement, hsub, trim_eq]
    · simp [bind, Except.bind, hc, pure, Except.pure]

/-- The value that the characters behind the `=` stand for, stripped already: what the quotes
enclose, or the characters before the first space. There is none when the quote stays open. -/
def valueOf : List Char → Option (List Char)
  | [] => some []
  | q :: v =>
    if m_quotes.contains q then (cut '\\' q (some q) v).map Prod.fst
    else some ((q :: v).takeWhile fun c => !isSpace c)

/-- What the parser makes of a line. -/
inductive Reading where
  | header (name : List Char)
  | assignment (key value : List Char)
  | nothing
  | syntaxError
  /-- The bare `throw`. -/
  | crash
  deriving DecidableEq

/-- What a line says that is no header. -/
def readKeyValue (line : List Char) : Reading :=
  match cut '\\' '=' none line with
  | none =>
    match strip isSpace line with
    | [] => .nothing
    | c :: _ => if commentStart.contains c then .nothing else .syntaxError
  | some (key, value) =>
    if strip isSpace key = [] then .crash
    else
      match valueOf (strip isSpace value) with
      | none => .crash
      | some value => .assignment (strip isSpace key) value

/-- What a line says. -/
def read (line : List Char) : Reading :=
  if sectionOf line = [] then readKeyValue line else .header (sectionOf line)

/-- What `getKeyValue` does with a line that says so. -/
def Reading.keyValue : Reading → Except Abort (List Char × List Char)
  | header _ | nothing => .ok ([], [])
  | assignment key value => .ok (key, value)
  | syntaxError => .error (.throws ⟨.INIParserSyntaxError, "Syntax error"⟩)
  | crash => .error .terminate

theorem getKeyValue_eq (line : List Char) : getKeyValue line = (readKeyValue line).keyValue := by
  have hfind := findFirstUnescapedChar_eq '=' [] line
  rw [List.nil_append, List.length_nil, List.getLast?_nil] at hfind
  rw [getKeyValue, hfind, readKeyValue]
  cases hcut : cut '\\' '=' none line with
  | none =>
    simp only [Option.map_none, bind, Except.bind, trim_eq]
    cases strip isSpace line with
    | nil => rfl
    | cons c rest =>
      simp only [List.length_cons, Nat.add_eq_zero_iff, one_ne_zero, and_false, if_false,
        charAt_zero]
      split
      · rfl
      · rfl
  | some r =>
    obtain ⟨key, rest⟩ := r
    have hline := eq_of_cut hcut
    have hkey : substr line 0 (some key.length) = .ok key := by
      rw [hline]
      exact @substr_append_append [] key ('=' :: rest)
    have hvalue : substr line (key.length + 1) none = .ok rest := by
      have := @substr_append (key ++ ['=']) rest
      rwa [List.length_append, List.append_assoc, List.singleton_append, ← hline] at this
    simp only [Option.map_some, Nat.zero_add, bind, Except.bind, hkey, hvalue, trim_eq]
    by_cases hempty : strip isSpace key = []
    · rw [if_pos hempty, if_pos hempty]
      rfl
    rw [if_neg hempty, if_neg hempty]
    simp only [pure, Except.pure]
    cases strip isSpace rest with
    | nil => rfl
    | cons q v =>
      simp only [ne_eq, reduceCtorEq, not_false_eq_true, if_true, charAt_zero, valueOf]
      by_cases hq : m_quotes.contains q = true
      · rw [if_pos hq, if_pos hq]
        have hend := findFirstUnescapedChar_eq q [q] v
        rw [List.singleton_append, List.length_singleton, List.getLast?_singleton] at hend
        rw [hend]
        cases hv : cut '\\' q (some q) v with
        | none => rfl
        | some r =>
          obtain ⟨inner, b⟩ := r
          have hsub := @substr_append_append [q] inner (q :: b)
          rw [List.singleton_append, List.length_singleton, ← eq_of_cut hv] at hsub
          simp only [Option.map_some, Nat.add_comm 1, decrement, hsub]
          rfl
      · rw [if_neg hq, if_neg hq]
        obtain ⟨hnone, hall⟩ | ⟨n, hsome, hsub⟩ := findFrom_takeWhile m_spaces.contains (q :: v)
        · rw [hnone]
          simp only [isSpace, hall]
          rfl
        · rw [hsome]
          simp only [hsub]
          rfl

/-- What a line that says so does to `m_sections` and `lastSection`. -/
def Reading.apply (m_sections : Sections) (lastSection : List Char) :
    Reading → Except Abort (Sections × List Char)
  | header name => .ok (m_sections, name)
  | assignment key value =>
    .ok (assign m_sections (String.ofList lastSection) (String.ofList key) (String.ofList value),
      lastSection)
  | nothing => .ok (m_sections, lastSection)
  | syntaxError => .error (.throws ⟨.INIParserSyntaxError, "Syntax error"⟩)
  | crash => .error .terminate

theorem readKeyValue_cases (line : List Char) :
    readKeyValue line = .nothing ∨ readKeyValue line = .syntaxError ∨
      readKeyValue line = .crash ∨
      ∃ key value, key ≠ [] ∧ readKeyValue line = .assignment key value := by
  rw [readKeyValue]
  split
  · split
    · exact .inl rfl
    · split
      · exact .inl rfl
      · exact .inr (.inl rfl)
  · split
    · exact .inr (.inr (.inl rfl))
    · rename_i hkey
      split
      · exact .inr (.inr (.inl rfl))
      · exact .inr (.inr (.inr ⟨_, _, hkey, rfl⟩))

/-- The `try` block reads the line. -/
theorem parseLine_eq (m_sections : Sections) (lastSection line : List Char) :
    parseLine m_sections lastSection line = (read line).apply m_sections lastSection := by
  rw [parseLine, getSection_eq, read]
  simp only [bind, Except.bind, pure, Except.pure]
  by_cases hs : sectionOf line = []
  · rw [if_neg (not_not.mpr hs), if_pos hs, getKeyValue_eq]
    obtain h | h | h | ⟨key, value, hkey, h⟩ := readKeyValue_cases line
    · rw [h]
      rfl
    · rw [h]
      rfl
    · rw [h]
      rfl
    · rw [h]
      exact if_pos hkey
  · rw [if_pos hs, if_neg hs]
    rfl

end IniFileParserImpl

end Nds3
