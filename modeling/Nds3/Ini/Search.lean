import Mathlib.Order.Bounds.Basic
import Nds3.Ini.Lines
import Nds3.Lib.Loop

/-!
# The search for an unescaped character

The loop of `findFirstUnescapedChar` turn by turn: what it passes by is escaped, every turn moves
the start forward, and no turn looks outside of the string.
-/

namespace Nds3

section Find

variable {s : List Char} {x : Char} {pos i : Nat}

theorem getElem?_ne_of_findFrom (h : findFrom s (· = x) pos = none) {j : Nat} (hj : pos ≤ j) :
    s[j]? ≠ some x := by
  intro hx
  rw [findFrom, Option.map_eq_none_iff, List.findIdx?_eq_none_iff] at h
  obtain ⟨k, rfl⟩ := Nat.exists_eq_add_of_le hj
  have hmem : x ∈ s.drop pos := List.mem_of_getElem? (List.getElem?_drop.trans hx)
  exact absurd (h x hmem) (by simp)

theorem isLeast_of_findFrom (h : findFrom s (· = x) pos = some i) :
    IsLeast {j | pos ≤ j ∧ s[j]? = some x} i := by
  rw [findFrom, Option.map_eq_some_iff] at h
  obtain ⟨k, hk, rfl⟩ := h
  obtain ⟨hlt, hx, hfirst⟩ := List.findIdx?_eq_some_iff_getElem.mp hk
  constructor
  · refine ⟨Nat.le_add_right pos k, ?_⟩
    rw [← List.getElem?_drop, List.getElem?_eq_getElem hlt, of_decide_eq_true hx]
  · rintro j ⟨hj, hjx⟩
    obtain ⟨m, rfl⟩ := Nat.exists_eq_add_of_le hj
    rw [← List.getElem?_drop] at hjx
    obtain ⟨hm, hget⟩ := List.getElem?_eq_some_iff.mp hjx
    refine Nat.add_le_add_left (Nat.le_of_not_lt fun hmk => ?_) pos
    exact hfirst m hmk (decide_eq_true hget)

end Find

namespace IniFileParserImpl

/-- One turn of the loop of `findFirstUnescapedChar`: it returns a position, or goes on from the
next `startPos`. -/
def searchTurn (string : List Char) (findChar : Char) (startPos : Nat) :
    Except Abort (Option Nat ⊕ Nat) :=
  if startPos < string.length then
    match findFrom string (· = findChar) startPos with
    | none => return .inl none
    | some 0 => return .inl (some 0)
    | some (pos + 1) => do
      if (← charAt string pos) ≠ '\\' then
        return .inl (some (pos + 1))
      return .inr (pos + 2)
  else return .inl none

/-- The character stands at the position, which is the first or has no backslash before it. -/
def UnescapedAt (string : List Char) (findChar : Char) (i : Nat) : Prop :=
  string[i]? = some findChar ∧ (i = 0 ∨ string[i - 1]? ≠ some '\\')

/-- The answer of a search from `start` on. -/
def FirstUnescaped (string : List Char) (findChar : Char) (start : Nat) : Option Nat → Prop
  | none => ∀ j, start ≤ j → ¬ UnescapedAt string findChar j
  | some i => IsLeast {j | start ≤ j ∧ UnescapedAt string findChar j} i

/-- The search from `start` on may go on from `p`. -/
structure PassedBy (string : List Char) (findChar : Char) (start p : Nat) : Prop where
  forward : start ≤ p
  escaped : ∀ j, start ≤ j → j < p → ¬ UnescapedAt string findChar j

section

variable {string : List Char} {findChar : Char} {start p p' : Nat}

theorem PassedBy.refl : PassedBy string findChar start start :=
  ⟨le_refl start, fun _ hj hjs => absurd hj (Nat.not_le_of_lt hjs)⟩

theorem PassedBy.trans (h : PassedBy string findChar start p)
    (h' : PassedBy string findChar p p') : PassedBy string findChar start p' where
  forward := h.forward.trans h'.forward
  escaped := by
    intro j hj hjp
    by_cases hlt : j < p
    · exact h.escaped j hj hlt
    · exact h'.escaped j (Nat.le_of_not_lt hlt) hjp

theorem FirstUnescaped.of_passedBy {r : Option Nat} (h : FirstUnescaped string findChar p r)
    (hpassed : PassedBy string findChar start p) : FirstUnescaped string findChar start r := by
  have hbehind : ∀ j, start ≤ j → UnescapedAt string findChar j → p ≤ j := fun j hj hun =>
    Nat.le_of_not_lt fun hjp => hpassed.escaped j hj hjp hun
  cases r with
  | none => exact fun j hj hun => h j (hbehind j hj hun) hun
  | some i =>
    obtain ⟨⟨hpi, hun⟩, hleast⟩ := h
    exact ⟨⟨hpassed.forward.trans hpi, hun⟩, fun j hj => hleast ⟨hbehind j hj.1 hj.2, hj.2⟩⟩

theorem searchTurn_behind {pos : Nat} {c : Char} (hp : p < string.length)
    (hfind : findFrom string (· = findChar) p = some (pos + 1)) (hc : string[pos]? = some c) :
    searchTurn string findChar p =
      if c ≠ '\\' then .ok (.inl (some (pos + 1))) else .ok (.inr (pos + 2)) := by
  have hchar : charAt string pos = .ok c := by rw [charAt, hc]
  rw [searchTurn, if_pos hp, hfind]
  simp only [hchar, bind, Except.bind]
  rfl

/-- A turn answers, or passes by a hit that is escaped. -/
theorem searchTurn_cases (string : List Char) (findChar : Char) (p : Nat) :
    (∃ r, searchTurn string findChar p = .ok (.inl r) ∧ FirstUnescaped string findChar p r) ∨
      ∃ p', searchTurn string findChar p = .ok (.inr p') ∧ PassedBy string findChar p p' ∧
        string.length - p' < string.length - p := by
  by_cases hp : p < string.length
  swap
  · refine .inl ⟨none, if_neg hp, fun j hj hun => ?_⟩
    have := (List.getElem?_eq_some_iff.mp hun.1).1
    omega
  cases hfind : findFrom string (· = findChar) p with
  | none =>
    refine .inl ⟨none, ?_, fun j hj hun => getElem?_ne_of_findFrom hfind hj hun.1⟩
    rw [searchTurn, if_pos hp, hfind]
    rfl
  | some i =>
    obtain ⟨⟨hpi, hi⟩, hleast⟩ := isLeast_of_findFrom hfind
    have hfirst : (i = 0 ∨ string[i - 1]? ≠ some '\\') →
        FirstUnescaped string findChar p (some i) := fun hun =>
      ⟨⟨hpi, hi, hun⟩, fun j hj => hleast ⟨hj.1, hj.2.1⟩⟩
    cases i with
    | zero =>
      refine .inl ⟨some 0, ?_, hfirst (.inl rfl)⟩
      rw [searchTurn, if_pos hp, hfind]
      rfl
    | succ pos =>
      have hlt : pos + 1 < string.length := (List.getElem?_eq_some_iff.mp hi).1
      obtain ⟨c, hc⟩ : ∃ c, string[pos]? = some c := ⟨_, List.getElem?_eq_getElem (by omega)⟩
      have hbehind := searchTurn_behind hp hfind hc
      by_cases hback : c = '\\'
      · refine .inr ⟨pos + 2, ?_, ⟨by omega, fun j hj hjp hun => ?_⟩, by omega⟩
        · rw [hbehind, if_neg (not_not.mpr hback)]
        · -- The hit is the first one, and what precedes it is a backslash.
          obtain rfl : j = pos + 1 := Nat.le_antisymm (by omega) (hleast ⟨hj, hun.1⟩)
          obtain hzero | hne := hun.2
          · exact absurd hzero (Nat.succ_ne_zero pos)
          · exact hne (hback ▸ hc)
      · refine .inl ⟨some (pos + 1), ?_, hfirst (.inr fun h => ?_)⟩
        · rw [hbehind, if_pos hback]
        · exact hback (Option.some.inj (hc.symm.trans h))

theorem findUnescaped_succ (string : List Char) (findChar : Char) (n p : Nat) :
    findUnescaped string findChar (n + 1) p =
      (searchTurn string findChar p).bind fun
        | .inl r => .ok r
        | .inr p' => findUnescaped string findChar n p' := by
  rw [findUnescaped, searchTurn]
  by_cases hp : p < string.length
  · rw [if_pos hp, if_pos hp]
    cases findFrom string (· = findChar) p with
    | none => rfl
    | some i =>
      cases i with
      | zero => rfl
      | succ pos =>
        simp only [bind, Except.bind]
        cases charAt string pos with
        | error e => rfl
        | ok c =>
          by_cases hc : c = '\\'
          · simp only [if_neg (not_not.mpr hc)]
            rfl
          · simp only [if_pos hc]
            rfl
  · rw [if_neg hp, if_neg hp]
    rfl

/-- The turns that `findUnescaped` allows suffice. The induction is on them. -/
theorem run_searchTurn {n : Nat} (h : string.length - p ≤ n) :
    Loop.run (searchTurn string findChar) (n + 1) p =
      some (findUnescaped string findChar n p) := by
  induction n generalizing p with
  | zero =>
    have hp : ¬ p < string.length := by omega
    rw [Loop.run, searchTurn, if_neg hp]
    rfl
  | succ n ih =>
    rw [Loop.run, findUnescaped_succ]
    obtain ⟨r, hr, -⟩ | ⟨p', hp', -, hless⟩ := searchTurn_cases string findChar p
    · rw [hr]
      rfl
    · rw [hp']
      exact ih (by omega)

/-- **The search ends** after at most one turn more than there are characters left, never throws
`std::out_of_range`, and finds the first unescaped character. -/
theorem findFirstUnescapedChar_first (string : List Char) (findChar : Char)
    (startPosition : Nat) :
    ∃ r, (∀ n, string.length - startPosition < n →
        Loop.run (searchTurn string findChar) n startPosition = some (.ok r)) ∧
      findFirstUnescapedChar string findChar startPosition = .ok r ∧
      FirstUnescaped string findChar startPosition r := by
  have hturn : ∀ p, PassedBy string findChar startPosition p →
      (∃ r, searchTurn string findChar p = .ok (.inl r) ∧
        FirstUnescaped string findChar startPosition r) ∨
      ∃ p', searchTurn string findChar p = .ok (.inr p') ∧
        PassedBy string findChar startPosition p' ∧
        string.length - p' < string.length - p := by
    intro p hp
    obtain ⟨r, hr, hfirst⟩ | ⟨p', hp', hpassed, hless⟩ := searchTurn_cases string findChar p
    · exact .inl ⟨r, hr, hfirst.of_passedBy hp⟩
    · exact .inr ⟨p', hp', hp.trans hpassed, hless⟩
  obtain ⟨r, hfirst, hrun⟩ :=
    Loop.run_of_variant (fun p => string.length - p) hturn PassedBy.refl
  refine ⟨r, hrun, ?_, hfirst⟩
  have hn : string.length - startPosition ≤ string.length := Nat.sub_le _ _
  have hlast := hrun (string.length + 1) (Nat.lt_succ_of_le hn)
  rw [run_searchTurn hn] at hlast
  exact Option.some.inj hlast

-- Two that are escaped, then one that is not.
example : findFirstUnescapedChar "\\=\\==".toList '=' 0 = .ok (some 4) := by decide

end

end IniFileParserImpl

end Nds3
