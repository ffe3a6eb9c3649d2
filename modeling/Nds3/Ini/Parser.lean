import Nds3.Tree.Naming

/-!
# The INI parser

`IniFileParserImpl`. A `std::string` is a list of characters, `npos` is `none`, and the members of
`std::string` that check a position throw `std::out_of_range`.
-/

namespace Nds3

/-- The lines that successive calls of `std::getline` extract before one sets `failbit`. -/
def getlines : List Char → List (List Char)
  | [] => []
  | c :: text =>
    if c = '\n' then [] :: getlines text
    else
      match getlines text with
      | [] => [[c]]
      | line :: lines => (c :: line) :: lines

/-- `--pos` and `pos - 1` on a `size_t`: below zero lies `npos`. -/
def decrement : Nat → Option Nat
  | 0 => none
  | pos + 1 => some pos

/-- `std::out_of_range` is a `std::logic_error`. -/
def outOfRange : Abort := .throws ⟨.logicError, "out_of_range"⟩

/-- `string.at(pos)`. -/
def charAt (string : List Char) (pos : Nat) : Except Abort Char :=
  match string[pos]? with
  | none => .error outOfRange
  | some c => .ok c

/-- `string.substr(pos, count)`. -/
def substr (string : List Char) (pos : Nat) (count : Option Nat) : Except Abort (List Char) :=
  if pos ≤ string.length then
    let rest := string.drop pos
    .ok (rest.take (count.getD rest.length))
  else .error outOfRange

/-- What `string.erase(pos, count)` leaves. -/
def erase (string : List Char) (pos : Nat) (count : Option Nat) : Except Abort (List Char) :=
  if pos ≤ string.length then
    let rest := string.drop pos
    .ok (string.take pos ++ rest.drop (count.getD rest.length))
  else .error outOfRange

/-- The first position from `pos` on whose character satisfies `p`: `find`, `find_first_of` and
`find_first_not_of`. -/
def findFrom (string : List Char) (p : Char → Bool) (pos : Nat) : Option Nat :=
  ((string.drop pos).findIdx? p).map (pos + ·)

/-- `string.find_last_not_of(set)`. -/
def findLastNotOf (string set : List Char) : Option Nat :=
  (string.reverse.findIdx? fun c => !set.contains c).map (string.length - 1 - ·)

/-- Whether `catch(const INIParserError&)` catches the exception. -/
def Exn.isINIParserError (e : Exn) : Bool :=
  e.cls == .INIParserMissingSection || e.cls == .INIParserSyntaxError

namespace IniFileParserImpl

def m_spaces : List Char := " \t\r\n".toList

def m_quotes : List Char := "'\"".toList

def commentStart : List Char := "#;".toList

def trim (string : List Char) : Except Abort (List Char) := do
  let lastChar := findLastNotOf string m_spaces
  let firstChar := findFrom string (fun c => !m_spaces.contains c) 0
  if lastChar = decrement string.length ∧ firstChar = some 0 then
    return string
  match lastChar with
  | none => return []
  | some lastChar =>
    let returnString ← erase string (lastChar + 1) none
    if firstChar ≠ some 0 then
      erase returnString 0 firstChar
    else
      return returnString

/-- The loop of `findFirstUnescapedChar`, for at most `n` turns. -/
def findUnescaped (string : List Char) (findChar : Char) : Nat → Nat → Except Abort (Option Nat)
  | 0, _ => return none
  | n + 1, startPos =>
    if startPos < string.length then
      match findFrom string (· = findChar) startPos with
      | none => return none
      | some 0 => return some 0
      | some (pos + 1) => do
        if (← charAt string pos) ≠ '\\' then
          return some (pos + 1)
        findUnescaped string findChar n (pos + 2)
    else return none

/-- `findFirstUnescapedChar`. Every turn of its loop moves the start forward. -/
def findFirstUnescapedChar (string : List Char) (findChar : Char) (startPosition : Nat) :
    Except Abort (Option Nat) :=
  findUnescaped string findChar string.length startPosition

def getSection (line : List Char) : Except Abort (List Char) := do
  let section_ ← trim line
  if section_ = [] then return []
  if (← charAt section_ 0) ≠ '[' then return []
  match ← findFirstUnescapedChar section_ ']' 0 with
  | none => return []
  | some endSection => trim (← substr section_ 1 (decrement endSection))

/-- `getKeyValue`. A bare `throw` rethrows no exception. -/
def getKeyValue (line : List Char) : Except Abort (List Char × List Char) := do
  match ← findFirstUnescapedChar line '=' 0 with
  | none =>
    let trimmed ← trim line
    if trimmed.length = 0 then return ([], [])
    if commentStart.contains (← charAt trimmed 0) then return ([], [])
    .error (.throws ⟨.INIParserSyntaxError, "Syntax error"⟩)
  | some equalSign =>
    let variable_ ← trim (← substr line 0 (some equalSign))
    if variable_ = [] then .error .terminate
    let value ← trim (← substr line (equalSign + 1) none)
    if value ≠ [] then
      let quote ← charAt value 0
      if m_quotes.contains quote then
        match ← findFirstUnescapedChar value quote 1 with
        | none => .error .terminate
        | some findEndQuotes => return (variable_, ← substr value 1 (decrement findEndQuotes))
      match findFrom value m_spaces.contains 0 with
      | none => return (variable_, value)
      | some findEndValue => return (variable_, ← substr value 0 (some findEndValue))
    return (variable_, [])

/-- What the handler of `INIParserError` in the constructor throws instead. -/
def onLine (lineCounter : Nat) : Abort → Abort
  | .throws e =>
    if e.isINIParserError then
      .throws ⟨.INIParserSyntaxError,
        "Syntax error on line " ++ toString lineCounter ++ ": " ++ e.what⟩
    else .throws e
  | .terminate => .terminate

/-- `m_sections[section][key] = value`. -/
def assign (m_sections : Sections) (section_ key value : String) : Sections :=
  m_sections.insert section_ (((m_sections.lookup section_).getD ∅).insert key value)

/-- The `try` block of the constructor: the new `m_sections` and `lastSection`. -/
def parseLine (m_sections : Sections) (lastSection : List Char) (line : List Char) :
    Except Abort (Sections × List Char) := do
  let section_ ← getSection line
  if section_ ≠ [] then
    return (m_sections, section_)
  let valueKey ← getKeyValue line
  if valueKey.1 ≠ [] then
    return (assign m_sections (String.ofList lastSection) (String.ofList valueKey.1)
      (String.ofList valueKey.2), lastSection)
  return (m_sections, lastSection)

/-- The loop of the constructor over the lines that are left. -/
def parseLines (m_sections : Sections) (lastSection : List Char) (lineCounter : Nat) :
    List (List Char) → Except Abort Sections
  | [] => return m_sections
  | line :: lines => do
    let r ← (parseLine m_sections lastSection line).mapError (onLine (lineCounter + 1))
    parseLines r.1 r.2 (lineCounter + 1) lines

/-- The constructor: the `m_sections` it builds. -/
def parse (text : String) : Except Abort Sections :=
  parseLines ∅ [] 0 (getlines text.toList)

end IniFileParserImpl

end Nds3
