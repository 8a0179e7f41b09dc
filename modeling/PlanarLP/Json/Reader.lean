import PlanarLP.Json.Value
import PlanarLP.Text.Digits

/-! Reading JSON. A text is read only as a whole and only when it follows the grammar; a
string whose escapes write no text is let through here, since it matters only where a text is
asked for. -/

namespace PlanarLP.Json

def skipBlanks (cs : List Char) : List Char :=
  cs.dropWhile fun c => c == ' ' || c == '\t' || c == '\n' || c == '\r'

/-- A part of a string: a character, or the UTF-16 unit that an escape names. -/
inductive Piece where
  | char (c : Char)
  | unit (n : Nat)
deriving DecidableEq, Repr

def hexDigit? (c : Char) : Option Nat :=
  if c.isDigit then some (c.toNat - '0'.toNat)
  else if 'a' ≤ c ∧ c ≤ 'f' then some (c.toNat - 'a'.toNat + 10)
  else if 'A' ≤ c ∧ c ≤ 'F' then some (c.toNat - 'A'.toNat + 10)
  else none

def hexNumber? (cs : List Char) : Option Nat :=
  cs.foldlM (fun n c => (hexDigit? c).map (16 * n + ·)) 0

/-- The character that a backslash and a letter stand for. -/
def escaped? : Char → Option Char
  | '"' => some '"'
  | '\\' => some '\\'
  | '/' => some '/'
  | 'b' => some '\x08'
  | 'f' => some '\x0c'
  | 'n' => some '\n'
  | 'r' => some '\r'
  | 't' => some '\t'
  | _ => none

/-- The parts of a string up to the closing quote, and what comes after it. -/
def readPieces : List Char → Option (List Piece × List Char)
  | [] => none
  | '"' :: cs => some ([], cs)
  | '\\' :: 'u' :: a :: b :: c :: d :: cs => do
    let n ← hexNumber? [a, b, c, d]
    let (ps, rest) ← readPieces cs
    return (.unit n :: ps, rest)
  | '\\' :: e :: cs => do
    let c ← escaped? e
    let (ps, rest) ← readPieces cs
    return (.char c :: ps, rest)
  | c :: cs => do
    if c.toNat < 0x20 then none
    else
      let (ps, rest) ← readPieces cs
      return (.char c :: ps, rest)

def isHighSurrogate (n : Nat) : Bool := 0xD800 ≤ n && n < 0xDC00

def isLowSurrogate (n : Nat) : Bool := 0xDC00 ≤ n && n < 0xE000

/-- The text of a string, if every surrogate in it is half of a pair. -/
def textOf? : List Piece → Option (List Char)
  | [] => some []
  | .char c :: ps => (textOf? ps).map (c :: ·)
  | .unit n :: .unit m :: ps =>
    if isHighSurrogate n && isLowSurrogate m then
      (textOf? ps).map (Char.ofNat (0x10000 + (n - 0xD800) * 0x400 + (m - 0xDC00)) :: ·)
    else if isHighSurrogate n || isLowSurrogate n then none
    else (textOf? (.unit m :: ps)).map (Char.ofNat n :: ·)
  | .unit n :: ps =>
    if isHighSurrogate n || isLowSurrogate n then none
    else (textOf? ps).map (Char.ofNat n :: ·)

/-- The length of a fraction part, where there is one it has a digit. -/
def fractionLength? : List Char → Option Nat
  | '.' :: cs => if Text.digitCount cs = 0 then none else some (1 + Text.digitCount cs)
  | _ => some 0

def signLength : List Char → Nat
  | '+' :: _ => 1
  | '-' :: _ => 1
  | _ => 0

/-- The length of an exponent part, where there is one it has a digit. -/
def exponentLength? : List Char → Option Nat
  | [] => some 0
  | e :: cs =>
    if e == 'e' || e == 'E' then
      let sign := signLength cs
      let digits := Text.digitCount (cs.drop sign)
      if digits = 0 then none else some (1 + sign + digits)
    else some 0

/-- The length of the numeral that a text starts with. Its whole part has digits, and no
needless zero in front. -/
def numeralLength? (cs : List Char) : Option Nat := do
  let sign := if cs.head? == some '-' then 1 else 0
  let whole := Text.digitCount (cs.drop sign)
  if whole = 0 ∨ (1 < whole ∧ (cs.drop sign).head? = some '0') then none
  else
    let fraction ← fractionLength? (cs.drop (sign + whole))
    let exponent ← exponentLength? (cs.drop (sign + whole + fraction))
    return sign + whole + fraction + exponent

def readString (cs : List Char) : Option (Option String × List Char) := do
  let (ps, rest) ← readPieces cs
  return ((textOf? ps).map String.ofList, rest)

mutual

/-- Read one value. Every step uses up fuel. -/
def readValue : Nat → List Char → Option (Value × List Char)
  | 0, _ => none
  | fuel + 1, cs =>
    match skipBlanks cs with
    | 'n' :: 'u' :: 'l' :: 'l' :: rest => some (.null, rest)
    | 't' :: 'r' :: 'u' :: 'e' :: rest => some (.bool true, rest)
    | 'f' :: 'a' :: 'l' :: 's' :: 'e' :: rest => some (.bool false, rest)
    | '"' :: rest => (readString rest).map fun (s, rest) => (.string s, rest)
    | '[' :: rest =>
      match skipBlanks rest with
      | ']' :: rest => some (.array [], rest)
      | rest => (readItems fuel rest).map fun (vs, rest) => (.array vs, rest)
    | '\x7b' :: rest =>
      match skipBlanks rest with
      | '\x7d' :: rest => some (.object [], rest)
      | rest => (readFields fuel rest).map fun (fs, rest) => (.object fs, rest)
    | rest => (numeralLength? rest).map fun n =>
        (.number (String.ofList (rest.take n)), rest.drop n)

/-- Read the items of an array up to its end. -/
def readItems : Nat → List Char → Option (List Value × List Char)
  | 0, _ => none
  | fuel + 1, cs => do
    let (v, rest) ← readValue fuel cs
    match skipBlanks rest with
    | ',' :: rest =>
      let (vs, rest) ← readItems fuel rest
      return (v :: vs, rest)
    | ']' :: rest => return ([v], rest)
    | _ => none

/-- Read the fields of an object up to its end. -/
def readFields : Nat → List Char → Option (List (Option String × Value) × List Char)
  | 0, _ => none
  | fuel + 1, cs => do
    match skipBlanks cs with
    | '"' :: rest =>
      let (name, rest) ← readString rest
      match skipBlanks rest with
      | ':' :: rest =>
        let (v, rest) ← readValue fuel rest
        match skipBlanks rest with
        | ',' :: rest =>
          let (fs, rest) ← readFields fuel rest
          return ((name, v) :: fs, rest)
        | '\x7d' :: rest => return ([(name, v)], rest)
        | _ => none
      | _ => none
    | _ => none

end

/-- The value that a whole text writes. Two steps to a character are enough. -/
def Value.ofText? (s : String) : Option Value := do
  let cs := s.toList
  let (v, rest) ← readValue (2 * (cs.length + 1)) cs
  if (skipBlanks rest).isEmpty then some v else none

end PlanarLP.Json
