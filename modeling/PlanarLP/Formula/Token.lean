import PlanarLP.Formula.Comparator
import PlanarLP.Formula.Span
import PlanarLP.Text.Digits
import PlanarLP.Text.Letter
import PlanarLP.Text.Number

/-! Tokens of the formula language. A token starts at the first character that is not blank,
its kind follows from that character and the ones after it, and a character that starts no
token is one by itself. A cursor reads tokens one after another; the last one is the end
mark, which a cursor at the end gives again and again. -/

namespace PlanarLP.Formula

inductive Token.Kind where
  | ident
  | number
  | plus
  | minus
  | star
  | slash
  | caret
  | leftParen
  | rightParen
  | comparator (op : Comparator)
  | eof
  | error
deriving DecidableEq, Repr

structure Token where
  kind : Token.Kind
  span : Span
  text : String
deriving DecidableEq, Repr

namespace Token

def comparator? (t : Token) : Option Comparator :=
  match t.kind with
  | .comparator op => some op
  | _ => none

def isComparator (t : Token) : Bool := t.comparator?.isSome

def isSign (t : Token) : Bool := t.kind == .plus || t.kind == .minus

/-- The length of the exponent that a text starts with, zero where no digits follow. -/
def exponentLength : List Char → Nat
  | [] => 0
  | e :: cs =>
    let sign := match cs with
      | '+' :: _ => 1
      | '-' :: _ => 1
      | _ => 0
    let digits := Text.digitCount (cs.drop sign)
    if (e == 'e' || e == 'E') && digits != 0 then 1 + sign + digits else 0

/-- The length of the longest numeral that a text starts with, when it starts with a digit or
with a point before a digit. -/
def numeralLength (cs : List Char) : Nat :=
  let whole := Text.digitCount cs
  let fraction := match cs.drop whole with
    | '.' :: ds => 1 + Text.digitCount ds
    | _ => 0
  whole + fraction + exponentLength (cs.drop (whole + fraction))

def continuesName (c : Char) : Bool := Text.isLetter c || Text.isNumber c || c == '_'

/-- The kind of the token that starts with `c`, and how many of the characters after `c`
belong to it. -/
def scan (c : Char) (cs : List Char) : Kind × Nat :=
  match c with
  | '+' => (.plus, 0)
  | '-' | '−' => (.minus, 0)
  | '*' | '·' | '×' => (.star, 0)
  | '/' => (.slash, 0)
  | '^' => (.caret, 0)
  | '(' => (.leftParen, 0)
  | ')' => (.rightParen, 0)
  | '≤' => (.comparator .le, 0)
  | '≥' => (.comparator .ge, 0)
  | '<' => if cs.head? == some '=' then (.comparator .le, 1) else (.comparator .lt, 0)
  | '>' => if cs.head? == some '=' then (.comparator .ge, 1) else (.comparator .gt, 0)
  | '=' =>
    if cs.head? == some '<' then (.comparator .le, 1)
    else if cs.head? == some '>' then (.comparator .ge, 1)
    else if cs.head? == some '=' then (.comparator .eq, 1)
    else (.comparator .eq, 0)
  | _ =>
    if c.isDigit || (c == '.' && cs.head?.any Char.isDigit) then
      (.number, numeralLength (c :: cs) - 1)
    else if Text.isLetter c || c == '_' then (.ident, (cs.takeWhile continuesName).length)
    else (.error, 0)

end Token

/-- A place in a source: the bytes before it and the characters after it. -/
structure Cursor where
  position : Nat
  rest : List Char
deriving DecidableEq, Repr

namespace Cursor

def start (source : String) : Cursor := ⟨0, source.toList⟩

/-- The next token and the place after it. -/
def next (c : Cursor) : Token × Cursor :=
  let start := c.position + byteCount (c.rest.takeWhile Text.isBlank)
  match c.rest.dropWhile Text.isBlank with
  | [] => (⟨.eof, ⟨start, start⟩, ""⟩, ⟨start, []⟩)
  | d :: ds =>
    let (kind, more) := Token.scan d ds
    let text := d :: ds.take more
    let stop := start + byteCount text
    (⟨kind, ⟨start, stop⟩, String.ofList text⟩, ⟨stop, ds.drop more⟩)

theorem next_rest_lt (c : Cursor) (h : c.next.1.kind ≠ .eof) :
    c.next.2.rest.length < c.rest.length := by
  unfold next at h ⊢
  have hle := (List.dropWhile_sublist (l := c.rest) Text.isBlank).length_le
  cases hd : c.rest.dropWhile Text.isBlank with
  | nil => simp [hd] at h
  | cons d ds =>
    simp only [hd, List.length_cons] at hle
    simp only [List.length_drop]
    omega

/-- The tokens from here on, the end mark last. -/
def tokens (c : Cursor) : List Token :=
  if c.next.1.kind = .eof then [c.next.1] else c.next.1 :: c.next.2.tokens
termination_by c.rest.length
decreasing_by exact c.next_rest_lt ‹_›

/-- The next `n` tokens. -/
def read (c : Cursor) : Nat → List Token
  | 0 => []
  | n + 1 => c.next.1 :: c.next.2.read n

end Cursor

def tokenize (source : String) : List Token := (Cursor.start source).tokens

/-- The tokens of a source without the end mark. -/
def lexemes (source : String) : List Token := (tokenize source).dropLast

end PlanarLP.Formula
