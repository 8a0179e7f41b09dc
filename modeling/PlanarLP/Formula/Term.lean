import PlanarLP.Decimal
import PlanarLP.Formula.ParseError
import PlanarLP.Formula.Summand

/-! Reading expressions. A term is read token by token: numbers and at most one variable,
joined by `*`, by `/` before a number, or by writing a variable after a factor. -/

namespace PlanarLP.Formula

/-- What a name stands for. -/
inductive Name where
  | var (v : Variable)
  /-- Variables written together, such as `xy`. -/
  | product
  | unknown
deriving DecidableEq, Repr

/-- No letter but `x` and `y` of either case has one of them as its lower case. -/
def Name.of (name : String) : Name :=
  match name.toList.map Char.toLower with
  | ['x'] => .var .x
  | ['y'] => .var .y
  | cs => if cs.all fun c => c == 'x' || c == 'y' then .product else .unknown

/-- What stands before the next token of a term. -/
inductive Slot where
  | nothing
  | factor
  | times
  | over
deriving DecidableEq, Repr

/-- A term of which some tokens are read. -/
structure PartialTerm (α : Type) where
  /-- Where its first token starts. -/
  start : Nat
  span : Span
  coefficient : α
  var : Option Variable
  slot : Slot
deriving DecidableEq

/-- The text from one byte to another, without the blanks around it. -/
def quote (source : List Char) (start stop : Nat) : String :=
  String.ofList (Text.trim (Span.slice ⟨start, stop⟩ source))

/-- The span from the first of some tokens to the last. -/
def spanOf? : List Token → Option Span
  | [] => none
  | t :: ts => some (ts.foldl (fun s u => s.cover u.span) t.span)

variable {α : Type} [Scalar α]

/-- The value of a numeral, unless it is too large for a finite number. -/
def numberOf (text : String) : Except (ParseError α) α :=
  match Decimal.ofNumeral? text.toList with
  | none => .error (.invalidNumber text)
  | some d => if Scalar.isFinite (d.value : α) then .ok d.value else .error (.invalidNumber text)

namespace PartialTerm

def empty (first : Token) : PartialTerm α := ⟨first.span.start, first.span, 1, none, .nothing⟩

/-- Take in a token that stands at `span`. -/
def grow (r : PartialTerm α) (span : Span) (slot : Slot) : PartialTerm α :=
  { r with span := r.span.cover span, slot := slot }

def number (r : PartialTerm α) (source : List Char) (t : Token) :
    Except (ParseError α) (PartialTerm α) :=
  if r.slot = .factor then .error (.unexpectedToken t.text t.span)
  else do
    let value ← numberOf t.text
    if r.slot = .over then
      if value == 0 then .error (.divisionByZero (quote source r.start t.span.stop))
      else return { r.grow t.span .factor with coefficient := r.coefficient / value }
    else return { r.grow t.span .factor with coefficient := r.coefficient * value }

/-- The error for something other than a multiple of one variable, up to a token. -/
def nonLinear (r : PartialTerm α) (source : List Char) (t : Token) : ParseError α :=
  .nonLinearTerm (quote source r.start t.span.stop) ⟨r.start, t.span.stop⟩

def name (r : PartialTerm α) (source : List Char) (t : Token) :
    Except (ParseError α) (PartialTerm α) :=
  if r.slot = .over || r.var.isSome then .error (r.nonLinear source t)
  else match Name.of t.text with
    | .var v => .ok { r.grow t.span .factor with var := some v }
    | .product => .error (r.nonLinear source t)
    | .unknown => .error (.unsupportedVariable t.text t.span)

def operator (r : PartialTerm α) (t : Token) (slot : Slot) :
    Except (ParseError α) (PartialTerm α) :=
  if r.slot = .factor then .ok (r.grow t.span slot)
  else .error (.unexpectedToken t.text t.span)

/-- Read the token `t`. `after` follows it on the same side of the comparison. -/
def read (r : PartialTerm α) (source : List Char) (side : Side) (t : Token)
    (after : Option Token) : Except (ParseError α) (PartialTerm α) :=
  match t.kind with
  | .number => r.number source t
  | .ident => r.name source t
  | .star => r.operator t .times
  | .slash => r.operator t .over
  | .caret => .error (r.nonLinear source (after.getD t))
  | _ =>
    match side with
    | .left => .error (.unexpectedToken t.text t.span)
    | .right => .error (.nonNumericRhs t.text t.span)

def finish (r : PartialTerm α) (source : List Char) : Except (ParseError α) (Term α) :=
  if r.slot = .times || r.slot = .over then
    .error (.danglingOperator (quote source r.span.start r.span.stop) r.span)
  else .ok ⟨r.span, r.coefficient, r.var⟩

/-- Read the rest of a term. `after` follows the term. -/
def readAll (source : List Char) (side : Side) (after : Option Token) :
    PartialTerm α → List Token → Except (ParseError α) (Term α)
  | r, [] => r.finish source
  | r, t :: ts => do readAll source side after (← r.read source side t (ts.head?.or after)) ts

end PartialTerm

/-- One for an even number of minus signs, minus one for an odd number. -/
def signOf (signs : List Token) : α :=
  signs.foldl (fun sign t => if t.kind = .minus then -sign else sign) 1

namespace Term

/-- A term with signs before it. -/
def signed (t : Term α) (signs : List Token) : Term α :=
  { t with
    span := match spanOf? signs with
      | some s => s.cover t.span
      | none => t.span
    coefficient := t.coefficient * signOf signs }

def ofSummand (source : List Char) (side : Side) (after : Option Token) (s : Summand) :
    Except (ParseError α) (Term α) :=
  match s.factors with
  | [] =>
    let span := (spanOf? s.signs).getD ⟨0, 0⟩
    .error (.danglingOperator (quote source span.start span.stop) span)
  | t :: ts => do
    let term ← PartialTerm.readAll source side after (.empty t) (t :: ts)
    return term.signed s.signs

def ofSummands (source : List Char) (side : Side) :
    List Summand → Except (ParseError α) (List (Term α))
  | [] => .ok []
  | s :: ss => do
    let after := ss.head?.bind fun s => s.tokens.head?
    let term ← ofSummand source side after s
    return term :: (← ofSummands source side ss)

end Term

/-- The expression that the tokens of a side write. -/
def Expr.ofTokens (source : List Char) (side : Side) (ts : List Token) :
    Except (ParseError α) (Expr α) :=
  if ts.isEmpty then .error (.emptySide side)
  else do return ⟨← Term.ofSummands source side (Summand.cut ts)⟩

end PlanarLP.Formula
