import PlanarLP.Constraint
import PlanarLP.Formula.Expr

/-! Why a text is no constraint or objective. An error that points at some of the text says
where it stands. -/

namespace PlanarLP.Formula

inductive ParseError (α : Type) where
  | missingOperator
  | multipleOperators (count : Nat)
  | emptySide (side : Side)
  | unsupportedVariable (name : String) (span : Span)
  | nonLinearTerm (text : String) (span : Span)
  | nonNumericRhs (text : String) (span : Span)
  | unexpectedToken (found : String) (span : Span)
  | danglingOperator (found : String) (span : Span)
  | invalidNumber (text : String)
  | divisionByZero (text : String)
  /-- The variables cancel, and no point satisfies what is left. -/
  | contradiction (relation : Relation) (constant : α)
  /-- The variables cancel, and every point satisfies what is left. -/
  | tautology (relation : Relation) (constant : α)
  | constantObjective
  | degenerate (defect : Constraint.Defect)
deriving DecidableEq

namespace ParseError

variable {α : Type}

/-- The text that the error points at. -/
def span? : ParseError α → Option Span
  | unsupportedVariable _ s => some s
  | nonLinearTerm _ s => some s
  | nonNumericRhs _ s => some s
  | unexpectedToken _ s => some s
  | danglingOperator _ s => some s
  | _ => none

def message [Scalar α] : ParseError α → String
  | missingOperator => "No relational operator found: expected one of <=, >=, =, <, >"
  | multipleOperators count => s!"Expected exactly one relational operator, found {count}"
  | emptySide side => s!"The {side.name} side is empty"
  | unsupportedVariable name _ => s!"Unsupported variable '{name}': only x and y are allowed"
  | nonLinearTerm text _ =>
    s!"Non-linear term '{text}': only multiples of x and y can be added"
  | nonNumericRhs text _ => s!"Right-hand side must be numeric, found '{text}'"
  | unexpectedToken found span =>
    s!"Unexpected '{found}' at position Span \x7b start: {span.start}, end: {span.stop} \x7d"
  | danglingOperator found _ => s!"Expected a term after '{found}'"
  | invalidNumber text => s!"Invalid number: {text}"
  | divisionByZero text => s!"Division by zero in '{text}'"
  | contradiction relation constant =>
    s!"No variables left: 0 {relation.symbol} {Scalar.text constant} can never hold"
  | tautology relation constant =>
    s!"No variables left: 0 {relation.symbol} {Scalar.text constant} always holds"
  | constantObjective => "Objective has no x or y term"
  | degenerate defect => defect.message

end ParseError

end PlanarLP.Formula
