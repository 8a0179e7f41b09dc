import PlanarLP.Formula.Term
import PlanarLP.Objective

/-! Reading comparisons, constraints and objectives from text. A constraint is a comparison
with everything brought to one side; an objective is an expression, perhaps named as in
`Z = 3x + 2y`. -/

namespace PlanarLP

open Formula

variable {α : Type} [Scalar α]

namespace Formula

/-- The comparison operators among some tokens, and where they stand. -/
def comparatorsOf (ts : List Token) : List (Comparator × Span) :=
  ts.filterMap fun t => t.comparator?.map fun op => (op, t.span)

def leftOf (ts : List Token) : List Token := ts.takeWhile fun t => !t.isComparator

def rightOf (ts : List Token) : List Token := (ts.dropWhile fun t => !t.isComparator).tail

/-- A comparison as written, with its two sides apart. -/
def Comparison.parse (source : String) : Except (ParseError α) (Comparison α) :=
  let ts := lexemes source
  match comparatorsOf ts with
  | [] => .error .missingOperator
  | [(op, opSpan)] => do
    let lhs ← Expr.ofTokens source.toList .left (leftOf ts)
    let rhs ← Expr.ofTokens source.toList .right (rightOf ts)
    return ⟨lhs, op, opSpan, rhs⟩
  | many => .error (.multipleOperators many.length)

/-- A name that an objective may be given: any but those of variables. -/
def isObjectiveName (t : Token) : Bool :=
  t.kind == .ident &&
    match Name.of t.text with
    | .var _ => false
    | _ => true

/-- The tokens of an objective without its name. Only an equation names an objective. -/
def objectiveTokens (ts : List Token) : Except (ParseError α) (List Token) :=
  match ts.filter Token.isComparator with
  | [] => .ok ts
  | [t] =>
    match ts with
    | name :: op :: rest =>
      if isObjectiveName name && op.kind == .comparator .eq then .ok rest
      else .error (.unexpectedToken t.text t.span)
    | _ => .error (.unexpectedToken t.text t.span)
  | many => .error (.multipleOperators many.length)

def normalized (source : String) : String := String.ofList (Text.normalizeBlanks source.toList)

end Formula

/-- A constraint in canonical form. It keeps its text, with single spaces between words. -/
def Constraint.parse (source : String) : Except (ParseError α) (Constraint α) := do
  let k ← Comparison.parse source
  let a := k.lhs.coefficient .x - k.rhs.coefficient .x
  let b := k.lhs.coefficient .y - k.rhs.coefficient .y
  let c := k.rhs.constant - k.lhs.constant
  let relation := k.op.relation
  if Tolerance.standard.isZero a && Tolerance.standard.isZero b then
    if Tolerance.standard.holds 0 relation c c then .error (.tautology relation c)
    else .error (.contradiction relation c)
  else (Constraint.of a b relation c (normalized source)).mapError ParseError.degenerate

def Objective.parse (source : String) (sense : Sense) : Except (ParseError α) (Objective α) := do
  let ts ← objectiveTokens (lexemes source)
  if ts.isEmpty then .error .constantObjective
  else
    let e ← Expr.ofTokens source.toList .left ts
    let f : Objective α := ⟨e.coefficient .x, e.coefficient .y, e.constant, sense⟩
    if !f.isFinite then .error (.invalidNumber (normalized source))
    else if Tolerance.standard.isZero f.p && Tolerance.standard.isZero f.q then
      .error .constantObjective
    else return f

end PlanarLP
