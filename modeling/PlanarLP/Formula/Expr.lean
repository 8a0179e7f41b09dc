import PlanarLP.Formula.Comparator
import PlanarLP.Formula.Span
import PlanarLP.Scalar

/-! Linear expressions as written: sums of signed terms, each a multiple of a variable or a
constant, before they are collected. -/

namespace PlanarLP.Formula

inductive Variable where
  | x
  | y
deriving DecidableEq, Repr

inductive Side where
  | left
  | right
deriving DecidableEq, Repr

def Side.name : Side → String
  | left => "left"
  | right => "right"

/-- A signed multiple of a variable, or a signed constant. -/
structure Term (α : Type) where
  span : Span
  coefficient : α
  var : Option Variable
deriving DecidableEq

structure Expr (α : Type) where
  terms : List (Term α)
deriving DecidableEq

structure Comparison (α : Type) where
  lhs : Expr α
  op : Comparator
  opSpan : Span
  rhs : Expr α
deriving DecidableEq

namespace Expr

variable {α : Type}

def isEmpty (e : Expr α) : Bool := e.terms.isEmpty

def push (e : Expr α) (t : Term α) : Expr α := ⟨e.terms ++ [t]⟩

/-- From the first term to the last. -/
def span? (e : Expr α) : Option Span :=
  match e.terms with
  | [] => none
  | t :: ts => some (ts.foldl (fun s u => s.cover u.span) t.span)

variable [Scalar α]

/-- The sum of the coefficients that stand with `v`, or of the constants. A sum starts from
the negative zero, which alone leaves the sign of a zero as it is. -/
def total (e : Expr α) (v : Option Variable) : α :=
  ((e.terms.filter fun t => t.var == v).map (·.coefficient)).foldl (· + ·) (-0)

def coefficient (e : Expr α) (v : Variable) : α := e.total (some v)

def constant (e : Expr α) : α := e.total none

end Expr

end PlanarLP.Formula
