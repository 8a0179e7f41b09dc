import PlanarLP.Relation
import PlanarLP.Vec

/-! When two computed quantities count as equal or ordered. Quantities of magnitude `m`
may differ by `absolute + relative * m`; a determinant counts as zero up to `determinant`
times the size of its rows. Every comparison of the solver is made here. -/

namespace PlanarLP

structure Tolerance (α : Type) where
  absolute : α
  relative : α
  determinant : α
deriving DecidableEq

namespace Tolerance

variable {α : Type} [Scalar α]

/-- The tolerance in use unless another is asked for. -/
def standard : Tolerance α := ⟨1e-9, 1e-9, 1e-9⟩

def slack (tol : Tolerance α) (magnitude : α) : α :=
  tol.absolute + tol.relative * Scalar.abs magnitude

/-- The closed comparison of `lhs` with `rhs`, within the slack for `magnitude`. -/
def holds (tol : Tolerance α) (lhs : α) (relation : Relation) (rhs magnitude : α) : Bool :=
  match relation with
  | .le => lhs - rhs ≤ tol.slack magnitude
  | .ge => -tol.slack magnitude ≤ lhs - rhs
  | .eq => Scalar.abs (lhs - rhs) ≤ tol.slack magnitude

theorem holds_le (tol : Tolerance α) (a b m : α) :
    tol.holds a .le b m = true ↔ a - b ≤ tol.slack m := decide_eq_true_iff

theorem holds_ge (tol : Tolerance α) (a b m : α) :
    tol.holds a .ge b m = true ↔ -tol.slack m ≤ a - b := decide_eq_true_iff

theorem holds_eq (tol : Tolerance α) (a b m : α) :
    tol.holds a .eq b m = true ↔ Scalar.abs (a - b) ≤ tol.slack m := decide_eq_true_iff

def approxEq (tol : Tolerance α) (a b : α) : Bool :=
  tol.holds a .eq b (Scalar.max (Scalar.abs a) (Scalar.abs b))

def isZero (tol : Tolerance α) (v : α) : Bool := tol.holds v .eq 0 0

/-- Whether a determinant is too small to divide by. -/
def isSingular (tol : Tolerance α) (det scale : α) : Bool :=
  Scalar.abs det ≤ tol.determinant * scale

/-- Whether two points are the same one. -/
def samePoint (tol : Tolerance α) (p q : Vec α) : Bool :=
  tol.approxEq p.x q.x && tol.approxEq p.y q.y

end Tolerance

end PlanarLP
