import PlanarLP.Tolerance

/-! A closed linear constraint: the points on one side of a boundary line, or on the line
itself. `Constraint.of` admits finite coefficients that are not both zero, so that the
boundary is a line. -/

namespace PlanarLP

/-- The constraint `a * x + b * y <relation> c`, with the text it was written as. -/
structure Constraint (α : Type) where
  a : α
  b : α
  c : α
  relation : Relation
  source : String
deriving DecidableEq

namespace Constraint

/-- Why coefficients describe no constraint. -/
inductive Defect where
  | zeroCoefficients (source : String)
  | nonFinite (source : String)
deriving DecidableEq, Repr

def Defect.message : Defect → String
  | zeroCoefficients source => s!"Constraint '{source}' has no variable terms (a = b = 0)"
  | nonFinite source => s!"Constraint '{source}' has a non-finite coefficient"

variable {α : Type} [Scalar α]

/-- Coefficients too small to tell from zero count as zero here. -/
def of (a b : α) (relation : Relation) (c : α) (source : String) :
    Except Defect (Constraint α) :=
  if !(Scalar.isFinite a && Scalar.isFinite b && Scalar.isFinite c) then
    .error (.nonFinite source)
  else if Tolerance.standard.isZero a && Tolerance.standard.isZero b then
    .error (.zeroCoefficients source)
  else
    .ok ⟨a, b, c, relation, source⟩

def xNonnegative : Constraint α := ⟨1, 0, 0, .ge, "x >= 0"⟩

def yNonnegative : Constraint α := ⟨0, 1, 0, .ge, "y >= 0"⟩

def normal (k : Constraint α) : Vec α := ⟨k.a, k.b⟩

def lhs (k : Constraint α) (p : Vec α) : α := k.a * p.x + k.b * p.y

/-- The size of the quantities compared at `p`. -/
def magnitudeAt (k : Constraint α) (p : Vec α) : α :=
  Scalar.abs (k.a * p.x) + Scalar.abs (k.b * p.y) + Scalar.abs k.c

def isSatisfied (k : Constraint α) (tol : Tolerance α) (p : Vec α) : Bool :=
  tol.holds (k.lhs p) k.relation k.c (k.magnitudeAt p)

/-- Whether `p` lies on the boundary line. -/
def isTight (k : Constraint α) (tol : Tolerance α) (p : Vec α) : Bool :=
  tol.holds (k.lhs p) .eq k.c (k.magnitudeAt p)

/-- The point of the boundary line nearest to the origin. -/
def boundaryPoint (k : Constraint α) : Vec α := k.normal.scale (k.c / k.normal.normSq)

/-- Unit normals that point away from the allowed side. A line has two, one to each side. -/
def outwardNormals (k : Constraint α) : List (Vec α) :=
  let n := k.normal.normalize
  match k.relation with
  | .le => [n]
  | .ge => [-n]
  | .eq => [n, -n]

/-- Unit normal, right-hand side and relation, with a lower bound turned into an upper one
and an equation signed so that its first nonzero coefficient is positive. -/
def canonical (k : Constraint α) (tol : Tolerance α) : Vec α × α × Relation :=
  let length := k.normal.norm
  let n := k.normal.divide length
  let c := k.c / length
  match k.relation with
  | .le => (n, c, .le)
  | .ge => (-n, -c, .le)
  | .eq =>
    if n.x < -tol.absolute ∨ (tol.isZero n.x ∧ n.y < 0) then (-n, -c, .eq) else (n, c, .eq)

/-- Whether two constraints allow the same points. -/
def isEquivalent (k l : Constraint α) (tol : Tolerance α) : Bool :=
  let (n, c, r) := k.canonical tol
  let (m, d, s) := l.canonical tol
  r == s && tol.approxEq n.x m.x && tol.approxEq n.y m.y && tol.approxEq c d

/-- The intersection of two boundary lines by Cramer's rule; none when they are parallel. -/
def crossing (k l : Constraint α) (tol : Tolerance α) : Option (Vec α) :=
  let det := k.normal.cross l.normal
  let scale := Scalar.max (Scalar.abs k.a) (Scalar.abs k.b) *
    Scalar.max (Scalar.abs l.a) (Scalar.abs l.b)
  if tol.isSingular det scale then none
  else some ⟨(k.c * l.b - l.c * k.b) / det, (k.a * l.c - l.a * k.c) / det⟩

end Constraint

end PlanarLP
