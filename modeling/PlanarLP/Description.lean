import PlanarLP.Objective
import PlanarLP.Viewport

/-! What is told about a solved problem: the verdict, the role of each constraint, and the
part of the region that a window shows. -/

namespace PlanarLP

inductive Solution (α : Type) where
  | infeasible (conflicts : List Conflict)
  /-- The region opens to infinity and the objective, if there is one, has an optimum. -/
  | unbounded (vertices : List (Vertex α)) (openDirections : List (Vec α))
    (witnesses : List (Vertex α)) (values : List α) (optimum : Option (Optimum α))
  /-- The objective improves without limit along `direction`. -/
  | unboundedObjective (vertices : List (Vertex α)) (openDirections : List (Vec α))
    (direction : Vec α)
  | bounded (vertices : List (Vertex α)) (values : List α) (optimum : Option (Optimum α))
deriving DecidableEq

namespace Solution

variable {α : Type}

/-- The verdict on a region whose objective has the given values and optimum. -/
def ofRegion (values : List α) (optimum : Option (Optimum α)) (r : Region α) : Solution α :=
  match r.status with
  | .infeasible => .infeasible r.conflicts
  | .unbounded => .unbounded r.vertices r.openDirections r.witnesses values optimum
  | .bounded => .bounded r.vertices values optimum

def of (r : Region α) : Option (Evaluation α) → Solution α
  | some ⟨_, .unbounded d⟩ => .unboundedObjective r.vertices r.openDirections d
  | some ⟨values, .optimal o⟩ => ofRegion values (some o) r
  | none => ofRegion [] none r

def vertices : Solution α → List (Vertex α)
  | infeasible _ => []
  | unbounded vs _ _ _ _ => vs
  | unboundedObjective vs _ _ => vs
  | bounded vs _ _ => vs

def optimum : Solution α → Option (Optimum α)
  | unbounded _ _ _ _ o => o
  | bounded _ _ o => o
  | _ => none

def openDirections : Solution α → List (Vec α)
  | unbounded _ ds _ _ _ => ds
  | unboundedObjective _ ds _ => ds
  | _ => []

def statusName : Solution α → String
  | infeasible _ => "infeasible"
  | unbounded .. => "unbounded"
  | unboundedObjective .. => "unbounded_objective"
  | bounded .. => "bounded"

end Solution

/-- A constraint as listed beside the solution. -/
structure ConstraintInfo (α : Type) where
  index : Nat
  constraint : Constraint α
  /-- Added by default. -/
  implicit : Bool
  /-- Tight at one or more vertices. -/
  active : Bool
deriving DecidableEq

structure Description (α : Type) where
  solution : Solution α
  constraints : List (ConstraintInfo α)
  viewport : Viewport α
  /-- The corners of the part of the region that the window shows. -/
  clipped : List (Vec α)
deriving DecidableEq

variable {α : Type} [Scalar α]

/-- The corners of the region of `set` within a window. -/
def clip (tol : Tolerance α) (set : ConstraintSet α) (w : Viewport α) : List (Vec α) :=
  (corners tol (set.constraints ++ w.bounds)).map Vertex.position

/-- What is listed of each constraint, for a region with the given vertices. -/
def constraintInfos (set : ConstraintSet α) (vs : List (Vertex α)) : List (ConstraintInfo α) :=
  set.constraints.zipIdx.map fun (k, i) =>
    ⟨i, k, set.isImplicit i, vs.any fun v => v.tight.contains i⟩

/-- Solve, evaluate the objective, and describe the answer in the given window, or else in
one that fits it. -/
def Solver.describe (solver : Solver α) (set : ConstraintSet α) (objective : Option (Objective α))
    (viewport : Option (Viewport α)) : Except TooManyConstraints (Description α) := do
  let region ← solver.solve set
  let evaluation := objective.bind fun f => f.evaluateRegion solver.tolerance region
  let window := viewport.getD (.fit region.candidates)
  return {
    solution := .of region evaluation
    constraints := constraintInfos set region.vertices
    viewport := window
    clipped := if region.isFeasible then clip solver.tolerance set window else [] }

end PlanarLP
