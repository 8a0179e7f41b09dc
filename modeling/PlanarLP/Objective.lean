import PlanarLP.Region
import PlanarLP.Text.Blank

/-! Linear objectives and their evaluation over a region. The values at the corners decide,
unless the objective improves along one of the directions in which the region opens. -/

namespace PlanarLP

inductive Sense where
  | maximize
  | minimize
deriving DecidableEq, Repr

/-- A text that names no sense. -/
structure UnknownSense where
  text : String
deriving DecidableEq, Repr

def UnknownSense.message (e : UnknownSense) : String :=
  s!"Unknown objective sense '{e.text}': expected max or min"

namespace Sense

def name : Sense → String
  | maximize => "max"
  | minimize => "min"

/-- Case and surrounding blanks do not matter. -/
def ofText (text : String) : Except UnknownSense Sense :=
  let word := String.ofList ((Text.trim text.toList).map Char.toLower)
  if word ∈ ["max", "maximize", "maximise"] then .ok .maximize
  else if word ∈ ["min", "minimize", "minimise"] then .ok .minimize
  else .error ⟨text⟩

/-- How every value compares with the best one. -/
def bound : Sense → Relation
  | maximize => .le
  | minimize => .ge

/-- The better of two values. -/
def better {α : Type} [Scalar α] : Sense → α → α → α
  | maximize => Scalar.max
  | minimize => Scalar.min

end Sense

/-- The objective `p * x + q * y + offset`. -/
structure Objective (α : Type) where
  p : α
  q : α
  offset : α
  sense : Sense
deriving DecidableEq

/-- The best value over a region and where it is attained. -/
structure Optimum (α : Type) where
  /-- The first vertex that attains it. -/
  vertex : Vertex α
  value : α
  /-- Every vertex that attains it. -/
  tied : List (Vertex α)
  /-- A direction along which the value stays the best without end. -/
  optimalRay : Option (Vec α)
deriving DecidableEq

def Optimum.isTied {α : Type} (o : Optimum α) : Bool := 1 < o.tied.length

inductive Outcome (α : Type) where
  | optimal (optimum : Optimum α)
  /-- The value improves without limit along `direction`. -/
  | unbounded (direction : Vec α)
deriving DecidableEq

structure Evaluation (α : Type) where
  /-- The value at each vertex, in order. -/
  values : List α
  outcome : Outcome α
deriving DecidableEq

namespace Objective

variable {α : Type} [Scalar α]

def gradient (f : Objective α) : Vec α := ⟨f.p, f.q⟩

def valueAt (f : Objective α) (v : Vec α) : α := f.p * v.x + f.q * v.y + f.offset

def isFinite (f : Objective α) : Bool :=
  Scalar.isFinite f.p && Scalar.isFinite f.q && Scalar.isFinite f.offset

/-- How the rate of change along `d` compares with zero. -/
def rateHolds (f : Objective α) (tol : Tolerance α) (relation : Relation) (d : Vec α) : Bool :=
  tol.holds (f.gradient.dot d) relation 0 f.gradient.norm

/-- The first direction along which the objective improves. -/
def improving? (f : Objective α) (tol : Tolerance α) (ds : List (Vec α)) : Option (Vec α) :=
  ds.find? fun d => !f.rateHolds tol f.sense.bound d

/-- The best of the values; `none` for an empty list. -/
def best? (f : Objective α) : List α → Option α
  | [] => none
  | v :: vs => some (vs.foldl f.sense.better v)

/-- The vertices whose value is the best one, with their values. -/
def tied (f : Objective α) (tol : Tolerance α) (vs : List (Vertex α)) (best : α) :
    List (Vertex α × α) :=
  (vs.map fun v => (v, f.valueAt v.position)).filter fun (_, value) =>
    value == best || tol.approxEq value best

def optimum? (f : Objective α) (tol : Tolerance α) (vs : List (Vertex α)) (ds : List (Vec α)) :
    Option (Optimum α) := do
  let best ← f.best? (vs.map fun v => f.valueAt v.position)
  let tied := f.tied tol vs best
  let (vertex, value) ← tied.head?
  return ⟨vertex, value, tied.map Prod.fst, ds.find? (f.rateHolds tol .eq)⟩

/-- Evaluate at the vertices of a region that opens along `ds`. There is nothing to evaluate
without vertices or for an objective with a coefficient that is not finite. -/
def evaluate (f : Objective α) (tol : Tolerance α) (vs : List (Vertex α)) (ds : List (Vec α)) :
    Option (Evaluation α) :=
  if vs.isEmpty || !f.isFinite then none
  else
    let values := vs.map fun v => f.valueAt v.position
    match f.improving? tol ds with
    | some d => some ⟨values, .unbounded d⟩
    | none => (f.optimum? tol vs ds).map fun o => ⟨values, .optimal o⟩

/-- An infeasible region has no candidates, and so no evaluation. -/
def evaluateRegion (f : Objective α) (tol : Tolerance α) (r : Region α) :
    Option (Evaluation α) :=
  f.evaluate tol r.candidates r.openDirections

end Objective

end PlanarLP
