import PlanarLP.Binary64
import PlanarLP.Description

/-! A description as lines of text for a terminal. Numbers are shown with at most six decimal
places. -/

namespace PlanarLP.Report

/-- Round to six decimal places. Adding zero turns a negative zero into the positive one. -/
def rounded (x : Float) : Float := (x * 1e6).round / 1e6 + 0

def number (x : Float) : String := Scalar.text (rounded x)

def point (v : Vec Float) : String := s!"({number v.x}, {number v.y})"

/-- Fill up with spaces on the right. -/
def padded (width : Nat) (s : String) : String := s.pushn ' ' (width - s.length)

/-- The texts of the constraints with some indices. -/
def sources (d : Description Float) (indices : List Nat) : List String :=
  indices.filterMap fun i => d.constraints[i]?.map fun info => info.constraint.source

def value : Option Float → String
  | some z => s!"  z = {number z}"
  | none => ""

def vertexLine (d : Description Float) (v : Vertex Float) (z : Option Float) : String :=
  let tight := ", ".intercalate (sources d v.tight)
  let flag := if v.degenerate then "  (degenerate)" else ""
  s!"  {padded 24 (point v.position)}{value z}  [{tight}]{flag}"

/-- A line for each of some points, with its value where there is one. -/
def withValues (line : Vertex Float → Option Float → String) (vs : List (Vertex Float))
    (values : List Float) : List String :=
  vs.zipIdx.map fun (v, i) => line v values[i]?

def vertexLines (d : Description Float) (vs : List (Vertex Float)) (values : List Float) :
    List String :=
  "Corner points:" :: withValues (vertexLine d) vs values

def witnessLines (ws : List (Vertex Float)) (values : List Float) : List String :=
  "The region has no corner points. Sample points:" ::
    withValues (fun w z => s!"  {point w.position}{value z}") ws values

def optimumLine (o : Optimum Float) : String :=
  s!"Optimum: z = {number o.value} at {point o.vertex.position}"

def rayLines (o : Optimum Float) : List String :=
  match o.optimalRay with
  | some ray => [s!"  also along {point ray} from there"]
  | none => []

def edgeLines (o : Optimum Float) : List String :=
  if o.isTied then
    let ends := " - ".intercalate (o.tied.map fun v => point v.position)
    [s!"  every point on the edge {ends} is optimal"]
  else []

/-- What is said of an optimum, after an empty line; nothing without one. -/
def optimumLines (more : Optimum Float → List String) : Option (Optimum Float) → List String
  | some o => "" :: optimumLine o :: more o
  | none => []

def conflictLine (d : Description Float) (c : Conflict) : String :=
  let names := ", ".intercalate ((sources d c.indices).map fun source => s!"'{source}'")
  s!"  {names} cannot all hold"

def solutionLines (d : Description Float) : List String :=
  match d.solution with
  | .infeasible conflicts =>
    ["Status: INFEASIBLE", "No point satisfies every constraint."] ++
      conflicts.map (conflictLine d)
  | .unboundedObjective vertices _ direction =>
    ["Status: UNBOUNDED OBJECTIVE"] ++ vertexLines d vertices [] ++
      [s!"The objective improves without limit along {point direction}."]
  | .unbounded vertices openDirections witnesses values optimum =>
    ["Status: UNBOUNDED REGION"] ++
      (if vertices.isEmpty then witnessLines witnesses values
        else vertexLines d vertices values) ++
      ["Open directions:"] ++ openDirections.map (fun d => s!"  {point d}") ++
      optimumLines rayLines optimum
  | .bounded vertices values optimum =>
    ["Status: BOUNDED"] ++ vertexLines d vertices values ++ optimumLines edgeLines optimum

def constraintLine (info : ConstraintInfo Float) : String :=
  let note := if info.implicit then "  (default)" else ""
  s!"  {info.index + 1}. {info.constraint.source}{note}"

def lines (d : Description Float) : List String :=
  ["Constraints:"] ++ d.constraints.map constraintLine ++ [""] ++ solutionLines d

/-- The canonical form of a constraint. -/
def canonicalText (k : Constraint Float) : String :=
  s!"{Scalar.text k.a}x + {Scalar.text k.b}y {k.relation.symbol} {Scalar.text k.c}"

end PlanarLP.Report
