import PlanarLP.Description
import PlanarLP.Json.Number
import PlanarLP.Json.Writer

/-! Descriptions and constraints as JSON. -/

namespace PlanarLP.Json.Value

def nat (n : Nat) : Value := .number (toString n)

def vec (v : Vec Float) : Value := .array [.float v.x, .float v.y]

def vertex (v : Vertex Float) : Value := .record [
  ("x", .float v.x), ("y", .float v.y), ("tight", .list .nat v.tight),
  ("degenerate", .bool v.degenerate)]

def optimum (o : Optimum Float) : Value := .record [
  ("vertex", .vertex o.vertex), ("value", .float o.value), ("tied", .list .vertex o.tied),
  ("optimal_ray", .orNull .vec o.optimalRay)]

def conflict (c : Conflict) : Value := .record [("constraints", .list .nat c.indices)]

/-- The fields of a solution that its status calls for. -/
def solutionFields : Solution Float → List (String × Value)
  | .infeasible conflicts => [("conflicts", .list .conflict conflicts)]
  | .unbounded vertices openDirections witnesses values o => [
    ("vertices", .list .vertex vertices), ("open_directions", .list .vec openDirections),
    ("witnesses", .list .vertex witnesses), ("values", .list .float values),
    ("optimum", .orNull .optimum o)]
  | .unboundedObjective vertices openDirections direction => [
    ("vertices", .list .vertex vertices), ("open_directions", .list .vec openDirections),
    ("direction", .vec direction)]
  | .bounded vertices values o => [
    ("vertices", .list .vertex vertices), ("values", .list .float values),
    ("optimum", .orNull .optimum o)]

def solution (s : Solution Float) : Value :=
  .record (("status", .text s.statusName) :: solutionFields s)

def relation : Relation → Value
  | .le => .text "LessOrEqual"
  | .ge => .text "GreaterOrEqual"
  | .eq => .text "Equal"

def constraintInfo (i : ConstraintInfo Float) : Value := .record [
  ("index", .nat i.index), ("source", .text i.constraint.source), ("a", .float i.constraint.a),
  ("b", .float i.constraint.b), ("c", .float i.constraint.c),
  ("relation", .relation i.constraint.relation), ("implicit", .bool i.implicit),
  ("active", .bool i.active)]

def constraint (k : Constraint Float) : Value := .record [
  ("a", .float k.a), ("b", .float k.b), ("c", .float k.c), ("relation", .relation k.relation),
  ("source", .text k.source)]

def viewport (w : Viewport Float) : Value := .record [
  ("xmin", .float w.xmin), ("xmax", .float w.xmax), ("ymin", .float w.ymin),
  ("ymax", .float w.ymax)]

def description (d : Description Float) : Value := .record [
  ("solution", .solution d.solution), ("constraints", .list .constraintInfo d.constraints),
  ("viewport", .viewport d.viewport), ("clipped", .list .vec d.clipped)]

end PlanarLP.Json.Value
