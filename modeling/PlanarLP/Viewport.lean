import PlanarLP.Vertex

/-! Display windows. A window clips what is drawn of a region and nothing else. -/

namespace PlanarLP

structure Viewport (α : Type) where
  xmin : α
  xmax : α
  ymin : α
  ymax : α
deriving DecidableEq

inductive Axis where
  | x
  | y
deriving DecidableEq, Repr

def Axis.name : Axis → String
  | x => "x"
  | y => "y"

namespace Viewport

/-- Why bounds make no window. -/
inductive Defect where
  | empty (axis : Axis)
  | nonFinite
deriving DecidableEq, Repr

def Defect.message : Defect → String
  | empty axis => s!"Empty viewport: {axis.name}min must be below {axis.name}max"
  | nonFinite => "Viewport bounds must be finite"

variable {α : Type} [Scalar α]

/-- The window shown when nothing asks for a larger one. -/
def standard : Viewport α := ⟨-2.0, 15.0, -2.0, 15.0⟩

def check (w : Viewport α) : Except Defect (Viewport α) :=
  if !([w.xmin, w.xmax, w.ymin, w.ymax].all Scalar.isFinite) then .error .nonFinite
  else if w.xmax ≤ w.xmin then .error (.empty .x)
  else if w.ymax ≤ w.ymin then .error (.empty .y)
  else .ok w

/-- The window from `lo` to `hi`, grown to show a coordinate's values with a margin of a tenth
of their extent, and of no less than a tenth. -/
def fitAxis (lo hi : α) : List α → α × α
  | [] => (lo, hi)
  | v :: vs =>
    let least := vs.foldl Scalar.min v
    let greatest := vs.foldl Scalar.max v
    let margin := 0.1 * Scalar.max (greatest - least) 1
    (Scalar.min lo (least - margin), Scalar.max hi (greatest + margin))

/-- The standard window, grown to show every vertex. -/
def fit (vs : List (Vertex α)) : Viewport α :=
  let w : Viewport α := standard
  let (xmin, xmax) := fitAxis w.xmin w.xmax (vs.map (·.x))
  let (ymin, ymax) := fitAxis w.ymin w.ymax (vs.map (·.y))
  ⟨xmin, xmax, ymin, ymax⟩

def contains (w : Viewport α) (p : Vec α) : Bool :=
  w.xmin ≤ p.x && p.x ≤ w.xmax && w.ymin ≤ p.y && p.y ≤ w.ymax

/-- The window as four half-planes. -/
def bounds (w : Viewport α) : List (Constraint α) :=
  let side (a b : α) (relation : Relation) (c : α) (name : String) : Constraint α :=
    ⟨a, b, c, relation, s!"{name} {relation.symbol} {Scalar.text c}"⟩
  [side 1 0 .ge w.xmin "x", side 1 0 .le w.xmax "x",
    side 0 1 .ge w.ymin "y", side 0 1 .le w.ymax "y"]

end Viewport

end PlanarLP
