import PlanarLP.Region.Corners

/-! Why a set of constraints has no common point: the smallest contradictory choices from it.
Two half-planes contradict each other only when they are parallel; failing that, an empty
intersection in the plane always contains an empty one of three. -/

namespace PlanarLP

/-- The indices of two or three constraints that cannot hold together, ascending. -/
inductive Conflict where
  | pair (i j : Nat)
  | triple (i j k : Nat)
deriving DecidableEq, Repr

def Conflict.indices : Conflict → List Nat
  | pair i j => [i, j]
  | triple i j k => [i, j, k]

variable {α : Type} [Scalar α]

/-- The values a constraint allows to `u · p`; a missing end is open. -/
structure Interval (α : Type) where
  lower : Option α
  upper : Option α

namespace Interval

def intersect (i j : Interval α) : Interval α :=
  ⟨Option.merge Scalar.max i.lower j.lower, Option.merge Scalar.min i.upper j.upper⟩

/-- Whether the ends leave nothing between them. The slack grows with finite ends only. -/
def isEmpty (tol : Tolerance α) (i : Interval α) : Bool :=
  match i.lower, i.upper with
  | some lo, some hi =>
    let magnitude :=
      if Scalar.isFinite lo && Scalar.isFinite hi then
        Scalar.max (Scalar.abs lo) (Scalar.abs hi)
      else 0
    !tol.holds lo .le hi magnitude
  | _, _ => false

end Interval

/-- The interval of `u · p` over the points that `k` allows, for a unit vector `u` parallel to
its normal. -/
def Constraint.intervalAlong (k : Constraint α) (u : Vec α) : Interval α :=
  let factor := k.normal.dot u
  let bound := k.c / factor
  match if factor < 0 then k.relation.flip else k.relation with
  | .le => ⟨Scalar.infinity.map (-·), some bound⟩
  | .ge => ⟨some bound, Scalar.infinity⟩
  | .eq => ⟨some bound, some bound⟩

/-- Whether two constraints have parallel boundaries and no point in common. -/
def areOpposed (tol : Tolerance α) (k l : Constraint α) : Bool :=
  let u := k.normal.normalize
  tol.isSingular (u.cross l.normal.normalize) 1 &&
    ((k.intervalAlong u).intersect (l.intervalAlong u)).isEmpty tol

/-- Points that show a region without corners to be inhabited, if it is: the origin, and the
nearest point to it on each boundary. -/
def probes (cs : List (Constraint α)) : List (Vec α) :=
  .origin :: cs.map Constraint.boundaryPoint

/-- Whether some point satisfies all of a few constraints. A region with points has a corner
or only parallel boundaries, so the crossings and the probes decide. -/
def jointlyFeasible (tol : Tolerance α) (cs : List (Constraint α)) : Bool :=
  (probes cs ++ crossings tol cs).any (allows tol cs)

def pairConflicts (tol : Tolerance α) (cs : List (Constraint α)) : List Conflict :=
  (pairs cs.zipIdx).filterMap fun ((k, i), (l, j)) =>
    if areOpposed tol k l then some (.pair i j) else none

def tripleConflicts (tol : Tolerance α) (cs : List (Constraint α)) : List Conflict :=
  (triples cs.zipIdx).filterMap fun ((k, i), (l, j), (m, h)) =>
    if jointlyFeasible tol [k, l, m] then none else some (.triple i j h)

/-- The pairs that contradict each other, or the triples when no pair does. -/
def smallestConflicts (tol : Tolerance α) (cs : List (Constraint α)) : List Conflict :=
  match pairConflicts tol cs with
  | [] => tripleConflicts tol cs
  | found => found

end PlanarLP
