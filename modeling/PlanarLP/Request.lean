import PlanarLP.Description
import PlanarLP.Formula.Parse

/-! A problem as submitted in text: constraints, perhaps an objective with its sense, and
perhaps a window. Solving it parses every part and reports the first that is wrong. -/

namespace PlanarLP

open Formula

structure Request (α : Type) where
  constraints : List String := []
  objective : Option String := none
  /-- Used only with an objective. -/
  sense : String := "max"
  /-- Add the bounds `x >= 0` and `y >= 0` unless they are given. -/
  assumeNonnegative : Bool := true
  viewport : Option (Viewport α) := none
deriving DecidableEq

inductive RequestError (α : Type) where
  | constraint (index : Nat) (text : String) (cause : ParseError α)
  | objective (cause : ParseError α)
  | sense (cause : UnknownSense)
  | tooManyConstraints (cause : TooManyConstraints)
  | viewport (cause : Viewport.Defect)
deriving DecidableEq

variable {α : Type} [Scalar α]

def RequestError.message : RequestError α → String
  | constraint index text cause => s!"Constraint {index + 1} ('{text}'): {cause.message}"
  | objective cause => s!"Objective: {cause.message}"
  | sense cause => cause.message
  | tooManyConstraints cause => cause.message
  | viewport cause => cause.message

/-- Parse the constraints that have the indices from `index` on, up to the first that fails. -/
def parseConstraintsFrom (index : Nat) :
    List String → Except (RequestError α) (List (Constraint α))
  | [] => .ok []
  | text :: texts => do
    let k ← (Constraint.parse text).mapError (.constraint index text)
    return k :: (← parseConstraintsFrom (index + 1) texts)

def parseConstraints (texts : List String) : Except (RequestError α) (List (Constraint α)) :=
  parseConstraintsFrom 0 texts

namespace Request

/-- A blank objective counts as none, whatever the sense says. -/
def parseObjective (r : Request α) : Except (RequestError α) (Option (Objective α)) :=
  match r.objective with
  | none => .ok none
  | some text =>
    if Text.isAllBlank text.toList then .ok none
    else do
      let sense ← (Sense.ofText r.sense).mapError RequestError.sense
      let f ← (Objective.parse text sense).mapError RequestError.objective
      return some f

def checkViewport (r : Request α) : Except (RequestError α) (Option (Viewport α)) :=
  match r.viewport with
  | none => .ok none
  | some w => (w.check.map some).mapError .viewport

def solveWith (r : Request α) (solver : Solver α) : Except (RequestError α) (Description α) := do
  (solver.checkSize r.constraints.length).mapError RequestError.tooManyConstraints
  let given ← parseConstraints r.constraints
  let objective ← r.parseObjective
  let viewport ← r.checkViewport
  let set := ConstraintSet.of given r.assumeNonnegative
  (solver.describe set objective viewport).mapError .tooManyConstraints

def solve (r : Request α) : Except (RequestError α) (Description α) := r.solveWith .standard

end Request

end PlanarLP
