import PlanarLP.Request

/-! A request that is edited step by step and solved after each step. -/

namespace PlanarLP

structure Session (α : Type) where
  request : Request α
  solver : Solver α

inductive Edit (α : Type) where
  | add (text : String)
  /-- An index past the end means the end. -/
  | insert (index : Nat) (text : String)
  /-- An index past the end removes nothing. -/
  | remove (index : Nat)
  | clear
  | objective (text : String) (sense : String)
  /-- The sense stays as it was. -/
  | noObjective
  | nonnegative (assumed : Bool)
  | viewport (window : Option (Viewport α))
  | tolerance (tolerance : Tolerance α)
  | limit (maxConstraints : Nat)

namespace Session

variable {α : Type} [Scalar α]

def empty : Session α := ⟨{}, .standard⟩

def mapConstraints (s : Session α) (f : List String → List String) : Session α :=
  { s with request := { s.request with constraints := f s.request.constraints } }

def apply (s : Session α) : Edit α → Session α
  | .add text => s.mapConstraints (· ++ [text])
  | .insert index text => s.mapConstraints fun cs => cs.insertIdx (min index cs.length) text
  | .remove index => s.mapConstraints (·.eraseIdx index)
  | .clear => s.mapConstraints fun _ => []
  | .objective text sense =>
    { s with request := { s.request with objective := some text, sense := sense } }
  | .noObjective => { s with request := { s.request with objective := none } }
  | .nonnegative assumed => { s with request := { s.request with assumeNonnegative := assumed } }
  | .viewport window => { s with request := { s.request with viewport := window } }
  | .tolerance tolerance => { s with solver := { s.solver with tolerance := tolerance } }
  | .limit maxConstraints =>
    { s with solver := { s.solver with maxConstraints := maxConstraints } }

def solve (s : Session α) : Except (RequestError α) (Description α) :=
  s.request.solveWith s.solver

/-- The answers after each of some edits. -/
def answers (s : Session α) : List (Edit α) → List (Except (RequestError α) (Description α))
  | [] => []
  | e :: es => (s.apply e).solve :: (s.apply e).answers es

end Session

end PlanarLP
