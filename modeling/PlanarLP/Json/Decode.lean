import PlanarLP.Binary64
import PlanarLP.Json.Number
import PlanarLP.Json.Reader
import PlanarLP.Request

/-! Requests and constraints from JSON. A record is written as an object, whose unknown fields
are ignored and whose known ones come at most once, or as an array of its fields in order. -/

namespace PlanarLP.Json

namespace Value

/-- The value of each field of a record, where it is given. -/
def fields? (names : List String) : Value → Option (List (Option Value))
  | .object fields => do
    let fields ← fields.mapM fun (name, v) => name.map fun name => (name, v)
    if names.any fun name => 1 < (fields.filter fun f => f.1 == name).length then none
    else return names.map fun name => List.lookup name fields
  | .array items =>
    if names.length < items.length then none
    else some (items.map some ++ List.replicate (names.length - items.length) none)
  | _ => none

def text? : Value → Option String
  | .string s => s
  | _ => none

def bool? : Value → Option Bool
  | .bool b => some b
  | _ => none

def float? : Value → Option Float
  | .number numeral => floatOf? numeral
  | _ => none

def texts? : Value → Option (List String)
  | .array items => items.mapM text?
  | _ => none

/-- A value that may also be null. -/
def nullable? {β : Type} (read : Value → Option β) : Value → Option (Option β)
  | .null => some none
  | v => (read v).map some

def viewport? (v : Value) : Option (Viewport Float) := do
  match ← v.fields? ["xmin", "xmax", "ymin", "ymax"] with
  | [some xmin, some xmax, some ymin, some ymax] =>
    return ⟨← xmin.float?, ← xmax.float?, ← ymin.float?, ← ymax.float?⟩
  | _ => none

def relationNames : List (String × Relation) :=
  [("LessOrEqual", .le), ("GreaterOrEqual", .ge), ("Equal", .eq)]

/-- A relation by its name, which may also be the name of a null field. -/
def relation? : Value → Option Relation
  | .string (some name) => List.lookup name relationNames
  | .object [(some name, .null)] => List.lookup name relationNames
  | _ => none

/-- The value that a field holds, or the default where the field is not given. -/
def orDefault {β : Type} (read : Value → Option β) (default : β) : Option Value → Option β
  | none => some default
  | some v => read v

def request? (v : Value) : Option (Request Float) := do
  let given : Request Float := {}
  let names := ["constraints", "objective", "sense", "assume_nonnegative", "viewport"]
  match ← v.fields? names with
  | [constraints, objective, sense, assumeNonnegative, viewport] =>
    return {
      constraints := ← orDefault texts? given.constraints constraints
      objective := ← orDefault (nullable? text?) given.objective objective
      sense := ← orDefault text? given.sense sense
      assumeNonnegative := ← orDefault bool? given.assumeNonnegative assumeNonnegative
      viewport := ← orDefault (nullable? viewport?) given.viewport viewport }
  | _ => none

/-- A constraint whose coefficients describe one. -/
def constraint? (v : Value) : Option (Constraint Float) := do
  match ← v.fields? ["a", "b", "c", "relation", "source"] with
  | [some a, some b, some c, some relation, some source] =>
    let k := Constraint.of (← a.float?) (← b.float?) (← relation.relation?) (← c.float?)
      (← source.text?)
    k.toOption
  | _ => none

end Value

def requestOf? (text : String) : Option (Request Float) := do (← Value.ofText? text).request?

def constraintOf? (text : String) : Option (Constraint Float) := do
  (← Value.ofText? text).constraint?

end PlanarLP.Json
