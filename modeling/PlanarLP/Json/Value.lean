/-! JSON values, as read from a text or about to be written. -/

namespace PlanarLP.Json

inductive Value where
  | null
  | bool (b : Bool)
  /-- A number, by the numeral that writes it. -/
  | number (numeral : String)
  /-- A string; `none` where its escapes hold half of a surrogate pair, so that it writes no
  text. -/
  | string (text : Option String)
  | array (items : List Value)
  | object (fields : List (Option String × Value))

namespace Value

def text (s : String) : Value := .string (some s)

def record (fields : List (String × Value)) : Value :=
  .object (fields.map fun (name, v) => (some name, v))

def list {β : Type} (f : β → Value) (xs : List β) : Value := .array (xs.map f)

def orNull {β : Type} (f : β → Value) : Option β → Value
  | some x => f x
  | none => .null

end Value

end PlanarLP.Json
