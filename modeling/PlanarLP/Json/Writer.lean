import PlanarLP.Json.Value

/-! Writing JSON, either compactly or with each item on a line of its own. -/

namespace PlanarLP.Json

/-- A control character has its short escape, or else a hexadecimal one. -/
def escape (c : Char) : List Char :=
  match c with
  | '"' => ['\\', '"']
  | '\\' => ['\\', '\\']
  | '\x08' => ['\\', 'b']
  | '\x0c' => ['\\', 'f']
  | '\n' => ['\\', 'n']
  | '\r' => ['\\', 'r']
  | '\t' => ['\\', 't']
  | c =>
    if c.toNat < 0x20 then
      let ds := Nat.toDigits 16 c.toNat
      '\\' :: 'u' :: List.replicate (4 - ds.length) '0' ++ ds
    else [c]

def quoted (s : String) : String := String.ofList ('"' :: s.toList.flatMap escape ++ ['"'])

/-- Line breaks and spaces between the parts of a value. -/
structure Spacing where
  /-- What stands before an item at a depth, or before a closing bracket. -/
  lineStart : Nat → String
  afterColon : String

def Spacing.compact : Spacing := ⟨fun _ => "", ""⟩

/-- Two spaces for each depth. -/
def Spacing.indented : Spacing :=
  ⟨fun depth => String.ofList ('\n' :: List.replicate (2 * depth) ' '), " "⟩

/-- Written items between brackets; nothing stands between those of an empty value. -/
def enclose (s : Spacing) (depth : Nat) (left right : String) (items : List String) : String :=
  if items.isEmpty then left ++ right
  else left ++ s.lineStart (depth + 1) ++ (("," ++ s.lineStart (depth + 1)).intercalate items) ++
    s.lineStart depth ++ right

mutual

def Value.writeAt (s : Spacing) (depth : Nat) : Value → String
  | .null => "null"
  | .bool true => "true"
  | .bool false => "false"
  | .number numeral => numeral
  | .string text => quoted (text.getD "")
  | .array items => enclose s depth "[" "]" (writeItems s (depth + 1) items)
  | .object fields => enclose s depth "\x7b" "\x7d" (writeFields s (depth + 1) fields)

def writeItems (s : Spacing) (depth : Nat) : List Value → List String
  | [] => []
  | v :: vs => v.writeAt s depth :: writeItems s depth vs

def writeFields (s : Spacing) (depth : Nat) : List (Option String × Value) → List String
  | [] => []
  | (name, v) :: fs =>
    (quoted (name.getD "") ++ ":" ++ s.afterColon ++ v.writeAt s depth) :: writeFields s depth fs

end

def Value.write (s : Spacing) (v : Value) : String := v.writeAt s 0

end PlanarLP.Json
