/-! Blank characters, those with the Unicode property White_Space, and texts cut at them. -/

namespace PlanarLP.Text

/-- The code points with the property White_Space, as ranges. -/
def blankRanges : List (Nat × Nat) :=
  [(0x9, 0xD), (0x20, 0x20), (0x85, 0x85), (0xA0, 0xA0), (0x1680, 0x1680), (0x2000, 0x200A),
    (0x2028, 0x2029), (0x202F, 0x202F), (0x205F, 0x205F), (0x3000, 0x3000)]

def inRanges (ranges : List (Nat × Nat)) (c : Char) : Bool :=
  ranges.any fun (low, high) => low ≤ c.toNat && c.toNat ≤ high

def isBlank (c : Char) : Bool := inRanges blankRanges c

/-- The text without the blanks at its ends. -/
def trim (cs : List Char) : List Char :=
  ((cs.dropWhile isBlank).reverse.dropWhile isBlank).reverse

def isAllBlank (cs : List Char) : Bool := cs.all isBlank

/-- Put a character before a list of words, as one more letter of the first. -/
def consLetter (c : Char) : List (List Char) → List (List Char)
  | [] => [[c]]
  | word :: words => (c :: word) :: words

/-- The stretches between single separators, empty ones included. -/
def fields (isSeparator : Char → Bool) : List Char → List (List Char)
  | [] => [[]]
  | c :: cs =>
    if isSeparator c then [] :: fields isSeparator cs else consLetter c (fields isSeparator cs)

/-- The words of a text with one space between them. -/
def normalizeBlanks (cs : List Char) : List Char :=
  [' '].intercalate ((fields isBlank cs).filter fun word => !word.isEmpty)

end PlanarLP.Text
