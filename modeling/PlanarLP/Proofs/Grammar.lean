import Mathlib.Logic.Function.Iterate
import PlanarLP.Formula.Parse

/-! The language of comparisons: what a comparison is made of, which tokens spell it, and
which signed multiples it adds up on each side. Nothing here says how a comparison is read;
`Comparison.parse` is measured against it. -/

namespace PlanarLP.Formula

/-- The name of a variable in lower case. -/
def Variable.name : Variable → String
  | x => "x"
  | y => "y"

/-- A name that stands for a variable. Case makes no difference. -/
def Token.IsVariable (t : Token) (v : Variable) : Prop :=
  t.kind = .ident ∧ t.text.toLower = v.name

/-- A numeral whose value is `v`, a finite number. -/
def Token.IsNumber {α : Type} [Scalar α] (t : Token) (v : α) : Prop :=
  t.kind = .number ∧ (Decimal.ofNumeral? t.text.toList).map Decimal.value = some v ∧
    Scalar.isFinite v = true

inductive Sign where
  | plus
  | minus
deriving DecidableEq, Repr

def Sign.kind : Sign → Token.Kind
  | plus => .plus
  | minus => .minus

inductive Factor (α : Type) where
  | number (value : α)
  | var (v : Variable)

/-- What may follow a factor in a term. -/
inductive Tail (α : Type) where
  | times (f : Factor α)
  | divided (divisor : α)
  /-- A variable without an operator before it. -/
  | beside (v : Variable)

/-- `signs first rest`, such as `- 3 x / 4`. -/
structure WrittenTerm (α : Type) where
  signs : List Sign
  first : Factor α
  rest : List (Tail α)

structure WrittenComparison (α : Type) where
  lhs : List (WrittenTerm α)
  op : Comparator
  rhs : List (WrittenTerm α)

variable {α : Type} [Scalar α]

/-! Which multiple of which variable a term is. -/

namespace Factor

def vars : Factor α → List Variable
  | number _ => []
  | var v => [v]

/-- Variables leave a coefficient as it is. -/
def scale (c : α) : Factor α → α
  | number v => c * v
  | var _ => c

end Factor

namespace Tail

def vars : Tail α → List Variable
  | times f => f.vars
  | divided _ => []
  | beside v => [v]

def scale (c : α) : Tail α → α
  | times f => f.scale c
  | divided d => c / d
  | beside _ => c

end Tail

namespace WrittenTerm

def vars (w : WrittenTerm α) : List Variable := w.first.vars ++ w.rest.flatMap Tail.vars

/-- The product and quotient of the numbers, from left to right. -/
def product (w : WrittenTerm α) : α := w.rest.foldl Tail.scale (w.first.scale 1)

/-- The power of minus one that counts the minus signs. -/
def sign (w : WrittenTerm α) : α := (fun s => -s)^[w.signs.count .minus] 1

/-- The coefficient with its sign, and the variable that it stands with. -/
def parts (w : WrittenTerm α) : α × Option Variable := (w.product * w.sign, w.vars.head?)

end WrittenTerm

/-! Which tokens spell what. -/

inductive Factor.SpelledBy : Factor α → Token → Prop
  | number {v : α} {t : Token} (h : t.IsNumber v) : SpelledBy (.number v) t
  | var {v : Variable} {t : Token} (h : t.IsVariable v) : SpelledBy (.var v) t

inductive Tail.SpelledBy : Tail α → List Token → Prop
  | times {f : Factor α} {op t : Token} (hop : op.kind = .star) (hf : f.SpelledBy t) :
    SpelledBy (.times f) [op, t]
  | divided {d : α} {op t : Token} (hop : op.kind = .slash) (hd : t.IsNumber d)
    (hne : (d == 0) = false) : SpelledBy (.divided d) [op, t]
  | beside {v : Variable} {t : Token} (h : t.IsVariable v) : SpelledBy (.beside v) [t]

/-- The tokens spell the items one after another. -/
inductive Spells {β : Type} (spelled : β → List Token → Prop) : List β → List Token → Prop
  | nil : Spells spelled [] []
  | cons {b : β} {bs : List β} {ts us : List Token} (hb : spelled b ts)
    (hbs : Spells spelled bs us) : Spells spelled (b :: bs) (ts ++ us)

/-- `signs` before a factor and what follows it, with at most one variable. -/
structure WrittenTerm.Fits (w : WrittenTerm α) (signs factors : List Token) : Prop where
  signs : signs.map Token.kind = w.signs.map Sign.kind
  factors : ∃ t ts, factors = t :: ts ∧ w.first.SpelledBy t ∧ Spells Tail.SpelledBy w.rest ts
  linear : w.vars.length ≤ 1

def WrittenTerm.SpelledBy (w : WrittenTerm α) (ts : List Token) : Prop :=
  ∃ signs factors, ts = signs ++ factors ∧ w.Fits signs factors

/-- At least one term, and signs before every term but the first. -/
structure IsSum (ws : List (WrittenTerm α)) (ts : List Token) : Prop where
  nonempty : ws ≠ []
  signed : ∀ w ∈ ws.tail, w.signs ≠ []
  spelled : Spells WrittenTerm.SpelledBy ws ts

/-- Two sums with one comparison operator between them. -/
def WrittenComparison.SpelledBy (w : WrittenComparison α) (ts : List Token) : Prop :=
  ∃ left op right, ts = left ++ op :: right ∧ op.kind = .comparator w.op ∧
    IsSum w.lhs left ∧ IsSum w.rhs right

/-- The coefficient and the variable of a term that was read. -/
def Term.parts (t : Term α) : α × Option Variable := (t.coefficient, t.var)

/-- `c` has the terms of `w` on each side, in their order, and its operator. -/
structure Comparison.Reads (c : Comparison α) (w : WrittenComparison α) : Prop where
  op : c.op = w.op
  lhs : c.lhs.terms.map Term.parts = w.lhs.map WrittenTerm.parts
  rhs : c.rhs.terms.map Term.parts = w.rhs.map WrittenTerm.parts

end PlanarLP.Formula
