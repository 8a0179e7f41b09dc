import PlanarLP.Formula.Token

/-! The tokens of an expression, cut into summands: a run of signs and the tokens up to the
next sign. Only the first summand may have no sign, and only the last one no factor. -/

namespace PlanarLP.Formula

structure Summand where
  signs : List Token
  factors : List Token
deriving DecidableEq, Repr

namespace Summand

def tokens (s : Summand) : List Token := s.signs ++ s.factors

/-- Put a token before summands: into the first one if it can start there, else as a summand
of its own. -/
def cons (t : Token) : List Summand → List Summand
  | [] => if t.isSign then [⟨[t], []⟩] else [⟨[], [t]⟩]
  | s :: ss =>
    if t.isSign then ⟨t :: s.signs, s.factors⟩ :: ss
    else if s.signs.isEmpty then ⟨[], t :: s.factors⟩ :: ss
    else ⟨[], [t]⟩ :: s :: ss

def cut (ts : List Token) : List Summand := ts.foldr cons []

theorem tokens_cons (t : Token) (ss : List Summand) :
    (cons t ss).flatMap tokens = t :: ss.flatMap tokens := by
  cases ss with
  | nil => by_cases h : t.isSign <;> simp [cons, h, tokens]
  | cons s ss =>
    by_cases h : t.isSign
    · simp [cons, h, tokens]
    · by_cases hs : s.signs = []
      · simp [cons, h, hs, tokens]
      · simp [cons, h, hs, tokens]

/-- Cutting loses no token and keeps their order. -/
theorem tokens_cut (ts : List Token) : (cut ts).flatMap tokens = ts := by
  induction ts with
  | nil => rfl
  | cons t ts ih =>
    have h := tokens_cons t (cut ts)
    rw [ih] at h
    exact h

end Summand

end PlanarLP.Formula
