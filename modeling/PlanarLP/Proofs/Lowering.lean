import Mathlib.Tactic.LinearCombination
import PlanarLP.Proofs.FeasibleSet
import PlanarLP.Proofs.Lexing
import PlanarLP.Proofs.Parsing

/-! Bringing a comparison to canonical form keeps its meaning. In exact arithmetic a written
term has a value at every point, a side is the sum of its terms, and a constraint that is read
from a text allows exactly the points at which the comparison in the text holds. -/

namespace PlanarLP

open Formula

/-- Over the reals a numeral has the value that it writes. -/
theorem Decimal.value_real (d : Decimal) : (d.value : ℝ) = d.digits * 10 ^ d.exponent := by
  obtain ⟨n, e⟩ := d
  have hval : (value ⟨n, e⟩ : ℝ) =
      @OfScientific.ofScientific ℝ NNRatCast.toOfScientific n (e < 0) e.natAbs := rfl
  rw [hval, NNRatCast.ofScientific_eq_ite]
  cases e with
  | ofNat k =>
    have hk : ¬(k : ℤ) < 0 := Int.not_lt.mpr (Int.natCast_nonneg k)
    simp [hk]
  | negSucc k => simp [Int.negSucc_lt_zero, NNRat.divNat_eq_div, zpow_negSucc, div_eq_mul_inv]

theorem Formula.Token.isNumber_of_decimal {t : Token} {n : ℕ} {e : ℤ} (hk : t.kind = .number)
    (hd : Decimal.ofNumeral? t.text.toList = some ⟨n, e⟩) : t.IsNumber ((n : ℝ) * 10 ^ e) := by
  refine ⟨hk, ?_, rfl⟩
  rw [hd, Option.map_some, Decimal.value_real]

theorem Formula.Token.isNumber_of_numeral {t : Token} {n : ℕ} (hk : t.kind = .number)
    (hd : Decimal.ofNumeral? t.text.toList = some ⟨n, 0⟩) : t.IsNumber (n : ℝ) := by
  simpa using Token.isNumber_of_decimal hk hd

/-! What a written comparison says of a point. -/

namespace Formula

def Variable.at (p : Vec ℝ) : Variable → ℝ
  | x => p.x
  | y => p.y

def Factor.value (p : Vec ℝ) : Factor ℝ → ℝ
  | number v => v
  | var v => v.at p

/-- Multiply or divide what stands before a tail. -/
noncomputable def Tail.apply (p : Vec ℝ) (before : ℝ) : Tail ℝ → ℝ
  | times f => before * f.value p
  | divided d => before / d
  | beside v => before * v.at p

/-- The products and quotients of the factors from left to right, with the signs before them. -/
noncomputable def WrittenTerm.value (p : Vec ℝ) (w : WrittenTerm ℝ) : ℝ :=
  (-1) ^ w.signs.count .minus * w.rest.foldl (Tail.apply p) (w.first.value p)

noncomputable def sumValue (p : Vec ℝ) (ws : List (WrittenTerm ℝ)) : ℝ :=
  (ws.map (WrittenTerm.value p)).sum

/-- What an operator says of two numbers. Strict operators admit equality. -/
def Comparator.Compares : Comparator → ℝ → ℝ → Prop
  | le, a, b => a ≤ b
  | lt, a, b => a ≤ b
  | ge, a, b => a ≥ b
  | gt, a, b => a ≥ b
  | eq, a, b => a = b

def WrittenComparison.Holds (w : WrittenComparison ℝ) (p : Vec ℝ) : Prop :=
  w.op.Compares (sumValue p w.lhs) (sumValue p w.rhs)

/-- The value of a multiple of a variable, or of a constant. -/
def valueOf (p : Vec ℝ) (q : ℝ × Option Variable) : ℝ := q.1 * q.2.elim 1 (Variable.at p)

variable {p : Vec ℝ}

theorem Factor.value_eq (f : Factor ℝ) (c : ℝ) :
    c * f.value p = f.scale c * (f.vars.map (Variable.at p)).prod := by
  cases f with
  | number v =>
    have hs : (number v).scale c = c * v := rfl
    simp [value, vars, hs]
  | var v =>
    have hs : (var v).scale c = c := rfl
    simp [value, vars, hs]

theorem Tail.apply_eq (b : Tail ℝ) (c m : ℝ) :
    b.apply p (c * m) = b.scale c * (m * (b.vars.map (Variable.at p)).prod) := by
  cases b with
  | times f =>
    have hf := f.value_eq (p := p) c
    have hs : (times f).scale c = f.scale c := rfl
    rw [apply, hs, vars]
    linear_combination m * hf
  | divided d =>
    have hs : (divided d).scale c = c / d := rfl
    simp [apply, vars, hs, mul_div_right_comm]
  | beside v =>
    have hs : (beside v).scale c = c := rfl
    simp [apply, vars, hs, mul_assoc]

theorem foldl_apply (rest : List (Tail ℝ)) (c m : ℝ) :
    rest.foldl (Tail.apply p) (c * m) =
      rest.foldl Tail.scale c * (m * ((rest.flatMap Tail.vars).map (Variable.at p)).prod) := by
  induction rest generalizing c m with
  | nil => simp
  | cons b rest ih =>
    rw [List.foldl_cons, List.foldl_cons, b.apply_eq, ih, List.flatMap_cons, List.map_append,
      List.prod_append, mul_assoc]

theorem iterate_neg (n : ℕ) (c : ℝ) : (fun s => -s)^[n] c = (-1) ^ n * c := by
  induction n generalizing c with
  | zero => simp
  | succ n ih => rw [Function.iterate_succ_apply, ih, pow_succ]; ring

theorem prod_of_length_le_one {vs : List Variable} (h : vs.length ≤ 1) :
    (vs.map (Variable.at p)).prod = vs.head?.elim 1 (Variable.at p) := by
  match vs, h with
  | [], _ => rfl
  | [v], _ => simp

/-- A term with at most one variable has the value of its coefficient with that variable. -/
theorem WrittenTerm.value_eq {w : WrittenTerm ℝ} (h : w.vars.length ≤ 1) :
    w.value p = valueOf p w.parts := by
  have hproduct : w.rest.foldl (Tail.apply p) (w.first.value p) =
      w.product * (w.vars.map (Variable.at p)).prod := by
    have hfirst := w.first.value_eq (p := p) 1
    rw [one_mul] at hfirst
    rw [hfirst, foldl_apply, vars, List.map_append, List.prod_append]
    rfl
  have hsign : w.sign = (-1) ^ w.signs.count .minus := (iterate_neg _ 1).trans (mul_one _)
  have hparts : w.parts = (w.product * w.sign, w.vars.head?) := rfl
  rw [value, hproduct, prod_of_length_le_one h, hparts, valueOf, hsign]
  ring

/-- The sum of the multiples that stand with `v`. -/
noncomputable def collected (v : Option Variable) (qs : List (ℝ × Option Variable)) : ℝ :=
  ((qs.filter fun q => q.2 == v).map Prod.fst).sum

theorem Expr.total_eq_collected (e : Expr ℝ) (v : Option Variable) :
    e.total v = collected v (e.terms.map Term.parts) := by
  have hzero : (-0 : ℝ) = 0 := neg_zero
  rw [collected, List.filter_map, List.map_map, List.sum_eq_foldl, ← hzero]
  rfl

/-- Collecting multiples of the same variable keeps the value of their sum. -/
theorem sum_valueOf (qs : List (ℝ × Option Variable)) : (qs.map (valueOf p)).sum =
    collected (some .x) qs * p.x + collected (some .y) qs * p.y + collected none qs := by
  induction qs with
  | nil => simp [collected]
  | cons q qs ih =>
    obtain ⟨c, v⟩ := q
    rw [List.map_cons, List.sum_cons, ih]
    rcases v with _ | _ | _
    · simp [collected, valueOf]
      ring
    · simp [collected, valueOf, Variable.at]
      ring
    · simp [collected, valueOf, Variable.at]
      ring

theorem IsSum.sumValue {ws : List (WrittenTerm ℝ)} {ts : List Token} (h : IsSum ws ts) :
    sumValue p ws = collected (some .x) (ws.map WrittenTerm.parts) * p.x +
      collected (some .y) (ws.map WrittenTerm.parts) * p.y +
      collected none (ws.map WrittenTerm.parts) := by
  have hvalues : ws.map (WrittenTerm.value p) = (ws.map WrittenTerm.parts).map (valueOf p) := by
    rw [List.map_map]
    exact List.map_congr_left fun w hw => WrittenTerm.value_eq (h.linear w hw)
  rw [Formula.sumValue, hvalues, sum_valueOf]

theorem sumValue_eq {ws : List (WrittenTerm ℝ)} {ts : List Token} {e : Expr ℝ} (h : IsSum ws ts)
    (hparts : e.terms.map Term.parts = ws.map WrittenTerm.parts) :
    sumValue p ws = e.coefficient .x * p.x + e.coefficient .y * p.y + e.constant := by
  rw [h.sumValue, ← hparts, Expr.coefficient, Expr.coefficient, Expr.constant,
    Expr.total_eq_collected, Expr.total_eq_collected, Expr.total_eq_collected]

end Formula

/-! The canonical form of a comparison. -/

section Canonical

variable {α : Type} [Scalar α] {source : String}

/-- Variables to the left and constants to the right. -/
def Formula.Comparison.lowered (c : Comparison α) (source : String) : Constraint α :=
  ⟨c.lhs.coefficient .x - c.rhs.coefficient .x, c.lhs.coefficient .y - c.rhs.coefficient .y,
    c.rhs.constant - c.lhs.constant, c.op.relation, normalized source⟩

/-- A text is a constraint when it is a comparison whose canonical form is one. -/
theorem Constraint.parse_eq_ok {k : Constraint α} : Constraint.parse source = .ok k ↔
    ∃ c : Comparison α, Comparison.parse source = .ok c ∧ c.lowered source = k ∧
      (Scalar.isFinite k.a && Scalar.isFinite k.b && Scalar.isFinite k.c) = true ∧
      (Tolerance.standard.isZero k.a && Tolerance.standard.isZero k.b) = false := by
  rw [Constraint.parse, bind_eq_ok]
  refine exists_congr fun c => and_congr_right fun _ => ?_
  dsimp only
  constructor
  · intro h
    split at h
    · split at h <;> cases h
    · rename_i hzero
      unfold Constraint.of at h
      rw [Bool.not_eq_true] at hzero
      split at h
      · cases h
      · rename_i hfinite
        rw [if_neg (by rw [hzero]; nofun)] at h
        cases h
        exact ⟨rfl, by simpa using hfinite, hzero⟩
  · rintro ⟨rfl, hfinite, hzero⟩
    simp only [Comparison.lowered] at hfinite hzero
    rw [if_neg (by rw [hzero]; nofun), Constraint.of, hfinite, hzero]
    rfl

/-- What is read passes the checks on coefficients. -/
theorem Constraint.of_of_parse {k : Constraint α} (h : Constraint.parse source = .ok k) :
    Constraint.of k.a k.b k.relation k.c k.source = .ok k := by
  obtain ⟨c, -, -, hfinite, hzero⟩ := Constraint.parse_eq_ok.mp h
  rw [Constraint.of, hfinite, hzero]
  rfl

end Canonical

theorem Constraint.parse_proper {source : String} {k : Constraint ℝ}
    (h : Constraint.parse source = .ok k) : k.Proper := proper_of_of (of_of_parse h)

theorem Formula.Comparator.holds_relation (op : Comparator) (a b : ℝ) :
    op.relation.Holds a b ↔ op.Compares a b := by
  cases op <;> rfl

/-- A comparison depends on the difference of its sides only. -/
theorem Formula.Comparator.compares_congr {op : Comparator} {a b c d : ℝ} (h : a - b = c - d) :
    op.Compares a b ↔ op.Compares c d := by
  cases op with
  | le | lt => exact sub_nonpos.symm.trans (h ▸ sub_nonpos)
  | ge | gt => exact sub_nonneg.symm.trans (h ▸ sub_nonneg)
  | eq => exact sub_eq_zero.symm.trans (h ▸ sub_eq_zero)

/-- The canonical form allows the points at which the comparison holds. -/
theorem Formula.Comparison.lowered_allows {source : String} {c : Comparison ℝ}
    {w : WrittenComparison ℝ} {ts : List Token} (hw : w.SpelledBy ts) (hc : c.Reads w)
    (p : Vec ℝ) : (c.lowered source).Allows p ↔ w.Holds p := by
  obtain ⟨left, op, right, -, -, hl, hr⟩ := hw
  have hlhs := sumValue_eq (p := p) hl hc.lhs
  have hrhs := sumValue_eq (p := p) hr hc.rhs
  have hallows : (c.lowered source).Allows p ↔ c.op.relation.Holds
      ((c.lhs.coefficient .x - c.rhs.coefficient .x) * p.x +
        (c.lhs.coefficient .y - c.rhs.coefficient .y) * p.y)
      (c.rhs.constant - c.lhs.constant) := Iff.rfl
  rw [hallows, Comparator.holds_relation, hc.op, WrittenComparison.Holds, hlhs, hrhs]
  exact Comparator.compares_congr (by ring)

/-- A constraint allows the points at which the text that it is read from holds. The tokens
are what stands in the text between blanks; they spell a comparison, and none that says
anything else. -/
theorem constraint_parse_meaning {source : String} {k : Constraint ℝ}
    (h : Constraint.parse source = .ok k) :
    Lexed source.toList (lexemes source) ∧
    (∃ w : WrittenComparison ℝ, w.SpelledBy (lexemes source)) ∧
    ∀ w : WrittenComparison ℝ, w.SpelledBy (lexemes source) →
      ∀ p, k.Allows p ↔ w.Holds p := by
  obtain ⟨c, hc, rfl, -⟩ := Constraint.parse_eq_ok.mp h
  obtain ⟨w, hw, -⟩ := Comparison.parse_sound hc
  refine ⟨lexed_lexemes source, ⟨w, hw⟩, fun v hv p => ?_⟩
  exact Comparison.lowered_allows hv (Comparison.parse_reads hc hv) p

/-- The comparison `x/2 > 3 - y`. -/
noncomputable def halves : WrittenComparison ℝ :=
  ⟨[⟨[], .var .x, [.divided ((2 : ℕ) : ℝ)]⟩], .gt,
    [⟨[], .number ((3 : ℕ) : ℝ), []⟩, ⟨[.minus], .var .y, []⟩]⟩

theorem halves_spelledBy : halves.SpelledBy (lexemes "x/2 > 3 - y") := by
  have hlex : lexemes "x/2 > 3 - y" = [⟨.ident, ⟨0, 1⟩, "x"⟩, ⟨.slash, ⟨1, 2⟩, "/"⟩,
      ⟨.number, ⟨2, 3⟩, "2"⟩] ++ ⟨.comparator .gt, ⟨4, 5⟩, ">"⟩ ::
      ([⟨.number, ⟨6, 7⟩, "3"⟩] ++ [⟨.minus, ⟨8, 9⟩, "-"⟩, ⟨.ident, ⟨10, 11⟩, "y"⟩]) := by
    decide +kernel
  have hx : Token.IsVariable ⟨.ident, ⟨0, 1⟩, "x"⟩ .x := ⟨rfl, by decide +kernel⟩
  have hy : Token.IsVariable ⟨.ident, ⟨10, 11⟩, "y"⟩ .y := ⟨rfl, by decide +kernel⟩
  have htwo : Token.IsNumber ⟨.number, ⟨2, 3⟩, "2"⟩ ((2 : ℕ) : ℝ) :=
    Token.isNumber_of_numeral rfl (by decide +kernel)
  have hthree : Token.IsNumber ⟨.number, ⟨6, 7⟩, "3"⟩ ((3 : ℕ) : ℝ) :=
    Token.isNumber_of_numeral rfl (by decide +kernel)
  have hne : (((2 : ℕ) : ℝ) == 0) = false := decide_eq_false (by norm_num)
  refine ⟨_, _, _, hlex, rfl, ⟨List.cons_ne_nil _ _, by simp [halves], .singleton ?_⟩,
    ⟨List.cons_ne_nil _ _, by simp [halves], .cons ?_ (.singleton ?_)⟩⟩
  · exact ⟨[], _, rfl, rfl, ⟨_, _, rfl, .var hx, .singleton (.divided rfl htwo hne)⟩, by decide⟩
  · exact ⟨[], _, rfl, rfl, ⟨_, _, rfl, .number hthree, .nil⟩, by decide⟩
  · exact ⟨[_], _, rfl, rfl, ⟨_, _, rfl, .var hy, .nil⟩, by decide⟩

theorem constraint_parse_halves : ∃ k : Constraint ℝ,
    Constraint.parse "x/2 > 3 - y" = .ok k ∧ ∀ p, k.Allows p ↔ p.x / 2 ≥ 3 - p.y := by
  obtain ⟨c, hc, hreads⟩ := Comparison.parse_complete halves_spelledBy
  have hl : halves.lhs.map WrittenTerm.parts = [(1 / 2, some .x)] := by
    simp [halves, WrittenTerm.parts, WrittenTerm.product, WrittenTerm.sign, WrittenTerm.vars,
      Factor.scale, Tail.scale, Factor.vars, Tail.vars]
  have hr : halves.rhs.map WrittenTerm.parts = [(3, none), (-1, some .y)] := by
    simp [halves, WrittenTerm.parts, WrittenTerm.product, WrittenTerm.sign, WrittenTerm.vars,
      Factor.scale, Factor.vars]
  have ha : (c.lowered "x/2 > 3 - y").a = 1 / 2 := by
    show c.lhs.total (some .x) - c.rhs.total (some .x) = 1 / 2
    rw [Expr.total_eq_collected, Expr.total_eq_collected, hreads.lhs, hreads.rhs, hl, hr]
    simp [collected]
  have hzero : Tolerance.standard.isZero (c.lowered "x/2 > 3 - y").a = false := by
    rw [ha, Bool.eq_false_iff, ne_eq, Tolerance.standard_isZero]
    norm_num
  have hk := Constraint.parse_eq_ok.mpr ⟨c, hc, rfl, rfl, by rw [hzero, Bool.false_and]⟩
  refine ⟨_, hk, fun p => ?_⟩
  obtain ⟨-, -, hmeaning⟩ := constraint_parse_meaning hk
  rw [hmeaning halves halves_spelledBy p]
  simp [halves, WrittenComparison.Holds, Comparator.Compares, sumValue, WrittenTerm.value,
    Factor.value, Tail.apply, Variable.at]

end PlanarLP
