import PlanarLP.Proofs.ErrorSpans
import PlanarLP.Proofs.Lowering
import PlanarLP.Proofs.Slack

/-! Comparisons without variables. Where next to nothing is left of both variables, a text is
no constraint but a verdict on its constant. In exact arithmetic the verdict is what the
comparison says of every point, up to the tolerance (`constraint_parse_verdicts`): it is right
where the variables cancel and the constant is zero or clearly not, but a constant or a
coefficient that is too small to count can make it wrong (`constraint_parse_negligible`). -/

namespace PlanarLP

open Formula

/-! ## Where verdicts come from -/

namespace Formula

section Syntax

variable {α : Type} {e : ParseError α} {source : List Char} {side : Side} {after : Option Token}
  {r : PartialTerm α} {t : Token} {ts : List Token}

/-- An error about the text, before its terms are collected. -/
def ParseError.IsSyntactic : ParseError α → Prop
  | .contradiction .. | .tautology .. | .constantObjective | .degenerate _ => False
  | _ => True

namespace PartialTerm

theorem name_syntactic (h : r.name source t = .error e) : e.IsSyntactic := by
  unfold name at h
  split at h
  · cases h
    trivial
  · split at h <;> cases h <;> trivial

theorem operator_syntactic {slot : Slot} (h : r.operator t slot = .error e) : e.IsSyntactic := by
  unfold operator at h
  split at h <;> cases h
  trivial

variable [Scalar α]

theorem number_syntactic (h : r.number source t = .error e) : e.IsSyntactic := by
  unfold number at h
  split at h
  · cases h
    trivial
  · rcases bind_eq_error.mp h with h | ⟨v, -, h⟩
    · rw [numberOf_eq_error h]
      trivial
    · split at h
      · split at h <;> cases h
        trivial
      · cases h

theorem read_syntactic (h : r.read source side t after = .error e) : e.IsSyntactic := by
  unfold read at h
  split at h
  · exact number_syntactic h
  · exact name_syntactic h
  · exact operator_syntactic h
  · exact operator_syntactic h
  · cases h
    trivial
  · split at h <;> cases h <;> trivial

theorem readAll_syntactic (h : readAll source side after r ts = .error e) : e.IsSyntactic := by
  induction ts generalizing r with
  | nil =>
    unfold readAll finish at h
    split at h <;> cases h
    trivial
  | cons t ts ih =>
    rcases bind_eq_error.mp h with h | ⟨r', -, h⟩
    · exact read_syntactic h
    · exact ih h

end PartialTerm

variable [Scalar α]

theorem Term.ofSummand_syntactic {s : Summand} (h : ofSummand source side after s = .error e) :
    e.IsSyntactic := by
  unfold ofSummand at h
  split at h
  · cases h
    trivial
  · rcases bind_eq_error.mp h with h | ⟨term, -, h⟩
    · exact PartialTerm.readAll_syntactic h
    · cases h

theorem Term.ofSummands_syntactic {ss : List Summand} (h : ofSummands source side ss = .error e) :
    e.IsSyntactic := by
  induction ss with
  | nil => cases h
  | cons s ss ih =>
    rcases bind_eq_error.mp h with h | ⟨term, -, h⟩
    · exact ofSummand_syntactic h
    · rcases bind_eq_error.mp h with h | ⟨terms, -, h⟩
      · exact ih h
      · cases h

theorem Expr.ofTokens_syntactic (h : ofTokens source side ts = .error e) : e.IsSyntactic := by
  unfold ofTokens at h
  split at h
  · cases h
    trivial
  · rcases bind_eq_error.mp h with h | ⟨terms, -, h⟩
    · exact Term.ofSummands_syntactic h
    · cases h

theorem Comparison.parse_syntactic {source : String} (h : parse source = .error e) :
    e.IsSyntactic := by
  simp only [parse] at h
  split at h
  · cases h
    trivial
  · rcases bind_eq_error.mp h with h | ⟨lhs, -, h⟩
    · exact Expr.ofTokens_syntactic h
    · rcases bind_eq_error.mp h with h | ⟨rhs, -, h⟩
      · exact Expr.ofTokens_syntactic h
      · cases h
  · cases h
    trivial

end Syntax

/-- The verdict on what is left of a comparison without its variables. -/
def ParseError.verdict {α : Type} (b : Bool) (r : Relation) (c : α) : ParseError α :=
  match b with
  | true => .tautology r c
  | false => .contradiction r c

end Formula

/-- A text gets a verdict when it is a comparison whose canonical form has no coefficient that
counts. -/
theorem Constraint.parse_eq_verdict {α : Type} [Scalar α] {source : String} {b : Bool}
    {r : Relation} {c : α} : Constraint.parse source = .error (.verdict b r c) ↔
      ∃ k : Comparison α, Comparison.parse source = .ok k ∧
        (Tolerance.standard.isZero (k.lowered source).a &&
          Tolerance.standard.isZero (k.lowered source).b) = true ∧
        k.op.relation = r ∧ (k.lowered source).c = c ∧
        Tolerance.standard.holds 0 r c c = b := by
  rw [Constraint.parse]
  constructor
  · intro h
    rcases bind_eq_error.mp h with h | ⟨k, hk, h⟩
    · have hsyntactic := Comparison.parse_syntactic h
      cases b <;> exact hsyntactic.elim
    · refine ⟨k, hk, ?_⟩
      dsimp only at h
      split at h
      · rename_i hzero
        refine ⟨hzero, ?_⟩
        split at h
        · rename_i hholds
          cases b <;> cases h
          exact ⟨rfl, rfl, hholds⟩
        · rename_i hholds
          cases b <;> cases h
          exact ⟨rfl, rfl, Bool.eq_false_iff.mpr hholds⟩
      · cases hof : Constraint.of (k.lhs.coefficient .x - k.rhs.coefficient .x)
            (k.lhs.coefficient .y - k.rhs.coefficient .y) k.op.relation
            (k.rhs.constant - k.lhs.constant) (normalized source) with
        | ok _ =>
          rw [hof] at h
          cases h
        | error _ =>
          rw [hof] at h
          cases b <;> cases h
  · rintro ⟨k, hk, hzero, rfl, rfl, hholds⟩
    rw [hk]
    simp only [Comparison.lowered] at hzero hholds
    show (if _ then _ else _) = _
    rw [if_pos hzero, hholds]
    cases b <;> rfl

/-! ## What a verdict leaves of a comparison -/

namespace Formula.WrittenComparison

variable {w : WrittenComparison ℝ} {ts : List Token} {r : Relation} {c ε : ℝ} {p : Vec ℝ}

/-- What the left side has more of `v` than the right side, or of constants. -/
noncomputable def coefficient (w : WrittenComparison ℝ) (v : Option Variable) : ℝ :=
  collected v (w.lhs.map WrittenTerm.parts) - collected v (w.rhs.map WrittenTerm.parts)

/-- How far the left side lies above the right side. -/
noncomputable def difference (w : WrittenComparison ℝ) (p : Vec ℝ) : ℝ :=
  sumValue p w.lhs - sumValue p w.rhs

theorem SpelledBy.difference (h : w.SpelledBy ts) (p : Vec ℝ) :
    w.difference p = w.coefficient (some .x) * p.x + w.coefficient (some .y) * p.y +
      w.coefficient none := by
  obtain ⟨left, op, right, -, -, hl, hr⟩ := h
  rw [WrittenComparison.difference, hl.sumValue, hr.sumValue, coefficient, coefficient, coefficient]
  ring

/-- The comparison holds at `p` up to an absolute error of `ε`. -/
def HoldsWithin (w : WrittenComparison ℝ) (ε : ℝ) (p : Vec ℝ) : Prop :=
  w.op.relation.HoldsWithin ε (sumValue p w.lhs) (sumValue p w.rhs)

/-- The variables cancel. -/
def IsConstant (w : WrittenComparison ℝ) : Prop := ∀ p, w.difference p = w.difference 0

/-- What is left of `w` is the relation of `0` to `c`, and next to nothing of its variables. -/
structure Leaves (w : WrittenComparison ℝ) (r : Relation) (c : ℝ) : Prop where
  relation : w.op.relation = r
  constant : w.difference 0 = -c
  drift : ∀ p, |w.difference p + c| ≤ 1e-9 * (|p.x| + |p.y|)

theorem holds_iff_within : w.Holds p ↔ w.HoldsWithin 0 p :=
  (w.op.holds_relation _ _).symm.trans Relation.holdsWithin_zero.symm

namespace Leaves

theorem holdsWithin_iff (h : w.Leaves r c) :
    w.HoldsWithin ε p ↔ r.HoldsWithin ε (w.difference p + c) c := by
  rw [HoldsWithin, h.relation]
  exact Relation.holdsWithin_congr (add_sub_cancel_right _ c).symm

/-- The variables add no more to the error than is left of them. -/
theorem holdsWithin (h : w.Leaves r c) (hc : r.HoldsWithin ε 0 c) (p : Vec ℝ) :
    w.HoldsWithin (ε + 1e-9 * (|p.x| + |p.y|)) p :=
  h.holdsWithin_iff.mpr (hc.shift (by rw [sub_zero]; exact h.drift p))

/-- What is left of the variables does not outweigh the constant close to the origin. -/
theorem not_holds (h : w.Leaves r c) (hc : ¬r.Holds 0 c)
    (hp : 1e-9 * (|p.x| + |p.y|) < |c|) : ¬w.Holds p := by
  rw [holds_iff_within, h.holdsWithin_iff, Relation.holdsWithin_zero]
  exact Relation.not_holds_of_lt hc ((h.drift p).trans_lt hp)

theorem difference_of_isConstant (h : w.Leaves r c) (hw : w.IsConstant) (p : Vec ℝ) :
    w.difference p + c = 0 := by
  rw [hw p, h.constant, neg_add_cancel]

theorem holds_iff_of_isConstant (h : w.Leaves r c) (hw : w.IsConstant) :
    w.Holds p ↔ r.Holds 0 c := by
  rw [holds_iff_within, h.holdsWithin_iff, h.difference_of_isConstant hw,
    Relation.holdsWithin_zero]

end Leaves

end Formula.WrittenComparison

theorem Formula.Comparison.Reads.total_sub {k : Comparison ℝ} {w : WrittenComparison ℝ}
    (h : k.Reads w) (v : Option Variable) :
    k.lhs.total v - k.rhs.total v = w.coefficient v := by
  rw [Expr.total_eq_collected, Expr.total_eq_collected, h.lhs, h.rhs,
    WrittenComparison.coefficient]

/-- The verdict on a text, from any comparison that it spells. -/
theorem Constraint.parse_eq_verdict_of_spelled {source : String} {w : WrittenComparison ℝ}
    {b : Bool} {r : Relation} {c : ℝ} (hw : w.SpelledBy (lexemes source)) :
    Constraint.parse source = .error (.verdict b r c) ↔
      |w.coefficient (some .x)| ≤ 1e-9 ∧ |w.coefficient (some .y)| ≤ 1e-9 ∧
      w.op.relation = r ∧ -w.coefficient none = c ∧
      (r.HoldsWithin (1e-9 * (1 + |c|)) 0 c ↔ b = true) := by
  obtain ⟨k, hk, hreads⟩ := Comparison.parse_complete hw
  have hx : (k.lowered source).a = w.coefficient (some .x) := hreads.total_sub _
  have hy : (k.lowered source).b = w.coefficient (some .y) := hreads.total_sub _
  have hc : (k.lowered source).c = -w.coefficient none := by
    rw [← hreads.total_sub none, neg_sub]
    rfl
  have hslack : Tolerance.standard.slack c = 1e-9 * (1 + |c|) := by
    rw [Tolerance.standard_slack]
    ring
  rw [parse_eq_verdict, ← hslack, ← Tolerance.holds_iff_within, ← Bool.eq_iff_iff]
  constructor
  · rintro ⟨k', hk', hzero, hr, hconstant, hholds⟩
    cases hk.symm.trans hk'
    rw [hx, hy, Bool.and_eq_true, Tolerance.standard_isZero, Tolerance.standard_isZero] at hzero
    exact ⟨hzero.1, hzero.2, hreads.op ▸ hr, hc ▸ hconstant, hholds⟩
  · rintro ⟨hzerox, hzeroy, hr, hconstant, hholds⟩
    refine ⟨k, hk, ?_, hreads.op ▸ hr, hc ▸ hconstant, hholds⟩
    rw [hx, hy, Bool.and_eq_true, Tolerance.standard_isZero, Tolerance.standard_isZero]
    exact ⟨hzerox, hzeroy⟩

/-- What a verdict says of the comparisons that the text spells, and of its constant. -/
theorem Constraint.parse_verdict {source : String} {b : Bool} {r : Relation} {c : ℝ}
    (h : Constraint.parse source = .error (.verdict b r c)) :
    (∃ w : WrittenComparison ℝ, w.SpelledBy (lexemes source)) ∧
    (∀ w : WrittenComparison ℝ, w.SpelledBy (lexemes source) → w.Leaves r c) ∧
    (r.HoldsWithin (1e-9 * (1 + |c|)) 0 c ↔ b = true) := by
  obtain ⟨k, hk, -⟩ := parse_eq_verdict.mp h
  obtain ⟨w, hw, -⟩ := Comparison.parse_sound hk
  obtain ⟨-, -, -, -, hholds⟩ := (parse_eq_verdict_of_spelled hw).mp h
  refine ⟨⟨w, hw⟩, fun v hv => ?_, hholds⟩
  obtain ⟨hx, hy, hr, hc, -⟩ := (parse_eq_verdict_of_spelled hv).mp h
  refine ⟨hr, ?_, fun p => ?_⟩
  · rw [hv.difference, ← hc, Vec.zero_x, Vec.zero_y]
    ring
  · rw [hv.difference, ← hc, add_neg_cancel_right]
    calc |v.coefficient (some .x) * p.x + v.coefficient (some .y) * p.y|
        ≤ |v.coefficient (some .x)| * |p.x| + |v.coefficient (some .y)| * |p.y| := by
          rw [← abs_mul, ← abs_mul]
          exact abs_add_le _ _
      _ ≤ 1e-9 * |p.x| + 1e-9 * |p.y| := by gcongr
      _ = 1e-9 * (|p.x| + |p.y|) := by ring

/-- **Verdicts are right up to the tolerance.** A text that is called always true holds at every
point up to the error that the tolerance leaves to numbers of that size, and exactly where its
variables cancel and its constant is zero or too large to be overlooked. A text that is called
impossible fails wherever its constant outweighs coefficients of `1e-9`, and everywhere if its
variables cancel. -/
theorem constraint_parse_verdicts (source : String) (r : Relation) (c : ℝ) :
    (Constraint.parse source = .error (.tautology r c) →
      (∃ w : WrittenComparison ℝ, w.SpelledBy (lexemes source)) ∧
      ∀ w : WrittenComparison ℝ, w.SpelledBy (lexemes source) → w.Leaves r c ∧
        (∀ p, w.HoldsWithin (1e-9 * (1 + |c| + |p.x| + |p.y|)) p) ∧
        (w.IsConstant → c = 0 ∨ 1e-9 * (1 + |c|) < |c| → ∀ p, w.Holds p)) ∧
    (Constraint.parse source = .error (.contradiction r c) →
      (∃ w : WrittenComparison ℝ, w.SpelledBy (lexemes source)) ∧
      ∀ w : WrittenComparison ℝ, w.SpelledBy (lexemes source) → w.Leaves r c ∧
        (∀ p, 1e-9 * (|p.x| + |p.y|) < |c| → ¬w.Holds p) ∧ (w.IsConstant → ∀ p, ¬w.Holds p)) := by
  constructor
  · intro h
    obtain ⟨hspelled, hleaves, hwithin⟩ := Constraint.parse_verdict (b := true) h
    rw [iff_true_right rfl] at hwithin
    refine ⟨hspelled, fun w hw => ⟨hleaves w hw, fun p => ?_, fun hconstant hc p => ?_⟩⟩
    · have herror : 1e-9 * (1 + |c| + |p.x| + |p.y|) =
          1e-9 * (1 + |c|) + 1e-9 * (|p.x| + |p.y|) := by ring
      rw [herror]
      exact (hleaves w hw).holdsWithin hwithin p
    · refine ((hleaves w hw).holds_iff_of_isConstant hconstant).mpr ?_
      rcases hc with rfl | hc
      · exact .refl r 0
      · exact hwithin.holds_of_apart (by rwa [zero_sub, abs_neg])
  · intro h
    obtain ⟨hspelled, hleaves, hwithin⟩ := Constraint.parse_verdict (b := false) h
    rw [iff_false_right nofun] at hwithin
    have hc : ¬r.Holds 0 c := by
      intro hholds
      refine hwithin (hholds.within ?_)
      rw [sub_zero, abs_zero]
      positivity
    refine ⟨hspelled, fun w hw => ⟨hleaves w hw, fun p => (hleaves w hw).not_holds hc,
      fun hconstant p => ?_⟩⟩
    rw [(hleaves w hw).holds_iff_of_isConstant hconstant]
    exact hc

/-! ## Verdicts on fixed texts -/

theorem Formula.IsSum.number {t : Token} {v : ℝ} (h : t.IsNumber v) :
    IsSum [⟨[], .number v, []⟩] [t] :=
  ⟨List.cons_ne_nil _ _, nofun,
    .singleton ⟨[], [t], rfl, rfl, ⟨t, [], rfl, .number h, .nil⟩, Nat.zero_le 1⟩⟩

/-- The comparison `x - x <= 3`. -/
noncomputable def cancelled : WrittenComparison ℝ :=
  ⟨[⟨[], .var .x, []⟩, ⟨[.minus], .var .x, []⟩], .le, [⟨[], .number ((3 : ℕ) : ℝ), []⟩]⟩

theorem cancelled_spelledBy : cancelled.SpelledBy (lexemes "x - x <= 3") := by
  have hlex : lexemes "x - x <= 3" = ([⟨.ident, ⟨0, 1⟩, "x"⟩] ++
      [⟨.minus, ⟨2, 3⟩, "-"⟩, ⟨.ident, ⟨4, 5⟩, "x"⟩]) ++ ⟨.comparator .le, ⟨6, 8⟩, "<="⟩ ::
        [⟨.number, ⟨9, 10⟩, "3"⟩] := by
    decide +kernel
  have hfirst : Token.IsVariable ⟨.ident, ⟨0, 1⟩, "x"⟩ .x := ⟨rfl, by decide +kernel⟩
  have hsecond : Token.IsVariable ⟨.ident, ⟨4, 5⟩, "x"⟩ .x := ⟨rfl, by decide +kernel⟩
  refine ⟨_, _, _, hlex, rfl, ⟨List.cons_ne_nil _ _, by simp [cancelled],
    .cons ?_ (.singleton ?_)⟩, .number (Token.isNumber_of_numeral rfl (by decide +kernel))⟩
  · exact ⟨[], _, rfl, rfl, ⟨_, _, rfl, .var hfirst, .nil⟩, by decide⟩
  · exact ⟨[_], _, rfl, rfl, ⟨_, _, rfl, .var hsecond, .nil⟩, by decide⟩

theorem cancelled_coefficient (v : Variable) : cancelled.coefficient (some v) = 0 := by
  cases v <;> simp [cancelled, WrittenComparison.coefficient, collected, WrittenTerm.parts,
    WrittenTerm.vars, WrittenTerm.product, WrittenTerm.sign, Factor.vars, Factor.scale]

theorem cancelled_constant : cancelled.coefficient none = -3 := by
  simp [cancelled, WrittenComparison.coefficient, collected, WrittenTerm.parts, WrittenTerm.vars,
    WrittenTerm.product, WrittenTerm.sign, Factor.vars, Factor.scale]

theorem cancelled_isConstant : cancelled.IsConstant := by
  intro p
  simp only [cancelled_spelledBy.difference, cancelled_coefficient, zero_mul]

/-- A comparison of two numbers. -/
def numbers (v : ℝ) (op : Comparator) (u : ℝ) : WrittenComparison ℝ :=
  ⟨[⟨[], .number v, []⟩], op, [⟨[], .number u, []⟩]⟩

theorem numbers_isConstant (v : ℝ) (op : Comparator) (u : ℝ) : (numbers v op u).IsConstant := by
  intro p
  simp [numbers, WrittenComparison.difference, sumValue, WrittenTerm.value, Factor.value]

theorem numbers_holds {v u : ℝ} {op : Comparator} {p : Vec ℝ} :
    (numbers v op u).Holds p ↔ op.Compares v u := by
  simp [numbers, WrittenComparison.Holds, sumValue, WrittenTerm.value, Factor.value]

theorem parse_numbers {source : String} {v u : ℝ} {op : Comparator} {b : Bool}
    (h : (numbers v op u).SpelledBy (lexemes source)) :
    Constraint.parse source = .error (.verdict b op.relation (u - v)) ↔
      (op.relation.HoldsWithin (1e-9 * (1 + |u - v|)) 0 (u - v) ↔ b = true) := by
  have hcoefficient : ∀ z, (numbers v op u).coefficient (some z) = 0 := by
    intro z
    simp [numbers, WrittenComparison.coefficient, collected, WrittenTerm.parts, WrittenTerm.vars,
      Factor.vars]
  have hconstant : (numbers v op u).coefficient none = v - u := by
    simp [numbers, WrittenComparison.coefficient, collected, WrittenTerm.parts, WrittenTerm.vars,
      WrittenTerm.product, WrittenTerm.sign, Factor.vars, Factor.scale]
  rw [Constraint.parse_eq_verdict_of_spelled h, hcoefficient, hcoefficient, hconstant, neg_sub,
    abs_zero]
  simp only [numbers, true_and]
  exact ⟨fun hall => hall.2.2, fun hholds => ⟨by norm_num, by norm_num, hholds⟩⟩

theorem numbers_spelledBy_two : (numbers ((2 : ℕ) : ℝ) .ge ((3 : ℕ) : ℝ)).SpelledBy
    (lexemes "2 >= 3") := by
  have hlex : lexemes "2 >= 3" = [⟨.number, ⟨0, 1⟩, "2"⟩] ++ ⟨.comparator .ge, ⟨2, 4⟩, ">="⟩ ::
      [⟨.number, ⟨5, 6⟩, "3"⟩] := by
    decide +kernel
  exact ⟨_, _, _, hlex, rfl, .number (Token.isNumber_of_numeral rfl (by decide +kernel)),
    .number (Token.isNumber_of_numeral rfl (by decide +kernel))⟩

/-- Both verdicts where they are right. -/
theorem constraint_parse_verdicts_cancelled :
    (Constraint.parse "x - x <= 3" = .error (.tautology .le (3 : ℝ)) ∧
      ∀ p, cancelled.Holds p) ∧
    Constraint.parse "2 >= 3" = .error (.contradiction .ge (1 : ℝ)) ∧
      ∀ p, ¬(numbers ((2 : ℕ) : ℝ) .ge ((3 : ℕ) : ℝ)).Holds p := by
  have htrue : Constraint.parse "x - x <= 3" = .error (.tautology .le (3 : ℝ)) := by
    refine (Constraint.parse_eq_verdict_of_spelled (b := true) cancelled_spelledBy).mpr ?_
    rw [cancelled_coefficient, cancelled_coefficient, cancelled_constant]
    norm_num [cancelled, Comparator.relation, Relation.HoldsWithin]
  have hfalse : Constraint.parse "2 >= 3" = .error (.contradiction .ge (1 : ℝ)) := by
    have hone : ((3 : ℕ) : ℝ) - ((2 : ℕ) : ℝ) = 1 := by norm_num
    rw [← hone]
    refine (parse_numbers (b := false) numbers_spelledBy_two).mpr ?_
    norm_num [Comparator.relation, Relation.HoldsWithin]
  obtain ⟨-, hcancelled⟩ := (constraint_parse_verdicts "x - x <= 3" .le 3).1 htrue
  obtain ⟨-, hnumbers⟩ := (constraint_parse_verdicts "2 >= 3" .ge 1).2 hfalse
  obtain ⟨-, -, hholds⟩ := hcancelled cancelled cancelled_spelledBy
  obtain ⟨-, -, hnever⟩ := hnumbers _ numbers_spelledBy_two
  exact ⟨⟨htrue, hholds cancelled_isConstant (.inr (by norm_num))⟩, hfalse,
    hnever (numbers_isConstant _ _ _)⟩

/-- The numeral `0.0000000001`. -/
theorem isNumber_tiny {span : Span} :
    Token.IsNumber ⟨.number, span, "0.0000000001"⟩ (((1 : ℕ) : ℝ) * 10 ^ (-10 : ℤ)) := by
  refine Token.isNumber_of_decimal rfl ?_
  show Decimal.ofNumeral? "0.0000000001".toList = some ⟨1, -10⟩
  decide +kernel

theorem numbers_spelledBy_tiny :
    (numbers ((0 : ℕ) : ℝ) .ge (((1 : ℕ) : ℝ) * 10 ^ (-10 : ℤ))).SpelledBy
      (lexemes "0 >= 0.0000000001") := by
  have hlex : lexemes "0 >= 0.0000000001" = [⟨.number, ⟨0, 1⟩, "0"⟩] ++
      ⟨.comparator .ge, ⟨2, 4⟩, ">="⟩ :: [⟨.number, ⟨5, 17⟩, "0.0000000001"⟩] := by
    decide +kernel
  exact ⟨_, _, _, hlex, rfl, .number (Token.isNumber_of_numeral rfl (by decide +kernel)),
    .number isNumber_tiny⟩

/-- The comparison `0.0000000001x >= 1`. -/
noncomputable def flat : WrittenComparison ℝ :=
  ⟨[⟨[], .number (((1 : ℕ) : ℝ) * 10 ^ (-10 : ℤ)), [.beside .x]⟩], .ge,
    [⟨[], .number ((1 : ℕ) : ℝ), []⟩]⟩

theorem flat_spelledBy : flat.SpelledBy (lexemes "0.0000000001x >= 1") := by
  have hlex : lexemes "0.0000000001x >= 1" = [⟨.number, ⟨0, 12⟩, "0.0000000001"⟩,
      ⟨.ident, ⟨12, 13⟩, "x"⟩] ++ ⟨.comparator .ge, ⟨14, 16⟩, ">="⟩ ::
        [⟨.number, ⟨17, 18⟩, "1"⟩] := by
    decide +kernel
  have hx : Token.IsVariable ⟨.ident, ⟨12, 13⟩, "x"⟩ .x := ⟨rfl, by decide +kernel⟩
  refine ⟨_, _, _, hlex, rfl, ⟨List.cons_ne_nil _ _, nofun, .singleton ?_⟩,
    .number (Token.isNumber_of_numeral rfl (by decide +kernel))⟩
  exact ⟨[], _, rfl, rfl, ⟨_, _, rfl, .number isNumber_tiny, .singleton (.beside hx)⟩, by decide⟩

theorem flat_coefficients : flat.coefficient (some .x) = 1e-10 ∧
    flat.coefficient (some .y) = 0 ∧ flat.coefficient none = -1 := by
  refine ⟨?_, ?_, ?_⟩ <;> simp [flat, WrittenComparison.coefficient, collected,
    WrittenTerm.parts, WrittenTerm.product, WrittenTerm.sign, WrittenTerm.vars, Factor.scale,
    Factor.vars, Tail.scale, Tail.vars]
  norm_num

/-- Both verdicts where they are wrong: a constant below the tolerance that no point makes up
for, and a coefficient below it that a point far away makes up for. -/
theorem constraint_parse_negligible :
    (Constraint.parse "0 >= 0.0000000001" = .error (.tautology .ge (1e-10 : ℝ)) ∧
      ∃ w : WrittenComparison ℝ, w.SpelledBy (lexemes "0 >= 0.0000000001") ∧
        ∀ p, ¬w.Holds p) ∧
    Constraint.parse "0.0000000001x >= 1" = .error (.contradiction .ge (1 : ℝ)) ∧
      ∃ w : WrittenComparison ℝ, w.SpelledBy (lexemes "0.0000000001x >= 1") ∧
        w.Holds ⟨1e10, 0⟩ := by
  refine ⟨⟨?_, _, numbers_spelledBy_tiny, fun p => ?_⟩, ?_, flat, flat_spelledBy, ?_⟩
  · have htiny : ((1 : ℕ) : ℝ) * 10 ^ (-10 : ℤ) - ((0 : ℕ) : ℝ) = 1e-10 := by norm_num
    rw [← htiny]
    refine (parse_numbers (b := true) numbers_spelledBy_tiny).mpr ?_
    norm_num [Comparator.relation, Relation.HoldsWithin]
  · rw [numbers_holds]
    norm_num [Comparator.Compares]
  · refine (Constraint.parse_eq_verdict_of_spelled (b := false) flat_spelledBy).mpr ?_
    obtain ⟨hx, hy, hconstant⟩ := flat_coefficients
    rw [hx, hy, hconstant]
    norm_num [flat, Comparator.relation, Relation.HoldsWithin]
  · norm_num [flat, WrittenComparison.Holds, Comparator.Compares, sumValue, WrittenTerm.value,
      Factor.value, Tail.apply, Variable.at]

end PlanarLP
