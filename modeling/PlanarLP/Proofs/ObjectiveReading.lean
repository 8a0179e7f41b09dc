import PlanarLP.Proofs.SwappedSides

/-! Objectives are read as constraints are. An expression is an objective exactly when the text
that bounds it by zero is a constraint, and then the numbers are the same, but for the sign of the
constant, which changes sides (`Objective.agrees_bounded`). The zero on the other side changes no
number that is taken from it or from which it is taken (`Scalar.ZeroNeutral`). Nor does a name
before an expression change anything (`Objective.parse_named`). -/

namespace PlanarLP

open Formula

/-! ## Zeros -/

/-- Zeros of either sign take nothing from a number, and the numeral `0` is one. -/
class Scalar.ZeroNeutral (α : Type) [Scalar α] : Prop extends SignSymmetric α where
  isFinite_zero : isFinite (0 : α) = true
  value_zero : (Decimal.value ⟨0, 0⟩ : α) = 0
  /-- A side on which only the numeral stands comes to nothing. -/
  neg_zero_add : -0 + 1 * 0 * 1 = (0 : α)
  isFinite_sub_neg_zero (x : α) : isFinite (x - -0) = isFinite x
  abs_sub_neg_zero (x : α) : abs (x - -0) = abs x
  beq_sub_neg_zero {x : α} (h : isFinite x = true) : (x - -0 == x) = true

instance : Scalar.ZeroNeutral ℝ where
  isFinite_zero := rfl
  value_zero := by simp [Decimal.value_real]
  neg_zero_add := by norm_num
  isFinite_sub_neg_zero _ := rfl
  abs_sub_neg_zero x := by rw [neg_zero, sub_zero]
  beq_sub_neg_zero {x} _ := decide_eq_true (by rw [neg_zero, sub_zero])

open Float.Model in
theorem Binary64.sub_neg_zero_value (x : Float) : SameValue (unpacked (x - -0)) (unpacked x) := by
  have hsub : SameValue (.sub .binary64 (unpacked x) (.zero .negative)) (unpacked x) := by
    cases unpacked x with
    | zero s => cases s <;> exact .zeros _ _
    | notANumber | infinity | finite => exact .same _
  have h := hsub.repacked
  rwa [repacked_unpacked] at h

open Binary64 in
instance : Scalar.ZeroNeutral Float where
  isFinite_zero := by decide +kernel
  value_zero := by decide +kernel
  neg_zero_add := by decide +kernel
  isFinite_sub_neg_zero x := (sub_neg_zero_value x).isFinite_eq
  abs_sub_neg_zero x := by
    refine eq_of_unpacked ?_
    show unpacked (Float.abs (x - -0)) = unpacked (Float.abs x)
    rw [unpacked_abs, unpacked_abs, (sub_neg_zero_value x).abs_eq]
  beq_sub_neg_zero {x} h := by
    have hfinite : (unpacked x).isFinite = true := h
    refine (beq_iff (x - -0) x).mpr ?_
    rw [(sub_neg_zero_value x).compare_left, Unpacked.compare_self hfinite]

/-! ## Tokens -/

namespace Formula

variable {α : Type} {ts us : List Token}

theorem isComparator_congr {t u : Token} (h : u.kind = t.kind) :
    u.isComparator = t.isComparator := by
  rw [Token.isComparator, Token.comparator?, h]
  rfl

theorem Alike.not_isComparator (h : Alike ts us) (hts : ∀ t ∈ ts, t.isComparator = false) :
    ∀ u ∈ us, u.isComparator = false := by
  intro u hu
  have hkind : u.kind ∈ ts.map Token.kind := h.kinds ▸ List.mem_map_of_mem hu
  obtain ⟨t, ht, hkind⟩ := List.mem_map.mp hkind
  rw [isComparator_congr hkind.symm, hts t ht]

theorem objectiveTokens_expression (h : ∀ t ∈ ts, t.isComparator = false) :
    objectiveTokens ts = (.ok ts : Except (ParseError α) (List Token)) := by
  have hfilter : ts.filter Token.isComparator = [] :=
    List.filter_eq_nil_iff.mpr fun t ht => Bool.eq_false_iff.mp (h t ht)
  rw [objectiveTokens, hfilter]

theorem objectiveTokens_named {name op : Token} (hname : isObjectiveName name = true)
    (hop : op.kind = .comparator .eq) (h : ∀ t ∈ ts, t.isComparator = false) :
    objectiveTokens (name :: op :: ts) = (.ok ts : Except (ParseError α) (List Token)) := by
  have hkind : name.kind = .ident := by
    rw [isObjectiveName, Bool.and_eq_true, beq_iff_eq] at hname
    exact hname.1
  have hnone : name.isComparator = false := by simp [Token.isComparator, Token.comparator?, hkind]
  have hfilter : (name :: op :: ts).filter Token.isComparator = [op] := by
    rw [List.filter_cons_of_neg (Bool.eq_false_iff.mp hnone),
      List.filter_cons_of_pos (Token.isComparator_of_kind hop),
      List.filter_eq_nil_iff.mpr fun t ht => Bool.eq_false_iff.mp (h t ht)]
  rw [objectiveTokens, hfilter]
  dsimp only
  rw [hname, hop]
  rfl

theorem isObjectiveName_of {t : Token} (hkind : t.kind = .ident)
    (hvar : ∀ v : Variable, t.text.toLower ≠ v.name) : isObjectiveName t = true := by
  rw [isObjectiveName, hkind]
  split
  · rename_i v h
    exact absurd (Name.of_eq_var.mp h) (hvar v)
  · rfl

theorem isObjectiveName_congr {t u : Token} (h : u.form = t.form) :
    isObjectiveName u = isObjectiveName t := by
  obtain ⟨hkind, htext⟩ := Prod.mk.inj h
  rw [isObjectiveName, isObjectiveName, hkind, htext]

/-- The tokens of a named expression, but for the name, are those of the expression. -/
theorem exists_objectiveTokens {N E : String} {name : Token}
    (hN : lexemes N = [name]) (hname : isObjectiveName name = true)
    (hE : ∀ t ∈ lexemes E, t.isComparator = false) :
    ∃ us, objectiveTokens (lexemes (N ++ " = " ++ E)) =
      (.ok us : Except (ParseError α) (List Token)) ∧ Alike (lexemes E) us := by
  have htext : N ++ " = " ++ E = N ++ " " ++ "=" ++ " " ++ E := by
    simp [← String.toList_inj, String.toList_append]
  have h : Alike _ (lexemes (N ++ " " ++ "=" ++ " " ++ E)) :=
    alike_sides (o := .eq) (List.mem_cons_self) N E
  rw [hN, ← htext, List.singleton_append] at h
  obtain ⟨n, rest, hlexemes, hn, h⟩ := h.cons
  obtain ⟨op, us, rfl, hop, hus⟩ := h.cons
  rw [hlexemes]
  exact ⟨us, objectiveTokens_named ((isObjectiveName_congr hn).trans hname)
    (congrArg Prod.fst hop) (hus.not_isComparator hE), hus⟩

variable [Scalar α]

/-- Expressions of the same kinds and texts have the same coefficients. -/
theorem Expr.ofTokens_alike {source source' : List Char} {side side' : Side} {e : Expr α}
    (h : Alike ts us) (he : ofTokens source side ts = .ok e) :
    ∃ e' : Expr α, ofTokens source' side' us = .ok e' ∧ ∀ v, e'.total v = e.total v := by
  obtain ⟨ws, hws, hparts⟩ := ofTokens_sound he
  obtain ⟨e', he', hparts'⟩ := ofTokens_complete (hws.alike h)
  exact ⟨e', he', total_congr (hparts'.trans hparts.symm)⟩

/-- The objective with the coefficients of an expression. -/
def Expr.objective (e : Expr α) (sense : Sense) : Objective α :=
  ⟨e.coefficient .x, e.coefficient .y, e.constant, sense⟩

end Formula

namespace Objective

variable {α : Type} [Scalar α] {s t : String} {sense : Sense} {f : Objective α} {ts us : List Token}

/-- A text is an objective when what follows its name is an expression with finite coefficients,
one of which counts. -/
theorem parse_eq_ok : Objective.parse s sense = .ok f ↔
    ∃ ts e, objectiveTokens (lexemes s) = (.ok ts : Except (ParseError α) _) ∧
      Expr.ofTokens s.toList .left ts = .ok e ∧ e.objective sense = f ∧ f.isFinite = true ∧
      (Tolerance.standard.isZero f.p && Tolerance.standard.isZero f.q) = false := by
  rw [Objective.parse, bind_eq_ok]
  refine exists_congr fun ts => ?_
  constructor
  · rintro ⟨hts, h⟩
    split at h
    · cases h
    · obtain ⟨e, he, h⟩ := bind_eq_ok.mp h
      dsimp only at h
      split at h
      · cases h
      · rename_i hfinite
        split at h
        · cases h
        · rename_i hzero
          cases h
          exact ⟨e, hts, he, rfl, by simpa using hfinite, Bool.eq_false_iff.mpr hzero⟩
  · rintro ⟨e, hts, he, rfl, hfinite, hzero⟩
    obtain ⟨ws, hws, -⟩ := Expr.ofTokens_sound he
    refine ⟨hts, ?_⟩
    rw [if_neg (by simp [hws.ne_nil])]
    refine bind_eq_ok.mpr ⟨e, he, ?_⟩
    simp only [Expr.objective] at hfinite hzero ⊢
    rw [hfinite, hzero]
    rfl

theorem parse_alike (hs : objectiveTokens (lexemes s) = (.ok ts : Except (ParseError α) _))
    (ht : objectiveTokens (lexemes t) = (.ok us : Except (ParseError α) _)) (h : Alike ts us)
    (hf : Objective.parse s sense = .ok f) : Objective.parse t sense = .ok f := by
  obtain ⟨ts', e, hts, he, rfl, hvalid⟩ := parse_eq_ok.mp hf
  cases hs.symm.trans hts
  obtain ⟨e', he', htotal⟩ := Expr.ofTokens_alike h he
  refine parse_eq_ok.mpr ⟨us, e', ht, he', ?_, hvalid⟩
  simp only [Expr.objective, Expr.coefficient, Expr.constant, htotal]

/-! ## Names -/

variable {N E : String} {name : Token}

/-- A name makes no difference to an objective. -/
theorem parse_named (hN : lexemes N = [name]) (hname : isObjectiveName name = true)
    (hE : ∀ t ∈ lexemes E, t.isComparator = false) :
    Objective.parse (N ++ " = " ++ E) sense = .ok f ↔ Objective.parse E sense = .ok f := by
  obtain ⟨us, hus, halike⟩ := @exists_objectiveTokens α _ _ _ hN hname hE
  have hts := @objectiveTokens_expression α _ hE
  exact ⟨parse_alike hus hts halike.symm, parse_alike hts hus halike⟩

end Objective

/-! ## Expressions bounded by zero -/

section Bounded

variable {α : Type} [Scalar α]

namespace Formula

/-- `c` bounds the expression by zero from above. -/
structure Comparison.BoundsByZero (c : Comparison α) (e : Expr α) : Prop where
  relation : c.op.relation = .le
  lhs : ∀ v, c.lhs.total v = e.total v
  coefficient : ∀ v, c.rhs.coefficient v = -0
  constant : c.rhs.constant = 0

/-- What is left when the zero has been taken over to the left and the constant to the right. -/
theorem Comparison.BoundsByZero.lowered_eq {c : Comparison α} {e : Expr α}
    (h : c.BoundsByZero e) (source : String) :
    c.lowered source = ⟨e.coefficient .x - -0, e.coefficient .y - -0, 0 - e.constant, .le,
      normalized source⟩ := by
  have hlhs : ∀ v, c.lhs.coefficient v = e.coefficient v := fun v => h.lhs (some v)
  have hconstant : c.lhs.constant = e.constant := h.lhs none
  rw [Comparison.lowered, hlhs, hlhs, hconstant, h.coefficient, h.coefficient, h.constant,
    h.relation]

/-- The numeral on the other side. -/
def zeroTerm : WrittenTerm α := ⟨[], .number 0, []⟩

variable [Scalar.ZeroNeutral α] {c : Comparison α} {e : Expr α} {ws : List (WrittenTerm α)}

theorem isSum_zero : IsSum [(zeroTerm : WrittenTerm α)] (lexemes "0") := by
  have hlexemes : lexemes "0" = [⟨.number, ⟨0, 1⟩, "0"⟩] := by decide +kernel
  have hnumeral : Decimal.ofNumeral? "0".toList = some ⟨0, 0⟩ := by decide +kernel
  have hnumber : Token.IsNumber ⟨.number, ⟨0, 1⟩, "0"⟩ (0 : α) :=
    ⟨rfl, by rw [hnumeral, Option.map_some, Scalar.ZeroNeutral.value_zero],
      Scalar.ZeroNeutral.isFinite_zero⟩
  rw [hlexemes]
  refine ⟨List.cons_ne_nil _ _, List.forall_mem_nil _, .singleton ?_⟩
  exact ⟨[], _, rfl, rfl, ⟨_, _, rfl, .number hnumber, .nil⟩, Nat.zero_le _⟩

theorem Comparison.Reads.boundsByZero (hc : c.Reads ⟨ws, .le, [zeroTerm]⟩)
    (he : e.terms.map Term.parts = ws.map WrittenTerm.parts) : c.BoundsByZero e := by
  have hzero : ∀ v, c.rhs.total v = (⟨[⟨⟨0, 0⟩, 1 * 0 * 1, none⟩]⟩ : Expr α).total v :=
    Expr.total_congr hc.rhs
  refine ⟨?_, Expr.total_congr (hc.lhs.trans he.symm), fun v => hzero (some v), ?_⟩
  · rw [hc.op]
    rfl
  · exact (hzero none).trans Scalar.ZeroNeutral.neg_zero_add

variable {E : String}

/-- The tokens of an expression, of the operator and of the numeral. -/
theorem alike_bounded (E : String) :
    Alike (lexemes E ++ ⟨.comparator .le, ⟨0, 0⟩, "<="⟩ :: lexemes "0")
      (lexemes (E ++ " <= 0")) := by
  have htext : E ++ " <= 0" = E ++ " " ++ "<=" ++ " " ++ "0" := by
    simp [← String.toList_inj, String.toList_append]
  rw [htext]
  exact alike_sides (o := .le) List.mem_cons_self E "0"

theorem exists_parse_bounded (he : Expr.ofTokens E.toList .left (lexemes E) = .ok e) :
    ∃ c : Comparison α, Comparison.parse (E ++ " <= 0") = .ok c ∧ c.BoundsByZero e := by
  obtain ⟨ws, hws, hparts⟩ := Expr.ofTokens_sound he
  have hw : WrittenComparison.SpelledBy ⟨ws, .le, [zeroTerm]⟩ (lexemes (E ++ " <= 0")) :=
    WrittenComparison.SpelledBy.alike ⟨_, _, _, rfl, rfl, hws, isSum_zero⟩ (alike_bounded E)
  obtain ⟨c, hc, hreads⟩ := Comparison.parse_complete hw
  exact ⟨c, hc, hreads.boundsByZero hparts⟩

theorem exists_expr_of_bounded (hE : ∀ t ∈ lexemes E, t.isComparator = false)
    (hc : Comparison.parse (E ++ " <= 0") = .ok c) :
    ∃ e, Expr.ofTokens E.toList .left (lexemes E) = .ok e ∧ c.BoundsByZero e := by
  obtain ⟨w, hw, -⟩ := Comparison.parse_sound hc
  have hsplit := hw.alike (alike_bounded E).symm
  rw [WrittenComparison.spelledBy_append hE rfl] at hsplit
  obtain ⟨-, hws, -⟩ := hsplit
  obtain ⟨e, he, hparts⟩ := @Expr.ofTokens_complete _ _ E.toList .left _ _ hws
  have hw' : WrittenComparison.SpelledBy ⟨w.lhs, .le, [zeroTerm]⟩ (lexemes (E ++ " <= 0")) :=
    WrittenComparison.SpelledBy.alike ⟨_, _, _, rfl, rfl, hws, isSum_zero⟩ (alike_bounded E)
  exact ⟨e, he, (Comparison.parse_reads hc hw').boundsByZero hparts⟩

end Formula

namespace Scalar.ZeroNeutral

variable [ZeroNeutral α]

theorem isFinite_zero_sub (x : α) : isFinite (0 - x) = isFinite x := by
  rw [SignSymmetric.isFinite_sub_comm, SignSymmetric.sub_zero]

theorem beq_zero_sub {x : α} (h : isFinite x = true) : (0 - x == -x) = true := by
  have hneg := @SignSymmetric.beq_neg_sub α _ _ x 0
  rw [SignSymmetric.sub_zero] at hneg
  exact hneg h

theorem isZero_sub_neg_zero (tol : Tolerance α) (x : α) : tol.isZero (x - -0) = tol.isZero x := by
  rw [Bool.eq_iff_iff, Tolerance.isZero, Tolerance.isZero, Tolerance.holds_eq, Tolerance.holds_eq,
    SignSymmetric.sub_zero, SignSymmetric.sub_zero, abs_sub_neg_zero]

end Scalar.ZeroNeutral

namespace Objective

/-- What is read from an expression and from the text that bounds it by zero: an objective and a
constraint with the same coefficients, up to the sign of a zero, or neither. -/
inductive Agrees (sense : Sense) : Except (ParseError α) (Objective α) →
    Except (ParseError α) (Constraint α) → Prop
  | accepted {f : Objective α} {k : Constraint α} (ha : (k.a == f.p) = true)
    (hb : (k.b == f.q) = true) (hc : (k.c == -f.offset) = true) (hrelation : k.relation = .le)
    (hsense : f.sense = sense) : Agrees sense (.ok f) (.ok k)
  | rejected (e e' : ParseError α) : Agrees sense (.error e) (.error e')

variable [Scalar.ZeroNeutral α] {c : Comparison α} {e : Expr α} {E : String}

/-- The checks on a constraint and those on an objective come out the same. -/
theorem checks_eq (h : c.BoundsByZero e) (sense : Sense) (source : String) :
    (Scalar.isFinite (c.lowered source).a && Scalar.isFinite (c.lowered source).b &&
        Scalar.isFinite (c.lowered source).c) = (e.objective sense).isFinite ∧
      (Tolerance.standard.isZero (c.lowered source).a &&
        Tolerance.standard.isZero (c.lowered source).b) =
      (Tolerance.standard.isZero (e.objective sense).p &&
        Tolerance.standard.isZero (e.objective sense).q) := by
  rw [h.lowered_eq, Scalar.ZeroNeutral.isFinite_sub_neg_zero,
    Scalar.ZeroNeutral.isFinite_sub_neg_zero, Scalar.ZeroNeutral.isFinite_zero_sub,
    Scalar.ZeroNeutral.isZero_sub_neg_zero, Scalar.ZeroNeutral.isZero_sub_neg_zero]
  exact ⟨rfl, rfl⟩

theorem agrees_bounded (hE : ∀ t ∈ lexemes E, t.isComparator = false) (sense : Sense) :
    Agrees (α := α) sense (Objective.parse E sense) (Constraint.parse (E ++ " <= 0")) := by
  have htokens := @objectiveTokens_expression α _ hE
  cases hf : (Objective.parse E sense : Except (ParseError α) _) with
  | ok f =>
    obtain ⟨ts, e, hts, he, rfl, hfinite, hzero⟩ := parse_eq_ok.mp hf
    cases htokens.symm.trans hts
    obtain ⟨c, hc, hbounds⟩ := exists_parse_bounded he
    obtain ⟨hfinite', hzero'⟩ := checks_eq hbounds sense (E ++ " <= 0")
    have hk := Constraint.parse_eq_ok.mpr
      ⟨c, hc, rfl, hfinite'.trans hfinite, hzero'.trans hzero⟩
    rw [hk, hbounds.lowered_eq]
    rw [Objective.isFinite, Bool.and_eq_true, Bool.and_eq_true] at hfinite
    exact .accepted (Scalar.ZeroNeutral.beq_sub_neg_zero hfinite.1.1)
      (Scalar.ZeroNeutral.beq_sub_neg_zero hfinite.1.2)
      (Scalar.ZeroNeutral.beq_zero_sub hfinite.2) rfl rfl
  | error e =>
    cases hk : (Constraint.parse (E ++ " <= 0") : Except (ParseError α) _) with
    | error e' => exact .rejected e e'
    | ok k =>
      -- what is accepted here would have been accepted there
      obtain ⟨c, hc, rfl, hfinite, hzero⟩ := Constraint.parse_eq_ok.mp hk
      obtain ⟨e', he, hbounds⟩ := exists_expr_of_bounded hE hc
      obtain ⟨hfinite', hzero'⟩ := checks_eq hbounds sense (E ++ " <= 0")
      have hok := parse_eq_ok.mpr
        ⟨_, e', htokens, he, rfl, hfinite'.symm.trans hfinite, hzero'.symm.trans hzero⟩
      cases hf.symm.trans hok

end Objective

end Bounded

/-- **Objectives are read as constraints are.** For a text without an operator and any sense, the
objective has the coefficients of the constraint that bounds the text by zero, and a constant of
the other sign, or neither can be read; and any name but that of a variable may be put before it. -/
theorem objective_parse_agrees {α : Type} [Scalar α] [Scalar.ZeroNeutral α] {E : String}
    (hE : ∀ t ∈ lexemes E, t.isComparator = false) (sense : Sense) :
    Objective.Agrees sense (Objective.parse E sense : Except (ParseError α) (Objective α))
        (Constraint.parse (E ++ " <= 0")) ∧
      ∀ (N : String) (t : Token), lexemes N = [t] → t.kind = .ident →
        t.text.toLower ≠ "x" → t.text.toLower ≠ "y" → ∀ f : Objective α,
          Objective.parse (N ++ " = " ++ E) sense = .ok f ↔ Objective.parse E sense = .ok f := by
  refine ⟨Objective.agrees_bounded hE sense, fun N t hN hkind hx hy f => ?_⟩
  refine Objective.parse_named hN (isObjectiveName_of hkind fun v => ?_) hE
  cases v with
  | x => exact hx
  | y => exact hy

/-- An objective over doubles with a constant, and the same with a name. -/
theorem objective_parse_agrees_named :
    (∀ t ∈ lexemes "3x - 2y + 5", t.isComparator = false) ∧
      lexemes "Z" = [⟨.ident, ⟨0, 1⟩, "Z"⟩] ∧
      Objective.Agrees .maximize
        (Objective.parse "3x - 2y + 5" .maximize : Except (ParseError Float) (Objective Float))
        (Constraint.parse "3x - 2y + 5 <= 0") ∧
      Objective.parse "Z = 3x - 2y + 5" .maximize =
        (.ok ⟨3, -2, 5, .maximize⟩ : Except (ParseError Float) (Objective Float)) := by
  have hE : ∀ t ∈ lexemes "3x - 2y + 5", t.isComparator = false := by decide +kernel
  have hN : lexemes "Z" = [⟨.ident, ⟨0, 1⟩, "Z"⟩] := by decide +kernel
  obtain ⟨hagrees, hnamed⟩ := objective_parse_agrees (α := Float) hE .maximize
  refine ⟨hE, hN, hagrees, ?_⟩
  exact (hnamed "Z" _ hN rfl (by decide +kernel) (by decide +kernel) _).mpr (by decide +kernel)

end PlanarLP
