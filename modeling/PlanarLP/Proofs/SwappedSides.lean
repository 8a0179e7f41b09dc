import PlanarLP.Proofs.ConstantComparisons
import PlanarLP.Proofs.Reparse
import PlanarLP.Proofs.SignSymmetry

/-! A comparison with its sides swapped and its operator turned round. The sides are read by the
same rules wherever they stand, so the swapped text is a comparison when the first one is, with
the same terms (`SidesSwapped.exists_parse`). Its canonical form takes each difference the other
way round, which changes signs and nothing else: what counts as zero, as finite and as a true
comparison with zero is the same. -/

namespace PlanarLP

open Formula Text

/-! ## Tokens of the swapped text -/

namespace Formula

/-- The operator between the swapped sides. -/
def Comparator.mirror : Comparator → Comparator
  | le => ge
  | ge => le
  | lt => gt
  | gt => lt
  | eq => eq

namespace Comparator

theorem mirror_mirror (o : Comparator) : o.mirror.mirror = o := by cases o <;> rfl

theorem relation_mirror (o : Comparator) : o.mirror.relation = o.relation.flip := by
  cases o <;> rfl

theorem formsOf_spelling : ∀ (o : Comparator), ∀ s ∈ o.spellings,
    formsOf s.toList = [(.comparator o, s)] := by
  intro o
  cases o <;> decide +kernel

end Comparator

/-- Texts with a blank between them have the tokens of both. -/
theorem formsOf_append_blank {b : Char} (hb : isBlank b = true) (cs ds : List Char) :
    formsOf (cs ++ b :: ds) = formsOf cs ++ formsOf ds := by
  induction cs using stretch_induction with
  | last w hw => rw [formsOf_append hw (firstWord_blank hb ds), formsOf_skip hb]
  | next w c cs hw hc ih =>
    rw [List.append_assoc, List.cons_append, formsOf_append hw (firstWord_blank hc _),
      formsOf_append hw (firstWord_blank hc _), formsOf_skip hc, formsOf_skip hc, ih,
      List.append_assoc]

/-- The second text has the sides of the first one swapped and the mirror image of its operator
between them. -/
inductive SidesSwapped (o : Comparator) : String → String → Prop
  | intro {L R s s' : String} (hL : ∀ t ∈ lexemes L, t.isComparator = false)
    (hR : ∀ t ∈ lexemes R, t.isComparator = false) (hs : s ∈ o.spellings)
    (hs' : s' ∈ o.mirror.spellings) :
    SidesSwapped o (L ++ " " ++ s ++ " " ++ R) (R ++ " " ++ s' ++ " " ++ L)

theorem SidesSwapped.symm {o : Comparator} {s t : String} (h : SidesSwapped o s t) :
    SidesSwapped o.mirror t s := by
  obtain ⟨hL, hR, hs, hs'⟩ := h
  exact ⟨hR, hL, hs', o.mirror_mirror.symm ▸ hs⟩

/-- The tokens of a side, the operator and the tokens of the other side. -/
theorem alike_sides {o : Comparator} {s : String} (hs : s ∈ o.spellings) (L R : String) :
    Alike (lexemes L ++ ⟨.comparator o, ⟨0, 0⟩, s⟩ :: lexemes R)
      (lexemes (L ++ " " ++ s ++ " " ++ R)) := by
  have htext : (L ++ " " ++ s ++ " " ++ R).toList =
      L.toList ++ ' ' :: (s.toList ++ ' ' :: R.toList) := by
    simp [String.toList_append]
  have hforms : (lexemes (L ++ " " ++ s ++ " " ++ R)).map Token.form =
      formsOf (L ++ " " ++ s ++ " " ++ R).toList := rfl
  rw [Alike, hforms, htext, formsOf_append_blank rfl, formsOf_append_blank rfl,
    Comparator.formsOf_spelling o s hs, List.map_append]
  rfl

variable {α : Type} [Scalar α] {o : Comparator} {s t : String}

/-- An operator between tokens that are none sets the sides apart. -/
theorem WrittenComparison.spelledBy_append {w : WrittenComparison α} {ls rs : List Token}
    {op : Token} (hls : ∀ u ∈ ls, u.isComparator = false) (hop : op.kind = .comparator o) :
    w.SpelledBy (ls ++ op :: rs) ↔ w.op = o ∧ IsSum w.lhs ls ∧ IsSum w.rhs rs := by
  constructor
  · rintro ⟨left, op', right, hts, hop', hl, hr⟩
    have hleft : ls = left := by
      have hfirst : leftOf (ls ++ op :: rs) = ls :=
        leftOf_append hls (Token.isComparator_of_kind hop)
      rw [← hfirst, hts, leftOf_append hl.not_isComparator (Token.isComparator_of_kind hop')]
    subst hleft
    obtain ⟨rfl, rfl⟩ := List.cons.inj (List.append_cancel_left hts)
    rw [hop, Token.Kind.comparator.injEq] at hop'
    exact ⟨hop'.symm, hl, hr⟩
  · rintro ⟨rfl, hl, hr⟩
    exact ⟨ls, op, rs, rfl, hop, hl, hr⟩

/-- `d` has on each side what `c` has on the other one. -/
structure Comparison.Swaps (c d : Comparison α) : Prop where
  relation : d.op.relation = c.op.relation.flip
  lhs : ∀ v, d.lhs.total v = c.rhs.total v
  rhs : ∀ v, d.rhs.total v = c.lhs.total v

theorem SidesSwapped.exists_parse (h : SidesSwapped o s t) {c : Comparison α}
    (hc : Comparison.parse s = .ok c) :
    ∃ d : Comparison α, Comparison.parse t = .ok d ∧ c.Swaps d := by
  obtain @⟨L, R, s, s', hL, hR, hs, hs'⟩ := h
  obtain ⟨w, hw, hreads⟩ := Comparison.parse_sound hc
  have hsplit := hw.alike (alike_sides hs _ _).symm
  rw [WrittenComparison.spelledBy_append hL rfl] at hsplit
  obtain ⟨hop, hl, hr⟩ := hsplit
  have hmirror : (⟨w.rhs, o.mirror, w.lhs⟩ : WrittenComparison α).SpelledBy
      (lexemes R ++ ⟨.comparator o.mirror, ⟨0, 0⟩, s'⟩ :: lexemes L) :=
    ⟨_, _, _, rfl, rfl, hr, hl⟩
  obtain ⟨d, hd, hreads'⟩ := Comparison.parse_complete (hmirror.alike (alike_sides hs' _ _))
  refine ⟨d, hd, ?_, Expr.total_congr (hreads'.lhs.trans hreads.rhs.symm),
    Expr.total_congr (hreads'.rhs.trans hreads.lhs.symm)⟩
  rw [hreads'.op, hreads.op, hop, Comparator.relation_mirror]

end Formula

/-! ## Differences the other way round -/

section Reversed

variable {α : Type} [Scalar α] {u v : α}

/-- A difference, and the same with its terms swapped. -/
inductive Scalar.Reversed : α → α → Prop
  | intro (x y : α) : Reversed (x - y) (y - x)

namespace Scalar.Reversed

variable [SignSymmetric α]

theorem isFinite_eq (h : Reversed u v) : isFinite v = isFinite u := by
  obtain ⟨x, y⟩ := h
  exact SignSymmetric.isFinite_sub_comm y x

theorem beq_neg (h : Reversed u v) (hu : isFinite u = true) : (v == -u) = true := by
  obtain ⟨x, y⟩ := h
  exact SignSymmetric.beq_neg_sub hu

theorem slack_eq (h : Reversed u v) (tol : Tolerance α) : tol.slack v = tol.slack u := by
  obtain ⟨x, y⟩ := h
  rw [Tolerance.slack, Tolerance.slack, SignSymmetric.abs_sub_comm]

theorem isZero_eq (h : Reversed u v) (tol : Tolerance α) : tol.isZero v = tol.isZero u := by
  obtain ⟨x, y⟩ := h
  rw [Bool.eq_iff_iff, Tolerance.isZero, Tolerance.isZero, Tolerance.holds_eq, Tolerance.holds_eq,
    SignSymmetric.sub_zero, SignSymmetric.sub_zero, SignSymmetric.abs_sub_comm]

/-- Zero compares with the one as the other way round with the other. -/
theorem holds_eq (h : Reversed u v) (tol : Tolerance α) (r : Relation) :
    tol.holds 0 r.flip v v = tol.holds 0 r u u := by
  have hslack := h.slack_eq tol
  obtain ⟨x, y⟩ := h
  rw [Bool.eq_iff_iff]
  cases r with
  | le =>
    rw [Relation.flip, Tolerance.holds_ge, Tolerance.holds_le, hslack]
    exact (SignSymmetric.zero_sub_le x y _).symm
  | ge =>
    rw [Relation.flip, Tolerance.holds_le, Tolerance.holds_ge, hslack]
    exact SignSymmetric.zero_sub_le y x _
  | eq =>
    have habs : ∀ w : α, abs (0 - w) = abs w := fun w => by
      rw [SignSymmetric.abs_sub_comm, SignSymmetric.sub_zero]
    rw [Relation.flip, Tolerance.holds_eq, Tolerance.holds_eq, hslack, habs, habs,
      SignSymmetric.abs_sub_comm]

end Scalar.Reversed

end Reversed

/-! ## Constraints -/

namespace Constraint

variable {α : Type} [Scalar α]

/-- The canonical forms of a comparison and of its mirror image. -/
structure Reverses (k l : Constraint α) : Prop where
  a : Scalar.Reversed k.a l.a
  b : Scalar.Reversed k.b l.b
  c : Scalar.Reversed k.c l.c
  relation : l.relation = k.relation.flip

theorem reverses_lowered {c d : Comparison α} (h : c.Swaps d) (s t : String) :
    (c.lowered s).Reverses (d.lowered t) := by
  have hleft : ∀ v, Scalar.Reversed (c.lhs.total v - c.rhs.total v)
      (d.lhs.total v - d.rhs.total v) := fun v => by
    rw [h.lhs, h.rhs]
    exact .intro _ _
  have hright : ∀ v, Scalar.Reversed (c.rhs.total v - c.lhs.total v)
      (d.rhs.total v - d.lhs.total v) := fun v => by
    rw [h.lhs, h.rhs]
    exact .intro _ _
  exact ⟨hleft (some .x), hleft (some .y), hright none, h.relation⟩

/-- What is read from a text and from one with its sides swapped: a constraint and the same one
with all signs changed, up to the sign of a zero; the same verdict; or neither of these. -/
inductive Mirrored : Except (ParseError α) (Constraint α) →
    Except (ParseError α) (Constraint α) → Prop
  | accepted {k l : Constraint α} (ha : (l.a == -k.a) = true) (hb : (l.b == -k.b) = true)
    (hc : (l.c == -k.c) = true) (hrelation : l.relation = k.relation.flip) :
    Mirrored (.ok k) (.ok l)
  | verdict (b : Bool) (r : Relation) {c d : α}
    (hc : Scalar.isFinite c = true → (d == -c) = true) :
    Mirrored (.error (.verdict b r c)) (.error (.verdict b r.flip d))
  | rejected {e f : ParseError α} (he : ∀ b r c, e ≠ .verdict b r c)
    (hf : ∀ b r c, f ≠ .verdict b r c) : Mirrored (.error e) (.error f)

variable [Scalar.SignSymmetric α] {o : Comparator} {s t : String}

theorem exists_parse_ok (h : SidesSwapped o s t) {k : Constraint α}
    (hk : Constraint.parse s = .ok k) :
    ∃ l : Constraint α, Constraint.parse t = .ok l ∧ k.Reverses l ∧
      (Scalar.isFinite k.a && Scalar.isFinite k.b && Scalar.isFinite k.c) = true := by
  obtain ⟨c, hc, rfl, hfinite, hzero⟩ := parse_eq_ok.mp hk
  obtain ⟨d, hd, hswaps⟩ := h.exists_parse hc
  have hreverses := reverses_lowered hswaps s t
  refine ⟨d.lowered t, parse_eq_ok.mpr ⟨d, hd, rfl, ?_, ?_⟩, hreverses, hfinite⟩
  · rwa [hreverses.a.isFinite_eq, hreverses.b.isFinite_eq, hreverses.c.isFinite_eq]
  · rwa [hreverses.a.isZero_eq, hreverses.b.isZero_eq]

theorem exists_parse_verdict (h : SidesSwapped o s t) {b : Bool} {r : Relation} {c : α}
    (hs : Constraint.parse s = .error (.verdict b r c)) :
    ∃ d, Constraint.parse t = .error (.verdict b r.flip d) ∧ Scalar.Reversed c d := by
  obtain ⟨k, hk, hzero, rfl, rfl, hholds⟩ := parse_eq_verdict.mp hs
  obtain ⟨l, hl, hswaps⟩ := h.exists_parse hk
  have hreverses := reverses_lowered hswaps s t
  refine ⟨(l.lowered t).c, parse_eq_verdict.mpr ⟨l, hl, ?_, hswaps.relation, rfl, ?_⟩, hreverses.c⟩
  · rwa [hreverses.a.isZero_eq, hreverses.b.isZero_eq]
  · rwa [hreverses.c.holds_eq]

theorem mirrored_of_swapped (h : SidesSwapped o s t) :
    Mirrored (Constraint.parse s : Except (ParseError α) (Constraint α)) (Constraint.parse t) := by
  cases hs : (Constraint.parse s : Except (ParseError α) (Constraint α)) with
  | ok k =>
    obtain ⟨l, hl, hreverses, hfinite⟩ := exists_parse_ok h hs
    rw [Bool.and_eq_true, Bool.and_eq_true] at hfinite
    rw [hl]
    exact .accepted (hreverses.a.beq_neg hfinite.1.1) (hreverses.b.beq_neg hfinite.1.2)
      (hreverses.c.beq_neg hfinite.2) hreverses.relation
  | error e =>
    by_cases he : ∃ b r c, e = .verdict b r c
    · obtain ⟨b, r, c, rfl⟩ := he
      obtain ⟨d, hd, hreversed⟩ := exists_parse_verdict h hs
      rw [hd]
      exact .verdict b r hreversed.beq_neg
    · -- nothing else comes from the swapped text, which would be swapped back
      cases ht : (Constraint.parse t : Except (ParseError α) (Constraint α)) with
      | ok l =>
        obtain ⟨k, hk, -⟩ := exists_parse_ok h.symm ht
        cases hs.symm.trans hk
      | error f =>
        refine .rejected (fun b r c hverdict => he ⟨b, r, c, hverdict⟩) fun b r c hverdict => ?_
        obtain ⟨d, hd, -⟩ := exists_parse_verdict h.symm (hverdict ▸ ht)
        cases hs.symm.trans hd
        exact he ⟨b, r.flip, d, rfl⟩

end Constraint

/-- **Swapping the sides of a constraint negates it.** For two texts without operators, and an
operator and its mirror image with blanks around them, both ways of writing give a constraint,
with opposite coefficients and relations, or a tautology, or a contradiction, or none of these.
This is so of doubles as of exact numbers. -/
theorem constraint_parse_swapped {α : Type} [Scalar α] [Scalar.SignSymmetric α] {L R s s' : String}
    {o : Comparator} (hL : ∀ t ∈ lexemes L, t.isComparator = false)
    (hR : ∀ t ∈ lexemes R, t.isComparator = false) (hs : s ∈ o.spellings)
    (hs' : s' ∈ o.mirror.spellings) : Constraint.Mirrored
      (Constraint.parse (L ++ " " ++ s ++ " " ++ R) : Except (ParseError α) (Constraint α))
      (Constraint.parse (R ++ " " ++ s' ++ " " ++ L)) :=
  Constraint.mirrored_of_swapped ⟨hL, hR, hs, hs'⟩

/-- A constraint over doubles written both ways. -/
theorem constraint_parse_swapped_float :
    (∀ t ∈ lexemes "2x + 0.1", t.isComparator = false) ∧
    (∀ t ∈ lexemes "3y", t.isComparator = false) ∧
    "<=" ∈ Comparator.le.spellings ∧ ">=" ∈ Comparator.le.mirror.spellings ∧
    Constraint.Mirrored
      (Constraint.parse "2x + 0.1 <= 3y" : Except (ParseError Float) (Constraint Float))
      (Constraint.parse "3y >= 2x + 0.1") := by
  have hL : ∀ t ∈ lexemes "2x + 0.1", t.isComparator = false := by decide +kernel
  have hR : ∀ t ∈ lexemes "3y", t.isComparator = false := by decide +kernel
  have hs : "<=" ∈ Comparator.le.spellings := by decide
  have hs' : ">=" ∈ Comparator.le.mirror.spellings := by decide
  have hforth : "2x + 0.1" ++ " " ++ "<=" ++ " " ++ "3y" = "2x + 0.1 <= 3y" := by decide
  have hback : "3y" ++ " " ++ ">=" ++ " " ++ "2x + 0.1" = "3y >= 2x + 0.1" := by decide
  have hmirrored : Constraint.Mirrored
      (Constraint.parse ("2x + 0.1" ++ " " ++ "<=" ++ " " ++ "3y") :
        Except (ParseError Float) (Constraint Float))
      (Constraint.parse ("3y" ++ " " ++ ">=" ++ " " ++ "2x + 0.1")) :=
    constraint_parse_swapped hL hR hs hs'
  rw [hforth, hback] at hmirrored
  exact ⟨hL, hR, hs, hs', hmirrored⟩

end PlanarLP
