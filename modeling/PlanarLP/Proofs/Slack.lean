import PlanarLP.Proofs.Admitted
import PlanarLP.Proofs.Feasibility

/-! What the standard tolerance lets through. A satisfied constraint holds up to an error of
`1e-9` times one plus the size of the numbers it compares (`isSatisfied_iff_within`), so a
vertex keeps to every constraint up to that error, and up to `1e-6` while the numbers stay
below a thousand (`solve_vertices_within`). Far out the error grows without end:
`solve_looseCorner` is a vertex that misses a constraint by more than `1e-6`. -/

namespace PlanarLP

/-! ## Relations up to an error -/

namespace Relation

/-- What a relation asks of two sides that may be off by `ε`. -/
def HoldsWithin (r : Relation) (ε a b : ℝ) : Prop :=
  match r with
  | .le => a ≤ b + ε
  | .ge => b - ε ≤ a
  | .eq => |a - b| ≤ ε

variable {r : Relation} {ε δ a b x y : ℝ}

theorem HoldsWithin.mono (h : r.HoldsWithin ε a b) (hle : ε ≤ δ) : r.HoldsWithin δ a b := by
  cases r with
  | le => exact le_trans h (add_le_add_right hle b)
  | ge => exact (sub_le_sub_left hle b).trans h
  | eq => exact le_trans h hle

theorem holdsWithin_zero : r.HoldsWithin 0 a b ↔ r.Holds a b := by
  cases r with
  | le => exact iff_of_eq (congrArg (a ≤ ·) (add_zero b))
  | ge => exact iff_of_eq (congrArg (· ≤ a) (sub_zero b))
  | eq => exact abs_nonpos_iff.trans sub_eq_zero

/-- A side may be off by as much more as it is moved. -/
theorem HoldsWithin.shift (h : r.HoldsWithin ε a b) (hx : |x - a| ≤ δ) :
    r.HoldsWithin (ε + δ) x b := by
  obtain ⟨hlow, hhigh⟩ := abs_le.mp hx
  cases r with
  | le =>
    have hab : a ≤ b + ε := h
    show x ≤ b + (ε + δ)
    linarith
  | ge =>
    have hba : b - ε ≤ a := h
    show b - (ε + δ) ≤ x
    linarith
  | eq =>
    have hab : |a - b| ≤ ε := h
    have htri := abs_sub_le x a b
    show |x - b| ≤ ε + δ
    linarith

/-- Only the difference of the sides matters. -/
theorem holdsWithin_congr (h : a - b = x - y) :
    r.HoldsWithin ε a b ↔ r.HoldsWithin ε x y := by
  cases r with
  | le => exact sub_le_iff_le_add'.symm.trans (h ▸ sub_le_iff_le_add')
  | ge =>
    constructor
    · intro hab
      have hba : b - ε ≤ a := hab
      show y - ε ≤ x
      linarith
    · intro hxy
      have hyx : y - ε ≤ x := hxy
      show b - ε ≤ a
      linarith
  | eq => exact iff_of_eq (congrArg (|·| ≤ ε) h)

/-- Sides that differ by more than the error are compared right. -/
theorem HoldsWithin.holds_of_apart (h : r.HoldsWithin ε a b) (hapart : ε < |a - b|) :
    r.Holds a b := by
  cases r with
  | le =>
    have hab : a ≤ b + ε := h
    show a ≤ b
    rcases lt_abs.mp hapart with hlt | hlt <;> linarith
  | ge =>
    have hba : b - ε ≤ a := h
    show b ≤ a
    rcases lt_abs.mp hapart with hlt | hlt <;> linarith
  | eq => exact absurd hapart (not_lt.mpr h)

/-- A side smaller than the other one compares with it as zero does. -/
theorem not_holds_of_lt (h : ¬r.Holds 0 b) (hx : |x| < |b|) : ¬r.Holds x b := by
  obtain ⟨hlow, hhigh⟩ := abs_lt.mp hx
  intro hholds
  cases r with
  | le =>
    have hb : b < 0 := not_le.mp h
    have hxb : x ≤ b := hholds
    rw [abs_of_neg hb] at hlow
    linarith
  | ge =>
    have hb : 0 < b := not_le.mp h
    have hbx : b ≤ x := hholds
    rw [abs_of_pos hb] at hhigh
    linarith
  | eq =>
    obtain rfl : x = b := hholds
    exact lt_irrefl _ hx

theorem Holds.within (h : r.Holds a b) (hx : |x - a| ≤ ε) : r.HoldsWithin ε x b :=
  zero_add ε ▸ (holdsWithin_zero.mpr h).shift hx

theorem Holds.refl (r : Relation) (b : ℝ) : r.Holds b b := by
  cases r with
  | le => exact le_rfl
  | ge => exact le_rfl
  | eq => rfl

end Relation

theorem Tolerance.holds_iff_within {tol : Tolerance ℝ} {r : Relation} {a b m : ℝ} :
    tol.holds a r b m = true ↔ r.HoldsWithin (tol.slack m) a b := by
  cases r with
  | le => exact (holds_le tol a b m).trans sub_le_iff_le_add'
  | ge =>
    rw [holds_ge, neg_le_sub_iff_le_add]
    exact sub_le_iff_le_add.symm
  | eq => exact holds_eq tol a b m

theorem Tolerance.standard_slack_nonneg (m : ℝ) : 0 ≤ standard.slack m := by
  rw [standard_slack]
  positivity

/-! ## Constraints up to an error -/

namespace Constraint

variable {k l : Constraint ℝ} {p : Vec ℝ} {ε δ : ℝ}

/-- The constraint holds at `p` up to an absolute error of `ε`. -/
def Within (k : Constraint ℝ) (ε : ℝ) (p : Vec ℝ) : Prop :=
  k.relation.HoldsWithin ε (k.a * p.x + k.b * p.y) k.c

theorem Within.mono (h : k.Within ε p) (hle : ε ≤ δ) : k.Within δ p :=
  Relation.HoldsWithin.mono h hle

theorem Allows.within (h : k.Allows p) (hε : 0 ≤ ε) : k.Within ε p :=
  Relation.Holds.within h (by rwa [sub_self, abs_zero])

/-- The error that the standard tolerance leaves at `p`. -/
noncomputable def slackAt (k : Constraint ℝ) (p : Vec ℝ) : ℝ :=
  1e-9 * (1 + (|k.a * p.x| + |k.b * p.y| + |k.c|))

theorem slackAt_nonneg (k : Constraint ℝ) (p : Vec ℝ) : 0 ≤ k.slackAt p := by
  unfold slackAt
  positivity

/-- The slack is at least what the two compared sides make for themselves. -/
theorem le_slackAt (k : Constraint ℝ) (p : Vec ℝ) :
    1e-9 * (1 + (|k.a * p.x + k.b * p.y| + |k.c|)) ≤ k.slackAt p := by
  unfold slackAt
  linarith [abs_add_le (k.a * p.x) (k.b * p.y)]

theorem standard_slack_magnitudeAt (k : Constraint ℝ) (p : Vec ℝ) :
    Tolerance.standard.slack (k.magnitudeAt p) = k.slackAt p := by
  have hmagnitude : k.magnitudeAt p = |k.a * p.x| + |k.b * p.y| + |k.c| := rfl
  rw [Tolerance.standard_slack, hmagnitude, abs_of_nonneg (by positivity), slackAt]
  ring

theorem isSatisfied_iff_within : k.isSatisfied .standard p = true ↔ k.Within (k.slackAt p) p := by
  rw [← standard_slack_magnitudeAt]
  exact Tolerance.holds_iff_within

/-- The standard tolerance only ever allows more. -/
theorem isSatisfied_of_allows (h : k.Allows p) : k.isSatisfied .standard p = true :=
  isSatisfied_iff_within.mpr (h.within (k.slackAt_nonneg p))

/-! ## Crossings -/

/-- The size that a normal has as the row of a determinant. -/
noncomputable def rowSize (k : Constraint ℝ) : ℝ := max |k.a| |k.b|

theorem rowSize_nonneg (k : Constraint ℝ) : 0 ≤ k.rowSize := le_max_of_le_left (abs_nonneg _)

theorem rowSize_le_norm (k : Constraint ℝ) : k.rowSize ≤ k.normal.norm := by
  have hsq : k.normal.normSq = k.a * k.a + k.b * k.b := rfl
  refine max_le (Real.abs_le_sqrt ?_) (Real.abs_le_sqrt ?_) <;> rw [hsq, sq]
  · exact le_add_of_nonneg_right (mul_self_nonneg _)
  · exact le_add_of_nonneg_left (mul_self_nonneg _)

/-- The boundaries cross at an angle that the standard tolerance does not take for none. -/
def Crosses (k l : Constraint ℝ) : Prop :=
  1e-9 * (k.rowSize * l.rowSize) < |k.normal.cross l.normal|

theorem Crosses.cross_ne_zero (h : k.Crosses l) : k.normal.cross l.normal ≠ 0 :=
  abs_pos.mp ((mul_nonneg (by norm_num) (mul_nonneg k.rowSize_nonneg l.rowSize_nonneg)).trans_lt h)

theorem standard_crossing_eq_none : k.crossing l .standard = none ↔ ¬k.Crosses l := by
  constructor
  · intro h hx
    have hsome : k.crossing l .standard = some _ :=
      if_neg fun hs => absurd hx (not_lt.mpr (of_decide_eq_true hs))
    rw [h] at hsome
    cases hsome
  · exact fun h => if_pos (decide_eq_true (not_lt.mp h))

/-- A crossing that is found is the exact one. -/
theorem standard_crossing : k.crossing l .standard = some p ↔
    k.Crosses l ∧ k.OnBoundary p ∧ l.OnBoundary p := by
  by_cases hx : k.Crosses l
  · have hsame : k.crossing l .standard = k.crossing l .exact :=
      (if_neg fun hs => absurd hx (not_lt.mpr (of_decide_eq_true hs))).trans
        (if_neg fun h0 => hx.cross_ne_zero (Tolerance.exact_isSingular.mp h0)).symm
    rw [hsame, crossing_eq_some]
    exact and_congr_left fun _ => iff_of_true hx.cross_ne_zero hx
  · rw [standard_crossing_eq_none.mpr hx]
    exact iff_of_false nofun fun h => hx h.1

end Constraint

/-! ## Vertices -/

/-- **A vertex keeps to every constraint within the slack of the tolerance**, and within `1e-6`
where the numbers that are compared add up to less than a thousand. -/
theorem solve_vertices_within {limit : Nat} {set : ConstraintSet ℝ}
    (hsize : set.explicit.length ≤ limit) :
    ∃ r, (⟨.standard, limit⟩ : Solver ℝ).solve set = .ok r ∧
      ∀ v ∈ r.vertices, ∀ k ∈ set.constraints,
        k.Within (1e-9 * (1 + (|k.a * v.x| + |k.b * v.y| + |k.c|))) v.position ∧
        (|k.a * v.x| + |k.b * v.y| + |k.c| ≤ 999 → k.Within 1e-6 v.position) := by
  refine ⟨_, Solver.solve_of_size hsize, fun v hv k hk => ?_⟩
  rw [regionOf_vertices] at hv
  have hsat := List.all_eq_true.mp (allows_of_mem_corners hv) k hk
  have hwithin : k.Within (k.slackAt v.position) v.position :=
    Constraint.isSatisfied_iff_within.mp hsat
  refine ⟨hwithin, fun hsmall => hwithin.mono ?_⟩
  have hslack : k.slackAt v.position =
      1e-9 * (1 + (|k.a * v.x| + |k.b * v.y| + |k.c|)) := rfl
  rw [hslack]
  linarith

/-- Vertices of the unit triangle. -/
theorem solve_vertices_triangle : ∃ r, (⟨.standard, 50⟩ : Solver ℝ).solve
      (.of [⟨1, 1, 1, .le, "x + y <= 1"⟩] true) = .ok r ∧
    ∀ v ∈ r.vertices, ∀ k ∈ (ConstraintSet.of
        [(⟨1, 1, 1, .le, "x + y <= 1"⟩ : Constraint ℝ)] true).constraints,
      k.Within (1e-9 * (1 + (|k.a * v.x| + |k.b * v.y| + |k.c|))) v.position ∧
      (|k.a * v.x| + |k.b * v.y| + |k.c| ≤ 999 → k.Within 1e-6 v.position) :=
  solve_vertices_within (by decide)

/-- A square whose far corner is cut off by less than the slack there. -/
noncomputable def looseCorner : ConstraintSet ℝ :=
  .of [⟨1, 0, 1e6, .le, "x <= 1000000"⟩, ⟨0, 1, 1e6, .le, "y <= 1000000"⟩,
    ⟨1, 1, 1999999.998046875, .le, "x + y <= 1999999.998046875"⟩] false

/-- The corner is a vertex, although the cut leaves it more than `1e-6` outside. -/
theorem solve_looseCorner : ∃ r, (⟨.standard, 50⟩ : Solver ℝ).solve looseCorner = .ok r ∧
    ∃ v ∈ r.vertices, ∃ k ∈ looseCorner.constraints, ¬k.Within 1e-6 v.position := by
  refine ⟨_, Solver.solve_of_size (by decide), ?_⟩
  rw [regionOf_vertices, looseCorner, ConstraintSet.constraints_of_false]
  have hcross : (⟨1, 0, 1e6, .le, "x <= 1000000"⟩ : Constraint ℝ).crossing
      ⟨0, 1, 1e6, .le, "y <= 1000000"⟩ .standard = some ⟨1e6, 1e6⟩ := by
    refine Constraint.standard_crossing.mpr ⟨?_, ?_, ?_⟩ <;>
      norm_num [Constraint.Crosses, Constraint.rowSize, Constraint.normal, Vec.cross_eq,
        Constraint.OnBoundary]
  have hallows : allows .standard [⟨1, 0, 1e6, .le, "x <= 1000000"⟩,
      ⟨0, 1, 1e6, .le, "y <= 1000000"⟩,
      ⟨1, 1, 1999999.998046875, .le, "x + y <= 1999999.998046875"⟩]
      (⟨1e6, 1e6⟩ : Vec ℝ) = true := by
    simp only [allows, List.all_cons, List.all_nil, Bool.and_true, Bool.and_eq_true,
      Constraint.isSatisfied_iff_within]
    norm_num [Constraint.Within, Relation.HoldsWithin, Constraint.slackAt]
  obtain ⟨v, hv, hposition⟩ := exists_corner_of_crossing hcross hallows
  refine ⟨v, hv, _, List.mem_cons_of_mem _ (List.mem_cons_of_mem _ List.mem_cons_self), ?_⟩
  rw [hposition]
  norm_num [Constraint.Within, Relation.HoldsWithin]

end PlanarLP
