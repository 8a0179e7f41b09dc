import PlanarLP.Proofs.Recession
import PlanarLP.Proofs.Slack

/-! How far outside the first quadrant a region may reach when its bounds are added by
default. A bound that is added holds within its slack. A bound that a given constraint stands
for holds only as well as that constraint does (`bound_of_equivalent`): equivalence compares
unit normals up to a tolerance, so the boundary may drift from the axis, the more the further
away a point is. `solve_quadrant` says this of every vertex and witness, and `solve_tilt` is a
region that does leave the quadrant. -/

namespace PlanarLP

variable {k : Constraint ℝ} {p : Vec ℝ} {tol : Tolerance ℝ}

theorem Vec.abs_le_one {v : Vec ℝ} (h : v.dot v = 1) : |v.x| ≤ 1 ∧ |v.y| ≤ 1 := by
  rw [dot_eq] at h
  constructor <;> refine abs_le_one_iff_mul_self_le_one.mpr ?_
  · linarith [mul_self_nonneg v.y]
  · linarith [mul_self_nonneg v.x]

theorem Vec.dot_self_right : (⟨1, 0⟩ : Vec ℝ).dot ⟨1, 0⟩ = 1 := by simp [dot_eq]

theorem Vec.dot_self_up : (⟨0, 1⟩ : Vec ℝ).dot ⟨0, 1⟩ = 1 := by simp [dot_eq]

namespace Constraint

/-- What the canonical form of an inequality is. -/
theorem canonical_le {m : Vec ℝ} {d : ℝ} (h : k.canonical tol = (m, d, .le)) :
    ∃ s : ℝ, |s| = 1 ∧ m = s • k.normal.normalize ∧ d = s * (k.c / k.normal.norm) ∧
      ∀ p, k.isSatisfied tol p = true → s * (k.lhs p - k.c) ≤ tol.slack (k.magnitudeAt p) := by
  unfold canonical at h
  cases hr : k.relation <;> simp only [hr] at h
  case le =>
    obtain ⟨rfl, hrest⟩ := Prod.mk.inj h
    obtain ⟨rfl, -⟩ := Prod.mk.inj hrest
    refine ⟨1, abs_one, (one_smul _ _).symm, (one_mul _).symm, fun p hp => ?_⟩
    rw [isSatisfied, hr, Tolerance.holds_le] at hp
    rwa [one_mul]
  case ge =>
    obtain ⟨rfl, hrest⟩ := Prod.mk.inj h
    obtain ⟨rfl, -⟩ := Prod.mk.inj hrest
    refine ⟨-1, by norm_num, (neg_one_smul _ _).symm, (neg_one_mul _).symm, fun p hp => ?_⟩
    rw [isSatisfied, hr, Tolerance.holds_ge] at hp
    rw [neg_one_mul]
    exact neg_le.mp hp
  case eq => split at h <;> simp at h

theorem abs_magnitudeAt (k : Constraint ℝ) (p : Vec ℝ) :
    |k.magnitudeAt p| = |k.a| * |p.x| + |k.b| * |p.y| + |k.c| := by
  have hsum : k.magnitudeAt p = |k.a * p.x| + |k.b * p.y| + |k.c| := rfl
  rw [abs_of_nonneg (hsum ▸ by positivity), hsum, abs_mul, abs_mul]

/-- The slack of a satisfied inequality, once its normal is scaled to a unit vector. -/
theorem canonical_dot_le {m : Vec ℝ} {d : ℝ} (h : k.canonical .standard = (m, d, .le))
    (hk : k.normal ≠ 0) (hp : k.isSatisfied .standard p = true) :
    m.dot p - d ≤ 1e-9 / k.normal.norm + 1e-9 * (|m.x| * |p.x| + |m.y| * |p.y| + |d|) := by
  obtain ⟨s, hs, rfl, rfl, hslack⟩ := canonical_le h
  have hsat := hslack p hp
  rw [Tolerance.standard_slack, abs_magnitudeAt] at hsat
  generalize hN : k.normal.norm = N at *
  have hpos : 0 < N := hN ▸ Vec.norm_pos hk
  have hscaled : ∀ c : ℝ, |s * (c / N)| = |c| / N := fun c => by
    rw [abs_mul, hs, one_mul, abs_div, abs_of_pos hpos]
  have hx : (s • k.normal.normalize).x = s * (k.a / N) := by rw [← hN]; rfl
  have hy : (s • k.normal.normalize).y = s * (k.b / N) := by rw [← hN]; rfl
  have hlhs : k.lhs p = k.a * p.x + k.b * p.y := rfl
  rw [Vec.dot_eq, hx, hy, hscaled, hscaled, hscaled]
  calc s * (k.a / N) * p.x + s * (k.b / N) * p.y - s * (k.c / N)
      = s * (k.lhs p - k.c) / N := by rw [hlhs]; ring
    _ ≤ (1e-9 + 1e-9 * (|k.a| * |p.x| + |k.b| * |p.y| + |k.c|)) / N :=
      div_le_div_of_nonneg_right hsat hpos.le
    _ = 1e-9 / N + 1e-9 * (|k.a| / N * |p.x| + |k.b| / N * |p.y| + |k.c| / N) := by ring

/-- The bound `e.x * x + e.y * y >= 0`. -/
def bound (e : Vec ℝ) (source : String) : Constraint ℝ := ⟨e.x, e.y, 0, .ge, source⟩

theorem canonical_bound {e : Vec ℝ} {source : String} (he : e.dot e = 1) :
    (bound e source).canonical tol = (-e, 0, .le) := by
  have hnormal : (bound e source).normal = e := rfl
  have hcanonical : (bound e source).canonical tol = (-(bound e source).normal.divide
      (bound e source).normal.norm, -(0 / (bound e source).normal.norm), .le) := rfl
  have hnorm : e.norm = 1 := Real.sqrt_eq_one.mpr he
  rw [hcanonical, hnormal, hnorm, Vec.divide_eq, inv_one, one_smul, zero_div, neg_zero]

theorem bound_isSatisfied {e : Vec ℝ} {source : String} :
    (bound e source).isSatisfied .standard p = true ↔
      -Tolerance.standard.slack (|e.x| * |p.x| + |e.y| * |p.y|) ≤ e.dot p := by
  have hholds : (bound e source).isSatisfied .standard p = true ↔
      -Tolerance.standard.slack ((bound e source).magnitudeAt p) ≤ e.dot p - 0 :=
    Tolerance.holds_ge _ _ _ _
  have hmagnitude : |(bound e source).magnitudeAt p| = |e.x| * |p.x| + |e.y| * |p.y| := by
    rw [abs_magnitudeAt, bound, abs_zero, add_zero]
  rw [hholds, sub_zero, Tolerance.standard_slack, Tolerance.standard_slack, ← hmagnitude, abs_abs]

/-- What equivalence with a bound says of a constraint. -/
theorem isEquivalent_bound {e : Vec ℝ} {source : String} (he : e.dot e = 1) :
    k.isEquivalent (bound e source) .standard = true ↔
      ∃ m d, k.canonical .standard = (m, d, .le) ∧
        |m.x + e.x| ≤ 1e-9 + 1e-9 * max |m.x| |e.x| ∧
        |m.y + e.y| ≤ 1e-9 + 1e-9 * max |m.y| |e.y| ∧ |d| ≤ 1e-9 + 1e-9 * |d| := by
  have hmax : ∀ d : ℝ, max |d| 0 = |d| := fun d => max_eq_left (abs_nonneg d)
  unfold isEquivalent
  rw [canonical_bound he]
  simp only [Bool.and_eq_true, beq_iff_eq, Tolerance.standard_approxEq, Vec.neg_x, Vec.neg_y,
    sub_neg_eq_add, abs_neg, sub_zero, abs_zero, hmax]
  constructor
  · rintro ⟨⟨⟨hr, hx⟩, hy⟩, hd⟩
    exact ⟨_, _, Prod.ext rfl (Prod.ext rfl hr), hx, hy, hd⟩
  · rintro ⟨m, d, hcan, hx, hy, hd⟩
    rw [hcan]
    exact ⟨⟨⟨rfl, hx⟩, hy⟩, hd⟩

/-- How far outside a bound a point may be that satisfies a constraint equivalent to it. -/
noncomputable def drift (k : Constraint ℝ) (p : Vec ℝ) : ℝ :=
  1e-9 / k.normal.norm + 3e-9 * (1 + |p.x| + |p.y|)

theorem unit_canonical {m : Vec ℝ} {d : ℝ} (h : k.canonical tol = (m, d, .le))
    (hk : k.normal ≠ 0) : m.dot m = 1 := by
  obtain ⟨s, hs, rfl, -, -⟩ := canonical_le h
  have hsq : s * s = 1 := by rw [← abs_mul_abs_self, hs, one_mul]
  rw [Vec.smul_dot, Vec.dot_smul, Vec.dot_self_normalize hk, mul_one, hsq]

/-- No bound is equivalent to a constraint without variables. -/
theorem normal_ne_zero_of_equivalent {e : Vec ℝ} {source : String} (he : e.dot e = 1)
    (h : k.isEquivalent (bound e source) .standard = true) : k.normal ≠ 0 := by
  intro hk
  obtain ⟨m, d, hcan, hx, hy, -⟩ := (isEquivalent_bound he).mp h
  obtain ⟨s, -, rfl, -, -⟩ := canonical_le hcan
  rw [hk, Vec.normalize_eq, smul_zero, smul_zero] at hx hy
  rw [Vec.zero_x, zero_add, abs_zero, max_eq_right (abs_nonneg _)] at hx
  rw [Vec.zero_y, zero_add, abs_zero, max_eq_right (abs_nonneg _)] at hy
  have hex : |e.x| ≤ 1 / 2 := by linarith
  have hey : |e.y| ≤ 1 / 2 := by linarith
  rw [Vec.dot_eq, ← abs_mul_abs_self e.x, ← abs_mul_abs_self e.y] at he
  nlinarith [abs_nonneg e.x, abs_nonneg e.y]

/-- A constraint that stands for a bound keeps to it up to a drift. -/
theorem bound_of_equivalent {e : Vec ℝ} {source : String} (he : e.dot e = 1)
    (h : k.isEquivalent (bound e source) .standard = true)
    (hp : k.isSatisfied .standard p = true) : -k.drift p ≤ e.dot p := by
  have hk := normal_ne_zero_of_equivalent he h
  obtain ⟨m, d, hcan, hx, hy, hd⟩ := (isEquivalent_bound he).mp h
  have hdot := canonical_dot_le hcan hk hp
  obtain ⟨hex, hey⟩ := Vec.abs_le_one he
  obtain ⟨hmx, hmy⟩ := Vec.abs_le_one (unit_canonical hcan hk)
  have hdx : |(m.x + e.x) * p.x| ≤ 2e-9 * |p.x| := by
    rw [abs_mul]
    refine mul_le_mul_of_nonneg_right ?_ (abs_nonneg _)
    linarith [max_le hmx hex]
  have hdy : |(m.y + e.y) * p.y| ≤ 2e-9 * |p.y| := by
    rw [abs_mul]
    refine mul_le_mul_of_nonneg_right ?_ (abs_nonneg _)
    linarith [max_le hmy hey]
  have hpx : |m.x| * |p.x| ≤ |p.x| := mul_le_of_le_one_left (abs_nonneg _) hmx
  have hpy : |m.y| * |p.y| ≤ |p.y| := mul_le_of_le_one_left (abs_nonneg _) hmy
  have hsplit : e.dot p = (m.x + e.x) * p.x + (m.y + e.y) * p.y - m.dot p := by
    rw [Vec.dot_eq, Vec.dot_eq]; ring
  rw [hsplit, drift]
  linarith [neg_le_of_abs_le hdx, neg_le_of_abs_le hdy, le_abs_self d]

end Constraint

/-! ## Regions with the default bounds -/

variable {given : List (Constraint ℝ)}

/-- A default bound holds within its slack, or a given constraint stands for it. -/
theorem near_bound {e : Vec ℝ} {source : String} (he : e.dot e = 1)
    (hb : Constraint.bound e source ∈ [Constraint.xNonnegative, Constraint.yNonnegative])
    (hp : allows .standard (ConstraintSet.of given true).constraints p = true) :
    -Tolerance.standard.slack (|e.x| * |p.x| + |e.y| * |p.y|) ≤ e.dot p ∨
      ∃ k ∈ given, k.isEquivalent (.bound e source) .standard = true ∧ -k.drift p ≤ e.dot p := by
  rw [allows, List.all_eq_true] at hp
  by_cases h : (given.any fun k => k.isEquivalent (.bound e source) Tolerance.standard) = true
  · obtain ⟨k, hk, hequiv⟩ := List.any_eq_true.mp h
    have hsat := hp k (List.mem_append_left _ hk)
    exact .inr ⟨k, hk, hequiv, Constraint.bound_of_equivalent he hequiv hsat⟩
  · have hnone : (!given.any fun k =>
        k.isEquivalent (.bound e source) Tolerance.standard) = true := by
      rw [Bool.eq_false_iff.mpr h]
      rfl
    have hmissing : .bound e source ∈ ConstraintSet.missingBounds given :=
      List.mem_filter.mpr ⟨hb, hnone⟩
    have hsat := hp _ (List.mem_append_right given hmissing)
    exact .inl (Constraint.bound_isSatisfied.mp hsat)

/-- **With the default bounds every point of a region is in the first quadrant**, up to the
slack of a bound that was added and up to the drift of a given constraint that is equivalent
to one. -/
theorem solve_quadrant {limit : Nat} (hsize : given.length ≤ limit) :
    ∃ r, (⟨.standard, limit⟩ : Solver ℝ).solve (.of given true) = .ok r ∧
      ∀ v ∈ r.vertices ++ r.witnesses,
        (-Tolerance.standard.slack v.x ≤ v.x ∨ ∃ k ∈ given,
          k.isEquivalent .xNonnegative .standard = true ∧ -k.drift v.position ≤ v.x) ∧
        (-Tolerance.standard.slack v.y ≤ v.y ∨ ∃ k ∈ given,
          k.isEquivalent .yNonnegative .standard = true ∧ -k.drift v.position ≤ v.y) := by
  refine ⟨_, Solver.solve_of_size hsize, fun v hv => ?_⟩
  have hallows := allows_of_mem_regionOf hv
  constructor
  · have hx := @near_bound v.position given ⟨1, 0⟩ "x >= 0" Vec.dot_self_right
      List.mem_cons_self hallows
    have hdot : (⟨1, 0⟩ : Vec ℝ).dot v.position = v.x := by simp [Vec.dot_eq, Vertex.position]
    have hslack : Tolerance.standard.slack (|1| * |v.x| + |0| * |v.y|) =
        Tolerance.standard.slack v.x := by simp [Tolerance.standard_slack]
    rw [hdot] at hx
    exact hslack ▸ hx
  · have hy := @near_bound v.position given ⟨0, 1⟩ "y >= 0" Vec.dot_self_up
      (List.mem_cons_of_mem _ List.mem_cons_self) hallows
    have hdot : (⟨0, 1⟩ : Vec ℝ).dot v.position = v.y := by simp [Vec.dot_eq, Vertex.position]
    have hslack : Tolerance.standard.slack (|0| * |v.x| + |1| * |v.y|) =
        Tolerance.standard.slack v.y := by simp [Tolerance.standard_slack]
    rw [hdot] at hy
    exact hslack ▸ hy

theorem solve_quadrant_triangle : ∃ r, (⟨.standard, 50⟩ : Solver ℝ).solve
      (.of [⟨1, 1, 1, .le, "x + y <= 1"⟩] true) = .ok r ∧
    ∀ v ∈ r.vertices ++ r.witnesses,
      (-Tolerance.standard.slack v.x ≤ v.x ∨
        ∃ k ∈ [(⟨1, 1, 1, .le, "x + y <= 1"⟩ : Constraint ℝ)],
          k.isEquivalent .xNonnegative .standard = true ∧ -k.drift v.position ≤ v.x) ∧
      (-Tolerance.standard.slack v.y ≤ v.y ∨
        ∃ k ∈ [(⟨1, 1, 1, .le, "x + y <= 1"⟩ : Constraint ℝ)],
          k.isEquivalent .yNonnegative .standard = true ∧ -k.drift v.position ≤ v.y) :=
  solve_quadrant (by decide)

/-! ## A region that drifts -/

/-- Equivalent to `x >= 0`, although its boundary is not the axis. -/
noncomputable def tilt : Constraint ℝ := ⟨1, 1e-9, 0, .ge, "x + 0.000000001y >= 0"⟩

noncomputable def ceiling : Constraint ℝ := ⟨0, 1, 1e10, .le, "y <= 10000000000"⟩

theorem tilt_inv_norm : 1 - 1e-9 ≤ 1 / tilt.normal.norm ∧ 1 / tilt.normal.norm ≤ 1 := by
  have hsqrt : tilt.normal.norm = √(1 * 1 + 1e-9 * 1e-9) := rfl
  have hlow : 1 ≤ tilt.normal.norm := hsqrt ▸ Real.one_le_sqrt.mpr (by norm_num)
  have hhigh : tilt.normal.norm ≤ 1 + 1e-9 := hsqrt ▸ Real.sqrt_le_iff.mpr (by norm_num)
  have hpos : 0 < tilt.normal.norm := by linarith
  refine ⟨(le_div_iff₀ hpos).mpr ?_, (div_le_one hpos).mpr hlow⟩
  nlinarith

theorem tilt_isEquivalent : tilt.isEquivalent .xNonnegative .standard = true := by
  obtain ⟨hlow, hhigh⟩ := tilt_inv_norm
  refine (@Constraint.isEquivalent_bound tilt _ "x >= 0" Vec.dot_self_right).mpr
    ⟨_, _, rfl, ?_, ?_, ?_⟩
  · show |-(1 / tilt.normal.norm) + 1| ≤ 1e-9 + 1e-9 * max _ _
    refine le_trans (abs_le.mpr ⟨?_, ?_⟩) (le_add_of_nonneg_right (by positivity)) <;> linarith
  · show |-(1e-9 / tilt.normal.norm) + 0| ≤ 1e-9 + 1e-9 * max _ _
    rw [div_eq_mul_one_div]
    refine le_trans (abs_le.mpr ⟨?_, ?_⟩) (le_add_of_nonneg_right (by positivity)) <;> linarith
  · show |-(0 / tilt.normal.norm)| ≤ _
    rw [zero_div, neg_zero, abs_zero]
    positivity

theorem tilt_not_isEquivalent : tilt.isEquivalent .yNonnegative .standard = false := by
  obtain ⟨hlow, hhigh⟩ := tilt_inv_norm
  refine Bool.eq_false_iff.mpr fun h => ?_
  obtain ⟨m, d, hcan, hx, -, -⟩ :=
    (@Constraint.isEquivalent_bound tilt _ "y >= 0" Vec.dot_self_up).mp h
  cases hcan
  change |-(1 / tilt.normal.norm) + 0| ≤ 1e-9 + 1e-9 * max |-(1 / tilt.normal.norm)| |0| at hx
  rw [add_zero, abs_neg, abs_zero, max_eq_left (abs_nonneg _), abs_of_nonneg (by linarith)] at hx
  linarith

theorem ceiling_not_isEquivalent : ceiling.isEquivalent .yNonnegative .standard = false := by
  have hpos : 0 ≤ 1 / ceiling.normal.norm := one_div_nonneg.mpr (Real.sqrt_nonneg _)
  refine Bool.eq_false_iff.mpr fun h => ?_
  obtain ⟨m, d, hcan, -, hy, -⟩ :=
    (@Constraint.isEquivalent_bound ceiling _ "y >= 0" Vec.dot_self_up).mp h
  cases hcan
  change |1 / ceiling.normal.norm + 1| ≤ 1e-9 + 1e-9 * max |1 / ceiling.normal.norm| |1| at hy
  rw [abs_of_nonneg (by linarith), abs_of_nonneg hpos, abs_one] at hy
  linarith [max_le (le_add_of_nonneg_right zero_le_one) (le_add_of_nonneg_left hpos)]

theorem tilt_missingBounds : ConstraintSet.missingBounds [tilt, ceiling] = [.yNonnegative] := by
  simp [ConstraintSet.missingBounds, tilt_isEquivalent, tilt_not_isEquivalent,
    ceiling_not_isEquivalent]

theorem tilt_crossing : tilt.crossing ceiling .standard = some ⟨-10, 1e10⟩ := by
  refine Constraint.standard_crossing.mpr ⟨?_, ?_, ?_⟩ <;>
    norm_num [Constraint.Crosses, Constraint.rowSize, Constraint.normal, Vec.cross_eq,
      Constraint.OnBoundary, tilt, ceiling]

/-- The crossing of the two boundaries lies ten units to the left of the axis. -/
theorem solve_tilt : ∃ r, (⟨.standard, 50⟩ : Solver ℝ).solve (.of [tilt, ceiling] true) = .ok r ∧
    ∃ v ∈ r.vertices, ¬-Tolerance.standard.slack v.x ≤ v.x := by
  refine ⟨_, Solver.solve_of_size (by decide), ?_⟩
  have hset : (ConstraintSet.of [tilt, ceiling] true).constraints =
      [tilt, ceiling, .yNonnegative] := congrArg ([tilt, ceiling] ++ ·) tilt_missingBounds
  have htilt : tilt.Allows ⟨-10, 1e10⟩ :=
    show (0 : ℝ) ≤ 1 * -10 + 1e-9 * 1e10 by norm_num
  have hceiling : ceiling.Allows ⟨-10, 1e10⟩ :=
    show (0 : ℝ) * -10 + 1 * 1e10 ≤ 1e10 by norm_num
  have hbound : Constraint.yNonnegative.Allows ⟨-10, 1e10⟩ :=
    show (0 : ℝ) ≤ 0 * -10 + 1 * 1e10 by norm_num
  have hallows : allows .standard [tilt, ceiling, .yNonnegative] (⟨-10, 1e10⟩ : Vec ℝ) = true := by
    simp only [allows, List.all_cons, List.all_nil, Constraint.isSatisfied_of_allows htilt,
      Constraint.isSatisfied_of_allows hceiling, Constraint.isSatisfied_of_allows hbound,
      Bool.and_true]
  obtain ⟨v, hv, hposition⟩ := exists_corner_of_crossing tilt_crossing hallows
  have hx : v.x = -10 := congrArg Vec.x hposition
  rw [hset]
  refine ⟨v, regionOf_vertices _ _ ▸ hv, ?_⟩
  rw [hx, Tolerance.standard_slack]
  norm_num

end PlanarLP
