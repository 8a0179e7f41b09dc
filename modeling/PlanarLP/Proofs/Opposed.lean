import PlanarLP.Proofs.Conflicts
import PlanarLP.Proofs.Slack

/-! Two constraints at the standard tolerance. They are opposed when, along the unit normal of
the first, no value suits both and their ends lie further apart than the slack
(`areOpposed_iff`). The solver instead tries points, whose slack grows with the
coefficients as they are written, so the two tests differ by the length of the normals: two
constraints that are not opposed are allowed at a point it tries when the second normal is no
longer than a unit (`jointlyFeasible_pair`), and two that are opposed by a clear margin, with
normals no shorter than that, are allowed at none (`not_jointlyFeasible_pair`). -/

namespace PlanarLP

/-! ## Half-lines and points on a line -/

namespace Relation

variable {r s : Relation} {a b d x ε δ : ℝ}

/-- Where two of them share a value, the end of one of them is in the other. -/
theorem exists_common_iff : (∃ t, r.Holds t b ∧ s.Holds t d) ↔ s.Holds b d ∨ r.Holds d b := by
  constructor
  · rintro ⟨t, hr, hs⟩
    cases r <;> cases s <;> simp only [Holds] at hr hs ⊢ <;> grind
  · rintro (hs | hr)
    · exact ⟨b, Holds.refl r b, hs⟩
    · exact ⟨d, hr, Holds.refl s d⟩

/-- Where they share none, no value is nearer to both than their ends are to each other. -/
theorem ends_apart (hnone : ¬∃ t, r.Holds t b ∧ s.Holds t d) (hr : r.HoldsWithin ε x b)
    (hs : s.HoldsWithin δ x d) : |b - d| ≤ ε + δ := by
  rw [exists_common_iff, not_or] at hnone
  rw [abs_le]
  cases r <;> cases s <;> simp only [Holds, HoldsWithin, abs_le] at * <;> grind

/-- What holds of two multiples holds of the numbers themselves, within the same part. -/
theorem HoldsWithin.of_mul_left {t : ℝ} (ht : t ≠ 0)
    (h : r.HoldsWithin (|t| * ε) (t * a) (t * b)) :
    (if t < 0 then r.flip else r).HoldsWithin ε a b := by
  have hsize : |t * a - t * b| = |t| * |a - b| := by rw [← mul_sub, abs_mul]
  split
  · rename_i hneg
    cases r with
    | le =>
      have hle : t * a ≤ t * b + |t| * ε := h
      rw [abs_of_neg hneg] at hle
      exact (mul_le_mul_left_of_neg hneg).mp (by linarith : t * a ≤ t * (b - ε))
    | ge =>
      have hge : t * b - |t| * ε ≤ t * a := h
      rw [abs_of_neg hneg] at hge
      exact (mul_le_mul_left_of_neg hneg).mp (by linarith : t * (b + ε) ≤ t * a)
    | eq => exact le_of_mul_le_mul_left (hsize ▸ h) (abs_pos.mpr ht)
  · rename_i hnonneg
    have hpos : 0 < t := lt_of_le_of_ne (not_lt.mp hnonneg) ht.symm
    cases r with
    | le =>
      have hle : t * a ≤ t * b + |t| * ε := h
      rw [abs_of_pos hpos] at hle
      exact (mul_le_mul_iff_right₀ hpos).mp (by linarith : t * a ≤ t * (b + ε))
    | ge =>
      have hge : t * b - |t| * ε ≤ t * a := h
      rw [abs_of_pos hpos] at hge
      exact (mul_le_mul_iff_right₀ hpos).mp (by linarith : t * (b - ε) ≤ t * a)
    | eq => exact le_of_mul_le_mul_left (hsize ▸ h) (abs_pos.mpr ht)

end Relation

namespace Interval

variable {tol : Tolerance ℝ} {r s : Relation} {b d : ℝ}

/-- The values that stand in a relation to `b`. -/
def ofRelation (r : Relation) (b : ℝ) : Interval ℝ :=
  match r with
  | .le => ⟨none, some b⟩
  | .ge => ⟨some b, none⟩
  | .eq => ⟨some b, some b⟩

theorem isEmpty_some (lo hi : ℝ) : isEmpty tol ⟨some lo, some hi⟩ = true ↔
    tol.slack (max |lo| |hi|) < lo - hi := by
  have h : isEmpty tol ⟨some lo, some hi⟩ = !tol.holds lo .le hi (max |lo| |hi|) := rfl
  rw [h, Bool.not_eq_true', ← Bool.not_eq_true, Tolerance.holds_le, not_le]

theorem isEmpty_open {i : Interval ℝ} (h : i.lower = none ∨ i.upper = none) :
    i.isEmpty tol = false := by
  obtain ⟨_ | lo, _ | hi⟩ := i <;> simp_all [isEmpty]

/-- Two of them leave nothing when they share no value and their ends are further apart than
the slack. -/
theorem isEmpty_intersect (htol : ∀ m, 0 ≤ tol.slack m) :
    ((ofRelation r b).intersect (ofRelation s d)).isEmpty tol = true ↔
      (¬∃ t, r.Holds t b ∧ s.Holds t d) ∧ tol.slack (max |b| |d|) < |b - d| := by
  have hmax : ∀ a c : ℝ, Scalar.max a c = max a c := fun _ _ => rfl
  have hmin : ∀ a c : ℝ, Scalar.min a c = min a c := fun _ _ => rfl
  have hslack : ∀ m, ¬tol.slack m < 0 := fun m => (htol m).not_gt
  rw [Relation.exists_common_iff, not_or]
  rcases lt_trichotomy b d with h | rfl | h
  · have habs : |b - d| = d - b := by rw [abs_sub_comm, abs_of_pos (sub_pos.mpr h)]
    have hle : b ≤ tol.slack (max |b| |d|) + d := h.le.trans (le_add_of_nonneg_left (htol _))
    cases r <;> cases s <;>
      simp [ofRelation, intersect, Relation.Holds, isEmpty_some, isEmpty_open, hmax, hmin, hslack,
        habs, hle, h.le, h.ne, h.ne', h.not_ge, max_comm |d| |b|]
  · cases r <;> cases s <;>
      simp [ofRelation, intersect, Relation.Holds, isEmpty_some, isEmpty_open, hmax, hmin, hslack]
  · have habs : |b - d| = b - d := abs_of_pos (sub_pos.mpr h)
    have hle : d ≤ tol.slack (max |b| |d|) + b := h.le.trans (le_add_of_nonneg_left (htol _))
    cases r <;> cases s <;>
      simp [ofRelation, intersect, Relation.Holds, isEmpty_some, isEmpty_open, hmax, hmin, hslack,
        habs, hle, h.le, h.ne, h.ne', h.not_ge, max_comm |d| |b|]

end Interval

/-! ## Constraints along a line through the origin -/

namespace Constraint

variable {k l : Constraint ℝ} {u : Vec ℝ} {t ε : ℝ}

/-- Where the boundary meets the line of the multiples of `u`. -/
noncomputable def endAlong (k : Constraint ℝ) (u : Vec ℝ) : ℝ := k.c / k.normal.dot u

/-- The relation in which the multiples of `u` that are allowed stand to the end. -/
noncomputable def relationAlong (k : Constraint ℝ) (u : Vec ℝ) : Relation :=
  if k.normal.dot u < 0 then k.relation.flip else k.relation

theorem intervalAlong_eq (k : Constraint ℝ) (u : Vec ℝ) :
    k.intervalAlong u = .ofRelation (k.relationAlong u) (k.endAlong u) := by
  unfold intervalAlong
  change (match k.relationAlong u with | .le => _ | .ge => _ | .eq => _) = _
  cases k.relationAlong u <;> rfl

theorem lhs_smul (k : Constraint ℝ) (u : Vec ℝ) (t : ℝ) :
    k.a * (t • u).x + k.b * (t • u).y = k.normal.dot u * t :=
  (Vec.dot_smul k.normal u t).trans (mul_comm t _)

theorem dot_mul_endAlong (hu : k.normal.dot u ≠ 0) : k.normal.dot u * k.endAlong u = k.c :=
  mul_div_cancel₀ k.c hu

theorem allows_smul (hu : k.normal.dot u ≠ 0) :
    k.Allows (t • u) ↔ (k.relationAlong u).Holds t (k.endAlong u) := by
  rw [Allows, lhs_smul, Relation.holds_mul_left hu]
  rfl

/-- A multiple of `u` misses a constraint by no more than its distance from the end, scaled. -/
theorem within_smul (hu : k.normal.dot u ≠ 0) (ht : |t - k.endAlong u| ≤ ε) :
    k.Within (|k.normal.dot u| * ε) (t • u) := by
  refine Relation.Holds.within (Relation.Holds.refl k.relation k.c) ?_
  rw [lhs_smul, ← dot_mul_endAlong hu, ← mul_sub, abs_mul]
  exact mul_le_mul_of_nonneg_left ht (abs_nonneg _)

theorem holdsWithin_of_within_smul (hu : k.normal.dot u ≠ 0)
    (h : k.Within (|k.normal.dot u| * ε) (t • u)) :
    (k.relationAlong u).HoldsWithin ε t (k.endAlong u) := by
  rw [Within, lhs_smul, ← dot_mul_endAlong hu] at h
  exact h.of_mul_left hu

end Constraint

/-! ## Unit normals -/

namespace Vec

theorem dot_sq_add_cross_sq (u v : Vec ℝ) :
    u.dot v * u.dot v + u.cross v * u.cross v = u.dot u * v.dot v := by
  simp only [dot_eq, cross_eq]; ring

theorem abs_dot_le {u : Vec ℝ} (hu : u.dot u = 1) (v : Vec ℝ) : |v.dot u| ≤ v.norm := by
  refine Real.abs_le_sqrt ?_
  have hsum := dot_sq_add_cross_sq v u
  rw [hu, mul_one] at hsum
  rw [sq, normSq, ← hsum]
  exact le_add_of_nonneg_right (mul_self_nonneg _)

/-- Unit vectors that are not across each other in the least. -/
theorem dot_ne_zero_of_cross {u v : Vec ℝ} (hu : u.dot u = 1) (hv : v.dot v = 1)
    (h : |u.cross v| < 1) : u.dot v ≠ 0 := by
  intro hzero
  have hsum := dot_sq_add_cross_sq u v
  rw [hu, hv, hzero, mul_zero, zero_add, mul_one, ← abs_mul_abs_self] at hsum
  nlinarith [abs_nonneg (u.cross v)]

end Vec

namespace Constraint

variable {k l : Constraint ℝ} {u v : Vec ℝ}

section Along

/-! A constraint whose normal is a multiple `m` of a unit vector `u`. -/

variable {m t : ℝ}

theorem boundaryPoint_along (hu : u.dot u = 1) (hn : k.normal = m • u) (hm : m ≠ 0) :
    k.boundaryPoint = k.endAlong u • u := by
  have hdot : k.normal.dot u = m := by rw [hn, Vec.smul_dot, hu, mul_one]
  have hsq : k.normal.normSq = m * m := by
    rw [Vec.normSq, hn, Vec.dot_smul, Vec.smul_dot, hu, mul_one]
  rw [boundaryPoint, Vec.scale_eq, hsq, endAlong, hdot, hn, smul_smul]
  congr 1
  field_simp

/-- The slack at a multiple of `u` grows with the length of the normal. -/
theorem slackAt_along (hu : u.dot u = 1) (hn : k.normal = m • u) (hm : m ≠ 0) (t : ℝ) :
    k.slackAt (t • u) = 1e-9 * (1 + |m| * (|t| + |k.endAlong u|)) := by
  have hdot : k.normal.dot u = m := by rw [hn, Vec.smul_dot, hu, mul_one]
  have hc : k.c = m * k.endAlong u := by rw [← hdot, dot_mul_endAlong (hdot ▸ hm)]
  have ha : k.a = m * u.x := congrArg Vec.x hn
  have hb : k.b = m * u.y := congrArg Vec.y hn
  have hsum : |u.x| * |u.x| + |u.y| * |u.y| = 1 := by
    rw [abs_mul_abs_self, abs_mul_abs_self]
    exact hu
  rw [slackAt, hc, ha, hb, Vec.smul_x, Vec.smul_y]
  simp only [abs_mul]
  linear_combination 1e-9 * |m| * |t| * hsum

/-- A multiple of `u` that satisfies a constraint with a longer normal is that near to it. -/
theorem holdsWithin_along (hu : u.dot u = 1) (hn : k.normal = m • u) (hm : 1 ≤ |m|)
    (h : k.isSatisfied .standard (t • u) = true) :
    (k.relationAlong u).HoldsWithin (1e-9 * (1 + (|t| + |k.endAlong u|))) t (k.endAlong u) := by
  have hdot : k.normal.dot u = m := by rw [hn, Vec.smul_dot, hu, mul_one]
  have hm0 : m ≠ 0 := abs_pos.mp (zero_lt_one.trans_le hm)
  refine holdsWithin_of_within_smul (hdot ▸ hm0) ((isSatisfied_iff_within.mp h).mono ?_)
  rw [slackAt_along hu hn hm0, hdot]
  linarith

end Along

/-- `u` is the unit normal of a constraint that has one. -/
structure Faces (k : Constraint ℝ) (u : Vec ℝ) : Prop where
  proper : k.Proper
  normalize : k.normal.normalize = u

theorem Proper.faces (hk : k.Proper) : k.Faces k.normal.normalize := ⟨hk, rfl⟩

namespace Faces

theorem norm_pos (hk : k.Faces u) : 0 < k.normal.norm := Vec.norm_pos hk.proper.normal_ne_zero

theorem dot_self (hk : k.Faces u) : u.dot u = 1 :=
  hk.normalize ▸ Vec.dot_self_normalize hk.proper.normal_ne_zero

theorem normal_eq (hk : k.Faces u) : k.normal = k.normal.norm • u :=
  hk.normalize ▸ (Vec.norm_smul_normalize hk.proper.normal_ne_zero).symm

theorem dot_normal (hk : k.Faces u) (v : Vec ℝ) : k.normal.dot v = k.normal.norm * u.dot v := by
  rw [← Vec.smul_dot, ← hk.normal_eq]

theorem dot_unit (hk : k.Faces u) : k.normal.dot u = k.normal.norm := by
  rw [hk.dot_normal, hk.dot_self, mul_one]

theorem dot_unit_ne_zero (hk : k.Faces u) : k.normal.dot u ≠ 0 := hk.dot_unit ▸ hk.norm_pos.ne'

/-- Another normal that is nearly parallel is not across this one. -/
theorem dot_other_ne_zero (hk : k.Faces u) (hl : l.Faces v) (hpar : |u.cross v| < 1) :
    l.normal.dot u ≠ 0 := by
  rw [hl.dot_normal, Vec.dot_comm]
  exact mul_ne_zero hl.norm_pos.ne' (Vec.dot_ne_zero_of_cross hk.dot_self hl.dot_self hpar)

/-- The nearest point of the boundary stands at the end along the normal. -/
theorem boundaryPoint_eq (hk : k.Faces u) : k.boundaryPoint = k.endAlong u • u :=
  boundaryPoint_along hk.dot_self hk.normal_eq hk.norm_pos.ne'

/-- Boundaries whose crossing is passed over are nearly parallel. -/
theorem parallel_of_not_crosses (hk : k.Faces u) (hl : l.Faces v) (h : ¬k.Crosses l) :
    |u.cross v| ≤ 1e-9 := by
  have hsizes : k.rowSize * l.rowSize ≤ k.normal.norm * l.normal.norm :=
    mul_le_mul k.rowSize_le_norm l.rowSize_le_norm l.rowSize_nonneg hk.norm_pos.le
  have hcross : |k.normal.cross l.normal| ≤ 1e-9 * (k.normal.norm * l.normal.norm) :=
    (not_lt.mp h).trans (mul_le_mul_of_nonneg_left hsizes (by norm_num))
  rw [← hk.normalize, ← hl.normalize, Vec.cross_normalize, abs_mul, ← mul_inv, abs_inv,
    abs_of_pos (mul_pos hk.norm_pos hl.norm_pos), inv_mul_le_iff₀ (mul_pos hk.norm_pos hl.norm_pos),
    mul_comm _ (1e-9 : ℝ)]
  exact hcross

end Faces

end Constraint

/-! ## Opposed constraints -/

section Opposed

open Constraint

variable {tol : Tolerance ℝ} {k l : Constraint ℝ} {u v : Vec ℝ}

/-- Two constraints are opposed when their boundaries count as parallel, no value along the
first normal suits both, and the ends are further apart than the slack. -/
theorem areOpposed_iff (htol : ∀ m, 0 ≤ tol.slack m) (hdet : tol.determinant < 1)
    (hk : k.Faces u) (hl : l.Faces v) : areOpposed tol k l = true ↔
      |u.cross v| ≤ tol.determinant ∧ (¬∃ t : ℝ, k.Allows (t • u) ∧ l.Allows (t • u)) ∧
        tol.slack (max |k.endAlong u| |l.endAlong u|) < |k.endAlong u - l.endAlong u| := by
  have hsing : tol.isSingular (u.cross v) 1 = true ↔ |u.cross v| ≤ tol.determinant := by
    rw [← mul_one tol.determinant]
    exact decide_eq_true_iff
  unfold areOpposed
  rw [Bool.and_eq_true, hk.normalize, hl.normalize, hsing]
  refine and_congr_right fun hpar => ?_
  rw [intervalAlong_eq, intervalAlong_eq, Interval.isEmpty_intersect htol]
  simp only [allows_smul hk.dot_unit_ne_zero,
    allows_smul (hk.dot_other_ne_zero hl (hpar.trans_lt hdet))]

/-- Constraints that count as parallel and are not opposed share a value, or their ends are
within the slack of each other. -/
theorem common_or_near (hk : k.Faces u) (hl : l.Faces v) (hpar : |u.cross v| ≤ 1e-9)
    (hopp : areOpposed .standard k l = false) :
    (∃ t : ℝ, k.Allows (t • u) ∧ l.Allows (t • u)) ∨
      |k.endAlong u - l.endAlong u| ≤ 1e-9 * (1 + (|k.endAlong u| + |l.endAlong u|)) := by
  by_contra hno
  rw [not_or, not_le] at hno
  have hmax : max |k.endAlong u| |l.endAlong u| ≤ |k.endAlong u| + |l.endAlong u| :=
    max_le_add_of_nonneg (abs_nonneg _) (abs_nonneg _)
  have hslack : Tolerance.standard.slack (max |k.endAlong u| |l.endAlong u|) <
      |k.endAlong u - l.endAlong u| := by
    rw [Tolerance.standard_slack, abs_of_nonneg (le_max_of_le_left (abs_nonneg _))]
    linarith [hno.2]
  have hyes := (areOpposed_iff Tolerance.standard_slack_nonneg (by norm_num [Tolerance.standard])
    hk hl).mpr ⟨hpar, hno.1, hslack⟩
  rw [hopp] at hyes
  cases hyes

/-! ## Points that are tried -/

/-- The nearest point of a nearly parallel boundary stands almost where its end is along the
normal of the other constraint. -/
theorem lhs_boundaryPoint (hk : k.Faces u) (hl : l.Faces v) (hpar : |u.cross v| < 1) :
    k.a * l.boundaryPoint.x + k.b * l.boundaryPoint.y =
      u.dot v * u.dot v * (k.normal.dot u * l.endAlong u) := by
  have hcos := Vec.dot_ne_zero_of_cross hk.dot_self hl.dot_self hpar
  have hlpos := hl.norm_pos.ne'
  rw [hl.boundaryPoint_eq, lhs_smul, hk.dot_normal v, hk.dot_unit, endAlong, endAlong, hl.dot_unit,
    hl.dot_normal u, Vec.dot_comm v u]
  field_simp

/-- What holds at the end holds there too, within the slack. -/
theorem isSatisfied_boundaryPoint (hk : k.Faces u) (hl : l.Faces v) (hpar : |u.cross v| ≤ 1e-9)
    (h : k.Allows (l.endAlong u • u)) : k.isSatisfied .standard l.boundaryPoint = true := by
  have hcos := Vec.dot_sq_add_cross_sq u v
  rw [hk.dot_self, hl.dot_self, mul_one] at hcos
  have hpos := mul_self_nonneg (u.cross v)
  have hsin : u.cross v * u.cross v ≤ 1e-18 := by
    rw [← abs_mul_abs_self]
    nlinarith [abs_nonneg (u.cross v)]
  rw [Allows, lhs_smul] at h
  refine isSatisfied_iff_within.mpr (Relation.Holds.within h ?_)
  refine le_trans ?_ (k.le_slackAt _)
  rw [lhs_boundaryPoint hk hl (hpar.trans_lt (by norm_num)), eq_sub_of_add_eq hcos]
  generalize u.cross v * u.cross v = q at hpos hsin
  generalize k.normal.dot u * l.endAlong u = x
  have hmove : |(1 - q) * x - x| = q * |x| := by
    rw [sub_mul, one_mul, sub_sub_cancel_left, abs_neg, abs_mul, abs_of_nonneg hpos]
  have hkeep : |(1 - q) * x| = (1 - q) * |x| := by
    rw [abs_mul, abs_of_nonneg (by linarith)]
  rw [hmove, hkeep]
  linarith [mul_le_mul_of_nonneg_right hsin (abs_nonneg x), abs_nonneg x, abs_nonneg k.c]

/-- A short normal misses a boundary near its own by no more than the slack. -/
theorem isSatisfied_of_near (hk : k.Faces u) (hl : l.Faces v) (hpar : |u.cross v| ≤ 1e-9)
    (hshort : l.normal.norm ≤ 1)
    (h : |k.endAlong u - l.endAlong u| ≤ 1e-9 * (1 + (|k.endAlong u| + |l.endAlong u|))) :
    l.isSatisfied .standard k.boundaryPoint = true := by
  have hldot := hk.dot_other_ne_zero hl (hpar.trans_lt (by norm_num))
  have hone : |l.normal.dot u| ≤ 1 := (Vec.abs_dot_le hk.dot_self _).trans hshort
  rw [hk.boundaryPoint_eq]
  refine isSatisfied_iff_within.mpr ((within_smul hldot h).mono (le_trans ?_ (l.le_slackAt _)))
  rw [lhs_smul, ← dot_mul_endAlong hldot, abs_mul, abs_mul]
  linarith

/-- **Two constraints that are not opposed hold together** where the solver looks, if the second
is written with a normal no longer than a unit. -/
theorem jointlyFeasible_pair (hk : k.Proper) (hl : l.Proper) (hshort : l.normal.norm ≤ 1)
    (hopp : areOpposed .standard k l = false) : jointlyFeasible .standard [k, l] = true := by
  have hmem : ∀ {p : Vec ℝ}, p ∈ tried .standard [k, l] → k.isSatisfied .standard p = true →
      l.isSatisfied .standard p = true → jointlyFeasible .standard [k, l] = true :=
    fun hp hkp hlp => jointlyFeasible_of_tried hp (by simp [hkp, hlp])
  have hkb : k.boundaryPoint ∈ tried .standard [k, l] := by simp [tried, probes]
  have hlb : l.boundaryPoint ∈ tried .standard [k, l] := by simp [tried, probes]
  have hkk := isSatisfied_of_allows hk.boundaryPoint.allows
  have hll := isSatisfied_of_allows hl.boundaryPoint.allows
  cases hcross : k.crossing l .standard with
  | some p =>
    obtain ⟨-, hkp, hlp⟩ := standard_crossing.mp hcross
    exact hmem (by simp [tried, crossings, pairs, hcross])
      (isSatisfied_of_allows hkp.allows) (isSatisfied_of_allows hlp.allows)
  | none =>
    have hpar := hk.faces.parallel_of_not_crosses hl.faces (standard_crossing_eq_none.mp hcross)
    have hldot := hk.faces.dot_other_ne_zero hl.faces (hpar.trans_lt (by norm_num))
    rcases common_or_near hk.faces hl.faces hpar hopp with ⟨t, hkt, hlt⟩ | hnear
    · rw [allows_smul hk.faces.dot_unit_ne_zero] at hkt
      rw [allows_smul hldot] at hlt
      rcases Relation.exists_common_iff.mp ⟨t, hkt, hlt⟩ with hend | hend
      · rw [← allows_smul hldot, ← hk.faces.boundaryPoint_eq] at hend
        exact hmem hkb hkk (isSatisfied_of_allows hend)
      · rw [← allows_smul hk.faces.dot_unit_ne_zero] at hend
        exact hmem hlb (isSatisfied_boundaryPoint hk.faces hl.faces hpar hend) hll
    · exact hmem hkb hkk (isSatisfied_of_near hk.faces hl.faces hpar hshort hnear)

/-! ## Pairs that are opposed by a margin -/

/-- Parallel in earnest, and further apart than the slack of four comparisons. -/
noncomputable def Tolerance.wide : Tolerance ℝ := ⟨4e-9, 4e-9, 0⟩

theorem Tolerance.wide_slack {m : ℝ} (hm : 0 ≤ m) : wide.slack m = 4e-9 * (1 + m) := by
  have hslack : wide.slack m = 4e-9 + 4e-9 * |m| := rfl
  rw [hslack, abs_of_nonneg hm]
  ring

theorem Tolerance.wide_slack_nonneg (m : ℝ) : 0 ≤ wide.slack m :=
  add_nonneg (by norm_num [wide]) (mul_nonneg (by norm_num [wide]) (abs_nonneg m))

/-- A normal along the same line is a multiple of the unit normal. -/
theorem Constraint.Faces.exists_multiple (hk : k.Faces u) (hl : l.Faces v) (h : u.cross v = 0) :
    ∃ m : ℝ, |m| = l.normal.norm ∧ l.normal = m • u := by
  have hne : u ≠ 0 := by
    rintro rfl
    exact zero_ne_one ((Vec.dot_zero 0).symm.trans hk.dot_self)
  have hv := Vec.eq_smul_of_cross_eq_zero hne h
  rw [hk.dot_self, div_one] at hv
  have hsum := Vec.dot_sq_add_cross_sq u v
  rw [hk.dot_self, hl.dot_self, h, mul_zero, add_zero, mul_one] at hsum
  refine ⟨l.normal.norm * u.dot v, ?_, ?_⟩
  · rw [abs_mul, abs_of_pos hl.norm_pos]
    rcases mul_self_eq_one_iff.mp hsum with hone | hone <;> rw [hone] <;> simp
  · rw [← smul_smul, ← hv]
    exact hl.normal_eq

/-- Two constraints along `u` whose ends are that far apart are not both satisfied at a multiple
of `u` that is no further out than they are. -/
theorem not_allows_along {s m t M : ℝ} (hu : u.dot u = 1) (hk : k.normal = s • u) (hs : 1 ≤ |s|)
    (hl : l.normal = m • u) (hm : 1 ≤ |m|)
    (hnone : ¬∃ t, (k.relationAlong u).Holds t (k.endAlong u) ∧
      (l.relationAlong u).Holds t (l.endAlong u))
    (hkM : |k.endAlong u| ≤ M) (hlM : |l.endAlong u| ≤ M) (ht : |t| ≤ M)
    (hgap : 4e-9 * (1 + M) < |k.endAlong u - l.endAlong u|) :
    allows .standard [k, l] (t • u) = false := by
  refine Bool.eq_false_iff.mpr fun hall => ?_
  simp only [allows, List.all_cons, List.all_nil, Bool.and_true, Bool.and_eq_true] at hall
  have hnear := Relation.ends_apart hnone (holdsWithin_along hu hk hs hall.1)
    (holdsWithin_along hu hl hm hall.2)
  linarith

/-- **Two constraints that are opposed by a margin hold together nowhere** that the solver
looks, if neither is written with a normal shorter than a unit. -/
theorem not_jointlyFeasible_pair (hk : k.Proper) (hl : l.Proper) (hkn : 1 ≤ k.normal.norm)
    (hln : 1 ≤ l.normal.norm) (hopp : areOpposed .wide k l = true) :
    jointlyFeasible .standard [k, l] = false := by
  obtain ⟨u, hku⟩ : ∃ u, k.Faces u := ⟨_, hk.faces⟩
  obtain ⟨v, hlv⟩ : ∃ v, l.Faces v := ⟨_, hl.faces⟩
  obtain ⟨hpar, hnone, hgap⟩ := (areOpposed_iff Tolerance.wide_slack_nonneg
    (by norm_num [Tolerance.wide]) hku hlv).mp hopp
  -- both normals are multiples of `u`, so all points that are tried are, too
  obtain ⟨m, hm, hlm⟩ := hku.exists_multiple hlv (abs_nonpos_iff.mp hpar)
  have hm1 : 1 ≤ |m| := hm ▸ hln
  have hm0 : m ≠ 0 := abs_pos.mp (zero_lt_one.trans_le hm1)
  have hk1 : 1 ≤ |k.normal.norm| := by rwa [abs_of_pos hku.norm_pos]
  have hlu : l.normal.dot u ≠ 0 := by rwa [hlm, Vec.smul_dot, hku.dot_self, mul_one]
  simp only [allows_smul hku.dot_unit_ne_zero, allows_smul hlu] at hnone
  obtain ⟨M, hM⟩ : ∃ M, M = max |k.endAlong u| |l.endAlong u| := ⟨_, rfl⟩
  have hkM : |k.endAlong u| ≤ M := hM ▸ le_max_left _ _
  have hlM : |l.endAlong u| ≤ M := hM ▸ le_max_right _ _
  have hM0 : 0 ≤ M := (abs_nonneg _).trans hkM
  rw [← hM, Tolerance.wide_slack hM0] at hgap
  have hmiss : ∀ t : ℝ, |t| ≤ M → allows .standard [k, l] (t • u) = false := fun t ht =>
    not_allows_along hku.dot_self hku.normal_eq hk1 hlm hm1 hnone hkM hlM ht hgap
  have hcrossing : k.crossing l .standard = none := by
    refine standard_crossing_eq_none.mpr fun hx => hx.cross_ne_zero ?_
    rw [hku.normal_eq, hlm, Vec.cross_eq]
    simp only [Vec.smul_x, Vec.smul_y]
    ring
  have horigin : (Vec.origin : Vec ℝ) = (0 : ℝ) • u := (zero_smul ℝ u).symm
  rw [jointlyFeasible_eq_false]
  simp only [tried, probes, crossings, pairs, List.map_cons, List.map_nil, List.append_nil,
    List.filterMap_cons, hcrossing, List.filterMap_nil, List.forall_mem_cons, List.not_mem_nil,
    false_imp_iff, implies_true, and_true]
  refine ⟨?_, ?_, ?_⟩
  · rw [horigin]
    exact hmiss 0 (abs_zero.trans_le hM0)
  · rw [hku.boundaryPoint_eq]
    exact hmiss _ hkM
  · rw [boundaryPoint_along hku.dot_self hlm hm0]
    exact hmiss _ hlM

end Opposed

end PlanarLP
