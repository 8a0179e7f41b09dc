import Mathlib.Analysis.SpecialFunctions.Complex.Arg
import PlanarLP.Tolerance

/-! Exact arithmetic: the real numbers as a scalar, and the tolerance that leaves no slack.
Under it every check of the solver says what it is meant to say, so statements about the
geometry of a region can be read without error terms. -/

namespace PlanarLP

/-- The real numbers. No value is infinite, and labels are left blank: they play no part in
what is computed. -/
noncomputable instance : Scalar ℝ where
  beq a b := decide (a = b)
  decLe := inferInstance
  decLt := inferInstance
  abs a := |a|
  sqrt := Real.sqrt
  max := Max.max
  min := Min.min
  atan2 y x := Complex.arg ⟨x, y⟩
  isFinite _ := true
  infinity := none
  order := cmp
  text _ := ""

/-- What a relation asks of its two sides. -/
def Relation.Holds : Relation → ℝ → ℝ → Prop
  | .le, a, b => a ≤ b
  | .ge, a, b => b ≤ a
  | .eq, a, b => a = b

namespace Tolerance

noncomputable def exact : Tolerance ℝ := ⟨0, 0, 0⟩

@[simp] theorem exact_slack (m : ℝ) : exact.slack m = 0 :=
  show (0 : ℝ) + 0 * |m| = 0 by simp

theorem exact_holds {r : Relation} {a b m : ℝ} :
    exact.holds a r b m = true ↔ r.Holds a b := by
  cases r with
  | le => rw [holds_le, exact_slack]; exact sub_nonpos
  | ge => rw [holds_ge, exact_slack, neg_zero]; exact sub_nonneg
  | eq =>
    rw [holds_eq, exact_slack]
    exact abs_nonpos_iff.trans sub_eq_zero

theorem exact_approxEq {a b : ℝ} : exact.approxEq a b = true ↔ a = b := exact_holds

theorem exact_isSingular {det scale : ℝ} : exact.isSingular det scale = true ↔ det = 0 := by
  have h : exact.isSingular det scale = true ↔ |det| ≤ 0 * scale := decide_eq_true_iff
  rw [h, zero_mul, abs_nonpos_iff]

theorem exact_samePoint {p q : Vec ℝ} : exact.samePoint p q = true ↔ p = q := by
  cases p; cases q
  rw [samePoint, Bool.and_eq_true, exact_approxEq, exact_approxEq, Vec.mk.injEq]

theorem approxEq_iff {tol : Tolerance ℝ} {a b : ℝ} :
    tol.approxEq a b = true ↔ |a - b| ≤ tol.slack (max |a| |b|) := holds_eq ..

theorem approxEq_comm (tol : Tolerance ℝ) (a b : ℝ) : tol.approxEq a b = tol.approxEq b a := by
  rw [Bool.eq_iff_iff, approxEq_iff, approxEq_iff, abs_sub_comm, max_comm]

theorem samePoint_comm (tol : Tolerance ℝ) (p q : Vec ℝ) :
    tol.samePoint p q = tol.samePoint q p := by
  rw [samePoint, samePoint, approxEq_comm tol p.x, approxEq_comm tol p.y]

theorem slack_nonneg {tol : Tolerance ℝ} (habsolute : 0 ≤ tol.absolute)
    (hrelative : 0 ≤ tol.relative) (m : ℝ) : 0 ≤ tol.slack m :=
  add_nonneg habsolute (mul_nonneg hrelative (abs_nonneg m))

theorem approxEq_self {tol : Tolerance ℝ} (htol : ∀ m, 0 ≤ tol.slack m) (a : ℝ) :
    tol.approxEq a a = true := by
  rw [approxEq_iff, sub_self, abs_zero]
  exact htol _

theorem samePoint_self {tol : Tolerance ℝ} (htol : ∀ m, 0 ≤ tol.slack m) (p : Vec ℝ) :
    tol.samePoint p p = true := by
  rw [samePoint, approxEq_self htol, approxEq_self htol]
  rfl

theorem isZero_iff {tol : Tolerance ℝ} {v : ℝ} : tol.isZero v = true ↔ |v| ≤ tol.absolute := by
  have hslack : tol.slack 0 = tol.absolute := by
    show tol.absolute + tol.relative * |(0 : ℝ)| = tol.absolute
    rw [abs_zero, mul_zero, add_zero]
  rw [isZero, holds_eq, hslack, sub_zero]
  exact Iff.rfl

/-! The standard tolerance over the reals. -/

theorem standard_slack (m : ℝ) : standard.slack m = 1e-9 + 1e-9 * |m| := rfl

theorem standard_isZero {v : ℝ} : standard.isZero v = true ↔ |v| ≤ 1e-9 := isZero_iff

theorem standard_approxEq {a b : ℝ} :
    standard.approxEq a b = true ↔ |a - b| ≤ 1e-9 + 1e-9 * max |a| |b| := by
  have hmax : abs (max |a| |b|) = max |a| |b| := abs_of_nonneg (le_max_of_le_left (abs_nonneg a))
  rw [approxEq_iff, standard_slack, hmax]

end Tolerance

end PlanarLP
