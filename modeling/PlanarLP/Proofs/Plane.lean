import Mathlib.Analysis.Convex.Extreme
import Mathlib.Geometry.Convex.Cone.Pointed
import PlanarLP.Proofs.Exact

/-! The plane over the real numbers: `Vec ℝ` as a vector space, with what dot and cross
products say about parallel vectors and about coordinates in a basis. Convex hulls, extreme
points and generated cones are then the library's own. -/

namespace PlanarLP

attribute [ext] Vec

namespace Vec

noncomputable instance : Zero (Vec ℝ) := ⟨origin⟩

noncomputable instance : SMul ℝ (Vec ℝ) := ⟨fun t v => ⟨t * v.x, t * v.y⟩⟩

@[simp] theorem zero_x : (0 : Vec ℝ).x = 0 := rfl
@[simp] theorem zero_y : (0 : Vec ℝ).y = 0 := rfl
@[simp] theorem add_x (u v : Vec ℝ) : (u + v).x = u.x + v.x := rfl
@[simp] theorem add_y (u v : Vec ℝ) : (u + v).y = u.y + v.y := rfl
@[simp] theorem sub_x (u v : Vec ℝ) : (u - v).x = u.x - v.x := rfl
@[simp] theorem sub_y (u v : Vec ℝ) : (u - v).y = u.y - v.y := rfl
@[simp] theorem neg_x (v : Vec ℝ) : (-v).x = -v.x := rfl
@[simp] theorem neg_y (v : Vec ℝ) : (-v).y = -v.y := rfl
@[simp] theorem smul_x (t : ℝ) (v : Vec ℝ) : (t • v).x = t * v.x := rfl
@[simp] theorem smul_y (t : ℝ) (v : Vec ℝ) : (t • v).y = t * v.y := rfl

noncomputable instance : AddCommGroup (Vec ℝ) where
  add_assoc u v w := by ext <;> simp [add_assoc]
  zero_add v := by ext <;> simp
  add_zero v := by ext <;> simp
  add_comm u v := by ext <;> simp [add_comm]
  neg_add_cancel v := by ext <;> simp
  sub_eq_add_neg u v := by ext <;> simp [sub_eq_add_neg]
  nsmul := nsmulRec
  zsmul := zsmulRec

noncomputable instance : Module ℝ (Vec ℝ) where
  one_smul v := by ext <;> simp
  mul_smul s t v := by ext <;> simp [mul_assoc]
  smul_zero t := by ext <;> simp
  smul_add t u v := by ext <;> simp [mul_add]
  add_smul s t v := by ext <;> simp [add_mul]
  zero_smul v := by ext <;> simp

theorem scale_eq (v : Vec ℝ) (t : ℝ) : v.scale t = t • v :=
  Vec.ext (mul_comm v.x t) (mul_comm v.y t)

theorem divide_eq (v : Vec ℝ) (t : ℝ) : v.divide t = t⁻¹ • v :=
  Vec.ext (div_eq_inv_mul v.x t) (div_eq_inv_mul v.y t)

theorem dot_eq (u v : Vec ℝ) : u.dot v = u.x * v.x + u.y * v.y := rfl

theorem cross_eq (u v : Vec ℝ) : u.cross v = u.x * v.y - u.y * v.x := rfl

@[simp] theorem turnLeft_x (v : Vec ℝ) : v.turnLeft.x = -v.y := rfl
@[simp] theorem turnLeft_y (v : Vec ℝ) : v.turnLeft.y = v.x := rfl

theorem turnRight_eq (v : Vec ℝ) : v.turnRight = -v.turnLeft :=
  Vec.ext (neg_neg v.y).symm rfl

@[simp] theorem dot_zero (u : Vec ℝ) : u.dot 0 = 0 := by
  rw [dot_eq, zero_x, zero_y, mul_zero, mul_zero, add_zero]

@[simp] theorem zero_dot (v : Vec ℝ) : (0 : Vec ℝ).dot v = 0 := by
  rw [dot_eq, zero_x, zero_y, zero_mul, zero_mul, add_zero]

@[simp] theorem cross_zero (u : Vec ℝ) : u.cross 0 = 0 := by
  rw [cross_eq, zero_x, zero_y, mul_zero, mul_zero, sub_zero]

@[simp] theorem zero_cross (v : Vec ℝ) : (0 : Vec ℝ).cross v = 0 := by
  rw [cross_eq, zero_x, zero_y, zero_mul, zero_mul, sub_zero]

theorem dot_comm (u v : Vec ℝ) : u.dot v = v.dot u := by
  simp only [dot_eq]; ring

theorem dot_add (u v w : Vec ℝ) : u.dot (v + w) = u.dot v + u.dot w := by
  simp only [dot_eq, add_x, add_y]; ring

theorem dot_smul (u v : Vec ℝ) (t : ℝ) : u.dot (t • v) = t * u.dot v := by
  simp only [dot_eq, smul_x, smul_y]; ring

theorem dot_neg (u v : Vec ℝ) : u.dot (-v) = -u.dot v := by
  simp only [dot_eq, neg_x, neg_y]; ring

theorem neg_dot (u v : Vec ℝ) : (-u).dot v = -u.dot v := by
  simp only [dot_eq, neg_x, neg_y]; ring

theorem smul_dot (t : ℝ) (u v : Vec ℝ) : (t • u).dot v = t * u.dot v := by
  simp only [dot_eq, smul_x, smul_y]; ring

theorem dot_turnLeft (u v : Vec ℝ) : u.dot v.turnLeft = v.cross u := by
  simp only [dot_eq, cross_eq, turnLeft_x, turnLeft_y]; ring

theorem turnLeft_dot_turnLeft (v : Vec ℝ) : v.turnLeft.dot v.turnLeft = v.dot v := by
  simp only [dot_eq, turnLeft_x, turnLeft_y]; ring

theorem dot_self_pos {v : Vec ℝ} (hv : v ≠ 0) : 0 < v.dot v := by
  have h : v.x ≠ 0 ∨ v.y ≠ 0 := by
    by_contra hc
    push Not at hc
    exact hv (Vec.ext hc.1 hc.2)
  rw [dot_eq]
  rcases h with h | h
  · nlinarith [mul_self_pos.mpr h, mul_self_nonneg v.y]
  · nlinarith [mul_self_pos.mpr h, mul_self_nonneg v.x]

theorem norm_pos {v : Vec ℝ} (hv : v ≠ 0) : 0 < v.norm := Real.sqrt_pos.mpr (dot_self_pos hv)

theorem cross_self (v : Vec ℝ) : v.cross v = 0 := by
  simp only [cross_eq]; ring

theorem cross_swap (u v : Vec ℝ) : u.cross v = -v.cross u := by
  simp only [cross_eq]; ring

theorem neg_cross (u v : Vec ℝ) : (-u).cross v = -u.cross v := by
  simp only [cross_eq, neg_x, neg_y]; ring

theorem cross_neg (u v : Vec ℝ) : u.cross (-v) = -u.cross v := by
  simp only [cross_eq, neg_x, neg_y]; ring

theorem cross_smul (u v : Vec ℝ) (t : ℝ) : u.cross (t • v) = t * u.cross v := by
  simp only [cross_eq, smul_x, smul_y]; ring

theorem turnLeft_ne_zero {v : Vec ℝ} (hv : v ≠ 0) : v.turnLeft ≠ 0 := by
  intro h
  have hx := congrArg Vec.y h
  have hy := congrArg Vec.x h
  exact hv (Vec.ext hx (neg_eq_zero.mp hy))

/-- Two vectors parallel to a third one are parallel. -/
theorem cross_eq_zero_of_parallel {u v w : Vec ℝ} (hu : u ≠ 0) (hv : u.cross v = 0)
    (hw : u.cross w = 0) : v.cross w = 0 := by
  have hx : u.x * v.cross w = 0 := by
    simp only [cross_eq] at hv hw ⊢
    linear_combination v.x * hw - w.x * hv
  have hy : u.y * v.cross w = 0 := by
    simp only [cross_eq] at hv hw ⊢
    linear_combination v.y * hw - w.y * hv
  by_contra hc
  exact hu (Vec.ext ((mul_eq_zero.mp hx).resolve_right hc) ((mul_eq_zero.mp hy).resolve_right hc))

/-- A vector parallel to `u` is a multiple of it. -/
theorem eq_smul_of_cross_eq_zero {u v : Vec ℝ} (hu : u ≠ 0) (h : u.cross v = 0) :
    v = (u.dot v / u.dot u) • u := by
  have hpos := (dot_self_pos hu).ne'
  rw [div_eq_inv_mul, ← smul_smul]
  refine (eq_inv_smul_iff₀ hpos).mpr ?_
  simp only [cross_eq] at h
  ext
  · simp only [dot_eq, smul_x]
    linear_combination -u.y * h
  · simp only [dot_eq, smul_y]
    linear_combination u.x * h

/-- The area that a point spans with an edge, from the areas about any other point. -/
theorem cross_edge (a b c w : Vec ℝ) : (b - a).cross (w - a) =
    (a - c).cross (b - c) - (w - c).cross (b - c) - (a - c).cross (w - c) := by
  simp only [cross_eq, sub_x, sub_y]; ring

/-- Coordinates in a basis, by Cramer's rule. -/
theorem cross_smul_eq (u v w : Vec ℝ) : u.cross v • w = w.cross v • u + u.cross w • v := by
  ext
  · simp only [cross_eq, smul_x, add_x]; ring
  · simp only [cross_eq, smul_y, add_y]; ring

/-- A vector across `u` is across every vector parallel to `u`. -/
theorem dot_eq_zero_of_parallel {u v d : Vec ℝ} (hu : u ≠ 0) (hv : u.cross v = 0)
    (hd : u.dot d = 0) : v.dot d = 0 := by
  have hx : u.x * v.dot d = 0 := by
    simp only [cross_eq, dot_eq] at *
    linear_combination v.x * hd + d.y * hv
  have hy : u.y * v.dot d = 0 := by
    simp only [cross_eq, dot_eq] at *
    linear_combination v.y * hd - d.x * hv
  by_contra hc
  exact hu (Vec.ext ((mul_eq_zero.mp hx).resolve_right hc) ((mul_eq_zero.mp hy).resolve_right hc))

/-- Dot products with two vectors that are not parallel determine a point. -/
theorem eq_of_dot_eq {u v p q : Vec ℝ} (huv : u.cross v ≠ 0) (hu : u.dot p = u.dot q)
    (hv : v.dot p = v.dot q) : p = q := by
  have hx : u.cross v * (p.x - q.x) = 0 := by
    simp only [cross_eq, dot_eq] at *
    linear_combination v.y * hu - u.y * hv
  have hy : u.cross v * (p.y - q.y) = 0 := by
    simp only [cross_eq, dot_eq] at *
    linear_combination u.x * hv - v.x * hu
  exact Vec.ext (sub_eq_zero.mp ((mul_eq_zero.mp hx).resolve_left huv))
    (sub_eq_zero.mp ((mul_eq_zero.mp hy).resolve_left huv))

end Vec

end PlanarLP
