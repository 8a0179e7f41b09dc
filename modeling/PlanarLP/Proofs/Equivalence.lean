import PlanarLP.Proofs.Opposed

/-! When two constraints count as equivalent. A half-plane or a line determines its unit normal
and its bound, a line up to their common sign, which the canonical form fixes. So the canonical
form is a name for the set of points that a constraint allows (`canonical_eq_iff`), and comparing
the forms compares the sets. -/

namespace PlanarLP

/-! ## Half-planes and lines with unit normals -/

namespace Vec

variable {n m : Vec ℝ} {c d : ℝ}

theorem eq_or_neg_of_unit {s : ℝ} (hn : n.dot n = 1) (hm : (s • n).dot (s • n) = 1) :
    s = 1 ∨ s = -1 := by
  rw [smul_dot, dot_smul, hn, mul_one] at hm
  exact mul_self_eq_one_iff.mp hm

/-- A slope that a bound holds along a whole ray does not rise. -/
theorem nonpos_of_bounded_ray {a b d : ℝ} (h : ∀ t : ℝ, 0 ≤ t → a + t * b ≤ d) : b ≤ 0 := by
  by_contra hb
  rw [not_le] at hb
  have hstart := h 0 le_rfl
  have hfar := h ((d - a + 1) / b) (div_nonneg (by linarith) hb.le)
  rw [div_mul_cancel₀ _ hb.ne'] at hfar
  linarith

/-- The walk along the line `n · p = c`, and what another vector makes of it. -/
theorem dot_walk (m n : Vec ℝ) (c t : ℝ) :
    m.dot (c • n + t • n.turnLeft) = c * n.dot m + t * m.dot n.turnLeft := by
  rw [dot_add, dot_smul, dot_smul, dot_comm m n]

theorem dot_walk_self (hn : n.dot n = 1) (c t : ℝ) : n.dot (c • n + t • n.turnLeft) = c := by
  rw [dot_walk, hn, dot_turnLeft, cross_self, mul_one, mul_zero, add_zero]

/-- A bound that holds on a line is parallel to it. -/
theorem parallel_of_line (hn : n.dot n = 1) (h : ∀ p, n.dot p = c → m.dot p ≤ d) :
    m = n.dot m • n ∧ n.dot m * c ≤ d := by
  have hwalk : ∀ t : ℝ, c * n.dot m + t * m.dot n.turnLeft ≤ d := fun t =>
    dot_walk m n c t ▸ h _ (dot_walk_self hn c t)
  have hforth : m.dot n.turnLeft ≤ 0 := nonpos_of_bounded_ray fun t _ => hwalk t
  have hback : -m.dot n.turnLeft ≤ 0 := nonpos_of_bounded_ray fun t _ => by
    rw [mul_neg, ← neg_mul]
    exact hwalk (-t)
  have hcross : n.cross m = 0 := by
    rw [← dot_turnLeft]
    linarith
  have hn0 : n ≠ 0 := by
    rintro rfl
    rw [zero_dot] at hn
    exact zero_ne_one hn
  have hm := eq_smul_of_cross_eq_zero hn0 hcross
  rw [hn, div_one] at hm
  have hstart := hwalk 0
  rw [zero_mul, add_zero, mul_comm] at hstart
  exact ⟨hm, hstart⟩

/-- A half-plane inside another one looks the same way and ends no later. -/
theorem eq_of_half_plane_le (hn : n.dot n = 1) (hm : m.dot m = 1)
    (h : ∀ p, n.dot p ≤ c → m.dot p ≤ d) : m = n ∧ c ≤ d := by
  obtain ⟨hparallel, hbound⟩ := parallel_of_line hn fun p hp => h p hp.le
  have hsame : -n.dot m ≤ 0 := nonpos_of_bounded_ray fun t ht => by
    have hin : n.dot ((c - t) • n) ≤ c := by
      rw [dot_smul, hn]
      linarith
    have hout := h _ hin
    rw [dot_smul, dot_comm m n] at hout
    show n.dot m * c + t * -n.dot m ≤ d
    linarith
  rw [hparallel] at hm
  rcases eq_or_neg_of_unit hn hm with hs | hs <;> rw [hs] at hparallel hbound hsame
  · rw [one_smul] at hparallel
    exact ⟨hparallel, by linarith⟩
  · norm_num at hsame

theorem eq_of_half_plane (hn : n.dot n = 1) (hm : m.dot m = 1)
    (h : ∀ p, n.dot p ≤ c ↔ m.dot p ≤ d) : n = m ∧ c = d := by
  obtain ⟨hnm, hcd⟩ := eq_of_half_plane_le hn hm fun p => (h p).mp
  obtain ⟨-, hdc⟩ := eq_of_half_plane_le hm hn fun p => (h p).mpr
  exact ⟨hnm.symm, le_antisymm hcd hdc⟩

/-- A line has two unit normals. -/
theorem eq_or_neg_of_line (hn : n.dot n = 1) (hm : m.dot m = 1)
    (h : ∀ p, n.dot p = c ↔ m.dot p = d) : (n = m ∧ c = d) ∨ (n = -m ∧ c = -d) := by
  have hparallel := (parallel_of_line hn fun p hp => ((h p).mp hp).le).1
  have hmeet : m.dot (c • n) = d := (h _).mp (by rw [dot_smul, hn, mul_one])
  rw [dot_smul, dot_comm] at hmeet
  rw [hparallel] at hm
  rcases eq_or_neg_of_unit hn hm with hs | hs <;> rw [hs] at hparallel hmeet
  · rw [one_smul] at hparallel
    exact .inl ⟨hparallel.symm, by linarith⟩
  · rw [neg_one_smul] at hparallel
    exact .inr ⟨(neg_eq_iff_eq_neg.mpr hparallel).symm ▸ rfl, by linarith⟩

/-- A half-plane is no line: it has points at two distances along its normal. -/
theorem half_plane_ne_line (hn : n.dot n = 1) (hm : m.dot m = 1) :
    ¬∀ p, n.dot p ≤ c ↔ m.dot p = d := by
  intro h
  have hparallel := (parallel_of_line hn fun p hp => ((h p).mp hp.le).le).1
  have hdeep : ∀ t, 0 ≤ t → (c - t) * m.dot n = d := fun t ht => by
    rw [← dot_smul]
    refine (h _).mp ?_
    rw [dot_smul, hn]
    linarith
  have hacross : m.dot n = 0 := by linarith [hdeep 0 le_rfl, hdeep 1 zero_le_one]
  rw [hparallel, dot_comm n m, hacross, zero_smul, zero_dot] at hm
  exact zero_ne_one hm

end Vec

/-! ## The canonical form -/

variable {tol : Tolerance ℝ} {n m : Vec ℝ} {c d : ℝ} {r s : Relation}

/-- An equation with this normal is written with all signs changed. -/
def Vec.LeansBack (n : Vec ℝ) (tol : Tolerance ℝ) : Prop :=
  n.x < -tol.absolute ∨ (tol.isZero n.x ∧ n.y < 0)

/-- One of two opposite unit vectors leans back, also where the first component counts as zero:
the second one is then too large to vanish. -/
theorem Vec.leansBack_neg (hn : n.dot n = 1) (hlow : 0 ≤ tol.absolute) (hhigh : tol.absolute < 1) :
    (-n).LeansBack tol ↔ ¬n.LeansBack tol := by
  unfold LeansBack
  rw [Tolerance.isZero_iff, Tolerance.isZero_iff, neg_x, neg_y, abs_neg, neg_lt_neg_iff,
    neg_lt_zero]
  by_cases hx : |n.x| ≤ tol.absolute
  · have hy : n.y ≠ 0 := fun hzero => by
      rw [dot_eq, hzero, mul_zero, add_zero, ← abs_mul_abs_self] at hn
      nlinarith [abs_nonneg n.x]
    obtain ⟨hleft, hright⟩ := abs_le.mp hx
    rw [or_iff_right hright.not_gt, or_iff_right hleft.not_gt, and_iff_right hx, and_iff_right hx,
      not_lt]
    exact ⟨le_of_lt, fun h => lt_of_le_of_ne h hy.symm⟩
  · rw [iff_false_intro hx, false_and, false_and, or_false, or_false, not_lt]
    rw [not_le, lt_abs] at hx
    exact ⟨fun h => by linarith, fun h => hx.resolve_right (by linarith)⟩

/-- What a normal and a relation are like in canonical form. -/
structure IsCanonical (tol : Tolerance ℝ) (n : Vec ℝ) (r : Relation) : Prop where
  unit : n.dot n = 1
  signed : r = .le ∨ r = .eq ∧ ¬n.LeansBack tol

/-- A canonical form is determined by its points. -/
theorem IsCanonical.eq_of_points (hn : IsCanonical tol n r) (hm : IsCanonical tol m s)
    (hlow : 0 ≤ tol.absolute) (hhigh : tol.absolute < 1)
    (h : ∀ p, r.Holds (n.dot p) c ↔ s.Holds (m.dot p) d) : n = m ∧ c = d ∧ r = s := by
  rcases hn.signed with rfl | ⟨rfl, hnback⟩ <;> rcases hm.signed with rfl | ⟨rfl, hmback⟩
  · obtain ⟨rfl, rfl⟩ := Vec.eq_of_half_plane hn.unit hm.unit h
    exact ⟨rfl, rfl, rfl⟩
  · exact absurd h (Vec.half_plane_ne_line hn.unit hm.unit)
  · exact absurd (fun p => (h p).symm) (Vec.half_plane_ne_line hm.unit hn.unit)
  · rcases Vec.eq_or_neg_of_line hn.unit hm.unit h with ⟨rfl, rfl⟩ | ⟨rfl, rfl⟩
    · exact ⟨rfl, rfl, rfl⟩
    · exact absurd ((Vec.leansBack_neg hm.unit hlow hhigh).mpr hmback) hnback

namespace Constraint

variable {k l : Constraint ℝ}

theorem allows_iff_unit (hk : k.Proper) (p : Vec ℝ) :
    k.Allows p ↔ k.relation.Holds (k.normal.normalize.dot p) (k.c / k.normal.norm) := by
  have hlhs : k.a * p.x + k.b * p.y = k.normal.norm * k.normal.normalize.dot p :=
    hk.faces.dot_normal p
  rw [Allows, hlhs, Relation.holds_mul_left hk.faces.norm_pos.ne',
    if_neg hk.faces.norm_pos.not_gt]

/-- The canonical form describes the same points. -/
theorem canonical_spec (hk : k.Proper) (hlow : 0 ≤ tol.absolute) (hhigh : tol.absolute < 1) :
    ∃ n c r, k.canonical tol = (n, c, r) ∧ IsCanonical tol n r ∧
      ∀ p, k.Allows p ↔ r.Holds (n.dot p) c := by
  have hunit : k.normal.normalize.dot k.normal.normalize = 1 := hk.faces.dot_self
  have hneg : (-k.normal.normalize).dot (-k.normal.normalize) = 1 := by
    rw [Vec.neg_dot, Vec.dot_neg, neg_neg, hunit]
  have hallows := allows_iff_unit hk
  unfold canonical
  cases hr : k.relation <;> rw [hr] at hallows
  · exact ⟨_, _, _, rfl, ⟨hunit, .inl rfl⟩, hallows⟩
  · refine ⟨_, _, _, rfl, ⟨hneg, .inl rfl⟩, fun p => (hallows p).trans ?_⟩
    show _ ↔ (-k.normal.normalize).dot p ≤ -(k.c / k.normal.norm)
    rw [Vec.neg_dot, neg_le_neg_iff]
    exact Iff.rfl
  · by_cases hback : k.normal.normalize.LeansBack tol
    · have hforth : ¬(-k.normal.normalize).LeansBack tol := fun h =>
        (Vec.leansBack_neg hunit hlow hhigh).mp h hback
      refine ⟨_, _, _, if_pos hback, ⟨hneg, .inr ⟨rfl, hforth⟩⟩, fun p => (hallows p).trans ?_⟩
      show _ ↔ (-k.normal.normalize).dot p = -(k.c / k.normal.norm)
      rw [Vec.neg_dot, neg_inj]
      exact Iff.rfl
    · exact ⟨_, _, _, if_neg hback, ⟨hunit, .inr ⟨rfl, hback⟩⟩, hallows⟩

/-- The canonical form is a name for the points that a constraint allows. -/
theorem canonical_eq_iff (hk : k.Proper) (hl : l.Proper) (hlow : 0 ≤ tol.absolute)
    (hhigh : tol.absolute < 1) :
    k.canonical tol = l.canonical tol ↔ ∀ p, k.Allows p ↔ l.Allows p := by
  obtain ⟨n, c, r, hkeq, hkform, hkpoints⟩ := canonical_spec hk hlow hhigh
  obtain ⟨m, d, s, hleq, hlform, hlpoints⟩ := canonical_spec hl hlow hhigh
  rw [hkeq, hleq]
  constructor
  · intro heq p
    obtain ⟨rfl, rfl, rfl⟩ : n = m ∧ c = d ∧ r = s := by simpa using heq
    exact (hkpoints p).trans (hlpoints p).symm
  · intro h
    obtain ⟨rfl, rfl, rfl⟩ := hkform.eq_of_points hlform hlow hhigh fun p =>
      (hkpoints p).symm.trans ((h p).trans (hlpoints p))
    rfl

theorem isEquivalent_of_canonical_eq (htol : ∀ x, 0 ≤ tol.slack x)
    (h : k.canonical tol = l.canonical tol) : k.isEquivalent l tol = true := by
  unfold isEquivalent
  rw [h]
  simp only [Tolerance.approxEq_self htol, Bool.and_true]
  exact beq_self_eq_true _

theorem isEquivalent_exact : k.isEquivalent l .exact = true ↔
    k.canonical .exact = l.canonical .exact := by
  unfold isEquivalent
  simp only [Bool.and_eq_true, beq_iff_eq, Tolerance.exact_approxEq]
  constructor
  · rintro ⟨⟨⟨hr, hx⟩, hy⟩, hc⟩
    exact Prod.ext (Vec.ext hx hy) (Prod.ext hc hr)
  · intro h
    rw [h]
    exact ⟨⟨⟨rfl, rfl⟩, rfl⟩, rfl⟩

/-- Both sides multiplied by `t`, which turns the relation round where it is negative. -/
noncomputable def rescaled (k : Constraint ℝ) (t : ℝ) : Constraint ℝ :=
  ⟨t * k.a, t * k.b, t * k.c, if t < 0 then k.relation.flip else k.relation, k.source⟩

theorem allows_rescaled {t : ℝ} (ht : t ≠ 0) (p : Vec ℝ) :
    (k.rescaled t).Allows p ↔ k.Allows p := by
  have hlhs : t * k.a * p.x + t * k.b * p.y = t * (k.a * p.x + k.b * p.y) := by ring
  have hback : (if t < 0 then (k.rescaled t).relation.flip else (k.rescaled t).relation) =
      k.relation := by
    unfold rescaled
    split
    · exact k.relation.flip_flip
    · rfl
  show (k.rescaled t).relation.Holds (t * k.a * p.x + t * k.b * p.y) (t * k.c) ↔ _
  rw [hlhs, Relation.holds_mul_left ht, hback, mul_div_cancel_left₀ _ ht]
  exact Iff.rfl

/-- **Equivalence decides whether two constraints describe the same set.** Without tolerance it
holds of those that allow the same points and of no others; and these count as equivalent at every
tolerance that is less than a unit, such as a constraint and any multiple of it. -/
theorem isEquivalent_decides (hk : k.Proper) (hl : l.Proper) :
    (k.isEquivalent l .exact = true ↔ ∀ p, k.Allows p ↔ l.Allows p) ∧
    ((∀ p, k.Allows p ↔ l.Allows p) → ∀ tol : Tolerance ℝ, 0 ≤ tol.absolute →
      tol.absolute < 1 → 0 ≤ tol.relative → k.isEquivalent l tol = true) ∧
    ∀ t : ℝ, t ≠ 0 → ∀ p, (k.rescaled t).Allows p ↔ k.Allows p := by
  refine ⟨?_, fun h tol hlow hhigh hrelative => ?_, fun t ht p => allows_rescaled ht p⟩
  · rw [isEquivalent_exact]
    exact canonical_eq_iff hk hl le_rfl zero_lt_one
  · exact isEquivalent_of_canonical_eq (Tolerance.slack_nonneg hlow hrelative)
      ((canonical_eq_iff hk hl hlow hhigh).mpr h)

/-- A line written either way round. -/
theorem isEquivalent_decides_line :
    (⟨1, -1, 4, .eq, "x - y = 4"⟩ : Constraint ℝ).Proper ∧
    (⟨-2, 2, -8, .eq, "-2x + 2y = -8"⟩ : Constraint ℝ).Proper ∧
    (⟨1, -1, 4, .eq, "x - y = 4"⟩ : Constraint ℝ).isEquivalent
      ⟨-2, 2, -8, .eq, "-2x + 2y = -8"⟩ .standard = true := by
  have hk : (⟨1, -1, 4, .eq, "x - y = 4"⟩ : Constraint ℝ).Proper := .inl one_ne_zero
  have hl : (⟨-2, 2, -8, .eq, "-2x + 2y = -8"⟩ : Constraint ℝ).Proper := .inl (by norm_num)
  have hsame : ∀ p : Vec ℝ, (⟨1, -1, 4, .eq, "x - y = 4"⟩ : Constraint ℝ).Allows p ↔
      (⟨-2, 2, -8, .eq, "-2x + 2y = -8"⟩ : Constraint ℝ).Allows p := by
    intro p
    show 1 * p.x + -1 * p.y = 4 ↔ -2 * p.x + 2 * p.y = -8
    constructor <;> intro h <;> linarith
  obtain ⟨-, hequivalent, -⟩ := isEquivalent_decides hk hl
  refine ⟨hk, hl, hequivalent hsame .standard ?_ ?_ ?_⟩ <;> norm_num [Tolerance.standard]

end Constraint

end PlanarLP
