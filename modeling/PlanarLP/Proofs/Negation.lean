import PlanarLP.Proofs.Angles
import PlanarLP.Proofs.Quadrant
import PlanarLP.Proofs.Restating

/-! Multiplying constraints by minus one changes nothing in the answer. What is left to see after
the single constraints are the open directions: an equation lists its two normals in the other
order, and with them the directions that are tried. These are unit vectors at right angles or
more to each other, too far apart to be merged, so the directions that are kept are the same,
and sorting by angle puts them in the same order. -/

namespace PlanarLP

variable {tol : Tolerance ℝ} {p q n d : Vec ℝ} {cs ds : List (Constraint ℝ)}

/-- Slacks that tell unit vectors at right angles apart. -/
structure Tolerance.Mild (tol : Tolerance ℝ) : Prop where
  absolute : 0 ≤ tol.absolute
  relative : 0 ≤ tol.relative
  determinant : 0 ≤ tol.determinant
  slack_lt : tol.absolute + tol.relative < 1
  determinant_lt : tol.determinant < 1

namespace Tolerance

theorem standard_mild : (standard : Tolerance ℝ).Mild := by
  constructor <;> norm_num [standard]

theorem Mild.slack_nonneg (htol : tol.Mild) (m : ℝ) : 0 ≤ tol.slack m :=
  Tolerance.slack_nonneg htol.absolute htol.relative m

theorem Mild.abs_sub_lt (htol : tol.Mild) {a b : ℝ} (ha : |a| ≤ 1) (hb : |b| ≤ 1)
    (h : tol.approxEq a b = true) : |a - b| < 1 := by
  have hmax : abs (max |a| |b|) ≤ 1 := by
    rw [abs_of_nonneg (le_max_of_le_left (abs_nonneg a))]
    exact max_le ha hb
  calc |a - b| ≤ tol.absolute + tol.relative * abs (max |a| |b|) := approxEq_iff.mp h
    _ ≤ tol.absolute + tol.relative * 1 := by
      have := mul_le_mul_of_nonneg_left hmax htol.relative
      linarith
    _ < 1 := by rw [mul_one]; exact htol.slack_lt

/-- Unit vectors that count as one point turn less than a right angle from each other. -/
theorem Mild.dot_pos (htol : tol.Mild) (hp : p.dot p = 1) (hq : q.dot q = 1)
    (h : tol.samePoint p q = true) : 0 < p.dot q := by
  rw [samePoint, Bool.and_eq_true] at h
  have hx := htol.abs_sub_lt (Vec.abs_le_one hp).1 (Vec.abs_le_one hq).1 h.1
  have hy := htol.abs_sub_lt (Vec.abs_le_one hp).2 (Vec.abs_le_one hq).2 h.2
  have hxx := (sq_lt_one_iff_abs_lt_one _).mpr hx
  have hyy := (sq_lt_one_iff_abs_lt_one _).mpr hy
  rw [Vec.dot_eq] at hp hq ⊢
  nlinarith

end Tolerance

/-! ## The directions of one constraint -/

/-- The unit vectors along and across a unit vector. -/
def OnAxes (n d : Vec ℝ) : Prop := d = n ∨ d = -n ∨ d = n.turnLeft ∨ d = -n.turnLeft

theorem OnAxes.apart (htol : tol.Mild) (hn : n.dot n = 1) (hp : OnAxes n p) (hq : OnAxes n q)
    (h : tol.samePoint p q = true) : p = q := by
  have hturn : n.turnLeft.dot n.turnLeft = 1 := by rw [Vec.turnLeft_dot_turnLeft, hn]
  have hacross : n.dot n.turnLeft = 0 := by rw [Vec.dot_turnLeft, Vec.cross_self]
  have hacross' : n.turnLeft.dot n = 0 := by rw [Vec.dot_comm, hacross]
  have hunit : ∀ {d}, OnAxes n d → d.dot d = 1 := by
    rintro d (rfl | rfl | rfl | rfl) <;>
      simp only [Vec.neg_dot, Vec.dot_neg, neg_neg, hn, hturn]
  have hpos := htol.dot_pos (hunit hp) (hunit hq) h
  rcases hp with rfl | rfl | rfl | rfl <;> rcases hq with rfl | rfl | rfl | rfl <;>
    first
    | rfl
    | simp only [Vec.neg_dot, Vec.dot_neg, neg_neg, hn, hturn, hacross, hacross'] at hpos
      norm_num at hpos

/-- The candidates for open directions along the boundary of a constraint. -/
noncomputable def Constraint.rays (k : Constraint ℝ) : List (Vec ℝ) :=
  rayCandidates k.outwardNormals

theorem rayCandidates_normalsOf (cs : List (Constraint ℝ)) :
    rayCandidates (normalsOf cs) = cs.flatMap Constraint.rays :=
  List.flatMap_assoc

theorem Constraint.onAxes_of_mem_rays {k : Constraint ℝ} (hd : d ∈ k.rays) :
    OnAxes k.normal.normalize d := by
  obtain ⟨n, hn, hd⟩ := List.mem_flatMap.mp hd
  have hn : n = k.normal.normalize ∨ n = -k.normal.normalize := by
    unfold outwardNormals at hn
    cases hr : k.relation <;> simp only [hr, List.mem_cons, List.not_mem_nil, or_false] at hn
    · exact .inl hn
    · exact .inr hn
    · exact hn
  have hturn : (-k.normal.normalize).turnLeft = -k.normal.normalize.turnLeft := rfl
  simp only [List.mem_cons, List.not_mem_nil, or_false, Vec.turnRight_eq] at hd
  rcases hn with rfl | rfl <;> rcases hd with rfl | rfl | rfl <;>
    simp [OnAxes, hturn]

theorem Constraint.Restated.outwardNormals_perm {k k' : Constraint ℝ} (h : k.Restated k') :
    k'.outwardNormals.Perm k.outwardNormals := by
  cases h with
  | same => exact .refl _
  | negated source =>
    have hn : (-k.normal).normalize = -k.normal.normalize := Vec.normalize_neg k.normal
    unfold outwardNormals
    cases hr : k.relation with
    | le =>
      show [-(-k.normal).normalize].Perm _
      rw [hn, neg_neg]
    | ge =>
      show [(-k.normal).normalize].Perm _
      rw [hn]
    | eq =>
      show [(-k.normal).normalize, -(-k.normal).normalize].Perm _
      rw [hn, neg_neg]
      exact .swap ..

theorem Constraint.Restated.rays_perm {k k' : Constraint ℝ} (h : k.Restated k') :
    k'.rays.Perm k.rays :=
  h.outwardNormals_perm.flatMap_right _

/-! ## Open directions -/

namespace Restate

theorem normalsOf_perm (h : Restate cs ds) : (normalsOf ds).Perm (normalsOf cs) := by
  induction h with
  | nil => exact .refl _
  | cons hkl _ ih =>
    rw [normalsOf, List.flatMap_cons]
    exact hkl.2.outwardNormals_perm.append ih

/-- Whatever was kept before, the same directions are kept. -/
theorem mem_foldl_rays (h : Restate cs ds) (htol : tol.Mild) (r : Vec ℝ → Bool)
    {kept kept' : List (Vec ℝ)} (hkept : ∀ d, d ∈ kept' ↔ d ∈ kept) :
    d ∈ ((ds.flatMap Constraint.rays).filter r).foldl (keep tol) kept' ↔
      d ∈ ((cs.flatMap Constraint.rays).filter r).foldl (keep tol) kept := by
  induction h generalizing kept kept' with
  | nil => exact hkept d
  | @cons k l cs ds hkl _ ih =>
    -- one constraint tries the same directions in both forms, and none of them are merged
    have hmem : ∀ d, d ∈ l.rays.filter r ↔ d ∈ k.rays.filter r := fun d =>
      (hkl.2.rays_perm.filter r).mem_iff
    have hunit := Vec.dot_self_normalize hkl.1.normal_ne_zero
    have hapart : ∀ p ∈ k.rays.filter r, ∀ q ∈ k.rays.filter r,
        tol.samePoint p q = true → p = q := fun p hp q hq =>
      (Constraint.onAxes_of_mem_rays (List.mem_of_mem_filter hp)).apart htol hunit
        (Constraint.onAxes_of_mem_rays (List.mem_of_mem_filter hq))
    rw [List.flatMap_cons, List.filter_append, List.foldl_append, List.flatMap_cons,
      List.filter_append, List.foldl_append]
    refine ih fun d => ?_
    rw [mem_foldl_keep hapart, mem_foldl_keep fun p hp q hq =>
      hapart p ((hmem p).mp hp) q ((hmem q).mp hq)]
    simp only [hkept, hmem]

end Restate

theorem Vec.eq_of_angle_eq {u v : Vec ℝ} (hu : u.dot u = 1) (hv : v.dot v = 1)
    (h : u.angle = v.angle) : u = v := by
  have hne : u ≠ 0 := by
    rintro rfl
    rw [dot_zero] at hu
    exact zero_ne_one hu
  rw [eq_smul_of_angle_eq hne h, norm_of_unit hu, norm_of_unit hv, div_one, one_smul]

noncomputable def byAngle (d e : Vec ℝ) : Bool := (Scalar.order d.angle e.angle).isLE

theorem byAngle_iff {d e : Vec ℝ} : byAngle d e = true ↔ d.angle ≤ e.angle := cmp_isLE

theorem sorted_byAngle (ps : List (Vec ℝ)) :
    (ps.mergeSort byAngle).Pairwise fun d e => byAngle d e = true := by
  apply List.pairwise_mergeSort
  · intro c d e hcd hde
    exact byAngle_iff.mpr ((byAngle_iff.mp hcd).trans (byAngle_iff.mp hde))
  · intro d e
    rw [Bool.or_eq_true, byAngle_iff, byAngle_iff]
    exact le_total _ _

/-- Unit vectors have one order by angle. -/
theorem mergeSort_byAngle_eq {ps qs : List (Vec ℝ)} (hps : ∀ p ∈ ps, p.dot p = 1)
    (h : qs.Perm ps) : qs.mergeSort byAngle = ps.mergeSort byAngle := by
  have hperm := (List.mergeSort_perm qs byAngle).trans
    (h.trans (List.mergeSort_perm ps byAngle).symm)
  refine hperm.eq_of_pairwise ?_ (sorted_byAngle qs) (sorted_byAngle ps)
  intro d e hd he hde hed
  exact Vec.eq_of_angle_eq (hps d (h.mem_iff.mp (List.mem_mergeSort.mp hd)))
    (hps e (List.mem_mergeSort.mp he)) ((byAngle_iff.mp hde).antisymm (byAngle_iff.mp hed))

namespace Restate

theorem proper (h : Restate cs ds) : ∀ k ∈ cs, k.Proper := by
  induction h with
  | nil => exact List.forall_mem_nil _
  | cons hkl _ ih => exact List.forall_mem_cons.mpr ⟨hkl.1, ih⟩

theorem recessionRays (h : Restate cs ds) (htol : tol.Mild) :
    recessionRays tol ds = recessionRays tol cs := by
  have hnormals := h.normalsOf_perm
  have hrecedes : recedes tol (normalsOf ds) = recedes tol (normalsOf cs) :=
    funext fun d => hnormals.all_eq
  have hrays : ∀ es, PlanarLP.recessionRays tol es = if (normalsOf es).isEmpty then axisDirections
      else (distinctPoints tol ((rayCandidates (normalsOf es)).filter
        (recedes tol (normalsOf es)))).mergeSort byAngle := fun _ => rfl
  rw [hrays ds, hrays cs, hnormals.isEmpty_eq]
  split
  · rfl
  · rw [hrecedes, distinctPoints_eq, distinctPoints_eq, rayCandidates_normalsOf,
      rayCandidates_normalsOf]
    have hnodup : ∀ ps : List (Vec ℝ), (ps.foldl (keep tol) []).Nodup :=
      nodup_foldl_keep (Tolerance.samePoint_self htol.slack_nonneg) List.nodup_nil
    refine mergeSort_byAngle_eq ?_ ((List.perm_ext_iff_of_nodup (hnodup _) (hnodup _)).mpr
      fun d => h.mem_foldl_rays htol _ fun _ => Iff.rfl)
    intro d hd
    obtain hd | hd := foldl_keep_subset _ _ d hd
    · cases hd
    · rw [← rayCandidates_normalsOf] at hd
      exact rayCandidates_unit (fun n hn => normalsOf_unit h.proper hn) (List.mem_of_mem_filter hd)

theorem regionOf (h : Restate cs ds) (htol : tol.Mild) : regionOf tol ds = regionOf tol cs := by
  rw [PlanarLP.regionOf, h.corners, h.samplePoints, h.recessionRays htol,
    h.smallestConflicts htol.slack_nonneg htol.determinant_lt, PlanarLP.regionOf]

theorem of_forall₂ {given given' : List (Constraint ℝ)} (hproper : ∀ k ∈ given, k.Proper)
    (h : List.Forall₂ Constraint.Restated given given') : Restate given given' := by
  induction h with
  | nil => exact .nil
  | cons hkl _ ih =>
    obtain ⟨hk, hrest⟩ := List.forall_mem_cons.mp hproper
    exact .cons ⟨hk, hkl⟩ (ih hrest)

/-- With the bounds that are added by default, which are the same for both lists. -/
theorem constraints {given given' : List (Constraint ℝ)} (h : Restate given given')
    (assumeNonnegative : Bool) : Restate (ConstraintSet.of given assumeNonnegative).constraints
      (ConstraintSet.of given' assumeNonnegative).constraints := by
  have himplicit : (ConstraintSet.of given' assumeNonnegative).implicit =
      (ConstraintSet.of given assumeNonnegative).implicit := by
    cases assumeNonnegative with
    | false => rfl
    | true => exact h.missingBounds
  rw [ConstraintSet.constraints, ConstraintSet.constraints, himplicit]
  refine List.rel_append h (refl fun k hk => ?_)
  exact ConstraintSet.of_proper h.proper assumeNonnegative k (List.mem_append_right _ hk)

end Restate

/-- Negating some of the given constraints leaves the region, or the error, as it is. -/
theorem solve_restated (htol : tol.Mild) {given given' : List (Constraint ℝ)}
    (hproper : ∀ k ∈ given, k.Proper) (h : List.Forall₂ Constraint.Restated given given')
    (limit : Nat) (assumeNonnegative : Bool) :
    (⟨tol, limit⟩ : Solver ℝ).solve (.of given' assumeNonnegative) =
      (⟨tol, limit⟩ : Solver ℝ).solve (.of given assumeNonnegative) := by
  have hrestate := (Restate.of_forall₂ hproper h).constraints assumeNonnegative
  have hlength : (ConstraintSet.of given' assumeNonnegative).explicit.length =
      (ConstraintSet.of given assumeNonnegative).explicit.length := h.length_eq.symm
  rw [Solver.solve, Solver.solve, hlength, hrestate.regionOf htol]

theorem solve_restated_diagonal :
    (⟨.standard, 50⟩ : Solver ℝ).solve
        (.of [⟨-1, -1, -4, .ge, "-x - y >= -4"⟩, ⟨-1, 1, 0, .eq, "-x + y = 0"⟩] true) =
      (⟨.standard, 50⟩ : Solver ℝ).solve
        (.of [⟨1, 1, 4, .le, "x + y <= 4"⟩, ⟨1, -1, 0, .eq, "x - y = 0"⟩] true) := by
  have hsum := Constraint.Restated.negated (k := ⟨1, 1, 4, .le, "x + y <= 4"⟩) "-x - y >= -4"
  have hdiagonal := Constraint.Restated.negated (k := ⟨1, -1, 0, .eq, "x - y = 0"⟩) "-x + y = 0"
  simp only [neg_neg, neg_zero] at hdiagonal
  refine solve_restated Tolerance.standard_mild ?_ (.cons hsum (.cons hdiagonal .nil)) 50 true
  simp [Constraint.Proper]

end PlanarLP
