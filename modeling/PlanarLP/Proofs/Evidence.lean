import PlanarLP.Proofs.Opposed

/-! Evidence for a verdict at the standard tolerance. Without slack an infeasible set always has
a conflict and an unbounded region always an open direction; with it the verdict, the conflicts
and the directions each allow an error of their own. A set that no point satisfies within an
allowance for all of them is infeasible with a conflict (`solve_infeasible_conflicts`), and one
that has a point, with boundaries that are parallel or cross visibly, is unbounded exactly when
it has a direction (`solve_unbounded_directions`). Closer to the tolerance the evidence can be
missing: `solve_hairline` has no conflict, `solve_hollow` no direction. -/

namespace PlanarLP

variable {k l m : Constraint ℝ} {cs : List (Constraint ℝ)} {p u v : Vec ℝ} {reach : ℝ}

/-! ## Errors up to a distance from the origin -/

theorem Relation.convex_holdsWithin (r : Relation) (ε b : ℝ) :
    Convex ℝ {t | r.HoldsWithin ε t b} := by
  cases r with
  | le => exact convex_Iic (b + ε)
  | ge => exact convex_Ici (b - ε)
  | eq =>
    have hball : {t | Relation.eq.HoldsWithin ε t b} = Set.Icc (b - ε) (b + ε) := by
      ext t
      rw [← Set.mem_Icc_iff_abs_le, abs_sub_comm]
      rfl
    exact hball ▸ convex_Icc (b - ε) (b + ε)

theorem Vec.abs_dot_le_sum (hu : u.dot u = 1) (v : Vec ℝ) : |v.dot u| ≤ |v.x| + |v.y| := by
  have hx : |u.x| ≤ 1 := abs_le_one_iff_mul_self_le_one.mpr
    (hu ▸ le_add_of_nonneg_right (mul_self_nonneg u.y))
  have hy : |u.y| ≤ 1 := abs_le_one_iff_mul_self_le_one.mpr
    (hu ▸ le_add_of_nonneg_left (mul_self_nonneg u.x))
  calc |v.dot u| ≤ |v.x * u.x| + |v.y * u.y| := abs_add_le _ _
    _ ≤ |v.x| + |v.y| := by
      rw [abs_mul, abs_mul]
      exact add_le_add (mul_le_of_le_one_right (abs_nonneg _) hx)
        (mul_le_of_le_one_right (abs_nonneg _) hy)

namespace Constraint

theorem convex_within (k : Constraint ℝ) (ε : ℝ) : Convex ℝ {p | k.Within ε p} := by
  have hlinear : IsLinearMap ℝ k.normal.dot := ⟨k.normal.dot_add, fun t v => k.normal.dot_smul v t⟩
  exact (k.relation.convex_holdsWithin ε k.c).is_linear_preimage hlinear

/-- What any of the tests may miss the constraint by up to a distance of `reach`. -/
noncomputable def allowance (k : Constraint ℝ) (reach : ℝ) : ℝ :=
  1e-9 * (1 + |k.c| + (|k.a| + |k.b|) * (1 + reach))

theorem slackAt_le_allowance (h : |p.x| + |p.y| ≤ reach) : k.slackAt p ≤ k.allowance reach := by
  have hx : |k.a| * |p.x| ≤ |k.a| * (1 + reach) :=
    mul_le_mul_of_nonneg_left (by linarith [abs_nonneg p.y]) (abs_nonneg _)
  have hy : |k.b| * |p.y| ≤ |k.b| * (1 + reach) :=
    mul_le_mul_of_nonneg_left (by linarith [abs_nonneg p.x]) (abs_nonneg _)
  rw [slackAt, allowance, abs_mul, abs_mul]
  linarith

theorem within_allowance (h : |p.x| + |p.y| ≤ reach) (hp : k.isSatisfied .standard p = true) :
    k.Within (k.allowance reach) p :=
  (isSatisfied_iff_within.mp hp).mono (slackAt_le_allowance h)

theorem allowance_nonneg (k : Constraint ℝ) (h : 0 ≤ reach) : 0 ≤ k.allowance reach := by
  unfold allowance
  positivity

/-- A boundary near another one misses it by no more than the allowance at the nearest point
to the origin. -/
theorem within_allowance_of_near (hk : k.Faces u) (hldot : l.normal.dot u ≠ 0)
    (hreach : |k.boundaryPoint.x| + |k.boundaryPoint.y| ≤ reach)
    (h : |k.endAlong u - l.endAlong u| ≤ 1e-9 * (1 + (|k.endAlong u| + |l.endAlong u|))) :
    l.Within (l.allowance reach) k.boundaryPoint := by
  have hend : |k.endAlong u| ≤ reach := by
    have hdot : k.boundaryPoint.dot u = k.endAlong u := by
      rw [hk.boundaryPoint_eq, Vec.smul_dot, hk.dot_self, mul_one]
    exact hdot ▸ (Vec.abs_dot_le_sum hk.dot_self _).trans hreach
  have hsize : |l.normal.dot u| ≤ |l.a| + |l.b| := Vec.abs_dot_le_sum hk.dot_self l.normal
  have hscaled : |l.normal.dot u| * (1 + |k.endAlong u|) ≤ (|l.a| + |l.b|) * (1 + reach) :=
    mul_le_mul hsize (by linarith) (by positivity) (by positivity)
  have hc : |l.normal.dot u| * |l.endAlong u| = |l.c| := by
    rw [← abs_mul, dot_mul_endAlong hldot]
  rw [hk.boundaryPoint_eq]
  refine (within_smul hldot h).mono ?_
  rw [allowance]
  linarith

/-- Two constraints that are not opposed hold at one point within the allowance. -/
theorem exists_within_pair (hk : k.Proper) (hl : l.Proper) (hnonneg : 0 ≤ reach)
    (hreach : |k.boundaryPoint.x| + |k.boundaryPoint.y| ≤ reach)
    (hopp : areOpposed .standard k l = false) :
    ∃ p, k.Within (k.allowance reach) p ∧ l.Within (l.allowance reach) p := by
  have hexact : ∀ {p}, k.Allows p ∧ l.Allows p →
      k.Within (k.allowance reach) p ∧ l.Within (l.allowance reach) p := fun h =>
    ⟨h.1.within (k.allowance_nonneg hnonneg), h.2.within (l.allowance_nonneg hnonneg)⟩
  by_cases hx : k.Crosses l
  · obtain ⟨p, hp⟩ := exists_common_of_cross hx.cross_ne_zero
    exact ⟨p, hexact hp⟩
  · have hpar := hk.faces.parallel_of_not_crosses hl.faces hx
    rcases common_or_near hk.faces hl.faces hpar hopp with ⟨t, ht⟩ | hnear
    · exact ⟨_, hexact ht⟩
    · have hldot := hk.faces.dot_other_ne_zero hl.faces (hpar.trans_lt (by norm_num))
      exact ⟨k.boundaryPoint, hk.boundaryPoint.allows.within (k.allowance_nonneg hnonneg),
        within_allowance_of_near hk.faces hldot hreach hnear⟩

end Constraint

/-! ## Conflicts of an infeasible set -/

/-- The points at which a constraint holds within its allowance, by its index. -/
def nearby (cs : List (Constraint ℝ)) (reach : ℝ) (i : Nat) : Set (Vec ℝ) :=
  {p | ∀ k ∈ cs[i]?, k.Within (k.allowance reach) p}

theorem convex_nearby (cs : List (Constraint ℝ)) (reach : ℝ) (i : Nat) :
    Convex ℝ (nearby cs reach i) := by
  cases hk : cs[i]? with
  | none =>
    have huniv : nearby cs reach i = Set.univ := by simp [nearby, hk]
    exact huniv ▸ convex_univ
  | some k =>
    have hone : nearby cs reach i = {p | k.Within (k.allowance reach) p} := by simp [nearby, hk]
    exact hone ▸ k.convex_within _

theorem mem_nearby {i : Nat} (hk : cs[i]? = some k) :
    p ∈ nearby cs reach i ↔ k.Within (k.allowance reach) p := by
  simp [nearby, hk]

/-- Jointly feasible constraints hold at one point within the allowance of a list they are from. -/
theorem exists_within_of_jointlyFeasible {ks : List (Constraint ℝ)} (hsub : ks.Sublist cs)
    (hreach : ∀ p ∈ tried .standard cs, |p.x| + |p.y| ≤ reach)
    (h : jointlyFeasible .standard ks = true) : ∃ p, ∀ k ∈ ks, k.Within (k.allowance reach) p := by
  obtain ⟨p, hp, hall⟩ := List.any_eq_true.mp h
  exact ⟨p, fun k hk => Constraint.within_allowance (hreach p (tried_subset hsub hp))
    (List.all_eq_true.mp hall k hk)⟩

/-- Where no conflict is found, some point satisfies everything within the allowance. -/
theorem exists_within_of_no_conflicts (hcs : ∀ k ∈ cs, k.Proper)
    (hreach : ∀ p ∈ tried .standard cs, |p.x| + |p.y| ≤ reach)
    (hnone : smallestConflicts .standard cs = []) :
    ∃ p, ∀ k ∈ cs, k.Within (k.allowance reach) p := by
  have hnonneg : 0 ≤ reach := by
    have horigin := hreach Vec.origin (List.mem_append_left _ List.mem_cons_self)
    exact (add_nonneg (abs_nonneg _) (abs_nonneg _)).trans horigin
  obtain ⟨hpairs, htriples⟩ := smallestConflicts_eq_nil.mp hnone
  have hget : ∀ {i}, i < cs.length → ∃ k, cs[i]? = some k ∧ k ∈ cs := fun hi =>
    ⟨_, List.getElem?_eq_getElem hi, List.getElem_mem hi⟩
  have hboundary : ∀ {k}, k ∈ cs → |k.boundaryPoint.x| + |k.boundaryPoint.y| ≤ reach :=
    fun hk => hreach _ (List.mem_append_left _ (List.mem_cons_of_mem _ (List.mem_map_of_mem hk)))
  have hone : ∀ i < cs.length, ∃ p, p ∈ nearby cs reach i := by
    intro i hi
    obtain ⟨k, hk, hmem⟩ := hget hi
    exact ⟨k.boundaryPoint, (mem_nearby hk).mpr
      ((hcs k hmem).boundaryPoint.allows.within (k.allowance_nonneg hnonneg))⟩
  have htwo : ∀ i j, i < j → j < cs.length →
      ∃ p, p ∈ nearby cs reach i ∧ p ∈ nearby cs reach j := by
    intro i j hij hj
    obtain ⟨k, hk, hkmem⟩ := hget (hij.trans hj)
    obtain ⟨l, hl, hlmem⟩ := hget hj
    have hopp := not_opposed_of_no_pairs hpairs hij hk hl
    simp only [mem_nearby hk, mem_nearby hl]
    exact Constraint.exists_within_pair (hcs k hkmem) (hcs l hlmem) hnonneg (hboundary hkmem) hopp
  have hthree : ∀ i j h, i < j → j < h → h < cs.length →
      ∃ p, p ∈ nearby cs reach i ∧ p ∈ nearby cs reach j ∧ p ∈ nearby cs reach h := by
    intro i j h hij hjh hh
    obtain ⟨k, hk, -⟩ := hget (hij.trans (hjh.trans hh))
    obtain ⟨l, hl, -⟩ := hget (hjh.trans hh)
    obtain ⟨m, hm, -⟩ := hget hh
    have hjoint := jointlyFeasible_of_no_triples htriples hij hjh hk hl hm
    have hsub : [k, l, m].Sublist cs := sublist_of_positions [(k, i), (l, j), (m, h)]
      (by simp [hij, hjh, hij.trans hjh]) (by simp [hk, hl, hm])
    simpa [mem_nearby hk, mem_nearby hl, mem_nearby hm] using
      exists_within_of_jointlyFeasible hsub hreach hjoint
  obtain ⟨p, hp⟩ := exists_common_of_triples (fun i _ => convex_nearby cs reach i) hone htwo hthree
  refine ⟨p, fun k hk => ?_⟩
  obtain ⟨i, hi⟩ := List.mem_iff_getElem?.mp hk
  obtain ⟨hlt, -⟩ := List.getElem?_eq_some_iff.mp hi
  exact (mem_nearby hi).mp (hp i hlt)

/-- **A set that no point satisfies within the allowance is infeasible, with a conflict.** The
allowance is that of the farthest point which is tried. -/
theorem solve_infeasible_conflicts {limit : Nat} {set : ConstraintSet ℝ} (hset : set.Proper)
    (hsize : set.explicit.length ≤ limit)
    (hreach : ∀ p ∈ tried .standard set.constraints, |p.x| + |p.y| ≤ reach)
    (hnone : ¬∃ p, ∀ k ∈ set.constraints, k.Within (k.allowance reach) p) :
    ∃ found, (⟨.standard, limit⟩ : Solver ℝ).solve set = .ok (.infeasible found) ∧
      found ≠ [] := by
  have hinfeasible : jointlyFeasible .standard set.constraints = false :=
    Bool.eq_false_iff.mpr fun h => hnone (exists_within_of_jointlyFeasible (.refl _) hreach h)
  refine ⟨smallestConflicts .standard set.constraints, ?_,
    fun hnil => hnone (exists_within_of_no_conflicts hset hreach hnil)⟩
  rw [Solver.solve_of_size hsize, regionOf_eq_infeasible.mpr ⟨hinfeasible, rfl⟩]

/-- `x <= 0`. -/
noncomputable def apartUpper : Constraint ℝ := ⟨1, 0, 0, .le, "x <= 0"⟩

/-- `x >= 1`. -/
noncomputable def apartLower : Constraint ℝ := ⟨1, 0, 1, .ge, "x >= 1"⟩

noncomputable def apart : ConstraintSet ℝ := .of [apartUpper, apartLower] false

theorem apart_proper : apart.Proper :=
  ConstraintSet.of_proper (by simp [Constraint.Proper, apartUpper, apartLower]) false

theorem apart_tried (hp : p ∈ tried .standard apart.constraints) : |p.x| + |p.y| ≤ 1 := by
  have hparallel : apartUpper.crossing apartLower .standard = none :=
    Constraint.standard_crossing_eq_none.mpr fun hx => hx.cross_ne_zero (Vec.cross_self _)
  simp only [apart, ConstraintSet.constraints_of_false, tried, probes, crossings, pairs,
    List.map_cons, List.map_nil, List.append_nil, List.filterMap_cons, hparallel,
    List.filterMap_nil, List.mem_cons, List.not_mem_nil, or_false] at hp
  rcases hp with rfl | rfl | rfl <;>
    norm_num [Vec.origin, Constraint.boundaryPoint, Constraint.normal, Vec.scale, Vec.normSq,
      Vec.dot_eq, apartUpper, apartLower]

theorem apart_within : ¬∃ p, ∀ k ∈ apart.constraints, k.Within (k.allowance 1) p := by
  rintro ⟨p, hp⟩
  simp only [apart, ConstraintSet.constraints_of_false, List.forall_mem_cons] at hp
  norm_num [Constraint.Within, Relation.HoldsWithin, Constraint.allowance, apartUpper,
    apartLower] at hp
  linarith [hp.1, hp.2]

theorem solve_infeasible_apart :
    apart.Proper ∧ apart.explicit.length ≤ 50 ∧
    (∀ p ∈ tried .standard apart.constraints, |p.x| + |p.y| ≤ 1) ∧
    (¬∃ p, ∀ k ∈ apart.constraints, k.Within (k.allowance 1) p) ∧
    ∃ found, (⟨.standard, 50⟩ : Solver ℝ).solve apart = .ok (.infeasible found) ∧ found ≠ [] := by
  have hsize : apart.explicit.length ≤ 50 := by decide
  exact ⟨apart_proper, hsize, fun _ => apart_tried, apart_within,
    solve_infeasible_conflicts apart_proper hsize (fun _ => apart_tried) apart_within⟩

/-! ## A gap that only the points see

The ends of two constraints differ by less than the slack along their unit normal, and by more
than it where they are tried, at a million times the length. -/

/-- `1000000x <= 0`. -/
noncomputable def hairlineUpper : Constraint ℝ := ⟨1e6, 0, 0, .le, "1000000x <= 0"⟩

/-- `1000000x >= 0.0001`. -/
noncomputable def hairlineLower : Constraint ℝ := ⟨1e6, 0, 0.0001, .ge, "1000000x >= 0.0001"⟩

theorem hairline_normalize : (⟨1e6, 0⟩ : Vec ℝ).normalize = ⟨1, 0⟩ := by
  have hnorm : (⟨1e6, 0⟩ : Vec ℝ).norm = 1e6 := by
    have hsqrt : (⟨1e6, 0⟩ : Vec ℝ).norm = √(1e6 * 1e6 + 0 * 0) := rfl
    rw [hsqrt, mul_zero, add_zero, Real.sqrt_mul_self (by norm_num)]
  rw [Vec.normalize, hnorm]
  norm_num [Vec.divide]

theorem hairlineUpper_faces : hairlineUpper.Faces ⟨1, 0⟩ :=
  ⟨.inl (by norm_num [hairlineUpper]), hairline_normalize⟩

theorem hairlineLower_faces : hairlineLower.Faces ⟨1, 0⟩ :=
  ⟨.inl (by norm_num [hairlineLower]), hairline_normalize⟩

theorem hairline_not_opposed : areOpposed .standard hairlineUpper hairlineLower = false := by
  refine Bool.eq_false_iff.mpr fun hopp => ?_
  obtain ⟨-, -, hgap⟩ := (areOpposed_iff Tolerance.standard_slack_nonneg
    (by norm_num [Tolerance.standard]) hairlineUpper_faces hairlineLower_faces).mp hopp
  have hupper : hairlineUpper.endAlong ⟨1, 0⟩ = 0 := by
    norm_num [Constraint.endAlong, hairlineUpper]
  have hlower : hairlineLower.endAlong ⟨1, 0⟩ = 1e-10 := by
    norm_num [Constraint.endAlong, hairlineLower, Constraint.normal, Vec.dot_eq]
  rw [hupper, hlower, Tolerance.standard_slack] at hgap
  norm_num [abs_of_pos] at hgap

/-- No point satisfies both, not even with slack. -/
theorem hairline_not_both (hupper : hairlineUpper.isSatisfied .standard p = true) :
    hairlineLower.isSatisfied .standard p = false := by
  refine Bool.eq_false_iff.mpr fun hlower => ?_
  rw [Constraint.isSatisfied_iff_within] at hupper hlower
  simp only [Constraint.Within, Relation.HoldsWithin, Constraint.slackAt, hairlineUpper,
    hairlineLower, zero_mul, add_zero, abs_zero, zero_add] at hupper hlower
  rw [abs_of_pos (by norm_num : (0 : ℝ) < 0.0001)] at hlower
  rcases abs_cases (1e6 * p.x) with ⟨hx, -⟩ | ⟨hx, -⟩ <;> rw [hx] at hupper hlower <;> linarith

theorem hairline_infeasible (hu : hairlineUpper ∈ cs) (hl : hairlineLower ∈ cs) :
    jointlyFeasible .standard cs = false := by
  refine jointlyFeasible_eq_false.mpr fun p _ => Bool.eq_false_iff.mpr fun hall => ?_
  have hsat := List.all_eq_true.mp hall
  exact Bool.false_ne_true ((hairline_not_both (hsat _ hu)).symm.trans (hsat _ hl))

/-- No conflict is found: the two are not opposed, and there is no third. -/
theorem solve_hairline : (⟨.standard, 50⟩ : Solver ℝ).solve
    (.of [hairlineUpper, hairlineLower] false) = .ok (.infeasible []) := by
  have hnone : smallestConflicts .standard [hairlineUpper, hairlineLower] = [] := by
    simp [smallestConflicts, pairConflicts, tripleConflicts, pairs, triples, List.zipIdx,
      hairline_not_opposed]
  rw [Solver.solve_of_size (by decide), ConstraintSet.constraints_of_false,
    regionOf_eq_infeasible.mpr ⟨hairline_infeasible (by simp) (by simp), hnone.symm⟩]

/-! ## Open directions of an unbounded region -/

/-- What holds exactly is allowed with slack. -/
theorem allows_of_feasible (hp : p ∈ feasible cs) : allows .standard cs p = true :=
  List.all_eq_true.mpr fun k hk => Constraint.isSatisfied_of_allows (hp k hk)

/-- Boundaries that cross at all cross visibly. -/
def CrossVisibly (cs : List (Constraint ℝ)) : Prop :=
  ∀ k ∈ cs, ∀ l ∈ cs, k.normal.cross l.normal ≠ 0 → k.Crosses l

theorem crossings_subset (hx : CrossVisibly cs) :
    crossings .exact cs ⊆ crossings .standard cs := by
  intro p hp
  obtain ⟨⟨k, l⟩, hkl, hc⟩ := List.mem_filterMap.mp hp
  have hsub := (mem_pairs.mp hkl).subset
  obtain ⟨hne, hkp, hlp⟩ := Constraint.crossing_eq_some.mp hc
  have hvisible := hx k (hsub (by simp)) l (hsub (by simp)) hne
  exact List.mem_filterMap.mpr ⟨(k, l), hkl,
    Constraint.standard_crossing.mpr ⟨hvisible, hkp, hlp⟩⟩

theorem standard_corners_ne_nil (hx : CrossVisibly cs) (h : corners .exact cs ≠ []) :
    corners .standard cs ≠ [] := by
  rw [Ne, corners_eq_nil] at h ⊢
  refine fun hnone => h fun p hp => Bool.eq_false_iff.mpr fun hall => ?_
  have hallows := allows_of_feasible (exact_allows.mp hall)
  exact Bool.false_ne_true ((hnone p (crossings_subset hx hp)).symm.trans hallows)

theorem standard_recedes {ns : List (Vec ℝ)} {d : Vec ℝ} (h : recedes .exact ns d = true) :
    recedes .standard ns d = true := by
  rw [recedes, List.all_eq_true] at h ⊢
  intro n hn
  have hle : n.dot d ≤ 0 := Tolerance.exact_holds.mp (h n hn)
  rw [Tolerance.holds_le, sub_zero]
  exact hle.trans (Tolerance.standard_slack_nonneg 1)

theorem standard_recessionRays_ne_nil (h : recessionRays .exact cs ≠ []) :
    recessionRays .standard cs ≠ [] := by
  rw [Ne, recessionRays_eq_nil] at h ⊢
  rintro ⟨hnormals, hnone⟩
  refine h ⟨hnormals, fun d hd => Bool.eq_false_iff.mpr fun hrec => ?_⟩
  exact Bool.false_ne_true ((hnone d hd).symm.trans (standard_recedes hrec))

theorem standard_jointlyFeasible (hcs : ∀ k ∈ cs, k.Proper) (hx : CrossVisibly cs)
    (hfeasible : (feasible cs).Nonempty) : jointlyFeasible .standard cs = true := by
  obtain ⟨p, hp, hall⟩ := List.any_eq_true.mp ((exact_jointlyFeasible hcs).mpr hfeasible)
  have hmem : p ∈ tried .standard cs :=
    List.mem_append.mpr ((List.mem_append.mp hp).imp_right fun h => crossings_subset hx h)
  exact jointlyFeasible_of_tried hmem
    fun k hk => Constraint.isSatisfied_of_allows (exact_allows.mp hall k hk)

/-- **A set that has a point is unbounded exactly when a direction is listed**, provided that
its boundaries cross visibly where they are not parallel. -/
theorem solve_unbounded_directions {limit : Nat} {set : ConstraintSet ℝ} (hset : set.Proper)
    (hsize : set.explicit.length ≤ limit) (hx : CrossVisibly set.constraints)
    (hfeasible : (feasible set.constraints).Nonempty) :
    ∃ r, (⟨.standard, limit⟩ : Solver ℝ).solve set = .ok r ∧ r.isFeasible = true ∧
      (r.status = .unbounded ↔ r.openDirections ≠ []) := by
  have hjoint := standard_jointlyFeasible hset hx hfeasible
  have hsome := (isFeasible_regionOf .standard set.constraints).trans hjoint
  refine ⟨_, Solver.solve_of_size hsize, hsome, ?_⟩
  rcases regionOf_kind .standard set.constraints with ⟨-, hr⟩ | ⟨hc, -, hr⟩ | ⟨-, -, hr⟩ <;>
    rw [hr] at hsome ⊢
  · cases recessionRays .standard set.constraints with
    | nil => exact iff_of_false nofun fun h => h rfl
    | cons d ds => exact iff_of_true rfl (List.cons_ne_nil d ds)
  · -- without corners all boundaries are parallel, and their own direction is open
    have hexact : corners .exact set.constraints = [] :=
      not_not.mp fun h => standard_corners_ne_nil hx h hc
    obtain ⟨p, hp⟩ := hfeasible
    have hrays := recessionRays_ne_nil_of_parallel hset
      (not_crossing_of_no_corners hset hexact hp)
    exact iff_of_true rfl (standard_recessionRays_ne_nil hrays)
  · cases hsome

/-- The first quadrant, by its two bounds. -/
noncomputable def quadrant : ConstraintSet ℝ :=
  .of [⟨1, 0, 0, .ge, "x >= 0"⟩, ⟨0, 1, 0, .ge, "y >= 0"⟩] false

theorem quadrant_proper : quadrant.Proper :=
  ConstraintSet.of_proper (by simp [Constraint.Proper]) false

theorem quadrant_crossVisibly : CrossVisibly quadrant.constraints := by
  rw [quadrant, ConstraintSet.constraints_of_false]
  simp only [CrossVisibly, List.forall_mem_cons]
  norm_num [Constraint.Crosses, Constraint.rowSize, Constraint.normal, Vec.cross_eq]

theorem quadrant_nonempty : (feasible quadrant.constraints).Nonempty :=
  ⟨0, by simp [feasible, quadrant, Constraint.Allows, Relation.Holds]⟩

theorem solve_unbounded_quadrant :
    quadrant.Proper ∧ quadrant.explicit.length ≤ 50 ∧ CrossVisibly quadrant.constraints ∧
    (feasible quadrant.constraints).Nonempty ∧
    ∃ r, (⟨.standard, 50⟩ : Solver ℝ).solve quadrant = .ok r ∧ r.isFeasible = true ∧
      (r.status = .unbounded ↔ r.openDirections ≠ []) := by
  have hsize : quadrant.explicit.length ≤ 50 := by decide
  exact ⟨quadrant_proper, hsize, quadrant_crossVisibly, quadrant_nonempty,
    solve_unbounded_directions quadrant_proper hsize quadrant_crossVisibly quadrant_nonempty⟩

/-! ## A triangle turned inside out

Each bound misses the origin by less than the slack there, each crossing misses the third bound
by more than it. -/

/-- `x >= 0.0000000009`, `y >= 0.0000000009` and `x + y <= -0.0000000009`. -/
noncomputable def hollow : ConstraintSet ℝ :=
  .of [⟨1, 0, 9e-10, .ge, "x >= 0.0000000009"⟩, ⟨0, 1, 9e-10, .ge, "y >= 0.0000000009"⟩,
    ⟨1, 1, -9e-10, .le, "x + y <= -0.0000000009"⟩] false

theorem hollow_proper : hollow.Proper :=
  ConstraintSet.of_proper (by simp [Constraint.Proper]) false

/-- What being allowed means at a point whose coordinates are small. -/
theorem hollow_allows : allows .standard hollow.constraints p = true ↔
    9e-10 - 1e-9 * (1 + (|p.x| + 9e-10)) ≤ p.x ∧ 9e-10 - 1e-9 * (1 + (|p.y| + 9e-10)) ≤ p.y ∧
      p.x + p.y ≤ -9e-10 + 1e-9 * (1 + (|p.x| + |p.y| + 9e-10)) := by
  simp only [allows, hollow, ConstraintSet.constraints_of_false, List.all_cons, List.all_nil,
    Bool.and_true, Bool.and_eq_true, Constraint.isSatisfied_iff_within, Constraint.Within,
    Relation.HoldsWithin, Constraint.slackAt, one_mul, zero_mul, add_zero, zero_add, abs_zero,
    abs_neg, abs_of_pos (by norm_num : (0 : ℝ) < 9e-10)]

theorem hollow_corners : corners .standard hollow.constraints = [] := by
  refine (corners_eq_nil _ _).mpr fun p hp => Bool.eq_false_iff.mpr fun hall => ?_
  rw [hollow_allows] at hall
  obtain ⟨⟨k, l⟩, hkl, hc⟩ := List.mem_filterMap.mp hp
  obtain ⟨-, hk, hl⟩ := Constraint.standard_crossing.mp hc
  simp only [hollow, ConstraintSet.constraints_of_false, pairs, List.map_cons, List.map_nil,
    List.append_nil, List.cons_append, List.nil_append, List.mem_cons, List.not_mem_nil,
    or_false, Prod.mk.injEq] at hkl
  obtain ⟨h₁, h₂, h₃⟩ := hall
  rcases hkl with ⟨rfl, rfl⟩ | ⟨rfl, rfl⟩ | ⟨rfl, rfl⟩ <;>
    simp only [Constraint.OnBoundary, one_mul, zero_mul, add_zero, zero_add] at hk hl
  · rw [hk, hl] at h₃
    norm_num at h₃
  · have hy : p.y = -18e-10 := by linarith
    rw [hy] at h₂
    norm_num at h₂
  · have hx : p.x = -18e-10 := by linarith
    rw [hx] at h₁
    norm_num at h₁

/-- How far outward a direction may go that counts as receding. -/
theorem dot_le_of_recedes (hcs : ∀ k ∈ cs, k.Proper) {h : HalfPlane} (hh : h ∈ sidesOf cs)
    {d : Vec ℝ} (hrec : recedes .standard (normalsOf cs) d = true) :
    h.normal.dot d ≤ 2e-9 * h.normal.norm := by
  obtain ⟨k, hk, hs⟩ := mem_sidesOf.mp hh
  have hpos := Vec.norm_pos (Constraint.side_ne_zero (hcs k hk) hs)
  rw [recedes, List.all_eq_true, normalsOf_eq, List.forall_mem_map] at hrec
  have hle := (Tolerance.holds_le _ _ _ _).mp (hrec h hh)
  rw [Tolerance.standard_slack, abs_one, sub_zero, Vec.normalize_eq, Vec.smul_dot,
    inv_mul_le_iff₀ hpos] at hle
  linarith

theorem hollow_recessionRays : recessionRays .standard hollow.constraints = [] := by
  refine (recessionRays_eq_nil _ _).mpr ⟨List.cons_ne_nil _ _, fun d hd => ?_⟩
  refine Bool.eq_false_iff.mpr fun hrec => ?_
  have hunit : d.x * d.x + d.y * d.y = 1 :=
    rayCandidates_unit (fun n hn => normalsOf_unit hollow_proper hn) hd
  have hside : ∀ h ∈ sidesOf hollow.constraints,
      h.normal.x * h.normal.x + h.normal.y * h.normal.y ≤ 4 → h.normal.dot d ≤ 4e-9 := by
    intro h hh hsq
    have hshort : h.normal.norm ≤ 2 :=
      Real.sqrt_le_iff.mpr ⟨zero_le_two, hsq.trans_eq (by norm_num)⟩
    exact (dot_le_of_recedes hollow_proper hh hrec).trans (by linarith)
  have hsides : sidesOf hollow.constraints =
      [⟨⟨-1, -0⟩, -9e-10⟩, ⟨⟨-0, -1⟩, -9e-10⟩, ⟨⟨1, 1⟩, -9e-10⟩] := rfl
  simp only [hsides, List.forall_mem_cons, Vec.dot_eq] at hside
  norm_num at hside
  obtain ⟨hx, hy, hsum⟩ := hside
  have hxsmall : |d.x| ≤ 8e-9 := abs_le.mpr ⟨by linarith, by linarith⟩
  have hysmall : |d.y| ≤ 8e-9 := abs_le.mpr ⟨by linarith, by linarith⟩
  rw [← abs_mul_abs_self d.x, ← abs_mul_abs_self d.y] at hunit
  linarith [mul_le_mul hxsmall hxsmall (abs_nonneg _) (by norm_num),
    mul_le_mul hysmall hysmall (abs_nonneg _) (by norm_num)]

/-- The origin is allowed, and nothing else that is tried. -/
theorem solve_hollow : ∃ r, (⟨.standard, 50⟩ : Solver ℝ).solve hollow = .ok r ∧
    r.status = .unbounded ∧ r.openDirections = [] := by
  have horigin : allows .standard hollow.constraints Vec.origin = true := by
    rw [hollow_allows]
    norm_num [Vec.origin]
  refine ⟨_, Solver.solve_of_size (by decide), ?_⟩
  rcases regionOf_kind .standard hollow.constraints with ⟨hc, -⟩ | ⟨-, -, hr⟩ | ⟨-, hs, -⟩
  · exact absurd hollow_corners hc
  · rw [hr]
    exact ⟨rfl, hollow_recessionRays⟩
  · have hnone := (samplePoints_eq_nil _ _).mp hs Vec.origin List.mem_cons_self
    rw [horigin] at hnone
    cases hnone

end PlanarLP
