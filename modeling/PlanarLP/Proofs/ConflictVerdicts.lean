import PlanarLP.Proofs.Evidence

/-! Conflicts put back to the solver, at the standard tolerance. A conflict stands for a set of
its own: the solver should find it infeasible, and any fewer of its constraints feasible
(`Conflict.Stands`). Triples are tested by points as sets are, pairs along a unit normal, so the
two agree where all normals have unit length and opposed pairs are opposed by a margin
(`solve_conflicts_stand`). With longer normals a triple can contain a pair that is infeasible
already (`solve_hairline_triple`). -/

namespace PlanarLP

/-- The constraints with some indices, as a set without default bounds. -/
def ConstraintSet.select {α : Type} [Scalar α] (set : ConstraintSet α) (is : List Nat) :
    ConstraintSet α := .of (is.filterMap set.get?) false

/-- What the solver says when it is asked again. -/
structure Conflict.Stands {α : Type} [Scalar α] (c : Conflict) (solver : Solver α)
    (set : ConstraintSet α) : Prop where
  /-- The constraints of the conflict are infeasible by themselves. -/
  infeasible : ∃ r, solver.solve (set.select c.indices) = .ok r ∧ r.isFeasible = false
  /-- Any fewer of them are feasible. -/
  minimal : ∀ is, is.Sublist c.indices → is ≠ c.indices →
    ∃ r, solver.solve (set.select is) = .ok r ∧ r.isFeasible = true

theorem exists_solve_select {α : Type} [Scalar α] {tol : Tolerance α} {limit : Nat}
    {set : ConstraintSet α} {is : List Nat} {answer : Bool} (hlen : is.length ≤ limit)
    (h : jointlyFeasible tol (is.filterMap set.get?) = answer) :
    ∃ r, (⟨tol, limit⟩ : Solver α).solve (set.select is) = .ok r ∧ r.isFeasible = answer :=
  h ▸ Solver.exists_solve_given ((List.length_filterMap_le _ _).trans hlen) tol

variable {k l : Constraint ℝ} {cs : List (Constraint ℝ)}

/-! ## Fewer constraints than a conflict has -/

theorem Constraint.proper_of_unit (h : k.normal.norm = 1) : k.Proper := by
  by_contra hzero
  rw [Proper, not_or, not_not, not_not] at hzero
  have hnorm : k.normal.norm = √(k.a * k.a + k.b * k.b) := rfl
  rw [hnorm, hzero.1, hzero.2, mul_zero, add_zero, Real.sqrt_zero] at h
  exact zero_ne_one h

theorem Constraint.faces_of_unit (h : k.normal.norm = 1) : k.Faces k.normal :=
  ⟨proper_of_unit h, by rw [Vec.normalize_eq, h, inv_one, one_smul]⟩

theorem jointlyFeasible_single (hk : k.Proper) : jointlyFeasible .standard [k] = true := by
  refine jointlyFeasible_of_tried (p := k.boundaryPoint) (by simp [tried, probes]) ?_
  simpa using Constraint.isSatisfied_of_allows hk.boundaryPoint.allows

/-- At most two constraints hold together if they are not a conflict. -/
theorem jointlyFeasible_few (hunit : ∀ k ∈ cs, k.normal.norm = 1) {is : List Nat}
    (hascending : is.Pairwise (· < ·)) (hbound : ∀ i ∈ is, i < cs.length) (hlen : is.length ≤ 2)
    (hpairs : is.length = 2 → pairConflicts .standard cs = []) :
    jointlyFeasible .standard (is.filterMap fun i => cs[i]?) = true := by
  have hproper : ∀ {i : Nat} {k : Constraint ℝ}, cs[i]? = some k → k.Proper := fun hk =>
    Constraint.proper_of_unit (hunit _ (List.mem_of_getElem? hk))
  have hget : ∀ i ∈ is, ∃ k, cs[i]? = some k := fun i hi =>
    ⟨_, List.getElem?_eq_getElem (hbound i hi)⟩
  match is with
  | [] => exact jointlyFeasible_of_tried (p := Vec.origin) (by simp [tried, probes]) nofun
  | [i] =>
    obtain ⟨k, hk⟩ := hget i (by simp)
    simpa [hk] using jointlyFeasible_single (hproper hk)
  | [i, j] =>
    obtain ⟨k, hk⟩ := hget i (by simp)
    obtain ⟨l, hl⟩ := hget j (by simp)
    simp only [List.pairwise_cons, List.mem_singleton, forall_eq] at hascending
    have hopp := not_opposed_of_no_pairs (hpairs rfl) hascending.1 hk hl
    simpa [hk, hl] using jointlyFeasible_pair (hproper hk) (hproper hl)
      (hunit l (List.mem_of_getElem? hl)).le hopp
  | _ :: _ :: _ :: _ =>
    simp only [List.length_cons] at hlen
    omega

/-! ## Conflicts of an infeasible set -/

theorem Conflict.length_indices (c : Conflict) : c.indices.length ≤ 3 := by
  cases c with
  | pair i j => exact Nat.le_succ 2
  | triple i j h => exact Nat.le_refl 3

variable {limit : Nat} {set : ConstraintSet ℝ} {c : Conflict}

/-- A conflict stands if it is infeasible and, where it is a triple, there is no pair. -/
theorem Conflict.stands_of_infeasible (hlimit : 3 ≤ limit)
    (hunit : ∀ k ∈ set.constraints, k.normal.norm = 1) (hascending : c.indices.Pairwise (· < ·))
    (hbound : ∀ i ∈ c.indices, i < set.constraints.length)
    (hinfeasible : jointlyFeasible .standard (c.indices.filterMap set.get?) = false)
    (hpairs : c.indices.length = 3 → pairConflicts .standard set.constraints = []) :
    c.Stands ⟨.standard, limit⟩ set where
  infeasible := exists_solve_select (c.length_indices.trans hlimit) hinfeasible
  minimal := by
    intro is hsub hne
    have hlt : is.length < c.indices.length :=
      lt_of_le_of_ne hsub.length_le fun h => hne (hsub.eq_of_length h)
    have hthree := c.length_indices
    refine exists_solve_select (by omega) (jointlyFeasible_few hunit (hascending.sublist hsub)
      (fun i hi => hbound i (hsub.subset hi)) (by omega) fun htwo => hpairs (by omega))

/-- **A reported conflict stands before the solver that reported it**, if all normals have unit
length and opposed pairs are opposed by a margin. -/
theorem solve_conflicts_stand {found : List Conflict} (hlimit : 3 ≤ limit)
    (hunit : ∀ k ∈ set.constraints, k.normal.norm = 1)
    (hclear : ∀ k l, [k, l].Sublist set.constraints → areOpposed .standard k l = true →
      areOpposed .wide k l = true)
    (hsolve : (⟨.standard, limit⟩ : Solver ℝ).solve set = .ok (.infeasible found)) :
    ∀ c ∈ found, c.Stands ⟨.standard, limit⟩ set := by
  obtain ⟨-, hregion⟩ := Solver.solve_eq_ok.mp hsolve
  obtain ⟨-, rfl⟩ := regionOf_eq_infeasible.mp hregion.symm
  have hbound : ∀ {i : Nat} {k : Constraint ℝ}, set.constraints[i]? = some k →
      i < set.constraints.length := fun hk => (List.getElem?_eq_some_iff.mp hk).1
  intro c hc
  rcases smallestConflicts_cases .standard set.constraints with ⟨-, hs⟩ | ⟨hnil, hs⟩ <;>
    rw [hs] at hc
  · obtain ⟨i, j, k, l, hij, hk, hl, hopp, rfl⟩ := mem_pairConflicts.mp hc
    have hkunit := hunit k (List.mem_of_getElem? hk)
    have hlunit := hunit l (List.mem_of_getElem? hl)
    have hsub : [k, l].Sublist set.constraints :=
      sublist_of_positions [(k, i), (l, j)] (by simp [hij]) (by simp [hk, hl])
    refine Conflict.stands_of_infeasible hlimit hunit ?_ ?_ ?_ nofun
    · simpa [Conflict.indices] using hij
    · simpa [Conflict.indices] using ⟨hbound hk, hbound hl⟩
    · simpa [Conflict.indices, ConstraintSet.get?, hk, hl] using not_jointlyFeasible_pair
        (Constraint.proper_of_unit hkunit) (Constraint.proper_of_unit hlunit) hkunit.ge hlunit.ge
        (hclear k l hsub hopp)
  · obtain ⟨i, j, h, k, l, m, hij, hjh, hk, hl, hm, hnone, rfl⟩ := mem_tripleConflicts.mp hc
    refine Conflict.stands_of_infeasible hlimit hunit ?_ ?_ ?_ fun _ => hnil
    · simpa [Conflict.indices] using ⟨⟨hij, hij.trans hjh⟩, hjh⟩
    · simpa [Conflict.indices] using ⟨hbound hk, hbound hl, hbound hm⟩
    · simpa [Conflict.indices, ConstraintSet.get?, hk, hl, hm] using hnone

theorem apart_unit : ∀ k ∈ apart.constraints, k.normal.norm = 1 := by
  have hnorm : (⟨1, 0⟩ : Vec ℝ).norm = 1 := by
    have hsqrt : (⟨1, 0⟩ : Vec ℝ).norm = √(1 * 1 + 0 * 0) := rfl
    rw [hsqrt, mul_zero, add_zero, mul_one, Real.sqrt_one]
  simp only [apart, ConstraintSet.constraints_of_false, List.mem_cons, List.not_mem_nil, or_false,
    forall_eq_or_imp, forall_eq]
  exact ⟨hnorm, hnorm⟩

/-- The two bounds are opposed by any slack less than their distance. -/
theorem apart_opposed {tol : Tolerance ℝ} (htol : ∀ m, 0 ≤ tol.slack m)
    (hdet : 0 ≤ tol.determinant ∧ tol.determinant < 1) (hslack : tol.slack 1 < 1) :
    areOpposed tol apartUpper apartLower = true := by
  have hupper := apart_unit apartUpper List.mem_cons_self
  have hlower := apart_unit apartLower (List.mem_cons_of_mem _ List.mem_cons_self)
  refine (areOpposed_iff htol hdet.2 (Constraint.faces_of_unit hupper)
    (Constraint.faces_of_unit hlower)).mpr ⟨?_, ?_, ?_⟩
  · rw [show apartLower.normal = apartUpper.normal from rfl, Vec.cross_self, abs_zero]
    exact hdet.1
  · rintro ⟨t, hle, hge⟩
    norm_num [Constraint.Allows, Relation.Holds, apartUpper, apartLower, Constraint.normal]
      at hle hge
    linarith
  · have hzero : apartUpper.endAlong apartUpper.normal = 0 := zero_div _
    have hone : apartLower.endAlong apartUpper.normal = 1 := by
      norm_num [Constraint.endAlong, Constraint.normal, Vec.dot_eq, apartUpper, apartLower]
    rw [hzero, hone]
    norm_num [hslack]

theorem apart_opposed_standard : areOpposed .standard apartUpper apartLower = true :=
  apart_opposed Tolerance.standard_slack_nonneg (by norm_num [Tolerance.standard])
    (by norm_num [Tolerance.standard_slack])

theorem apart_opposed_wide : areOpposed .wide apartUpper apartLower = true :=
  apart_opposed Tolerance.wide_slack_nonneg (by norm_num [Tolerance.wide])
    (by norm_num [Tolerance.wide_slack])

theorem apart_clear (k l : Constraint ℝ) (hsub : [k, l].Sublist apart.constraints) :
    areOpposed .standard k l = true → areOpposed .wide k l = true := by
  have heq : [k, l] = [apartUpper, apartLower] := hsub.eq_of_length rfl
  cases heq
  exact fun _ => apart_opposed_wide

theorem apart_solve : (⟨.standard, 50⟩ : Solver ℝ).solve apart = .ok (.infeasible [.pair 0 1]) := by
  have hfound : smallestConflicts .standard apart.constraints = [.pair 0 1] := by
    simp [smallestConflicts, pairConflicts, pairs, List.zipIdx, apart, apart_opposed_standard]
  have hupper := apart_unit apartUpper List.mem_cons_self
  have hlower := apart_unit apartLower (List.mem_cons_of_mem _ List.mem_cons_self)
  have hinfeasible : jointlyFeasible .standard apart.constraints = false :=
    not_jointlyFeasible_pair (Constraint.proper_of_unit hupper)
      (Constraint.proper_of_unit hlower) hupper.ge hlower.ge apart_opposed_wide
  rw [Solver.solve_of_size (by decide), regionOf_eq_infeasible.mpr ⟨hinfeasible, hfound.symm⟩]

theorem solve_conflicts_apart :
    3 ≤ 50 ∧ (∀ k ∈ apart.constraints, k.normal.norm = 1) ∧
    (∀ k l, [k, l].Sublist apart.constraints → areOpposed .standard k l = true →
      areOpposed .wide k l = true) ∧
    (⟨.standard, 50⟩ : Solver ℝ).solve apart = .ok (.infeasible [.pair 0 1]) ∧
    ∀ c ∈ [Conflict.pair 0 1], c.Stands ⟨.standard, 50⟩ apart :=
  ⟨by decide, apart_unit, apart_clear, apart_solve,
    solve_conflicts_stand (by decide) apart_unit apart_clear apart_solve⟩

/-! ## A triple that is not minimal -/

/-- The two bounds whose gap only points see, above the axis. -/
noncomputable def hairlineAbove : ConstraintSet ℝ :=
  .of [hairlineUpper, hairlineLower, .yNonnegative] false

theorem yNonnegative_faces : Constraint.yNonnegative.Faces (⟨0, 1⟩ : Vec ℝ) := by
  refine Constraint.faces_of_unit ?_
  have hsqrt : (Constraint.yNonnegative : Constraint ℝ).normal.norm = √(0 * 0 + 1 * 1) := rfl
  rw [hsqrt, mul_zero, zero_add, mul_one, Real.sqrt_one]

theorem not_opposed_yNonnegative {k : Constraint ℝ} (hk : k.Faces ⟨1, 0⟩) :
    areOpposed .standard k .yNonnegative = false := by
  refine Bool.eq_false_iff.mpr fun hopp => ?_
  obtain ⟨hpar, -⟩ := (areOpposed_iff Tolerance.standard_slack_nonneg
    (by norm_num [Tolerance.standard]) hk yNonnegative_faces).mp hopp
  norm_num [Vec.cross_eq, Tolerance.standard] at hpar

/-- All three are reported, although the first two are infeasible without the third. -/
theorem solve_hairline_triple :
    (⟨.standard, 50⟩ : Solver ℝ).solve hairlineAbove = .ok (.infeasible [.triple 0 1 2]) ∧
    ¬(Conflict.triple 0 1 2).Stands ⟨.standard, 50⟩ hairlineAbove := by
  constructor
  · have hinfeasible : ∀ cs, hairlineUpper ∈ cs → hairlineLower ∈ cs →
        jointlyFeasible .standard cs = false := fun cs => hairline_infeasible
    have hfound : smallestConflicts .standard hairlineAbove.constraints = [.triple 0 1 2] := by
      simp [smallestConflicts, pairConflicts, tripleConflicts, pairs, triples, List.zipIdx,
        hairlineAbove, hairline_not_opposed, not_opposed_yNonnegative hairlineUpper_faces,
        not_opposed_yNonnegative hairlineLower_faces, hinfeasible]
    rw [Solver.solve_of_size (by decide), regionOf_eq_infeasible.mpr ⟨hinfeasible _ ?_ ?_,
      hfound.symm⟩] <;> simp [hairlineAbove]
  · intro hstands
    obtain ⟨r, hr, hfeasible⟩ := hstands.minimal [0, 1] (by decide) (by decide)
    obtain ⟨-, rfl⟩ := Solver.solve_eq_ok.mp hr
    rw [isFeasible_regionOf, hairline_infeasible] at hfeasible
    · cases hfeasible
    all_goals simp [hairlineAbove, ConstraintSet.select, ConstraintSet.get?]

end PlanarLP
