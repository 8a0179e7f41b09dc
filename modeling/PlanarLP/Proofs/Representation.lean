import Mathlib.Algebra.Group.Pointwise.Set.Basic
import PlanarLP.Proofs.Feasibility
import PlanarLP.Proofs.Recession

/-! What a solved region says about the feasible set, in exact arithmetic: its points are the
convex combinations of the candidates moved along non-negative combinations of the open
directions (`regionOf_generated`). Candidates are the corners where two boundaries are not
parallel, and otherwise the sample points. -/

namespace PlanarLP

open Pointwise

variable {cs : List (Constraint ℝ)} {p : Vec ℝ}

/-! ## The three kinds of region -/

theorem regionOf_cases (cs : List (Constraint ℝ)) :
    (corners .exact cs ≠ [] ∧
      regionOf .exact cs = .cornered (corners .exact cs) (recessionRays .exact cs)) ∨
    (corners .exact cs = [] ∧ samplePoints .exact cs ≠ [] ∧
      regionOf .exact cs = .cornerless (samplePoints .exact cs) (recessionRays .exact cs)) ∨
    (corners .exact cs = [] ∧ samplePoints .exact cs = [] ∧
      regionOf .exact cs = .infeasible (smallestConflicts .exact cs)) :=
  regionOf_kind .exact cs

theorem mem_samplePoints_position : p ∈ (samplePoints .exact cs).map Vertex.position ↔
    p ∈ probes cs ∧ p ∈ feasible cs := by
  rw [samplePoints_eq, map_vertexAt_position, mem_distinctPoints, List.mem_filter, exact_allows]

theorem mem_corners_feasible (hp : p ∈ (corners .exact cs).map Vertex.position) :
    p ∈ feasible cs := (mem_corners_position.mp hp).1

/-- Two boundaries that are not parallel. -/
def Crossing (cs : List (Constraint ℝ)) : Prop :=
  ∃ k ∈ cs, ∃ l ∈ cs, k.normal.cross l.normal ≠ 0

theorem crossing_of_corners (h : corners .exact cs ≠ []) : Crossing cs := by
  obtain ⟨v, hv⟩ := List.exists_mem_of_ne_nil _ h
  obtain ⟨-, k, hk, l, hl, hne, -⟩ :=
    mem_extremePoints_feasible.mp (mem_corners_position.mp (List.mem_map_of_mem hv))
  exact ⟨k, hk, l, hl, hne⟩

/-- A direction along one of several parallel boundaries runs along all of them. -/
theorem dot_side_eq_zero (hcs : ∀ k ∈ cs, k.Proper) (hx : ¬Crossing cs) {k : Constraint ℝ}
    {d : Vec ℝ} (hk : k ∈ cs) (hd : k.normal.dot d = 0) :
    ∀ h ∈ sidesOf cs, h.normal.dot d = 0 := by
  intro h hh
  obtain ⟨l, hl, hs⟩ := mem_sidesOf.mp hh
  have hpar : k.normal.cross l.normal = 0 := by
    by_contra hc
    exact hx ⟨k, hk, l, hl, hc⟩
  have hdot := Vec.dot_eq_zero_of_parallel (hcs k hk).normal_ne_zero hpar hd
  rcases Constraint.mem_sides hs with rfl | rfl
  · exact hdot
  · rw [Vec.neg_dot, hdot, neg_zero]

/-! ## Sums with the cone of open directions -/

theorem add_rayCone_subset (hcs : ∀ k ∈ cs, k.Proper) {V : Set (Vec ℝ)}
    (hV : V ⊆ feasible cs) : convexHull ℝ V + (rayCone cs : Set (Vec ℝ)) ⊆ feasible cs := by
  rintro _ ⟨q, hq, d, hd, rfl⟩
  have hqF := convexHull_min hV (convex_feasible cs) hq
  rw [feasible_eq_common] at hqF ⊢
  exact HalfPlane.common_add_recession hqF (rayCone_le hcs hd)

theorem convex_add_rayCone (cs : List (Constraint ℝ)) (V : Set (Vec ℝ)) :
    Convex ℝ (convexHull ℝ V + (rayCone cs : Set (Vec ℝ))) :=
  (convex_convexHull ℝ V).add (rayCone cs).convex

theorem mem_add_rayCone (hcs : ∀ k ∈ cs, k.Proper) {V : Set (Vec ℝ)} {q d : Vec ℝ}
    (hq : q ∈ V) (hd : d ∈ HalfPlane.recession (sidesOf cs)) :
    q + d ∈ convexHull ℝ V + (rayCone cs : Set (Vec ℝ)) :=
  Set.add_mem_add (subset_convexHull ℝ V hq) ((mem_rayCone hcs).mpr hd)

theorem add_recession_mem (hcs : ∀ k ∈ cs, k.Proper) {V : Set (Vec ℝ)} :
    ∀ d ∈ HalfPlane.recession (sidesOf cs), ∀ q ∈ convexHull ℝ V + (rayCone cs : Set (Vec ℝ)),
      q + d ∈ convexHull ℝ V + (rayCone cs : Set (Vec ℝ)) := by
  rintro d hd _ ⟨v, hv, e, he, rfl⟩
  rw [add_assoc]
  exact Set.add_mem_add hv (add_mem he ((mem_rayCone hcs).mpr hd))

/-! ## Every feasible point is generated -/

/-- A convex set closed under the directions of escape that has the corners has all feasible
points, unless all boundaries are parallel. -/
theorem feasible_subset_of_corners {R : Set (Vec ℝ)} (hR : Convex ℝ R) (hx : Crossing cs)
    (hrec : ∀ d ∈ HalfPlane.recession (sidesOf cs), ∀ q ∈ R, q + d ∈ R)
    (hcorner : ∀ p ∈ (corners .exact cs).map Vertex.position, p ∈ R) : feasible cs ⊆ R := by
  obtain ⟨k, hk, l, hl, hne⟩ := hx
  obtain ⟨g, hg⟩ := k.exists_side
  obtain ⟨h, hh⟩ := l.exists_side
  rw [feasible_eq_common]
  refine HalfPlane.common_subset_of_corners hR
    ⟨g, mem_sidesOf.mpr ⟨k, hk, hg⟩, h, mem_sidesOf.mpr ⟨l, hl, hh⟩,
      (Constraint.cross_sides hg hh).mpr hne⟩ hrec fun p hp => hcorner p ?_
  exact mem_corners_position.mpr (mem_extremePoints_feasible.mpr (isCorner_sidesOf.mp hp))

theorem feasible_subset_of_crossing (hcs : ∀ k ∈ cs, k.Proper) (hx : Crossing cs) :
    feasible cs ⊆ convexHull ℝ {p | p ∈ (corners .exact cs).map Vertex.position} +
      (rayCone cs : Set (Vec ℝ)) := by
  refine feasible_subset_of_corners (convex_add_rayCone cs _) hx (add_recession_mem hcs)
    fun p hp => ?_
  rw [← add_zero p]
  exact mem_add_rayCone hcs hp (HalfPlane.recessionCone _).zero_mem

theorem Constraint.Proper.boundaryPoint {k : Constraint ℝ} (hk : k.Proper) :
    k.OnBoundary k.boundaryPoint := by
  have hsq : k.normal.normSq ≠ 0 := (Vec.dot_self_pos hk.normal_ne_zero).ne'
  have hdot : k.normal.dot k.boundaryPoint = k.c := by
    rw [Constraint.boundaryPoint, Vec.scale_eq, Vec.dot_smul]
    exact div_mul_cancel₀ k.c hsq
  exact hdot

/-- Along parallel boundaries every feasible point of one can be slid to its point nearest to
the origin. -/
theorem feasible_subset_of_parallel (hcs : ∀ k ∈ cs, k.Proper) (hx : ¬Crossing cs) :
    feasible cs ⊆ convexHull ℝ {p | p ∈ (samplePoints .exact cs).map Vertex.position} +
      (rayCone cs : Set (Vec ℝ)) := by
  by_cases hne : cs = []
  · subst hne
    intro p hp
    have horigin : (0 : Vec ℝ) ∈ (samplePoints .exact []).map Vertex.position :=
      mem_samplePoints_position.mpr ⟨List.mem_cons_self, fun k hk => by cases hk⟩
    rw [← zero_add p]
    exact Set.add_mem_add (subset_convexHull ℝ _ horigin) (rayCone_nil p)
  obtain ⟨k₀, hk₀⟩ := List.exists_mem_of_ne_nil cs hne
  obtain ⟨h₀, hh₀⟩ := k₀.exists_side
  rw [feasible_eq_common]
  refine HalfPlane.common_subset_of_edges (convex_add_rayCone cs _)
    ⟨h₀, mem_sidesOf.mpr ⟨k₀, hk₀, hh₀⟩, Constraint.side_ne_zero (hcs k₀ hk₀) hh₀⟩
    (add_recession_mem hcs) fun p hp h hh _ hmeet => ?_
  obtain ⟨k, hk, hs⟩ := mem_sidesOf.mp hh
  have hslide : k.normal.dot (p - k.boundaryPoint) = 0 := by
    have hp' : k.normal.dot p = k.c := (Constraint.meets_iff hs).mp hmeet
    have hb' : k.normal.dot k.boundaryPoint = k.c := (hcs k hk).boundaryPoint
    rw [sub_eq_add_neg, Vec.dot_add, Vec.dot_neg, hp', hb', add_neg_cancel]
  -- no boundary is left or met by sliding along one of them
  have hflat := dot_side_eq_zero hcs hx hk hslide
  have hb : k.boundaryPoint ∈ feasible cs := by
    rw [feasible_eq_common, ← sub_sub_cancel p k.boundaryPoint, sub_eq_add_neg]
    refine HalfPlane.common_add_recession hp fun g hg => ?_
    rw [Vec.dot_neg, hflat g hg, neg_zero]
  have hmem : k.boundaryPoint ∈ (samplePoints .exact cs).map Vertex.position :=
    mem_samplePoints_position.mpr ⟨List.mem_cons_of_mem _ (List.mem_map_of_mem hk), hb⟩
  rw [← add_sub_cancel k.boundaryPoint p]
  exact mem_add_rayCone hcs hmem fun g hg => (hflat g hg).le

/-! ## The region as a generated set -/

/-- Convex combinations of the candidates plus non-negative combinations of the open
directions. -/
def Region.generated (r : Region ℝ) : Set (Vec ℝ) :=
  convexHull ℝ {p | p ∈ r.candidates.map Vertex.position} +
    (PointedCone.hull ℝ {d | d ∈ r.openDirections} : Set (Vec ℝ))

theorem candidates_feasible (hp : p ∈ (regionOf .exact cs).candidates.map Vertex.position) :
    p ∈ feasible cs := by
  rcases regionOf_cases cs with ⟨-, hr⟩ | ⟨-, -, hr⟩ | ⟨-, -, hr⟩ <;> rw [hr] at hp
  · exact mem_corners_feasible hp
  · exact (mem_samplePoints_position.mp hp).2
  · cases hp

theorem generated_of_no_candidates {r : Region ℝ} (h : r.candidates = []) :
    r.generated = ∅ := by
  simp [Region.generated, h]

/-- Without corners the boundaries of an inhabited set are parallel. -/
theorem not_crossing_of_no_corners (hcs : ∀ k ∈ cs, k.Proper) (hc : corners .exact cs = [])
    (hp : p ∈ feasible cs) : ¬Crossing cs := by
  intro hx
  have hmem := feasible_subset_of_crossing hcs hx hp
  simp [hc] at hmem

theorem regionOf_generated (hcs : ∀ k ∈ cs, k.Proper) :
    feasible cs = (regionOf .exact cs).generated := by
  rcases regionOf_cases cs with ⟨hc, hr⟩ | ⟨hc, hs, hr⟩ | ⟨hc, hs, hr⟩ <;> rw [hr]
  · exact (feasible_subset_of_crossing hcs (crossing_of_corners hc)).antisymm
      (add_rayCone_subset hcs fun p hp => mem_corners_feasible hp)
  · obtain ⟨w, hw⟩ := List.exists_mem_of_ne_nil _ hs
    have hmem := (mem_samplePoints_position.mp (List.mem_map_of_mem hw)).2
    exact (feasible_subset_of_parallel hcs (not_crossing_of_no_corners hcs hc hmem)).antisymm
      (add_rayCone_subset hcs fun p hp => (mem_samplePoints_position.mp hp).2)
  · rw [generated_of_no_candidates rfl, Set.eq_empty_iff_forall_notMem]
    intro p hp
    have hmem := feasible_subset_of_parallel hcs (not_crossing_of_no_corners hcs hc hp) hp
    simp [hs] at hmem

theorem Solver.solve_exact {limit : Nat} {set : ConstraintSet ℝ} {r : Region ℝ}
    (h : (⟨.exact, limit⟩ : Solver ℝ).solve set = .ok r) :
    r = regionOf .exact set.constraints := (Solver.solve_eq_ok.mp h).2

/-- **A solved region generates the feasible set**, whichever kind of region it is. For an
infeasible one both sides are empty. -/
theorem solve_generates_feasible {limit : Nat} {set : ConstraintSet ℝ} {r : Region ℝ}
    (hset : set.Proper) (hsolve : (⟨.exact, limit⟩ : Solver ℝ).solve set = .ok r) :
    feasible set.constraints = r.generated := by
  rw [Solver.solve_exact hsolve]
  exact regionOf_generated hset

/-- The part of the first quadrant above the line `x + y = 1`. -/
noncomputable def wedge : ConstraintSet ℝ := .of [⟨1, 1, 1, .ge, "x + y >= 1"⟩] true

theorem wedge_proper : wedge.Proper := ConstraintSet.of_proper (by simp [Constraint.Proper]) true

theorem solve_generates_wedge :
    wedge.Proper ∧ ∃ r, (⟨.exact, 50⟩ : Solver ℝ).solve wedge = .ok r ∧
      feasible wedge.constraints = r.generated := by
  have hsolve : (⟨.exact, 50⟩ : Solver ℝ).solve wedge =
      .ok (regionOf .exact wedge.constraints) := rfl
  exact ⟨wedge_proper, _, hsolve, solve_generates_feasible wedge_proper hsolve⟩

end PlanarLP
