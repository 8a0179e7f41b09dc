import PlanarLP.Proofs.ConvexCycle
import PlanarLP.Proofs.Verdict

/-! Three or more corners form a polygon. They come in order of angle about their centroid, so
every other corner lies strictly to the left of the edge from one corner to the next, and a
region that is bounded consists of the points to the left of all edges (`corners_polygon`). -/

namespace PlanarLP

/-! ## Strictly convex polygons -/

variable {F : Set (Vec ℝ)} {c : Vec ℝ} {ps : List (Vec ℝ)}

/-- Every point but its two ends lies strictly to the left of the directed line from one point to
the next, the first after the last. -/
def StrictlyConvex (ps : List (Vec ℝ)) : Prop :=
  ∀ i j a b w, ps[i]? = some a → ps[(i + 1) % ps.length]? = some b → ps[j]? = some w →
    j ≠ i → j ≠ (i + 1) % ps.length → 0 < (b - a).cross (w - a)

theorem AngularCycle.strictlyConvex (h : AngularCycle F c ps) : StrictlyConvex ps := by
  intro i j a b w ha hb hw hji hjn
  have hdistinct : ∀ {k : Nat} {q : Vec ℝ}, ps[k]? = some q → j ≠ k → w ≠ q := by
    intro k q hq hjk heq
    obtain ⟨hj, -⟩ := List.getElem?_eq_some_iff.mp hw
    exact hjk ((List.getElem?_inj hj h.nodup).mp (by rw [hw, hq, heq]))
  exact h.left_of_edge (mem_edges_iff.mpr ⟨i, ha, hb⟩) (List.mem_of_getElem? hw)
    (hdistinct ha hji) (hdistinct hb hjn)

/-- The points to the left of all edges, or on one. -/
def leftOfEdges (ps : List (Vec ℝ)) : Set (Vec ℝ) :=
  {p | ∀ e ∈ edges ps, 0 ≤ (e.2 - e.1).cross (p - e.1)}

theorem convex_leftOfEdges (ps : List (Vec ℝ)) : Convex ℝ (leftOfEdges ps) := by
  intro p hp q hq s t hs ht hst e he
  have hmix : (e.2 - e.1).cross (s • p + t • q - e.1) =
      s * (e.2 - e.1).cross (p - e.1) + t * (e.2 - e.1).cross (q - e.1) := by
    obtain rfl : t = 1 - s := by linarith
    simp only [Vec.cross_eq, Vec.sub_x, Vec.sub_y, Vec.add_x, Vec.add_y, Vec.smul_x, Vec.smul_y]
    ring
  rw [hmix]
  exact add_nonneg (mul_nonneg hs (hp e he)) (mul_nonneg ht (hq e he))

theorem AngularCycle.leftOfEdges_eq (h : AngularCycle F c ps) :
    leftOfEdges ps = convexHull ℝ {p | p ∈ ps} := by
  apply Set.Subset.antisymm
  · intro p hp
    exact h.mem_of_left (convex_convexHull ℝ _) (fun q hq => subset_convexHull ℝ _ hq) hp
  · refine convexHull_min (fun w hw e he => ?_) (convex_leftOfEdges ps)
    by_cases hwa : w = e.1
    · rw [hwa, sub_self, Vec.cross_zero]
    · by_cases hwb : w = e.2
      · rw [hwb, Vec.cross_self]
      · exact (h.left_of_edge he hw hwa hwb).le

/-! ## The corners as a cycle -/

variable {cs : List (Constraint ℝ)}

theorem corners_angularCycle (hthree : 3 ≤ (corners .exact cs).length) :
    ∃ c, AngularCycle (feasible cs) c ((corners .exact cs).map Vertex.position) := by
  obtain ⟨found, hcorners⟩ : ∃ found, corners .exact cs = counterClockwise found :=
    ⟨_, corners_eq cs⟩
  have hperm : (corners .exact cs).Perm found := hcorners ▸ counterClockwise_perm found
  have hne : found ≠ [] := by
    intro hnil
    rw [hperm.length_eq, hnil] at hthree
    exact absurd hthree (by decide)
  exact ⟨centroid found,
    { convex := convex_feasible cs
      extreme := fun p hp => mem_corners_position.mp hp
      nodup := nodup_corners cs
      three := by rwa [List.length_map]
      mean := by
        rw [(hperm.map Vertex.position).sum_eq, sum_positions hne, List.length_map,
          hperm.length_eq]
      sorted := hcorners ▸ counterClockwise_sorted found }⟩

theorem Region.generated_of_closed {r : Region ℝ} (h : r.openDirections = []) :
    r.generated = convexHull ℝ {p | p ∈ r.candidates.map Vertex.position} := by
  simp [Region.generated, h]

theorem Region.openDirections_of_bounded {r : Region ℝ} (h : r.isBounded = true) :
    r.openDirections = [] := by
  cases r with
  | infeasible conflicts => rfl
  | cornerless ws ds => cases h
  | cornered vs ds =>
    cases ds with
    | nil => rfl
    | cons d ds => cases h

theorem candidates_of_corners (h : corners .exact cs ≠ []) :
    (regionOf .exact cs).candidates = corners .exact cs := by
  rcases regionOf_cases cs with ⟨-, hr⟩ | ⟨hc, -⟩ | ⟨hc, -⟩
  · rw [hr]; rfl
  · exact absurd hc h
  · exact absurd hc h

/-- **The corners are those of a strictly convex polygon**, in counter-clockwise order. A bounded
region is what its edges enclose. -/
theorem corners_polygon (hthree : 3 ≤ (corners .exact cs).length) :
    StrictlyConvex ((corners .exact cs).map Vertex.position) ∧
    ∀ limit set r, set.constraints = cs → set.Proper →
      (⟨.exact, limit⟩ : Solver ℝ).solve set = .ok r → r.isBounded = true →
      leftOfEdges ((corners .exact cs).map Vertex.position) = feasible cs := by
  obtain ⟨c, hcycle⟩ := corners_angularCycle hthree
  refine ⟨hcycle.strictlyConvex, ?_⟩
  rintro limit set r rfl hset hsolve hbounded
  have hne : corners .exact set.constraints ≠ [] := List.ne_nil_of_length_pos (by omega)
  have hclosed := Region.generated_of_closed (Region.openDirections_of_bounded hbounded)
  rw [hcycle.leftOfEdges_eq, solve_generates_feasible hset hsolve, hclosed,
    Solver.solve_exact hsolve, candidates_of_corners hne]

/-- The triangle between the axes and the line `x + y = 1`. -/
noncomputable def triangle : ConstraintSet ℝ :=
  .of [.xNonnegative, .yNonnegative, ⟨1, 1, 1, .le, "x + y <= 1"⟩] false

theorem triangle_constraints :
    triangle.constraints = [.xNonnegative, .yNonnegative, ⟨1, 1, 1, .le, "x + y <= 1"⟩] := rfl

theorem triangle_proper : triangle.Proper := ConstraintSet.of_proper (by
  simp [Constraint.Proper, Constraint.xNonnegative, Constraint.yNonnegative]) false

theorem mem_triangle {p : Vec ℝ} :
    p ∈ feasible triangle.constraints ↔ 0 ≤ p.x ∧ 0 ≤ p.y ∧ p.x + p.y ≤ 1 := by
  simp [feasible, triangle_constraints, Constraint.Allows, Relation.Holds,
    Constraint.xNonnegative, Constraint.yNonnegative]

theorem triangle_corners : 3 ≤ (corners .exact triangle.constraints).length := by
  have hmem : [(⟨0, 0⟩ : Vec ℝ), ⟨1, 0⟩, ⟨0, 1⟩] ⊆
      (corners .exact triangle.constraints).map Vertex.position := by
    intro p hp
    rw [mem_corners_position, mem_extremePoints_feasible, mem_triangle, triangle_constraints]
    simp only [List.mem_cons, List.not_mem_nil, or_false] at hp
    rcases hp with rfl | rfl | rfl <;>
      simp [Constraint.OnBoundary, Constraint.normal, Vec.cross_eq,
        Constraint.xNonnegative, Constraint.yNonnegative]
  have hnodup : [(⟨0, 0⟩ : Vec ℝ), ⟨1, 0⟩, ⟨0, 1⟩].Nodup := by simp
  simpa using (hnodup.subperm hmem).length_le

theorem triangle_bounded : (regionOf .exact triangle.constraints).isBounded = true := by
  have hzero : (⟨0, 0⟩ : Vec ℝ) ∈ feasible triangle.constraints := by simp [mem_triangle]
  have henclosed : Enclosed (feasible triangle.constraints) := by
    refine ⟨1, fun p hp => ?_⟩
    obtain ⟨hx, hy, hsum⟩ := mem_triangle.mp hp
    rw [abs_of_nonneg hx, abs_of_nonneg hy]
    exact ⟨by linarith, by linarith⟩
  rcases regionOf_status triangle_proper with
    ⟨-, -, hempty⟩ | ⟨-, -, ⟨hstatus, -⟩ | ⟨-, hopen⟩⟩
  · rw [hempty] at hzero
    exact hzero.elim
  · rw [Region.isBounded, hstatus]
    rfl
  · exact absurd henclosed hopen

theorem corners_polygon_triangle :
    3 ≤ (corners .exact triangle.constraints).length ∧ triangle.Proper ∧
    (⟨.exact, 50⟩ : Solver ℝ).solve triangle = .ok (regionOf .exact triangle.constraints) ∧
    (regionOf .exact triangle.constraints).isBounded = true ∧
    StrictlyConvex ((corners .exact triangle.constraints).map Vertex.position) ∧
    leftOfEdges ((corners .exact triangle.constraints).map Vertex.position) =
      feasible triangle.constraints := by
  obtain ⟨hconvex, henclosed⟩ := corners_polygon triangle_corners
  exact ⟨triangle_corners, triangle_proper, rfl, triangle_bounded, hconvex,
    henclosed 50 triangle _ rfl triangle_proper rfl triangle_bounded⟩

end PlanarLP
