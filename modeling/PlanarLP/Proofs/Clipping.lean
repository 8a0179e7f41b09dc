import PlanarLP.Proofs.Admitted
import PlanarLP.Proofs.Polygon
import PlanarLP.Proofs.WellFormed

/-! What a window shows of a region, in exact arithmetic. The corners of the clipped region
span what the region and the window have in common (`convexHull_clip`), since nothing in a
window runs off to infinity. A window that fits the candidates keeps them all off its frame, so
that the frame cuts nothing from a bounded region and the corners come out as they are, in
their order (`describe_clipped`). -/

namespace PlanarLP

variable {cs ls : List (Constraint ℝ)} {p : Vec ℝ} {w : Viewport ℝ} {m : ℝ}

/-! ## Constraints that cut nothing off -/

theorem feasible_append (cs ls : List (Constraint ℝ)) :
    feasible (cs ++ ls) = feasible cs ∩ feasible ls :=
  Set.ext fun _ => List.forall_mem_append

/-- `p` is on the allowed side, off the boundary. -/
def Constraint.StrictlyAllows (k : Constraint ℝ) (p : Vec ℝ) : Prop :=
  k.Allows p ∧ ¬k.OnBoundary p

theorem tightAt_append (h : ∀ l ∈ ls, ¬l.OnBoundary p) :
    tightAt .exact (cs ++ ls) p = tightAt .exact cs p := by
  have hnone : ∀ e ∈ ls.zipIdx (0 + cs.length), ¬e.1.isTight .exact p = true := by
    intro e he htight
    exact h e.1 (List.fst_mem_of_mem_zipIdx he) (Constraint.exact_isTight.mp htight)
  unfold tightAt
  rw [List.zipIdx_append, List.filter_append, List.filter_eq_nil_iff.mpr hnone, List.append_nil]

/-- Constraints that no feasible point is tight on change nothing about the corners, not even
the order in which they are found. -/
theorem corners_append (h : ∀ p ∈ feasible cs, ∀ l ∈ ls, l.StrictlyAllows p) :
    corners .exact (cs ++ ls) = corners .exact cs := by
  have hallows : ∀ p, allows .exact (cs ++ ls) p = allows .exact cs p := by
    intro p
    rw [Bool.eq_iff_iff, exact_allows, exact_allows, feasible_append]
    exact and_iff_left_of_imp fun hp l hl => (h p hp l hl).1
  -- no crossing with an appended boundary is feasible
  have hcross : ∀ k : Constraint ℝ, ∀ l ∈ ls,
      (k.crossing l .exact).filter (allows .exact cs) = none := by
    intro k l hl
    refine Option.filter_eq_none_iff.mpr fun p hp hfeasible => ?_
    obtain ⟨-, -, hlp⟩ := Constraint.crossing_eq_some.mp hp
    exact (h p (exact_allows.mp hfeasible) l hl).2 hlp
  have hpoints : cornerPoints (cs ++ ls) = cornerPoints cs := by
    unfold cornerPoints crossings
    rw [funext hallows, List.filter_filterMap, List.filter_filterMap,
      filterMap_pairs_append hcross]
  rw [corners_eq, corners_eq, hpoints]
  refine congrArg counterClockwise (List.map_congr_left fun p hp => ?_)
  have hp' := (mem_cornerPoints.mp hp).1
  exact congrArg (Vertex.atPoint p) (tightAt_append fun l hl => (h p hp' l hl).2)

/-- Without a direction of escape the corners span the feasible set. -/
theorem convexHull_corners (hx : Crossing cs)
    (hescape : ∀ d ∈ HalfPlane.recession (sidesOf cs), d = 0) :
    convexHull ℝ {p | p ∈ (corners .exact cs).map Vertex.position} = feasible cs := by
  refine (convexHull_min (fun p hp => mem_corners_feasible hp) (convex_feasible cs)).antisymm ?_
  refine feasible_subset_of_corners (convex_convexHull ℝ _) hx (fun d hd q hq => ?_)
    fun p hp => subset_convexHull ℝ _ hp
  rwa [hescape d hd, add_zero]

/-! ## Windows -/

namespace Viewport

/-- The points of a window. -/
def area (w : Viewport ℝ) : Set (Vec ℝ) := {p | w.contains p = true}

/-- The window without a margin `m` on every side. -/
def inset (w : Viewport ℝ) (m : ℝ) : Viewport ℝ :=
  ⟨w.xmin + m, w.xmax - m, w.ymin + m, w.ymax - m⟩

theorem mem_area : p ∈ w.area ↔ (w.xmin ≤ p.x ∧ p.x ≤ w.xmax) ∧ w.ymin ≤ p.y ∧ p.y ≤ w.ymax := by
  show w.contains p = true ↔ _
  simp only [contains, Bool.and_eq_true, decide_eq_true_eq, and_assoc]

theorem feasible_bounds (w : Viewport ℝ) : feasible w.bounds = w.area := by
  ext p
  rw [mem_area]
  simp [feasible, bounds, Constraint.Allows, Relation.Holds, and_assoc]

theorem convex_area (w : Viewport ℝ) : Convex ℝ w.area :=
  feasible_bounds w ▸ convex_feasible w.bounds

/-- Off the frame, every bound of the window has room. -/
theorem bounds_strictlyAllow (hm : 0 < m) (hp : p ∈ (w.inset m).area) :
    ∀ l ∈ w.bounds, l.StrictlyAllows p := by
  obtain ⟨⟨hxmin, hxmax⟩, hymin, hymax⟩ := mem_area.mp hp
  simp only [inset] at hxmin hxmax hymin hymax
  simp only [bounds, Constraint.StrictlyAllows, Constraint.Allows, Constraint.OnBoundary,
    Relation.Holds, List.forall_mem_cons, List.not_mem_nil, false_imp_iff, implies_true, and_true,
    one_mul, zero_mul, add_zero, zero_add]
  exact ⟨⟨by linarith, by linarith⟩, ⟨by linarith, by linarith⟩, ⟨by linarith, by linarith⟩,
    by linarith, by linarith⟩

theorem crossing_bounds (cs : List (Constraint ℝ)) (w : Viewport ℝ) :
    Crossing (cs ++ w.bounds) := by
  refine ⟨_, List.mem_append_right cs List.mem_cons_self, _,
    List.mem_append_right cs (List.mem_cons_of_mem _ (List.mem_cons_of_mem _ List.mem_cons_self)),
    ?_⟩
  simp [Constraint.normal, Vec.cross_eq]

/-- Nothing leaves a window for good. -/
theorem eq_zero_of_recession {d : Vec ℝ}
    (hd : d ∈ HalfPlane.recession (sidesOf (cs ++ w.bounds))) : d = 0 := by
  have hsides : ∀ l ∈ w.bounds, ∀ h ∈ l.sides, h.normal.dot d ≤ 0 := fun l hl h hh =>
    hd h (mem_sidesOf.mpr ⟨l, List.mem_append_right cs hl, hh⟩)
  simp only [bounds, Constraint.sides, Constraint.normal, List.forall_mem_cons, List.not_mem_nil,
    false_imp_iff, implies_true, and_true, Vec.dot_eq, Vec.neg_x, Vec.neg_y, neg_mul, one_mul,
    neg_zero, zero_mul, add_zero, zero_add, Left.neg_nonpos_iff] at hsides
  obtain ⟨hleft, hright, hdown, hup⟩ := hsides
  exact Vec.ext (le_antisymm hright hleft) (le_antisymm hup hdown)

/-! ## The window that fits -/

theorem fitAxis_cons (lo hi v : ℝ) (vs : List ℝ) : fitAxis lo hi (v :: vs) =
    (min lo (vs.foldl min v - 0.1 * max (vs.foldl max v - vs.foldl min v) 1),
      max hi (vs.foldl max v + 0.1 * max (vs.foldl max v - vs.foldl min v) 1)) := rfl

theorem fitAxis_shows (lo hi : ℝ) (vs : List ℝ) :
    (fitAxis lo hi vs).1 ≤ lo ∧ hi ≤ (fitAxis lo hi vs).2 ∧
      ∀ v ∈ vs, (fitAxis lo hi vs).1 + 0.1 ≤ v ∧ v ≤ (fitAxis lo hi vs).2 - 0.1 := by
  cases vs with
  | nil => exact ⟨le_rfl, le_rfl, nofun⟩
  | cons a vs =>
    rw [fitAxis_cons]
    refine ⟨min_le_left _ _, le_max_left _ _, fun v hv => ?_⟩
    have hlow : vs.foldl min a ≤ v := (Sense.minimize.foldl_better a vs).2 v hv
    have hhigh : v ≤ vs.foldl max a := (Sense.maximize.foldl_better a vs).2 v hv
    have hmargin : (0.1 : ℝ) ≤ 0.1 * max (vs.foldl max a - vs.foldl min a) 1 :=
      le_mul_of_one_le_right (by norm_num) (le_max_right _ _)
    constructor
    · exact (add_le_add (min_le_right _ _) hmargin).trans (by linarith)
    · exact le_trans (by linarith) (sub_le_sub (le_max_right _ _) hmargin)

/-- The window that fits shows the standard window, and every vertex with a margin. -/
theorem fit_shows (vs : List (Vertex ℝ)) : (standard : Viewport ℝ).area ⊆ (fit vs).area ∧
    ∀ v ∈ vs, v.position ∈ ((fit vs).inset 0.1).area := by
  obtain ⟨hxlow, hxhigh, hx⟩ := fitAxis_shows (-2.0) 15.0 (vs.map fun v => v.x)
  obtain ⟨hylow, hyhigh, hy⟩ := fitAxis_shows (-2.0) 15.0 (vs.map fun v => v.y)
  constructor
  · intro p hp
    obtain ⟨⟨hxmin, hxmax⟩, hymin, hymax⟩ := mem_area.mp hp
    exact mem_area.mpr ⟨⟨hxlow.trans hxmin, hxmax.trans hxhigh⟩,
      hylow.trans hymin, hymax.trans hyhigh⟩
  · intro v hv
    exact mem_area.mpr ⟨hx v.x (List.mem_map_of_mem hv), hy v.y (List.mem_map_of_mem hv)⟩

theorem inset_area_subset (hm : 0 < m) : (w.inset m).area ⊆ w.area := by
  intro p hp
  rw [← feasible_bounds w]
  exact fun l hl => (bounds_strictlyAllow hm hp l hl).1

end Viewport

/-! ## What a window shows -/

section Clip

variable {set : ConstraintSet ℝ}

theorem convexHull_clip (set : ConstraintSet ℝ) (w : Viewport ℝ) :
    convexHull ℝ {p | p ∈ clip .exact set w} = feasible set.constraints ∩ w.area := by
  rw [← w.feasible_bounds, ← feasible_append]
  exact convexHull_corners (w.crossing_bounds _) fun _ hd => Viewport.eq_zero_of_recession hd

theorem clip_eq_nil :
    clip .exact set w = [] ↔ feasible set.constraints ∩ w.area = ∅ := by
  rw [← convexHull_clip, convexHull_eq_empty, List.eq_nil_iff_forall_not_mem]
  exact Set.eq_empty_iff_forall_notMem.symm

/-- A corner that the window shows is still one after clipping. -/
theorem mem_clip (hp : p ∈ (corners .exact set.constraints).map Vertex.position)
    (hw : p ∈ w.area) : p ∈ clip .exact set w := by
  obtain ⟨hfeasible, k, hk, l, hl, hcorner⟩ :=
    mem_extremePoints_feasible.mp (mem_corners_position.mp hp)
  refine mem_corners_position.mpr (mem_extremePoints_feasible.mpr ⟨?_, k, ?_, l, ?_, hcorner⟩)
  · rw [feasible_append, w.feasible_bounds]
    exact ⟨hfeasible, hw⟩
  · exact List.mem_append_left _ hk
  · exact List.mem_append_left _ hl

/-- A window that keeps the whole region off its frame clips nothing. -/
theorem clip_of_inset (hm : 0 < m) (h : feasible set.constraints ⊆ (w.inset m).area) :
    clip .exact set w = (corners .exact set.constraints).map Vertex.position :=
  congrArg (List.map Vertex.position)
    (corners_append fun _ hp => Viewport.bounds_strictlyAllow hm (h hp))

end Clip

theorem Region.candidates_eq {α : Type} (r : Region α) :
    r.candidates = r.vertices ++ r.witnesses := by
  cases r with
  | infeasible found => rfl
  | cornerless ws ds => rfl
  | cornered vs ds => exact (List.append_nil vs).symm

/-- A set that is not empty is called feasible, and has candidates. -/
theorem isFeasible_of_nonempty (hcs : ∀ k ∈ cs, k.Proper) (hne : (feasible cs).Nonempty) :
    (regionOf .exact cs).isFeasible = true ∧ (regionOf .exact cs).candidates ≠ [] := by
  rcases regionOf_status hcs with ⟨-, -, hempty⟩ | ⟨hcandidates, -, hstatus⟩
  · exact absurd hempty hne.ne_empty
  · refine ⟨?_, hcandidates⟩
    rcases hstatus with ⟨hs, -⟩ | ⟨hs, -⟩ <;> rw [Region.isFeasible, hs] <;> rfl

/-- A bounded region lies where all its candidates lie. -/
theorem feasible_subset_of_bounded (hcs : ∀ k ∈ cs, k.Proper)
    (hbounded : (regionOf .exact cs).isBounded = true) {R : Set (Vec ℝ)} (hR : Convex ℝ R)
    (hmem : ∀ v ∈ (regionOf .exact cs).candidates, v.position ∈ R) : feasible cs ⊆ R := by
  rw [regionOf_generated hcs,
    Region.generated_of_closed (Region.openDirections_of_bounded hbounded)]
  refine convexHull_min (fun p hp => ?_) hR
  obtain ⟨v, hv, rfl⟩ := List.mem_map.mp hp
  exact hmem v hv

/-- What a description shows of the region `r` in a window that fits it. -/
structure Description.Fits (d : Description ℝ) (r : Region ℝ) : Prop where
  standard : (Viewport.standard : Viewport ℝ).area ⊆ d.viewport.area
  margin : ∀ v ∈ r.vertices ++ r.witnesses, v.position ∈ (d.viewport.inset 0.1).area
  vertices : d.solution.vertices = r.vertices
  inhabited : d.clipped ≠ []
  shown : ∀ v ∈ r.vertices, v.position ∈ d.clipped
  bounded : r.isBounded = true → d.clipped = r.vertices.map Vertex.position

/-- **Clipping is exact, and the window that fits does no harm.** The clipped corners span what
the region and the window have in common, whatever the window. Described without a window of
its own, a feasible set is shown with every corner, and a bounded one as it is. -/
theorem describe_clipped :
    (∀ (set : ConstraintSet ℝ) (w : Viewport ℝ),
      convexHull ℝ {p | p ∈ clip .exact set w} = feasible set.constraints ∩ w.area ∧
      (clip .exact set w = [] ↔ feasible set.constraints ∩ w.area = ∅)) ∧
    ∀ (limit : Nat) (set : ConstraintSet ℝ) (objective : Option (Objective ℝ)), set.Proper →
      set.explicit.length ≤ limit → (feasible set.constraints).Nonempty →
      ∃ r d, (⟨.exact, limit⟩ : Solver ℝ).solve set = .ok r ∧
        (⟨.exact, limit⟩ : Solver ℝ).describe set objective none = .ok d ∧ d.Fits r := by
  refine ⟨fun set w => ⟨convexHull_clip set w, clip_eq_nil⟩, ?_⟩
  intro limit set objective hset hsize hne
  let r := regionOf .exact set.constraints
  let w : Viewport ℝ := .fit r.candidates
  obtain ⟨hstandard, hmargin⟩ := Viewport.fit_shows r.candidates
  have hshown : ∀ v ∈ r.candidates, v.position ∈ w.area := fun v hv =>
    Viewport.inset_area_subset (by norm_num) (hmargin v hv)
  obtain ⟨hfeasible, hcandidates⟩ := isFeasible_of_nonempty hset hne
  refine ⟨r, _, Solver.solve_of_size hsize,
    Solver.describe_eq_ok.mpr ⟨hsize, r, rfl, rfl⟩, ?_⟩
  rw [if_pos hfeasible]
  exact {
    standard := hstandard
    margin := r.candidates_eq ▸ hmargin
    vertices := Solution.vertices_of ..
    inhabited := by
      obtain ⟨v, hv⟩ := List.exists_mem_of_ne_nil _ hcandidates
      refine fun hnil => Set.eq_empty_iff_forall_notMem.mp (clip_eq_nil.mp hnil) v.position ?_
      exact ⟨candidates_feasible (List.mem_map_of_mem hv), hshown v hv⟩
    shown := by
      intro v hv
      refine mem_clip ?_ (hshown v (r.vertices_subset_candidates hv))
      exact regionOf_vertices .exact set.constraints ▸ List.mem_map_of_mem hv
    bounded := by
      intro hbounded
      rw [regionOf_vertices]
      exact clip_of_inset (by norm_num)
        (feasible_subset_of_bounded hset hbounded (Viewport.convex_area _) hmargin) }

/-- The triangle is bounded, so that its window shows its corners as they are. -/
theorem describe_clipped_triangle :
    triangle.Proper ∧ triangle.explicit.length ≤ 50 ∧ (feasible triangle.constraints).Nonempty ∧
    ∃ r d, (⟨.exact, 50⟩ : Solver ℝ).solve triangle = .ok r ∧
      (⟨.exact, 50⟩ : Solver ℝ).describe triangle none none = .ok d ∧ d.Fits r ∧
      d.clipped = r.vertices.map Vertex.position := by
  have hsize : triangle.explicit.length ≤ 50 := by decide
  have hne : (feasible triangle.constraints).Nonempty := ⟨⟨0, 0⟩, by simp [mem_triangle]⟩
  obtain ⟨r, d, hsolve, hdescribe, hfits⟩ :=
    describe_clipped.2 50 triangle none triangle_proper hsize hne
  have hbounded : r.isBounded = true := Solver.solve_exact hsolve ▸ triangle_bounded
  exact ⟨triangle_proper, hsize, hne, r, d, hsolve, hdescribe, hfits, hfits.bounded hbounded⟩

end PlanarLP
