import PlanarLP.Proofs.Faces
import PlanarLP.Proofs.Polygon

/-! The optimal set of an objective, in exact arithmetic. An optimum is reported as the tied
vertices and one direction, and these describe every optimal point: the best points of a region
are generated by the tied candidates and the open directions across the gradient
(`bestPoints_generated`), one of which is reported exactly when the best points go on without
end. An objective that is not constant ties at most two vertices, the ends of an edge. -/

namespace PlanarLP

open Pointwise

/-! ## Positions of vertices -/

theorem nodup_samplePoints (cs : List (Constraint ℝ)) :
    ((samplePoints .exact cs).map Vertex.position).Nodup := by
  rw [samplePoints_eq, map_vertexAt_position]
  exact nodup_distinctPoints _

/-! ## Best points -/

theorem Sense.bound_antisymm {s : Sense} {a b : ℝ} (hab : s.bound.Holds a b)
    (hba : s.bound.Holds b a) : a = b := by
  cases s with
  | maximize => exact le_antisymm hab hba
  | minimize => exact le_antisymm hba hab

namespace Objective

variable {f : Objective ℝ} {F : Set (Vec ℝ)} {vs : List (Vertex ℝ)} {ds : List (Vec ℝ)}
  {p d : Vec ℝ} {m : ℝ} {o : Optimum ℝ}

/-- The points of `F` whose value no point of `F` betters. -/
def bestPoints (f : Objective ℝ) (F : Set (Vec ℝ)) : Set (Vec ℝ) :=
  {p | p ∈ F ∧ ∀ q ∈ F, f.sense.bound.Holds (f.valueAt q) (f.valueAt p)}

theorem noBetter_meets : (f.noBetter m).Meets p ↔ f.valueAt p = m := by
  unfold noBetter HalfPlane.Meets
  rw [valueAt_eq]
  cases f.sense with
  | maximize => exact eq_sub_iff_add_eq
  | minimize =>
    change (-f.gradient).dot p = f.offset - m ↔ f.gradient.dot p + f.offset = m
    rw [Vec.neg_dot]
    constructor <;> intro h <;> linarith

theorem noBetter_flat : (f.noBetter m).normal.dot d = 0 ↔ f.gradient.dot d = 0 := by
  unfold noBetter
  cases f.sense with
  | maximize => exact Iff.rfl
  | minimize =>
    change (-f.gradient).dot d = 0 ↔ f.gradient.dot d = 0
    rw [Vec.neg_dot, neg_eq_zero]

/-- Where the value `m` is attained and not bettered, the best points are those with this
value. -/
theorem bestPoints_eq (hm : ∃ q ∈ F, f.valueAt q = m)
    (hF : ∀ q ∈ F, f.sense.bound.Holds (f.valueAt q) m) :
    f.bestPoints F = {p | p ∈ F ∧ (f.noBetter m).Meets p} := by
  ext p
  refine and_congr_right fun hp => ?_
  rw [noBetter_meets]
  constructor
  · intro hbest
    obtain ⟨q, hq, hqm⟩ := hm
    exact Sense.bound_antisymm (hF p hp) (hqm ▸ hbest q hq)
  · intro hpm q hq
    rw [hpm]
    exact hF q hq

/-! ## What an optimum lists -/

theorem tied_exact (vs : List (Vertex ℝ)) (m : ℝ) : (f.tied .exact vs m).map Prod.fst =
    vs.filter fun v => decide (f.valueAt v.position = m) := by
  rw [tied_map_fst]
  refine List.filter_congr fun v _ => ?_
  rw [Bool.eq_iff_iff, decide_eq_true_iff]
  exact tied_test_exact

/-- The report of an optimum over the vertices `vs` of a region that opens along `ds`. -/
structure Reports (f : Objective ℝ) (vs : List (Vertex ℝ)) (ds : List (Vec ℝ))
    (o : Optimum ℝ) : Prop where
  open_le : ∀ d ∈ ds, ¬f.Improves d
  bound : ∀ v ∈ vs, f.sense.bound.Holds (f.valueAt v.position) o.value
  attained : o.tied ≠ []
  tied : o.tied = vs.filter fun v => decide (f.valueAt v.position = o.value)
  ray : o.optimalRay = ds.find? fun d => decide (f.gradient.dot d = 0)

theorem optimum?_reports (hvs : vs ≠ []) (hds : ∀ d ∈ ds, ¬f.Improves d)
    (ho : f.optimum? .exact vs ds = some o) : f.Reports vs ds o := by
  obtain ⟨-, -, hbound⟩ := optimum?_exact hvs ho
  obtain ⟨best, -, hhead, htied, hray⟩ := optimum?_eq_some.mp ho
  have hfirst := List.mem_of_head? hhead
  obtain ⟨-, -, hvalue⟩ := mem_tied.mp hfirst
  refine ⟨hds, hbound, ?_, ?_, ?_⟩
  · rw [htied]
    exact List.ne_nil_of_mem (List.mem_map_of_mem hfirst)
  · rw [htied, tied_exact, hvalue]
  · rw [hray]
    congr 1
    funext d
    rw [Bool.eq_iff_iff, decide_eq_true_iff]
    exact Tolerance.exact_holds

theorem evaluate_reports {zs : List ℝ} (h : f.evaluate .exact vs ds = some ⟨zs, .optimal o⟩) :
    vs ≠ [] ∧ f.Reports vs ds o := by
  have hvs : vs ≠ [] := by
    intro hnil
    rw [hnil, evaluate_nil] at h
    cases h
  refine ⟨hvs, ?_⟩
  cases hi : f.improving? .exact ds with
  | some d =>
    rw [evaluate_of_improving hvs hi] at h
    cases h
  | none =>
    rw [evaluate_of_not_improving hvs hi] at h
    obtain ⟨o', ho, he⟩ := Option.map_eq_some_iff.mp h
    cases he
    exact optimum?_reports hvs (improving?_exact_none hi) ho

namespace Reports

variable {r : Region ℝ}

theorem mem_tied_iff (h : f.Reports vs ds o) {v : Vertex ℝ} :
    v ∈ o.tied ↔ v ∈ vs ∧ f.valueAt v.position = o.value := by
  rw [h.tied, List.mem_filter, decide_eq_true_iff]

theorem sublist (h : f.Reports vs ds o) : o.tied.Sublist vs := h.tied ▸ List.filter_sublist

theorem dot_eq (h : f.Reports vs ds o) {v w : Vertex ℝ} (hv : v ∈ o.tied) (hw : w ∈ o.tied) :
    f.gradient.dot v.position = f.gradient.dot w.position := by
  have hvm := (h.mem_tied_iff.mp hv).2
  have hwm := (h.mem_tied_iff.mp hw).2
  rw [valueAt_eq] at hvm hwm
  linarith

/-- **The best points of a region are generated by the tied candidates and the open directions
across the gradient.** -/
theorem bestPoints_generated (h : f.Reports r.candidates r.openDirections o) :
    f.bestPoints r.generated = convexHull ℝ {p | p ∈ o.tied.map Vertex.position} +
      (PointedCone.hull ℝ {d | d ∈ r.openDirections ∧ f.gradient.dot d = 0} : Set (Vec ℝ)) := by
  obtain ⟨v, hv⟩ := List.exists_mem_of_ne_nil _ h.attained
  obtain ⟨hcand, hvalue⟩ := h.mem_tied_iff.mp hv
  have hmem : v.position ∈ r.generated :=
    ⟨v.position, subset_convexHull ℝ _ (List.mem_map_of_mem hcand), 0, zero_mem _, add_zero _⟩
  rw [bestPoints_eq ⟨_, hmem, hvalue⟩ (generated_bound h.bound h.open_le), Region.generated,
    HalfPlane.face_generated, HalfPlane.face]
  · have hpoints : {p | p ∈ {p | p ∈ r.candidates.map Vertex.position} ∧
        (f.noBetter o.value).Meets p} = {p | p ∈ o.tied.map Vertex.position} := by
      ext p
      constructor
      · rintro ⟨hp, hmeet⟩
        obtain ⟨w, hw, rfl⟩ := List.mem_map.mp hp
        exact List.mem_map_of_mem (h.mem_tied_iff.mpr ⟨hw, noBetter_meets.mp hmeet⟩)
      · intro hp
        obtain ⟨w, hw, rfl⟩ := List.mem_map.mp hp
        obtain ⟨hw, hvalue⟩ := h.mem_tied_iff.mp hw
        exact ⟨List.mem_map_of_mem hw, noBetter_meets.mpr hvalue⟩
    rw [hpoints]
    simp only [Set.mem_ofPred_eq, noBetter_flat]
  · intro p hp
    obtain ⟨w, hw, rfl⟩ := List.mem_map.mp hp
    exact noBetter_contains.mpr (h.bound w hw)
  · intro d hd
    exact noBetter_recedes.mpr (h.open_le d hd)

/-! ## The ray along the best points -/

theorem ray_mem (h : f.Reports vs ds o) (hray : o.optimalRay = some d) :
    d ∈ ds ∧ f.gradient.dot d = 0 := by
  rw [h.ray] at hray
  have hflat := List.find?_some hray
  exact ⟨List.mem_of_find?_eq_some hray, of_decide_eq_true hflat⟩

theorem dot_ne_zero_of_no_ray (h : f.Reports vs ds o) (hray : o.optimalRay = none) :
    ∀ d ∈ ds, f.gradient.dot d ≠ 0 := by
  intro d hd
  rw [h.ray, List.find?_eq_none] at hray
  simpa using hray d hd

theorem ray_mem_bestPoints (h : f.Reports r.candidates r.openDirections o)
    (hray : o.optimalRay = some d) {v : Vertex ℝ} (hv : v ∈ o.tied) {t : ℝ} (ht : 0 ≤ t) :
    v.position + t • d ∈ f.bestPoints r.generated := by
  rw [h.bestPoints_generated]
  exact Set.add_mem_add (subset_convexHull ℝ _ (List.mem_map_of_mem hv))
    (PointedCone.smul_mem _ ht (PointedCone.subset_hull (h.ray_mem hray)))

/-- A ray is reported exactly when the best points go on without end. -/
theorem ray_iff (h : f.Reports r.candidates r.openDirections o)
    (hne : ∀ d ∈ r.openDirections, d ≠ 0) :
    (∃ d, o.optimalRay = some d) ↔ ¬Enclosed (f.bestPoints r.generated) := by
  constructor
  · rintro ⟨d, hray⟩
    obtain ⟨v, hv⟩ := List.exists_mem_of_ne_nil _ h.attained
    exact not_enclosed_of_ray (hne d (h.ray_mem hray).1) fun t ht => h.ray_mem_bestPoints hray hv ht
  · intro hopen
    by_contra hnone
    refine hopen ?_
    have hray : o.optimalRay = none := by
      rw [Option.eq_none_iff_forall_ne_some]
      exact fun d hd => hnone ⟨d, hd⟩
    have hflat : {d | d ∈ r.openDirections ∧ f.gradient.dot d = 0} = {d | d ∈ []} := by
      ext d
      simpa using h.dot_ne_zero_of_no_ray hray d
    rw [h.bestPoints_generated, hflat]
    exact enclosed_generated (r := .cornered o.tied []) rfl

/-! ## How many candidates are tied -/

variable {cs : List (Constraint ℝ)}

/-- Without corners an objective that is bounded but not constant ties one point. -/
theorem tied_length_le_one (h : f.Reports (samplePoints .exact cs) (recessionRays .exact cs) o)
    (hcs : ∀ k ∈ cs, k.Proper) (hc : corners .exact cs = []) (hf : f.gradient ≠ 0) :
    o.tied.length ≤ 1 := by
  obtain ⟨v, hv⟩ := List.exists_mem_of_ne_nil _ h.attained
  have hprobe : ∀ w ∈ o.tied, w.position ∈ (0 : Vec ℝ) :: cs.map Constraint.boundaryPoint ∧
      w.position ∈ feasible cs := by
    intro w hw
    exact mem_samplePoints_position.mp (List.mem_map_of_mem (h.sublist.subset hw))
  have hx := not_crossing_of_no_corners hcs hc (hprobe v hv).2
  have hdown : ∀ d ∈ HalfPlane.recession (sidesOf cs), (f.noBetter 0).normal.dot d ≤ 0 := by
    intro d hd
    have hle : rayCone cs ≤ HalfPlane.recessionCone [f.noBetter 0] := by
      refine Submodule.span_le.mpr ?_
      intro e he k hk
      rw [List.mem_singleton.mp hk]
      exact noBetter_recedes.mpr (h.open_le e he)
    exact hle ((mem_rayCone hcs).mpr hd) _ (List.mem_singleton_self _)
  -- both directions of a boundary are open, so the value does not change along it
  have hpar : ∀ k ∈ cs, f.gradient.cross k.normal = 0 := by
    intro k hk
    have hturn : k.normal.dot k.normal.turnLeft = 0 := by
      rw [Vec.dot_turnLeft, Vec.cross_self]
    have hflat := dot_side_eq_zero hcs hx hk hturn
    have hforth := hdown k.normal.turnLeft fun g hg => (hflat g hg).le
    have hback := hdown (-k.normal.turnLeft) fun g hg => by
      rw [Vec.dot_neg, hflat g hg, neg_zero]
    rw [Vec.dot_neg, neg_nonpos] at hback
    have hzero := noBetter_flat.mp (le_antisymm hforth hback)
    rw [Vec.dot_turnLeft, Vec.cross_swap, neg_eq_zero] at hzero
    exact hzero
  have hline : ∀ v ∈ o.tied, f.gradient.cross v.position = 0 := by
    intro v hv
    rcases List.mem_cons.mp (hprobe v hv).1 with horigin | hnear
    · rw [horigin]
      exact Vec.cross_zero _
    · obtain ⟨k, hk, hpoint⟩ := List.mem_map.mp hnear
      rw [← hpoint, Constraint.boundaryPoint, Vec.scale_eq, Vec.cross_smul, hpar k hk, mul_zero]
  have hone : o.tied.map Vertex.position ⊆ [v.position] := by
    intro p hp
    obtain ⟨w, hw, rfl⟩ := List.mem_map.mp hp
    have heq := Vec.eq_of_line hf (h.dot_eq hw hv) ((hline w hw).trans (hline v hv).symm)
    exact List.mem_singleton.mpr heq
  have hnodup := (nodup_samplePoints cs).sublist (h.sublist.map Vertex.position)
  simpa using (hnodup.subperm hone).length_le

/-- Of the corners an objective that is not constant ties at most two. -/
theorem tied_length_le_two (h : f.Reports (corners .exact cs) ds o) (hf : f.gradient ≠ 0) :
    o.tied.length ≤ 2 := by
  have hnodup := (nodup_corners cs).sublist (h.sublist.map Vertex.position)
  have hlen : (o.tied.map Vertex.position).length ≤ 2 := by
    refine length_le_two_of_line (F := feasible cs) hf hnodup ?_ ?_
    · intro p hp
      exact mem_corners_position.mp ((h.sublist.map Vertex.position).subset hp)
    · intro p hp q hq
      obtain ⟨v, hv, rfl⟩ := List.mem_map.mp hp
      obtain ⟨w, hw, rfl⟩ := List.mem_map.mp hq
      exact h.dot_eq hv hw
  simpa using hlen

/-- Two corners that are tied are the ends of an edge. -/
theorem edge_of_tied (h : f.Reports (corners .exact cs) ds o) {v w : Vertex ℝ}
    (htied : o.tied = [v, w]) :
    (v, w) ∈ edges (corners .exact cs) ∨ (w, v) ∈ edges (corners .exact cs) := by
  have hsub : [v, w].Sublist (corners .exact cs) := htied ▸ h.sublist
  rcases Nat.lt_or_ge 2 (corners .exact cs).length with hthree | hfew
  · obtain ⟨c, hcycle⟩ := corners_angularCycle hthree
    have hmem : ∀ u, u ∈ o.tied ↔ u = v ∨ u = w := by
      intro u
      rw [htied, List.mem_cons, List.mem_singleton]
    have hmeets : ∀ u ∈ o.tied, (f.noBetter o.value).Meets u.position := by
      intro u hu
      exact noBetter_meets.mpr (h.mem_tied_iff.mp hu).2
    have hvm : (f.noBetter o.value).Meets v.position := hmeets v ((hmem v).mpr (.inl rfl))
    have hwm : (f.noBetter o.value).Meets w.position := hmeets w ((hmem w).mpr (.inr rfl))
    have hnodup := (nodup_corners cs).sublist (hsub.map Vertex.position)
    have hne : v.position ≠ w.position := by
      intro heq
      simp [heq] at hnodup
    have hv : v ∈ corners .exact cs := hsub.subset List.mem_cons_self
    have hw : w ∈ corners .exact cs := hsub.subset (by simp)
    have hedge := hcycle.edge_of_furthest (n := (f.noBetter o.value).normal)
      (List.mem_map_of_mem hv) (List.mem_map_of_mem hw) hne (hvm.trans hwm.symm) ?_
    · exact hedge.imp (mem_edges_of_map (nodup_corners cs) hv hw)
        (mem_edges_of_map (nodup_corners cs) hw hv)
    · intro p hp hpv hpw
      obtain ⟨u, hu, rfl⟩ := List.mem_map.mp hp
      rw [show (f.noBetter o.value).normal.dot v.position = _ from hvm]
      refine lt_of_le_of_ne (noBetter_contains.mpr (h.bound u hu)) fun hmeet => ?_
      rcases (hmem u).mp (h.mem_tied_iff.mpr ⟨hu, noBetter_meets.mp hmeet⟩) with rfl | rfl
      · exact hpv rfl
      · exact hpw rfl
  · left
    rw [← hsub.eq_of_length_le hfew]
    exact List.mem_cons_self

end Reports

end Objective

/-! ## What an optimum describes -/

/-- What an optimum of `f` over the region `r` says of the feasible set `F`. -/
structure Optimum.Describes (o : Optimum ℝ) (f : Objective ℝ) (r : Region ℝ)
    (F : Set (Vec ℝ)) : Prop where
  bestPoints : f.bestPoints F = convexHull ℝ {p | p ∈ o.tied.map Vertex.position} +
    (PointedCone.hull ℝ {d | d ∈ r.openDirections ∧ f.gradient.dot d = 0} : Set (Vec ℝ))
  ray_iff : (∃ d, o.optimalRay = some d) ↔ ¬Enclosed (f.bestPoints F)
  ray : ∀ d, o.optimalRay = some d → ∀ v ∈ o.tied, ∀ t : ℝ, 0 ≤ t →
    v.position + t • d ∈ f.bestPoints F
  few : f.gradient ≠ 0 → o.tied.length ≤ 2
  /-- Two tied vertices are neighbours in the counter-clockwise list. -/
  neighbours : f.gradient ≠ 0 → ∀ v w, o.tied = [v, w] →
    (v, w) ∈ edges r.vertices ∨ (w, v) ∈ edges r.vertices
  /-- Every point on the edge is optimal. -/
  between : ∀ v ∈ o.tied, ∀ w ∈ o.tied, segment ℝ v.position w.position ⊆ f.bestPoints F

/-- **An optimum describes all optimal points**: the tied vertices and the open directions
across the gradient generate them, a ray is reported exactly when they go on without end, and
an objective that is not constant ties one vertex or the two ends of an edge. -/
theorem optimum_describes {limit : Nat} {set : ConstraintSet ℝ} {r : Region ℝ} {f : Objective ℝ}
    {zs : List ℝ} {o : Optimum ℝ} (hset : set.Proper)
    (hsolve : (⟨.exact, limit⟩ : Solver ℝ).solve set = .ok r)
    (heval : f.evaluateRegion .exact r = some ⟨zs, .optimal o⟩) :
    o.Describes f r (feasible set.constraints) := by
  obtain ⟨hcand, hreports⟩ := Objective.evaluate_reports heval
  obtain rfl := Solver.solve_exact hsolve
  have hopen : ∀ d ∈ (regionOf .exact set.constraints).openDirections, d ≠ 0 := fun d hd =>
    recessionRays_ne_zero hset (openDirections_subset hd)
  rw [solve_generates_feasible hset hsolve]
  refine {
    bestPoints := hreports.bestPoints_generated
    ray_iff := hreports.ray_iff hopen
    ray := fun d hray v hv t ht => hreports.ray_mem_bestPoints hray hv ht
    few := ?_
    neighbours := ?_
    between := ?_ }
  · intro hf
    rcases regionOf_cases set.constraints with ⟨-, hr⟩ | ⟨hc, -, hr⟩ | ⟨-, -, hr⟩
    · rw [hr] at hreports
      exact hreports.tied_length_le_two hf
    · rw [hr] at hreports
      exact (hreports.tied_length_le_one hset hc hf).trans one_le_two
    · rw [hr] at hcand
      exact absurd rfl hcand
  · intro hf v w htied
    rcases regionOf_cases set.constraints with ⟨-, hr⟩ | ⟨hc, -, hr⟩ | ⟨-, -, hr⟩
    · rw [hr] at hreports ⊢
      exact hreports.edge_of_tied htied
    · rw [hr] at hreports
      have hone := hreports.tied_length_le_one hset hc hf
      rw [htied] at hone
      simp at hone
    · rw [hr] at hcand
      exact absurd rfl hcand
  · intro v hv w hw
    have hvp : v.position ∈ {p | p ∈ o.tied.map Vertex.position} := List.mem_map_of_mem hv
    have hwp : w.position ∈ {p | p ∈ o.tied.map Vertex.position} := List.mem_map_of_mem hw
    rw [hreports.bestPoints_generated]
    intro p hp
    refine ⟨p, ?_, 0, zero_mem _, add_zero p⟩
    exact segment_subset_convexHull hvp hwp hp

/-- Minimising `x + y` over the wedge, where the whole edge on `x + y = 1` is optimal. -/
theorem optimum_describes_wedge :
    wedge.Proper ∧ ∃ r zs o, (⟨.exact, 50⟩ : Solver ℝ).solve wedge = .ok r ∧
      (⟨1, 1, 0, .minimize⟩ : Objective ℝ).evaluateRegion .exact r = some ⟨zs, .optimal o⟩ ∧
      o.Describes ⟨1, 1, 0, .minimize⟩ r (feasible wedge.constraints) := by
  have hsolve : (⟨.exact, 50⟩ : Solver ℝ).solve wedge =
      .ok (regionOf .exact wedge.constraints) := rfl
  have hedge : (⟨1, 0⟩ : Vec ℝ) ∈ feasible wedge.constraints := by
    intro k hk
    have hk : k = ⟨1, 1, 1, .ge, "x + y >= 1"⟩ ∨ k = .xNonnegative ∨ k = .yNonnegative := by
      rcases List.mem_append.mp hk with hgiven | hbound
      · exact .inl (List.mem_singleton.mp hgiven)
      · have hone := (List.mem_filter.mp hbound).1
        simp only [List.mem_cons, List.not_mem_nil, or_false] at hone
        exact .inr hone
    rcases hk with rfl | rfl | rfl <;>
      norm_num [Constraint.Allows, Relation.Holds, Constraint.xNonnegative,
        Constraint.yNonnegative]
  have hcand : (regionOf .exact wedge.constraints).candidates ≠ [] := by
    rcases regionOf_status wedge_proper with ⟨-, -, hF⟩ | ⟨hcand, -⟩
    · rw [hF] at hedge
      exact absurd hedge (Set.notMem_empty _)
    · exact hcand
  rcases (⟨1, 1, 0, .minimize⟩ : Objective ℝ).evaluate_exact hcand with
    ⟨d, -, hd, himp, -⟩ | ⟨-, o, zs, heval, -⟩
  · have hstep := feasible_ray wedge_proper hedge (openDirections_subset hd) 1 zero_le_one
    have hsum := hstep ⟨1, 1, 1, .ge, "x + y >= 1"⟩ List.mem_cons_self
    simp only [Constraint.Allows, Relation.Holds, Vec.add_x, Vec.add_y, one_smul, one_mul] at hsum
    have hrise : (0 : ℝ) ≤ 1 * d.x + 1 * d.y := by linarith
    exact absurd hrise himp
  · exact ⟨wedge_proper, _, zs, o, hsolve, heval,
      optimum_describes wedge_proper hsolve heval⟩

end PlanarLP
