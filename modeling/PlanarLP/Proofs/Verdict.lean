import PlanarLP.Description
import PlanarLP.Proofs.Optimum

/-! The verdict of a description, in exact arithmetic: which kind of solution is reported says
whether the feasible set is empty, bounded or unbounded and whether the objective is bounded
over it, and a reported optimum is the best value over the whole set (`describe_decides`). -/

namespace PlanarLP

variable {cs : List (Constraint ℝ)} {F : Set (Vec ℝ)} {p d : Vec ℝ}

/-! ## Boundedness -/

/-- Within some square about the origin. -/
def Enclosed (F : Set (Vec ℝ)) : Prop := ∃ b : ℝ, ∀ p ∈ F, |p.x| ≤ b ∧ |p.y| ≤ b

/-- The square of half-width `b` about the origin. -/
def square (b : ℝ) : List HalfPlane := [⟨⟨1, 0⟩, b⟩, ⟨⟨-1, 0⟩, b⟩, ⟨⟨0, 1⟩, b⟩, ⟨⟨0, -1⟩, b⟩]

theorem mem_square {b : ℝ} : p ∈ HalfPlane.common (square b) ↔ |p.x| ≤ b ∧ |p.y| ≤ b := by
  simp only [HalfPlane.common, square, HalfPlane.Contains, Vec.dot_eq, Set.mem_ofPred_eq,
    List.forall_mem_cons, List.not_mem_nil, false_imp_iff, implies_true, and_true, abs_le]
  constructor
  · rintro ⟨h₁, h₂, h₃, h₄⟩
    exact ⟨⟨by linarith, by linarith⟩, by linarith, by linarith⟩
  · rintro ⟨⟨h₁, h₂⟩, h₃, h₄⟩
    exact ⟨by linarith, by linarith, by linarith, by linarith⟩

/-- A line that moves away in one coordinate leaves every bound behind. -/
theorem exists_bound_lt {x v b : ℝ} (hv : v ≠ 0) : ∃ t : ℝ, 0 ≤ t ∧ b < |x + t * v| := by
  refine ⟨(|x| + |b| + 1) / |v|, by positivity, ?_⟩
  have hmul : |(|x| + |b| + 1) / |v| * v| = |x| + |b| + 1 := by
    rw [abs_mul, abs_div, abs_abs, div_mul_cancel₀ _ (abs_ne_zero.mpr hv)]
    exact abs_of_nonneg (by positivity)
  have htri := abs_sub_abs_le_abs_sub ((|x| + |b| + 1) / |v| * v) (-x)
  rw [abs_neg, hmul, sub_neg_eq_add, add_comm _ x] at htri
  linarith [le_abs_self b]

theorem not_enclosed_of_ray (hd : d ≠ 0) (hray : ∀ t : ℝ, 0 ≤ t → p + t • d ∈ F) :
    ¬Enclosed F := by
  rintro ⟨b, hb⟩
  have hxy : d.x ≠ 0 ∨ d.y ≠ 0 := by
    by_contra hc
    push Not at hc
    exact hd (Vec.ext hc.1 hc.2)
  rcases hxy with hx | hy
  · obtain ⟨t, ht, hlt⟩ := exists_bound_lt (x := p.x) (b := b) hx
    exact absurd (hb _ (hray t ht)).1 (not_le.mpr hlt)
  · obtain ⟨t, ht, hlt⟩ := exists_bound_lt (x := p.y) (b := b) hy
    exact absurd (hb _ (hray t ht)).2 (not_le.mpr hlt)

theorem enclosed_generated {r : Region ℝ} (h : r.openDirections = []) : Enclosed r.generated := by
  obtain ⟨b, hb⟩ := (r.candidates.finite_toSet.image
    fun v => max |v.position.x| |v.position.y|).bddAbove
  have hsub : r.generated ⊆ HalfPlane.common (square b) := by
    refine generated_subset_common (fun v hv => ?_) fun d hd => ?_
    · have hmax := hb (Set.mem_image_of_mem _ hv)
      exact mem_square.mpr ⟨(le_max_left _ _).trans hmax, (le_max_right _ _).trans hmax⟩
    · rw [h] at hd
      cases hd
  exact ⟨b, fun p hp => mem_square.mp (hsub hp)⟩

/-! ## The status of a region -/

theorem feasible_ray (hcs : ∀ k ∈ cs, k.Proper) (hp : p ∈ feasible cs)
    (hd : d ∈ recessionRays .exact cs) (t : ℝ) (ht : 0 ≤ t) : p + t • d ∈ feasible cs := by
  rw [feasible_eq_common] at hp ⊢
  exact HalfPlane.common_add_recession hp
    (HalfPlane.recession_smul (recessionRays_subset hcs hd) ht)

theorem openDirections_subset (hd : d ∈ (regionOf .exact cs).openDirections) :
    d ∈ recessionRays .exact cs := by
  rcases regionOf_cases cs with ⟨-, hr⟩ | ⟨-, -, hr⟩ | ⟨-, -, hr⟩ <;> rw [hr] at hd
  · exact hd
  · exact hd
  · cases hd

/-- Parallel boundaries leave their own direction open. -/
theorem recessionRays_ne_nil_of_parallel (hcs : ∀ k ∈ cs, k.Proper) (hx : ¬Crossing cs) :
    recessionRays .exact cs ≠ [] := by
  intro hnil
  by_cases hne : cs = []
  · subst hne
    cases hnil
  obtain ⟨k, hk⟩ := List.exists_mem_of_ne_nil cs hne
  have hturn : k.normal.dot k.normal.turnLeft = 0 := by
    rw [Vec.dot_turnLeft, Vec.cross_self]
  have hflat : k.normal.turnLeft ∈ HalfPlane.recession (sidesOf cs) := fun h hh =>
    (dot_side_eq_zero hcs hx hk hturn h hh).le
  have hzero : k.normal.turnLeft ∈ (⊥ : PointedCone ℝ (Vec ℝ)) := by
    have hcone := (mem_rayCone hcs).mpr hflat
    rw [rayCone, hnil] at hcone
    simpa using hcone
  exact Vec.turnLeft_ne_zero (hcs k hk).normal_ne_zero hzero

/-- What the status of a region says of the feasible set. -/
theorem regionOf_status (hcs : ∀ k ∈ cs, k.Proper) :
    ((regionOf .exact cs).status = .infeasible ∧ (regionOf .exact cs).candidates = [] ∧
      feasible cs = ∅) ∨
    ((regionOf .exact cs).candidates ≠ [] ∧ (feasible cs).Nonempty ∧
      (((regionOf .exact cs).status = .bounded ∧ Enclosed (feasible cs)) ∨
        ((regionOf .exact cs).status = .unbounded ∧ ¬Enclosed (feasible cs)))) := by
  have hgen := regionOf_generated hcs
  have hopen : ∀ p ∈ feasible cs, recessionRays .exact cs ≠ [] → ¬Enclosed (feasible cs) := by
    intro p hp hne
    obtain ⟨d, hd⟩ := List.exists_mem_of_ne_nil _ hne
    exact not_enclosed_of_ray (recessionRays_ne_zero hcs hd) (feasible_ray hcs hp hd)
  rcases regionOf_cases cs with ⟨hc, hr⟩ | ⟨hc, hs, hr⟩ | ⟨-, -, hr⟩ <;> rw [hr] at hgen ⊢
  · obtain ⟨v, hv⟩ := List.exists_mem_of_ne_nil _ hc
    have hp := mem_corners_feasible (List.mem_map_of_mem hv)
    refine .inr ⟨hc, ⟨_, hp⟩, ?_⟩
    cases hrays : recessionRays .exact cs with
    | nil =>
      rw [hrays] at hgen
      exact .inl ⟨rfl, hgen ▸ enclosed_generated rfl⟩
    | cons d ds => exact .inr ⟨rfl, hopen _ hp (hrays ▸ List.cons_ne_nil d ds)⟩
  · obtain ⟨w, hw⟩ := List.exists_mem_of_ne_nil _ hs
    have hp := (mem_samplePoints_position.mp (List.mem_map_of_mem hw)).2
    have hx := not_crossing_of_no_corners hcs hc hp
    exact .inr ⟨hs, ⟨_, hp⟩,
      .inr ⟨rfl, hopen _ hp (recessionRays_ne_nil_of_parallel hcs hx)⟩⟩
  · exact .inl ⟨rfl, rfl, hgen.trans (generated_of_no_candidates rfl)⟩

/-! ## The verdict -/

/-- The kinds of solution. -/
inductive Solution.Kind where
  | infeasible
  | unbounded
  | unboundedObjective
  | bounded

def Solution.kind : Solution ℝ → Solution.Kind
  | .infeasible _ => .infeasible
  | .unbounded .. => .unbounded
  | .unboundedObjective .. => .unboundedObjective
  | .bounded .. => .bounded

/-- The optimum is at a point of `F` and is the best value over `F`. -/
def Optimum.Attains (o : Optimum ℝ) (f : Objective ℝ) (F : Set (Vec ℝ)) : Prop :=
  o.vertex.position ∈ F ∧ f.valueAt o.vertex.position = o.value ∧ f.IsBest F o.value

/-- What a solution says of the set `F` of feasible points and of the objective, if any. -/
structure Solution.Decides (s : Solution ℝ) (F : Set (Vec ℝ)) (objective : Option (Objective ℝ)) :
    Prop where
  infeasible : s.kind = .infeasible ↔ F = ∅
  unboundedObjective : s.kind = .unboundedObjective ↔
    F.Nonempty ∧ ∃ f, objective = some f ∧ f.IsUnbounded F
  direction : ∀ vs ds d, s = .unboundedObjective vs ds d → ∀ f, objective = some f →
    ∀ p ∈ F, f.ImprovesAlong d p ∧ ∀ t : ℝ, 0 ≤ t → p + t • d ∈ F
  bounded : s.kind = .bounded ↔ F.Nonempty ∧ Enclosed F
  unbounded : s.kind = .unbounded ↔
    ¬Enclosed F ∧ ∀ f, objective = some f → ¬f.IsUnbounded F
  optimum : s.kind = .bounded ∨ s.kind = .unbounded →
    (objective = none → s.optimum = none) ∧
    ∀ f, objective = some f → ∃ o, s.optimum = some o ∧ o.Attains f F

theorem enclosed_empty : Enclosed (∅ : Set (Vec ℝ)) := ⟨0, fun _ hp => hp.elim⟩

theorem Solution.decides_empty (cs : List Conflict) (objective : Option (Objective ℝ)) :
    (Solution.infeasible cs).Decides ∅ objective where
  infeasible := iff_of_true rfl rfl
  unboundedObjective := iff_of_false nofun fun h => Set.not_nonempty_empty h.1
  direction := nofun
  bounded := iff_of_false nofun fun h => Set.not_nonempty_empty h.1
  unbounded := iff_of_false nofun fun h => h.1 enclosed_empty
  optimum := by
    intro h
    rcases h with h | h <;> cases h

/-- A solution that names a direction in which the objective improves. -/
theorem Solution.decides_direction {vs : List (Vertex ℝ)} {ds : List (Vec ℝ)} {f : Objective ℝ}
    (hp : p ∈ F) (hd : d ≠ 0) (himp : f.Improves d)
    (hray : ∀ q ∈ F, ∀ t : ℝ, 0 ≤ t → q + t • d ∈ F) :
    (Solution.unboundedObjective vs ds d).Decides F (some f) where
  infeasible := iff_of_false nofun (Set.nonempty_iff_ne_empty.mp ⟨p, hp⟩)
  unboundedObjective := iff_of_true rfl
    ⟨⟨p, hp⟩, f, rfl, Objective.isUnbounded_of_improves himp (hray p hp)⟩
  direction := by
    intro _ _ _ he g hg q hq
    cases he
    cases hg
    exact ⟨Objective.improvesAlong_of_improves himp q, hray q hq⟩
  bounded := iff_of_false nofun fun h => not_enclosed_of_ray hd (hray p hp) h.2
  unbounded := iff_of_false nofun fun h =>
    h.2 f rfl (Objective.isUnbounded_of_improves himp (hray p hp))
  optimum := by
    intro h
    rcases h with h | h <;> cases h

/-- A solution without such a direction, whose optimum is there exactly for an objective. -/
theorem Solution.decides_optimum {r : Region ℝ} {values : List ℝ}
    {optimum : Option (Optimum ℝ)} {objective : Option (Objective ℝ)} (hp : p ∈ F)
    (hstatus : (r.status = .bounded ∧ Enclosed F) ∨ (r.status = .unbounded ∧ ¬Enclosed F))
    (hnone : objective = none → optimum = none)
    (hsome : ∀ f, objective = some f → ∃ o, optimum = some o ∧ o.Attains f F) :
    (Solution.ofRegion values optimum r).Decides F objective := by
  have hne : F ≠ ∅ := Set.nonempty_iff_ne_empty.mp ⟨p, hp⟩
  have hfinite : ∀ f, objective = some f → ¬f.IsUnbounded F := by
    intro f hf
    obtain ⟨o, -, -, -, hbest⟩ := hsome f hf
    exact hbest.not_isUnbounded
  have hlimit : ¬(F.Nonempty ∧ ∃ f, objective = some f ∧ f.IsUnbounded F) :=
    fun ⟨_, f, hf, hu⟩ => hfinite f hf hu
  rcases hstatus with ⟨hr, hF⟩ | ⟨hr, hF⟩ <;> rw [ofRegion, hr]
  · exact {
      infeasible := iff_of_false nofun hne
      unboundedObjective := iff_of_false nofun hlimit
      direction := nofun
      bounded := iff_of_true rfl ⟨⟨p, hp⟩, hF⟩
      unbounded := iff_of_false nofun fun h => h.1 hF
      optimum := fun _ => ⟨hnone, hsome⟩ }
  · exact {
      infeasible := iff_of_false nofun hne
      unboundedObjective := iff_of_false nofun hlimit
      direction := nofun
      bounded := iff_of_false nofun fun h => hF h.2
      unbounded := iff_of_true rfl ⟨hF, hfinite⟩
      optimum := fun _ => ⟨hnone, hsome⟩ }

/-- The solution of a region and its evaluation decides the feasible set. -/
theorem solution_decides (hcs : ∀ k ∈ cs, k.Proper) (objective : Option (Objective ℝ)) :
    (Solution.of (regionOf .exact cs)
      (objective.bind fun f => f.evaluateRegion .exact (regionOf .exact cs))).Decides
        (feasible cs) objective := by
  have hgen := regionOf_generated hcs
  rcases regionOf_status hcs with ⟨hstatus, hcand, hF⟩ | ⟨hcand, ⟨p, hp⟩, hstatus⟩
  · have heval : (objective.bind fun f => f.evaluateRegion .exact (regionOf .exact cs)) = none := by
      cases objective with
      | none => rfl
      | some f => rw [Option.bind_some, Objective.evaluateRegion, hcand, Objective.evaluate_nil]
    rw [heval, hF, Solution.of, Solution.ofRegion, hstatus]
    exact Solution.decides_empty _ objective
  cases objective with
  | none => exact Solution.decides_optimum hp hstatus (fun _ => rfl) nofun
  | some f =>
    rw [Option.bind_some, Objective.evaluateRegion]
    rcases f.evaluate_exact hcand with ⟨d, zs, hd, himp, heval⟩ | ⟨hnone, o, zs, heval, ho⟩ <;>
      rw [heval]
    · have hray := openDirections_subset hd
      exact Solution.decides_direction hp (recessionRays_ne_zero hcs hray) himp
        fun q hq => feasible_ray hcs hq hray
    · obtain ⟨hmem, hvalue, hbound⟩ := ho
      have hpos : o.vertex.position ∈ feasible cs :=
        candidates_feasible (List.mem_map_of_mem hmem)
      have hbest := Objective.isBest_of_bound hpos hvalue
        (hgen ▸ generated_bound hbound hnone)
      refine Solution.decides_optimum hp hstatus nofun fun g hg => ?_
      cases hg
      exact ⟨o, rfl, hpos, hvalue, hbest⟩

theorem describe_exact {limit : Nat} {set : ConstraintSet ℝ} (objective : Option (Objective ℝ))
    (viewport : Option (Viewport ℝ)) (hsize : set.explicit.length ≤ limit) :
    ∃ d, (⟨.exact, limit⟩ : Solver ℝ).describe set objective viewport = .ok d ∧
      d.solution = .of (regionOf .exact set.constraints)
        (objective.bind fun f => f.evaluateRegion .exact (regionOf .exact set.constraints)) := by
  have hsolve : (⟨.exact, limit⟩ : Solver ℝ).solve set =
      .ok (regionOf .exact set.constraints) := Solver.solve_eq_ok.mpr ⟨hsize, rfl⟩
  unfold Solver.describe
  rw [hsolve]
  exact ⟨_, rfl, rfl⟩

/-- **The verdict of a description is right**: it says which kind of feasible set there is, and
its optimum is the best value over that set. -/
theorem describe_decides {limit : Nat} {set : ConstraintSet ℝ} (objective : Option (Objective ℝ))
    (viewport : Option (Viewport ℝ)) (hset : set.Proper) (hsize : set.explicit.length ≤ limit) :
    ∃ d, (⟨.exact, limit⟩ : Solver ℝ).describe set objective viewport = .ok d ∧
      d.solution.Decides (feasible set.constraints) objective := by
  obtain ⟨d, hd, hs⟩ := describe_exact objective viewport hsize
  exact ⟨d, hd, hs ▸ solution_decides hset objective⟩

/-- Minimising `x + 2 y` over the wedge, which has no upper end. -/
theorem describe_decides_wedge :
    wedge.Proper ∧ wedge.explicit.length ≤ 50 ∧
    ∃ d, (⟨.exact, 50⟩ : Solver ℝ).describe wedge (some ⟨1, 2, 0, .minimize⟩) none = .ok d ∧
      d.solution.Decides (feasible wedge.constraints) (some ⟨1, 2, 0, .minimize⟩) := by
  have hsize : wedge.explicit.length ≤ 50 := by decide
  exact ⟨wedge_proper, hsize, describe_decides _ none wedge_proper hsize⟩

end PlanarLP
