import PlanarLP.Binary64
import PlanarLP.Description
import PlanarLP.Proofs.Choices
import PlanarLP.Proofs.Feasibility

/-! What every description keeps to, whatever the numbers do. Nothing here uses a law of
arithmetic, so it also holds where a result is rounded, infinite or no number. Each loop that
makes vertices keeps their indices ascending and in range (`regionOf_wellFormed`), an evaluation
points at the candidates it was made for (`Objective.evaluate_fits`), a solution shows nothing
else (`Solution.of_wellFormed`), and `describe_wellFormed` says it of all that is told. -/

namespace PlanarLP

/-! ## What is well formed -/

section Meaning

variable {α : Type}

/-- The tight constraints are among the first `n`, in ascending order. -/
structure Vertex.WellFormed (n : Nat) (v : Vertex α) : Prop where
  ascending : v.tight.Pairwise (· < ·)
  inRange : ∀ i ∈ v.tight, i < n
  degenerate : v.degenerate = true ↔ 2 < v.tight.length

/-- Pairs or triples of the first `n` constraints, none of them twice. -/
structure Conflict.AreWellFormed (n : Nat) (found : List Conflict) : Prop where
  ascending : ∀ c ∈ found, c.indices.Pairwise (· < ·)
  inRange : ∀ c ∈ found, ∀ i ∈ c.indices, i < n
  sameSize : (∀ c ∈ found, c.indices.length = 2) ∨ ∀ c ∈ found, c.indices.length = 3
  distinct : (found.map Conflict.indices).Nodup

/-- The values are those of the candidates one by one, and the optimum stands at the first of
the candidates that are tied. -/
structure Optimum.WellFormed (candidates : List (Vertex α)) (values : List α) (o : Optimum α) :
    Prop where
  length : values.length = candidates.length
  nonempty : o.tied ≠ []
  subsequence : o.tied.Sublist candidates
  first : o.tied.head? = some o.vertex
  entry : ∃ i : Nat, candidates[i]? = some o.vertex ∧ values[i]? = some o.value

/-- There are values where there is an optimum, and only there. -/
def Optimum.FitsValues (candidates : List (Vertex α)) (values : List α) :
    Option (Optimum α) → Prop
  | none => values = []
  | some o => o.WellFormed candidates values

namespace Solution

/-- Sample points, for a region without vertices. -/
def witnesses : Solution α → List (Vertex α)
  | unbounded _ _ ws _ _ => ws
  | _ => []

/-- Every vertex that is shown, be it as a corner, as a sample or as an optimal one. -/
def shown (s : Solution α) : List (Vertex α) :=
  s.vertices ++ s.witnesses ++ s.optimum.toList.flatMap fun o => o.vertex :: o.tied

/-- What is asked of each kind of solution. The candidates of an unbounded region are its
vertices or else its samples, and the other list is empty. -/
def Consistent (n : Nat) : Solution α → Prop
  | infeasible found => Conflict.AreWellFormed n found
  | unbounded vs _ ws values o =>
    (vs ≠ [] ∧ ws = [] ∨ vs = [] ∧ ws ≠ []) ∧ Optimum.FitsValues (vs ++ ws) values o
  | unboundedObjective _ ds d => d ∈ ds
  | bounded vs values o => vs ≠ [] ∧ Optimum.FitsValues vs values o

end Solution

/-- The constraints are listed in their order, each active when a vertex is tight for it, and
an infeasible set has nothing to draw. -/
structure Description.WellFormed (set : ConstraintSet α) (d : Description α) : Prop where
  vertices : ∀ v ∈ d.solution.shown, v.WellFormed set.size
  solution : d.solution.Consistent set.size
  infeasible : ∀ found, d.solution = .infeasible found →
    d.clipped = [] ∧ ∀ info ∈ d.constraints, info.active = false
  length : d.constraints.length = set.size
  constraints : ∀ i info, d.constraints[i]? = some info → info.index = i ∧
    set.get? i = some info.constraint ∧ info.implicit = set.isImplicit i ∧
    (info.active = true ↔ ∃ v ∈ d.solution.vertices, i ∈ v.tight)

/-- A region that is not empty lists points, and what it lists is well formed. -/
def Region.WellFormed (n : Nat) : Region α → Prop
  | infeasible found => Conflict.AreWellFormed n found
  | cornerless ws _ => ws ≠ [] ∧ ∀ v ∈ ws, v.WellFormed n
  | cornered vs _ => vs ≠ [] ∧ ∀ v ∈ vs, v.WellFormed n

/-- An evaluation speaks of the vertices and directions that it was made for. -/
def Evaluation.Fits (vs : List (Vertex α)) (ds : List (Vec α)) (e : Evaluation α) : Prop :=
  match e.outcome with
  | .optimal o => o.WellFormed vs e.values
  | .unbounded d => d ∈ ds

end Meaning

/-! ## From a region to what is told of it -/

section Telling

variable {α : Type} {r : Region α} {n : Nat}

theorem Region.WellFormed.candidates (h : r.WellFormed n) :
    ∀ v ∈ r.candidates, v.WellFormed n := by
  cases r with
  | infeasible found => exact fun v hv => absurd hv List.not_mem_nil
  | cornerless ws ds => exact h.2
  | cornered vs ds => exact h.2

theorem Region.vertices_subset_candidates (r : Region α) : r.vertices ⊆ r.candidates := by
  cases r with
  | infeasible found => exact List.nil_subset _
  | cornerless ws ds => exact List.nil_subset _
  | cornered vs ds => exact List.Subset.refl vs

theorem Optimum.WellFormed.subset {vs : List (Vertex α)} {values : List α} {o : Optimum α}
    (h : o.WellFormed vs values) : o.vertex :: o.tied ⊆ vs :=
  List.cons_subset.mpr ⟨h.subsequence.subset (List.mem_of_head? h.first), h.subsequence.subset⟩

namespace Solution

variable {values : List α} {o : Option (Optimum α)} {e : Option (Evaluation α)}

theorem ofRegion_consistent (hr : r.WellFormed n)
    (ho : Optimum.FitsValues r.candidates values o) : (ofRegion values o r).Consistent n := by
  cases r with
  | infeasible found => exact hr
  | cornerless ws ds => exact ⟨.inr ⟨rfl, hr.1⟩, ho⟩
  | cornered vs ds =>
    cases ds with
    | nil => exact ⟨hr.1, ho⟩
    | cons d ds => exact ⟨.inl ⟨hr.1, rfl⟩, (List.append_nil vs).symm ▸ ho⟩

theorem ofRegion_shown (ho : Optimum.FitsValues r.candidates values o) :
    (ofRegion values o r).shown ⊆ r.candidates := by
  have hoptimal : o.toList.flatMap (fun o => o.vertex :: o.tied) ⊆ r.candidates := by
    cases o with
    | none => exact List.nil_subset _
    | some o => simpa using ho.subset
  cases r with
  | infeasible found => exact List.nil_subset _
  | cornerless ws ds => exact List.append_subset.mpr ⟨List.Subset.refl ws, hoptimal⟩
  | cornered vs ds =>
    have hvs : vs ++ [] ⊆ vs := by simp
    cases ds with
    | nil => exact List.append_subset.mpr ⟨hvs, hoptimal⟩
    | cons d ds => exact List.append_subset.mpr ⟨hvs, hoptimal⟩

/-- The solution of a region is consistent, and shows none but its candidates. -/
theorem of_wellFormed (hr : r.WellFormed n)
    (he : ∀ e' ∈ e, e'.Fits r.candidates r.openDirections) :
    (Solution.of r e).Consistent n ∧ (Solution.of r e).shown ⊆ r.candidates := by
  rcases e with _ | ⟨values, o | d⟩
  · exact ⟨ofRegion_consistent hr rfl, ofRegion_shown rfl⟩
  · have ho : o.WellFormed r.candidates values := he _ rfl
    exact ⟨ofRegion_consistent hr ho, ofRegion_shown ho⟩
  · have hd : d ∈ r.openDirections := he _ rfl
    refine ⟨hd, ?_⟩
    simpa [Solution.of, shown, vertices, witnesses, optimum] using r.vertices_subset_candidates

theorem vertices_of (r : Region α) (e : Option (Evaluation α)) :
    (Solution.of r e).vertices = r.vertices := by
  have hregion : ∀ values o, (ofRegion values o r).vertices = r.vertices := by
    intro values o
    cases r with
    | infeasible found => rfl
    | cornerless ws ds => rfl
    | cornered vs ds => cases ds <;> rfl
  rcases e with _ | ⟨values, o | d⟩
  · exact hregion _ _
  · exact hregion _ _
  · rfl

/-- Only an infeasible region is told to be one. -/
theorem of_eq_infeasible {found : List Conflict} (h : Solution.of r e = .infeasible found) :
    r = .infeasible found := by
  have hregion : ∀ values o, ofRegion values o r = .infeasible found → r = .infeasible found := by
    intro values o h
    cases r with
    | infeasible found' =>
      cases h
      rfl
    | cornerless ws ds => cases h
    | cornered vs ds => cases ds <;> cases h
  rcases e with _ | ⟨values, o | d⟩
  · exact hregion _ _ h
  · exact hregion _ _ h
  · cases h

end Solution

theorem constraintInfos_getElem? {set : ConstraintSet α} {vs : List (Vertex α)} {i : Nat}
    {info : ConstraintInfo α} (h : (constraintInfos set vs)[i]? = some info) :
    info.index = i ∧ set.get? i = some info.constraint ∧ info.implicit = set.isImplicit i ∧
      (info.active = true ↔ ∃ v ∈ vs, i ∈ v.tight) := by
  unfold constraintInfos at h
  rw [List.getElem?_map, Option.map_eq_some_iff] at h
  obtain ⟨⟨k, j⟩, hkj, rfl⟩ := h
  rw [List.getElem?_zipIdx, Option.map_eq_some_iff] at hkj
  obtain ⟨l, hl, he⟩ := hkj
  obtain ⟨rfl, rfl⟩ := Prod.mk.inj he
  rw [Nat.zero_add]
  refine ⟨rfl, hl, rfl, ?_⟩
  simp only [List.any_eq_true, List.contains_iff_mem]

end Telling

/-! ## Vertices -/

variable {α : Type} [Scalar α] {tol : Tolerance α} {cs : List (Constraint α)}

theorem vertexAt_wellFormed (tol : Tolerance α) (cs : List (Constraint α)) (p : Vec α) :
    (vertexAt tol cs p).WellFormed cs.length where
  ascending := tightAt_ascending tol cs p
  inRange := by
    intro i hi
    obtain ⟨k, hk, -⟩ := mem_tightAt.mp hi
    obtain ⟨hlt, -⟩ := List.getElem?_eq_some_iff.mp hk
    exact hlt
  degenerate := decide_eq_true_iff

namespace Vertex.WellFormed

variable {n : Nat} {v w : Vertex α}

omit [Scalar α] in
theorem merge (hv : v.WellFormed n) (hw : w.WellFormed n) : (v.merge w.tight).WellFormed n where
  ascending := unionIndices_ascending hw.ascending
  inRange := fun i hi => (mem_unionIndices.mp hi).elim (hv.inRange i) (hw.inRange i)
  degenerate := decide_eq_true_iff

/-- A vertex that is absorbed is appended, or merged into one that is there. -/
theorem absorb {vs : List (Vertex α)} (hw : w.WellFormed n) (hvs : ∀ v ∈ vs, v.WellFormed n) :
    ∀ v ∈ absorb tol w vs, v.WellFormed n := by
  induction vs with
  | nil => exact List.forall_mem_singleton.mpr hw
  | cons v vs ih =>
    obtain ⟨hv, hvs⟩ := List.forall_mem_cons.mp hvs
    unfold PlanarLP.absorb
    split
    · exact List.forall_mem_cons.mpr ⟨hv.merge hw, hvs⟩
    · exact List.forall_mem_cons.mpr ⟨hv, ih hvs⟩

end Vertex.WellFormed

theorem corners_wellFormed (tol : Tolerance α) (cs : List (Constraint α)) :
    ∀ v ∈ corners tol cs, v.WellFormed cs.length := by
  intro v hv
  have hmem := (counterClockwise_perm _).mem_iff.mp hv
  refine List.foldlRecOn (motive := fun vs : List (Vertex α) => ∀ v ∈ vs, v.WellFormed cs.length)
    _ _ (by simp) (fun vs hvs p _ => ?_) v hmem
  exact (vertexAt_wellFormed tol cs p).absorb hvs

theorem samplePoints_wellFormed (tol : Tolerance α) (cs : List (Constraint α)) :
    ∀ v ∈ samplePoints tol cs, v.WellFormed cs.length := by
  refine List.foldlRecOn (motive := fun ws : List (Vertex α) => ∀ v ∈ ws, v.WellFormed cs.length)
    _ _ (by simp) (fun ws hws p _ => ?_)
  split
  · exact hws
  · exact List.forall_mem_append.mpr
      ⟨hws, List.forall_mem_singleton.mpr (vertexAt_wellFormed tol cs p)⟩

/-! ## Conflicts -/

theorem Conflict.indices_injective : Function.Injective Conflict.indices := by
  intro c d h
  cases c <;> cases d <;> simp_all [Conflict.indices]

theorem pairConflicts_wellFormed (tol : Tolerance α) (cs : List (Constraint α)) :
    Conflict.AreWellFormed cs.length (pairConflicts tol cs) := by
  have hpair : ∀ c ∈ pairConflicts tol cs, ∃ i j, i < j ∧ j < cs.length ∧ c = .pair i j := by
    intro c hc
    obtain ⟨i, j, k, l, hij, -, hl, -, rfl⟩ := mem_pairConflicts.mp hc
    obtain ⟨hj, -⟩ := List.getElem?_eq_some_iff.mp hl
    exact ⟨i, j, hij, hj, rfl⟩
  refine ⟨fun c hc => ?_, fun c hc => ?_, .inl fun c hc => ?_,
    (nodup_pairConflicts tol cs).map Conflict.indices_injective⟩
  all_goals obtain ⟨i, j, hij, hj, rfl⟩ := hpair c hc
  · simpa [Conflict.indices] using hij
  · simpa [Conflict.indices] using ⟨hij.trans hj, hj⟩
  · rfl

theorem tripleConflicts_wellFormed (tol : Tolerance α) (cs : List (Constraint α)) :
    Conflict.AreWellFormed cs.length (tripleConflicts tol cs) := by
  have htriple : ∀ c ∈ tripleConflicts tol cs,
      ∃ i j h, i < j ∧ j < h ∧ h < cs.length ∧ c = .triple i j h := by
    intro c hc
    obtain ⟨i, j, h, k, l, m, hij, hjh, -, -, hm, -, rfl⟩ := mem_tripleConflicts.mp hc
    obtain ⟨hh, -⟩ := List.getElem?_eq_some_iff.mp hm
    exact ⟨i, j, h, hij, hjh, hh, rfl⟩
  refine ⟨fun c hc => ?_, fun c hc => ?_, .inr fun c hc => ?_,
    (nodup_tripleConflicts tol cs).map Conflict.indices_injective⟩
  all_goals obtain ⟨i, j, h, hij, hjh, hh, rfl⟩ := htriple c hc
  · simpa [Conflict.indices] using ⟨⟨hij, hij.trans hjh⟩, hjh⟩
  · simpa [Conflict.indices] using ⟨hij.trans (hjh.trans hh), hjh.trans hh, hh⟩
  · rfl

theorem smallestConflicts_wellFormed (tol : Tolerance α) (cs : List (Constraint α)) :
    Conflict.AreWellFormed cs.length (smallestConflicts tol cs) := by
  rcases smallestConflicts_cases tol cs with ⟨-, h⟩ | ⟨-, h⟩ <;> rw [h]
  · exact pairConflicts_wellFormed tol cs
  · exact tripleConflicts_wellFormed tol cs

theorem regionOf_wellFormed (tol : Tolerance α) (cs : List (Constraint α)) :
    (regionOf tol cs).WellFormed cs.length := by
  rcases regionOf_kind tol cs with ⟨hne, hr⟩ | ⟨-, hne, hr⟩ | ⟨-, -, hr⟩ <;> rw [hr]
  · exact ⟨hne, corners_wellFormed tol cs⟩
  · exact ⟨hne, samplePoints_wellFormed tol cs⟩
  · exact smallestConflicts_wellFormed tol cs

/-! ## Evaluations -/

namespace Objective

variable {f : Objective α} {vs : List (Vertex α)} {ds : List (Vec α)}

theorem optimum?_wellFormed {o : Optimum α} (h : f.optimum? tol vs ds = some o) :
    o.WellFormed vs (vs.map fun v => f.valueAt v.position) := by
  obtain ⟨best, -, h⟩ := Option.bind_eq_some_iff.mp h
  obtain ⟨⟨vertex, value⟩, hhead, h⟩ := Option.bind_eq_some_iff.mp h
  cases h
  have hchosen : (f.tied tol vs best).Sublist (vs.map fun v => (v, f.valueAt v.position)) :=
    List.filter_sublist
  have hmem : (vertex, value) ∈ f.tied tol vs best := List.mem_of_head? hhead
  refine ⟨List.length_map _, ?_, ?_, ?_, ?_⟩
  · exact List.ne_nil_of_mem (List.mem_map_of_mem hmem)
  · have hsub := hchosen.map Prod.fst
    rwa [List.map_map, Function.comp_def, List.map_id'] at hsub
  · rw [List.head?_map, hhead]
    rfl
  · obtain ⟨i, hi⟩ := List.mem_iff_getElem?.mp (hchosen.subset hmem)
    rw [List.getElem?_map, Option.map_eq_some_iff] at hi
    obtain ⟨v, hv, he⟩ := hi
    cases he
    exact ⟨i, hv, by rw [List.getElem?_map, hv]; rfl⟩

theorem evaluate_fits {e : Evaluation α} (h : f.evaluate tol vs ds = some e) : e.Fits vs ds := by
  unfold evaluate at h
  split at h
  · cases h
  · split at h
    · rename_i d hd
      cases h
      exact List.mem_of_find?_eq_some hd
    · obtain ⟨o, ho, rfl⟩ := Option.map_eq_some_iff.mp h
      exact optimum?_wellFormed ho

end Objective

/-! ## Descriptions -/

variable {solver : Solver α} {set : ConstraintSet α} {objective : Option (Objective α)}
  {viewport : Option (Viewport α)} {d : Description α}

/-- A set within the limit is always described, and no other set is. -/
theorem Solver.describe_eq_ok : solver.describe set objective viewport = .ok d ↔
    set.explicit.length ≤ solver.maxConstraints ∧
    ∃ r, r = regionOf solver.tolerance set.constraints ∧
      d = { solution := .of r (objective.bind fun f => f.evaluateRegion solver.tolerance r)
            constraints := constraintInfos set r.vertices
            viewport := viewport.getD (.fit r.candidates)
            clipped := if r.isFeasible then
                clip solver.tolerance set (viewport.getD (.fit r.candidates))
              else [] } := by
  obtain ⟨tol, limit⟩ := solver
  unfold describe
  cases hr : (⟨tol, limit⟩ : Solver α).solve set with
  | error e =>
    refine iff_of_false nofun fun ⟨hsize, _⟩ => ?_
    rw [solve_eq_ok.mpr ⟨hsize, rfl⟩] at hr
    cases hr
  | ok r =>
    obtain ⟨hsize, rfl⟩ := solve_eq_ok.mp hr
    constructor
    · intro h
      cases h
      exact ⟨hsize, _, rfl, rfl⟩
    · rintro ⟨-, _, rfl, rfl⟩
      rfl

/-- **Every description is well formed**, whatever the arithmetic. -/
theorem describe_wellFormed (h : solver.describe set objective viewport = .ok d) :
    d.WellFormed set := by
  obtain ⟨-, r, hr, rfl⟩ := Solver.describe_eq_ok.mp h
  have hwell : r.WellFormed set.size := hr ▸ regionOf_wellFormed _ _
  have hfits : ∀ e ∈ objective.bind fun f => f.evaluateRegion solver.tolerance r,
      e.Fits r.candidates r.openDirections := by
    intro e he
    obtain ⟨f, -, hf⟩ := Option.bind_eq_some_iff.mp he
    exact Objective.evaluate_fits hf
  obtain ⟨hconsistent, hshown⟩ := Solution.of_wellFormed hwell hfits
  refine ⟨fun v hv => hwell.candidates v (hshown hv), hconsistent, fun found hfound => ?_, ?_, ?_⟩
  · rw [Solution.of_eq_infeasible hfound]
    refine ⟨rfl, fun info hinfo => ?_⟩
    obtain ⟨i, hi⟩ := List.mem_iff_getElem?.mp hinfo
    obtain ⟨-, -, -, hactive⟩ := constraintInfos_getElem? hi
    refine Bool.eq_false_iff.mpr fun ha => ?_
    obtain ⟨v, hv, -⟩ := hactive.mp ha
    cases hv
  · simp [constraintInfos, ConstraintSet.size]
  · intro i info hi
    rw [Solution.vertices_of]
    exact constraintInfos_getElem? hi

/-- Two constraints of which the second is repeated, in floating point. -/
def repeated : ConstraintSet Float :=
  .of [⟨1, 1, 4, .le, "x + y <= 4"⟩, ⟨1, -1, 0, .eq, "x - y = 0"⟩,
    ⟨1, -1, 0, .eq, "x - y = 0"⟩] true

theorem describe_wellFormed_repeated :
    ∃ d, Solver.standard.describe repeated (some ⟨1, 2, 0, .maximize⟩) none = .ok d ∧
      d.WellFormed repeated := by
  have hsize : repeated.explicit.length ≤ (Solver.standard : Solver Float).maxConstraints := by
    decide
  obtain ⟨d, hd⟩ : ∃ d, Solver.standard.describe repeated (some ⟨1, 2, 0, .maximize⟩) none =
      .ok d := ⟨_, Solver.describe_eq_ok.mpr ⟨hsize, _, rfl, rfl⟩⟩
  exact ⟨d, hd, describe_wellFormed hd⟩

end PlanarLP
