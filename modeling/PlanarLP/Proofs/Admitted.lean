import PlanarLP.Proofs.Feasibility

/-! What survives the collecting of points, for any tolerance. A set within the limit is always
given a region. Absorbing a point either leaves the positions that are there or adds its own,
so the vertices and witnesses of the region stand at points that every constraint allows, and
the first such crossing is always a vertex. -/

namespace PlanarLP

theorem Solver.solve_of_size {α : Type} [Scalar α] {tol : Tolerance α} {limit : Nat}
    {set : ConstraintSet α} (h : set.explicit.length ≤ limit) :
    (⟨tol, limit⟩ : Solver α).solve set = .ok (regionOf tol set.constraints) :=
  Solver.solve_eq_ok.mpr ⟨h, rfl⟩

/-- Constraints by themselves are answered by the points that are tried for them. -/
theorem Solver.exists_solve_given {α : Type} [Scalar α] {limit : Nat} {cs : List (Constraint α)}
    (hlen : cs.length ≤ limit) (tol : Tolerance α) :
    ∃ r, (⟨tol, limit⟩ : Solver α).solve (.of cs false) = .ok r ∧
      r.isFeasible = jointlyFeasible tol cs := by
  refine ⟨_, Solver.solve_of_size hlen, ?_⟩
  rw [isFeasible_regionOf, ConstraintSet.constraints_of_false]

variable {tol : Tolerance ℝ} {cs : List (Constraint ℝ)} {p : Vec ℝ} {ps : List (Vec ℝ)}

theorem absorb_positions (new : Vertex ℝ) (vs : List (Vertex ℝ)) :
    (absorb tol new vs).map Vertex.position = vs.map Vertex.position ∨
      (absorb tol new vs).map Vertex.position = vs.map Vertex.position ++ [new.position] := by
  induction vs with
  | nil => exact .inr rfl
  | cons v vs ih =>
    rw [absorb]
    split
    · exact .inl rfl
    · exact ih.imp (congrArg (v.position :: ·)) (congrArg (v.position :: ·))

/-- A loop that adds some of the points it meets keeps those it starts with. -/
theorem foldl_positions {step : List (Vertex ℝ) → Vec ℝ → List (Vertex ℝ)}
    (hstep : ∀ vs p, (step vs p).map Vertex.position = vs.map Vertex.position ∨
      (step vs p).map Vertex.position = vs.map Vertex.position ++ [p]) (vs : List (Vertex ℝ)) :
    ∃ added, (ps.foldl step vs).map Vertex.position = vs.map Vertex.position ++ added ∧
      added.Sublist ps := by
  induction ps generalizing vs with
  | nil => exact ⟨[], (List.append_nil _).symm, .slnil⟩
  | cons p ps ih =>
    obtain ⟨added, hadded, hsub⟩ := ih (step vs p)
    rcases hstep vs p with h | h
    · exact ⟨added, by rw [List.foldl_cons, hadded, h], hsub.cons p⟩
    · exact ⟨p :: added, by rw [List.foldl_cons, hadded, h, List.append_assoc]; rfl,
        hsub.cons_cons p⟩

/-- Where the vertices stand: at admitted crossings, the first one among them. -/
theorem corners_positions (tol : Tolerance ℝ) (cs : List (Constraint ℝ)) :
    ∃ kept, ((corners tol cs).map Vertex.position).Perm kept ∧
      kept.Sublist ((crossings tol cs).filter (allows tol cs)) ∧
      kept.head? = ((crossings tol cs).filter (allows tol cs)).head? := by
  have hstep : ∀ vs p, (absorb tol (vertexAt tol cs p) vs).map Vertex.position =
      vs.map Vertex.position ∨ (absorb tol (vertexAt tol cs p) vs).map Vertex.position =
        vs.map Vertex.position ++ [p] := fun vs p => by
    have h := @absorb_positions tol (vertexAt tol cs p) vs
    rwa [vertexAt_position] at h
  have hperm := (counterClockwise_perm (((crossings tol cs).filter (allows tol cs)).foldl
    (fun vs p => absorb tol (vertexAt tol cs p) vs) [])).map Vertex.position
  refine ⟨_, hperm, ?_⟩
  cases (crossings tol cs).filter (allows tol cs) with
  | nil => exact ⟨.slnil, rfl⟩
  | cons p ps =>
    obtain ⟨added, hadded, hsub⟩ := @foldl_positions ps _ hstep [vertexAt tol cs p]
    rw [List.map_singleton, vertexAt_position] at hadded
    have hfirst : absorb tol (vertexAt tol cs p) [] = [vertexAt tol cs p] := rfl
    rw [List.foldl_cons, hfirst, hadded]
    exact ⟨hsub.cons_cons p, rfl⟩

variable {v : Vertex ℝ}

theorem allows_of_mem_corners (hv : v ∈ corners tol cs) : allows tol cs v.position = true := by
  obtain ⟨kept, hperm, hsub, -⟩ := corners_positions tol cs
  have hmem := hsub.subset (hperm.subset (List.mem_map_of_mem hv))
  exact (List.mem_filter.mp hmem).2

/-- The crossing of the first two boundaries is a vertex if it is admitted. -/
theorem exists_corner_of_crossing {k l : Constraint ℝ} (h : k.crossing l tol = some p)
    (hp : allows tol (k :: l :: cs) p = true) :
    ∃ v ∈ corners tol (k :: l :: cs), v.position = p := by
  obtain ⟨kept, hperm, -, hhead⟩ := corners_positions tol (k :: l :: cs)
  obtain ⟨rest, hrest⟩ : ∃ rest, crossings tol (k :: l :: cs) = p :: rest :=
    ⟨_, List.filterMap_cons_some h⟩
  rw [hrest, List.filter_cons_of_pos hp, List.head?_cons] at hhead
  exact List.mem_map.mp (hperm.symm.subset (List.mem_of_mem_head? hhead))

theorem allows_of_mem_samplePoints (hv : v ∈ samplePoints tol cs) :
    allows tol cs v.position = true := by
  have hstep : ∀ (ws : List (Vertex ℝ)) (p : Vec ℝ),
      (if ws.any (fun w => tol.samePoint w.position p) then ws
        else ws ++ [vertexAt tol cs p]).map Vertex.position = ws.map Vertex.position ∨
      (if ws.any (fun w => tol.samePoint w.position p) then ws
        else ws ++ [vertexAt tol cs p]).map Vertex.position = ws.map Vertex.position ++ [p] := by
    intro ws p
    split
    · exact .inl rfl
    · exact .inr (by rw [List.map_append, List.map_singleton, vertexAt_position])
  obtain ⟨added, hadded, hsub⟩ :=
    @foldl_positions ((probes cs).filter (allows tol cs)) _ hstep []
  have hmem : v.position ∈ (samplePoints tol cs).map Vertex.position := List.mem_map_of_mem hv
  rw [samplePoints, hadded] at hmem
  exact (List.mem_filter.mp (hsub.subset hmem)).2

theorem regionOf_vertices (tol : Tolerance ℝ) (cs : List (Constraint ℝ)) :
    (regionOf tol cs).vertices = corners tol cs := by
  unfold regionOf
  split
  · rename_i h
    rw [h]
    rfl
  · rename_i h
    rw [h]
    split <;> rfl

theorem mem_regionOf_witnesses (hv : v ∈ (regionOf tol cs).witnesses) :
    v ∈ samplePoints tol cs := by
  unfold regionOf at hv
  split at hv
  · exact absurd hv List.not_mem_nil
  · split at hv
    · rename_i h
      rw [h]
      exact hv
    · exact absurd hv List.not_mem_nil

/-- Every point that a region lists is one that its constraints allow. -/
theorem allows_of_mem_regionOf
    (hv : v ∈ (regionOf tol cs).vertices ++ (regionOf tol cs).witnesses) :
    allows tol cs v.position = true := by
  rcases List.mem_append.mp hv with hv | hv
  · exact allows_of_mem_corners (regionOf_vertices tol cs ▸ hv)
  · exact allows_of_mem_samplePoints (mem_regionOf_witnesses hv)

end PlanarLP
