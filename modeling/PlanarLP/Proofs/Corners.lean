import PlanarLP.Proofs.Vertices

/-! The corners in exact arithmetic. Cramer's rule gives the one point on two boundaries that
are not parallel, so the crossings that every constraint allows are the extreme points of the
feasible set; each becomes one vertex, with the boundaries that pass through it. -/

namespace PlanarLP

theorem counterClockwise_perm {α : Type} [Scalar α] (vs : List (Vertex α)) :
    (counterClockwise vs).Perm vs := List.mergeSort_perm vs _

namespace Constraint

theorem crossing_eq_some {k l : Constraint ℝ} {p : Vec ℝ} :
    k.crossing l .exact = some p ↔
      k.normal.cross l.normal ≠ 0 ∧ k.OnBoundary p ∧ l.OnBoundary p := by
  have hdet : k.normal.cross l.normal = k.a * l.b - k.b * l.a := rfl
  unfold crossing
  dsimp only
  split
  · rename_i hs
    constructor
    · intro h; cases h
    · rintro ⟨hne, -⟩
      exact absurd (Tolerance.exact_isSingular.mp hs) hne
  · rename_i hs
    have hne : k.normal.cross l.normal ≠ 0 := fun h0 => hs (Tolerance.exact_isSingular.mpr h0)
    let c : Vec ℝ := ⟨(k.c * l.b - l.c * k.b) / k.normal.cross l.normal,
      (k.a * l.c - l.a * k.c) / k.normal.cross l.normal⟩
    have hk : k.OnBoundary c := by
      simp only [OnBoundary, c]
      field_simp
      rw [hdet]; ring
    have hl : l.OnBoundary c := by
      simp only [OnBoundary, c]
      field_simp
      rw [hdet]; ring
    constructor
    · intro h
      obtain rfl : c = p := Option.some.inj h
      exact ⟨hne, hk, hl⟩
    · rintro ⟨-, hkp, hlp⟩
      exact congrArg some (Vec.eq_of_dot_eq hne (hk.trans hkp.symm) (hl.trans hlp.symm))

/-- Boundaries that are not parallel cross. -/
theorem exists_crossing {k l : Constraint ℝ} (hne : k.normal.cross l.normal ≠ 0) :
    ∃ p, k.crossing l .exact = some p :=
  ⟨_, if_neg fun h0 => hne (Tolerance.exact_isSingular.mp h0)⟩

end Constraint

/-- Of two different members of a list one comes after the other. -/
theorem pair_sublist {β : Type} {x y : β} {l : List β} (hx : x ∈ l) (hy : y ∈ l)
    (hne : x ≠ y) : [x, y].Sublist l ∨ [y, x].Sublist l := by
  induction l with
  | nil => cases hx
  | cons z l ih =>
    rcases List.mem_cons.mp hx with rfl | hx' <;> rcases List.mem_cons.mp hy with rfl | hy'
    · exact absurd rfl hne
    · exact .inl ((List.singleton_sublist.mpr hy').cons_cons x)
    · exact .inr ((List.singleton_sublist.mpr hx').cons_cons y)
    · exact (ih hx' hy').imp (·.cons z) (·.cons z)

variable {cs : List (Constraint ℝ)} {p : Vec ℝ}

theorem mem_crossings : p ∈ crossings .exact cs ↔
    ∃ k ∈ cs, ∃ l ∈ cs, k.normal.cross l.normal ≠ 0 ∧ k.OnBoundary p ∧ l.OnBoundary p := by
  unfold crossings
  constructor
  · intro hp
    obtain ⟨⟨k, l⟩, hkl, hc⟩ := List.mem_filterMap.mp hp
    have hsub := (mem_pairs.mp hkl).subset
    exact ⟨k, hsub List.mem_cons_self, l, hsub (List.mem_cons_of_mem k List.mem_cons_self),
      Constraint.crossing_eq_some.mp hc⟩
  · rintro ⟨k, hk, l, hl, hne, hkp, hlp⟩
    have hkl : k ≠ l := by
      rintro rfl
      exact hne (Vec.cross_self _)
    rcases pair_sublist hk hl hkl with hs | hs
    · exact List.mem_filterMap.mpr ⟨(k, l), mem_pairs.mpr hs,
        Constraint.crossing_eq_some.mpr ⟨hne, hkp, hlp⟩⟩
    · rw [Vec.cross_swap, neg_ne_zero] at hne
      exact List.mem_filterMap.mpr ⟨(l, k), mem_pairs.mpr hs,
        Constraint.crossing_eq_some.mpr ⟨hne, hlp, hkp⟩⟩

/-- The points of the corners, in the order in which they are found. -/
noncomputable def cornerPoints (cs : List (Constraint ℝ)) : List (Vec ℝ) :=
  distinctPoints .exact ((crossings .exact cs).filter (allows .exact cs))

theorem corners_eq (cs : List (Constraint ℝ)) :
    corners .exact cs = counterClockwise ((cornerPoints cs).map (vertexAt .exact cs)) := by
  rw [corners, foldl_absorb]
  rfl

theorem mem_cornerPoints : p ∈ cornerPoints cs ↔ p ∈ (feasible cs).extremePoints ℝ := by
  rw [cornerPoints, mem_distinctPoints, List.mem_filter, mem_crossings, exact_allows,
    mem_extremePoints_feasible, and_comm]

theorem corners_positions_perm (cs : List (Constraint ℝ)) :
    ((corners .exact cs).map Vertex.position).Perm (cornerPoints cs) := by
  rw [corners_eq]
  refine ((counterClockwise_perm _).map Vertex.position).trans ?_
  rw [map_vertexAt_position]

theorem nodup_corners (cs : List (Constraint ℝ)) :
    ((corners .exact cs).map Vertex.position).Nodup :=
  (corners_positions_perm cs).nodup_iff.mpr (nodup_distinctPoints _)

theorem mem_corners_position : p ∈ (corners .exact cs).map Vertex.position ↔
    p ∈ (feasible cs).extremePoints ℝ :=
  (corners_positions_perm cs).mem_iff.trans mem_cornerPoints

theorem eq_vertexAt_of_mem_corners {v : Vertex ℝ} (hv : v ∈ corners .exact cs) :
    v = vertexAt .exact cs v.position := by
  rw [corners_eq, (counterClockwise_perm _).mem_iff] at hv
  obtain ⟨p, -, rfl⟩ := List.mem_map.mp hv
  rw [vertexAt_position]

/-- **The corners are the extreme points of the feasible set**, each listed once, with the
boundaries through it in ascending order. An extreme point is a feasible point on two
boundaries that are not parallel. -/
theorem corners_extremePoints (cs : List (Constraint ℝ)) :
    {p | p ∈ (corners .exact cs).map Vertex.position} = (feasible cs).extremePoints ℝ ∧
    (feasible cs).extremePoints ℝ = {p | p ∈ feasible cs ∧ ∃ k ∈ cs, ∃ l ∈ cs,
      k.normal.cross l.normal ≠ 0 ∧ k.OnBoundary p ∧ l.OnBoundary p} ∧
    ((corners .exact cs).map Vertex.position).Nodup ∧
    ∀ v ∈ corners .exact cs, v.tight.Pairwise (· < ·) ∧
      (∀ i, i ∈ v.tight ↔ ∃ k, cs[i]? = some k ∧ k.OnBoundary v.position) ∧
      (v.degenerate = true ↔ 2 < v.tight.length) := by
  refine ⟨Set.ext fun _ => mem_corners_position, Set.ext fun _ => mem_extremePoints_feasible,
    nodup_corners cs, fun v hv => ?_⟩
  have hv' := eq_vertexAt_of_mem_corners hv
  have htight : v.tight = tightAt .exact cs v.position := congrArg Vertex.tight hv'
  have hdeg : v.degenerate = decide (2 < (tightAt .exact cs v.position).length) :=
    congrArg Vertex.degenerate hv'
  rw [htight, hdeg]
  refine ⟨tightAt_ascending _ _ _, fun i => ?_, decide_eq_true_iff⟩
  rw [mem_tightAt]
  simp only [Constraint.exact_isTight]

end PlanarLP
