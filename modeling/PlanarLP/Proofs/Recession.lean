import PlanarLP.Proofs.Vertices

/-! The open directions in exact arithmetic. They generate the recession cone of the feasible
set (`rayCone_eq`): a direction along a boundary is a multiple of a candidate, and any
other is reached by walking along a normal inside the cone. -/

namespace PlanarLP

namespace Vec

theorem normalize_eq (v : Vec ℝ) : v.normalize = v.norm⁻¹ • v := divide_eq v v.norm

theorem normalize_neg (v : Vec ℝ) : (-v).normalize = -v.normalize := by
  have hsq : (-v).normSq = v.normSq := by
    rw [normSq, neg_dot, dot_neg, neg_neg]
    rfl
  have hn : (-v).norm = v.norm := congrArg Real.sqrt hsq
  rw [normalize_eq, normalize_eq, hn, smul_neg]

theorem dot_self_normalize {v : Vec ℝ} (hv : v ≠ 0) : v.normalize.dot v.normalize = 1 := by
  have hsq : v.norm * v.norm = v.dot v := Real.mul_self_sqrt (dot_self_pos hv).le
  rw [normalize_eq, dot_smul, smul_dot, ← hsq]
  field_simp [(norm_pos hv).ne']

theorem norm_of_unit {v : Vec ℝ} (h : v.dot v = 1) : v.norm = 1 :=
  (congrArg Real.sqrt h).trans Real.sqrt_one

/-- A vector across a unit vector is a multiple of its quarter turn. -/
theorem eq_smul_turnLeft {n d : Vec ℝ} (hn : n.dot n = 1) (hd : n.dot d = 0) :
    d = n.cross d • n.turnLeft := by
  rw [dot_eq] at hn hd
  ext
  · rw [smul_x, turnLeft_x, cross_eq]
    linear_combination -d.x * hn + n.x * hd
  · rw [smul_y, turnLeft_y, cross_eq]
    linear_combination -d.y * hn + n.y * hd

end Vec

/-! ## Outward normals and candidates -/

variable {cs : List (Constraint ℝ)} {d : Vec ℝ}

/-- The unit normals of all sides. -/
noncomputable def normalsOf (cs : List (Constraint ℝ)) : List (Vec ℝ) :=
  cs.flatMap Constraint.outwardNormals

theorem Constraint.outwardNormals_eq (k : Constraint ℝ) :
    k.outwardNormals = k.sides.map fun h => h.normal.normalize := by
  unfold outwardNormals sides
  cases k.relation <;> simp [Vec.normalize_neg]

theorem normalsOf_eq (cs : List (Constraint ℝ)) :
    normalsOf cs = (sidesOf cs).map fun h => h.normal.normalize := by
  rw [normalsOf, sidesOf, List.map_flatMap]
  exact List.flatMap_congr fun k _ => k.outwardNormals_eq

theorem recedes_iff (hcs : ∀ k ∈ cs, k.Proper) :
    recedes .exact (normalsOf cs) d = true ↔ d ∈ HalfPlane.recession (sidesOf cs) := by
  rw [recedes, List.all_eq_true, normalsOf_eq, List.forall_mem_map]
  refine forall₂_congr fun h hh => ?_
  obtain ⟨k, hk, hs⟩ := mem_sidesOf.mp hh
  have hpos := inv_pos.mpr (Vec.norm_pos (Constraint.side_ne_zero (hcs k hk) hs))
  rw [Tolerance.exact_holds, Vec.normalize_eq, Vec.smul_dot]
  exact ⟨fun h0 => nonpos_of_mul_nonpos_right h0 hpos,
    fun h0 => mul_nonpos_of_nonneg_of_nonpos hpos.le h0⟩

/-- Every candidate that recedes is listed, and nothing else is. -/
theorem mem_recessionRays (hcs : ∀ k ∈ cs, k.Proper) (hne : cs ≠ []) :
    d ∈ recessionRays .exact cs ↔
      d ∈ rayCandidates (normalsOf cs) ∧ d ∈ HalfPlane.recession (sidesOf cs) := by
  have hnormals : (normalsOf cs).isEmpty = false := by
    obtain ⟨k, hk⟩ := List.exists_mem_of_ne_nil cs hne
    obtain ⟨h, hh⟩ := k.exists_side
    rw [List.isEmpty_eq_false_iff_exists_mem, normalsOf_eq]
    exact ⟨_, List.mem_map_of_mem (mem_sidesOf.mpr ⟨k, hk, hh⟩)⟩
  have hrays : recessionRays .exact cs = (distinctPoints .exact ((rayCandidates
      (normalsOf cs)).filter (recedes .exact (normalsOf cs)))).mergeSort
        fun d e => (Scalar.order d.angle e.angle).isLE :=
    if_neg (Bool.eq_false_iff.mp hnormals)
  rw [hrays, List.mem_mergeSort, mem_distinctPoints, List.mem_filter, recedes_iff hcs]

theorem recessionRays_nil : recessionRays .exact ([] : List (Constraint ℝ)) = axisDirections := rfl

theorem recessionRays_subset (hcs : ∀ k ∈ cs, k.Proper) (hd : d ∈ recessionRays .exact cs) :
    d ∈ HalfPlane.recession (sidesOf cs) := by
  by_cases hne : cs = []
  · subst hne
    intro h hh
    cases hh
  · exact ((mem_recessionRays hcs hne).mp hd).2

theorem rayCandidates_unit {ns : List (Vec ℝ)} (hns : ∀ n ∈ ns, n.dot n = 1)
    (hd : d ∈ rayCandidates ns) : d.dot d = 1 := by
  obtain ⟨n, hn, hd⟩ := List.mem_flatMap.mp hd
  have hone := hns n hn
  simp only [List.mem_cons, List.not_mem_nil, or_false] at hd
  rcases hd with rfl | rfl | rfl
  · rw [Vec.turnLeft_dot_turnLeft, hone]
  · rw [Vec.turnRight_eq, Vec.neg_dot, Vec.dot_neg, neg_neg, Vec.turnLeft_dot_turnLeft, hone]
  · rw [Vec.neg_dot, Vec.dot_neg, neg_neg, hone]

theorem normalsOf_unit (hcs : ∀ k ∈ cs, k.Proper) {n : Vec ℝ} (hn : n ∈ normalsOf cs) :
    n.dot n = 1 := by
  rw [normalsOf_eq] at hn
  obtain ⟨h, hh, rfl⟩ := List.mem_map.mp hn
  obtain ⟨k, hk, hs⟩ := mem_sidesOf.mp hh
  exact Vec.dot_self_normalize (Constraint.side_ne_zero (hcs k hk) hs)

/-- Open directions are unit vectors. -/
theorem recessionRays_unit (hcs : ∀ k ∈ cs, k.Proper) (hd : d ∈ recessionRays .exact cs) :
    d.dot d = 1 := by
  by_cases hne : cs = []
  · subst hne
    rw [recessionRays_nil] at hd
    simp only [axisDirections, List.mem_cons, List.not_mem_nil, or_false] at hd
    rcases hd with rfl | rfl | rfl | rfl <;> norm_num [Vec.dot_eq]
  · exact rayCandidates_unit (fun n hn => normalsOf_unit hcs hn)
      ((mem_recessionRays hcs hne).mp hd).1

theorem recessionRays_ne_zero (hcs : ∀ k ∈ cs, k.Proper) (hd : d ∈ recessionRays .exact cs) :
    d ≠ 0 := by
  rintro rfl
  have h := recessionRays_unit hcs hd
  rw [Vec.dot_zero] at h
  exact zero_ne_one h

/-! ## The cone they generate -/

/-- The recession cone of some half-planes, as a cone of the library. -/
def HalfPlane.recessionCone (hs : List HalfPlane) : PointedCone ℝ (Vec ℝ) where
  carrier := recession hs
  zero_mem' := fun h _ => (Vec.dot_zero h.normal).le
  add_mem' := by
    intro c d hc hd h hh
    rw [Vec.dot_add]
    exact add_nonpos (hc h hh) (hd h hh)
  smul_mem' := fun t _ hd => recession_smul hd t.2

/-- The cone generated by the open directions. -/
noncomputable def rayCone (cs : List (Constraint ℝ)) : PointedCone ℝ (Vec ℝ) :=
  PointedCone.hull ℝ {d | d ∈ recessionRays .exact cs}

theorem rayCone_le (hcs : ∀ k ∈ cs, k.Proper) :
    rayCone cs ≤ HalfPlane.recessionCone (sidesOf cs) :=
  Submodule.span_le.mpr fun _ hd => recessionRays_subset hcs hd

/-- With no constraint every direction is open. -/
theorem rayCone_nil (d : Vec ℝ) : d ∈ rayCone [] := by
  have haxis : ∀ {e : Vec ℝ} (t : ℝ), e ∈ (axisDirections : List (Vec ℝ)) →
      max t 0 • e ∈ rayCone [] := fun t he =>
    PointedCone.smul_mem _ (le_max_right t 0) (PointedCone.subset_hull he)
  have hsplit : d = (max d.x 0 • ⟨1, 0⟩ + max (-d.x) 0 • ⟨-1, 0⟩) +
      (max d.y 0 • ⟨0, 1⟩ + max (-d.y) 0 • ⟨0, -1⟩) := by
    have hx := max_zero_sub_max_neg_zero_eq_self d.x
    have hy := max_zero_sub_max_neg_zero_eq_self d.y
    ext <;> simp <;> linarith
  rw [hsplit]
  refine add_mem (add_mem (haxis _ ?_) (haxis _ ?_)) (add_mem (haxis _ ?_) (haxis _ ?_)) <;>
    simp [axisDirections]

/-- A positive multiple of a candidate that recedes lies in the cone. -/
theorem smul_candidate_mem_rayCone (hcs : ∀ k ∈ cs, k.Proper)
    (hd : d ∈ rayCandidates (normalsOf cs)) {t : ℝ} (ht : 0 < t)
    (hrec : t • d ∈ HalfPlane.recession (sidesOf cs)) : t • d ∈ rayCone cs := by
  have hne : cs ≠ [] := by
    rintro rfl
    cases hd
  have hback : d ∈ HalfPlane.recession (sidesOf cs) := by
    have := HalfPlane.recession_smul hrec (inv_pos.mpr ht).le
    rwa [smul_smul, inv_mul_cancel₀ ht.ne', one_smul] at this
  exact PointedCone.smul_mem _ ht.le
    (PointedCone.subset_hull ((mem_recessionRays hcs hne).mpr ⟨hd, hback⟩))

/-- A receding direction along a boundary is a multiple of a quarter turn of its normal. -/
theorem edge_mem_rayCone (hcs : ∀ k ∈ cs, k.Proper) {n : Vec ℝ} (hn : n ∈ normalsOf cs)
    (hrec : d ∈ HalfPlane.recession (sidesOf cs)) (hd : n.dot d = 0) : d ∈ rayCone cs := by
  have hturn := Vec.eq_smul_turnLeft (normalsOf_unit hcs hn) hd
  rcases lt_trichotomy (n.cross d) 0 with hneg | hzero | hpos
  · have hflip : d = (-n.cross d) • n.turnRight := by
      rw [Vec.turnRight_eq, smul_neg, neg_smul, neg_neg]
      exact hturn
    rw [hflip] at hrec ⊢
    exact smul_candidate_mem_rayCone hcs
      (List.mem_flatMap.mpr ⟨n, hn, by simp⟩) (neg_pos.mpr hneg) hrec
  · rw [hturn, hzero, zero_smul]
    exact zero_mem _
  · rw [hturn] at hrec ⊢
    exact smul_candidate_mem_rayCone hcs
      (List.mem_flatMap.mpr ⟨n, hn, by simp⟩) hpos hrec

theorem mem_rayCone (hcs : ∀ k ∈ cs, k.Proper) :
    d ∈ rayCone cs ↔ d ∈ HalfPlane.recession (sidesOf cs) := by
  refine ⟨fun hd => rayCone_le hcs hd, fun hd => ?_⟩
  by_cases hne : cs = []
  · subst hne
    exact rayCone_nil d
  obtain ⟨k, hk⟩ := List.exists_mem_of_ne_nil cs hne
  obtain ⟨h, hh⟩ := k.exists_side
  have hmem : h ∈ sidesOf cs := mem_sidesOf.mpr ⟨k, hk, hh⟩
  have hunit : ∀ g ∈ sidesOf cs, g.normal.normalize ∈ normalsOf cs := fun g hg =>
    normalsOf_eq cs ▸ List.mem_map_of_mem hg
  have hn := Constraint.side_ne_zero (hcs k hk) hh
  have hspeed : 0 < h.normal.dot h.normal.normalize := by
    rw [Vec.normalize_eq, Vec.dot_smul]
    exact mul_pos (inv_pos.mpr (Vec.norm_pos hn)) (Vec.dot_self_pos hn)
  -- walk along the normal inside the cone, whose own boundaries pass through the origin
  rw [← HalfPlane.common_central] at hd
  refine HalfPlane.mem_of_exits (e := h.normal.normalize) (rayCone cs).convex hd
    ⟨h.central, List.mem_map_of_mem hmem, hspeed.ne'⟩ ?_ ?_
  · intro s hs q hq
    have hsrec : s • h.normal.normalize ∈ HalfPlane.recession (sidesOf cs) := by
      simpa [HalfPlane.recession, HalfPlane.central] using hs
    have hs0 : s ≤ 0 := by
      have := hsrec h hmem
      rw [Vec.dot_smul] at this
      exact nonpos_of_mul_nonpos_left this hspeed
    rcases hs0.eq_or_lt with rfl | hneg
    · simpa using hq
    · have hflip : s • h.normal.normalize = (-s) • -h.normal.normalize := by
        rw [smul_neg, neg_smul, neg_neg]
      rw [hflip] at hsrec ⊢
      exact add_mem hq (smul_candidate_mem_rayCone hcs
        (List.mem_flatMap.mpr ⟨_, hunit h hmem, by simp⟩) (neg_pos.mpr hneg) hsrec)
  · rintro t hq ⟨_, hmap, -, hmeet⟩
    obtain ⟨g, hg, rfl⟩ := List.mem_map.mp hmap
    rw [HalfPlane.common_central] at hq
    refine edge_mem_rayCone hcs (hunit g hg) hq ?_
    rw [Vec.normalize_eq, Vec.smul_dot]
    exact mul_eq_zero_of_right _ hmeet

/-- **The open directions generate the recession cone.** -/
theorem rayCone_eq (hcs : ∀ k ∈ cs, k.Proper) :
    (rayCone cs : Set (Vec ℝ)) = HalfPlane.recession (sidesOf cs) :=
  Set.ext fun _ => mem_rayCone hcs

end PlanarLP
