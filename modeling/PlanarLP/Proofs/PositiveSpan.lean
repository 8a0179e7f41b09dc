import PlanarLP.Proofs.Recession

/-! The open directions and the outward normals as generators. A vector is a non-negative
combination of some normals unless a direction tells it from all of them (`mem_hull_or_apart`,
by eliminating one normal after another). So there is no open direction exactly when the
outward normals positively span the plane, and the recession cone, whose generators the open
directions are, can be told by the normals alone. -/

namespace PlanarLP

/-! ## Non-negative combinations and the directions that tell them apart -/

namespace Vec

/-- The combination of `v` and `a` that lies across `d`, scaled by what `d` sees of `a`. -/
noncomputable def eliminate (a d v : Vec ℝ) : Vec ℝ := a.dot d • v - v.dot d • a

/-- Eliminating `a` from a vector and `d` from a direction leaves the same dot product. -/
theorem eliminate_dot (a d v e : Vec ℝ) : (eliminate a d v).dot e = v.dot (eliminate d a e) := by
  simp only [eliminate, dot_eq, sub_x, sub_y, smul_x, smul_y]
  ring

theorem dot_eliminate_self (a d e : Vec ℝ) : a.dot (eliminate d a e) = 0 := by
  simp only [eliminate, dot_eq, sub_x, sub_y, smul_x, smul_y]
  ring

theorem smul_eq_eliminate_add (a d v : Vec ℝ) :
    a.dot d • v = eliminate a d v + v.dot d • a := (sub_add_cancel _ _).symm

end Vec

open Vec

/-- The eliminated vectors are combinations of the old ones when `a`, unlike the others, looks
along `d`. -/
theorem hull_eliminate_le {a d : Vec ℝ} {ns : List (Vec ℝ)} (ha : 0 ≤ a.dot d)
    (hd : ∀ n ∈ ns, n.dot d ≤ 0) :
    PointedCone.hull ℝ {m | m ∈ ns.map (eliminate a d)} ≤ PointedCone.hull ℝ {n | n ∈ a :: ns} := by
  refine Submodule.span_le.mpr ?_
  intro m hm
  obtain ⟨n, hn, rfl⟩ := List.mem_map.mp hm
  have hna : n ∈ PointedCone.hull ℝ {n | n ∈ a :: ns} :=
    PointedCone.subset_hull (List.mem_cons_of_mem a hn)
  have haa : a ∈ PointedCone.hull ℝ {n | n ∈ a :: ns} := PointedCone.subset_hull List.mem_cons_self
  rw [eliminate, sub_eq_add_neg, ← neg_smul]
  exact add_mem (PointedCone.smul_mem _ ha hna)
    (PointedCone.smul_mem _ (neg_nonneg.mpr (hd n hn)) haa)

/-- **A vector is a non-negative combination of some others, or a direction that none of them
looks along has it in front.** -/
theorem mem_hull_or_apart (ns : List (Vec ℝ)) (v : Vec ℝ) :
    v ∈ PointedCone.hull ℝ {n | n ∈ ns} ∨ ∃ d, (∀ n ∈ ns, n.dot d ≤ 0) ∧ 0 < v.dot d := by
  -- on the number of vectors, since the rest is replaced when one is eliminated
  induction hlen : ns.length generalizing ns v with
  | zero =>
    obtain rfl := List.length_eq_zero_iff.mp hlen
    by_cases hv : v = 0
    · rw [hv]
      exact .inl (zero_mem _)
    · exact .inr ⟨v, List.forall_mem_nil _, dot_self_pos hv⟩
  | succ len ih =>
    obtain ⟨a, ns, rfl⟩ := List.exists_cons_of_length_eq_add_one hlen
    have hns : ns.length = len := Nat.succ.inj hlen
    obtain hv | ⟨d, hd, hvd⟩ := ih ns v hns
    · exact .inl (Submodule.span_mono (fun n hn => List.mem_cons_of_mem a hn) hv)
    by_cases ha : a.dot d ≤ 0
    · exact .inr ⟨d, List.forall_mem_cons.mpr ⟨ha, hd⟩, hvd⟩
    rw [not_le] at ha
    obtain hv | ⟨e, he, hve⟩ := ih (ns.map (eliminate a d)) (eliminate a d v) (by simpa using hns)
    · left
      have hscaled : a.dot d • v ∈ PointedCone.hull ℝ {n | n ∈ a :: ns} := by
        rw [smul_eq_eliminate_add a d v]
        exact add_mem (hull_eliminate_le ha.le hd hv)
          (PointedCone.smul_mem _ hvd.le (PointedCone.subset_hull List.mem_cons_self))
      rw [← inv_smul_smul₀ ha.ne' v]
      exact PointedCone.smul_mem _ (inv_nonneg.mpr ha.le) hscaled
    · right
      refine ⟨eliminate d a e, List.forall_mem_cons.mpr ⟨(dot_eliminate_self a d e).le, ?_⟩, ?_⟩
      · intro n hn
        rw [← eliminate_dot]
        exact he _ (List.mem_map_of_mem hn)
      · rw [← eliminate_dot]
        exact hve

/-- A direction that no generator looks along has no combination of them in front. -/
theorem dot_nonpos_of_mem_hull {ns : List (Vec ℝ)} {d v : Vec ℝ} (hd : ∀ n ∈ ns, n.dot d ≤ 0)
    (hv : v ∈ PointedCone.hull ℝ {n | n ∈ ns}) : v.dot d ≤ 0 := by
  have hle : PointedCone.hull ℝ {n | n ∈ ns} ≤ HalfPlane.recessionCone [⟨d, 0⟩] := by
    refine Submodule.span_le.mpr ?_
    intro n hn h hh
    rw [List.mem_singleton.mp hh, dot_comm]
    exact hd n hn
  rw [dot_comm]
  exact hle hv _ (List.mem_singleton_self _)

/-! ## Open directions -/

variable {cs : List (Constraint ℝ)} {d : Vec ℝ}

/-- The recession cone by the outward normals. -/
theorem mem_recession_iff_normals (hcs : ∀ k ∈ cs, k.Proper) :
    d ∈ HalfPlane.recession (sidesOf cs) ↔ ∀ n ∈ normalsOf cs, n.dot d ≤ 0 := by
  rw [← recedes_iff hcs, recedes, List.all_eq_true]
  exact forall₂_congr fun _ _ => Tolerance.exact_holds

theorem nodup_recessionRays (cs : List (Constraint ℝ)) : (recessionRays .exact cs).Nodup := by
  unfold recessionRays
  dsimp only
  split
  · norm_num [axisDirections]
  · exact (List.mergeSort_perm _ _).nodup_iff.mpr (nodup_distinctPoints _)

/-- There is no open direction exactly when the outward normals positively span the plane. -/
theorem recessionRays_eq_nil_iff (hcs : ∀ k ∈ cs, k.Proper) : recessionRays .exact cs = [] ↔
    ∀ v, v ∈ PointedCone.hull ℝ {n | n ∈ normalsOf cs} := by
  constructor
  · intro hnil v
    obtain hv | ⟨d, hd, hvd⟩ := mem_hull_or_apart (normalsOf cs) v
    · exact hv
    have hcone := (mem_rayCone hcs).mpr ((mem_recession_iff_normals hcs).mpr hd)
    have hzero : d = 0 := by simpa [rayCone, hnil] using hcone
    rw [hzero, dot_zero] at hvd
    exact absurd hvd (lt_irrefl 0)
  · intro hspan
    refine List.eq_nil_iff_forall_not_mem.mpr ?_
    intro d hd
    have hout := (mem_recession_iff_normals hcs).mp (recessionRays_subset hcs hd)
    have hle := dot_nonpos_of_mem_hull hout (hspan d)
    rw [recessionRays_unit hcs hd] at hle
    exact absurd hle (not_le.mpr one_pos)

/-- **The open directions are unit generators of the recession cone**, each listed once: the
cone of the directions that no outward normal looks along, which are those along which no side
of a constraint is left. There are none exactly when the outward normals positively span the
plane. -/
theorem recessionRays_generate (hcs : ∀ k ∈ cs, k.Proper) :
    (∀ d ∈ recessionRays .exact cs, d.norm = 1 ∧ ∀ n ∈ normalsOf cs, n.dot d ≤ 0) ∧
    (recessionRays .exact cs).Nodup ∧
    (PointedCone.hull ℝ {d | d ∈ recessionRays .exact cs} : Set (Vec ℝ)) =
      {d | ∀ n ∈ normalsOf cs, n.dot d ≤ 0} ∧
    (PointedCone.hull ℝ {d | d ∈ recessionRays .exact cs} : Set (Vec ℝ)) =
      HalfPlane.recession (sidesOf cs) ∧
    (recessionRays .exact cs = [] ↔ ∀ v, v ∈ PointedCone.hull ℝ {n | n ∈ normalsOf cs}) := by
  refine ⟨?_, nodup_recessionRays cs, ?_, rayCone_eq hcs, recessionRays_eq_nil_iff hcs⟩
  · intro d hd
    exact ⟨norm_of_unit (recessionRays_unit hcs hd),
      (mem_recession_iff_normals hcs).mp (recessionRays_subset hcs hd)⟩
  · refine (rayCone_eq hcs).trans ?_
    exact Set.ext fun d => mem_recession_iff_normals hcs

/-- The upper half of the y axis, which opens in a single direction. -/
noncomputable def halfLine : List (Constraint ℝ) := [⟨1, 0, 0, .eq, "x = 0"⟩, .yNonnegative]

theorem recessionRays_halfLine :
    (∀ k ∈ halfLine, k.Proper) ∧
    (∀ d ∈ recessionRays .exact halfLine, d.norm = 1 ∧ ∀ n ∈ normalsOf halfLine, n.dot d ≤ 0) ∧
    (recessionRays .exact halfLine).Nodup ∧
    (PointedCone.hull ℝ {d | d ∈ recessionRays .exact halfLine} : Set (Vec ℝ)) =
      {d | ∀ n ∈ normalsOf halfLine, n.dot d ≤ 0} ∧
    (PointedCone.hull ℝ {d | d ∈ recessionRays .exact halfLine} : Set (Vec ℝ)) =
      HalfPlane.recession (sidesOf halfLine) ∧
    (recessionRays .exact halfLine = [] ↔
      ∀ v, v ∈ PointedCone.hull ℝ {n | n ∈ normalsOf halfLine}) := by
  have hproper : ∀ k ∈ halfLine, k.Proper := by
    simp [halfLine, Constraint.Proper, Constraint.yNonnegative]
  exact ⟨hproper, recessionRays_generate hproper⟩

end PlanarLP
