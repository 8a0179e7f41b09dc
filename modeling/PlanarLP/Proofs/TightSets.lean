import PlanarLP.Proofs.Merging

/-! What the tight constraints of a corner say, at the standard tolerance. A vertex stands for all
crossings that were merged into it, and lists what is tight at any of them (`corners_tight`). Its
own crossing is among these, so nothing that is tight where it stands is missing. A constraint
that is tight at another one only is off by no more than its slack and a drift that grows with
its coefficients, and `sliver_tight` is a corner that lists a constraint which is not tight
there. -/

namespace PlanarLP

variable {k : Constraint ℝ} {p q : Vec ℝ} {cs : List (Constraint ℝ)}

/-! ## Points that count as one -/

theorem Tolerance.abs_sub_le_of_approxEq {a b : ℝ} (h : standard.approxEq a b = true) :
    |a - b| ≤ 1.1e-9 * (1 + |a|) := by
  have hclose := standard_approxEq.mp h
  have hb : |b| ≤ |a| + |a - b| := by
    rw [abs_sub_comm]
    linarith [abs_sub_abs_le_abs_sub b a]
  have hmax : max |a| |b| ≤ |a| + |a - b| := max_le (by linarith [abs_nonneg (a - b)]) hb
  linarith [abs_nonneg a]

namespace Constraint

theorem isTight_iff : k.isTight .standard p = true ↔
    |k.a * p.x + k.b * p.y - k.c| ≤ k.slackAt p := by
  rw [← standard_slack_magnitudeAt]
  exact Tolerance.holds_eq ..

/-- How far the two sides of a constraint may move between points that count as one. -/
noncomputable def mergeDrift (k : Constraint ℝ) (p : Vec ℝ) : ℝ :=
  2e-9 * (|k.a| * (1 + |p.x|) + |k.b| * (1 + |p.y|))

/-- A constraint that is tight nearby is nearly tight. -/
theorem abs_le_of_isTight_near (hsame : Tolerance.standard.samePoint p q = true)
    (hq : k.isTight .standard q = true) :
    |k.a * p.x + k.b * p.y - k.c| ≤ k.slackAt p + k.mergeDrift p := by
  rw [Tolerance.samePoint, Bool.and_eq_true] at hsame
  have hx := Tolerance.abs_sub_le_of_approxEq hsame.1
  have hy := Tolerance.abs_sub_le_of_approxEq hsame.2
  have hmoveX : |k.a * (p.x - q.x)| ≤ 1.1e-9 * (|k.a| * (1 + |p.x|)) := by
    rw [abs_mul, mul_left_comm]
    exact mul_le_mul_of_nonneg_left hx (abs_nonneg k.a)
  have hmoveY : |k.b * (p.y - q.y)| ≤ 1.1e-9 * (|k.b| * (1 + |p.y|)) := by
    rw [abs_mul, mul_left_comm]
    exact mul_le_mul_of_nonneg_left hy (abs_nonneg k.b)
  -- the slack at `q` is that at `p` up to the same moves
  have hqx : |k.a * q.x| ≤ |k.a * p.x| + |k.a * (p.x - q.x)| := by
    have h := abs_sub (k.a * p.x) (k.a * (p.x - q.x))
    rwa [← mul_sub, sub_sub_cancel] at h
  have hqy : |k.b * q.y| ≤ |k.b * p.y| + |k.b * (p.y - q.y)| := by
    have h := abs_sub (k.b * p.y) (k.b * (p.y - q.y))
    rwa [← mul_sub, sub_sub_cancel] at h
  have hsplit : k.a * p.x + k.b * p.y - k.c =
      (k.a * q.x + k.b * q.y - k.c) + (k.a * (p.x - q.x) + k.b * (p.y - q.y)) := by ring
  have htight := isTight_iff.mp hq
  rw [slackAt] at htight
  rw [hsplit, slackAt, mergeDrift]
  have hsum := abs_add_le (k.a * q.x + k.b * q.y - k.c) (k.a * (p.x - q.x) + k.b * (p.y - q.y))
  have hmove := abs_add_le (k.a * (p.x - q.x)) (k.b * (p.y - q.y))
  have hax : 0 ≤ |k.a| * (1 + |p.x|) := by positivity
  have hby : 0 ≤ |k.b| * (1 + |p.y|) := by positivity
  linarith

end Constraint

/-! ## The tight constraints of a corner -/

/-- **A corner lists what is tight at the crossings merged into it**, each crossing belonging to
the first vertex found that counts as it. What is tight at the corner itself is always listed,
what is listed is nearly tight there, and when no other crossing counts as the corner, what is
listed is exactly what is tight. -/
theorem corners_tight (cs : List (Constraint ℝ)) :
    ∀ v ∈ corners .standard cs,
      (∀ i, i ∈ v.tight ↔ ∃ q, Admitted .standard cs q ∧
        home .standard ((foundVertices .standard cs).map Vertex.position) q = some v.position ∧
        ∃ k, cs[i]? = some k ∧ k.isTight .standard q = true) ∧
      (∀ i k, cs[i]? = some k → k.isTight .standard v.position = true → i ∈ v.tight) ∧
      (∀ i ∈ v.tight, ∃ k, cs[i]? = some k ∧ |k.a * v.x + k.b * v.y - k.c| ≤
        k.slackAt v.position + k.mergeDrift v.position) ∧
      ((∀ q, Admitted .standard cs q → Tolerance.standard.samePoint v.position q = true →
        q = v.position) → ∀ i, i ∈ v.tight ↔
          ∃ k, cs[i]? = some k ∧ k.isTight .standard v.position = true) := by
  have hfound := collected_foundVertices Tolerance.standard_slack_nonneg cs
  intro v hv
  have hv := (corners_perm_found .standard cs).mem_iff.mp hv
  have hown : ∀ i k, cs[i]? = some k → k.isTight .standard v.position = true → i ∈ v.tight := by
    intro i k hk htight
    exact (hfound.tight v hv i).mpr
      ⟨_, hfound.placed v hv, hfound.home_self hv, mem_tightAt.mpr ⟨k, hk, htight⟩⟩
  refine ⟨fun i => ?_, hown, fun i hi => ?_, fun halone i => ⟨fun hi => ?_, ?_⟩⟩
  · rw [hfound.tight v hv]
    simp only [mem_admitted, mem_tightAt]
  · obtain ⟨q, -, hsame, k, hk, htight⟩ := hfound.exists_source hv hi
    exact ⟨k, hk, Constraint.abs_le_of_isTight_near hsame htight⟩
  · obtain ⟨q, hq, hsame, htight⟩ := hfound.exists_source hv hi
    rwa [halone q (mem_admitted.mp hq) hsame] at htight
  · intro ⟨k, hk, htight⟩
    exact hown i k hk htight

/-- The first quadrant. -/
noncomputable def axes : List (Constraint ℝ) := [.xNonnegative, .yNonnegative]

theorem axes_admitted {q : Vec ℝ} (hq : Admitted .standard axes q) : q = ⟨0, 0⟩ := by
  have hcrossings : crossings .standard axes = [⟨0, 0⟩] := by
    simp [crossings, axes, pairs, axes_crossing]
  have hmem := (List.mem_filter.mp (mem_admitted.mpr hq)).1
  rw [hcrossings] at hmem
  exact List.mem_singleton.mp hmem

theorem corners_tight_axes : ∃ v ∈ corners .standard axes, v.position = ⟨0, 0⟩ ∧
    ∀ i, i ∈ v.tight ↔ ∃ k, axes[i]? = some k ∧ k.isTight .standard v.position = true := by
  have hallows : allows .standard axes (⟨0, 0⟩ : Vec ℝ) = true := by
    simp only [axes, allows, List.all_cons, List.all_nil, Bool.and_true, Bool.and_eq_true,
      Constraint.isSatisfied_iff_within]
    norm_num [Constraint.Within, Relation.HoldsWithin, Constraint.slackAt,
      Constraint.xNonnegative, Constraint.yNonnegative]
  obtain ⟨v, hv, hposition⟩ := exists_corner_of_crossing axes_crossing hallows
  obtain ⟨-, -, -, hexact⟩ := corners_tight axes v hv
  exact ⟨v, hv, hposition, hexact fun q hq _ => (axes_admitted hq).trans hposition.symm⟩

/-! ## A corner with more than is tight there -/

theorem sliver_corners : (corners .standard sliver).Perm
    [(vertexAt .standard sliver ⟨0, 0⟩).merge (tightAt .standard sliver ⟨5e-10, 0⟩)] := by
  have hsame : Tolerance.standard.samePoint (⟨0, 0⟩ : Vec ℝ) ⟨5e-10, 0⟩ = true := by
    rw [Tolerance.samePoint, Bool.and_eq_true, Tolerance.standard_approxEq,
      Tolerance.standard_approxEq]
    norm_num
  have hmerged : absorb .standard (vertexAt .standard sliver ⟨5e-10, 0⟩)
      [vertexAt .standard sliver ⟨0, 0⟩] =
      [(vertexAt .standard sliver ⟨0, 0⟩).merge (tightAt .standard sliver ⟨5e-10, 0⟩)] := by
    rw [absorb, vertexAt_position, vertexAt_position, if_pos hsame]
    rfl
  have hfold : [(⟨0, 0⟩ : Vec ℝ), ⟨5e-10, 0⟩].foldl
      (fun vs p => absorb .standard (vertexAt .standard sliver p) vs) [] =
      [(vertexAt .standard sliver ⟨0, 0⟩).merge (tightAt .standard sliver ⟨5e-10, 0⟩)] := hmerged
  rw [corners, sliver_admitted, hfold]
  exact counterClockwise_perm _

/-- The corner of the sliver lists the right side, which is tight at the other end only. -/
theorem sliver_tight : ∃ v ∈ corners .standard sliver, ∃ k, sliver[2]? = some k ∧
    2 ∈ v.tight ∧ k.isTight .standard v.position = false := by
  refine ⟨_, sliver_corners.mem_iff.mpr List.mem_cons_self, _, rfl, ?_, ?_⟩
  · refine mem_unionIndices.mpr (.inr (mem_tightAt.mpr ⟨_, rfl, ?_⟩))
    rw [Constraint.isTight_iff]
    norm_num [Constraint.slackAt]
  · have hposition : ((vertexAt .standard sliver ⟨0, 0⟩).merge
        (tightAt .standard sliver ⟨5e-10, 0⟩)).position = (⟨0, 0⟩ : Vec ℝ) :=
      vertexAt_position .standard sliver ⟨0, 0⟩
    rw [hposition, Bool.eq_false_iff, ne_eq, Constraint.isTight_iff]
    norm_num [Constraint.slackAt]

end PlanarLP
