import PlanarLP.Proofs.Corners

/-! Angles in exact arithmetic. The cross product of two vectors is the sine of the turn from
one to the other, scaled by their lengths, so the order by angle around a point decides on which
side of each other the sorted points lie. -/

namespace PlanarLP

open Real

namespace Vec

theorem norm_eq (v : Vec ℝ) : v.norm = ‖(⟨v.x, v.y⟩ : ℂ)‖ := by
  rw [Complex.norm_def, Complex.normSq_mk]
  rfl

theorem norm_mul_cos_angle (v : Vec ℝ) : v.norm * cos v.angle = v.x := by
  rw [norm_eq]
  exact Complex.norm_mul_cos_arg _

theorem norm_mul_sin_angle (v : Vec ℝ) : v.norm * sin v.angle = v.y := by
  rw [norm_eq]
  exact Complex.norm_mul_sin_arg _

theorem angle_bounds (v : Vec ℝ) : -π < v.angle ∧ v.angle ≤ π :=
  ⟨Complex.neg_pi_lt_arg _, Complex.arg_le_pi _⟩

/-- Vectors with one angle lie on one ray. -/
theorem eq_smul_of_angle_eq {u v : Vec ℝ} (hu : u ≠ 0) (h : u.angle = v.angle) :
    v = (v.norm / u.norm) • u := by
  have hn := (norm_pos hu).ne'
  ext
  · rw [smul_x, ← norm_mul_cos_angle u, ← norm_mul_cos_angle v, h, ← mul_assoc,
      div_mul_cancel₀ _ hn]
  · rw [smul_y, ← norm_mul_sin_angle u, ← norm_mul_sin_angle v, h, ← mul_assoc,
      div_mul_cancel₀ _ hn]

theorem cross_eq_sin (u v : Vec ℝ) :
    u.cross v = u.norm * v.norm * sin (v.angle - u.angle) := by
  rw [cross_eq, ← norm_mul_cos_angle u, ← norm_mul_sin_angle u, ← norm_mul_cos_angle v,
    ← norm_mul_sin_angle v, sin_sub]
  ring

/-- The angle from `u` to `v` counter-clockwise, less than a full turn. -/
noncomputable def turn (u v : Vec ℝ) : ℝ :=
  if u.angle ≤ v.angle then v.angle - u.angle else v.angle - u.angle + 2 * π

variable {u v w : Vec ℝ}

theorem turn_nonneg (u v : Vec ℝ) : 0 ≤ u.turn v := by
  unfold turn
  split
  · linarith
  · linarith [u.angle_bounds, v.angle_bounds]

theorem turn_lt (u v : Vec ℝ) : u.turn v < 2 * π := by
  unfold turn
  split
  · linarith [u.angle_bounds, v.angle_bounds]
  · linarith

theorem angle_eq_of_turn_eq (h : u.turn v = u.turn w) : v.angle = w.angle := by
  have hv := v.angle_bounds
  have hw := w.angle_bounds
  unfold turn at h
  split at h <;> split at h <;> linarith

/-- The sine of a turn and that of the difference of angles agree. -/
theorem sin_turn_sub (u v w : Vec ℝ) : sin (u.turn w - u.turn v) = sin (w.angle - v.angle) := by
  unfold turn
  split <;> split
  · rw [sub_sub_sub_cancel_right]
  · rw [← sin_add_two_pi (w.angle - u.angle - _)]
    congr 1; ring
  · rw [← sin_sub_two_pi (w.angle - u.angle + 2 * π - _)]
    congr 1; ring
  · congr 1; ring

theorem turn_self (u : Vec ℝ) : u.turn u = 0 := by
  rw [turn, if_pos le_rfl, sub_self]

theorem cross_eq_sin_turn (u v w : Vec ℝ) :
    v.cross w = v.norm * w.norm * sin (u.turn w - u.turn v) := by
  rw [sin_turn_sub, cross_eq_sin]

theorem cross_eq_turn (u v : Vec ℝ) : u.cross v = u.norm * v.norm * sin (u.turn v) := by
  rw [cross_eq_sin_turn u, turn_self, sub_zero]

/-- A turn whose sine is not negative is at most a half turn. -/
theorem turn_le_pi (hs : 0 ≤ sin (u.turn v)) : u.turn v ≤ π := by
  by_contra hgt
  push Not at hgt
  have hpos := sin_pos_of_pos_of_lt_pi (sub_pos.mpr hgt) (by linarith [turn_lt u v])
  rw [sin_sub_pi] at hpos
  linarith

end Vec

/-! ## The order around a point -/

theorem cmp_isLE {a b : ℝ} : (cmp a b).isLE = true ↔ a ≤ b := by
  rw [Ordering.isLE_iff_ne_gt, cmp_eq_gt_iff, not_lt]

theorem orderAround_isLE {c : Vec ℝ} {v w : Vertex ℝ} : (orderAround c v w).isLE = true ↔
    (v.position - c).angle < (w.position - c).angle ∨
      (v.position - c).angle = (w.position - c).angle ∧
        (v.position - c).normSq ≤ (w.position - c).normSq := by
  have h : orderAround c v w = (cmp (v.position - c).angle (w.position - c).angle).then
    (cmp (v.position - c).normSq (w.position - c).normSq) := rfl
  rw [h, Ordering.isLE_then_iff_or, cmp_eq_lt_iff, cmp_eq_eq_iff, cmp_isLE]

theorem orderAround_trans {c : Vec ℝ} {v w x : Vertex ℝ} (hvw : (orderAround c v w).isLE = true)
    (hwx : (orderAround c w x).isLE = true) : (orderAround c v x).isLE = true := by
  rw [orderAround_isLE] at hvw hwx ⊢
  rcases hvw with hvw | ⟨hvw, hvw'⟩ <;> rcases hwx with hwx | ⟨hwx, hwx'⟩
  · exact .inl (hvw.trans hwx)
  · exact .inl (hwx ▸ hvw)
  · exact .inl (hvw ▸ hwx)
  · exact .inr ⟨hvw.trans hwx, hvw'.trans hwx'⟩

theorem orderAround_total (c : Vec ℝ) (v w : Vertex ℝ) :
    ((orderAround c v w).isLE || (orderAround c w v).isLE) = true := by
  rw [Bool.or_eq_true, orderAround_isLE, orderAround_isLE]
  rcases lt_trichotomy (v.position - c).angle (w.position - c).angle with h | h | h
  · exact .inl (.inl h)
  · exact (le_total _ _).imp (fun hn => .inr ⟨h, hn⟩) fun hn => .inr ⟨h.symm, hn⟩
  · exact .inr (.inl h)

/-- The corners come in order of the angle about their centroid. -/
theorem counterClockwise_sorted (vs : List (Vertex ℝ)) :
    ((counterClockwise vs).map Vertex.position).Pairwise
      fun p q => (p - centroid vs).angle ≤ (q - centroid vs).angle := by
  rw [List.pairwise_map, counterClockwise]
  have hsort : (vs.mergeSort fun v w => (orderAround (centroid vs) v w).isLE).Pairwise
      fun v w => (orderAround (centroid vs) v w).isLE := by
    apply List.pairwise_mergeSort
    · exact fun v w x => orderAround_trans
    · exact orderAround_total (centroid vs)
  refine hsort.imp fun {v w} h => ?_
  rcases orderAround_isLE.mp h with hlt | ⟨heq, -⟩
  · exact hlt.le
  · exact heq.le

/-- The centroid is the mean of the positions. -/
theorem sum_positions {vs : List (Vertex ℝ)} (hvs : vs ≠ []) :
    (vs.map Vertex.position).sum = (vs.length : ℝ) • centroid vs := by
  have hfold : ∀ (vs : List (Vertex ℝ)) (s : Vec ℝ),
      vs.foldl (fun sum v => sum + v.position) s = s + (vs.map Vertex.position).sum := by
    intro vs
    induction vs with
    | nil => intro s; rw [List.foldl_nil, List.map_nil, List.sum_nil, add_zero]
    | cons v vs ih => intro s; rw [List.foldl_cons, ih, List.map_cons, List.sum_cons, add_assoc]
  have hlen : (vs.length : ℝ) ≠ 0 := Nat.cast_ne_zero.mpr (List.length_pos_iff.mpr hvs).ne'
  have hcentroid : centroid vs = (vs.length : ℝ)⁻¹ • (0 + (vs.map Vertex.position).sum) := by
    rw [← hfold]
    exact Vec.divide_eq _ _
  rw [hcentroid, zero_add, smul_smul, mul_inv_cancel₀ hlen, one_smul]

end PlanarLP
