import PlanarLP.Proofs.FeasibleSet
import PlanarLP.Region

/-! Collecting vertices in exact arithmetic. Corners, sample points and open directions are all
gathered by one loop that keeps the first of several equal points; here it is shown to list
each point once (`mem_distinctPoints`, `nodup_distinctPoints`), and the vertices made on the
way are those of the kept points (`foldl_absorb`). -/

namespace PlanarLP

/-! ## Tight constraints -/

theorem insertIndex_of_mem {i : Nat} {js : List Nat} (hj : js.Pairwise (· < ·)) (hi : i ∈ js) :
    insertIndex i js = js := by
  induction js with
  | nil => cases hi
  | cons j js ih =>
    obtain ⟨hlt, hjs⟩ := List.pairwise_cons.mp hj
    unfold insertIndex
    rcases List.mem_cons.mp hi with rfl | hmem
    · rw [if_neg (Nat.lt_irrefl _), if_pos rfl]
    · have hji := hlt i hmem
      rw [if_neg (by omega), if_neg (by omega), ih hjs hmem]

theorem unionIndices_of_subset {is js : List Nat} (hj : js.Pairwise (· < ·))
    (hs : ∀ i ∈ is, i ∈ js) : unionIndices is js = js := by
  induction is with
  | nil => rfl
  | cons i is ih =>
    have hrest := ih fun k hk => hs k (List.mem_cons_of_mem i hk)
    have hstep : unionIndices (i :: is) js = insertIndex i (unionIndices is js) := rfl
    rw [hstep, hrest]
    exact insertIndex_of_mem hj (hs i List.mem_cons_self)

section AnyScalar

variable {α : Type} [Scalar α]

theorem mem_tightAt {tol : Tolerance α} {cs : List (Constraint α)} {p : Vec α} {i : Nat} :
    i ∈ tightAt tol cs p ↔ ∃ k, cs[i]? = some k ∧ k.isTight tol p = true := by
  unfold tightAt
  constructor
  · intro hi
    obtain ⟨⟨k, j⟩, hk, rfl⟩ := List.mem_map.mp hi
    obtain ⟨hz, ht⟩ := List.mem_filter.mp hk
    exact ⟨k, List.mem_zipIdx_iff_getElem?.mp hz, ht⟩
  · rintro ⟨k, hk, ht⟩
    exact List.mem_map.mpr ⟨(k, i),
      List.mem_filter.mpr ⟨List.mem_zipIdx_iff_getElem?.mpr hk, ht⟩, rfl⟩

theorem tightAt_ascending (tol : Tolerance α) (cs : List (Constraint α)) (p : Vec α) :
    (tightAt tol cs p).Pairwise (· < ·) := by
  have hidx : (cs.zipIdx.map Prod.snd).Pairwise (· < ·) := by
    rw [List.zipIdx_map_snd]
    exact List.pairwise_lt_range'
  exact hidx.sublist (List.filter_sublist.map Prod.snd)

end AnyScalar

/-! ## Points kept once -/

section Keep

variable {tol : Tolerance ℝ} {ps kept : List (Vec ℝ)} {d : Vec ℝ}

/-- One round of the loop that keeps the first of several equal points. -/
noncomputable def keep (tol : Tolerance ℝ) (kept : List (Vec ℝ)) (p : Vec ℝ) : List (Vec ℝ) :=
  if kept.any (tol.samePoint · p) then kept else kept ++ [p]

theorem distinctPoints_eq (tol : Tolerance ℝ) (ps : List (Vec ℝ)) :
    distinctPoints tol ps = ps.foldl (keep tol) [] := rfl

theorem nodup_foldl_keep (hself : ∀ p, tol.samePoint p p = true) (hkept : kept.Nodup)
    (ps : List (Vec ℝ)) : (ps.foldl (keep tol) kept).Nodup := by
  induction ps generalizing kept with
  | nil => exact hkept
  | cons p ps ih =>
    refine ih ?_
    unfold keep
    split
    · exact hkept
    · rename_i hnew
      refine List.nodup_append.mpr ⟨hkept, List.nodup_singleton p, ?_⟩
      intro x hx y hy hxy
      obtain rfl := List.mem_singleton.mp hy
      exact hnew (List.any_eq_true.mpr ⟨x, hx, hxy ▸ hself x⟩)

theorem foldl_keep_subset (ps kept : List (Vec ℝ)) :
    ∀ d ∈ ps.foldl (keep tol) kept, d ∈ kept ∨ d ∈ ps := by
  induction ps generalizing kept with
  | nil => exact fun d hd => .inl hd
  | cons p ps ih =>
    intro d hd
    rcases ih _ d hd with hd | hd
    · unfold keep at hd
      split at hd
      · exact .inl hd
      · refine (List.mem_append.mp hd).imp_right fun h => ?_
        rw [List.mem_singleton.mp h]
        exact List.mem_cons_self
    · exact .inr (List.mem_cons_of_mem p hd)

/-- Points that are told apart from each other are kept when none like them was there before. -/
theorem mem_foldl_keep (hps : ∀ p ∈ ps, ∀ q ∈ ps, tol.samePoint p q = true → p = q) :
    d ∈ ps.foldl (keep tol) kept ↔
      d ∈ kept ∨ d ∈ ps ∧ ∀ p ∈ kept, tol.samePoint p d = false := by
  induction ps generalizing kept with
  | nil => simp
  | cons p ps ih =>
    have hpd : d ∈ ps → tol.samePoint p d = true → p = d := fun hd =>
      hps p List.mem_cons_self d (List.mem_cons_of_mem p hd)
    rw [List.foldl_cons, ih fun q hq r hr =>
      hps q (List.mem_cons_of_mem p hq) r (List.mem_cons_of_mem p hr), List.mem_cons, keep]
    by_cases hseen : kept.any (tol.samePoint · p) = true
    · rw [if_pos hseen]
      obtain ⟨q, hq, hqp⟩ := List.any_eq_true.mp hseen
      refine or_congr_right (and_congr_left fun hfresh => ⟨.inr, ?_⟩)
      rintro (rfl | hd)
      · exact absurd hqp (Bool.eq_false_iff.mp (hfresh q hq))
      · exact hd
    · rw [if_neg hseen]
      rw [List.any_eq_true, not_exists] at hseen
      have hfresh : ∀ q ∈ kept, tol.samePoint q p = false := fun q hq =>
        Bool.eq_false_iff.mpr fun h => hseen q ⟨hq, h⟩
      simp only [List.mem_append, List.mem_singleton]
      constructor
      · rintro ((hd | rfl) | ⟨hd, hfar⟩)
        · exact .inl hd
        · exact .inr ⟨.inl rfl, hfresh⟩
        · exact .inr ⟨.inr hd, fun q hq => hfar q (.inl hq)⟩
      · rintro (hd | ⟨rfl | hd, hfar⟩)
        · exact .inl (.inl hd)
        · exact .inl (.inr rfl)
        · by_cases he : p = d
          · exact .inl (.inr he.symm)
          · refine .inr ⟨hd, ?_⟩
            rintro q (hq | rfl)
            · exact hfar q hq
            · exact Bool.eq_false_iff.mpr fun h => he (hpd hd h)

end Keep

theorem mem_distinctPoints {ps : List (Vec ℝ)} {q : Vec ℝ} :
    q ∈ distinctPoints .exact ps ↔ q ∈ ps := by
  rw [distinctPoints_eq, mem_foldl_keep fun _ _ _ _ => Tolerance.exact_samePoint.mp]
  simp

theorem nodup_distinctPoints (ps : List (Vec ℝ)) : (distinctPoints .exact ps).Nodup :=
  nodup_foldl_keep (fun _ => Tolerance.exact_samePoint.mpr rfl) List.nodup_nil ps

/-! ## Vertices of the kept points -/

variable {cs : List (Constraint ℝ)} {p : Vec ℝ}

@[simp] theorem vertexAt_position (tol : Tolerance ℝ) (cs : List (Constraint ℝ)) (p : Vec ℝ) :
    (vertexAt tol cs p).position = p := Vec.ext (add_zero p.x) (add_zero p.y)

theorem map_vertexAt_position (tol : Tolerance ℝ) (cs : List (Constraint ℝ))
    (ps : List (Vec ℝ)) : (ps.map (vertexAt tol cs)).map Vertex.position = ps := by
  rw [List.map_map]
  exact (List.map_congr_left fun p _ => vertexAt_position tol cs p).trans (List.map_id ps)

theorem vertexAt_merge_self (tol : Tolerance ℝ) (cs : List (Constraint ℝ)) (p : Vec ℝ) :
    (vertexAt tol cs p).merge (vertexAt tol cs p).tight = vertexAt tol cs p := by
  have h : unionIndices (tightAt tol cs p) (tightAt tol cs p) = tightAt tol cs p :=
    unionIndices_of_subset (tightAt_ascending tol cs p) fun _ hi => hi
  simp only [Vertex.merge, vertexAt, Vertex.atPoint, h]

private theorem absorb_vertexAt (kept : List (Vec ℝ)) (p : Vec ℝ) :
    absorb .exact (vertexAt .exact cs p) (kept.map (vertexAt .exact cs)) =
      (keep .exact kept p).map (vertexAt .exact cs) := by
  unfold keep
  induction kept with
  | nil => rfl
  | cons q kept ih =>
    rw [List.map_cons, absorb, vertexAt_position, vertexAt_position, List.any_cons]
    by_cases hq : Tolerance.exact.samePoint q p = true
    · obtain rfl := Tolerance.exact_samePoint.mp hq
      rw [if_pos hq, hq, Bool.true_or, if_pos rfl, vertexAt_merge_self, List.map_cons]
    · rw [if_neg hq, ih, Bool.eq_false_iff.mpr hq, Bool.false_or]
      split <;> simp

/-- Absorbing a vertex for each point leaves the vertices of the distinct points. -/
theorem foldl_absorb (cs : List (Constraint ℝ)) (ps : List (Vec ℝ)) :
    ps.foldl (fun vs p => absorb .exact (vertexAt .exact cs p) vs) [] =
      (distinctPoints .exact ps).map (vertexAt .exact cs) := by
  have hfold : ∀ (ps kept : List (Vec ℝ)),
      ps.foldl (fun vs p => absorb .exact (vertexAt .exact cs p) vs)
        (kept.map (vertexAt .exact cs)) =
      (ps.foldl (keep .exact) kept).map (vertexAt .exact cs) := by
    intro ps
    induction ps with
    | nil => exact fun _ => rfl
    | cons p ps ih => intro kept; rw [List.foldl_cons, absorb_vertexAt, ih, List.foldl_cons]
  exact hfold ps []

theorem samplePoints_eq (tol : Tolerance ℝ) (cs : List (Constraint ℝ)) : samplePoints tol cs =
    (distinctPoints tol ((probes cs).filter (allows tol cs))).map (vertexAt tol cs) := by
  have hfold : ∀ (ps kept : List (Vec ℝ)),
      ps.foldl (fun ws p => if ws.any fun w => tol.samePoint w.position p then ws
          else ws ++ [vertexAt tol cs p]) (kept.map (vertexAt tol cs)) =
        (ps.foldl (keep tol) kept).map (vertexAt tol cs) := by
    intro ps
    induction ps with
    | nil => exact fun _ => rfl
    | cons p ps ih =>
      intro kept
      rw [List.foldl_cons, List.foldl_cons, ← ih, keep, List.any_map]
      simp only [Function.comp_def, vertexAt_position]
      split <;> simp
  exact hfold _ []

end PlanarLP
