import PlanarLP.Proofs.Corners

/-! When a region counts as feasible, for any tolerance and any arithmetic. Vertices and sample
points are collected by loops that never lose all they have, so a region is feasible exactly
when one of the points that the solver tries is allowed (`isFeasible_regionOf`). This is also
how a few constraints are tested for a conflict, so the two always agree. -/

namespace PlanarLP

/-- A loop that always keeps something leaves nothing only where it has met nothing. -/
theorem foldl_eq_nil {β γ : Type} {step : List β → γ → List β} (hstep : ∀ kept x, step kept x ≠ [])
    (xs : List γ) : xs.foldl step [] = [] ↔ xs = [] := by
  have hkeep : ∀ (xs : List γ) (kept : List β), kept ≠ [] → xs.foldl step kept ≠ [] := by
    intro xs
    induction xs with
    | nil => exact fun _ hkept => hkept
    | cons x xs ih => exact fun kept _ => ih _ (hstep kept x)
  cases xs with
  | nil => exact iff_of_true rfl rfl
  | cons x xs => exact iff_of_false (hkeep xs _ (hstep [] x)) (List.cons_ne_nil x xs)

theorem perm_eq_nil {β : Type} {xs ys : List β} (h : xs.Perm ys) : xs = [] ↔ ys = [] :=
  ⟨fun hx => (hx ▸ h).nil_eq.symm, fun hy => (hy ▸ h).eq_nil⟩

variable {α : Type} [Scalar α]

theorem absorb_ne_nil (tol : Tolerance α) (new : Vertex α) (vs : List (Vertex α)) :
    absorb tol new vs ≠ [] := by
  cases vs with
  | nil => exact List.cons_ne_nil _ _
  | cons v vs =>
    unfold absorb
    split <;> exact List.cons_ne_nil _ _

/-- A list keeps a member when one is added or is found in it already. -/
theorem keepNew_ne_nil {β : Type} (kept : List β) (x : β) (seen : β → Bool) :
    (if kept.any seen then kept else kept ++ [x]) ≠ [] := by
  split
  · rintro rfl
    contradiction
  · exact List.append_ne_nil_of_right_ne_nil _ (List.cons_ne_nil x [])

theorem distinctPoints_eq_nil (tol : Tolerance α) (ps : List (Vec α)) :
    distinctPoints tol ps = [] ↔ ps = [] :=
  foldl_eq_nil (fun kept p => keepNew_ne_nil kept p (tol.samePoint · p)) ps

theorem samplePoints_eq_nil (tol : Tolerance α) (cs : List (Constraint α)) :
    samplePoints tol cs = [] ↔ ∀ p ∈ probes cs, allows tol cs p = false := by
  refine (foldl_eq_nil (fun ws p => keepNew_ne_nil ws (vertexAt tol cs p)
    fun w : Vertex α => tol.samePoint w.position p) _).trans ?_
  simp only [List.filter_eq_nil_iff, Bool.not_eq_true]

theorem corners_eq_nil (tol : Tolerance α) (cs : List (Constraint α)) :
    corners tol cs = [] ↔ ∀ p ∈ crossings tol cs, allows tol cs p = false := by
  unfold corners
  rw [perm_eq_nil (counterClockwise_perm _),
    foldl_eq_nil fun vs p => absorb_ne_nil tol (vertexAt tol cs p) vs]
  simp only [List.filter_eq_nil_iff, Bool.not_eq_true]

/-- No direction is listed when there are normals and no candidate recedes from all of them. -/
theorem recessionRays_eq_nil (tol : Tolerance α) (cs : List (Constraint α)) :
    recessionRays tol cs = [] ↔ cs.flatMap Constraint.outwardNormals ≠ [] ∧
      ∀ d ∈ rayCandidates (cs.flatMap Constraint.outwardNormals),
        recedes tol (cs.flatMap Constraint.outwardNormals) d = false := by
  unfold recessionRays
  dsimp only
  split
  · rename_i hnone
    exact iff_of_false (List.cons_ne_nil _ _) fun h => h.1 (List.isEmpty_iff.mp hnone)
  · rename_i hsome
    rw [perm_eq_nil (List.mergeSort_perm _ _), distinctPoints_eq_nil, List.filter_eq_nil_iff]
    simp only [Bool.not_eq_true]
    exact (and_iff_right (mt List.isEmpty_iff.mpr hsome)).symm

/-- The points by which the solver decides whether some constraints leave anything. -/
def tried (tol : Tolerance α) (cs : List (Constraint α)) : List (Vec α) :=
  probes cs ++ crossings tol cs

theorem jointlyFeasible_eq_false {tol : Tolerance α} {cs : List (Constraint α)} :
    jointlyFeasible tol cs = false ↔ ∀ p ∈ tried tol cs, allows tol cs p = false := by
  unfold jointlyFeasible tried
  simp only [List.any_eq_false, Bool.not_eq_true]

/-- A point that is tried and satisfies everything decides. -/
theorem jointlyFeasible_of_tried {tol : Tolerance α} {cs : List (Constraint α)} {p : Vec α}
    (hp : p ∈ tried tol cs) (hall : ∀ k ∈ cs, k.isSatisfied tol p = true) :
    jointlyFeasible tol cs = true :=
  List.any_eq_true.mpr ⟨p, hp, List.all_eq_true.mpr hall⟩

/-- Fewer constraints are tried at fewer points. -/
theorem tried_subset {tol : Tolerance α} {ks cs : List (Constraint α)} (h : ks.Sublist cs) :
    tried tol ks ⊆ tried tol cs := by
  intro p hp
  simp only [tried, probes, crossings, List.mem_append, List.mem_cons, List.mem_map,
    List.mem_filterMap] at hp ⊢
  refine hp.imp (Or.imp_right ?_) ?_
  · rintro ⟨k, hk, rfl⟩
    exact ⟨k, h.subset hk, rfl⟩
  · rintro ⟨⟨k, l⟩, hkl, hp⟩
    exact ⟨(k, l), mem_pairs.mpr ((mem_pairs.mp hkl).trans h), hp⟩

/-- The three kinds of region by what is found on the way. -/
theorem regionOf_kind (tol : Tolerance α) (cs : List (Constraint α)) :
    (corners tol cs ≠ [] ∧ regionOf tol cs = .cornered (corners tol cs) (recessionRays tol cs)) ∨
    (corners tol cs = [] ∧ samplePoints tol cs ≠ [] ∧
      regionOf tol cs = .cornerless (samplePoints tol cs) (recessionRays tol cs)) ∨
    (corners tol cs = [] ∧ samplePoints tol cs = [] ∧
      regionOf tol cs = .infeasible (smallestConflicts tol cs)) := by
  unfold regionOf
  cases hc : corners tol cs with
  | cons v vs => exact .inl ⟨List.cons_ne_nil v vs, rfl⟩
  | nil =>
    cases hs : samplePoints tol cs with
    | cons w ws => exact .inr (.inl ⟨rfl, List.cons_ne_nil w ws, rfl⟩)
    | nil => exact .inr (.inr ⟨rfl, rfl, rfl⟩)

omit [Scalar α] in
theorem isFeasible_cornered {vs : List (Vertex α)} (ds : List (Vec α)) :
    (Region.cornered vs ds).isFeasible = true := by
  cases ds <;> rfl

/-- **A region is feasible when its constraints are jointly so**, whatever the arithmetic. -/
theorem isFeasible_regionOf (tol : Tolerance α) (cs : List (Constraint α)) :
    (regionOf tol cs).isFeasible = jointlyFeasible tol cs := by
  have hnone : jointlyFeasible tol cs = false ↔
      samplePoints tol cs = [] ∧ corners tol cs = [] := by
    rw [jointlyFeasible_eq_false, samplePoints_eq_nil, corners_eq_nil, tried,
      List.forall_mem_append]
  have hsome : ¬(samplePoints tol cs = [] ∧ corners tol cs = []) → jointlyFeasible tol cs = true :=
    fun h => Bool.eq_true_of_not_eq_false (mt hnone.mp h)
  rcases regionOf_kind tol cs with ⟨hc, hr⟩ | ⟨-, hs, hr⟩ | ⟨hc, hs, hr⟩ <;> rw [hr]
  · exact (isFeasible_cornered _).trans (hsome fun h => hc h.2).symm
  · exact (hsome fun h => hs h.1).symm
  · exact (hnone.mpr ⟨hs, hc⟩).symm

/-- Constraints that are not jointly feasible leave their smallest conflicts. -/
theorem regionOf_eq_infeasible {tol : Tolerance α} {cs : List (Constraint α)}
    {found : List Conflict} : regionOf tol cs = .infeasible found ↔
      jointlyFeasible tol cs = false ∧ found = smallestConflicts tol cs := by
  rw [← isFeasible_regionOf]
  rcases regionOf_kind tol cs with ⟨-, hr⟩ | ⟨-, -, hr⟩ | ⟨-, -, hr⟩ <;> rw [hr]
  · rw [isFeasible_cornered]
    exact iff_of_false nofun nofun
  · exact iff_of_false nofun nofun
  · rw [Region.infeasible.injEq]
    exact ⟨fun h => ⟨rfl, h.symm⟩, fun h => h.2.symm⟩

/-- Without default bounds a set has the given constraints only. -/
@[simp] theorem ConstraintSet.constraints_of_false (given : List (Constraint α)) :
    (ConstraintSet.of given false).constraints = given := List.append_nil given

/-- A set within the limit is always given its region, and no other set is given one. -/
theorem Solver.solve_eq_ok {tol : Tolerance α} {limit : Nat} {set : ConstraintSet α}
    {r : Region α} : (⟨tol, limit⟩ : Solver α).solve set = .ok r ↔
      set.explicit.length ≤ limit ∧ r = regionOf tol set.constraints := by
  unfold Solver.solve Solver.checkSize
  split
  · rename_i hmany
    refine iff_of_false ?_ fun h => absurd h.1 (Nat.not_le.mpr hmany)
    intro h
    cases h
  · rename_i hfew
    refine ⟨fun h => ⟨Nat.not_lt.mp hfew, ?_⟩, fun h => h.2 ▸ rfl⟩
    cases h
    rfl

end PlanarLP
