import Mathlib.Analysis.Convex.Radon
import Mathlib.LinearAlgebra.Dimension.Constructions
import PlanarLP.Proofs.Admitted
import PlanarLP.Proofs.Choices
import PlanarLP.Proofs.Verdict

/-! Why a list of constraints leaves no point, in exact arithmetic. Two constraints are opposed
exactly when they have no common point, and the probes of three decide whether those have one.
In the plane that is enough: by Helly's theorem an empty intersection of convex sets contains an
empty one of three. So the conflicts of an infeasible set are there, are all of the smallest
ones, and are minimal (`solve_conflicts_minimal`). -/

namespace PlanarLP

variable {cs : List (Constraint ℝ)}

/-! ## Intervals -/

namespace Interval

/-- `t` lies between the ends. -/
def Contains (i : Interval ℝ) (t : ℝ) : Prop :=
  (∀ lo ∈ i.lower, lo ≤ t) ∧ ∀ hi ∈ i.upper, t ≤ hi

theorem contains_intersect {i j : Interval ℝ} {t : ℝ} :
    (i.intersect j).Contains t ↔ i.Contains t ∧ j.Contains t := by
  have hlower : (∀ lo ∈ (i.intersect j).lower, lo ≤ t) ↔
      (∀ lo ∈ i.lower, lo ≤ t) ∧ ∀ lo ∈ j.lower, lo ≤ t := by
    have hmax : ∀ a b : ℝ, Scalar.max a b ≤ t ↔ a ≤ t ∧ b ≤ t := fun a b => max_le_iff
    cases hi : i.lower <;> cases hj : j.lower <;> simp [intersect, hi, hj, hmax]
  have hupper : (∀ hi ∈ (i.intersect j).upper, t ≤ hi) ↔
      (∀ hi ∈ i.upper, t ≤ hi) ∧ ∀ hi ∈ j.upper, t ≤ hi := by
    have hmin : ∀ a b : ℝ, t ≤ Scalar.min a b ↔ t ≤ a ∧ t ≤ b := fun a b => le_min_iff
    cases hi : i.upper <;> cases hj : j.upper <;> simp [intersect, hi, hj, hmin]
  rw [Contains, hlower, hupper]
  exact and_and_and_comm

theorem exact_isEmpty {i : Interval ℝ} : i.isEmpty .exact = true ↔ ¬∃ t, i.Contains t := by
  obtain ⟨lower, upper⟩ := i
  cases lower with
  | none =>
    refine iff_of_false nofun (not_not.mpr ?_)
    cases upper with
    | none => exact ⟨0, nofun, nofun⟩
    | some hi => exact ⟨hi, nofun, by simp⟩
  | some lo =>
    cases upper with
    | none => exact iff_of_false nofun (not_not.mpr ⟨lo, by simp, nofun⟩)
    | some hi =>
      have hle : isEmpty .exact ⟨some lo, some hi⟩ = true ↔ ¬lo ≤ hi := by
        rw [isEmpty, Bool.not_eq_true', ← Bool.not_eq_true, Tolerance.exact_holds]
        rfl
      rw [hle]
      refine not_congr ⟨fun h => ⟨lo, by simp [Contains, h]⟩, ?_⟩
      rintro ⟨t, hlo, hhi⟩
      exact (hlo lo rfl).trans (hhi hi rfl)

end Interval

/-! ## Opposed constraints -/

namespace Vec

theorem norm_smul_normalize {v : Vec ℝ} (hv : v ≠ 0) : v.norm • v.normalize = v := by
  rw [normalize_eq, smul_smul, mul_inv_cancel₀ (norm_pos hv).ne', one_smul]

theorem cross_normalize (u v : Vec ℝ) :
    u.normalize.cross v.normalize = u.norm⁻¹ * v.norm⁻¹ * u.cross v := by
  rw [normalize_eq, normalize_eq]
  simp only [cross_eq, smul_x, smul_y]
  ring

/-- Vectors are parallel when their unit vectors are. -/
theorem cross_normalize_eq_zero {u v : Vec ℝ} (hu : u ≠ 0) (hv : v ≠ 0) :
    u.normalize.cross v.normalize = 0 ↔ u.cross v = 0 := by
  rw [cross_normalize, mul_eq_zero, or_iff_right]
  exact mul_ne_zero (inv_ne_zero (norm_pos hu).ne') (inv_ne_zero (norm_pos hv).ne')

end Vec

/-- Division by a negative number turns a relation round. -/
theorem Relation.holds_mul_left {r : Relation} {t x c : ℝ} (ht : t ≠ 0) :
    r.Holds (t * x) c ↔ (if t < 0 then r.flip else r).Holds x (c / t) := by
  rw [mul_comm]
  split
  · rename_i hneg
    cases r with
    | le => exact (div_le_iff_of_neg hneg).symm
    | ge => exact (le_div_iff_of_neg hneg).symm
    | eq => exact (eq_div_iff ht).symm
  · rename_i hnonneg
    have hpos : 0 < t := lt_of_le_of_ne (not_lt.mp hnonneg) ht.symm
    cases r with
    | le => exact (le_div_iff₀ hpos).symm
    | ge => exact (div_le_iff₀ hpos).symm
    | eq => exact (eq_div_iff ht).symm

namespace Constraint

variable {k l : Constraint ℝ} {p u : Vec ℝ}

theorem OnBoundary.allows (h : k.OnBoundary p) : k.Allows p := by
  unfold Allows
  cases k.relation with
  | le => exact h.le
  | ge => exact h.ge
  | eq => exact h

/-- Along a vector that its normal is a multiple of, a constraint is its interval. -/
theorem contains_intervalAlong {t : ℝ} (ht : t ≠ 0) (hn : k.normal = t • u) (hu : u.dot u = 1) :
    (k.intervalAlong u).Contains (u.dot p) ↔ k.Allows p := by
  have hfactor : k.normal.dot u = t := by rw [hn, Vec.smul_dot, hu, mul_one]
  have hlhs : k.a * p.x + k.b * p.y = t * u.dot p := by
    rw [← Vec.smul_dot, ← hn]
    rfl
  rw [Allows, hlhs, Relation.holds_mul_left ht, intervalAlong]
  simp only [hfactor]
  generalize (if t < 0 then k.relation.flip else k.relation) = r
  cases r with
  | le => simp [Relation.Holds, Interval.Contains, Scalar.infinity]
  | ge => simp [Relation.Holds, Interval.Contains, Scalar.infinity]
  | eq => simp [Relation.Holds, Interval.Contains, le_antisymm_iff (a := u.dot p), and_comm]

/-- Boundaries that are not parallel cross at a point that both constraints allow. -/
theorem exists_common_of_cross (hne : k.normal.cross l.normal ≠ 0) :
    ∃ p, k.Allows p ∧ l.Allows p := by
  obtain ⟨p, hp⟩ := exists_crossing hne
  obtain ⟨-, hk, hl⟩ := crossing_eq_some.mp hp
  exact ⟨p, hk.allows, hl.allows⟩

theorem Proper.exists_allows (hk : k.Proper) : ∃ p, k.Allows p :=
  ⟨k.boundaryPoint, hk.boundaryPoint.allows⟩

end Constraint

/-- **Two constraints are opposed exactly when they have no common point.** -/
theorem exact_areOpposed {k l : Constraint ℝ} (hk : k.Proper) (hl : l.Proper) :
    areOpposed .exact k l = true ↔ ¬∃ p, k.Allows p ∧ l.Allows p := by
  have hkn := hk.normal_ne_zero
  have hln := hl.normal_ne_zero
  have hu := Vec.dot_self_normalize hkn
  unfold areOpposed
  rw [Bool.and_eq_true, Tolerance.exact_isSingular, Vec.cross_normalize_eq_zero hkn hln,
    Interval.exact_isEmpty]
  by_cases hpar : k.normal.cross l.normal = 0
  · -- both normals are multiples of the unit vector along which the intervals are taken
    obtain ⟨s, hs0, hs⟩ : ∃ s : ℝ, s ≠ 0 ∧ k.normal = s • k.normal.normalize :=
      ⟨k.normal.norm, (Vec.norm_pos hkn).ne', (Vec.norm_smul_normalize hkn).symm⟩
    obtain ⟨t, ht0, ht⟩ : ∃ t : ℝ, t ≠ 0 ∧ l.normal = t • k.normal.normalize := by
      have hl' := Vec.eq_smul_of_cross_eq_zero hkn hpar
      rw [hs, smul_smul, ← hs] at hl'
      refine ⟨_, fun h0 => hln ?_, hl'⟩
      rw [hl', h0, zero_smul]
    have hcommon : ∀ p, ((k.intervalAlong k.normal.normalize).intersect
        (l.intervalAlong k.normal.normalize)).Contains (k.normal.normalize.dot p) ↔
          k.Allows p ∧ l.Allows p := fun p => by
      rw [Interval.contains_intersect, Constraint.contains_intervalAlong hs0 hs hu,
        Constraint.contains_intervalAlong ht0 ht hu]
    refine (and_iff_right hpar).trans (not_congr ⟨?_, ?_⟩)
    · rintro ⟨r, hr⟩
      have hdot : k.normal.normalize.dot (r • k.normal.normalize) = r := by
        rw [Vec.dot_smul, hu, mul_one]
      exact ⟨_, (hcommon _).mp (hdot ▸ hr)⟩
    · rintro ⟨p, hp⟩
      exact ⟨_, (hcommon p).mpr hp⟩
  · exact iff_of_false (fun h => hpar h.1) (not_not.mpr (Constraint.exists_common_of_cross hpar))

/-! ## Constraints that hold together -/

/-- The corners and probes of some constraints decide whether they hold together anywhere. -/
theorem exact_jointlyFeasible (hcs : ∀ k ∈ cs, k.Proper) :
    jointlyFeasible .exact cs = true ↔ (feasible cs).Nonempty := by
  unfold jointlyFeasible
  rw [List.any_eq_true]
  constructor
  · rintro ⟨p, -, hp⟩
    exact ⟨p, exact_allows.mp hp⟩
  · rintro ⟨p, hp⟩
    rcases regionOf_status hcs with ⟨-, -, hempty⟩ | ⟨hcand, -, -⟩
    · rw [hempty] at hp
      exact hp.elim
    obtain ⟨v, hv⟩ := List.exists_mem_of_ne_nil _ hcand
    have hmem := List.mem_map_of_mem (f := Vertex.position) hv
    refine ⟨v.position, List.mem_append.mpr ?_, exact_allows.mpr (candidates_feasible hmem)⟩
    rcases regionOf_cases cs with ⟨-, hr⟩ | ⟨-, -, hr⟩ | ⟨-, -, hr⟩ <;> rw [hr] at hmem
    · have hc := (mem_extremePoints_feasible.mp (mem_corners_position.mp hmem)).2
      exact .inr (mem_crossings.mpr hc)
    · exact .inl (mem_samplePoints_position.mp hmem).1
    · cases hmem

/-! ## Constraints by their indices -/

/-- The points that the constraints with some indices allow. -/
def allowedBy (cs : List (Constraint ℝ)) (is : List Nat) : Set (Vec ℝ) :=
  {p | ∀ i ∈ is, ∀ k, cs[i]? = some k → k.Allows p}

theorem allowedBy_anti {is js : List Nat} (h : is ⊆ js) : allowedBy cs js ⊆ allowedBy cs is :=
  fun _ hp i hi => hp i (h hi)

theorem allowedBy_eq_feasible (cs : List (Constraint ℝ)) (is : List Nat) :
    allowedBy cs is = feasible (is.filterMap fun i => cs[i]?) := by
  ext p
  simp only [allowedBy, feasible, Set.mem_ofPred_eq, List.mem_filterMap, forall_exists_index,
    and_imp]
  exact ⟨fun h k i hi hk => h i hi k hk, fun h i hi k hk => h k i hi hk⟩

theorem allowedBy_singleton_nonempty (hcs : ∀ k ∈ cs, k.Proper) (i : Nat) :
    (allowedBy cs [i]).Nonempty := by
  cases hk : cs[i]? with
  | none => exact ⟨0, by simp [allowedBy, hk]⟩
  | some k =>
    obtain ⟨p, hp⟩ := (hcs k (List.mem_of_getElem? hk)).exists_allows
    exact ⟨p, by simpa [allowedBy, hk] using hp⟩

/-- The indices `i` and `j` name two constraints with no common point. -/
def Contradictory (cs : List (Constraint ℝ)) (i j : Nat) : Prop :=
  i < j ∧ j < cs.length ∧ allowedBy cs [i, j] = ∅

theorem exact_mem_pairConflicts (hcs : ∀ k ∈ cs, k.Proper) {c : Conflict} :
    c ∈ pairConflicts .exact cs ↔ ∃ i j, c = .pair i j ∧ Contradictory cs i j := by
  have htest : ∀ {i j : Nat} {k l : Constraint ℝ}, cs[i]? = some k → cs[j]? = some l →
      (areOpposed .exact k l = true ↔ allowedBy cs [i, j] = ∅) := by
    intro i j k l hk hl
    rw [exact_areOpposed (hcs k (List.mem_of_getElem? hk)) (hcs l (List.mem_of_getElem? hl)),
      ← Set.not_nonempty_iff_eq_empty]
    refine not_congr (exists_congr fun p => ?_)
    simp [allowedBy, hk, hl]
  rw [mem_pairConflicts]
  constructor
  · rintro ⟨i, j, k, l, hij, hk, hl, hopp, rfl⟩
    obtain ⟨hj, -⟩ := List.getElem?_eq_some_iff.mp hl
    exact ⟨i, j, rfl, hij, hj, (htest hk hl).mp hopp⟩
  · rintro ⟨i, j, rfl, hij, hj, hempty⟩
    have hk := List.getElem?_eq_getElem (hij.trans hj)
    have hl := List.getElem?_eq_getElem hj
    exact ⟨i, j, _, _, hij, hk, hl, (htest hk hl).mpr hempty, rfl⟩

theorem exact_mem_tripleConflicts (hcs : ∀ k ∈ cs, k.Proper) {c : Conflict} :
    c ∈ tripleConflicts .exact cs ↔ ∃ i j h, c = .triple i j h ∧ i < j ∧ j < h ∧
      h < cs.length ∧ allowedBy cs [i, j, h] = ∅ := by
  have htest : ∀ {i j h : Nat} {k l m : Constraint ℝ}, cs[i]? = some k → cs[j]? = some l →
      cs[h]? = some m → (jointlyFeasible .exact [k, l, m] = false ↔
        allowedBy cs [i, j, h] = ∅) := by
    intro i j h k l m hk hl hm
    have hproper : ∀ n ∈ [k, l, m], n.Proper := by
      simp only [List.mem_cons, List.not_mem_nil, or_false, forall_eq_or_imp, forall_eq]
      exact ⟨hcs k (List.mem_of_getElem? hk), hcs l (List.mem_of_getElem? hl),
        hcs m (List.mem_of_getElem? hm)⟩
    rw [← Bool.not_eq_true, exact_jointlyFeasible hproper, Set.not_nonempty_iff_eq_empty,
      allowedBy_eq_feasible]
    simp [hk, hl, hm]
  rw [mem_tripleConflicts]
  constructor
  · rintro ⟨i, j, h, k, l, m, hij, hjh, hk, hl, hm, hnone, rfl⟩
    obtain ⟨hh, -⟩ := List.getElem?_eq_some_iff.mp hm
    exact ⟨i, j, h, rfl, hij, hjh, hh, (htest hk hl hm).mp hnone⟩
  · rintro ⟨i, j, h, rfl, hij, hjh, hh, hempty⟩
    have hk := List.getElem?_eq_getElem (hij.trans (hjh.trans hh))
    have hl := List.getElem?_eq_getElem (hjh.trans hh)
    have hm := List.getElem?_eq_getElem hh
    exact ⟨i, j, h, _, _, _, hij, hjh, hk, hl, hm, (htest hk hl hm).mpr hempty, rfl⟩

/-! ## Helly's theorem -/

theorem finrank_plane : Module.finrank ℝ (Vec ℝ) = 2 := by
  let e : Vec ℝ ≃ₗ[ℝ] ℝ × ℝ :=
    { toFun := fun v => (v.x, v.y)
      invFun := fun q => ⟨q.1, q.2⟩
      map_add' := fun _ _ => rfl
      map_smul' := fun _ _ => rfl
      left_inv := fun _ => rfl
      right_inv := fun _ => rfl }
  rw [e.finrank_eq, Module.finrank_prod, Module.finrank_self]

/-- Convex sets of which any three share a point all share one. -/
theorem exists_common_of_triples {n : Nat} {F : Nat → Set (Vec ℝ)}
    (hconvex : ∀ i < n, Convex ℝ (F i)) (hone : ∀ i < n, ∃ p, p ∈ F i)
    (htwo : ∀ i j, i < j → j < n → ∃ p, p ∈ F i ∧ p ∈ F j)
    (hthree : ∀ i j h, i < j → j < h → h < n → ∃ p, p ∈ F i ∧ p ∈ F j ∧ p ∈ F h) :
    ∃ p, ∀ i < n, p ∈ F i := by
  have hfinite : Module.Finite ℝ (Vec ℝ) :=
    Module.finite_of_finrank_pos (finrank_plane ▸ Nat.zero_lt_two)
  have hsmall : ∀ is : List Nat, is.Pairwise (· < ·) → (∀ i ∈ is, i < n) → is.length ≤ 3 →
      ∃ p, ∀ i ∈ is, p ∈ F i := by
    intro is hlt hbound hlen
    match is with
    | [] => exact ⟨0, nofun⟩
    | [i] => simpa using hone i (hbound i (by simp))
    | [i, j] =>
      simp only [List.pairwise_cons, List.mem_singleton, forall_eq] at hlt
      simpa using htwo i j hlt.1 (hbound j (by simp))
    | [i, j, h] =>
      simp only [List.pairwise_cons, List.mem_cons, List.not_mem_nil, or_false,
        forall_eq_or_imp, forall_eq] at hlt
      simpa using hthree i j h hlt.1.1 hlt.2.1 (hbound h (by simp))
    | _ :: _ :: _ :: _ :: _ =>
      simp only [List.length_cons] at hlen
      omega
  obtain ⟨p, hp⟩ := Convex.helly_theorem' (s := Finset.range n)
    (fun i hi => hconvex i (Finset.mem_range.mp hi)) fun I hI hcard => by
      rw [finrank_plane] at hcard
      obtain ⟨p, hp⟩ := hsmall (I.sort (· ≤ ·)) (I.sortedLT_sort.pairwise)
        (fun i hi => Finset.mem_range.mp (hI ((Finset.mem_sort _).mp hi)))
        ((Finset.length_sort _).trans_le hcard)
      exact ⟨p, Set.mem_iInter₂.mpr fun i hi => hp i ((Finset.mem_sort _).mpr hi)⟩
  exact ⟨p, fun i hi => Set.mem_iInter₂.mp hp i (Finset.mem_range.mpr hi)⟩

/-- Constraints without a common point contain two or three without one, since each constraint
alone has points. -/
theorem exists_pair_or_triple (hcs : ∀ k ∈ cs, k.Proper) (hempty : feasible cs = ∅) :
    (∃ i j, Contradictory cs i j) ∨
      ∃ i j h, i < j ∧ j < h ∧ h < cs.length ∧ allowedBy cs [i, j, h] = ∅ := by
  by_contra hnone
  rw [not_or] at hnone
  have hsome : ∀ is : List Nat, allowedBy cs is ≠ ∅ → ∃ p, ∀ i ∈ is, p ∈ allowedBy cs [i] :=
    fun is hne => (Set.nonempty_iff_ne_empty.mpr hne).imp fun p hp i hi =>
      allowedBy_anti (fun _ hj => List.mem_singleton.mp hj ▸ hi) hp
  obtain ⟨p, hp⟩ := exists_common_of_triples (n := cs.length) (F := fun i => allowedBy cs [i])
    (fun i _ => allowedBy_eq_feasible cs [i] ▸ convex_feasible _)
    (fun i _ => allowedBy_singleton_nonempty hcs i)
    (fun i j hij hj => by
      simpa using hsome [i, j] fun h => hnone.1 ⟨i, j, hij, hj, h⟩)
    (fun i j h hij hjh hh => by
      simpa using hsome [i, j, h] fun h' => hnone.2 ⟨i, j, h, hij, hjh, hh, h'⟩)
  have hmem : p ∈ feasible cs := by
    intro k hk
    obtain ⟨i, hi⟩ := List.mem_iff_getElem?.mp hk
    obtain ⟨hlt, -⟩ := List.getElem?_eq_some_iff.mp hi
    exact hp i hlt i List.mem_cons_self k hi
  rw [hempty] at hmem
  exact hmem

/-! ## The conflicts of an infeasible set -/

/-- What the conflicts found in a list of constraints without a common point have to be. -/
structure ExactConflicts (cs : List (Constraint ℝ)) (found : List Conflict) : Prop where
  nonempty : found ≠ []
  nodup : found.Nodup
  pairs : (∃ i j, Contradictory cs i j) →
    ∀ c, c ∈ found ↔ ∃ i j, c = .pair i j ∧ Contradictory cs i j
  triples : (¬∃ i j, Contradictory cs i j) →
    ∀ c, c ∈ found ↔ ∃ i j h, c = .triple i j h ∧ i < j ∧ j < h ∧ h < cs.length ∧
      allowedBy cs [i, j, h] = ∅
  /-- No point satisfies all of a conflict, and some point all of any smaller part of it. -/
  minimal : ∀ c ∈ found, allowedBy cs c.indices = ∅ ∧
    ∀ is, is ⊆ c.indices → ¬c.indices ⊆ is → (allowedBy cs is).Nonempty

theorem pair_minimal (hcs : ∀ k ∈ cs, k.Proper) {i j : Nat} {is : List Nat}
    (hsub : is ⊆ [i, j]) (hne : ¬[i, j] ⊆ is) : (allowedBy cs is).Nonempty := by
  simp only [List.cons_subset, List.nil_subset, and_true, not_and_or] at hne
  rcases hne with hi | hj
  · have hrest : is ⊆ [j] := by grind
    exact (allowedBy_singleton_nonempty hcs j).mono (allowedBy_anti hrest)
  · have hrest : is ⊆ [i] := by grind
    exact (allowedBy_singleton_nonempty hcs i).mono (allowedBy_anti hrest)

theorem triple_minimal (hpairs : ¬∃ i j, Contradictory cs i j) {i j h : Nat} {is : List Nat}
    (hij : i < j) (hjh : j < h) (hh : h < cs.length) (hsub : is ⊆ [i, j, h])
    (hne : ¬[i, j, h] ⊆ is) : (allowedBy cs is).Nonempty := by
  have hpair : ∀ {i j : Nat}, i < j → j < cs.length → (allowedBy cs [i, j]).Nonempty := by
    intro i j hij hj
    by_contra hempty
    exact hpairs ⟨i, j, hij, hj, Set.not_nonempty_iff_eq_empty.mp hempty⟩
  simp only [List.cons_subset, List.nil_subset, and_true, not_and_or] at hne
  rcases hne with hi | hj | hk
  · have hrest : is ⊆ [j, h] := by grind
    exact (hpair hjh hh).mono (allowedBy_anti hrest)
  · have hrest : is ⊆ [i, h] := by grind
    exact (hpair (hij.trans hjh) hh).mono (allowedBy_anti hrest)
  · have hrest : is ⊆ [i, j] := by grind
    exact (hpair hij (hjh.trans hh)).mono (allowedBy_anti hrest)

theorem exact_smallestConflicts (hcs : ∀ k ∈ cs, k.Proper) (hempty : feasible cs = ∅) :
    ExactConflicts cs (smallestConflicts .exact cs) := by
  have hnodup := nodup_smallestConflicts .exact cs
  rcases smallestConflicts_cases .exact cs with ⟨hne, hs⟩ | ⟨hnil, hs⟩ <;> rw [hs] at hnodup ⊢
  · obtain ⟨c, hc⟩ := List.exists_mem_of_ne_nil _ hne
    obtain ⟨i, j, -, hij⟩ := (exact_mem_pairConflicts hcs).mp hc
    exact {
      nonempty := hne
      nodup := hnodup
      pairs := fun _ _ => exact_mem_pairConflicts hcs
      triples := fun hnone => absurd ⟨i, j, hij⟩ hnone
      minimal := by
        intro c hc
        obtain ⟨i, j, rfl, -, -, hboth⟩ := (exact_mem_pairConflicts hcs).mp hc
        exact ⟨hboth, fun is => pair_minimal hcs⟩ }
  · have hpairs : ¬∃ i j, Contradictory cs i j := by
      rintro ⟨i, j, hij⟩
      have hmem := (exact_mem_pairConflicts hcs).mpr ⟨i, j, rfl, hij⟩
      rw [hnil] at hmem
      cases hmem
    obtain ⟨i, j, h, hij⟩ := (exists_pair_or_triple hcs hempty).resolve_left hpairs
    exact {
      nonempty := List.ne_nil_of_mem ((exact_mem_tripleConflicts hcs).mpr ⟨i, j, h, rfl, hij⟩)
      nodup := hnodup
      pairs := fun hsome => absurd hsome hpairs
      triples := fun _ _ => exact_mem_tripleConflicts hcs
      minimal := by
        intro c hc
        obtain ⟨i, j, h, rfl, hij, hjh, hh, hall⟩ := (exact_mem_tripleConflicts hcs).mp hc
        exact ⟨hall, fun is => triple_minimal hpairs hij hjh hh⟩ }

theorem regionOf_of_empty (hcs : ∀ k ∈ cs, k.Proper) (hempty : feasible cs = ∅) :
    regionOf .exact cs = .infeasible (smallestConflicts .exact cs) := by
  rcases regionOf_status hcs with ⟨-, hcand, -⟩ | ⟨-, hsome, -⟩
  · rcases regionOf_cases cs with ⟨hc, hr⟩ | ⟨-, hs, hr⟩ | ⟨-, -, hr⟩
    · rw [hr] at hcand
      exact absurd hcand hc
    · rw [hr] at hcand
      exact absurd hcand hs
    · exact hr
  · rw [hempty] at hsome
    exact absurd hsome Set.not_nonempty_empty

/-- **An infeasible set is reported with exactly its smallest conflicts**: all pairs without a
common point if there is one, and otherwise all such triples. There is always a conflict, and
each is minimal. -/
theorem solve_conflicts_minimal {limit : Nat} {set : ConstraintSet ℝ} (hset : set.Proper)
    (hsize : set.explicit.length ≤ limit) (hempty : feasible set.constraints = ∅) :
    ∃ found, (⟨.exact, limit⟩ : Solver ℝ).solve set = .ok (.infeasible found) ∧
      ExactConflicts set.constraints found := by
  refine ⟨smallestConflicts .exact set.constraints, ?_, exact_smallestConflicts hset hempty⟩
  rw [Solver.solve_of_size hsize, regionOf_of_empty hset hempty]

/-- `x + y <= 1`, `x >= 1` and `y >= 1`: any two hold somewhere, all three nowhere. -/
noncomputable def cutCorner : ConstraintSet ℝ :=
  .of [⟨1, 1, 1, .le, "x + y <= 1"⟩, ⟨1, 0, 1, .ge, "x >= 1"⟩, ⟨0, 1, 1, .ge, "y >= 1"⟩] false

theorem cutCorner_proper : cutCorner.Proper :=
  ConstraintSet.of_proper (by simp [Constraint.Proper]) false

theorem cutCorner_empty : feasible cutCorner.constraints = ∅ := by
  refine Set.eq_empty_iff_forall_notMem.mpr fun p hp => ?_
  have hall : p.x + p.y ≤ 1 ∧ 1 ≤ p.x ∧ 1 ≤ p.y := by
    simpa [feasible, cutCorner, ConstraintSet.of, ConstraintSet.constraints, Constraint.Allows,
      Relation.Holds] using hp
  linarith [hall.1, hall.2.1, hall.2.2]

theorem solve_conflicts_cutCorner :
    cutCorner.Proper ∧ cutCorner.explicit.length ≤ 50 ∧ feasible cutCorner.constraints = ∅ ∧
    ∃ found, (⟨.exact, 50⟩ : Solver ℝ).solve cutCorner = .ok (.infeasible found) ∧
      ExactConflicts cutCorner.constraints found := by
  have hsize : cutCorner.explicit.length ≤ 50 := by decide
  exact ⟨cutCorner_proper, hsize, cutCorner_empty,
    solve_conflicts_minimal cutCorner_proper hsize cutCorner_empty⟩

end PlanarLP
