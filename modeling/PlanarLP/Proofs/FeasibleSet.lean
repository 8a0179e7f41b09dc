import PlanarLP.ConstraintSet
import PlanarLP.Proofs.HalfPlanes
import PlanarLP.Vertex

/-! The points that a list of constraints allows, in exact arithmetic. A constraint is one or
two half-planes, so what is known of half-planes holds of constraints: `feasible_eq_common`
and `isCorner_sidesOf` carry it over. -/

namespace PlanarLP

namespace Constraint

/-- The constraint as it is written. -/
def Allows (k : Constraint ℝ) (p : Vec ℝ) : Prop :=
  k.relation.Holds (k.a * p.x + k.b * p.y) k.c

/-- `p` lies on the boundary line. -/
def OnBoundary (k : Constraint ℝ) (p : Vec ℝ) : Prop := k.a * p.x + k.b * p.y = k.c

/-- Some variable occurs, so that the boundary is a line. -/
def Proper (k : Constraint ℝ) : Prop := k.a ≠ 0 ∨ k.b ≠ 0

theorem Proper.normal_ne_zero {k : Constraint ℝ} (hk : k.Proper) : k.normal ≠ 0 := by
  intro h0
  rcases hk with ha | hb
  · exact ha (congrArg Vec.x h0)
  · exact hb (congrArg Vec.y h0)

theorem exact_isSatisfied {k : Constraint ℝ} {p : Vec ℝ} :
    k.isSatisfied .exact p = true ↔ k.Allows p := Tolerance.exact_holds

theorem exact_isTight {k : Constraint ℝ} {p : Vec ℝ} :
    k.isTight .exact p = true ↔ k.OnBoundary p := Tolerance.exact_holds

theorem standard_isZero_zero : Tolerance.standard.isZero (0 : ℝ) = true :=
  Tolerance.standard_isZero.mpr (by norm_num)

/-- Every constraint that is built from coefficients is proper. -/
theorem proper_of_of {a b c : ℝ} {relation : Relation} {source : String} {k : Constraint ℝ}
    (h : Constraint.of a b relation c source = .ok k) : k.Proper := by
  unfold Constraint.of at h
  split at h
  · cases h
  · split at h
    · cases h
    · rename_i hzero
      cases h
      by_contra hk
      simp only [Proper, not_or, not_not] at hk
      rw [hk.1, hk.2, standard_isZero_zero] at hzero
      exact hzero rfl

theorem xNonnegative_proper : (xNonnegative : Constraint ℝ).Proper := .inl one_ne_zero

theorem yNonnegative_proper : (yNonnegative : Constraint ℝ).Proper := .inr one_ne_zero

/-- The half-planes that a constraint is made of. -/
noncomputable def sides (k : Constraint ℝ) : List HalfPlane :=
  match k.relation with
  | .le => [⟨k.normal, k.c⟩]
  | .ge => [⟨-k.normal, -k.c⟩]
  | .eq => [⟨k.normal, k.c⟩, ⟨-k.normal, -k.c⟩]

theorem allows_iff_sides {k : Constraint ℝ} {p : Vec ℝ} :
    k.Allows p ↔ ∀ h ∈ k.sides, h.Contains p := by
  have hn : k.normal.dot p = k.a * p.x + k.b * p.y := rfl
  unfold Allows sides
  cases k.relation with
  | le => simp [Relation.Holds, HalfPlane.Contains, hn]
  | ge => simp [Relation.Holds, HalfPlane.Contains, Vec.neg_dot, hn]
  | eq => simp [Relation.Holds, HalfPlane.Contains, Vec.neg_dot, hn, le_antisymm_iff]

theorem mem_sides {k : Constraint ℝ} {h : HalfPlane} (hh : h ∈ k.sides) :
    h = ⟨k.normal, k.c⟩ ∨ h = ⟨-k.normal, -k.c⟩ := by
  unfold sides at hh
  cases hr : k.relation <;> simp only [hr, List.mem_cons, List.not_mem_nil, or_false] at hh
  · exact .inl hh
  · exact .inr hh
  · exact hh

theorem exists_side (k : Constraint ℝ) : ∃ h, h ∈ k.sides := by
  unfold sides
  cases k.relation <;> exact ⟨_, List.mem_cons_self⟩

theorem meets_iff {k : Constraint ℝ} {h : HalfPlane} (hh : h ∈ k.sides) {p : Vec ℝ} :
    h.Meets p ↔ k.OnBoundary p := by
  have hn : k.normal.dot p = k.a * p.x + k.b * p.y := rfl
  rcases mem_sides hh with rfl | rfl
  · rw [HalfPlane.Meets, hn, OnBoundary]
  · rw [HalfPlane.Meets, Vec.neg_dot, hn, neg_inj, OnBoundary]

theorem cross_sides {k l : Constraint ℝ} {g h : HalfPlane} (hg : g ∈ k.sides)
    (hh : h ∈ l.sides) : g.normal.cross h.normal ≠ 0 ↔ k.normal.cross l.normal ≠ 0 := by
  rcases mem_sides hg with rfl | rfl <;> rcases mem_sides hh with rfl | rfl <;>
    simp only [Vec.neg_cross, Vec.cross_neg, neg_neg, ne_eq, neg_eq_zero]

theorem side_ne_zero {k : Constraint ℝ} (hk : k.Proper) {h : HalfPlane} (hh : h ∈ k.sides) :
    h.normal ≠ 0 := by
  rcases mem_sides hh with rfl | rfl
  · exact hk.normal_ne_zero
  · exact neg_ne_zero.mpr hk.normal_ne_zero

end Constraint

/-- Every constraint of the set is proper. -/
def ConstraintSet.Proper (set : ConstraintSet ℝ) : Prop := ∀ k ∈ set.constraints, k.Proper

/-- The bounds that are added by default are proper. -/
theorem ConstraintSet.of_proper {given : List (Constraint ℝ)} (h : ∀ k ∈ given, k.Proper)
    (assumeNonnegative : Bool) : (ConstraintSet.of given assumeNonnegative).Proper := by
  intro k hk
  rcases List.mem_append.mp hk with hk | hk
  · exact h k hk
  · cases assumeNonnegative with
    | false => exact absurd hk List.not_mem_nil
    | true =>
      have hb := (List.mem_filter.mp hk).1
      simp only [List.mem_cons, List.not_mem_nil, or_false] at hb
      rcases hb with rfl | rfl
      · exact Constraint.xNonnegative_proper
      · exact Constraint.yNonnegative_proper

/-- The points that every constraint allows. -/
def feasible (cs : List (Constraint ℝ)) : Set (Vec ℝ) := {p | ∀ k ∈ cs, k.Allows p}

/-- The half-planes of a list of constraints. -/
noncomputable def sidesOf (cs : List (Constraint ℝ)) : List HalfPlane := cs.flatMap Constraint.sides

variable {cs : List (Constraint ℝ)} {p : Vec ℝ}

theorem exact_allows : allows .exact cs p = true ↔ p ∈ feasible cs := by
  rw [allows, List.all_eq_true]
  exact forall₂_congr fun _ _ => Constraint.exact_isSatisfied

theorem mem_sidesOf {h : HalfPlane} : h ∈ sidesOf cs ↔ ∃ k ∈ cs, h ∈ k.sides :=
  List.mem_flatMap

theorem feasible_eq_common (cs : List (Constraint ℝ)) :
    feasible cs = HalfPlane.common (sidesOf cs) := by
  ext p
  constructor
  · intro hp h hh
    obtain ⟨k, hk, hs⟩ := mem_sidesOf.mp hh
    exact Constraint.allows_iff_sides.mp (hp k hk) h hs
  · intro hp k hk
    exact Constraint.allows_iff_sides.mpr fun h hs => hp h (mem_sidesOf.mpr ⟨k, hk, hs⟩)

theorem convex_feasible (cs : List (Constraint ℝ)) : Convex ℝ (feasible cs) :=
  feasible_eq_common cs ▸ HalfPlane.convex_common _

/-- A corner in terms of the constraints. -/
theorem isCorner_sidesOf : HalfPlane.IsCorner (sidesOf cs) p ↔
    p ∈ feasible cs ∧ ∃ k ∈ cs, ∃ l ∈ cs,
      k.normal.cross l.normal ≠ 0 ∧ k.OnBoundary p ∧ l.OnBoundary p := by
  rw [HalfPlane.IsCorner, ← feasible_eq_common]
  refine and_congr_right fun _ => ⟨?_, ?_⟩
  · rintro ⟨g, hg, h, hh, hne, hgp, hhp⟩
    obtain ⟨k, hk, hgk⟩ := mem_sidesOf.mp hg
    obtain ⟨l, hl, hhl⟩ := mem_sidesOf.mp hh
    exact ⟨k, hk, l, hl, (Constraint.cross_sides hgk hhl).mp hne,
      (Constraint.meets_iff hgk).mp hgp, (Constraint.meets_iff hhl).mp hhp⟩
  · rintro ⟨k, hk, l, hl, hne, hkp, hlp⟩
    obtain ⟨g, hg⟩ := k.exists_side
    obtain ⟨h, hh⟩ := l.exists_side
    exact ⟨g, mem_sidesOf.mpr ⟨k, hk, hg⟩, h, mem_sidesOf.mpr ⟨l, hl, hh⟩,
      (Constraint.cross_sides hg hh).mpr hne, (Constraint.meets_iff hg).mpr hkp,
      (Constraint.meets_iff hh).mpr hlp⟩

theorem mem_extremePoints_feasible : p ∈ (feasible cs).extremePoints ℝ ↔
    p ∈ feasible cs ∧ ∃ k ∈ cs, ∃ l ∈ cs,
      k.normal.cross l.normal ≠ 0 ∧ k.OnBoundary p ∧ l.OnBoundary p := by
  rw [← isCorner_sidesOf, feasible_eq_common, HalfPlane.extremePoints_common]
  exact Iff.rfl

end PlanarLP
