import PlanarLP.Proofs.Opposed

/-! A constraint multiplied by minus one, with its relation turned round, is the same constraint,
and the solver treats it so. Each question that is asked of a constraint has the same answer
for both forms: at which points it holds, where its boundary runs and crosses another, what it
is opposed to. Lists whose members are restated one by one therefore have the same crossings,
probes, tight indices and conflicts. -/

namespace PlanarLP

variable {tol : Tolerance ℝ} {k k' l l' : Constraint ℝ} {u v p : Vec ℝ}

/-! ## Comparisons -/

namespace Tolerance

theorem holds_neg (tol : Tolerance ℝ) (a b m : ℝ) (r : Relation) :
    tol.holds (-a) r.flip (-b) m = tol.holds a r b m := by
  have hsub : -a - -b = -(a - b) := by ring
  rw [Bool.eq_iff_iff]
  cases r with
  | le => rw [Relation.flip, holds_ge, holds_le, hsub, neg_le_neg_iff]
  | ge => rw [Relation.flip, holds_le, holds_ge, hsub, neg_le]
  | eq =>
    rw [Relation.flip, holds_eq, holds_eq, hsub]
    exact Iff.of_eq (congrArg (· ≤ _) (abs_neg (a - b)))

theorem isSingular_neg (tol : Tolerance ℝ) (det scale : ℝ) :
    tol.isSingular (-det) scale = tol.isSingular det scale := by
  show decide (|-det| ≤ _) = decide (|det| ≤ _)
  rw [abs_neg]

end Tolerance

theorem Vec.norm_neg (v : Vec ℝ) : (-v).norm = v.norm := by
  rw [norm, norm, normSq, normSq, neg_dot, dot_neg, neg_neg]

namespace Constraint

/-- Cramer's rule. -/
theorem crossing_eq (k l : Constraint ℝ) (tol : Tolerance ℝ) : k.crossing l tol =
    if tol.isSingular (k.normal.cross l.normal) (k.rowSize * l.rowSize) then none
    else some ⟨(k.c * l.b - l.c * k.b) / k.normal.cross l.normal,
      (k.a * l.c - l.a * k.c) / k.normal.cross l.normal⟩ := rfl

/-- Two boundaries cross in one point, whichever comes first. -/
theorem crossing_comm (k l : Constraint ℝ) (tol : Tolerance ℝ) :
    k.crossing l tol = l.crossing k tol := by
  have hcross : k.normal.cross l.normal = -l.normal.cross k.normal := Vec.cross_swap _ _
  have hx : k.c * l.b - l.c * k.b = -(l.c * k.b - k.c * l.b) := by ring
  have hy : k.a * l.c - l.a * k.c = -(l.a * k.c - k.a * l.c) := by ring
  rw [crossing_eq, crossing_eq, hcross, Tolerance.isSingular_neg, mul_comm k.rowSize, hx, hy,
    neg_div_neg_eq, neg_div_neg_eq]

theorem canonical_relation (k : Constraint ℝ) (tol : Tolerance ℝ) :
    (k.canonical tol).2.2 = if k.relation = .eq then .eq else .le := by
  unfold canonical
  cases hr : k.relation with
  | le | ge => rfl
  | eq =>
    dsimp only
    split <;> rfl

theorem not_isEquivalent (hk : k.relation = .eq) (hl : l.relation ≠ .eq) :
    k.isEquivalent l tol = false := by
  have hkrel := k.canonical_relation tol
  have hlrel := l.canonical_relation tol
  rw [if_pos hk] at hkrel
  rw [if_neg hl] at hlrel
  unfold isEquivalent
  simp only [hkrel, hlrel]
  rfl

/-- The second constraint is the first one, as it is or with both sides negated. -/
inductive Restated (k : Constraint ℝ) : Constraint ℝ → Prop
  | same : Restated k k
  | negated (source : String) : Restated k ⟨-k.a, -k.b, -k.c, k.relation.flip, source⟩

namespace Restated

theorem proper (h : k.Restated k') (hk : k.Proper) : k'.Proper := by
  cases h with
  | same => exact hk
  | negated source => exact hk.imp neg_ne_zero.mpr neg_ne_zero.mpr

theorem magnitudeAt (h : k.Restated k') (p : Vec ℝ) : k'.magnitudeAt p = k.magnitudeAt p := by
  cases h with
  | same => rfl
  | negated source =>
    show |(-k.a) * p.x| + |(-k.b) * p.y| + |(-k.c)| = |k.a * p.x| + |k.b * p.y| + |k.c|
    rw [neg_mul, neg_mul, abs_neg, abs_neg, abs_neg]

theorem lhs_negated (k : Constraint ℝ) (source : String) (p : Vec ℝ) :
    lhs ⟨-k.a, -k.b, -k.c, k.relation.flip, source⟩ p = -k.lhs p := by
  show (-k.a) * p.x + (-k.b) * p.y = -(k.a * p.x + k.b * p.y)
  ring

theorem isSatisfied (h : k.Restated k') (tol : Tolerance ℝ) (p : Vec ℝ) :
    k'.isSatisfied tol p = k.isSatisfied tol p := by
  rw [Constraint.isSatisfied, Constraint.isSatisfied, h.magnitudeAt]
  cases h with
  | same => rfl
  | negated source =>
    rw [lhs_negated]
    exact tol.holds_neg ..

theorem isTight (h : k.Restated k') (tol : Tolerance ℝ) (p : Vec ℝ) :
    k'.isTight tol p = k.isTight tol p := by
  rw [Constraint.isTight, Constraint.isTight, h.magnitudeAt]
  cases h with
  | same => rfl
  | negated source =>
    rw [lhs_negated]
    exact tol.holds_neg _ _ _ .eq

theorem allows (h : k.Restated k') (p : Vec ℝ) : k'.Allows p ↔ k.Allows p := by
  rw [← exact_isSatisfied, ← exact_isSatisfied, h.isSatisfied]

theorem boundaryPoint (h : k.Restated k') : k'.boundaryPoint = k.boundaryPoint := by
  cases h with
  | same => rfl
  | negated source =>
    have hsq : (-k.normal).normSq = k.normal.normSq := by
      rw [Vec.normSq, Vec.neg_dot, Vec.dot_neg, neg_neg]
      rfl
    show (-k.normal).scale (-k.c / (-k.normal).normSq) = k.normal.scale (k.c / k.normal.normSq)
    rw [hsq, Vec.scale_eq, Vec.scale_eq, neg_div, neg_smul_neg]

/-- A boundary crosses another where it did. -/
theorem crossing_left (h : k.Restated k') (l : Constraint ℝ) (tol : Tolerance ℝ) :
    k'.crossing l tol = k.crossing l tol := by
  cases h with
  | same => rfl
  | negated source =>
    have hsize : max |(-k.a)| |(-k.b)| = k.rowSize := by rw [abs_neg, abs_neg, rowSize]
    have hcross : (-k.normal).cross l.normal = -k.normal.cross l.normal := Vec.neg_cross _ _
    have hx : -k.c * l.b - l.c * -k.b = -(k.c * l.b - l.c * k.b) := by ring
    have hy : -k.a * l.c - l.a * -k.c = -(k.a * l.c - l.a * k.c) := by ring
    rw [crossing_eq, crossing_eq]
    show (if tol.isSingular ((-k.normal).cross l.normal) (max |(-k.a)| |(-k.b)| * l.rowSize) then
        none
      else some (Vec.mk ((-k.c * l.b - l.c * -k.b) / (-k.normal).cross l.normal)
        ((-k.a * l.c - l.a * -k.c) / (-k.normal).cross l.normal))) = _
    rw [hsize, hcross, Tolerance.isSingular_neg, hx, hy, neg_div_neg_eq, neg_div_neg_eq]

theorem crossing (hk : k.Restated k') (hl : l.Restated l') (tol : Tolerance ℝ) :
    k'.crossing l' tol = k.crossing l tol := by
  rw [hk.crossing_left, crossing_comm, hl.crossing_left, crossing_comm]

theorem relation_eq (h : k.Restated k') : k'.relation = .eq ↔ k.relation = .eq := by
  cases h with
  | same => rfl
  | negated source => cases k.relation <;> simp [Relation.flip]

/-- An inequality has the canonical form that it had. -/
theorem canonical (h : k.Restated k') (hr : k.relation ≠ .eq) (tol : Tolerance ℝ) :
    k'.canonical tol = k.canonical tol := by
  cases h with
  | same => rfl
  | negated source =>
    have hlength : (-k.normal).norm = k.normal.norm := Vec.norm_neg k.normal
    have hn : (-k.normal).divide k.normal.norm = -k.normal.divide k.normal.norm := by
      rw [Vec.divide_eq, Vec.divide_eq, smul_neg]
    have hc : -k.c / k.normal.norm = -(k.c / k.normal.norm) := neg_div _ _
    have hflip : k.relation = .le ∨ k.relation = .ge := by
      cases hrel : k.relation <;> simp_all
    unfold Constraint.canonical
    obtain hrel | hrel := hflip
    · simp only [hrel, Relation.flip]
      show (-(-k.normal).divide (-k.normal).norm, -(-k.c / (-k.normal).norm), Relation.le) = _
      rw [hlength, hn, hc, neg_neg, neg_neg]
    · simp only [hrel, Relation.flip]
      show ((-k.normal).divide (-k.normal).norm, -k.c / (-k.normal).norm, Relation.le) = _
      rw [hlength, hn, hc]

/-- An equation stands for no inequality, in either form. -/
theorem isEquivalent (h : k.Restated k') (hl : l.relation ≠ .eq) (tol : Tolerance ℝ) :
    k'.isEquivalent l tol = k.isEquivalent l tol := by
  by_cases hr : k.relation = .eq
  · rw [not_isEquivalent hr hl, not_isEquivalent (h.relation_eq.mpr hr) hl]
  · rw [Constraint.isEquivalent, h.canonical hr, Constraint.isEquivalent]

/-- The unit normal may be turned round. -/
theorem normalize (h : k.Restated k') :
    k'.normal.normalize = k.normal.normalize ∨ k'.normal.normalize = -k.normal.normalize := by
  cases h with
  | same => exact .inl rfl
  | negated source => exact .inr (Vec.normalize_neg k.normal)

end Restated

end Constraint

/-! ## Opposed constraints -/

open Constraint

theorem Constraint.endAlong_neg (k : Constraint ℝ) (u : Vec ℝ) :
    k.endAlong (-u) = -k.endAlong u := by
  rw [endAlong, endAlong, Vec.dot_neg, div_neg]

theorem Constraint.Restated.endAlong (h : k.Restated k') (u : Vec ℝ) :
    k'.endAlong u = k.endAlong u := by
  cases h with
  | same => rfl
  | negated source =>
    show -k.c / (-k.normal).dot u = k.c / k.normal.dot u
    rw [Vec.neg_dot, neg_div_neg_eq]

/-- Whether two constraints are opposed does not depend on the form of either: turning the
first normal round mirrors the line along which they are compared. -/
theorem areOpposed_restated (htol : ∀ m, 0 ≤ tol.slack m) (hdet : tol.determinant < 1)
    (hk : k.Proper) (hl : l.Proper) (hkk : k.Restated k') (hll : l.Restated l') :
    areOpposed tol k' l' = areOpposed tol k l := by
  have hcross : |k'.normal.normalize.cross l'.normal.normalize| =
      |k.normal.normalize.cross l.normal.normalize| := by
    obtain hu | hu := hkk.normalize <;> obtain hv | hv := hll.normalize <;> rw [hu, hv] <;>
      simp only [Vec.neg_cross, Vec.cross_neg, abs_neg, neg_neg]
  rw [Bool.eq_iff_iff, areOpposed_iff htol hdet (hkk.proper hk).faces (hll.proper hl).faces,
    areOpposed_iff htol hdet hk.faces hl.faces, hcross, hkk.endAlong, hll.endAlong]
  simp only [hkk.allows, hll.allows]
  obtain hu | hu := hkk.normalize
  · rw [hu]
  · have hallows : (∃ t : ℝ, k.Allows (t • -k.normal.normalize) ∧
        l.Allows (t • -k.normal.normalize)) ↔
        ∃ t : ℝ, k.Allows (t • k.normal.normalize) ∧ l.Allows (t • k.normal.normalize) := by
      simp only [smul_neg, ← neg_smul]
      exact (Equiv.neg ℝ).exists_congr fun _ => Iff.rfl
    rw [hu, hallows, endAlong_neg, endAlong_neg, abs_neg, abs_neg, ← neg_sub', abs_neg]

/-! ## Lists -/

section Lists

variable {β γ δ : Type} {R : β → γ → Prop} {xs : List β} {ys : List γ}

theorem map_eq_of_forall₂ {f : β → δ} {g : γ → δ} (h : List.Forall₂ R xs ys)
    (hfg : ∀ x y, R x y → g y = f x) : ys.map g = xs.map f := by
  induction h with
  | nil => rfl
  | cons hxy _ ih => rw [List.map_cons, List.map_cons, hfg _ _ hxy, ih]

theorem filterMap_eq_of_forall₂ {f : β → Option δ} {g : γ → Option δ} (h : List.Forall₂ R xs ys)
    (hfg : ∀ x y, R x y → g y = f x) : ys.filterMap g = xs.filterMap f := by
  have hmap := congrArg (List.filterMap id) (map_eq_of_forall₂ h hfg)
  rwa [List.filterMap_map, List.filterMap_map] at hmap

theorem all_eq_of_forall₂ {p : β → Bool} {q : γ → Bool} (h : List.Forall₂ R xs ys)
    (hpq : ∀ x y, R x y → q y = p x) : ys.all q = xs.all p := by
  have hmap := congrArg (List.all · id) (map_eq_of_forall₂ h hpq)
  simp only [List.all_map] at hmap
  exact hmap

theorem any_eq_of_forall₂ {p : β → Bool} {q : γ → Bool} (h : List.Forall₂ R xs ys)
    (hpq : ∀ x y, R x y → q y = p x) : ys.any q = xs.any p := by
  have hmap := congrArg (List.any · id) (map_eq_of_forall₂ h hpq)
  simp only [List.any_map] at hmap
  exact hmap

theorem forall₂_zipIdx (h : List.Forall₂ R xs ys) (n : Nat) :
    List.Forall₂ (fun x y => R x.1 y.1 ∧ y.2 = x.2) (xs.zipIdx n) (ys.zipIdx n) := by
  induction h generalizing n with
  | nil => exact .nil
  | cons hxy _ ih => exact .cons ⟨hxy, rfl⟩ (ih (n + 1))

theorem forall₂_pairs (h : List.Forall₂ R xs ys) :
    List.Forall₂ (fun x y => R x.1 y.1 ∧ R x.2 y.2) (pairs xs) (pairs ys) := by
  induction h with
  | nil => exact .nil
  | cons hxy h ih =>
    exact List.rel_append (List.rel_map (fun _ _ hz => ⟨hxy, hz⟩) h) ih

theorem forall₂_triples (h : List.Forall₂ R xs ys) :
    List.Forall₂ (fun x y => R x.1 y.1 ∧ R x.2.1 y.2.1 ∧ R x.2.2 y.2.2) (triples xs)
      (triples ys) := by
  induction h with
  | nil => exact .nil
  | cons hxy h ih =>
    exact List.rel_append (List.rel_map (fun _ _ hz => ⟨hxy, hz⟩) (forall₂_pairs h)) ih

end Lists

/-- The constraints are restated one by one, each of them proper. -/
def Restate (cs ds : List (Constraint ℝ)) : Prop :=
  List.Forall₂ (fun k l => k.Proper ∧ k.Restated l) cs ds

namespace Restate

variable {cs ds : List (Constraint ℝ)}

theorem refl (h : ∀ k ∈ cs, k.Proper) : Restate cs cs :=
  List.forall₂_same.mpr fun k hk => ⟨h k hk, .same⟩

theorem allows (h : Restate cs ds) (tol : Tolerance ℝ) : allows tol ds = allows tol cs := by
  funext p
  exact all_eq_of_forall₂ h fun _ _ hkl => hkl.2.isSatisfied tol p

theorem crossings (h : Restate cs ds) (tol : Tolerance ℝ) :
    crossings tol ds = crossings tol cs :=
  filterMap_eq_of_forall₂ (forall₂_pairs h) fun _ _ hkl => hkl.1.2.crossing hkl.2.2 tol

theorem probes (h : Restate cs ds) : probes ds = probes cs :=
  congrArg (Vec.origin :: ·) (map_eq_of_forall₂ h fun _ _ hkl => hkl.2.boundaryPoint)

theorem tightAt (h : Restate cs ds) (tol : Tolerance ℝ) (p : Vec ℝ) :
    tightAt tol ds p = tightAt tol cs p := by
  refine map_eq_of_forall₂ (List.rel_filter ?_ (forall₂_zipIdx h 0)) fun _ _ hkl => hkl.2
  intro x y hxy
  exact Bool.eq_iff_iff.mp (hxy.1.2.isTight tol p).symm

theorem vertexAt (h : Restate cs ds) (tol : Tolerance ℝ) : vertexAt tol ds = vertexAt tol cs := by
  funext p
  rw [PlanarLP.vertexAt, h.tightAt, PlanarLP.vertexAt]

theorem corners (h : Restate cs ds) (tol : Tolerance ℝ) : corners tol ds = corners tol cs := by
  rw [PlanarLP.corners, h.crossings, h.allows, h.vertexAt, PlanarLP.corners]

theorem samplePoints (h : Restate cs ds) (tol : Tolerance ℝ) :
    samplePoints tol ds = samplePoints tol cs := by
  rw [PlanarLP.samplePoints, h.probes, h.allows, h.vertexAt, PlanarLP.samplePoints]

theorem jointlyFeasible (h : Restate cs ds) (tol : Tolerance ℝ) :
    jointlyFeasible tol ds = jointlyFeasible tol cs := by
  rw [PlanarLP.jointlyFeasible, h.probes, h.crossings, h.allows, PlanarLP.jointlyFeasible]

theorem pairConflicts (h : Restate cs ds) (htol : ∀ m, 0 ≤ tol.slack m)
    (hdet : tol.determinant < 1) : pairConflicts tol ds = pairConflicts tol cs := by
  refine filterMap_eq_of_forall₂ (forall₂_pairs (forall₂_zipIdx h 0)) ?_
  intro ⟨⟨k, i⟩, ⟨l, j⟩⟩ ⟨⟨k', i'⟩, ⟨l', j'⟩⟩ ⟨⟨⟨hk, hkk⟩, hi⟩, ⟨⟨hl, hll⟩, hj⟩⟩
  obtain rfl : i' = i := hi
  obtain rfl : j' = j := hj
  show (if areOpposed tol k' l' then _ else _) = if areOpposed tol k l then _ else _
  rw [areOpposed_restated htol hdet hk hl hkk hll]

theorem tripleConflicts (h : Restate cs ds) (tol : Tolerance ℝ) :
    tripleConflicts tol ds = tripleConflicts tol cs := by
  refine filterMap_eq_of_forall₂ (forall₂_triples (forall₂_zipIdx h 0)) ?_
  intro ⟨⟨k, i⟩, ⟨l, j⟩, ⟨m, n⟩⟩ ⟨⟨k', i'⟩, ⟨l', j'⟩, ⟨m', n'⟩⟩ ⟨⟨hk, hi⟩, ⟨hl, hj⟩, ⟨hm, hn⟩⟩
  obtain rfl : i' = i := hi
  obtain rfl : j' = j := hj
  obtain rfl : n' = n := hn
  have hthree : Restate [k, l, m] [k', l', m'] := .cons hk (.cons hl (.cons hm .nil))
  show (if PlanarLP.jointlyFeasible tol [k', l', m'] then _ else _) =
    if PlanarLP.jointlyFeasible tol [k, l, m] then _ else _
  rw [hthree.jointlyFeasible]

theorem smallestConflicts (h : Restate cs ds) (htol : ∀ m, 0 ≤ tol.slack m)
    (hdet : tol.determinant < 1) : smallestConflicts tol ds = smallestConflicts tol cs := by
  rw [PlanarLP.smallestConflicts, h.pairConflicts htol hdet, h.tripleConflicts,
    PlanarLP.smallestConflicts]

/-- The same default bounds are missing. -/
theorem missingBounds (h : Restate cs ds) :
    ConstraintSet.missingBounds ds = ConstraintSet.missingBounds cs := by
  refine List.filter_congr fun bound hbound => ?_
  have hrelation : bound.relation ≠ .eq := by
    simp only [List.mem_cons, List.not_mem_nil, or_false] at hbound
    obtain rfl | rfl := hbound <;> nofun
  have hany := any_eq_of_forall₂ h fun _ _ hkl => hkl.2.isEquivalent hrelation Tolerance.standard
  exact congrArg (!·) hany

end Restate

end PlanarLP
