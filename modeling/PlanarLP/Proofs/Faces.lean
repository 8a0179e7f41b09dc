import Mathlib.Algebra.Group.Pointwise.Set.Basic
import PlanarLP.Proofs.ConvexCycle
import PlanarLP.Proofs.Recession

/-! Faces. A half-plane that contains some points and that no direction leaves touches what
they generate in what is generated by those of them on its boundary (`HalfPlane.face_generated`).
A line carries at most two extreme points of a convex set (`length_le_two_of_line`), and where
the points of a cycle that lie furthest in some direction are two, an edge joins them
(`AngularCycle.edge_of_furthest`). -/

namespace PlanarLP

open Pointwise

/-! ## The part of a generated set on a boundary -/

namespace HalfPlane

variable {V D : Set (Vec ℝ)} {h : HalfPlane} {p d : Vec ℝ}

/-- A combination of points that the half-plane contains meets the boundary only where both of
them do. -/
theorem meets_combination {q : Vec ℝ} (hp : h.Contains p) (hq : h.Contains q) {s t : ℝ}
    (hs : 0 < s) (ht : 0 < t) (hst : s + t = 1) (hmeet : h.Meets (s • p + t • q)) :
    h.Meets p ∧ h.Meets q := by
  unfold Contains at hp hq
  unfold Meets at hmeet ⊢
  rw [Vec.dot_add, Vec.dot_smul, Vec.dot_smul] at hmeet
  have hsum : s * (h.bound - h.normal.dot p) + t * (h.bound - h.normal.dot q) = 0 := by
    linear_combination h.bound * hst - hmeet
  have hp0 := mul_nonneg hs.le (sub_nonneg.mpr hp)
  have hq0 := mul_nonneg ht.le (sub_nonneg.mpr hq)
  obtain ⟨hp', hq'⟩ := (add_eq_zero_iff_of_nonneg hp0 hq0).mp hsum
  have hpb := (mul_eq_zero.mp hp').resolve_left hs.ne'
  have hqb := (mul_eq_zero.mp hq').resolve_left ht.ne'
  exact ⟨(sub_eq_zero.mp hpb).symm, (sub_eq_zero.mp hqb).symm⟩

/-- The directions that the half-plane is not left along, those along its boundary being
generated by the ones in `D`. -/
noncomputable def boundaryCone (h : HalfPlane) (D : Set (Vec ℝ)) : PointedCone ℝ (Vec ℝ) where
  carrier := {d | h.normal.dot d ≤ 0 ∧ (h.normal.dot d = 0 →
    d ∈ PointedCone.hull ℝ {d | d ∈ D ∧ h.normal.dot d = 0})}
  zero_mem' := ⟨(Vec.dot_zero _).le, fun _ => zero_mem _⟩
  add_mem' := by
    intro c d hc hd
    refine ⟨by rw [Vec.dot_add]; exact add_nonpos hc.1 hd.1, fun hzero => ?_⟩
    rw [Vec.dot_add] at hzero
    exact add_mem (hc.2 (by linarith [hc.1, hd.1])) (hd.2 (by linarith [hc.1, hd.1]))
  smul_mem' := by
    intro t d hd
    change h.normal.dot ((t : ℝ) • d) ≤ 0 ∧ (h.normal.dot ((t : ℝ) • d) = 0 → _)
    rw [Vec.dot_smul]
    refine ⟨mul_nonpos_of_nonneg_of_nonpos t.2 hd.1, fun hzero => ?_⟩
    rcases mul_eq_zero.mp hzero with ht | hflat
    · have ht' : t = 0 := NNReal.coe_eq_zero.mp ht
      rw [ht', zero_smul]
      exact zero_mem _
    · exact Submodule.smul_mem _ t (hd.2 hflat)

/-- What is generated by the points and the directions on the boundary. -/
def face (h : HalfPlane) (V D : Set (Vec ℝ)) : Set (Vec ℝ) :=
  convexHull ℝ {p | p ∈ V ∧ h.Meets p} +
    (PointedCone.hull ℝ {d | d ∈ D ∧ h.normal.dot d = 0} : Set (Vec ℝ))

theorem convex_face (h : HalfPlane) (V D : Set (Vec ℝ)) : Convex ℝ (h.face V D) :=
  (convex_convexHull ℝ _).add (PointedCone.convex _)

theorem face_meets (hp : p ∈ h.face V D) : h.Meets p := by
  obtain ⟨q, hq, d, hd, rfl⟩ := hp
  have hline : Convex ℝ {p | h.Meets p} := by
    intro a ha b hb s t _ _ hst
    change h.normal.dot (s • a + t • b) = h.bound
    rw [Vec.dot_add, Vec.dot_smul, Vec.dot_smul, show h.normal.dot a = h.bound from ha,
      show h.normal.dot b = h.bound from hb, ← add_mul, hst, one_mul]
  have hq' : h.normal.dot q = h.bound := convexHull_min (fun p hp => hp.2) hline hq
  have hflat : h.normal.dot d = 0 := by
    refine Submodule.span_induction (fun d hd => hd.2) (Vec.dot_zero _) ?_ ?_ hd
    · intro c d _ _ hc hd
      rw [Vec.dot_add, hc, hd, add_zero]
    · intro t d _ hd
      change h.normal.dot ((t : ℝ) • d) = 0
      rw [Vec.dot_smul, hd, mul_zero]
  change h.normal.dot (q + d) = h.bound
  rw [Vec.dot_add, hq', hflat, add_zero]

/-- Combinations of points inside that meet the boundary are generated on the boundary. -/
theorem mem_face_of_meets (hV : ∀ p ∈ V, h.Contains p) (hp : p ∈ convexHull ℝ V) :
    h.Contains p ∧ (h.Meets p → p ∈ h.face V D) := by
  have hconvex : Convex ℝ {p | h.Contains p ∧ (h.Meets p → p ∈ h.face V D)} := by
    intro a ha b hb s t hs ht hst
    have hinside : h.Contains (s • a + t • b) := by
      simpa [common] using convex_common [h] (by simpa [common] using ha.1)
        (by simpa [common] using hb.1) hs ht hst
    refine ⟨hinside, fun hmeet => ?_⟩
    rcases hs.eq_or_lt with rfl | hs
    · obtain rfl : t = 1 := by linarith
      rw [zero_smul, one_smul, zero_add] at hmeet ⊢
      exact hb.2 hmeet
    rcases ht.eq_or_lt with rfl | ht
    · obtain rfl : s = 1 := by linarith
      rw [zero_smul, one_smul, add_zero] at hmeet ⊢
      exact ha.2 hmeet
    obtain ⟨hma, hmb⟩ := meets_combination ha.1 hb.1 hs ht hst hmeet
    exact h.convex_face V D (ha.2 hma) (hb.2 hmb) hs.le ht.le hst
  have hpoints : V ⊆ {p | h.Contains p ∧ (h.Meets p → p ∈ h.face V D)} := by
    intro v hv
    refine ⟨hV v hv, fun hmeet => ?_⟩
    have hmem : v ∈ {p | p ∈ V ∧ h.Meets p} := ⟨hv, hmeet⟩
    exact ⟨v, subset_convexHull ℝ _ hmem, 0, zero_mem _, add_zero v⟩
  exact convexHull_min hpoints hconvex hp

/-- **The part of a generated set on the boundary is generated on the boundary**, by the points
there and the directions along it. -/
theorem face_generated (hV : ∀ p ∈ V, h.Contains p) (hD : ∀ d ∈ D, h.normal.dot d ≤ 0) :
    {p | p ∈ convexHull ℝ V + (PointedCone.hull ℝ D : Set (Vec ℝ)) ∧ h.Meets p} =
      h.face V D := by
  apply Set.Subset.antisymm
  · rintro _ ⟨⟨q, hq, d, hd, rfl⟩, hmeet⟩
    obtain ⟨hinside, hface⟩ := mem_face_of_meets (D := D) hV hq
    have hle : PointedCone.hull ℝ D ≤ h.boundaryCone D := by
      refine Submodule.span_le.mpr ?_
      intro c hc
      exact ⟨hD c hc, fun hflat => PointedCone.subset_hull ⟨hc, hflat⟩⟩
    obtain ⟨hdown, hflat⟩ := hle hd
    unfold Contains at hinside
    have hsum : h.normal.dot q + h.normal.dot d = h.bound := by
      rw [← Vec.dot_add]
      exact hmeet
    have hq' : h.Meets q := by
      unfold Meets
      linarith
    obtain ⟨a, ha, c, hc, rfl⟩ := hface hq'
    refine ⟨a, ha, c + d, add_mem hc (hflat ?_), (add_assoc a c d).symm⟩
    rw [show h.normal.dot (a + c) = h.bound from hq'] at hsum
    linarith
  · intro p hp
    refine ⟨?_, face_meets hp⟩
    exact Set.add_subset_add (convexHull_mono fun v hv => hv.1)
      (Submodule.span_mono fun d hd => hd.1) hp

end HalfPlane

/-! ## Extreme points on a line -/

namespace Vec

/-- Points of a line across `n` are told apart by their place along it. -/
theorem eq_of_line {n p q : Vec ℝ} (hn : n ≠ 0) (hdot : n.dot p = n.dot q)
    (hcross : n.cross p = n.cross q) : p = q := by
  have hdiff : n.cross (p - q) = 0 := by
    simp only [cross_eq, sub_x, sub_y] at hcross ⊢
    linear_combination hcross
  have hflat : n.dot (p - q) = 0 := by
    rw [sub_eq_add_neg, dot_add, dot_neg, hdot, add_neg_cancel]
  have hzero := eq_smul_of_cross_eq_zero hn hdiff
  rw [hflat, zero_div, zero_smul] at hzero
  exact sub_eq_zero.mp hzero

/-- A vector across `n` spans with any other the area that its length and the other's height
over it give. -/
theorem dot_self_mul_cross {n u e : Vec ℝ} (he : n.dot e = 0) :
    n.dot n * u.cross e = n.cross e * n.dot u := by
  simp only [dot_eq, cross_eq] at he ⊢
  linear_combination (n.y * u.x - n.x * u.y) * he

end Vec

variable {F : Set (Vec ℝ)} {n a b c p : Vec ℝ} {ps : List (Vec ℝ)}

/-- A point of a line lies between two others that are on either side of it there. -/
theorem mem_openSegment_of_line (hn : n ≠ 0) (ha : n.dot a = n.dot p) (hb : n.dot b = n.dot p)
    (hap : n.cross a < n.cross p) (hpb : n.cross p < n.cross b) : p ∈ openSegment ℝ a b := by
  have hlen : 0 < n.cross b - n.cross a := by linarith
  refine ⟨(n.cross b - n.cross p) / (n.cross b - n.cross a),
    (n.cross p - n.cross a) / (n.cross b - n.cross a), div_pos (by linarith) hlen,
    div_pos (by linarith) hlen, ?_, ?_⟩
  · rw [← add_div, sub_add_sub_cancel, div_self hlen.ne']
  · refine Vec.eq_of_line hn ?_ ?_
    · rw [Vec.dot_add, Vec.dot_smul, Vec.dot_smul, ha, hb, ← add_mul, ← add_div,
        sub_add_sub_cancel, div_self hlen.ne', one_mul]
    · have hmix : ∀ s t : ℝ, n.cross (s • a + t • b) = s * n.cross a + t * n.cross b := by
        intro s t
        simp only [Vec.cross_eq, Vec.add_x, Vec.add_y, Vec.smul_x, Vec.smul_y]
        ring
      rw [hmix]
      field_simp
      ring

/-- **A line carries at most two extreme points**: any other would lie between the outermost. -/
theorem length_le_two_of_line (hn : n ≠ 0) (hnodup : ps.Nodup)
    (hps : ∀ p ∈ ps, p ∈ F.extremePoints ℝ) (hline : ∀ p ∈ ps, ∀ q ∈ ps, n.dot p = n.dot q) :
    ps.length ≤ 2 := by
  by_cases hne : ps = []
  · rw [hne]
    exact Nat.zero_le 2
  have hsome : {p | p ∈ ps}.Nonempty := List.exists_mem_of_ne_nil ps hne
  obtain ⟨a, ha, hleast⟩ := Set.exists_min_image {p | p ∈ ps} n.cross ps.finite_toSet hsome
  obtain ⟨b, hb, hmost⟩ := Set.exists_max_image {p | p ∈ ps} n.cross ps.finite_toSet hsome
  have hends : ps ⊆ [a, b] := by
    intro p hp
    by_contra hother
    simp only [List.mem_cons, List.not_mem_nil, or_false, not_or] at hother
    have hap : n.cross a < n.cross p := lt_of_le_of_ne (hleast p hp) fun heq =>
      hother.1 (Vec.eq_of_line hn (hline p hp a ha) heq.symm)
    have hpb : n.cross p < n.cross b := lt_of_le_of_ne (hmost p hp) fun heq =>
      hother.2 (Vec.eq_of_line hn (hline p hp b hb) heq)
    have hmid := mem_openSegment_of_line hn (hline a ha p hp) (hline b hb p hp) hap hpb
    exact hother.1 ((hps p hp).2 (hps a ha).1 (hps b hb).1 hmid).symm
  exact (hnodup.subperm hends).length_le

/-! ## Furthest points of a cycle -/

theorem exists_next {β : Type} {l : List β} {x : β} (hx : x ∈ l) : ∃ y, (x, y) ∈ edges l := by
  obtain ⟨i, hi⟩ := List.mem_iff_getElem?.mp hx
  have hlen : (i + 1) % l.length < l.length := Nat.mod_lt _ (List.length_pos_of_mem hx)
  exact ⟨l[(i + 1) % l.length], mem_edges_iff.mpr ⟨i, hi, List.getElem?_eq_getElem hlen⟩⟩

/-- Members that are told apart by `g` are joined by an edge when their images are. -/
theorem mem_edges_of_map {β γ : Type} {g : β → γ} {l : List β} (hg : (l.map g).Nodup) {x y : β}
    (hx : x ∈ l) (hy : y ∈ l) (he : (g x, g y) ∈ edges (l.map g)) : (x, y) ∈ edges l := by
  obtain ⟨i, hi, hj⟩ := mem_edges_iff.mp he
  rw [List.getElem?_map, Option.map_eq_some_iff] at hi hj
  rw [List.length_map] at hj
  obtain ⟨x', hx', hxx⟩ := hi
  obtain ⟨y', hy', hyy⟩ := hj
  have hinj := List.inj_on_of_nodup_map hg
  obtain rfl := hinj (List.mem_of_getElem? hx') hx hxx
  obtain rfl := hinj (List.mem_of_getElem? hy') hy hyy
  exact mem_edges_iff.mpr ⟨i, hx', hy'⟩

/-- Two points that lie further in a direction than all others are joined by an edge: the edges
that start from them would otherwise both have to turn inward on the same side. -/
theorem AngularCycle.edge_of_furthest (h : AngularCycle F c ps) (ha : a ∈ ps) (hb : b ∈ ps)
    (hab : a ≠ b) (hlevel : n.dot a = n.dot b)
    (hfar : ∀ w ∈ ps, w ≠ a → w ≠ b → n.dot w < n.dot a) :
    (a, b) ∈ edges ps ∨ (b, a) ∈ edges ps := by
  by_contra hnone
  rw [not_or] at hnone
  have hflat : n.dot (b - a) = 0 := by
    rw [sub_eq_add_neg, Vec.dot_add, Vec.dot_neg, hlevel, add_neg_cancel]
  have hdown : ∀ {p q : Vec ℝ}, n.dot q < n.dot p → n.dot (q - p) < 0 := by
    intro p q hlt
    rw [sub_eq_add_neg, Vec.dot_add, Vec.dot_neg]
    linarith
  obtain ⟨a', hea⟩ := exists_next ha
  obtain ⟨b', heb⟩ := exists_next hb
  have hab' : b ≠ a' := fun heq => hnone.1 (heq ▸ hea)
  have hba' : a ≠ b' := fun heq => hnone.2 (heq ▸ heb)
  have hleft := h.left_of_edge hea hb hab.symm hab'
  have hright := h.left_of_edge heb ha hab hba'
  have hda := hdown (hfar a' (mem_of_mem_edges hea).2 (h.ne_of_edge hea).symm hab'.symm)
  have hlow := hfar b' (mem_of_mem_edges heb).2 hba'.symm (h.ne_of_edge heb).symm
  rw [hlevel] at hlow
  have hdb := hdown hlow
  have hn : 0 < n.dot n := by
    refine Vec.dot_self_pos fun hzero => ?_
    rw [hzero, Vec.zero_dot] at hda
    exact lt_irrefl _ hda
  -- from `a` the line through both points is left to one side, from `b` to the other
  have hpos := mul_pos hn hleft
  rw [Vec.dot_self_mul_cross hflat] at hpos
  have hneg := mul_pos hn hright
  rw [← neg_sub b a, Vec.cross_neg, mul_neg, Vec.dot_self_mul_cross hflat, neg_pos] at hneg
  have hside := neg_of_mul_pos_left hpos hda.le
  exact absurd (mul_pos_of_neg_of_neg hside hdb) (not_lt.mpr hneg.le)

end PlanarLP
