import Mathlib.Analysis.Convex.Segment
import Mathlib.Data.Set.Finite.List
import Mathlib.Tactic.Module
import PlanarLP.Proofs.Plane

/-! Intersections of half-planes. A walk inside such an intersection either meets a boundary or
never ends; everything said here about corners, edges and directions of escape comes from
walking along a normal or along a boundary (`exists_exit`, `mem_of_exits`). -/

namespace PlanarLP

/-- The points `p` with `normal · p ≤ bound`. -/
structure HalfPlane where
  normal : Vec ℝ
  bound : ℝ

namespace HalfPlane

def Contains (h : HalfPlane) (p : Vec ℝ) : Prop := h.normal.dot p ≤ h.bound

/-- `p` lies on the boundary. -/
def Meets (h : HalfPlane) (p : Vec ℝ) : Prop := h.normal.dot p = h.bound

/-- The half-plane moved so that its boundary passes through the origin. -/
def central (h : HalfPlane) : HalfPlane := ⟨h.normal, 0⟩

/-- The points that all of some half-planes contain. -/
def common (hs : List HalfPlane) : Set (Vec ℝ) := {p | ∀ h ∈ hs, h.Contains p}

/-- The directions that lead out of none of them. -/
def recession (hs : List HalfPlane) : Set (Vec ℝ) := {d | ∀ h ∈ hs, h.normal.dot d ≤ 0}

/-- A common point on two boundaries that are not parallel. -/
def IsCorner (hs : List HalfPlane) (p : Vec ℝ) : Prop :=
  p ∈ common hs ∧ ∃ g ∈ hs, ∃ h ∈ hs, g.normal.cross h.normal ≠ 0 ∧ g.Meets p ∧ h.Meets p

variable {hs : List HalfPlane} {p e : Vec ℝ}

theorem dot_along (n p e : Vec ℝ) (t : ℝ) : n.dot (p + t • e) = n.dot p + t * n.dot e := by
  rw [Vec.dot_add, Vec.dot_smul]

theorem convex_common (hs : List HalfPlane) : Convex ℝ (common hs) := by
  intro p hp q hq s t hs0 ht0 hst h hm
  have hP : h.normal.dot p ≤ h.bound := hp h hm
  have hQ : h.normal.dot q ≤ h.bound := hq h hm
  change h.normal.dot (s • p + t • q) ≤ h.bound
  rw [Vec.dot_add, Vec.dot_smul, Vec.dot_smul]
  calc s * h.normal.dot p + t * h.normal.dot q ≤ s * h.bound + t * h.bound :=
        add_le_add (mul_le_mul_of_nonneg_left hP hs0) (mul_le_mul_of_nonneg_left hQ ht0)
    _ = h.bound := by rw [← add_mul, hst, one_mul]

theorem common_central : common (hs.map central) = recession hs := by
  ext d
  simp [common, recession, Contains, central]

theorem common_add_recession {d : Vec ℝ} (hp : p ∈ common hs) (hd : d ∈ recession hs) :
    p + d ∈ common hs := by
  intro h hm
  have hP : h.normal.dot p ≤ h.bound := hp h hm
  have hD := hd h hm
  change h.normal.dot (p + d) ≤ h.bound
  rw [Vec.dot_add]
  linarith

theorem recession_smul {d : Vec ℝ} (hd : d ∈ recession hs) {t : ℝ} (ht : 0 ≤ t) :
    t • d ∈ recession hs := by
  intro h hm
  rw [Vec.dot_smul]
  exact mul_nonpos_of_nonneg_of_nonpos ht (hd h hm)

/-! ## Walking to a boundary -/

/-- The walk stops at the boundary with the least ratio of room to speed. -/
theorem exists_exit (hp : p ∈ common hs) (he : ∃ h ∈ hs, 0 < h.normal.dot e) :
    ∃ t : ℝ, 0 ≤ t ∧ p + t • e ∈ common hs ∧
      ∃ h ∈ hs, 0 < h.normal.dot e ∧ h.Meets (p + t • e) := by
  let ratio : HalfPlane → ℝ := fun h => (h.bound - h.normal.dot p) / h.normal.dot e
  obtain ⟨g, ⟨hg, hgpos⟩, hmin⟩ := Set.exists_min_image {h | h ∈ hs ∧ 0 < h.normal.dot e} ratio
    (hs.finite_toSet.subset fun h hh => hh.1) he
  have hroom : 0 ≤ g.bound - g.normal.dot p := sub_nonneg.mpr (hp g hg)
  have ht : 0 ≤ ratio g := div_nonneg hroom hgpos.le
  have hmeet : g.Meets (p + ratio g • e) := by
    have hcancel : ratio g * g.normal.dot e = g.bound - g.normal.dot p :=
      div_mul_cancel₀ _ hgpos.ne'
    rw [Meets, dot_along, hcancel]
    ring
  refine ⟨ratio g, ht, ?_, g, hg, hgpos, hmeet⟩
  intro h hh
  have hP : h.normal.dot p ≤ h.bound := hp h hh
  change h.normal.dot (p + ratio g • e) ≤ h.bound
  rw [dot_along]
  rcases lt_or_ge 0 (h.normal.dot e) with hpos | hneg
  · have hle : ratio g * h.normal.dot e ≤ h.bound - h.normal.dot p :=
      (le_div_iff₀ hpos).mp (hmin h ⟨hh, hpos⟩)
    linarith
  · have hle : ratio g * h.normal.dot e ≤ 0 := mul_nonpos_of_nonneg_of_nonpos ht hneg
    linarith

theorem exists_exit_back (hp : p ∈ common hs) (he : ∃ h ∈ hs, h.normal.dot e < 0) :
    ∃ t : ℝ, 0 ≤ t ∧ p + (-t) • e ∈ common hs ∧
      ∃ h ∈ hs, h.normal.dot e < 0 ∧ h.Meets (p + (-t) • e) := by
  obtain ⟨h, hh, hneg⟩ := he
  have hpos : 0 < h.normal.dot (-e) := by rw [Vec.dot_neg]; linarith
  obtain ⟨t, ht, hq, g, hg, hgpos, hmeet⟩ := exists_exit hp ⟨h, hh, hpos⟩
  rw [smul_neg, ← neg_smul] at hq hmeet
  rw [Vec.dot_neg, neg_pos] at hgpos
  exact ⟨t, ht, hq, g, hg, hgpos, hmeet⟩

theorem mix_walks {s t : ℝ} (hst : s + t ≠ 0) :
    (t / (s + t)) • (p + s • e) + (s / (s + t)) • (p + (-t) • e) = p := by
  match_scalars
  · field_simp
    ring
  · field_simp
    ring

/-- A convex set that takes in the ends of the walks from `p` along `e` and `-e` takes in `p`.
A walk without an end is one that the set must be closed under. -/
theorem mem_of_exits {R : Set (Vec ℝ)} (hR : Convex ℝ R) (hp : p ∈ common hs)
    (he : ∃ h ∈ hs, h.normal.dot e ≠ 0)
    (hrec : ∀ s : ℝ, s • e ∈ recession hs → ∀ q ∈ R, q + s • e ∈ R)
    (hexit : ∀ t : ℝ, p + t • e ∈ common hs →
      (∃ h ∈ hs, h.normal.dot e ≠ 0 ∧ h.Meets (p + t • e)) → p + t • e ∈ R) : p ∈ R := by
  have hforth : (∃ h ∈ hs, 0 < h.normal.dot e) → ∃ t : ℝ, 0 ≤ t ∧ p + t • e ∈ R := by
    intro h
    obtain ⟨t, ht, hq, g, hg, hpos, hmeet⟩ := exists_exit hp h
    exact ⟨t, ht, hexit t hq ⟨g, hg, hpos.ne', hmeet⟩⟩
  have hback : (∃ h ∈ hs, h.normal.dot e < 0) → ∃ t : ℝ, 0 ≤ t ∧ p + (-t) • e ∈ R := by
    intro h
    obtain ⟨t, ht, hq, g, hg, hneg, hmeet⟩ := exists_exit_back hp h
    exact ⟨t, ht, hexit (-t) hq ⟨g, hg, hneg.ne, hmeet⟩⟩
  by_cases hf : ∃ h ∈ hs, 0 < h.normal.dot e
  · obtain ⟨s, hs0, hq⟩ := hforth hf
    by_cases hb : ∃ h ∈ hs, h.normal.dot e < 0
    · -- both walks end: `p` lies between the ends
      obtain ⟨t, ht0, hr⟩ := hback hb
      rcases (add_nonneg hs0 ht0).eq_or_lt with h0 | hpos
      · have hs' : s = 0 := by linarith
        simpa [hs'] using hq
      · have hmem := hR hq hr (div_nonneg ht0 hpos.le) (div_nonneg hs0 hpos.le)
          (by rw [← add_div, add_comm t s, div_self hpos.ne'])
        rwa [mix_walks hpos.ne'] at hmem
    · push Not at hb
      have hd : (-s) • e ∈ recession hs := by
        intro h hh
        rw [Vec.dot_smul]
        exact mul_nonpos_of_nonpos_of_nonneg (by linarith) (hb h hh)
      simpa [add_assoc, ← add_smul] using hrec (-s) hd _ hq
  · push Not at hf
    obtain ⟨g, hg, hne⟩ := he
    obtain ⟨t, ht, hq⟩ := hback ⟨g, hg, lt_of_le_of_ne (hf g hg) hne⟩
    have hd : t • e ∈ recession hs := recession_smul hf ht
    simpa [add_assoc, ← add_smul] using hrec t hd _ hq

/-! ## Edges and corners -/

/-- Walking along a normal reduces the intersection to its edges. -/
theorem common_subset_of_edges {R : Set (Vec ℝ)} (hR : Convex ℝ R)
    (hn : ∃ h ∈ hs, h.normal ≠ 0) (hrec : ∀ d ∈ recession hs, ∀ q ∈ R, q + d ∈ R)
    (hedge : ∀ p ∈ common hs, ∀ h ∈ hs, h.normal ≠ 0 → h.Meets p → p ∈ R) : common hs ⊆ R := by
  intro p hp
  obtain ⟨n, hn, hne⟩ := hn
  refine mem_of_exits (e := n.normal) hR hp ⟨n, hn, (Vec.dot_self_pos hne).ne'⟩
    (fun s hs => hrec _ hs) ?_
  rintro t hq ⟨h, hh, hdot, hmeet⟩
  refine hedge _ hq h hh (fun h0 => hdot ?_) hmeet
  rw [h0, Vec.zero_dot]

/-- Walking along the edges reduces it further to its corners, unless all boundaries are
parallel. -/
theorem common_subset_of_corners {R : Set (Vec ℝ)} (hR : Convex ℝ R)
    (hcross : ∃ g ∈ hs, ∃ h ∈ hs, g.normal.cross h.normal ≠ 0)
    (hrec : ∀ d ∈ recession hs, ∀ q ∈ R, q + d ∈ R)
    (hcorner : ∀ p, IsCorner hs p → p ∈ R) : common hs ⊆ R := by
  obtain ⟨g₁, hg₁, g₂, hg₂, hne⟩ := hcross
  have hn : g₁.normal ≠ 0 := by
    intro h0
    rw [h0, Vec.zero_cross] at hne
    exact hne rfl
  refine common_subset_of_edges hR ⟨g₁, hg₁, hn⟩ hrec ?_
  intro p hp g hg hgn hmeet
  have hturn : ∃ h ∈ hs, h.normal.dot g.normal.turnLeft ≠ 0 := by
    by_contra hall
    push Not at hall
    simp only [Vec.dot_turnLeft] at hall
    exact hne (Vec.cross_eq_zero_of_parallel hgn (hall g₁ hg₁) (hall g₂ hg₂))
  refine mem_of_exits hR hp hturn (fun s hs => hrec _ hs) ?_
  rintro t hq ⟨h, hh, hdot, hend⟩
  rw [Vec.dot_turnLeft] at hdot
  refine hcorner _ ⟨hq, g, hg, h, hh, hdot, ?_, hend⟩
  rw [Meets, dot_along, Vec.dot_turnLeft, Vec.cross_self, mul_zero, add_zero]
  exact hmeet

/-- A direction that no boundary through `p` forbids can be followed for a while. -/
theorem exists_step (hp : p ∈ common hs) (he : ∀ h ∈ hs, h.Meets p → h.normal.dot e ≤ 0) :
    ∃ t : ℝ, 0 < t ∧ p + t • e ∈ common hs := by
  by_cases hf : ∃ h ∈ hs, 0 < h.normal.dot e
  · obtain ⟨t, ht, hq, g, hg, hpos, hmeet⟩ := exists_exit hp hf
    refine ⟨t, lt_of_le_of_ne ht fun h0 => ?_, hq⟩
    rw [← h0, zero_smul, add_zero] at hmeet
    exact absurd (he g hg hmeet) (not_le.mpr hpos)
  · push Not at hf
    exact ⟨1, one_pos, common_add_recession hp (recession_smul hf zero_le_one)⟩

theorem IsCorner.mem_extremePoints (hc : IsCorner hs p) : p ∈ (common hs).extremePoints ℝ := by
  obtain ⟨hp, g, hg, h, hh, hne, hgp, hhp⟩ := hc
  refine ⟨hp, fun x hx y hy hseg => ?_⟩
  obtain ⟨s, t, hs0, ht0, hst, hsum⟩ := hseg
  -- a boundary through `p` passes through both ends of the segment
  have hend : ∀ k ∈ hs, k.Meets p → k.normal.dot x = k.normal.dot p := by
    intro k hk hmeet
    have hX : k.normal.dot x ≤ k.bound := hx k hk
    have hY : k.normal.dot y ≤ k.bound := hy k hk
    have hP : s * k.normal.dot x + t * k.normal.dot y = k.bound := by
      rw [← Vec.dot_smul, ← Vec.dot_smul, ← Vec.dot_add, hsum]
      exact hmeet
    rw [show k.normal.dot p = k.bound from hmeet]
    refine le_antisymm hX (le_of_mul_le_mul_left ?_ hs0)
    calc s * k.bound = k.bound - t * k.bound := by rw [eq_sub_of_add_eq hst]; ring
      _ ≤ k.bound - t * k.normal.dot y := by gcongr
      _ = s * k.normal.dot x := by rw [← hP, add_sub_cancel_right]
  exact Vec.eq_of_dot_eq hne (hend g hg hgp) (hend h hh hhp)

theorem isCorner_of_mem_extremePoints (hp : p ∈ (common hs).extremePoints ℝ) :
    IsCorner hs p := by
  obtain ⟨hmem, hext⟩ := hp
  by_contra hc
  have hpar : ∀ g ∈ hs, ∀ h ∈ hs, g.Meets p → h.Meets p → g.normal.cross h.normal = 0 := by
    intro g hg h hh hgp hhp
    by_contra hne
    exact hc ⟨hmem, g, hg, h, hh, hne, hgp, hhp⟩
  -- a direction along all boundaries through `p`
  obtain ⟨e, hne, he⟩ : ∃ e : Vec ℝ, e ≠ 0 ∧ ∀ h ∈ hs, h.Meets p → h.normal.dot e = 0 := by
    by_cases hn : ∃ g ∈ hs, g.Meets p ∧ g.normal ≠ 0
    · obtain ⟨g, hg, hgp, hgn⟩ := hn
      refine ⟨g.normal.turnLeft, Vec.turnLeft_ne_zero hgn, fun h hh hhp => ?_⟩
      rw [Vec.dot_turnLeft]
      exact hpar g hg h hh hgp hhp
    · push Not at hn
      refine ⟨⟨1, 0⟩, fun h0 => one_ne_zero (congrArg Vec.x h0), fun h hh hhp => ?_⟩
      rw [hn h hh hhp, Vec.zero_dot]
  obtain ⟨s, hs0, hx⟩ := exists_step (e := e) hmem fun h hh hhp => (he h hh hhp).le
  obtain ⟨t, ht0, hy⟩ := exists_step (e := -e) hmem fun h hh hhp => by
    rw [Vec.dot_neg, he h hh hhp, neg_zero]
  have hst : 0 < s + t := add_pos hs0 ht0
  have hseg : p ∈ openSegment ℝ (p + s • e) (p + t • -e) := by
    rw [smul_neg, ← neg_smul]
    refine ⟨t / (s + t), s / (s + t), div_pos ht0 hst, div_pos hs0 hst, ?_, mix_walks hst.ne'⟩
    rw [← add_div, add_comm t s, div_self hst.ne']
  have hstill : s • e = 0 := by simpa using hext hx hy hseg
  exact hne ((smul_eq_zero.mp hstill).resolve_left hs0.ne')

theorem extremePoints_common : (common hs).extremePoints ℝ = {p | IsCorner hs p} :=
  Set.ext fun _ => ⟨isCorner_of_mem_extremePoints, IsCorner.mem_extremePoints⟩

end HalfPlane

end PlanarLP
