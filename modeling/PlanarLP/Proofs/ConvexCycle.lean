import Mathlib.Algebra.BigOperators.Group.List.Lemmas
import Mathlib.Algebra.Order.BigOperators.Group.Finset
import Mathlib.Analysis.Convex.Combination
import Mathlib.Tactic.Module
import PlanarLP.Proofs.Angles

/-! Extreme points in order of angle about their mean. Three or more of them are the corners of
a strictly convex polygon, one edge from each to the next (`AngularCycle.left_of_edge`), and a
point to the left of all edges lies in their convex hull (`AngularCycle.mem_of_left`). The mean
is no extreme point and the sum of the vectors to it is zero; no more is needed to keep every
turn below a half turn. -/

namespace PlanarLP

open Real

/-! ## Means and extreme points -/

section Means

variable {F : Set (Vec ℝ)} {p : Vec ℝ}

theorem exists_mean (hF : Convex ℝ F) : ∀ ps : List (Vec ℝ), ps ≠ [] → (∀ p ∈ ps, p ∈ F) →
    ∃ q ∈ F, ps.sum = (ps.length : ℝ) • q
  | [], hne, _ => absurd rfl hne
  | [p], _, hps => ⟨p, hps p List.mem_cons_self, by simp⟩
  | p :: q :: ps, _, hps => by
    obtain ⟨m, hm, hsum⟩ := exists_mean hF (q :: ps) (List.cons_ne_nil q ps)
      fun r hr => hps r (List.mem_cons_of_mem p hr)
    have hn : (0 : ℝ) < (q :: ps).length + 1 := by positivity
    refine ⟨(1 / ((q :: ps).length + 1 : ℝ)) • p +
      ((q :: ps).length / ((q :: ps).length + 1 : ℝ)) • m,
      hF (hps p List.mem_cons_self) hm (by positivity) (by positivity) (by field_simp; ring), ?_⟩
    rw [List.sum_cons, hsum, List.length_cons (a := p), Nat.cast_add, Nat.cast_one, smul_add,
      smul_smul, smul_smul, mul_one_div_cancel hn.ne', one_smul, mul_div_cancel₀ _ hn.ne']

/-- An extreme point is the mean of copies of itself only. -/
theorem eq_of_mean_extreme (hF : Convex ℝ F) (hp : p ∈ F.extremePoints ℝ) :
    ∀ ps : List (Vec ℝ), (∀ q ∈ ps, q ∈ F) → ps.sum = (ps.length : ℝ) • p → ∀ q ∈ ps, q = p
  | [], _, _ => fun q hq => by cases hq
  | [r], _, hsum => fun q hq => by
    rw [List.mem_singleton.mp hq]
    simpa using hsum
  | r :: s :: ps, hps, hsum => by
    have hrest : ∀ q ∈ s :: ps, q ∈ F := fun q hq => hps q (List.mem_cons_of_mem r hq)
    obtain ⟨m, hm, hmean⟩ := exists_mean hF (s :: ps) (List.cons_ne_nil s ps) hrest
    rw [List.sum_cons, hmean, List.length_cons (a := r), Nat.cast_add, Nat.cast_one] at hsum
    have hn : (0 : ℝ) < (s :: ps).length := Nat.cast_pos.mpr (by simp)
    have hseg : p ∈ openSegment ℝ r m := by
      refine ⟨1 / ((s :: ps).length + 1 : ℝ), (s :: ps).length / ((s :: ps).length + 1 : ℝ),
        by positivity, by positivity, by field_simp; ring, ?_⟩
      rw [one_div, div_eq_inv_mul, ← smul_smul, ← smul_add, hsum, smul_smul,
        inv_mul_cancel₀ (by positivity), one_smul]
    obtain ⟨hr, hmp⟩ := (mem_extremePoints.mp hp).2 r (hps r List.mem_cons_self) m hm hseg
    intro q hq
    rcases List.mem_cons.mp hq with rfl | hq
    · exact hr
    · exact eq_of_mean_extreme hF hp (s :: ps) hrest (hmp ▸ hmean) q hq

theorem mem_of_mixture (hF : Convex ℝ F) {x y z : Vec ℝ} (hx : x ∈ F) (hy : y ∈ F) (hz : z ∈ F)
    {r s t : ℝ} (hr : 0 ≤ r) (hs : 0 ≤ s) (ht : 0 ≤ t) (hrst : r + s + t = 1) :
    r • x + s • y + t • z ∈ F := by
  have hsum := hF.sum_mem (t := Finset.univ) (w := ![r, s, t]) (z := ![x, y, z])
    (by simp [Fin.forall_fin_succ, hr, hs, ht]) (by simpa [Fin.sum_univ_three] using hrst)
    (by simp [Fin.forall_fin_succ, hx, hy, hz])
  simpa [Fin.sum_univ_three] using hsum

/-- Coordinates about `c` as weights of a mixture with `c`. -/
theorem eq_mixture {a b c : Vec ℝ} {d s t : ℝ} (hd : d ≠ 0)
    (h : d • (p - c) = s • (a - c) + t • (b - c)) :
    (s / d) • a + (t / d) • b + ((d - s - t) / d) • c = p := by
  have hp : p - c = d⁻¹ • (s • (a - c) + t • (b - c)) := (eq_inv_smul_iff₀ hd).mpr h
  rw [← sub_add_cancel p c, hp]
  match_scalars
  · field_simp
  · field_simp
  · field_simp
    ring

/-- An extreme point is no proper mixture of three points. -/
theorem eq_of_mixture_extreme (hF : Convex ℝ F) (hp : p ∈ F.extremePoints ℝ) {x y z : Vec ℝ}
    (hx : x ∈ F) (hy : y ∈ F) (hz : z ∈ F) {r s t : ℝ} (hr : 0 < r) (hs : 0 ≤ s) (ht : 0 ≤ t)
    (hrst : r + s + t = 1) (hsum : r • x + s • y + t • z = p) : x = p := by
  rcases (add_nonneg hs ht).eq_or_lt with h0 | hpos
  · have hs0 : s = 0 := by linarith
    have ht0 : t = 0 := by linarith
    have hr1 : r = 1 := by linarith
    rw [hs0, ht0, hr1, zero_smul, zero_smul, one_smul, add_zero, add_zero] at hsum
    exact hsum
  · have hmem : (s / (s + t)) • y + (t / (s + t)) • z ∈ F :=
      hF hy hz (by positivity) (by positivity) (by rw [← add_div, div_self hpos.ne'])
    refine hp.2 hx hmem ⟨r, s + t, hr, hpos, by linarith, ?_⟩
    rw [smul_add, smul_smul, smul_smul, mul_div_cancel₀ _ hpos.ne', mul_div_cancel₀ _ hpos.ne',
      ← add_assoc, hsum]

end Means

/-! ## Edges of a cycle -/

/-- Every member with the next one, the last with the first. -/
def edges {β : Type} (l : List β) : List (β × β) := l.zip (l.rotate 1)

theorem mem_edges_iff {β : Type} {l : List β} {a b : β} :
    (a, b) ∈ edges l ↔ ∃ i : Nat, l[i]? = some a ∧ l[(i + 1) % l.length]? = some b := by
  rw [edges, List.mem_iff_getElem?]
  refine exists_congr fun i => ?_
  rw [List.getElem?_zip_eq_some]
  refine and_congr_right fun ha => ?_
  obtain ⟨hi, -⟩ := List.getElem?_eq_some_iff.mp ha
  rw [List.getElem?_rotate hi]

/-- The two ends of an edge stand side by side, or are the last and the first member. -/
theorem mem_edges {β : Type} {l : List β} {a b : β} (h : (a, b) ∈ edges l) :
    (∃ front back, l = front ++ a :: b :: back) ∨
      ∃ front back, l = front ++ [a] ∧ l = b :: back := by
  have hzip : ∀ (l : List β) (x z : β), (a, b) ∈ (x :: l).zip (l ++ [z]) →
      (∃ front back, x :: l = front ++ a :: b :: back) ∨
        ∃ front, x :: l = front ++ [a] ∧ z = b := by
    intro l
    induction l with
    | nil =>
      intro x z hm
      obtain ⟨rfl, rfl⟩ := Prod.mk.inj (List.mem_singleton.mp hm)
      exact .inr ⟨[], rfl, rfl⟩
    | cons y l ih =>
      intro x z hm
      rcases List.mem_cons.mp hm with he | hm
      · obtain ⟨rfl, rfl⟩ := Prod.mk.inj he
        exact .inl ⟨[], l, rfl⟩
      · rcases ih y z hm with ⟨front, back, hl⟩ | ⟨front, hl, hz⟩
        · exact .inl ⟨x :: front, back, by rw [hl, List.cons_append]⟩
        · exact .inr ⟨x :: front, by rw [hl, List.cons_append], hz⟩
  cases l with
  | nil => cases h
  | cons x l =>
    rw [edges, List.rotate_cons_succ, List.rotate_zero] at h
    rcases hzip l x x h with hl | ⟨front, hl, rfl⟩
    · exact .inl hl
    · exact .inr ⟨front, l, hl, rfl⟩

theorem mem_of_mem_edges {β : Type} {l : List β} {e : β × β} (h : e ∈ edges l) :
    e.1 ∈ l ∧ e.2 ∈ l := by
  obtain ⟨h₁, h₂⟩ := List.of_mem_zip h
  exact ⟨h₁, List.mem_rotate.mp h₂⟩

/-- What holds of one member and passes along every edge holds of all. -/
theorem forall_of_edges {β : Type} {l : List β} {P : β → Prop} (hP : ∃ a ∈ l, P a)
    (hstep : ∀ e ∈ edges l, P e.1 → P e.2) : ∀ b ∈ l, P b := by
  -- once around to the first member, then along the list
  have hlast : ∀ (l : List β) (x z : β), (∀ e ∈ (x :: l).zip (l ++ [z]), P e.1 → P e.2) →
      (∃ a ∈ x :: l, P a) → P z := by
    intro l
    induction l with
    | nil =>
      rintro x z hs ⟨a, ha, hPa⟩
      rw [List.mem_singleton.mp ha] at hPa
      exact hs (x, z) List.mem_cons_self hPa
    | cons y l ih =>
      rintro x z hs ⟨a, ha, hPa⟩
      refine ih y z (fun e he => hs e (List.mem_cons_of_mem _ he)) ?_
      rcases List.mem_cons.mp ha with rfl | ha
      · exact ⟨y, List.mem_cons_self, hs (a, y) List.mem_cons_self hPa⟩
      · exact ⟨a, ha, hPa⟩
  have hrun : ∀ (l : List β) (x z : β), (∀ e ∈ (x :: l).zip (l ++ [z]), P e.1 → P e.2) →
      P x → ∀ b ∈ x :: l, P b := by
    intro l
    induction l with
    | nil => exact fun x z _ hx b hb => List.mem_singleton.mp hb ▸ hx
    | cons y l ih =>
      intro x z hs hx b hb
      rcases List.mem_cons.mp hb with rfl | hb
      · exact hx
      · exact ih y z (fun e he => hs e (List.mem_cons_of_mem _ he))
          (hs (x, y) List.mem_cons_self hx) b hb
  cases l with
  | nil => exact fun b hb => by cases hb
  | cons x l =>
    rw [edges, List.rotate_cons_succ, List.rotate_zero] at hstep
    exact hrun l x x hstep (hlast l x x hstep hP)

/-! ## Points around their mean -/

/-- Three or more extreme points of a convex set, in order of angle about their mean. -/
structure AngularCycle (F : Set (Vec ℝ)) (c : Vec ℝ) (ps : List (Vec ℝ)) : Prop where
  convex : Convex ℝ F
  extreme : ∀ p ∈ ps, p ∈ F.extremePoints ℝ
  nodup : ps.Nodup
  three : 3 ≤ ps.length
  mean : ps.sum = (ps.length : ℝ) • c
  sorted : ps.Pairwise fun p q => (p - c).angle ≤ (q - c).angle

/-- The signed areas that points span with `u` about their mean cancel. -/
theorem sum_cross (u c : Vec ℝ) (ps : List (Vec ℝ)) :
    (ps.map fun p => u.cross (p - c)).sum = u.cross (ps.sum - (ps.length : ℝ) • c) := by
  induction ps with
  | nil => simp [Vec.cross_eq]
  | cons p ps ih =>
    rw [List.map_cons, List.sum_cons, ih, List.sum_cons, List.length_cons]
    simp only [Vec.cross_eq, Vec.sub_x, Vec.sub_y, Vec.add_x, Vec.add_y, Vec.smul_x, Vec.smul_y]
    push_cast
    ring

namespace AngularCycle

variable {F : Set (Vec ℝ)} {c a b p q w : Vec ℝ} {ps : List (Vec ℝ)}

theorem mem (h : AngularCycle F c ps) (hp : p ∈ ps) : p ∈ F := (h.extreme p hp).1

theorem center_mem_of_convex (h : AngularCycle F c ps) {R : Set (Vec ℝ)} (hR : Convex ℝ R)
    (hps : ∀ p ∈ ps, p ∈ R) : c ∈ R := by
  have hpos : 0 < ps.length := by have := h.three; omega
  obtain ⟨m, hm, hsum⟩ := exists_mean hR ps (List.length_pos_iff.mp hpos) hps
  rw [h.mean] at hsum
  exact smul_right_injective _ (Nat.cast_pos.mpr hpos).ne' hsum ▸ hm

theorem center_mem (h : AngularCycle F c ps) : c ∈ F :=
  h.center_mem_of_convex h.convex fun _ hp => h.mem hp

theorem sub_center_ne_zero (h : AngularCycle F c ps) (hp : p ∈ ps) : p - c ≠ 0 := by
  intro h0
  obtain rfl : p = c := sub_eq_zero.mp h0
  have hall := eq_of_mean_extreme h.convex (h.extreme p hp) ps (fun q hq => h.mem hq) h.mean
  have hrep : ps = List.replicate ps.length p := List.eq_replicate_of_mem hall
  have hone := List.nodup_replicate.mp (hrep ▸ h.nodup)
  have := h.three
  omega

/-- No two of the points lie on one ray from the mean. -/
theorem eq_of_ray (h : AngularCycle F c ps) (hp : p ∈ ps) (hq : q ∈ ps) {s : ℝ} (hs : 0 < s)
    (hray : q - c = s • (p - c)) : p = q := by
  have hnear : ∀ {p q : Vec ℝ} {s : ℝ}, p ∈ ps → q ∈ ps → 0 < s → s < 1 →
      q - c = s • (p - c) → False := by
    intro p q s hp hq hs hs1 hray
    have hseg : q ∈ openSegment ℝ c p := by
      refine ⟨1 - s, s, by linarith, hs, by ring, ?_⟩
      rw [← sub_add_cancel q c, hray, sub_smul, one_smul, smul_sub]
      abel
    have hcq := (h.extreme q hq).2 h.center_mem (h.mem hp) hseg
    exact h.sub_center_ne_zero hq (sub_eq_zero.mpr hcq.symm)
  rcases lt_trichotomy s 1 with hlt | rfl | hgt
  · exact (hnear hp hq hs hlt hray).elim
  · rw [one_smul] at hray
    exact (sub_left_injective hray).symm
  · have hback : p - c = s⁻¹ • (q - c) := by
      rw [hray, smul_smul, inv_mul_cancel₀ hs.ne', one_smul]
    exact (hnear hq hp (inv_pos.mpr hs) (inv_lt_one_of_one_lt₀ hgt) hback).elim

theorem eq_of_angle (h : AngularCycle F c ps) (hp : p ∈ ps) (hq : q ∈ ps)
    (hangle : (p - c).angle = (q - c).angle) : p = q :=
  h.eq_of_ray hp hq (div_pos (Vec.norm_pos (h.sub_center_ne_zero hq))
    (Vec.norm_pos (h.sub_center_ne_zero hp)))
    (Vec.eq_smul_of_angle_eq (h.sub_center_ne_zero hp) hangle)

theorem angle_lt (h : AngularCycle F c ps) (hp : p ∈ ps) (hq : q ∈ ps) (hne : p ≠ q)
    (hle : (p - c).angle ≤ (q - c).angle) : (p - c).angle < (q - c).angle :=
  lt_of_le_of_ne hle fun heq => hne (h.eq_of_angle hp hq heq)

theorem dot_ne_zero_of_line (h : AngularCycle F c ps) {u : Vec ℝ} (hu : u ≠ 0) (hp : p ∈ ps)
    (hline : u.cross (p - c) = 0) : u.dot (p - c) ≠ 0 := by
  intro h0
  refine h.sub_center_ne_zero hp ?_
  rw [Vec.eq_smul_of_cross_eq_zero hu hline, h0, zero_div, zero_smul]

/-- Two points on a line through the mean lie on either side of the mean. -/
theorem dot_mul_neg_of_line (h : AngularCycle F c ps) {u : Vec ℝ} (hu : u ≠ 0) (hp : p ∈ ps)
    (hq : q ∈ ps) (hne : p ≠ q) (hpline : u.cross (p - c) = 0) (hqline : u.cross (q - c) = 0) :
    u.dot (p - c) * u.dot (q - c) < 0 := by
  have hp0 := h.dot_ne_zero_of_line hu hp hpline
  have hq0 := h.dot_ne_zero_of_line hu hq hqline
  refine lt_of_le_of_ne (not_lt.mp fun hpos => hne ?_) (mul_ne_zero hp0 hq0)
  have hratio : 0 < u.dot (q - c) / u.dot (p - c) := by
    rw [← mul_div_mul_left _ _ hp0]
    exact div_pos hpos (mul_self_pos.mpr hp0)
  refine h.eq_of_ray hp hq hratio ?_
  calc q - c = (u.dot (q - c) / u.dot u) • u := Vec.eq_smul_of_cross_eq_zero hu hqline
    _ = (u.dot (q - c) / u.dot (p - c)) • (u.dot (p - c) / u.dot u) • u := by
        rw [smul_smul, div_mul_div_cancel₀ hp0]
    _ = (u.dot (q - c) / u.dot (p - c)) • (p - c) := by
        rw [← Vec.eq_smul_of_cross_eq_zero hu hpline]

/-- No line through the mean holds all of the points: no three numbers have pairwise different
signs. -/
theorem exists_off_line (h : AngularCycle F c ps) {u : Vec ℝ} (hu : u ≠ 0) :
    ∃ p ∈ ps, u.cross (p - c) ≠ 0 := by
  by_contra hall
  push Not at hall
  have hopposite : ∀ p ∈ ps, ∀ q ∈ ps, p ≠ q → u.dot (p - c) * u.dot (q - c) < 0 :=
    fun p hp q hq hne => h.dot_mul_neg_of_line hu hp hq hne (hall p hp) (hall q hq)
  obtain ⟨p, q, r, rest, rfl⟩ : ∃ p q r rest, ps = p :: q :: r :: rest := by
    match ps, h.three with
    | p :: q :: r :: rest, _ => exact ⟨p, q, r, rest, rfl⟩
  have hnodup := h.nodup
  simp only [List.nodup_cons, List.mem_cons, not_or] at hnodup
  obtain ⟨⟨hpq, hpr, -⟩, ⟨hqr, -⟩, -⟩ := hnodup
  have h₁ := hopposite p (by simp) q (by simp) hpq
  have h₂ := hopposite p (by simp) r (by simp) hpr
  have h₃ := hopposite q (by simp) r (by simp) hqr
  nlinarith [mul_pos_of_neg_of_neg h₁ h₂, mul_self_nonneg (u.dot (p - c))]

/-- Around the mean the points lie on both sides of every line. -/
theorem exists_both_sides (h : AngularCycle F c ps) {u : Vec ℝ} (hu : u ≠ 0) :
    (∃ p ∈ ps, 0 < u.cross (p - c)) ∧ ∃ p ∈ ps, u.cross (p - c) < 0 := by
  classical
  have hzero : ∑ p ∈ ps.toFinset, u.cross (p - c) = 0 := by
    rw [List.sum_toFinset _ h.nodup, sum_cross, h.mean, sub_self, Vec.cross_zero]
  obtain ⟨p, hp, hne⟩ := h.exists_off_line hu
  have hmem : p ∈ ps.toFinset := List.mem_toFinset.mpr hp
  constructor
  · obtain ⟨q, hq, hpos⟩ := Finset.exists_pos_of_sum_zero_of_exists_nonzero _ hzero ⟨p, hmem, hne⟩
    exact ⟨q, List.mem_toFinset.mp hq, hpos⟩
  · obtain ⟨q, hq, hpos⟩ := Finset.exists_pos_of_sum_zero_of_exists_nonzero
      (fun p => -u.cross (p - c)) (by rw [Finset.sum_neg_distrib, hzero, neg_zero])
      ⟨p, hmem, neg_ne_zero.mpr hne⟩
    exact ⟨q, List.mem_toFinset.mp hq, neg_pos.mp hpos⟩

/-! ## From one point to the next -/

/-- Between neighbours in the list: a point before `a` is reached after a full turn, one after
`b` later than `b`. -/
theorem turn_le_of_neighbours (h : AngularCycle F c ps) {front back : List (Vec ℝ)}
    (hl : ps = front ++ a :: b :: back) (hw : w ∈ ps) (hne : w ≠ a) :
    (a - c).turn (b - c) ≤ (a - c).turn (w - c) := by
  have ha : a ∈ ps := by simp [hl]
  have hsorted := h.sorted
  rw [hl, List.pairwise_append, List.pairwise_cons, List.pairwise_cons] at hsorted
  obtain ⟨-, ⟨hab, hback, -⟩, hfront⟩ := hsorted
  have hle := hab b List.mem_cons_self
  have hmem := hw
  rw [hl, List.mem_append] at hmem
  unfold Vec.turn
  rw [if_pos hle]
  rcases hmem with hmem | hmem
  · have hwa := h.angle_lt hw ha hne (hfront w hmem a List.mem_cons_self)
    rw [if_neg (not_le.mpr hwa)]
    linarith [(w - c).angle_bounds, (b - c).angle_bounds]
  · have hbw : (b - c).angle ≤ (w - c).angle := by
      rcases List.mem_cons.mp ((List.mem_cons.mp hmem).resolve_left hne) with rfl | hmem
      · exact le_rfl
      · exact hback w hmem
    rw [if_pos (hle.trans hbw)]
    linarith

/-- From the last point to the first: every other point lies between them. -/
theorem turn_le_of_ends (h : AngularCycle F c ps) {front back : List (Vec ℝ)}
    (hlast : ps = front ++ [a]) (hfirst : ps = b :: back) (hw : w ∈ ps) (hne : w ≠ a) :
    (a - c).turn (b - c) ≤ (a - c).turn (w - c) := by
  have hbw : (b - c).angle ≤ (w - c).angle := by
    have hsorted := h.sorted
    rw [hfirst, List.pairwise_cons] at hsorted
    rw [hfirst] at hw
    rcases List.mem_cons.mp hw with rfl | hw
    · exact le_rfl
    · exact hsorted.1 w hw
  have hwa : (w - c).angle < (a - c).angle := by
    refine h.angle_lt hw (by simp [hlast]) hne ?_
    have hsorted := h.sorted
    rw [hlast, List.pairwise_append] at hsorted
    rw [hlast, List.mem_append, List.mem_singleton] at hw
    exact hsorted.2.2 w (hw.resolve_right hne) a (List.mem_singleton_self a)
  unfold Vec.turn
  rw [if_neg (not_le.mpr (hbw.trans_lt hwa)), if_neg (not_le.mpr hwa)]
  linarith

/-- The second end of an edge is the first point reached by turning from the first end. -/
theorem turn_le_of_edge (h : AngularCycle F c ps) (he : (a, b) ∈ edges ps) (hw : w ∈ ps)
    (hne : w ≠ a) : (a - c).turn (b - c) ≤ (a - c).turn (w - c) := by
  rcases mem_edges he with ⟨front, back, hl⟩ | ⟨front, back, hlast, hfirst⟩
  · exact h.turn_le_of_neighbours hl hw hne
  · exact h.turn_le_of_ends hlast hfirst hw hne

theorem ne_of_edge (h : AngularCycle F c ps) (he : (a, b) ∈ edges ps) : a ≠ b := by
  rintro rfl
  have hnodup := h.nodup
  rcases mem_edges he with ⟨front, back, hl⟩ | ⟨front, back, hlast, hfirst⟩
  · rw [hl, List.nodup_append] at hnodup
    exact (List.nodup_cons.mp hnodup.2.1).1 List.mem_cons_self
  · have hthree := h.three
    cases front with
    | nil => rw [hlast] at hthree; simp at hthree
    | cons x front =>
      rw [hfirst] at hlast
      obtain ⟨rfl, hback⟩ := List.cons.inj hlast
      rw [hfirst, List.nodup_cons, hback] at hnodup
      exact hnodup.1 (List.mem_append_right _ (List.mem_singleton_self _))

theorem norms_pos (h : AngularCycle F c ps) (hp : p ∈ ps) (hq : q ∈ ps) :
    0 < (p - c).norm * (q - c).norm :=
  mul_pos (Vec.norm_pos (h.sub_center_ne_zero hp)) (Vec.norm_pos (h.sub_center_ne_zero hq))

theorem turn_pos_of_edge (h : AngularCycle F c ps) (he : (a, b) ∈ edges ps) :
    0 < (a - c).turn (b - c) := by
  obtain ⟨ha, hb⟩ := mem_of_mem_edges he
  refine lt_of_le_of_ne (Vec.turn_nonneg _ _) fun h0 => h.ne_of_edge he ?_
  rw [← Vec.turn_self (a - c)] at h0
  exact h.eq_of_angle ha hb (Vec.angle_eq_of_turn_eq h0)

/-- **Every turn is less than a half turn**: otherwise all points would lie on one side of the
line through the first end and the mean. -/
theorem cross_pos_of_edge (h : AngularCycle F c ps) (he : (a, b) ∈ edges ps) :
    0 < (a - c).cross (b - c) := by
  obtain ⟨ha, hb⟩ := mem_of_mem_edges he
  obtain ⟨⟨w, hw, hpos⟩, -⟩ := h.exists_both_sides (h.sub_center_ne_zero ha)
  have hwa : w ≠ a := by
    rintro rfl
    rw [Vec.cross_self] at hpos
    exact lt_irrefl _ hpos
  rw [Vec.cross_eq_turn] at hpos ⊢
  have hsin : 0 < sin ((a - c).turn (w - c)) := pos_of_mul_pos_right hpos (h.norms_pos ha hw).le
  have hlt : (a - c).turn (w - c) < π := by
    refine lt_of_le_of_ne (Vec.turn_le_pi hsin.le) fun hpi => ?_
    rw [hpi, sin_pi] at hsin
    exact lt_irrefl _ hsin
  exact mul_pos (h.norms_pos ha hb) (sin_pos_of_pos_of_lt_pi (h.turn_pos_of_edge he)
    ((h.turn_le_of_edge he hw hwa).trans_lt hlt))

/-- The sector of an edge holds no further point. -/
theorem cross_neg_of_sector (h : AngularCycle F c ps) (he : (a, b) ∈ edges ps) (hw : w ∈ ps)
    (hwa : w ≠ a) (hwb : w ≠ b) (hleft : 0 ≤ (a - c).cross (w - c)) :
    (w - c).cross (b - c) < 0 := by
  obtain ⟨ha, hb⟩ := mem_of_mem_edges he
  rw [Vec.cross_eq_turn] at hleft
  have hpi := Vec.turn_le_pi (nonneg_of_mul_nonneg_right hleft (h.norms_pos ha hw))
  have hlt : (a - c).turn (b - c) < (a - c).turn (w - c) :=
    lt_of_le_of_ne (h.turn_le_of_edge he hw hwa) fun heq =>
      hwb (h.eq_of_angle hb hw (Vec.angle_eq_of_turn_eq heq)).symm
  have hsin := sin_pos_of_pos_of_lt_pi (sub_pos.mpr hlt)
    (by linarith [h.turn_pos_of_edge he])
  rw [Vec.cross_swap, Vec.cross_eq_sin_turn (a - c)]
  exact neg_neg_of_pos (mul_pos (h.norms_pos hb hw) hsin)

/-! ## The polygon -/

/-- No point of the set lies beyond an extreme point as seen from the mean. -/
theorem eq_of_beyond (h : AngularCycle F c ps) (hb : b ∈ ps) (hw : w ∈ F) (ha : a ∈ F)
    {d s t : ℝ} (hd : 0 < d) (hs : s ≤ 0) (hst : d ≤ s + t)
    (heq : d • (w - c) = s • (a - c) + t • (b - c)) : w = b := by
  have ht : 0 < t := by linarith
  have hb' : t • (b - c) = d • (w - c) + (-s) • (a - c) := by
    rw [heq, neg_smul]
    abel
  exact eq_of_mixture_extreme h.convex (h.extreme b hb) hw ha h.center_mem (div_pos hd ht)
    (div_nonneg (neg_nonneg.mpr hs) ht.le) (div_nonneg (by linarith) ht.le)
    (by field_simp; ring) (eq_mixture ht.ne' hb')

/-- **Every other point lies strictly to the left of an edge.** -/
theorem left_of_edge (h : AngularCycle F c ps) (he : (a, b) ∈ edges ps) (hw : w ∈ ps)
    (hwa : w ≠ a) (hwb : w ≠ b) : 0 < (b - a).cross (w - a) := by
  obtain ⟨ha, hb⟩ := mem_of_mem_edges he
  have hd := h.cross_pos_of_edge he
  have hcoord := Vec.cross_smul_eq (a - c) (b - c) (w - c)
  rw [Vec.cross_edge a b c w]
  by_contra hle
  rcases le_or_gt 0 ((a - c).cross (w - c)) with ht | ht
  · have hs := h.cross_neg_of_sector he hw hwa hwb ht
    exact hwb (h.eq_of_beyond hb (h.mem hw) (h.mem ha) hd hs.le (by linarith) hcoord)
  · rw [add_comm] at hcoord
    exact hwa (h.eq_of_beyond ha (h.mem hw) (h.mem hb) hd ht.le (by linarith) hcoord)

/-- A point to the left of all edges is a mixture of the ends of one of them and the mean. -/
theorem mem_of_left (h : AngularCycle F c ps) {R : Set (Vec ℝ)} (hR : Convex ℝ R)
    (hps : ∀ q ∈ ps, q ∈ R) (hp : ∀ e ∈ edges ps, 0 ≤ (e.2 - e.1).cross (p - e.1)) : p ∈ R := by
  have hc := h.center_mem_of_convex hR hps
  by_cases hpc : p - c = 0
  · rwa [sub_eq_zero.mp hpc]
  obtain ⟨⟨q, hq, hqpos⟩, r, hr, hrneg⟩ := h.exists_both_sides hpc
  -- going around, the points pass from the right of the line to its left along some edge
  obtain ⟨⟨a, b⟩, he, hra, hlb⟩ : ∃ e ∈ edges ps, (p - c).cross (e.1 - c) ≤ 0 ∧
      0 < (p - c).cross (e.2 - c) := by
    by_contra hnone
    push Not at hnone
    have hall := forall_of_edges (P := fun q => (p - c).cross (q - c) ≤ 0) ⟨r, hr, hrneg.le⟩ hnone
    exact absurd (hall q hq) (not_le.mpr hqpos)
  obtain ⟨ha, hb⟩ := mem_of_mem_edges he
  have hd := h.cross_pos_of_edge he
  have hleft := hp _ he
  rw [Vec.cross_edge a b c p] at hleft
  rw [Vec.cross_swap, neg_nonpos] at hra
  rw [← eq_mixture hd.ne' (Vec.cross_smul_eq (a - c) (b - c) (p - c))]
  refine mem_of_mixture hR (hps a ha) (hps b hb) hc (div_nonneg hlb.le hd.le)
    (div_nonneg hra hd.le) (div_nonneg ?_ hd.le) ?_
  · linarith
  · field_simp
    ring

end AngularCycle

end PlanarLP
