import Mathlib.Order.Filter.AtTopBot.Field
import PlanarLP.Objective
import PlanarLP.Proofs.Representation

/-! Objectives in exact arithmetic. Along a direction the value changes at a constant rate, and
the points where it is no better than a given value form a half-plane; so the rates along the
open directions and the values at the candidates decide the value over the whole region
(`generated_bound`). -/

namespace PlanarLP

open Filter

/-! ## What is said of an objective over a set of points -/

namespace Objective

/-- `v` is the best value over `F`, and it is attained. -/
def IsBest (f : Objective ℝ) (F : Set (Vec ℝ)) (v : ℝ) : Prop :=
  match f.sense with
  | .maximize => IsGreatest (f.valueAt '' F) v
  | .minimize => IsLeast (f.valueAt '' F) v

/-- Every value is bettered somewhere in `F`. -/
def IsUnbounded (f : Objective ℝ) (F : Set (Vec ℝ)) : Prop :=
  match f.sense with
  | .maximize => ¬BddAbove (f.valueAt '' F)
  | .minimize => ¬BddBelow (f.valueAt '' F)

/-- The value improves all the way from `p` along `d`, and past every bound. -/
def ImprovesAlong (f : Objective ℝ) (d p : Vec ℝ) : Prop :=
  match f.sense with
  | .maximize => StrictMono (fun t : ℝ => f.valueAt (p + t • d)) ∧
      Tendsto (fun t : ℝ => f.valueAt (p + t • d)) atTop atTop
  | .minimize => StrictAnti (fun t : ℝ => f.valueAt (p + t • d)) ∧
      Tendsto (fun t : ℝ => f.valueAt (p + t • d)) atTop atBot

/-- The value gets better along `d`. -/
def Improves (f : Objective ℝ) (d : Vec ℝ) : Prop := ¬f.sense.bound.Holds (f.gradient.dot d) 0

variable {f : Objective ℝ} {F : Set (Vec ℝ)} {p d : Vec ℝ}

theorem valueAt_eq (f : Objective ℝ) (p : Vec ℝ) :
    f.valueAt p = f.gradient.dot p + f.offset := rfl

theorem valueAt_along (f : Objective ℝ) (p d : Vec ℝ) (t : ℝ) :
    f.valueAt (p + t • d) = f.valueAt p + t * f.gradient.dot d := by
  rw [valueAt_eq, valueAt_eq, HalfPlane.dot_along]
  ring

theorem improvesAlong_of_improves (hd : f.Improves d) (p : Vec ℝ) : f.ImprovesAlong d p := by
  unfold Improves Sense.bound at hd
  unfold ImprovesAlong
  simp only [valueAt_along]
  cases hs : f.sense with
  | maximize =>
    rw [hs] at hd
    have hpos : 0 < f.gradient.dot d := not_le.mp hd
    refine ⟨fun s t hst => ?_, tendsto_atTop_add_const_left _ _
      (tendsto_id.atTop_mul_const hpos)⟩
    have := mul_lt_mul_of_pos_right hst hpos
    dsimp only
    linarith
  | minimize =>
    rw [hs] at hd
    have hneg : f.gradient.dot d < 0 := not_le.mp hd
    refine ⟨fun s t hst => ?_, tendsto_atBot_add_const_left _ _
      (tendsto_id.atTop_mul_const_of_neg hneg)⟩
    have := mul_lt_mul_of_neg_right hst hneg
    dsimp only
    linarith

/-- A ray inside `F` along which the value improves. -/
theorem isUnbounded_of_improves (hd : f.Improves d) (hray : ∀ t : ℝ, 0 ≤ t → p + t • d ∈ F) :
    f.IsUnbounded F := by
  have himp := improvesAlong_of_improves hd p
  unfold ImprovesAlong at himp
  unfold IsUnbounded
  cases hs : f.sense with
  | maximize =>
    rw [hs] at himp
    rintro ⟨b, hb⟩
    obtain ⟨t, ht, hlt⟩ := ((eventually_ge_atTop 0).and
      (himp.2.eventually (eventually_gt_atTop b))).exists
    exact absurd (hb (Set.mem_image_of_mem _ (hray t ht))) (not_le.mpr hlt)
  | minimize =>
    rw [hs] at himp
    rintro ⟨b, hb⟩
    obtain ⟨t, ht, hlt⟩ := ((eventually_ge_atTop 0).and
      (himp.2.eventually (eventually_lt_atBot b))).exists
    exact absurd (hb (Set.mem_image_of_mem _ (hray t ht))) (not_le.mpr hlt)

theorem IsBest.not_isUnbounded {v : ℝ} (h : f.IsBest F v) : ¬f.IsUnbounded F := by
  unfold IsBest at h
  unfold IsUnbounded
  cases hs : f.sense with
  | maximize => rw [hs] at h; exact not_not.mpr ⟨v, h.2⟩
  | minimize => rw [hs] at h; exact not_not.mpr ⟨v, h.2⟩

theorem isBest_of_bound {v : ℝ} (hp : p ∈ F) (hv : f.valueAt p = v)
    (hF : ∀ q ∈ F, f.sense.bound.Holds (f.valueAt q) v) : f.IsBest F v := by
  unfold Sense.bound at hF
  unfold IsBest
  cases hs : f.sense with
  | maximize =>
    rw [hs] at hF
    exact ⟨⟨p, hp, hv⟩, Set.forall_mem_image.mpr hF⟩
  | minimize =>
    rw [hs] at hF
    exact ⟨⟨p, hp, hv⟩, Set.forall_mem_image.mpr hF⟩

/-! ## The bound set of an objective -/

/-- The points whose value is no better than `v`. -/
noncomputable def noBetter (f : Objective ℝ) (v : ℝ) : HalfPlane :=
  match f.sense with
  | .maximize => ⟨f.gradient, v - f.offset⟩
  | .minimize => ⟨-f.gradient, f.offset - v⟩

theorem noBetter_contains {v : ℝ} :
    (f.noBetter v).Contains p ↔ f.sense.bound.Holds (f.valueAt p) v := by
  unfold noBetter HalfPlane.Contains
  rw [valueAt_eq]
  cases f.sense with
  | maximize => exact le_sub_iff_add_le
  | minimize =>
    change (-f.gradient).dot p ≤ f.offset - v ↔ v ≤ f.gradient.dot p + f.offset
    rw [Vec.neg_dot]
    constructor <;> intro h <;> linarith

theorem noBetter_recedes {v : ℝ} : (f.noBetter v).normal.dot d ≤ 0 ↔ ¬f.Improves d := by
  unfold Improves noBetter
  rw [not_not]
  cases f.sense with
  | maximize => exact Iff.rfl
  | minimize =>
    change (-f.gradient).dot d ≤ 0 ↔ 0 ≤ f.gradient.dot d
    rw [Vec.neg_dot, neg_nonpos]

end Objective

/-- Half-planes that contain the candidates and that no open direction leaves contain the
region. -/
theorem generated_subset_common {r : Region ℝ} {hs : List HalfPlane}
    (hv : ∀ v ∈ r.candidates, v.position ∈ HalfPlane.common hs)
    (hd : ∀ d ∈ r.openDirections, d ∈ HalfPlane.recession hs) :
    r.generated ⊆ HalfPlane.common hs := by
  rintro _ ⟨q, hq, d, hdir, rfl⟩
  refine HalfPlane.common_add_recession
    (convexHull_min (fun p hp => ?_) (HalfPlane.convex_common hs) hq) ?_
  · obtain ⟨v, hmem, rfl⟩ := List.mem_map.mp hp
    exact hv v hmem
  · exact (Submodule.span_le (p := HalfPlane.recessionCone hs)).mpr hd hdir

/-- A bound on the candidates holds over the region when no open direction improves. -/
theorem generated_bound {r : Region ℝ} {f : Objective ℝ} {m : ℝ}
    (hv : ∀ v ∈ r.candidates, f.sense.bound.Holds (f.valueAt v.position) m)
    (hd : ∀ d ∈ r.openDirections, ¬f.Improves d) :
    ∀ p ∈ r.generated, f.sense.bound.Holds (f.valueAt p) m := by
  intro p hp
  have hsub : r.generated ⊆ HalfPlane.common [f.noBetter m] := by
    refine generated_subset_common (fun v hmem h hh => ?_) fun d hmem h hh => ?_
    · rw [List.mem_singleton.mp hh]
      exact Objective.noBetter_contains.mpr (hv v hmem)
    · rw [List.mem_singleton.mp hh]
      exact Objective.noBetter_recedes.mpr (hd d hmem)
  exact Objective.noBetter_contains.mp (hsub hp _ (List.mem_singleton_self _))

/-! ## The evaluation -/

namespace Sense

theorem bound_refl (s : Sense) (a : ℝ) : s.bound.Holds a a := by
  cases s <;> exact le_refl a

theorem bound_trans {s : Sense} {a b c : ℝ} (hab : s.bound.Holds a b)
    (hbc : s.bound.Holds b c) : s.bound.Holds a c := by
  cases s with
  | maximize => exact le_trans hab hbc
  | minimize => exact le_trans hbc hab

theorem bound_better_left (s : Sense) (a b : ℝ) : s.bound.Holds a (s.better a b) := by
  cases s with
  | maximize => exact le_max_left a b
  | minimize => exact min_le_left a b

theorem bound_better_right (s : Sense) (a b : ℝ) : s.bound.Holds b (s.better a b) := by
  cases s with
  | maximize => exact le_max_right a b
  | minimize => exact min_le_right a b

theorem better_choice (s : Sense) (a b : ℝ) : s.better a b = a ∨ s.better a b = b := by
  cases s with
  | maximize => exact max_choice a b
  | minimize => exact min_choice a b

/-- Folding with the better of two values gives the best one, which is among them. -/
theorem foldl_better (s : Sense) (a : ℝ) (xs : List ℝ) :
    xs.foldl s.better a ∈ a :: xs ∧
      ∀ x ∈ a :: xs, s.bound.Holds x (xs.foldl s.better a) := by
  induction xs generalizing a with
  | nil => exact ⟨List.mem_singleton_self a, fun x hx =>
      List.mem_singleton.mp hx ▸ s.bound_refl a⟩
  | cons b xs ih =>
    obtain ⟨hmem, hbound⟩ := ih (s.better a b)
    have hstart := hbound _ List.mem_cons_self
    rw [List.foldl_cons]
    refine ⟨?_, fun x hx => ?_⟩
    · rcases List.mem_cons.mp hmem with he | htail
      · rw [he]
        rcases s.better_choice a b with hc | hc <;> rw [hc] <;> simp
      · exact List.mem_cons_of_mem _ (List.mem_cons_of_mem _ htail)
    · rcases List.mem_cons.mp hx with rfl | hx
      · exact bound_trans (s.bound_better_left x b) hstart
      · rcases List.mem_cons.mp hx with rfl | hx
        · exact bound_trans (s.bound_better_right a x) hstart
        · exact hbound x (List.mem_cons_of_mem _ hx)

end Sense

namespace Objective

variable {f : Objective ℝ} {vs : List (Vertex ℝ)} {ds : List (Vec ℝ)}

theorem improving?_exact_some {d : Vec ℝ} (h : f.improving? .exact ds = some d) :
    d ∈ ds ∧ f.Improves d := by
  refine ⟨List.mem_of_find?_eq_some h, fun hb => ?_⟩
  have hr : f.rateHolds .exact f.sense.bound d = true := Tolerance.exact_holds.mpr hb
  simpa [hr] using List.find?_some h

theorem improving?_exact_none (h : f.improving? .exact ds = none) :
    ∀ d ∈ ds, ¬f.Improves d := by
  intro d hd hi
  have hr : f.rateHolds .exact f.sense.bound d = true := by
    simpa using List.find?_eq_none.mp h d hd
  exact hi (Tolerance.exact_holds.mp hr)

theorem best?_spec (hvs : vs ≠ []) :
    ∃ m, f.best? (vs.map fun v => f.valueAt v.position) = some m ∧
      (∃ v ∈ vs, f.valueAt v.position = m) ∧
      ∀ v ∈ vs, f.sense.bound.Holds (f.valueAt v.position) m := by
  obtain ⟨v, rest, rfl⟩ := List.exists_cons_of_ne_nil hvs
  obtain ⟨hmem, hbound⟩ := f.sense.foldl_better (f.valueAt v.position)
    (rest.map fun v => f.valueAt v.position)
  rw [← List.map_cons (f := fun v : Vertex ℝ => f.valueAt v.position)] at hmem hbound
  exact ⟨_, rfl, List.mem_map.mp hmem, List.forall_mem_map.mp hbound⟩

theorem tied_map_fst (tol : Tolerance ℝ) (vs : List (Vertex ℝ)) (m : ℝ) :
    (f.tied tol vs m).map Prod.fst = vs.filter fun v =>
      f.valueAt v.position == m || tol.approxEq (f.valueAt v.position) m := by
  unfold tied
  rw [List.filter_map, List.map_map]
  exact List.map_id _

theorem tied_test_exact {z m : ℝ} : (z == m || Tolerance.exact.approxEq z m) = true ↔ z = m := by
  rw [Bool.or_eq_true, Tolerance.exact_approxEq]
  exact or_iff_right_of_imp fun h => of_decide_eq_true h

theorem mem_tied_iff {tol : Tolerance ℝ} {m z : ℝ} {v : Vertex ℝ} : (v, z) ∈ f.tied tol vs m ↔
    v ∈ vs ∧ f.valueAt v.position = z ∧ (z == m || tol.approxEq z m) = true := by
  unfold tied
  rw [List.mem_filter, List.mem_map]
  constructor
  · rintro ⟨⟨w, hw, he⟩, h⟩
    obtain ⟨rfl, rfl⟩ := Prod.mk.inj he
    exact ⟨hw, rfl, h⟩
  · rintro ⟨hv, rfl, h⟩
    exact ⟨⟨v, hv, rfl⟩, h⟩

theorem mem_tied {m : ℝ} {v : Vertex ℝ} {z : ℝ} :
    (v, z) ∈ f.tied .exact vs m ↔ v ∈ vs ∧ f.valueAt v.position = z ∧ z = m := by
  rw [mem_tied_iff, tied_test_exact]

/-- What an optimum is made of: the best value, the vertices tied with it, the first of them. -/
theorem optimum?_eq_some {tol : Tolerance ℝ} {o : Optimum ℝ} : f.optimum? tol vs ds = some o ↔
    ∃ best, f.best? (vs.map fun v => f.valueAt v.position) = some best ∧
      (f.tied tol vs best).head? = some (o.vertex, o.value) ∧
      o.tied = (f.tied tol vs best).map Prod.fst ∧
      o.optimalRay = ds.find? (f.rateHolds tol .eq) := by
  unfold optimum?
  rw [Option.bind_eq_bind, Option.bind_eq_some_iff]
  refine exists_congr fun best => and_congr_right fun _ => ?_
  rw [Option.bind_eq_bind, Option.bind_eq_some_iff]
  constructor
  · rintro ⟨⟨vertex, value⟩, hhead, ho⟩
    obtain rfl := Option.some.inj ho
    exact ⟨hhead, rfl, rfl⟩
  · rintro ⟨hhead, htied, hray⟩
    refine ⟨_, hhead, congrArg some ?_⟩
    rw [← htied, ← hray]

theorem exists_optimum? (tol : Tolerance ℝ) (ds : List (Vec ℝ)) (hvs : vs ≠ []) :
    ∃ o, f.optimum? tol vs ds = some o := by
  obtain ⟨m, hbest, ⟨v, hv, hm⟩, -⟩ := f.best?_spec hvs
  have hself : (m == m) = true := decide_eq_true rfl
  have hmem : (v, m) ∈ f.tied tol vs m := by
    rw [mem_tied_iff, hself]
    exact ⟨hv, hm, rfl⟩
  obtain ⟨⟨w, z⟩, rest, htied⟩ := List.exists_cons_of_ne_nil (List.ne_nil_of_mem hmem)
  refine ⟨⟨w, z, _, _⟩, optimum?_eq_some.mpr ⟨m, hbest, ?_, rfl, rfl⟩⟩
  rw [htied, List.head?_cons]

/-- The optimum is at one of the vertices and no vertex is better. -/
theorem optimum?_exact {o : Optimum ℝ} (hvs : vs ≠ []) (ho : f.optimum? .exact vs ds = some o) :
    o.vertex ∈ vs ∧ f.valueAt o.vertex.position = o.value ∧
      ∀ v ∈ vs, f.sense.bound.Holds (f.valueAt v.position) o.value := by
  obtain ⟨best, hbest, hhead, -, -⟩ := optimum?_eq_some.mp ho
  obtain ⟨m, hm, -, hbound⟩ := f.best?_spec hvs
  obtain rfl : m = best := Option.some.inj (hm.symm.trans hbest)
  obtain ⟨hv, hz, hvalue⟩ := mem_tied.mp (List.mem_of_head? hhead)
  exact ⟨hv, hz, hvalue.symm ▸ hbound⟩

theorem evaluate_nil (tol : Tolerance ℝ) : f.evaluate tol [] ds = none := rfl

theorem evaluate_of_improving {tol : Tolerance ℝ} {d : Vec ℝ} (hvs : vs ≠ [])
    (hd : f.improving? tol ds = some d) :
    f.evaluate tol vs ds = some ⟨vs.map fun v => f.valueAt v.position, .unbounded d⟩ := by
  unfold evaluate
  rw [if_neg (by simpa using ⟨hvs, rfl⟩), hd]

theorem evaluate_of_not_improving {tol : Tolerance ℝ} (hvs : vs ≠ [])
    (hd : f.improving? tol ds = none) : f.evaluate tol vs ds =
      (f.optimum? tol vs ds).map fun o => ⟨vs.map fun v => f.valueAt v.position, .optimal o⟩ := by
  unfold evaluate
  rw [if_neg (by simpa using ⟨hvs, rfl⟩), hd]

/-- Evaluation at some vertices finds an improving direction or the best vertex. -/
theorem evaluate_exact (hvs : vs ≠ []) :
    (∃ d zs, d ∈ ds ∧ f.Improves d ∧ f.evaluate .exact vs ds = some ⟨zs, .unbounded d⟩) ∨
    ((∀ d ∈ ds, ¬f.Improves d) ∧
      ∃ o zs, f.evaluate .exact vs ds = some ⟨zs, .optimal o⟩ ∧ o.vertex ∈ vs ∧
        f.valueAt o.vertex.position = o.value ∧
        ∀ v ∈ vs, f.sense.bound.Holds (f.valueAt v.position) o.value) := by
  cases hi : f.improving? .exact ds with
  | some d =>
    obtain ⟨hd, himp⟩ := improving?_exact_some hi
    exact .inl ⟨d, _, hd, himp, evaluate_of_improving hvs hi⟩
  | none =>
    obtain ⟨o, ho⟩ := f.exists_optimum? .exact ds hvs
    refine .inr ⟨improving?_exact_none hi, o, vs.map fun v => f.valueAt v.position, ?_,
      optimum?_exact hvs ho⟩
    rw [evaluate_of_not_improving hvs hi, ho, Option.map_some]

end Objective

end PlanarLP
