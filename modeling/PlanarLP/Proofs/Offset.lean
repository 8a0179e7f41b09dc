import PlanarLP.Proofs.Optimum

/-! The constant term of an objective, in real arithmetic under the standard tolerance. It moves
every value alike, and it plays no part in the directions. Ties are the one place where it
counts: two values are tied within a slack for their size, the constant included, so a large
constant can tie vertices that differ without it. An objective keeps its whole evaluation,
moved by the constant, exactly when no tie is decided by that slack. -/

namespace PlanarLP

/-! ## Moved evaluations -/

def Optimum.raised (o : Optimum ℝ) (k : ℝ) : Optimum ℝ := { o with value := o.value + k }

def Outcome.raised : Outcome ℝ → ℝ → Outcome ℝ
  | .optimal o, k => .optimal (o.raised k)
  | .unbounded d, _ => .unbounded d

/-- The evaluation with every value larger by `k`, and all else the same. -/
def Evaluation.raised (e : Evaluation ℝ) (k : ℝ) : Evaluation ℝ :=
  ⟨e.values.map (· + k), e.outcome.raised k⟩

/-! ## Close values -/

/-- Two values count as tied. -/
def Close (a b : ℝ) : Prop := |a - b| ≤ 1e-9 + 1e-9 * max |a| |b|

noncomputable instance (a b : ℝ) : Decidable (Close a b) := Real.decidableLE ..

theorem close_self (a : ℝ) : Close a a := by
  unfold Close
  rw [sub_self, abs_zero]
  positivity

theorem tied_test_standard {z m : ℝ} :
    (z == m || Tolerance.standard.approxEq z m) = true ↔ Close z m := by
  rw [Bool.or_eq_true, Tolerance.standard_approxEq]
  refine or_iff_right_of_imp fun h => ?_
  have heq : z = m := of_decide_eq_true h
  exact heq ▸ close_self z

/-- A constant does not matter where the difference is clearly below or above the slack. -/
theorem close_add_iff {a b k : ℝ}
    (h : |a - b| ≤ 1e-9 ∨ 1e-9 * (1 + |k| + max |a| |b|) < |a - b|) :
    Close (a + k) (b + k) ↔ Close a b := by
  have hsize : max |a + k| |b + k| ≤ |k| + max |a| |b| := by
    refine max_le ?_ ?_
    · linarith [abs_add_le a k, le_max_left |a| |b|]
    · linarith [abs_add_le b k, le_max_right |a| |b|]
  have hk : 0 ≤ |k| := abs_nonneg k
  have hmax : 0 ≤ max |a| |b| := le_max_of_le_left (abs_nonneg a)
  have hmaxk : 0 ≤ max |a + k| |b + k| := le_max_of_le_left (abs_nonneg _)
  unfold Close
  rw [add_sub_add_right_eq_sub]
  rcases h with hnear | hfar
  · constructor <;> intro _ <;> linarith
  · constructor <;> intro _ <;> linarith

/-! ## The best value -/

theorem Sense.better_add (s : Sense) (a b k : ℝ) :
    s.better (a + k) (b + k) = s.better a b + k := by
  cases s with
  | maximize => exact max_add_add_right a b k
  | minimize => exact min_add_add_right a b k

namespace Objective

variable {f : Objective ℝ} {vs : List (Vertex ℝ)} {ds : List (Vec ℝ)}

theorem best?_add (f : Objective ℝ) (zs : List ℝ) (k : ℝ) :
    f.best? (zs.map (· + k)) = (f.best? zs).map (· + k) := by
  cases zs with
  | nil => rfl
  | cons z zs =>
    have hfold : (zs.map (· + k)).foldl f.sense.better (z + k) =
        zs.foldl f.sense.better z + k := by
      rw [List.foldl_map]
      exact List.foldl_hom (· + k) fun a b => f.sense.better_add a b k
    exact congrArg some hfold

theorem map_valueAt (f : Objective ℝ) (vs : List (Vertex ℝ)) :
    vs.map (fun v => f.valueAt v.position) =
      (vs.map fun v => f.gradient.dot v.position).map (· + f.offset) := by
  rw [List.map_map]
  rfl

/-- The vertices whose value is close to the best one, with a constant `k` counted in. -/
noncomputable def closeTo (g : Vec ℝ) (best k : ℝ) (vs : List (Vertex ℝ)) : List (Vertex ℝ) :=
  vs.filter fun v => Close (g.dot v.position + k) (best + k)

/-- The constant `k` decides no tie: every vertex is close to the best with it as without. -/
def TiesSteady (g : Vec ℝ) (best k : ℝ) (vs : List (Vertex ℝ)) : Prop :=
  ∀ v ∈ vs, Close (g.dot v.position + k) (best + k) ↔ Close (g.dot v.position) best

theorem mem_closeTo {g : Vec ℝ} {best k : ℝ} {v : Vertex ℝ} :
    v ∈ closeTo g best k vs ↔ v ∈ vs ∧ Close (g.dot v.position + k) (best + k) := by
  rw [closeTo, List.mem_filter, decide_eq_true_iff]

theorem closeTo_eq_iff {g : Vec ℝ} {best k : ℝ} :
    closeTo g best k vs = closeTo g best 0 vs ↔ TiesSteady g best k vs := by
  constructor
  · intro heq v hv
    have hmem : v ∈ closeTo g best k vs ↔ v ∈ closeTo g best 0 vs := by rw [heq]
    rw [mem_closeTo, mem_closeTo, add_zero, add_zero] at hmem
    simpa only [hv, true_and] using hmem
  · intro hsteady
    refine List.filter_congr fun v hv => ?_
    rw [decide_eq_decide, hsteady v hv, add_zero, add_zero]

/-- What an optimum of an objective with gradient `g` and constant `k` says of the vertices,
where `best` is the best value without the constant. -/
structure Selects (g : Vec ℝ) (best k : ℝ) (vs : List (Vertex ℝ)) (o : Optimum ℝ) : Prop where
  tied : o.tied = closeTo g best k vs
  vertex : o.tied.head? = some o.vertex
  value : o.value = g.dot o.vertex.position + k

theorem selects_of_optimum? {m : ℝ} {o : Optimum ℝ}
    (hm : f.best? (vs.map fun v => f.gradient.dot v.position) = some m)
    (ho : f.optimum? .standard vs ds = some o) :
    Selects f.gradient m f.offset vs o ∧ o.optimalRay = ds.find? (f.rateHolds .standard .eq) := by
  obtain ⟨best, hbest, hhead, htied, hray⟩ := optimum?_eq_some.mp ho
  rw [map_valueAt, best?_add, hm] at hbest
  obtain rfl : m + f.offset = best := Option.some.inj hbest
  obtain ⟨-, hvalue, -⟩ := mem_tied_iff.mp (List.mem_of_head? hhead)
  refine ⟨⟨?_, ?_, hvalue.symm⟩, hray⟩
  · rw [htied, tied_map_fst]
    refine List.filter_congr fun v _ => ?_
    rw [Bool.eq_iff_iff, decide_eq_true_iff]
    exact tied_test_standard
  · rw [htied, List.head?_map, hhead, Option.map_some]

/-- Where no tie is decided by the constant, the optimum is the same one, moved. -/
theorem Selects.raised_iff {g : Vec ℝ} {best k : ℝ} {o o' : Optimum ℝ}
    (h : Selects g best 0 vs o) (h' : Selects g best k vs o')
    (hray : o'.optimalRay = o.optimalRay) : o' = o.raised k ↔ TiesSteady g best k vs := by
  rw [← closeTo_eq_iff, ← h'.tied, ← h.tied]
  constructor
  · intro heq
    rw [heq]
    rfl
  · intro htied
    have hvertex : o'.vertex = o.vertex := by
      have hhead := h'.vertex
      rw [htied, h.vertex] at hhead
      exact (Option.some.inj hhead).symm
    have hvalue : o'.value = o.value + k := by
      rw [h'.value, h.value, hvertex, add_zero]
    cases o'
    simp only at htied hvertex hvalue hray
    rw [hvertex, hvalue, htied, hray]
    rfl

end Objective

/-- How the evaluation `e'` of an objective with gradient `g` and constant `k` compares with
the evaluation `e` without the constant, where `best` is the best value of the latter. -/
structure Evaluation.Offsets (g : Vec ℝ) (best k : ℝ) (vs : List (Vertex ℝ))
    (e e' : Evaluation ℝ) : Prop where
  values : e'.values = e.values.map (· + k)
  unbounded : ∀ d, e'.outcome = .unbounded d ↔ e.outcome = .unbounded d
  optimal : ∀ o, e.outcome = .optimal o → ∃ o', e'.outcome = .optimal o' ∧
    o'.optimalRay = o.optimalRay ∧ Objective.Selects g best 0 vs o ∧
    Objective.Selects g best k vs o'
  /-- All else is the same too, exactly when the constant decides no tie. -/
  raised_iff : e' = e.raised k ↔
    (∃ d, e.outcome = .unbounded d) ∨ Objective.TiesSteady g best k vs
  raised : (∀ v ∈ vs, |g.dot v.position - best| ≤ 1e-9 ∨
      1e-9 * (1 + |k| + max |g.dot v.position| |best|) < |g.dot v.position - best|) →
    e' = e.raised k

namespace Evaluation.Offsets

variable {g : Vec ℝ} {best k : ℝ} {vs : List (Vertex ℝ)} {zs : List ℝ}

theorem of_unbounded (d : Vec ℝ) :
    Offsets g best k vs ⟨zs, .unbounded d⟩ ⟨zs.map (· + k), .unbounded d⟩ where
  values := rfl
  unbounded _ := Iff.rfl
  optimal := nofun
  raised_iff := iff_of_true rfl (.inl ⟨d, rfl⟩)
  raised _ := rfl

theorem of_optimal {o o' : Optimum ℝ} (h : Objective.Selects g best 0 vs o)
    (h' : Objective.Selects g best k vs o') (hray : o'.optimalRay = o.optimalRay) :
    Offsets g best k vs ⟨zs, .optimal o⟩ ⟨zs.map (· + k), .optimal o'⟩ := by
  have hraised : (⟨zs.map (· + k), .optimal o'⟩ : Evaluation ℝ) =
      (⟨zs, .optimal o⟩ : Evaluation ℝ).raised k ↔ Objective.TiesSteady g best k vs := by
    rw [← h.raised_iff h' hray]
    constructor
    · intro heq
      exact Outcome.optimal.inj (congrArg Evaluation.outcome heq)
    · intro heq
      rw [heq]
      rfl
  refine ⟨rfl, fun _ => ⟨nofun, nofun⟩, ?_, ?_, ?_⟩
  · intro _ ho
    cases ho
    exact ⟨o', rfl, hray, h, h'⟩
  · rw [hraised]
    exact (or_iff_right nofun).symm
  · intro hclear
    exact hraised.mpr fun v hv => close_add_iff (hclear v hv)

end Evaluation.Offsets

theorem Objective.offsets_evaluate {p q best k : ℝ} {s : Sense} {vs : List (Vertex ℝ)}
    (ds : List (Vec ℝ)) (hvs : vs ≠ [])
    (hbest : (⟨p, q, 0, s⟩ : Objective ℝ).best?
      (vs.map fun v => (⟨p, q⟩ : Vec ℝ).dot v.position) = some best) :
    ∃ e e', (⟨p, q, 0, s⟩ : Objective ℝ).evaluate .standard vs ds = some e ∧
      (⟨p, q, k, s⟩ : Objective ℝ).evaluate .standard vs ds = some e' ∧
      e.Offsets ⟨p, q⟩ best k vs e' := by
  let f : Objective ℝ := ⟨p, q, 0, s⟩
  let f' : Objective ℝ := ⟨p, q, k, s⟩
  have hvalues : (vs.map fun v => f'.valueAt v.position) =
      (vs.map fun v => f.valueAt v.position).map (· + k) := by
    rw [List.map_map]
    refine List.map_congr_left fun v _ => ?_
    change f.gradient.dot v.position + k = f.gradient.dot v.position + 0 + k
    rw [add_zero]
  cases hi : f.improving? .standard ds with
  | some d =>
    have hi' : f'.improving? .standard ds = some d := hi
    refine ⟨_, _, evaluate_of_improving hvs hi, evaluate_of_improving hvs hi', ?_⟩
    rw [hvalues]
    exact .of_unbounded d
  | none =>
    have hi' : f'.improving? .standard ds = none := hi
    obtain ⟨o, ho⟩ := f.exists_optimum? .standard ds hvs
    obtain ⟨o', ho'⟩ := f'.exists_optimum? .standard ds hvs
    obtain ⟨hselects, hray⟩ := selects_of_optimum? hbest ho
    obtain ⟨hselects', hray'⟩ := selects_of_optimum? (f := f') hbest ho'
    have heval := evaluate_of_not_improving hvs hi
    have heval' := evaluate_of_not_improving hvs hi'
    rw [ho, Option.map_some] at heval
    rw [ho', Option.map_some, hvalues] at heval'
    exact ⟨_, _, heval, heval', .of_optimal hselects hselects' (hray'.trans hray.symm)⟩

/-- **The constant term of an objective** moves every value alike and changes neither the kind
of the outcome nor a direction. It changes the tied vertices only by the slack with which ties
are told. -/
theorem evaluate_offset (p q k : ℝ) (s : Sense) {vs : List (Vertex ℝ)} (ds : List (Vec ℝ))
    (hvs : vs ≠ []) :
    ∃ best e e', (∃ v ∈ vs, (⟨p, q⟩ : Vec ℝ).dot v.position = best) ∧
      (∀ v ∈ vs, s.bound.Holds ((⟨p, q⟩ : Vec ℝ).dot v.position) best) ∧
      (⟨p, q, 0, s⟩ : Objective ℝ).evaluate .standard vs ds = some e ∧
      (⟨p, q, k, s⟩ : Objective ℝ).evaluate .standard vs ds = some e' ∧
      e.Offsets ⟨p, q⟩ best k vs e' := by
  have hplain : ∀ v : Vec ℝ,
      (⟨p, q, 0, s⟩ : Objective ℝ).valueAt v = (⟨p, q⟩ : Vec ℝ).dot v := fun v => add_zero _
  obtain ⟨best, hbest, hattained, hbound⟩ := (⟨p, q, 0, s⟩ : Objective ℝ).best?_spec hvs
  simp only [hplain] at hbest hattained hbound
  obtain ⟨e, e', heval, heval', hoffsets⟩ := Objective.offsets_evaluate ds hvs hbest
  exact ⟨best, e, e', hattained, hbound, heval, heval', hoffsets⟩

def leftEnd : Vertex ℝ := ⟨0, 0, [], false⟩

def rightEnd : Vertex ℝ := ⟨1, 0, [], false⟩

theorem evaluate_offset_ends :
    [leftEnd, rightEnd] ≠ [] ∧ ∃ best e e',
      (∃ v ∈ [leftEnd, rightEnd], (⟨1, 0⟩ : Vec ℝ).dot v.position = best) ∧
      (∀ v ∈ [leftEnd, rightEnd],
        Sense.maximize.bound.Holds ((⟨1, 0⟩ : Vec ℝ).dot v.position) best) ∧
      (⟨1, 0, 0, .maximize⟩ : Objective ℝ).evaluate .standard [leftEnd, rightEnd] [] = some e ∧
      (⟨1, 0, 5, .maximize⟩ : Objective ℝ).evaluate .standard [leftEnd, rightEnd] [] = some e' ∧
      e.Offsets ⟨1, 0⟩ best 5 [leftEnd, rightEnd] e' := by
  have hne : [leftEnd, rightEnd] ≠ [] := List.cons_ne_nil _ _
  exact ⟨hne, evaluate_offset 1 0 5 .maximize [] hne⟩

theorem gradient_ends :
    (⟨1, 0⟩ : Vec ℝ).dot leftEnd.position = 0 ∧ (⟨1, 0⟩ : Vec ℝ).dot rightEnd.position = 1 := by
  constructor <;> norm_num [leftEnd, rightEnd, Vertex.position, Vec.dot_eq]

theorem evaluate_ends (k : ℝ) :
    ∃ e o, (⟨1, 0, k, .maximize⟩ : Objective ℝ).evaluate .standard [leftEnd, rightEnd] [] = some e ∧
      e.outcome = .optimal o ∧ Objective.Selects ⟨1, 0⟩ 1 k [leftEnd, rightEnd] o := by
  let f : Objective ℝ := ⟨1, 0, k, .maximize⟩
  have hne : [leftEnd, rightEnd] ≠ [] := List.cons_ne_nil _ _
  have hbest : f.best? ([leftEnd, rightEnd].map fun v => f.gradient.dot v.position) = some 1 := by
    obtain ⟨hleft, hright⟩ := gradient_ends
    change some (max ((⟨1, 0⟩ : Vec ℝ).dot leftEnd.position)
      ((⟨1, 0⟩ : Vec ℝ).dot rightEnd.position)) = some 1
    rw [hleft, hright, max_eq_right zero_le_one]
  obtain ⟨o, ho⟩ := f.exists_optimum? .standard [] hne
  have hi : f.improving? .standard [] = none := rfl
  have heval := Objective.evaluate_of_not_improving hne hi
  rw [ho, Option.map_some] at heval
  exact ⟨_, o, heval, rfl, (Objective.selects_of_optimum? hbest ho).1⟩

/-- With a constant of `10 ^ 10` the two ends are tied, although `x` is `0` at one of them and
`1` at the other. -/
theorem large_offset_ties :
    ∃ e e' o o',
      (⟨1, 0, 0, .maximize⟩ : Objective ℝ).evaluate .standard [leftEnd, rightEnd] [] = some e ∧
      (⟨1, 0, 1e10, .maximize⟩ : Objective ℝ).evaluate .standard [leftEnd, rightEnd] [] =
        some e' ∧
      e.outcome = .optimal o ∧ e'.outcome = .optimal o' ∧
      o.tied = [rightEnd] ∧ o'.tied = [leftEnd, rightEnd] ∧
      o.vertex ≠ o'.vertex ∧ o'.value ≠ o.value + 1e10 := by
  obtain ⟨hleft, hright⟩ := gradient_ends
  obtain ⟨e, o, heval, hout, hselects⟩ := evaluate_ends 0
  obtain ⟨e', o', heval', hout', hselects'⟩ := evaluate_ends 1e10
  have htied : o.tied = [rightEnd] := by
    rw [hselects.tied]
    norm_num [Objective.closeTo, List.filter_cons, hleft, hright, Close]
  have htied' : o'.tied = [leftEnd, rightEnd] := by
    rw [hselects'.tied]
    norm_num [Objective.closeTo, List.filter_cons, hleft, hright, Close]
  have hvertex := hselects.vertex
  have hvertex' := hselects'.vertex
  rw [htied, List.head?_cons, Option.some.injEq] at hvertex
  rw [htied', List.head?_cons, Option.some.injEq] at hvertex'
  refine ⟨e, e', o, o', heval, heval', hout, hout', htied, htied', ?_, ?_⟩
  · rw [← hvertex, ← hvertex']
    norm_num [leftEnd, rightEnd]
  · rw [hselects.value, hselects'.value, ← hvertex, ← hvertex', hleft, hright]
    norm_num

end PlanarLP
