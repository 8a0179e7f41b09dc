import PlanarLP.Proofs.Optimum
import PlanarLP.Proofs.Restating

/-! Minimising an objective is maximising its negative, for any tolerance and any lists of
vertices and directions. Each thing that the evaluation looks at changes its sign and nothing
else: rates and values are negated, the relation they are tested by is turned round, and the
larger of two values becomes the smaller. So the same tests pass at the same members of the
lists, and the same ones are picked. -/

namespace PlanarLP

def Sense.opposite : Sense → Sense
  | maximize => minimize
  | minimize => maximize

section Negatives

variable {α : Type} [Scalar α]

/-- Minus the objective, with the opposite sense. -/
def Objective.opposite (f : Objective α) : Objective α :=
  ⟨-f.p, -f.q, -f.offset, f.sense.opposite⟩

def Optimum.negated (o : Optimum α) : Optimum α := { o with value := -o.value }

def Outcome.negated : Outcome α → Outcome α
  | optimal o => .optimal o.negated
  | unbounded d => .unbounded d

/-- The evaluation with all values negated. -/
def Evaluation.negated (e : Evaluation α) : Evaluation α :=
  ⟨e.values.map (-·), e.outcome.negated⟩

end Negatives

theorem Tolerance.approxEq_neg (tol : Tolerance ℝ) (a b : ℝ) :
    tol.approxEq (-a) (-b) = tol.approxEq a b := by
  have hsub : -a - -b = -(a - b) := by ring
  rw [Bool.eq_iff_iff, approxEq_iff, approxEq_iff, hsub, abs_neg, abs_neg, abs_neg]

namespace Sense

theorem bound_opposite (s : Sense) : s.opposite.bound = s.bound.flip := by cases s <;> rfl

theorem better_opposite (s : Sense) (a b : ℝ) :
    s.opposite.better (-a) (-b) = -s.better a b := by
  cases s with
  | maximize => exact min_neg_neg a b
  | minimize => exact max_neg_neg a b

theorem foldl_better_opposite (s : Sense) (z : ℝ) (zs : List ℝ) :
    (zs.map (-·)).foldl s.opposite.better (-z) = -zs.foldl s.better z := by
  rw [List.foldl_map]
  exact List.foldl_hom _ fun a b => s.better_opposite a b

end Sense

namespace Objective

variable (f : Objective ℝ)

theorem gradient_opposite : f.opposite.gradient = -f.gradient := rfl

theorem valueAt_opposite (p : Vec ℝ) : f.opposite.valueAt p = -f.valueAt p := by
  rw [valueAt_eq, valueAt_eq, gradient_opposite, Vec.neg_dot, neg_add]
  rfl

theorem values_opposite (vs : List (Vertex ℝ)) :
    (vs.map fun v => f.opposite.valueAt v.position) =
      (vs.map fun v => f.valueAt v.position).map (-·) := by
  rw [List.map_map]
  exact List.map_congr_left fun v _ => f.valueAt_opposite v.position

theorem rateHolds_opposite (tol : Tolerance ℝ) (r : Relation) (d : Vec ℝ) :
    f.opposite.rateHolds tol r.flip d = f.rateHolds tol r d := by
  have hneg := tol.holds_neg (f.gradient.dot d) 0 f.gradient.norm r
  rw [neg_zero] at hneg
  rw [rateHolds, rateHolds, gradient_opposite, Vec.neg_dot, Vec.norm_neg, hneg]

theorem improving?_opposite (tol : Tolerance ℝ) (ds : List (Vec ℝ)) :
    f.opposite.improving? tol ds = f.improving? tol ds := by
  have htest : ∀ d, f.opposite.rateHolds tol f.opposite.sense.bound d =
      f.rateHolds tol f.sense.bound d := fun d =>
    f.sense.bound_opposite ▸ f.rateHolds_opposite tol f.sense.bound d
  simp only [improving?, htest]

theorem best?_opposite (zs : List ℝ) :
    f.opposite.best? (zs.map (-·)) = (f.best? zs).map (-·) := by
  cases zs with
  | nil => rfl
  | cons z zs => exact congrArg some (f.sense.foldl_better_opposite z zs)

theorem tied_opposite (tol : Tolerance ℝ) (vs : List (Vertex ℝ)) (m : ℝ) :
    f.opposite.tied tol vs (-m) = (f.tied tol vs m).map fun e => (e.1, -e.2) := by
  have heq : ∀ z : ℝ, (-z == -m) = (z == m) := fun z => decide_eq_decide.mpr neg_inj
  simp only [tied, valueAt_opposite, List.filter_map, List.map_map, Function.comp_def, heq,
    Tolerance.approxEq_neg]

theorem optimum?_opposite (tol : Tolerance ℝ) (vs : List (Vertex ℝ)) (ds : List (Vec ℝ)) :
    f.opposite.optimum? tol vs ds = (f.optimum? tol vs ds).map Optimum.negated := by
  have hray : f.opposite.rateHolds tol .eq = f.rateHolds tol .eq :=
    funext (f.rateHolds_opposite tol .eq)
  rw [optimum?, optimum?, values_opposite, best?_opposite, hray]
  cases f.best? (vs.map fun v => f.valueAt v.position) with
  | none => rfl
  | some best =>
    simp only [Option.map_some, Option.bind_eq_bind, Option.bind_some, tied_opposite]
    cases f.tied tol vs best with
    | nil => rfl
    | cons e tied => simp [Optimum.negated, Function.comp_def]

/-- **Minimising an objective is maximising its negative.** Both evaluations fail, or both
succeed with the same direction, or the same optimal vertex, ties and ray, and with opposite
values. -/
theorem evaluate_opposite (tol : Tolerance ℝ) (vs : List (Vertex ℝ)) (ds : List (Vec ℝ)) :
    f.opposite.evaluate tol vs ds = (f.evaluate tol vs ds).map Evaluation.negated := by
  by_cases hvs : vs = []
  · rw [hvs]
    rfl
  · cases hd : f.improving? tol ds with
    | some d =>
      rw [evaluate_of_improving hvs hd,
        evaluate_of_improving hvs ((f.improving?_opposite tol ds).trans hd), values_opposite]
      rfl
    | none =>
      rw [evaluate_of_not_improving hvs hd,
        evaluate_of_not_improving hvs ((f.improving?_opposite tol ds).trans hd), values_opposite,
        optimum?_opposite]
      cases f.optimum? tol vs ds <;> rfl

end Objective

end PlanarLP
