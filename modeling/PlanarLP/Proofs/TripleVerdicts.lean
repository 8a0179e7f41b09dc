import PlanarLP.Binary64
import PlanarLP.Proofs.Admitted
import PlanarLP.Proofs.Choices

/-! Triples put back to the solver, at any tolerance and in any arithmetic. A triple is tested
by trying all its probes and crossings at once, a set by merging its crossings into corners and
falling back to the probes when none is left. No law of the numbers is used, so what rounding,
overflow or comparisons with no number do to one of the two, they do to the other
(`solve_triples_agree`). -/

namespace PlanarLP

theorem Region.status_eq_infeasible {α : Type} {r : Region α} :
    r.status = .infeasible ↔ r.isFeasible = false := by
  simp [Region.isFeasible]

variable {α : Type} [Scalar α] {tol : Tolerance α} {cs : List (Constraint α)} {limit : Nat}

/-- A region is infeasible when nothing that is tried is allowed. -/
theorem status_regionOf_eq_infeasible :
    (regionOf tol cs).status = .infeasible ↔ jointlyFeasible tol cs = false := by
  rw [Region.status_eq_infeasible, isFeasible_regionOf]

-- `(1, 1)` satisfies all three, but products of these coefficients overflow, so that no two
-- boundaries cross and only the origin is tried
example : let cs : List (Constraint Float) := [⟨1e200, 0, 1e200, .ge, "x >= 1"⟩,
      ⟨0, 1e200, 1e200, .ge, "y >= 1"⟩, ⟨1e200, 1e200, 5e200, .le, "x + y <= 5"⟩]
    jointlyFeasible .standard cs = false ∧ (regionOf .standard cs).status = .infeasible := by
  decide +kernel

/-- Regions with points list no conflicts. -/
theorem mem_conflicts_regionOf {c : Conflict} : c ∈ (regionOf tol cs).conflicts ↔
    jointlyFeasible tol cs = false ∧ c ∈ smallestConflicts tol cs := by
  rw [← isFeasible_regionOf]
  rcases regionOf_kind tol cs with ⟨-, hr⟩ | ⟨-, -, hr⟩ | ⟨-, -, hr⟩ <;> rw [hr]
  · simp [Region.conflicts, isFeasible_cornered]
  · simp [Region.conflicts, Region.isFeasible, Region.status]
  · simp [Region.conflicts, Region.isFeasible, Region.status]

/-- Triples are listed only where no pair is, and then after their test. -/
theorem triple_of_mem_smallestConflicts {i j h : Nat}
    (hmem : .triple i j h ∈ smallestConflicts tol cs) :
    ∃ k l m, cs[i]? = some k ∧ cs[j]? = some l ∧ cs[h]? = some m ∧
      jointlyFeasible tol [k, l, m] = false := by
  rcases smallestConflicts_cases tol cs with ⟨-, hs⟩ | ⟨-, hs⟩ <;> rw [hs] at hmem
  · obtain ⟨i', j', k, l, -, -, -, -, heq⟩ := mem_pairConflicts.mp hmem
    cases heq
  · obtain ⟨i', j', h', k, l, m, -, -, hk, hl, hm, hnone, heq⟩ := mem_tripleConflicts.mp hmem
    cases heq
    exact ⟨k, l, m, hk, hl, hm, hnone⟩

/-- Three constraints have one triple, all of them. -/
theorem tripleConflicts_three (k l m : Constraint α) : tripleConflicts tol [k, l, m] =
    if jointlyFeasible tol [k, l, m] then [] else [.triple 0 1 2] := by
  cases hjoint : jointlyFeasible tol [k, l, m] <;>
    simp [tripleConflicts, triples, pairs, List.zipIdx, hjoint]

/-- If no pair of three constraints is to blame, the triple is. -/
theorem smallestConflicts_ne_nil (hlen : cs.length = 3) (hnone : jointlyFeasible tol cs = false) :
    smallestConflicts tol cs ≠ [] := by
  obtain ⟨k, l, m, rfl⟩ := List.length_eq_three.mp hlen
  intro hempty
  have htriples := (smallestConflicts_eq_nil.mp hempty).2
  rw [tripleConflicts_three, hnone] at htriples
  cases htriples

/-- Three constraints by themselves are always within the limit. -/
theorem exists_solve_three (hlimit : 3 ≤ limit) (tol : Tolerance α) (k l m : Constraint α) :
    ∃ r, (⟨tol, limit⟩ : Solver α).solve (.of [k, l, m] false) = .ok r ∧
      (jointlyFeasible tol [k, l, m] = false ↔ r.status = .infeasible) := by
  have hlen : [k, l, m].length ≤ limit := hlimit
  obtain ⟨r, hsolve, hfeasible⟩ := Solver.exists_solve_given hlen tol
  exact ⟨r, hsolve, by rw [Region.status_eq_infeasible, hfeasible]⟩

/-- What the solver and its test for triples say of the same constraints, at one tolerance. -/
structure TriplesAgree (tol : Tolerance α) (limit : Nat) : Prop where
  /-- Just these three constraints are infeasible exactly when they fail the test. -/
  alone : ∀ k l m, ∃ r, (⟨tol, limit⟩ : Solver α).solve (.of [k, l, m] false) = .ok r ∧
    (jointlyFeasible tol [k, l, m] = false ↔ r.status = .infeasible)
  /-- A triple that is reported for some set, at any limit, is infeasible by itself. -/
  reported : ∀ (given : Nat) (set : ConstraintSet α) (r : Region α) (i j h : Nat),
    (⟨tol, given⟩ : Solver α).solve set = .ok r → .triple i j h ∈ r.conflicts →
    ∃ k l m, set.get? i = some k ∧ set.get? j = some l ∧ set.get? h = some m ∧
      ∃ r', (⟨tol, limit⟩ : Solver α).solve (.of [k, l, m] false) = .ok r' ∧
        r'.status = .infeasible
  /-- Three constraints, given or added by default, are not infeasible without a conflict. -/
  evidence : ∀ (given : Nat) (set : ConstraintSet α) (r : Region α),
    (⟨tol, given⟩ : Solver α).solve set = .ok r → set.size = 3 → r.status = .infeasible →
    r.conflicts ≠ []

/-- **The test for triples and the solver agree**, whatever the arithmetic does. -/
theorem solve_triples_agree (hlimit : 3 ≤ limit) (tol : Tolerance α) :
    TriplesAgree tol limit where
  alone := exists_solve_three hlimit tol
  reported := by
    intro given set r i j h hsolve hmem
    obtain ⟨-, rfl⟩ := Solver.solve_eq_ok.mp hsolve
    obtain ⟨-, hc⟩ := mem_conflicts_regionOf.mp hmem
    obtain ⟨k, l, m, hk, hl, hm, hnone⟩ := triple_of_mem_smallestConflicts hc
    obtain ⟨r', hsolve', hverdict⟩ := exists_solve_three hlimit tol k l m
    exact ⟨k, l, m, hk, hl, hm, r', hsolve', hverdict.mp hnone⟩
  evidence := by
    intro given set r hsolve hsize hstatus
    obtain ⟨-, rfl⟩ := Solver.solve_eq_ok.mp hsolve
    have hnone := status_regionOf_eq_infeasible.mp hstatus
    obtain ⟨c, hc⟩ := List.exists_mem_of_ne_nil _ (smallestConflicts_ne_nil hsize hnone)
    exact List.ne_nil_of_mem (mem_conflicts_regionOf.mpr ⟨hnone, hc⟩)

/-- `x + y <= -1` below the two default bounds: one constraint is given, and three conflict. -/
def belowQuadrant : ConstraintSet Float := .of [⟨1, 1, -1, .le, "x + y <= -1"⟩] true

theorem belowQuadrant_solve :
    (⟨.standard, 1⟩ : Solver Float).solve belowQuadrant = .ok (.infeasible [.triple 0 1 2]) := by
  decide +kernel

theorem solve_triples_belowQuadrant :
    3 ≤ 3 ∧
    (⟨.standard, 1⟩ : Solver Float).solve belowQuadrant = .ok (.infeasible [.triple 0 1 2]) ∧
    TriplesAgree (.standard : Tolerance Float) 3 ∧
    ∃ k l m, belowQuadrant.get? 0 = some k ∧ belowQuadrant.get? 1 = some l ∧
      belowQuadrant.get? 2 = some m ∧
      ∃ r, (⟨.standard, 3⟩ : Solver Float).solve (.of [k, l, m] false) = .ok r ∧
        r.status = .infeasible := by
  have hagree := solve_triples_agree (by decide : 3 ≤ 3) (.standard : Tolerance Float)
  exact ⟨by decide, belowQuadrant_solve, hagree,
    hagree.reported 1 belowQuadrant _ 0 1 2 belowQuadrant_solve (List.mem_singleton_self _)⟩

end PlanarLP
