import Mathlib.Data.List.Sort
import PlanarLP.Region.Conflict

/-! Conflicts by position. Pairs and triples are chosen from the entries of a list together with
their positions, so a conflict is found exactly where its test says so (`mem_pairConflicts`,
`mem_tripleConflicts`), and none is found twice (`nodup_smallestConflicts`). Nothing here looks
at the numbers. -/

namespace PlanarLP

/-! ## Choosing entries of a list -/

section Positions

variable {β : Type} {l : List β}

/-- Some entries stand in a list, in this order, when their positions ascend. -/
theorem sublist_zipIdx {es : List (β × Nat)} : es.Sublist l.zipIdx ↔
    es.Pairwise (fun d e => d.2 < e.2) ∧ ∀ e ∈ es, l[e.2]? = some e.1 := by
  have hsorted : l.zipIdx.Pairwise fun d e => d.2 < e.2 := by
    have hidx : (l.zipIdx.map Prod.snd).Pairwise (· < ·) := by
      rw [List.zipIdx_map_snd]
      exact List.pairwise_lt_range'
    exact List.pairwise_map.mp hidx
  constructor
  · intro hs
    exact ⟨hsorted.sublist hs, fun e he => List.mem_zipIdx_iff_getElem?.mp (hs.subset he)⟩
  · rintro ⟨hp, hm⟩
    have hanti : Std.Antisymm fun d e : β × Nat => d.2 < e.2 :=
      ⟨fun d e hde hed => absurd hde (Nat.lt_asymm hed)⟩
    have hnodup : es.Nodup := by
      refine hp.imp fun {d e} hlt heq => ?_
      rw [heq] at hlt
      exact Nat.lt_irrefl _ hlt
    exact List.sublist_of_subperm_of_pairwise
      (List.subperm_of_subset hnodup fun e he => List.mem_zipIdx_iff_getElem?.mpr (hm e he))
      hp hsorted

/-- Entries by ascending positions stand in the list in that order. -/
theorem sublist_of_positions (es : List (β × Nat))
    (hascending : es.Pairwise fun d e => d.2 < e.2) (hget : ∀ e ∈ es, l[e.2]? = some e.1) :
    (es.map Prod.fst).Sublist l :=
  List.zipIdx_map_fst 0 l ▸ (sublist_zipIdx.mpr ⟨hascending, hget⟩).map Prod.fst

theorem mem_pairs_iff_getElem? {x y : β} :
    (x, y) ∈ pairs l ↔ ∃ i j : Nat, i < j ∧ l[i]? = some x ∧ l[j]? = some y := by
  rw [mem_pairs]
  constructor
  · intro hs
    rw [← List.zipIdx_map_fst 0 l] at hs
    obtain ⟨es, hes, heq⟩ := List.sublist_map_iff.mp hs
    obtain ⟨hlt, hget⟩ := sublist_zipIdx.mp hes
    match es, heq with
    | [(a, i), (b, j)], heq =>
      cases heq
      exact ⟨i, j, (List.pairwise_cons.mp hlt).1 (b, j) List.mem_cons_self,
        hget (a, i) List.mem_cons_self, hget (b, j) (List.mem_cons_of_mem _ List.mem_cons_self)⟩
  · rintro ⟨i, j, hij, hx, hy⟩
    exact sublist_of_positions [(x, i), (y, j)] (by simpa using hij) (by simp [hx, hy])

/-- Pairs come in the order of their first members, then of their second ones. -/
theorem pairwise_pairs {R : β → β → Prop} (h : l.Pairwise R) :
    (pairs l).Pairwise fun p q => R p.1 q.1 ∨ p.1 = q.1 ∧ R p.2 q.2 := by
  induction l with
  | nil => exact .nil
  | cons x xs ih =>
    obtain ⟨hx, hxs⟩ := List.pairwise_cons.mp h
    rw [pairs, List.pairwise_append]
    refine ⟨List.pairwise_map.mpr (hxs.imp fun hr => .inr ⟨rfl, hr⟩), ih hxs, ?_⟩
    rintro p hp ⟨a, b⟩ hab
    obtain ⟨y, -, rfl⟩ := List.mem_map.mp hp
    exact .inl (hx a ((mem_pairs.mp hab).subset List.mem_cons_self))

/-- Members at the end with which no choice is made leave no trace. -/
theorem filterMap_pairs_append {γ : Type} {f : β × β → Option γ} {ys : List β}
    (h : ∀ x, ∀ y ∈ ys, f (x, y) = none) (xs : List β) :
    (pairs (xs ++ ys)).filterMap f = (pairs xs).filterMap f := by
  have hend : ∀ x, (ys.map fun y => (x, y)).filterMap f = [] := by
    intro x
    rw [List.filterMap_map, List.filterMap_eq_nil_iff]
    exact h x
  induction xs with
  | nil =>
    refine List.filterMap_eq_nil_iff.mpr fun ⟨x, y⟩ hxy => h x y ?_
    exact (mem_pairs.mp hxy).subset (List.mem_cons_of_mem x List.mem_cons_self)
  | cons x xs ih =>
    rw [List.cons_append, pairs, pairs, List.filterMap_append, List.filterMap_append, ih,
      List.map_append, List.filterMap_append, hend, List.append_nil]

theorem pairwise_triples {R : β → β → Prop} (h : l.Pairwise R) :
    (triples l).Pairwise fun s t =>
      R s.1 t.1 ∨ s.1 = t.1 ∧ (R s.2.1 t.2.1 ∨ s.2.1 = t.2.1 ∧ R s.2.2 t.2.2) := by
  induction l with
  | nil => exact .nil
  | cons x xs ih =>
    obtain ⟨hx, hxs⟩ := List.pairwise_cons.mp h
    rw [triples, List.pairwise_append]
    refine ⟨List.pairwise_map.mpr ((pairwise_pairs hxs).imp fun hr => .inr ⟨rfl, hr⟩), ih hxs, ?_⟩
    rintro s hs ⟨a, b, c⟩ habc
    obtain ⟨p, -, rfl⟩ := List.mem_map.mp hs
    exact .inl (hx a ((mem_triples.mp habc).subset List.mem_cons_self))

end Positions

/-! ## The conflicts of a list -/

variable {α : Type} [Scalar α] {tol : Tolerance α} {cs : List (Constraint α)}

theorem mem_pairConflicts {c : Conflict} : c ∈ pairConflicts tol cs ↔
    ∃ i j k l, i < j ∧ cs[i]? = some k ∧ cs[j]? = some l ∧ areOpposed tol k l = true ∧
      c = .pair i j := by
  unfold pairConflicts
  rw [List.mem_filterMap]
  constructor
  · rintro ⟨⟨⟨k, i⟩, l, j⟩, hmem, hc⟩
    obtain ⟨hlt, hget⟩ := sublist_zipIdx.mp (mem_pairs.mp hmem)
    dsimp only at hc
    split at hc
    · rename_i hopp
      simp only [List.pairwise_cons, List.mem_singleton, forall_eq] at hlt
      exact ⟨i, j, k, l, hlt.1, hget (k, i) (by simp), hget (l, j) (by simp), hopp,
        (Option.some.inj hc).symm⟩
    · cases hc
  · rintro ⟨i, j, k, l, hij, hk, hl, hopp, rfl⟩
    exact ⟨((k, i), (l, j)), mem_pairs.mpr (sublist_zipIdx.mpr (by simp [hij, hk, hl])),
      if_pos hopp⟩

theorem mem_tripleConflicts {c : Conflict} : c ∈ tripleConflicts tol cs ↔
    ∃ i j h k l m, i < j ∧ j < h ∧ cs[i]? = some k ∧ cs[j]? = some l ∧ cs[h]? = some m ∧
      jointlyFeasible tol [k, l, m] = false ∧ c = .triple i j h := by
  unfold tripleConflicts
  rw [List.mem_filterMap]
  constructor
  · rintro ⟨⟨⟨k, i⟩, ⟨l, j⟩, m, h⟩, hmem, hc⟩
    obtain ⟨hlt, hget⟩ := sublist_zipIdx.mp (mem_triples.mp hmem)
    dsimp only at hc
    split at hc
    · cases hc
    · rename_i hnone
      simp only [List.pairwise_cons, List.mem_cons, List.not_mem_nil, or_false,
        forall_eq_or_imp, forall_eq] at hlt
      exact ⟨i, j, h, k, l, m, hlt.1.1, hlt.2.1, hget (k, i) (by simp), hget (l, j) (by simp),
        hget (m, h) (by simp), Bool.eq_false_iff.mpr hnone, (Option.some.inj hc).symm⟩
  · rintro ⟨i, j, h, k, l, m, hij, hjh, hk, hl, hm, hnone, rfl⟩
    refine ⟨((k, i), (l, j), (m, h)), mem_triples.mpr (sublist_zipIdx.mpr ?_),
      if_neg (Bool.eq_false_iff.mp hnone)⟩
    simp [hij, hjh, Nat.lt_trans hij hjh, hk, hl, hm]

theorem nodup_pairConflicts (tol : Tolerance α) (cs : List (Constraint α)) :
    (pairConflicts tol cs).Nodup := by
  have hsorted := pairwise_pairs (sublist_zipIdx.mp (List.Sublist.refl cs.zipIdx)).1
  refine List.pairwise_filterMap.mpr (hsorted.imp fun {p q} hlt c hc d hd heq => ?_)
  obtain ⟨⟨k, i⟩, l, j⟩ := p
  obtain ⟨⟨k', i'⟩, l', j'⟩ := q
  dsimp only at hlt hc hd
  split at hc <;> split at hd <;> cases hc <;> cases hd
  obtain ⟨rfl, rfl⟩ := Conflict.pair.inj heq
  rcases hlt with hlt | ⟨-, hlt⟩ <;> exact Nat.lt_irrefl _ hlt

theorem nodup_tripleConflicts (tol : Tolerance α) (cs : List (Constraint α)) :
    (tripleConflicts tol cs).Nodup := by
  have hsorted := pairwise_triples (sublist_zipIdx.mp (List.Sublist.refl cs.zipIdx)).1
  refine List.pairwise_filterMap.mpr (hsorted.imp fun {s t} hlt c hc d hd heq => ?_)
  obtain ⟨⟨k, i⟩, ⟨l, j⟩, m, h⟩ := s
  obtain ⟨⟨k', i'⟩, ⟨l', j'⟩, m', h'⟩ := t
  dsimp only at hlt hc hd
  split at hc <;> split at hd <;> cases hc <;> cases hd
  obtain ⟨rfl, rfl, rfl⟩ := Conflict.triple.inj heq
  rcases hlt with hlt | ⟨-, hlt | ⟨-, hlt⟩⟩ <;> exact Nat.lt_irrefl _ hlt

theorem not_opposed_of_no_pairs {i j : Nat} {k l : Constraint α} (h : pairConflicts tol cs = [])
    (hij : i < j) (hk : cs[i]? = some k) (hl : cs[j]? = some l) :
    areOpposed tol k l = false := by
  refine Bool.eq_false_iff.mpr fun hopp => ?_
  have hmem := mem_pairConflicts.mpr ⟨i, j, k, l, hij, hk, hl, hopp, rfl⟩
  rw [h] at hmem
  cases hmem

theorem jointlyFeasible_of_no_triples {i j h : Nat} {k l m : Constraint α}
    (hnone : tripleConflicts tol cs = []) (hij : i < j) (hjh : j < h) (hk : cs[i]? = some k)
    (hl : cs[j]? = some l) (hm : cs[h]? = some m) : jointlyFeasible tol [k, l, m] = true := by
  refine Bool.eq_true_of_not_eq_false fun hnot => ?_
  have hmem := mem_tripleConflicts.mpr ⟨i, j, h, k, l, m, hij, hjh, hk, hl, hm, hnot, rfl⟩
  rw [hnone] at hmem
  cases hmem

/-- Pairs where there are any, else triples. -/
theorem smallestConflicts_cases (tol : Tolerance α) (cs : List (Constraint α)) :
    (pairConflicts tol cs ≠ [] ∧ smallestConflicts tol cs = pairConflicts tol cs) ∨
    (pairConflicts tol cs = [] ∧ smallestConflicts tol cs = tripleConflicts tol cs) := by
  unfold smallestConflicts
  cases h : pairConflicts tol cs with
  | nil => exact .inr ⟨rfl, rfl⟩
  | cons c found => exact .inl ⟨List.cons_ne_nil c found, rfl⟩

theorem smallestConflicts_eq_nil : smallestConflicts tol cs = [] ↔
    pairConflicts tol cs = [] ∧ tripleConflicts tol cs = [] := by
  rcases smallestConflicts_cases tol cs with ⟨hne, hs⟩ | ⟨hnil, hs⟩ <;> rw [hs]
  · exact iff_of_false hne fun h => hne h.1
  · exact (and_iff_right hnil).symm

theorem nodup_smallestConflicts (tol : Tolerance α) (cs : List (Constraint α)) :
    (smallestConflicts tol cs).Nodup := by
  rcases smallestConflicts_cases tol cs with ⟨-, h⟩ | ⟨-, h⟩ <;> rw [h]
  · exact nodup_pairConflicts tol cs
  · exact nodup_tripleConflicts tol cs

end PlanarLP
