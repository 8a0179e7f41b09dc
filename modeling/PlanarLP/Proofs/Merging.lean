import PlanarLP.Proofs.Choices
import PlanarLP.Proofs.Slack

/-! How crossings become vertices, for any tolerance. Counting as one point is not transitive, so
what a vertex stands for depends on the order of the crossings: each goes to the first vertex
that counts as it (`home`), and starts a new one when there is none. `Collected` says what this
leaves after some crossings and is kept by every further one; `corners_merged` reads off it that
no crossing is lost, none is listed twice, and nothing else is added. -/

namespace PlanarLP

/-! ## Admitted crossings -/

section AnyScalar

variable {α : Type} [Scalar α]

/-- Two boundaries that are not parallel cross at `p`, and every constraint allows it. -/
def Admitted (tol : Tolerance α) (cs : List (Constraint α)) (p : Vec α) : Prop :=
  ∃ (i j : Nat) (k l : Constraint α), i < j ∧ cs[i]? = some k ∧ cs[j]? = some l ∧
    k.crossing l tol = some p ∧ allows tol cs p = true

theorem mem_admitted {tol : Tolerance α} {cs : List (Constraint α)} {p : Vec α} :
    p ∈ (crossings tol cs).filter (allows tol cs) ↔ Admitted tol cs p := by
  rw [List.mem_filter, crossings, List.mem_filterMap]
  constructor
  · rintro ⟨⟨⟨k, l⟩, hkl, hp⟩, hall⟩
    obtain ⟨i, j, hij, hk, hl⟩ := mem_pairs_iff_getElem?.mp hkl
    exact ⟨i, j, k, l, hij, hk, hl, hp, hall⟩
  · rintro ⟨i, j, k, l, hij, hk, hl, hp, hall⟩
    exact ⟨⟨(k, l), mem_pairs_iff_getElem?.mpr ⟨i, j, hij, hk, hl⟩, hp⟩, hall⟩

/-- The first of some points that counts as `q`. -/
def home (tol : Tolerance α) (ps : List (Vec α)) (q : Vec α) : Option (Vec α) :=
  ps.find? (tol.samePoint · q)

variable {tol : Tolerance α} {ps : List (Vec α)} {p q : Vec α}

theorem home_eq_none : home tol ps q = none ↔ ∀ p ∈ ps, tol.samePoint p q = false := by
  simp only [home, List.find?_eq_none, Bool.not_eq_true]

theorem mem_of_home (h : home tol ps q = some p) : p ∈ ps := List.mem_of_find?_eq_some h

theorem samePoint_of_home (h : home tol ps q = some p) : tol.samePoint p q = true :=
  List.find?_some (p := (tol.samePoint · q)) h

/-- A point that has a home keeps it when others are added behind. -/
theorem home_append (h : home tol ps q = some p) (ps' : List (Vec α)) :
    home tol (ps ++ ps') q = some p := by
  rw [home, List.find?_append]
  rw [home] at h
  rw [h, Option.some_or]

theorem home_cons_same (h : tol.samePoint p q = true) (ps : List (Vec α)) :
    home tol (p :: ps) q = some p := List.find?_cons_of_pos (p := (tol.samePoint · q)) h

theorem home_cons_apart (h : ¬tol.samePoint p q = true) (ps : List (Vec α)) :
    home tol (p :: ps) q = home tol ps q := List.find?_cons_of_neg (p := (tol.samePoint · q)) h

theorem home_append_self (hself : tol.samePoint q q = true) (h : home tol ps q = none) :
    home tol (ps ++ [q]) q = some q := by
  rw [home, List.find?_append]
  rw [home] at h
  rw [h, Option.none_or]
  exact home_cons_same hself []

/-- What absorbing does to a list: the vertex goes to its end, or into the first one that counts
as the same point. -/
theorem absorb_cases (tol : Tolerance α) (new : Vertex α) (vs : List (Vertex α)) :
    (home tol (vs.map Vertex.position) new.position = none ∧ absorb tol new vs = vs ++ [new]) ∨
    ∃ front v back, vs = front ++ v :: back ∧
      home tol (vs.map Vertex.position) new.position = some v.position ∧
      absorb tol new vs = front ++ v.merge new.tight :: back := by
  induction vs with
  | nil => exact .inl ⟨rfl, rfl⟩
  | cons v vs ih =>
    rw [List.map_cons, absorb]
    by_cases hsame : tol.samePoint v.position new.position = true
    · rw [if_pos hsame, home_cons_same hsame]
      exact .inr ⟨[], v, vs, rfl, rfl, rfl⟩
    · rw [if_neg hsame, home_cons_apart hsame]
      rcases ih with ⟨hnone, habs⟩ | ⟨front, w, back, rfl, hhome, habs⟩
      · exact .inl ⟨hnone, by rw [habs, List.cons_append]⟩
      · exact .inr ⟨v :: front, w, back, rfl, hhome, by rw [habs, List.cons_append]⟩

end AnyScalar

/-! ## What the loop leaves -/

variable {tol : Tolerance ℝ} {cs : List (Constraint ℝ)} {qs : List (Vec ℝ)} {vs : List (Vertex ℝ)}

/-- The vertices `vs` that the crossings `qs` have left so far. -/
structure Collected (tol : Tolerance ℝ) (cs : List (Constraint ℝ)) (qs : List (Vec ℝ))
    (vs : List (Vertex ℝ)) : Prop where
  /-- No vertex counts as the same point as an earlier one. -/
  apart : (vs.map Vertex.position).Pairwise fun p q => tol.samePoint p q = false
  placed : ∀ v ∈ vs, v.position ∈ qs
  found : ∀ q ∈ qs, ∃ p, home tol (vs.map Vertex.position) q = some p
  /-- A vertex has the constraints that are tight at the crossings it is the home of. -/
  tight : ∀ v ∈ vs, ∀ i, i ∈ v.tight ↔
    ∃ q ∈ qs, home tol (vs.map Vertex.position) q = some v.position ∧ i ∈ tightAt tol cs q

namespace Collected

theorem nil : Collected tol cs [] [] where
  apart := .nil
  placed := List.forall_mem_nil _
  found := List.forall_mem_nil _
  tight := List.forall_mem_nil _

theorem nodup (h : Collected tol cs qs vs) (htol : ∀ m, 0 ≤ tol.slack m) :
    (vs.map Vertex.position).Nodup := by
  refine h.apart.imp fun {p q} hapart => ?_
  rintro rfl
  rw [Tolerance.samePoint_self htol] at hapart
  cases hapart

/-- The constraints that crossings bring to `r` once `p` is among them. -/
theorem exists_home_append_singleton {ps : List (Vec ℝ)} {p r : Vec ℝ} {i : Nat} :
    (∃ q ∈ qs ++ [p], home tol ps q = some r ∧ i ∈ tightAt tol cs q) ↔
      (∃ q ∈ qs, home tol ps q = some r ∧ i ∈ tightAt tol cs q) ∨
        home tol ps p = some r ∧ i ∈ tightAt tol cs p := by
  simp only [List.mem_append, List.mem_singleton, or_and_right, exists_or, exists_eq_left]

theorem append (h : Collected tol cs qs vs) (htol : ∀ m, 0 ≤ tol.slack m) {p : Vec ℝ}
    (hnew : home tol (vs.map Vertex.position) p = none) :
    Collected tol cs (qs ++ [p]) (vs ++ [vertexAt tol cs p]) := by
  have hself := Tolerance.samePoint_self htol p
  have hfar := home_eq_none.mp hnew
  have hpositions : (vs ++ [vertexAt tol cs p]).map Vertex.position =
      vs.map Vertex.position ++ [p] := by
    rw [List.map_append, List.map_singleton, vertexAt_position]
  have hout : p ∉ vs.map Vertex.position := fun hp => by
    have hne := hfar p hp
    rw [hself] at hne
    cases hne
  -- earlier crossings keep their homes, and `p` is its own
  have hearlier : ∀ q ∈ qs, home tol (vs.map Vertex.position ++ [p]) q =
      home tol (vs.map Vertex.position) q := fun q hq => by
    obtain ⟨r, hr⟩ := h.found q hq
    rw [home_append hr, hr]
  have hown : home tol (vs.map Vertex.position ++ [p]) p = some p := home_append_self hself hnew
  have hbrought : ∀ r i, (∃ q ∈ qs ++ [p], home tol (vs.map Vertex.position ++ [p]) q = some r ∧
      i ∈ tightAt tol cs q) ↔ (∃ q ∈ qs, home tol (vs.map Vertex.position) q = some r ∧
        i ∈ tightAt tol cs q) ∨ p = r ∧ i ∈ tightAt tol cs p := by
    intro r i
    rw [exists_home_append_singleton, hown, Option.some_inj]
    refine or_congr_left (exists_congr fun q => and_congr_right fun hq => ?_)
    rw [hearlier q hq]
  constructor
  · rw [hpositions, List.pairwise_append]
    refine ⟨h.apart, List.pairwise_singleton _ _, fun a ha b hb => ?_⟩
    rw [List.mem_singleton.mp hb]
    exact hfar a ha
  · refine List.forall_mem_append.mpr ⟨fun v hv => List.mem_append_left _ (h.placed v hv), ?_⟩
    rw [List.forall_mem_singleton, vertexAt_position]
    exact List.mem_append_right _ List.mem_cons_self
  · rw [hpositions]
    refine List.forall_mem_append.mpr ⟨fun q hq => ?_, ?_⟩
    · obtain ⟨r, hr⟩ := h.found q hq
      exact ⟨r, (hearlier q hq).trans hr⟩
    · exact List.forall_mem_singleton.mpr ⟨p, hown⟩
  · rw [hpositions]
    refine List.forall_mem_append.mpr ⟨fun v hv i => ?_, ?_⟩
    · rw [hbrought, h.tight v hv, iff_comm]
      exact or_iff_left fun ⟨hp, _⟩ => hout (hp ▸ List.mem_map_of_mem hv)
    · rw [List.forall_mem_singleton, vertexAt_position]
      intro i
      rw [hbrought, or_iff_right fun ⟨_, _, hhome, _⟩ => hout (mem_of_home hhome)]
      exact (and_iff_right rfl).symm

theorem merge {front back : List (Vertex ℝ)} {v : Vertex ℝ} {p : Vec ℝ}
    (h : Collected tol cs qs (front ++ v :: back)) (htol : ∀ m, 0 ≤ tol.slack m)
    (hhome : home tol ((front ++ v :: back).map Vertex.position) p = some v.position) :
    Collected tol cs (qs ++ [p]) (front ++ v.merge (tightAt tol cs p) :: back) := by
  have hpositions : (front ++ v.merge (tightAt tol cs p) :: back).map Vertex.position =
      (front ++ v :: back).map Vertex.position := by
    rw [List.map_append, List.map_append]
    rfl
  -- only `v` stands where it does
  have hother : ∀ w ∈ front ++ back, w.position ≠ v.position := by
    have hnodup := h.nodup htol
    rw [List.map_append, List.map_cons, List.nodup_middle, ← List.map_append,
      List.nodup_cons] at hnodup
    exact fun w hw he => hnodup.1 (he ▸ List.mem_map_of_mem hw)
  -- so each fact is one about `v` and one about the others
  have hmem : ∀ u w : Vertex ℝ, w ∈ front ++ u :: back ↔ w = u ∨ w ∈ front ++ back := by
    intro u w
    rw [List.perm_middle.mem_iff, List.mem_cons]
  have hv : v ∈ front ++ v :: back := (hmem v v).mpr (.inl rfl)
  constructor
  · rw [hpositions]
    exact h.apart
  · intro w hw
    refine List.mem_append_left _ ?_
    rcases (hmem _ w).mp hw with rfl | hw
    · exact h.placed v hv
    · exact h.placed w ((hmem v w).mpr (.inr hw))
  · rw [hpositions]
    exact List.forall_mem_append.mpr ⟨h.found, List.forall_mem_singleton.mpr ⟨_, hhome⟩⟩
  · rw [hpositions]
    intro w hw i
    rw [exists_home_append_singleton, hhome, Option.some_inj]
    rcases (hmem _ w).mp hw with rfl | hw
    · show i ∈ unionIndices v.tight (tightAt tol cs p) ↔ _
      rw [mem_unionIndices, h.tight v hv]
      exact or_congr_right (and_iff_right rfl).symm
    · rw [h.tight w ((hmem v w).mpr (.inr hw)), iff_comm]
      exact or_iff_left fun ⟨hp, _⟩ => hother w hw hp.symm

/-- One round of the loop. -/
theorem absorb (h : Collected tol cs qs vs) (htol : ∀ m, 0 ≤ tol.slack m) (p : Vec ℝ) :
    Collected tol cs (qs ++ [p]) (absorb tol (vertexAt tol cs p) vs) := by
  rcases absorb_cases tol (vertexAt tol cs p) vs with
    ⟨hnew, habs⟩ | ⟨front, v, back, rfl, hhome, habs⟩ <;> rw [habs]
  · rw [vertexAt_position] at hnew
    exact h.append htol hnew
  · rw [vertexAt_position] at hhome
    exact h.merge htol hhome

/-- All rounds of the loop. -/
theorem foldl (htol : ∀ m, 0 ≤ tol.slack m) (cs : List (Constraint ℝ)) (qs : List (Vec ℝ)) :
    Collected tol cs qs (qs.foldl (fun vs p => PlanarLP.absorb tol (vertexAt tol cs p) vs) []) := by
  induction qs using List.reverseRecOn with
  | nil => exact nil
  | append_singleton qs p ih =>
    rw [List.foldl_append]
    exact ih.absorb htol p

end Collected

/-- The corners in the order in which they are found. -/
noncomputable def foundVertices (tol : Tolerance ℝ) (cs : List (Constraint ℝ)) :
    List (Vertex ℝ) :=
  ((crossings tol cs).filter (allows tol cs)).foldl
    (fun vs p => absorb tol (vertexAt tol cs p) vs) []

theorem corners_perm_found (tol : Tolerance ℝ) (cs : List (Constraint ℝ)) :
    (corners tol cs).Perm (foundVertices tol cs) := counterClockwise_perm _

theorem collected_foundVertices (htol : ∀ m, 0 ≤ tol.slack m) (cs : List (Constraint ℝ)) :
    Collected tol cs ((crossings tol cs).filter (allows tol cs)) (foundVertices tol cs) :=
  Collected.foldl htol cs _

namespace Collected

variable {v : Vertex ℝ} {p : Vec ℝ} {i : Nat}

theorem exists_home (h : Collected tol cs qs vs) (hp : p ∈ qs) :
    ∃ v ∈ vs, tol.samePoint v.position p = true ∧
      ∀ i k, cs[i]? = some k → k.isTight tol p = true → i ∈ v.tight := by
  obtain ⟨r, hr⟩ := h.found p hp
  obtain ⟨v, hv, rfl⟩ := List.mem_map.mp (mem_of_home hr)
  refine ⟨v, hv, samePoint_of_home hr, fun i k hk htight => ?_⟩
  exact (h.tight v hv i).mpr ⟨p, hp, hr, mem_tightAt.mpr ⟨k, hk, htight⟩⟩

/-- A vertex is its own home. -/
theorem home_self (h : Collected tol cs qs vs) (hv : v ∈ vs) :
    home tol (vs.map Vertex.position) v.position = some v.position := by
  obtain ⟨r, hr⟩ := h.found _ (h.placed v hv)
  have hsymm : Std.Symm fun p q => tol.samePoint p q = false :=
    ⟨fun p q hpq => (tol.samePoint_comm q p).trans hpq⟩
  rw [hr]
  refine congrArg some (by_contra fun hne => ?_)
  have hapart := h.apart.forall (mem_of_home hr) (List.mem_map_of_mem hv) hne
  rw [samePoint_of_home hr] at hapart
  cases hapart

theorem exists_source (h : Collected tol cs qs vs) (hv : v ∈ vs) (hi : i ∈ v.tight) :
    ∃ q ∈ qs, tol.samePoint v.position q = true ∧
      ∃ k, cs[i]? = some k ∧ k.isTight tol q = true := by
  obtain ⟨q, hq, hhome, hi⟩ := (h.tight v hv i).mp hi
  exact ⟨q, hq, samePoint_of_home hhome, mem_tightAt.mp hi⟩

end Collected

/-- **Merging neither loses a crossing nor lists one twice.** The vertices are pairwise different
points; every admitted crossing counts as one of them, which has all that is tight at it; and a
vertex stands at an admitted crossing and has nothing but what is tight at those like it. -/
theorem corners_merged (habsolute : 0 ≤ tol.absolute) (hrelative : 0 ≤ tol.relative)
    (cs : List (Constraint ℝ)) :
    ((corners tol cs).Pairwise fun v w => tol.samePoint v.position w.position = false) ∧
    (∀ p, Admitted tol cs p → ∃ v ∈ corners tol cs, tol.samePoint v.position p = true ∧
      ∀ i k, cs[i]? = some k → k.isTight tol p = true → i ∈ v.tight) ∧
    ∀ v ∈ corners tol cs, Admitted tol cs v.position ∧
      ∀ i ∈ v.tight, ∃ q, Admitted tol cs q ∧ tol.samePoint v.position q = true ∧
        ∃ k, cs[i]? = some k ∧ k.isTight tol q = true := by
  have hperm := corners_perm_found tol cs
  have hfound := collected_foundVertices (Tolerance.slack_nonneg habsolute hrelative) cs
  refine ⟨?_, fun p hp => ?_, fun v hv => ?_⟩
  · have hsymm : ∀ {v w : Vertex ℝ}, tol.samePoint v.position w.position = false →
        tol.samePoint w.position v.position = false := fun h => by
      rw [Tolerance.samePoint_comm, h]
    exact (hperm.pairwise_iff hsymm).mpr (List.pairwise_map.mp hfound.apart)
  · obtain ⟨v, hv, hsame, htight⟩ := hfound.exists_home (mem_admitted.mpr hp)
    exact ⟨v, hperm.mem_iff.mpr hv, hsame, htight⟩
  · have hv' := hperm.mem_iff.mp hv
    refine ⟨mem_admitted.mp (hfound.placed v hv'), fun i hi => ?_⟩
    obtain ⟨q, hq, hsame, htight⟩ := hfound.exists_source hv' hi
    exact ⟨q, mem_admitted.mp hq, hsame, htight⟩

/-! ## Two crossings at one vertex -/

/-- A strip in the first quadrant, so narrow that both ends of its lower edge count as one point. -/
noncomputable def sliver : List (Constraint ℝ) :=
  [.xNonnegative, .yNonnegative, ⟨1e6, 0, 5e-4, .le, "1000000x <= 0.0005"⟩]

theorem axes_crossing : (Constraint.xNonnegative : Constraint ℝ).crossing .yNonnegative .standard =
    some ⟨0, 0⟩ := by
  refine Constraint.standard_crossing.mpr ⟨?_, ?_, ?_⟩ <;>
    norm_num [Constraint.Crosses, Constraint.rowSize, Constraint.normal, Vec.cross_eq,
      Constraint.OnBoundary, Constraint.xNonnegative, Constraint.yNonnegative]

theorem sliver_crossings : crossings .standard sliver = [⟨0, 0⟩, ⟨5e-10, 0⟩] := by
  have hsides : (Constraint.xNonnegative : Constraint ℝ).crossing
      ⟨1e6, 0, 5e-4, .le, "1000000x <= 0.0005"⟩ .standard = none := by
    refine Constraint.standard_crossing_eq_none.mpr ?_
    norm_num [Constraint.Crosses, Constraint.rowSize, Constraint.normal, Vec.cross_eq,
      Constraint.xNonnegative]
  have hedge : (Constraint.yNonnegative : Constraint ℝ).crossing
      ⟨1e6, 0, 5e-4, .le, "1000000x <= 0.0005"⟩ .standard = some ⟨5e-10, 0⟩ := by
    refine Constraint.standard_crossing.mpr ⟨?_, ?_, ?_⟩ <;>
      norm_num [Constraint.Crosses, Constraint.rowSize, Constraint.normal, Vec.cross_eq,
        Constraint.OnBoundary, Constraint.yNonnegative]
  simp [crossings, sliver, pairs, axes_crossing, hsides, hedge]

theorem sliver_allows {x : ℝ} (hlow : 0 ≤ x) (hhigh : x ≤ 5e-10) :
    allows .standard sliver ⟨x, 0⟩ = true := by
  have hall : ∀ k ∈ sliver, k.Allows ⟨x, 0⟩ := by
    simp only [sliver, Constraint.Allows, Constraint.xNonnegative, Constraint.yNonnegative,
      Relation.Holds, List.forall_mem_cons, List.not_mem_nil, false_imp_iff, implies_true, and_true]
    exact ⟨by linarith, by norm_num, by linarith⟩
  exact List.all_eq_true.mpr fun k hk => Constraint.isSatisfied_of_allows (hall k hk)

theorem sliver_admitted : (crossings .standard sliver).filter (allows .standard sliver) =
    [⟨0, 0⟩, ⟨5e-10, 0⟩] := by
  have hleft : allows .standard sliver ⟨0, 0⟩ = true := sliver_allows le_rfl (by norm_num)
  have hright : allows .standard sliver ⟨5e-10, 0⟩ = true := sliver_allows (by norm_num) le_rfl
  rw [sliver_crossings, List.filter_cons_of_pos hleft, List.filter_cons_of_pos hright,
    List.filter_nil]

theorem corners_merged_sliver : Admitted .standard sliver ⟨5e-10, 0⟩ ∧
    ∃ v ∈ corners .standard sliver, Tolerance.standard.samePoint v.position ⟨5e-10, 0⟩ = true ∧
      ∀ i k, sliver[i]? = some k → k.isTight .standard ⟨5e-10, 0⟩ = true → i ∈ v.tight := by
  have hadmitted : Admitted .standard sliver ⟨5e-10, 0⟩ := by
    rw [← mem_admitted, sliver_admitted]
    exact List.mem_cons_of_mem _ List.mem_cons_self
  have habsolute : (0 : ℝ) ≤ (Tolerance.standard : Tolerance ℝ).absolute := by
    norm_num [Tolerance.standard]
  have hrelative : (0 : ℝ) ≤ (Tolerance.standard : Tolerance ℝ).relative := by
    norm_num [Tolerance.standard]
  obtain ⟨-, hkept, -⟩ := corners_merged habsolute hrelative sliver
  exact ⟨hadmitted, hkept _ hadmitted⟩

end PlanarLP
