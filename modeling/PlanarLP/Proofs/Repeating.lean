import PlanarLP.Proofs.Merging
import PlanarLP.Proofs.Recession
import PlanarLP.Proofs.Restating
import PlanarLP.Proofs.WellFormed

/-! Giving a constraint twice changes nothing, for any tolerance. The copy is crossed with every
constraint in the middle of the run, but what it adds there was met before: its crossing with an
earlier constraint is that of the first copy, its crossing with a later one is that of the first
copy with the lines in the other order, and it does not cross the first copy. So each list of
points that the solver goes through only comes back to points that it has passed (`Retraces`),
and a loop that keeps the first of several equal points does nothing at them. -/

namespace PlanarLP

/-! ## Lists that come back to what they have passed -/

/-- `ys` runs through `xs` and, on the way, comes back to members that it has passed. What was
passed before the start counts as well. -/
inductive Retraces {β : Type} : List β → List β → List β → Prop
  | nil (seen : List β) : Retraces seen [] []
  | fresh {seen xs ys : List β} (x : β) (h : Retraces (seen ++ [x]) xs ys) :
    Retraces seen (x :: xs) (x :: ys)
  | again {seen xs ys : List β} {x : β} (hx : x ∈ seen) (h : Retraces seen xs ys) :
    Retraces seen xs (x :: ys)

namespace Retraces

variable {β : Type} {seen xs ys : List β}

theorem append_left (zs : List β) (h : Retraces (seen ++ zs) xs ys) :
    Retraces seen (zs ++ xs) (zs ++ ys) := by
  induction zs generalizing seen with
  | nil => exact List.append_nil seen ▸ h
  | cons z zs ih =>
    refine .fresh z (ih ?_)
    rwa [List.append_assoc, List.singleton_append]

/-- What comes at the end may repeat what came before. -/
theorem append_right (h : ys ⊆ xs) : Retraces [] xs (xs ++ ys) := by
  have hend : ∀ zs, zs ⊆ xs → Retraces xs [] zs := by
    intro zs hzs
    induction zs with
    | nil => exact .nil _
    | cons z zs ih =>
      obtain ⟨hz, hzs⟩ := List.cons_subset.mp hzs
      exact .again hz (ih hzs)
  have happend : Retraces [] (xs ++ []) (xs ++ ys) := append_left xs (hend ys h)
  rwa [List.append_nil] at happend

theorem filter (f : β → Bool) (h : Retraces seen xs ys) :
    Retraces (seen.filter f) (xs.filter f) (ys.filter f) := by
  induction h with
  | nil => exact .nil _
  | @fresh seen xs ys x _ ih =>
    rw [List.filter_append] at ih
    by_cases hx : f x = true
    · rw [List.filter_cons_of_pos hx, List.filter_cons_of_pos hx]
      rw [List.filter_cons_of_pos hx] at ih
      exact .fresh x ih
    · rw [List.filter_cons_of_neg hx, List.filter_cons_of_neg hx]
      rwa [List.filter_cons_of_neg hx, List.filter_nil, List.append_nil] at ih
  | @again seen xs ys x hmem _ ih =>
    by_cases hx : f x = true
    · rw [List.filter_cons_of_pos hx]
      exact .again (List.mem_filter.mpr ⟨hmem, hx⟩) ih
    · rwa [List.filter_cons_of_neg hx]

end Retraces

variable {tol : Tolerance ℝ} {cs : List (Constraint ℝ)} {c : Constraint ℝ} {k : Nat}

/-- Once a point is passed, it is kept or one that counts as it is. -/
theorem any_keep (htol : ∀ m, 0 ≤ tol.slack m) {kept : List (Vec ℝ)} {p x : Vec ℝ}
    (h : p = x ∨ kept.any (tol.samePoint · p) = true) :
    (keep tol kept x).any (tol.samePoint · p) = true := by
  unfold keep
  split
  · rename_i hx
    rcases h with rfl | hp
    · exact hx
    · exact hp
  · rcases h with rfl | hp
    · rw [List.any_append, List.any_cons, Tolerance.samePoint_self htol, Bool.true_or,
        Bool.or_true]
    · rw [List.any_append, hp, Bool.true_or]

theorem foldl_keep_retraces (htol : ∀ m, 0 ≤ tol.slack m) {seen ps qs kept : List (Vec ℝ)}
    (h : Retraces seen ps qs) (hkept : ∀ p ∈ seen, kept.any (tol.samePoint · p) = true) :
    qs.foldl (keep tol) kept = ps.foldl (keep tol) kept := by
  induction h generalizing kept with
  | nil => rfl
  | fresh x _ ih =>
    refine ih (List.forall_mem_append.mpr ⟨fun p hp => ?_, List.forall_mem_singleton.mpr ?_⟩)
    · exact any_keep htol (.inr (hkept p hp))
    · exact any_keep htol (.inl rfl)
  | again hx _ ih =>
    have hstay : keep tol kept _ = kept := if_pos (hkept _ hx)
    rw [List.foldl_cons, hstay]
    exact ih hkept

/-- The points that are kept depend on what is passed first only. -/
theorem distinctPoints_retraces (htol : ∀ m, 0 ≤ tol.slack m) {ps qs : List (Vec ℝ)}
    (h : Retraces [] ps qs) : distinctPoints tol qs = distinctPoints tol ps :=
  foldl_keep_retraces htol h (List.forall_mem_nil _)

/-! ## Crossings -/

theorem crossings_cons (tol : Tolerance ℝ) (l : Constraint ℝ) (cs : List (Constraint ℝ)) :
    crossings tol (l :: cs) = cs.filterMap (fun m => l.crossing m tol) ++ crossings tol cs := by
  rw [crossings, pairs, List.filterMap_append, List.filterMap_map]
  rfl

/-- The crossings with a constraint that is added at the end come after each of the rows. -/
theorem crossings_cons_append (tol : Tolerance ℝ) (l c : Constraint ℝ)
    (cs : List (Constraint ℝ)) : crossings tol (l :: cs ++ [c]) =
      cs.filterMap (fun m => l.crossing m tol) ++
        ((l.crossing c tol).toList ++ crossings tol (cs ++ [c])) := by
  have hlast : [c].filterMap (fun m => l.crossing m tol) = (l.crossing c tol).toList := by
    rw [List.filterMap_cons]
    cases l.crossing c tol <;> rfl
  rw [List.cons_append, crossings_cons, List.filterMap_append, hlast, List.append_assoc]

/-- A boundary does not cross itself. -/
theorem Constraint.crossing_self (hdet : 0 ≤ tol.determinant) (c : Constraint ℝ) :
    c.crossing c tol = none := by
  have hsingular : tol.isSingular 0 (c.rowSize * c.rowSize) = true := by
    refine decide_eq_true ?_
    show |(0 : ℝ)| ≤ tol.determinant * (c.rowSize * c.rowSize)
    rw [abs_zero]
    exact mul_nonneg hdet (mul_self_nonneg _)
  rw [crossing_eq, Vec.cross_self, if_pos hsingular]

/-- One crossing more, which was passed before. -/
theorem Retraces.toList_append {β : Type} {seen xs ys : List β} {o : Option β}
    (ho : ∀ x, o = some x → x ∈ seen) (h : Retraces seen xs ys) :
    Retraces seen xs (o.toList ++ ys) := by
  cases o with
  | none => exact h
  | some x => exact .again (ho x rfl) h

/-- Behind the first copy, the crossings with the second one were all passed. -/
theorem retraces_crossings_of_passed {seen : List (Vec ℝ)}
    (h : ∀ l ∈ cs, ∀ p, l.crossing c tol = some p → p ∈ seen) :
    Retraces seen (crossings tol cs) (crossings tol (cs ++ [c])) := by
  induction cs generalizing seen with
  | nil => exact .nil _
  | cons l cs ih =>
    obtain ⟨hl, hcs⟩ := List.forall_mem_cons.mp h
    rw [crossings_cons, crossings_cons_append]
    refine .append_left _ (.toList_append (fun p hp => ?_) (ih fun m hm p hp => ?_))
    · exact List.mem_append_left _ (hl p hp)
    · exact List.mem_append_left _ (hcs m hm p hp)

/-- The crossings with a second copy come back to those with the first. -/
theorem retraces_crossings (hdet : 0 ≤ tol.determinant) (hc : c ∈ cs) (seen : List (Vec ℝ)) :
    Retraces seen (crossings tol cs) (crossings tol (cs ++ [c])) := by
  induction cs generalizing seen with
  | nil => cases hc
  | cons l cs ih =>
    rw [crossings_cons, crossings_cons_append]
    refine .append_left _ ?_
    rcases List.mem_cons.mp hc with rfl | hc
    · -- the row of the first copy, with which the second is crossed from here on
      rw [Constraint.crossing_self hdet]
      refine retraces_crossings_of_passed fun m hm p hp => List.mem_append_right _ ?_
      exact List.mem_filterMap.mpr ⟨m, hm, (c.crossing_comm m tol).trans hp⟩
    · refine .toList_append (fun p hp => List.mem_append_right _ ?_) (ih hc _)
      exact List.mem_filterMap.mpr ⟨c, hc, hp⟩

theorem allows_append_of_mem (hc : c ∈ cs) (tol : Tolerance ℝ) :
    allows tol (cs ++ [c]) = allows tol cs := by
  funext p
  rw [Bool.eq_iff_iff, allows, allows, List.all_append, Bool.and_eq_true, List.all_eq_true]
  refine and_iff_left_of_imp fun h => ?_
  rw [List.all_cons, h c hc]
  rfl

/-! ## Tight constraints -/

/-- The indices with that of the copy at the end, where the copied constraint is among them. -/
def withCopy (k n : Nat) (is : List Nat) : List Nat := if k ∈ is then is ++ [n] else is

/-- The vertex when constraint `k` is given again as constraint `n`. -/
def Vertex.withCopy {α : Type} (k n : Nat) (v : Vertex α) : Vertex α :=
  let tight := PlanarLP.withCopy k n v.tight
  ⟨v.x, v.y, tight, 2 < tight.length⟩

section Indices

variable {n i : Nat} {is js : List Nat}

theorem mem_withCopy : i ∈ withCopy k n is ↔ i ∈ is ∨ i = n ∧ k ∈ is := by
  unfold withCopy
  split
  · rename_i h
    rw [List.mem_append, List.mem_singleton, and_iff_left h]
  · rename_i h
    rw [iff_false_intro h, and_false, or_false]

theorem withCopy_ascending (his : is.Pairwise (· < ·)) (hn : ∀ i ∈ is, i < n) :
    (withCopy k n is).Pairwise (· < ·) := by
  unfold withCopy
  split
  · refine List.pairwise_append.mpr ⟨his, List.pairwise_singleton _ _, fun i hi j hj => ?_⟩
    rw [List.mem_singleton.mp hj]
    exact hn i hi
  · exact his

theorem unionIndices_withCopy (hjs : js.Pairwise (· < ·)) (hisn : ∀ i ∈ is, i < n)
    (hjsn : ∀ i ∈ js, i < n) : unionIndices (withCopy k n is) (withCopy k n js) =
      withCopy k n (unionIndices is js) := by
  have hn : ∀ i ∈ unionIndices is js, i < n := fun i hi =>
    (mem_unionIndices.mp hi).elim (hisn i) (hjsn i)
  refine (unionIndices_ascending (withCopy_ascending hjs hjsn)).eq_of_mem_iff
    (withCopy_ascending (unionIndices_ascending hjs) hn) fun i => ?_
  rw [mem_unionIndices, mem_withCopy, mem_withCopy, mem_withCopy, mem_unionIndices,
    mem_unionIndices]
  tauto

theorem Vertex.merge_withCopy {v w : Vertex ℝ} (hv : v.WellFormed n) (hw : w.WellFormed n) :
    (v.withCopy k n).merge (w.withCopy k n).tight = (v.merge w.tight).withCopy k n := by
  have hunion := unionIndices_withCopy (k := k) hw.ascending hv.inRange hw.inRange
  simp only [merge, withCopy, hunion]
  rfl

theorem absorb_withCopy {new : Vertex ℝ} {vs : List (Vertex ℝ)} (hnew : new.WellFormed n)
    (hvs : ∀ v ∈ vs, v.WellFormed n) :
    absorb tol (new.withCopy k n) (vs.map (Vertex.withCopy k n)) =
      (absorb tol new vs).map (Vertex.withCopy k n) := by
  induction vs with
  | nil => rfl
  | cons v vs ih =>
    obtain ⟨hv, hvs⟩ := List.forall_mem_cons.mp hvs
    rw [List.map_cons, absorb, absorb]
    have hposition : ∀ w : Vertex ℝ, (w.withCopy k n).position = w.position := fun _ => rfl
    rw [hposition, hposition, Vertex.merge_withCopy hv hnew, ih hvs]
    split <;> rfl

end Indices

/-- A copy is tight where the constraint is. -/
theorem tightAt_append_copy (hk : cs[k]? = some c) (tol : Tolerance ℝ) (p : Vec ℝ) :
    tightAt tol (cs ++ [c]) p = withCopy k cs.length (tightAt tol cs p) := by
  have htight : k ∈ tightAt tol cs p ↔ c.isTight tol p = true := by
    rw [mem_tightAt, hk]
    simp only [Option.some.injEq, exists_eq_left']
  have happend : tightAt tol (cs ++ [c]) p =
      tightAt tol cs p ++ if c.isTight tol p then [cs.length] else [] := by
    simp only [tightAt, List.zipIdx_append, List.filter_append, List.map_append, Nat.zero_add,
      List.zipIdx_cons, List.zipIdx_nil, List.filter_cons, List.filter_nil]
    split <;> rfl
  rw [happend, withCopy]
  by_cases h : c.isTight tol p = true
  · rw [if_pos h, if_pos (htight.mpr h)]
  · rw [if_neg h, if_neg (mt htight.mp h), List.append_nil]

theorem vertexAt_append_copy (hk : cs[k]? = some c) (tol : Tolerance ℝ) (p : Vec ℝ) :
    vertexAt tol (cs ++ [c]) p = (vertexAt tol cs p).withCopy k cs.length := by
  rw [vertexAt, Vertex.atPoint, tightAt_append_copy hk]
  rfl

/-! ## Corners -/

/-- Absorbing once more what was absorbed before changes nothing. -/
theorem Collected.absorb_seen {seen : List (Vec ℝ)} {vs : List (Vertex ℝ)} {p : Vec ℝ} {n : Nat}
    (h : Collected tol cs seen vs) (hvs : ∀ v ∈ vs, v.WellFormed n) (hp : p ∈ seen) :
    PlanarLP.absorb tol (vertexAt tol cs p) vs = vs := by
  rcases absorb_cases tol (vertexAt tol cs p) vs with
    ⟨hnone, -⟩ | ⟨front, v, back, rfl, hhome, habs⟩
  · obtain ⟨q, hq⟩ := h.found p hp
    rw [vertexAt_position, hq] at hnone
    cases hnone
  · rw [vertexAt_position] at hhome
    have hv : v ∈ front ++ v :: back := List.mem_append_right _ List.mem_cons_self
    have hwell := hvs v hv
    -- it was the home of `p` before, and has all that is tight there
    have hunion : unionIndices v.tight (tightAt tol cs p) = v.tight := by
      refine (unionIndices_ascending (tightAt_ascending tol cs p)).eq_of_mem_iff hwell.ascending
        fun i => ?_
      rw [mem_unionIndices]
      exact or_iff_left_of_imp fun hi => (h.tight v hv i).mpr ⟨p, hp, hhome, hi⟩
    have hmerge : v.merge (vertexAt tol cs p).tight = v := by
      have hdegenerate : decide (2 < v.tight.length) = v.degenerate := by
        rw [Bool.eq_iff_iff, decide_eq_true_iff, hwell.degenerate]
      have htight : (vertexAt tol cs p).tight = tightAt tol cs p := rfl
      simp only [Vertex.merge, htight, hunion, hdegenerate]
    rw [habs, hmerge]

/-- The vertices that are found have the copy where they have the constraint. -/
theorem foldl_absorb_copy (htol : ∀ m, 0 ≤ tol.slack m) (hk : cs[k]? = some c)
    {seen ps qs : List (Vec ℝ)} {vs : List (Vertex ℝ)} (h : Retraces seen ps qs)
    (hseen : Collected tol cs seen vs) (hvs : ∀ v ∈ vs, v.WellFormed cs.length) :
    qs.foldl (fun vs p => absorb tol (vertexAt tol (cs ++ [c]) p) vs)
        (vs.map (Vertex.withCopy k cs.length)) =
      (ps.foldl (fun vs p => absorb tol (vertexAt tol cs p) vs) vs).map
        (Vertex.withCopy k cs.length) := by
  induction h generalizing vs with
  | nil => rfl
  | fresh x _ ih =>
    rw [List.foldl_cons, List.foldl_cons, vertexAt_append_copy hk,
      absorb_withCopy (vertexAt_wellFormed tol cs x) hvs]
    exact ih (hseen.absorb htol x) ((vertexAt_wellFormed tol cs x).absorb hvs)
  | again hx _ ih =>
    rw [List.foldl_cons, vertexAt_append_copy hk,
      absorb_withCopy (vertexAt_wellFormed tol cs _) hvs, hseen.absorb_seen hvs hx]
    exact ih hseen hvs

/-- The order of vertices is that of their positions. -/
theorem counterClockwise_map {f : Vertex ℝ → Vertex ℝ} (hf : ∀ v, (f v).position = v.position)
    (vs : List (Vertex ℝ)) : counterClockwise (vs.map f) = (counterClockwise vs).map f := by
  have hcentroid : centroid (vs.map f) = centroid vs := by
    simp only [centroid, List.foldl_map, List.length_map, hf]
  rw [counterClockwise, counterClockwise, List.map_mergeSort fun v _ w _ => ?_]
  rw [orderAround, orderAround, hf, hf, hcentroid]

theorem corners_copy (htol : ∀ m, 0 ≤ tol.slack m) (hdet : 0 ≤ tol.determinant)
    (hk : cs[k]? = some c) :
    corners tol (cs ++ [c]) = (corners tol cs).map (Vertex.withCopy k cs.length) := by
  have hc : c ∈ cs := List.mem_of_getElem? hk
  have hpoints := (retraces_crossings hdet hc []).filter (allows tol cs)
  have hfound := foldl_absorb_copy htol hk hpoints .nil (List.forall_mem_nil _)
  rw [List.map_nil] at hfound
  have hposition : ∀ v : Vertex ℝ, (v.withCopy k cs.length).position = v.position := fun _ => rfl
  rw [corners, allows_append_of_mem hc, hfound, counterClockwise_map hposition, corners]

/-! ## Sample points and open directions -/

theorem samplePoints_copy (htol : ∀ m, 0 ≤ tol.slack m) (hk : cs[k]? = some c) :
    samplePoints tol (cs ++ [c]) = (samplePoints tol cs).map (Vertex.withCopy k cs.length) := by
  have hc : c ∈ cs := List.mem_of_getElem? hk
  have hprobes : Retraces [] (probes cs) (probes (cs ++ [c])) := by
    have hpoint : [c.boundaryPoint] ⊆ probes cs :=
      List.cons_subset.mpr ⟨List.mem_cons_of_mem _ (List.mem_map_of_mem hc), List.nil_subset _⟩
    have h := Retraces.append_right hpoint
    rwa [probes, List.cons_append, ← List.map_singleton, ← List.map_append] at h
  have hvertex : vertexAt tol (cs ++ [c]) = Vertex.withCopy k cs.length ∘ vertexAt tol cs :=
    funext (vertexAt_append_copy hk tol)
  rw [samplePoints_eq, samplePoints_eq, allows_append_of_mem hc,
    distinctPoints_retraces htol (hprobes.filter _), hvertex, List.map_map]

theorem recessionRays_copy (htol : ∀ m, 0 ≤ tol.slack m) (hc : c ∈ cs) :
    recessionRays tol (cs ++ [c]) = recessionRays tol cs := by
  have hnormals : normalsOf (cs ++ [c]) = normalsOf cs ++ c.outwardNormals := by
    rw [normalsOf, List.flatMap_append, List.flatMap_singleton, normalsOf]
  have hsub : c.outwardNormals ⊆ normalsOf cs := fun n hn => List.mem_flatMap.mpr ⟨c, hc, hn⟩
  have hempty : (normalsOf (cs ++ [c])).isEmpty = (normalsOf cs).isEmpty := by
    rw [hnormals, Bool.eq_iff_iff, List.isEmpty_iff, List.isEmpty_iff, List.append_eq_nil_iff]
    exact and_iff_left_of_imp fun h => List.subset_nil.mp (h ▸ hsub)
  have hrecedes : recedes tol (normalsOf (cs ++ [c])) = recedes tol (normalsOf cs) := by
    funext d
    rw [hnormals, Bool.eq_iff_iff, recedes, recedes, List.all_append, Bool.and_eq_true,
      List.all_eq_true, List.all_eq_true]
    exact and_iff_left_of_imp fun h n hn => h n (hsub hn)
  have hcandidates : Retraces [] (rayCandidates (normalsOf cs))
      (rayCandidates (normalsOf (cs ++ [c]))) := by
    have hsplit : rayCandidates (normalsOf cs ++ c.outwardNormals) =
        rayCandidates (normalsOf cs) ++ rayCandidates c.outwardNormals := List.flatMap_append
    rw [hnormals, hsplit]
    refine .append_right fun d hd => ?_
    obtain ⟨n, hn, hd⟩ := List.mem_flatMap.mp hd
    exact List.mem_flatMap.mpr ⟨n, hsub hn, hd⟩
  show (if (normalsOf (cs ++ [c])).isEmpty then axisDirections else
      (distinctPoints tol ((rayCandidates (normalsOf (cs ++ [c]))).filter
        (recedes tol (normalsOf (cs ++ [c]))))).mergeSort _) = _
  rw [hempty, hrecedes, distinctPoints_retraces htol (hcandidates.filter _)]
  rfl

/-! ## The region -/

/-- The region `r'` is `r` with constraint `k` given again as constraint `n`: the copy is tight
where the constraint is, and all else is the same. -/
structure Region.GainsCopy (k n : Nat) (r r' : Region ℝ) : Prop where
  status : r'.status = r.status
  vertices : r'.vertices = r.vertices.map (Vertex.withCopy k n)
  witnesses : r'.witnesses = r.witnesses.map (Vertex.withCopy k n)
  openDirections : r'.openDirections = r.openDirections
  /-- Nothing stood under the index of the copy. -/
  fresh : ∀ v ∈ r.vertices ++ r.witnesses, n ∉ v.tight

theorem regionOf_copy (htol : ∀ m, 0 ≤ tol.slack m) (hdet : 0 ≤ tol.determinant)
    (hk : cs[k]? = some c) :
    (regionOf tol cs).GainsCopy k cs.length (regionOf tol (cs ++ [c])) := by
  have hfresh : ∀ vs : List (Vertex ℝ), (∀ v ∈ vs, v.WellFormed cs.length) →
      ∀ v ∈ vs, cs.length ∉ v.tight :=
    fun vs hvs v hv hn => Nat.lt_irrefl _ ((hvs v hv).inRange _ hn)
  have hcorners := hfresh _ (corners_wellFormed tol cs)
  have hsamples := hfresh _ (samplePoints_wellFormed tol cs)
  rw [regionOf, regionOf, corners_copy htol hdet hk, samplePoints_copy htol hk,
    recessionRays_copy htol (List.mem_of_getElem? hk)]
  cases hc : corners tol cs with
  | cons v vs =>
    rw [hc] at hcorners
    have hstatus : Region.status (.cornered ((v :: vs).map (Vertex.withCopy k cs.length))
        (recessionRays tol cs)) = Region.status (.cornered (v :: vs) (recessionRays tol cs)) := by
      cases recessionRays tol cs <;> rfl
    exact ⟨hstatus, rfl, rfl, rfl, fun w hw => hcorners w (List.append_nil (v :: vs) ▸ hw)⟩
  | nil =>
    cases hs : samplePoints tol cs with
    | cons w ws =>
      rw [hs] at hsamples
      exact ⟨rfl, rfl, rfl, rfl, hsamples⟩
    | nil => exact ⟨rfl, rfl, rfl, rfl, List.forall_mem_nil _⟩

/-- **Repeating a constraint is harmless.** With constraint `k` given once more at the end the
solver returns the same status, vertices and witnesses at the same places in the same order, and
the same open directions; only the tight indices gain that of the copy where they have `k`. -/
theorem solve_repeated (habsolute : 0 ≤ tol.absolute) (hrelative : 0 ≤ tol.relative)
    (hdeterminant : 0 ≤ tol.determinant) {limit : Nat} (hk : cs[k]? = some c)
    (hlimit : cs.length < limit) : ∃ r r',
      (⟨tol, limit⟩ : Solver ℝ).solve (.of cs false) = .ok r ∧
      (⟨tol, limit⟩ : Solver ℝ).solve (.of (cs ++ [c]) false) = .ok r' ∧
      r.GainsCopy k cs.length r' := by
  have hmore : (cs ++ [c]).length ≤ limit := by
    rw [List.length_append, List.length_singleton]
    exact hlimit
  refine ⟨_, _, Solver.solve_of_size hlimit.le, Solver.solve_of_size hmore, ?_⟩
  rw [ConstraintSet.constraints_of_false, ConstraintSet.constraints_of_false]
  exact regionOf_copy (Tolerance.slack_nonneg habsolute hrelative) hdeterminant hk

/-- The narrow strip with its lower edge given twice. -/
theorem solve_repeated_sliver : ∃ r r',
    (⟨.standard, 50⟩ : Solver ℝ).solve (.of sliver false) = .ok r ∧
    (⟨.standard, 50⟩ : Solver ℝ).solve (.of (sliver ++ [.yNonnegative]) false) = .ok r' ∧
    r.GainsCopy 1 3 r' := by
  have hstandard : (0 : ℝ) ≤ (Tolerance.standard : Tolerance ℝ).absolute ∧
      (0 : ℝ) ≤ (Tolerance.standard : Tolerance ℝ).relative ∧
      (0 : ℝ) ≤ (Tolerance.standard : Tolerance ℝ).determinant := by
    norm_num [Tolerance.standard]
  obtain ⟨habsolute, hrelative, hdeterminant⟩ := hstandard
  have hk : sliver[1]? = some .yNonnegative := rfl
  have hlimit : sliver.length < 50 := by decide
  exact solve_repeated habsolute hrelative hdeterminant hk hlimit

end PlanarLP
