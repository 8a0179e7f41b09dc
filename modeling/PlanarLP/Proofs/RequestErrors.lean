import PlanarLP.Binary64
import PlanarLP.Proofs.ErrorSpans
import PlanarLP.Proofs.Lowering
import PlanarLP.Proofs.Verdict
import PlanarLP.Proofs.WellFormed
import PlanarLP.Request

/-! Which error a request reports. Its parts are checked one after another: the number of
constraints, the constraints, the objective with its sense, the window. Each check has a lemma
for what it accepts and one for what it reports, and from these it follows which error comes
first (`solveWith_reports`). What is left then can be described: the bounds that are added to the
given constraints do not count. In exact arithmetic constraints that are read are proper, so the
description decides the problem that the request writes (`solveWith_decides`). -/

namespace PlanarLP

open Formula

theorem mapError_eq_ok {ε δ β : Type} {x : Except ε β} {f : ε → δ} {b : β} :
    x.mapError f = .ok b ↔ x = .ok b := by
  cases x <;> simp [Except.mapError]

theorem mapError_eq_error {ε δ β : Type} {x : Except ε β} {f : ε → δ} {e : δ} :
    x.mapError f = .error e ↔ ∃ cause, x = .error cause ∧ f cause = e := by
  cases x <;> simp [Except.mapError]

theorem map_eq_ok {ε β γ : Type} {x : Except ε β} {f : β → γ} {c : γ} :
    x.map f = .ok c ↔ ∃ b, x = .ok b ∧ f b = c := by
  cases x <;> simp [Except.map]

theorem map_eq_error {ε β γ : Type} {x : Except ε β} {f : β → γ} {e : ε} :
    x.map f = .error e ↔ x = .error e := by
  cases x <;> simp [Except.map]

variable {α : Type}

theorem Solver.checkSize_eq_ok {solver : Solver α} {count : Nat} {u : Unit} :
    solver.checkSize count = .ok u ↔ count ≤ solver.maxConstraints := by
  unfold checkSize
  split <;> simp <;> omega

theorem Solver.checkSize_eq_error {solver : Solver α} {count : Nat} {e : TooManyConstraints} :
    solver.checkSize count = .error e ↔
      solver.maxConstraints < count ∧ e = ⟨count, solver.maxConstraints⟩ := by
  unfold checkSize
  split <;> simp [eq_comm, *]

variable [Scalar α]

/-- The bounds that are added to the given constraints are not counted. -/
theorem Solver.exists_describe {solver : Solver α} {given : List (Constraint α)}
    (hsize : given.length ≤ solver.maxConstraints) (implied : Bool)
    (objective : Option (Objective α)) (viewport : Option (Viewport α)) :
    ∃ d, solver.describe (.of given implied) objective viewport = .ok d :=
  ⟨_, Solver.describe_eq_ok.mpr ⟨hsize, _, rfl, rfl⟩⟩

/-! ## Constraints -/

/-- The constraints that some texts write. -/
def Reads (texts : List String) (ks : List (Constraint α)) : Prop :=
  List.Forall₂ (fun text k => Constraint.parse text = .ok k) texts ks

theorem Reads.proper {texts : List String} {ks : List (Constraint ℝ)} (h : Reads texts ks) :
    ∀ k ∈ ks, k.Proper := by
  induction h with
  | nil => exact List.forall_mem_nil _
  | cons hk _ ih => exact List.forall_mem_cons.mpr ⟨Constraint.parse_proper hk, ih⟩

theorem parseConstraintsFrom_eq_ok {index : Nat} {texts : List String}
    {ks : List (Constraint α)} : parseConstraintsFrom index texts = .ok ks ↔ Reads texts ks := by
  induction texts generalizing index ks with
  | nil =>
    constructor
    · intro h
      cases h
      exact .nil
    · intro h
      cases h
      rfl
  | cons text texts ih =>
    rw [parseConstraintsFrom, bind_eq_ok]
    simp only [mapError_eq_ok, bind_eq_ok, ih]
    constructor
    · rintro ⟨k, hk, ks, hks, h⟩
      cases h
      exact .cons hk hks
    · intro h
      cases h with
      | cons hk hks => exact ⟨_, hk, _, hks, rfl⟩

/-- The first text that is no constraint is reported, with what is wrong with it. -/
theorem parseConstraintsFrom_eq_error {index : Nat} {texts : List String} {e : RequestError α} :
    parseConstraintsFrom index texts = .error e ↔ ∃ earlier text later cause,
      texts = earlier ++ text :: later ∧ (∃ ks : List (Constraint α), Reads earlier ks) ∧
        (Constraint.parse text : Except _ (Constraint α)) = .error cause ∧
        e = .constraint (index + earlier.length) text cause := by
  induction texts generalizing index with
  | nil => exact iff_of_false nofun fun ⟨earlier, _, _, _, h, _⟩ => by cases earlier <;> cases h
  | cons text texts ih =>
    rw [parseConstraintsFrom, bind_eq_error]
    simp only [mapError_eq_error, mapError_eq_ok, bind_eq_error, ih]
    constructor
    · rintro (⟨cause, hcause, rfl⟩ |
        ⟨k, hk, ⟨earlier, text', later, cause, rfl, ⟨ks, hks⟩, h⟩ | ⟨_, _, h⟩⟩)
      · exact ⟨[], text, texts, cause, rfl, ⟨[], .nil⟩, hcause, rfl⟩
      · refine ⟨text :: earlier, text', later, cause, rfl, ⟨k :: ks, .cons hk hks⟩, h.1, ?_⟩
        rw [h.2, List.length_cons, Nat.add_right_comm, Nat.add_assoc]
      · cases h
    · rintro ⟨earlier, text', later, cause, htexts, ⟨ks, hks⟩, hcause, rfl⟩
      cases hks with
      | nil =>
        cases htexts
        exact .inl ⟨cause, hcause, rfl⟩
      | cons hk hks =>
        cases htexts
        refine .inr ⟨_, hk, .inl ⟨_, text', later, cause, rfl, ⟨_, hks⟩, hcause, ?_⟩⟩
        rw [List.length_cons, Nat.add_right_comm, Nat.add_assoc]

/-! ## The objective -/

theorem Sense.ofText_eq_error {text : String} {e : UnknownSense} :
    Sense.ofText text = .error e ↔ (∀ s, Sense.ofText text ≠ .ok s) ∧ e = ⟨text⟩ := by
  unfold Sense.ofText
  dsimp only
  split
  · simp
  · split <;> simp [eq_comm]

/-! ## The window -/

namespace Viewport

def IsFinite (w : Viewport α) : Prop :=
  ∀ bound ∈ [w.xmin, w.xmax, w.ymin, w.ymax], Scalar.isFinite bound = true

instance (w : Viewport α) : Decidable w.IsFinite :=
  inferInstanceAs (Decidable (∀ bound ∈ [w.xmin, w.xmax, w.ymin, w.ymax],
    Scalar.isFinite bound = true))

/-- Finite bounds, the lower ones below the upper ones. -/
structure IsWindow (w : Viewport α) : Prop where
  finite : w.IsFinite
  wide : ¬w.xmax ≤ w.xmin
  tall : ¬w.ymax ≤ w.ymin

/-- The first thing that is wrong with the bounds. -/
inductive HasDefect (w : Viewport α) : Defect → Prop
  | nonFinite (h : ¬w.IsFinite) : HasDefect w .nonFinite
  | emptyX (hfinite : w.IsFinite) (h : w.xmax ≤ w.xmin) : HasDefect w (.empty .x)
  | emptyY (hfinite : w.IsFinite) (hwide : ¬w.xmax ≤ w.xmin) (h : w.ymax ≤ w.ymin) :
    HasDefect w (.empty .y)

variable {w w' : Viewport α} {d : Defect}

theorem check_of_isFinite (h : w.IsFinite) : w.check =
    if w.xmax ≤ w.xmin then .error (.empty .x)
    else if w.ymax ≤ w.ymin then .error (.empty .y)
    else .ok w :=
  if_neg (by simpa [IsFinite] using h)

theorem check_of_not_isFinite (h : ¬w.IsFinite) : w.check = .error .nonFinite :=
  if_pos (by rwa [Bool.not_eq_true', Bool.eq_false_iff, ne_eq, List.all_eq_true])

theorem check_eq_ok : w.check = .ok w' ↔ w.IsWindow ∧ w' = w := by
  by_cases hfinite : w.IsFinite
  · rw [check_of_isFinite hfinite]
    split
    · rename_i hx
      exact iff_of_false nofun fun h => h.1.wide hx
    split
    · rename_i hy
      exact iff_of_false nofun fun h => h.1.tall hy
    · rename_i hx hy
      rw [and_iff_right (IsWindow.mk hfinite hx hy), Except.ok.injEq, eq_comm]
  · rw [check_of_not_isFinite hfinite]
    exact iff_of_false nofun fun h => hfinite h.1.finite

theorem check_eq_error : w.check = .error d ↔ w.HasDefect d := by
  constructor
  · intro h
    by_cases hfinite : w.IsFinite
    · rw [check_of_isFinite hfinite] at h
      split at h
      · rename_i hx
        cases h
        exact .emptyX hfinite hx
      split at h
      · rename_i hx hy
        cases h
        exact .emptyY hfinite hx hy
      · cases h
    · rw [check_of_not_isFinite hfinite] at h
      cases h
      exact .nonFinite hfinite
  · intro h
    cases h with
    | nonFinite h => exact check_of_not_isFinite h
    | emptyX hfinite h => rw [check_of_isFinite hfinite, if_pos h]
    | emptyY hfinite hwide h => rw [check_of_isFinite hfinite, if_neg hwide, if_pos h]

end Viewport

namespace Request

variable {r : Request α} {solver : Solver α} {given : List (Constraint α)}

/-- There are not too many constraints, and they are those. -/
structure Constrained (r : Request α) (solver : Solver α) (given : List (Constraint α)) : Prop where
  size : r.constraints.length ≤ solver.maxConstraints
  reads : Reads r.constraints given

/-- The text of the objective, if there is one and it is not blank. -/
def objectiveText? (r : Request α) : Option String :=
  r.objective.filter fun text => !Text.isAllBlank text.toList

inductive ReadsObjective (r : Request α) : Option (Objective α) → Prop
  | absent (h : r.objectiveText? = none) : ReadsObjective r none
  | present {text : String} {s : Sense} {f : Objective α} (h : r.objectiveText? = some text)
    (hs : Sense.ofText r.sense = .ok s) (hf : Objective.parse text s = .ok f) :
    ReadsObjective r (some f)

/-- What is wrong with the objective or else, before that, with its sense. -/
inductive ObjectiveFault (r : Request α) : RequestError α → Prop
  | sense {text : String} (h : r.objectiveText? = some text)
    (hs : ∀ s, Sense.ofText r.sense ≠ .ok s) : ObjectiveFault r (.sense ⟨r.sense⟩)
  | objective {text : String} {s : Sense} {cause : ParseError α}
    (h : r.objectiveText? = some text) (hs : Sense.ofText r.sense = .ok s)
    (hf : Objective.parse text s = .error cause) : ObjectiveFault r (.objective cause)

theorem parseObjective_none (h : r.objectiveText? = none) : r.parseObjective = .ok none := by
  unfold parseObjective
  split
  · rfl
  · rename_i text htext
    rw [objectiveText?, htext, Option.filter_some] at h
    split
    · rfl
    · rename_i hblank
      simp [hblank] at h

theorem parseObjective_some {text : String} (h : r.objectiveText? = some text) :
    r.parseObjective = (do
      let sense ← (Sense.ofText r.sense).mapError RequestError.sense
      let f ← (Objective.parse text sense).mapError RequestError.objective
      return some f) := by
  obtain ⟨htext, hblank⟩ := Option.filter_eq_some_iff.mp h
  rw [Bool.not_eq_true', Bool.eq_false_iff] at hblank
  rw [parseObjective, htext]
  exact if_neg hblank

theorem parseObjective_eq_ok {f : Option (Objective α)} :
    r.parseObjective = .ok f ↔ r.ReadsObjective f := by
  cases htext : r.objectiveText? with
  | none =>
    rw [parseObjective_none htext]
    constructor
    · intro h
      cases h
      exact .absent htext
    · intro h
      cases h with
      | absent => rfl
      | present h => exact absurd (htext.symm.trans h) nofun
  | some text =>
    rw [parseObjective_some htext]
    simp only [bind_eq_ok, mapError_eq_ok]
    constructor
    · rintro ⟨s, hs, f, hf, h⟩
      cases h
      exact .present htext hs hf
    · intro h
      cases h with
      | absent h => exact absurd (htext.symm.trans h) nofun
      | present h hs hf =>
        cases htext.symm.trans h
        exact ⟨_, hs, _, hf, rfl⟩

theorem parseObjective_eq_error {e : RequestError α} :
    r.parseObjective = .error e ↔ r.ObjectiveFault e := by
  cases htext : r.objectiveText? with
  | none =>
    rw [parseObjective_none htext]
    refine iff_of_false nofun fun h => ?_
    cases h with
    | sense h | objective h => exact absurd (htext.symm.trans h) nofun
  | some text =>
    rw [parseObjective_some htext]
    simp only [bind_eq_error, mapError_eq_ok, mapError_eq_error, Sense.ofText_eq_error]
    constructor
    · rintro (⟨_, ⟨hs, rfl⟩, rfl⟩ | ⟨s, hs, ⟨cause, hf, rfl⟩ | ⟨_, _, h⟩⟩)
      · exact .sense htext hs
      · exact .objective htext hs hf
      · cases h
    · intro h
      cases h with
      | sense h hs => exact .inl ⟨_, ⟨hs, rfl⟩, rfl⟩
      | objective h hs hf =>
        cases htext.symm.trans h
        exact .inr ⟨_, hs, .inl ⟨_, hf, rfl⟩⟩

/-- The window that is asked for is one, or none is. -/
inductive ReadsViewport (r : Request α) : Option (Viewport α) → Prop
  | absent (h : r.viewport = none) : ReadsViewport r none
  | present {w : Viewport α} (h : r.viewport = some w) (hw : w.IsWindow) : ReadsViewport r (some w)

theorem checkViewport_eq_ok {w : Option (Viewport α)} :
    r.checkViewport = .ok w ↔ r.ReadsViewport w := by
  unfold checkViewport
  split
  · rename_i hnone
    constructor
    · intro h
      cases h
      exact .absent hnone
    · intro h
      cases h with
      | absent => rfl
      | present h => exact absurd (hnone.symm.trans h) nofun
  · rename_i v hsome
    simp only [mapError_eq_ok, map_eq_ok, Viewport.check_eq_ok]
    constructor
    · intro ⟨w, ⟨hw, hv⟩, h⟩
      rw [← h, hv]
      exact .present hsome hw
    · intro h
      cases h with
      | absent h => exact absurd (hsome.symm.trans h) nofun
      | present h hw =>
        cases hsome.symm.trans h
        exact ⟨_, ⟨hw, rfl⟩, rfl⟩

theorem checkViewport_eq_error {e : RequestError α} : r.checkViewport = .error e ↔
    ∃ w d, r.viewport = some w ∧ w.HasDefect d ∧ .viewport d = e := by
  simp only [← Viewport.check_eq_error]
  unfold checkViewport
  split
  · rename_i hnone
    exact iff_of_false nofun fun ⟨w, _, hsome, _⟩ => absurd (hnone.symm.trans hsome) nofun
  · rename_i w hsome
    simp only [mapError_eq_error, map_eq_error, hsome, Option.some.injEq, exists_and_left,
      exists_eq_left']

/-- The first thing that is wrong with a request. -/
inductive Reports (r : Request α) (solver : Solver α) : RequestError α → Prop
  | size (h : solver.maxConstraints < r.constraints.length) :
    Reports r solver (.tooManyConstraints ⟨r.constraints.length, solver.maxConstraints⟩)
  | constraint (hsize : r.constraints.length ≤ solver.maxConstraints)
    {earlier later : List String} {text : String} {ks : List (Constraint α)}
    {cause : ParseError α} (htexts : r.constraints = earlier ++ text :: later)
    (hearlier : Reads earlier ks)
    (h : (Constraint.parse text : Except _ (Constraint α)) = .error cause) :
    Reports r solver (.constraint earlier.length text cause)
  | objective {given : List (Constraint α)} {e : RequestError α}
    (hc : r.Constrained solver given) (h : r.ObjectiveFault e) : Reports r solver e
  | viewport {given : List (Constraint α)} {f : Option (Objective α)} {w : Viewport α}
    {d : Viewport.Defect} (hc : r.Constrained solver given) (hf : r.ReadsObjective f)
    (hw : r.viewport = some w) (h : w.HasDefect d) : Reports r solver (.viewport d)

theorem solveWith_eq_error {e : RequestError α} :
    r.solveWith solver = .error e ↔ r.Reports solver e := by
  unfold solveWith parseConstraints
  simp only [bind_eq_error, mapError_eq_error, mapError_eq_ok, Solver.checkSize_eq_error,
    Solver.checkSize_eq_ok, parseConstraintsFrom_eq_ok, parseConstraintsFrom_eq_error,
    parseObjective_eq_ok, parseObjective_eq_error, checkViewport_eq_ok, checkViewport_eq_error]
  constructor
  · rintro (⟨_, ⟨hsize, rfl⟩, rfl⟩ | ⟨-, hsize, hrest⟩)
    · exact .size hsize
    obtain ⟨earlier, text, later, cause, htexts, ⟨ks, hks⟩, hcause, rfl⟩ | ⟨given, hgiven, hrest⟩ :=
      hrest
    · rw [Nat.zero_add]
      exact .constraint hsize htexts hks hcause
    obtain h | ⟨f, hf, hrest⟩ := hrest
    · exact .objective ⟨hsize, hgiven⟩ h
    obtain ⟨w, d, hw, hd, rfl⟩ | ⟨w, -, _, h, -⟩ := hrest
    · exact .viewport ⟨hsize, hgiven⟩ hf hw hd
    · -- the number of constraints is the one that has been checked
      obtain ⟨d, hd⟩ :=
        Solver.exists_describe (hgiven.length_eq ▸ hsize) r.assumeNonnegative f w
      exact absurd (hd.symm.trans h) nofun
  · intro h
    cases h with
    | size h => exact .inl ⟨_, ⟨h, rfl⟩, rfl⟩
    | constraint hsize htexts hearlier h =>
      refine .inr ⟨(), hsize, .inl ⟨_, _, _, _, htexts, ⟨_, hearlier⟩, h, ?_⟩⟩
      rw [Nat.zero_add]
    | objective hc h => exact .inr ⟨(), hc.size, .inr ⟨_, hc.reads, .inl h⟩⟩
    | viewport hc hf hw h =>
      exact .inr ⟨(), hc.size, .inr ⟨_, hc.reads, .inr ⟨_, hf, .inl ⟨_, _, hw, h, rfl⟩⟩⟩⟩

theorem solveWith_eq_ok {d : Description α} : r.solveWith solver = .ok d ↔
    ∃ given f w, r.Constrained solver given ∧ r.ReadsObjective f ∧ r.ReadsViewport w ∧
      solver.describe (.of given r.assumeNonnegative) f w = .ok d := by
  unfold solveWith parseConstraints
  simp only [bind_eq_ok, mapError_eq_ok, Solver.checkSize_eq_ok, parseConstraintsFrom_eq_ok,
    parseObjective_eq_ok, checkViewport_eq_ok]
  constructor
  · rintro ⟨-, hsize, given, hgiven, f, hf, w, hw, h⟩
    exact ⟨given, f, w, ⟨hsize, hgiven⟩, hf, hw, h⟩
  · rintro ⟨given, f, w, hc, hf, hw, h⟩
    exact ⟨(), hc.size, given, hc.reads, f, hf, w, hw, h⟩

/-- Without an objective its sense plays no part. -/
theorem solveWith_sense (h : r.objectiveText? = none) (sense : String) :
    { r with sense := sense }.solveWith solver = r.solveWith solver := by
  have hobjective : { r with sense := sense }.parseObjective = r.parseObjective := by
    rw [parseObjective_none h]
    exact parseObjective_none h
  unfold solveWith
  rw [hobjective]
  rfl

/-- **A request reports the first thing that is wrong with it**, and is solved if nothing is. -/
theorem solveWith_reports (r : Request α) (solver : Solver α) :
    (∀ e, r.solveWith solver = .error e ↔ r.Reports solver e) ∧
      (∀ d, r.solveWith solver = .ok d ↔ ∃ given f w, r.Constrained solver given ∧
        r.ReadsObjective f ∧ r.ReadsViewport w ∧
        solver.describe (.of given r.assumeNonnegative) f w = .ok d) ∧
      ((∃ d, r.solveWith solver = .ok d) ↔ ∀ e, ¬r.Reports solver e) ∧
      (r.objectiveText? = none →
        ∀ sense, { r with sense := sense }.solveWith solver = r.solveWith solver) := by
  refine ⟨fun e => solveWith_eq_error, fun d => solveWith_eq_ok, ?_, solveWith_sense⟩
  simp only [← solveWith_eq_error]
  cases r.solveWith solver <;> simp

/-- A request in which nothing but the first constraint is right. -/
def crowded : Request Float where
  constraints := ["x <= 4", "x + z <= 2", "y <"]
  objective := some "x*y"
  sense := "best"
  viewport := some ⟨0, 0, 0, 0⟩

/-- A request in which everything is right. -/
def mended : Request Float where
  constraints := ["x <= 4"]
  objective := some "x + y"
  viewport := some ⟨-1, 5, -1, 5⟩

theorem mended_reads : Reads mended.constraints [(⟨1, 0, 4, .le, "x <= 4"⟩ : Constraint Float)] :=
  .cons (by decide +kernel) .nil

theorem mended_objective :
    (Objective.parse "x + y" .maximize : Except _ (Objective Float)) =
      .ok ⟨1, 1, -0, .maximize⟩ := by
  decide +kernel

theorem mended_readsViewport : mended.ReadsViewport (some ⟨-1, 5, -1, 5⟩) :=
  .present rfl ⟨by decide +kernel, by decide +kernel, by decide +kernel⟩

/-- Nothing but the number of constraints is reported where it is too high, and else the second
constraint. Of a request with one constraint the sense is reported before the objective, and the
window when all else is right. At last it is solved, although two default bounds come to the one
constraint that the limit leaves. With a blank objective the sense has no effect. -/
theorem solveWith_reports_crowded :
    crowded.solveWith ⟨.standard, 2⟩ = .error (.tooManyConstraints ⟨3, 2⟩) ∧
      crowded.solveWith ⟨.standard, 3⟩ =
        .error (.constraint 1 "x + z <= 2" (.unsupportedVariable "z" ⟨4, 5⟩)) ∧
      { crowded with constraints := ["x <= 4"] }.solveWith ⟨.standard, 3⟩ =
        .error (.sense ⟨"best"⟩) ∧
      { mended with objective := crowded.objective }.solveWith ⟨.standard, 1⟩ =
        .error (.objective (.nonLinearTerm "x*y" ⟨0, 3⟩)) ∧
      { mended with viewport := crowded.viewport }.solveWith ⟨.standard, 1⟩ =
        .error (.viewport (.empty .x)) ∧
      (∃ d, mended.solveWith ⟨.standard, 1⟩ = .ok d) ∧
      { crowded with objective := some " ", sense := "min" }.solveWith ⟨.standard, 3⟩ =
        { crowded with objective := some " " }.solveWith ⟨.standard, 3⟩ := by
  have hfinite : Viewport.IsFinite (⟨0, 0, 0, 0⟩ : Viewport Float) := by decide +kernel
  have hone : mended.constraints.length ≤ (⟨.standard, 1⟩ : Solver Float).maxConstraints := by
    decide
  refine ⟨?_, ?_, ?_, ?_, ?_, ?_, ?_⟩
  · exact ((solveWith_reports crowded ⟨.standard, 2⟩).1 _).mpr (.size (by decide))
  · exact ((solveWith_reports crowded ⟨.standard, 3⟩).1 _).mpr
      (.constraint (by decide) rfl mended_reads (by decide +kernel))
  · refine ((solveWith_reports _ _).1 _).mpr (.objective ⟨by decide, mended_reads⟩ ?_)
    exact .sense rfl fun s => by cases s <;> decide +kernel
  · refine ((solveWith_reports _ _).1 _).mpr (.objective ⟨hone, mended_reads⟩ ?_)
    exact .objective rfl rfl (by decide +kernel)
  · have hf : { mended with viewport := crowded.viewport }.ReadsObjective
        (some ⟨1, 1, -0, .maximize⟩) := .present rfl rfl mended_objective
    refine ((solveWith_reports _ _).1 _).mpr (.viewport ⟨hone, mended_reads⟩ hf rfl ?_)
    exact .emptyX hfinite (by decide +kernel)
  · obtain ⟨d, hd⟩ := Solver.exists_describe (mended_reads.length_eq ▸ hone) true
      (some ⟨1, 1, -0, .maximize⟩) (some ⟨-1, 5, -1, 5⟩)
    refine ⟨d, ((solveWith_reports mended _).2.1 d).mpr
      ⟨_, _, _, ⟨hone, mended_reads⟩, ?_, mended_readsViewport, hd⟩⟩
    exact .present rfl rfl mended_objective
  · exact (solveWith_reports { crowded with objective := some " " } ⟨.standard, 3⟩).2.2.2 rfl "min"

/-! ## Solved requests -/

/-- **What is solved is the problem that was written**: the description of a solved request decides
the constraints and the objective that its texts are read as, with the default bounds. -/
theorem solveWith_decides {r : Request ℝ} {limit : Nat} {d : Description ℝ}
    (h : r.solveWith ⟨.exact, limit⟩ = .ok d) :
    ∃ given f, r.Constrained ⟨.exact, limit⟩ given ∧ r.ReadsObjective f ∧
      d.solution.Decides (feasible (ConstraintSet.of given r.assumeNonnegative).constraints) f := by
  obtain ⟨given, f, w, hc, hf, -, hd⟩ := solveWith_eq_ok.mp h
  have hset : (ConstraintSet.of given r.assumeNonnegative).Proper :=
    ConstraintSet.of_proper hc.reads.proper _
  have hsize : (ConstraintSet.of given r.assumeNonnegative).explicit.length ≤ limit :=
    hc.reads.length_eq ▸ hc.size
  obtain ⟨d', hd', hsolution⟩ := describe_exact f w hsize
  cases hd.symm.trans hd'
  exact ⟨given, f, hc, hf, hsolution ▸ solution_decides hset f⟩

end Request

end PlanarLP
