import PlanarLP.Binary64
import PlanarLP.Proofs.Parsing
import PlanarLP.Proofs.Tiling

/-! Where parse errors point. An error quotes a token, or a stretch of the source from the start
of a term to the end of a token (`ParseError.Quotes`). Tokens stand in order between characters
of the source, so all of these stretches do (`Placed`, `PartialTerm.Begun`), and every span that
is cut out of the source is in range. -/

namespace PlanarLP.Formula

/-! ## Spans in a text -/

/-- A character of the source starts at byte `n`, or the source ends there. -/
def IsBoundary (source : List Char) (n : Nat) : Prop :=
  ∃ left right, source = left ++ right ∧ n = byteCount left

/-- The span holds some of the source, and stands between two characters. -/
structure Span.InText (s : Span) (source : List Char) : Prop where
  lt : s.start < s.stop
  start : IsBoundary source s.start
  stop : IsBoundary source s.stop

variable {source : List Char}

theorem IsBoundary.le {n : Nat} (h : IsBoundary source n) : n ≤ byteCount source := by
  obtain ⟨left, right, rfl, rfl⟩ := h
  rw [byteCount_append]
  omega

namespace Span.InText

variable {s t : Span}

/-- The text at the span, with the rest of the source around it. -/
theorem cut (h : s.InText source) :
    ∃ left right, source = left ++ s.slice source ++ right ∧ s = .after left (s.slice source) := by
  obtain ⟨left, rest, hleft, hstart⟩ := h.start
  obtain ⟨before, right, hbefore, hstop⟩ := h.stop
  have hlt := h.lt
  obtain ⟨text, rfl⟩ : left <+: before := by
    rcases List.append_eq_append_iff.mp (hleft.symm.trans hbefore) with ⟨cs, h, -⟩ | ⟨cs, h, -⟩
    · exact ⟨cs, h.symm⟩
    · rw [hstart, hstop, h, byteCount_append] at hlt
      omega
  have hs : s = .after left text := by
    cases s
    rw [byteCount_append] at hstop
    exact congrArg₂ Span.mk hstart hstop
  have hslice : s.slice source = text := by
    rw [hs, hbefore]
    exact slice_append ..
  rw [hslice]
  exact ⟨left, right, hbefore, hs⟩

theorem after {left text right : List Char} (h : text ≠ []) :
    (Span.after left text).InText (left ++ text ++ right) where
  lt := Nat.lt_add_of_pos_right (byteCount_pos h)
  start := ⟨left, text ++ right, List.append_assoc .., rfl⟩
  stop := ⟨left ++ text, right, rfl, (byteCount_append ..).symm⟩

theorem cover (hs : s.InText source) (ht : t.InText source) : (s.cover t).InText source where
  lt := by
    have := hs.lt
    simp only [Span.cover]
    omega
  start := by
    rcases Nat.le_total s.start t.start with h | h
    · simpa only [Span.cover, Nat.min_eq_left h] using hs.start
    · simpa only [Span.cover, Nat.min_eq_right h] using ht.start
  stop := by
    rcases Nat.le_total s.stop t.stop with h | h
    · simpa only [Span.cover, Nat.max_eq_right h] using ht.stop
    · simpa only [Span.cover, Nat.max_eq_left h] using hs.stop

end Span.InText

/-- Tokens of a source in order, each over its own text. -/
structure Placed (source : List Char) (ts : List Token) : Prop where
  inText : ∀ t ∈ ts, t.span.InText source
  slice : ∀ t ∈ ts, t.span.slice source = t.text.toList
  ordered : ts.Pairwise fun s t => s.span.stop ≤ t.span.start

namespace Placed

variable {t : Token} {ts us : List Token}

theorem sublist (h : Placed source ts) (hsub : us.Sublist ts) : Placed source us where
  inText t ht := h.inText t (hsub.subset ht)
  slice t ht := h.slice t (hsub.subset ht)
  ordered := h.ordered.sublist hsub

theorem spans_inText (h : Placed source ts) : ∀ s ∈ ts.map Token.span, s.InText source :=
  List.forall_mem_map.mpr h.inText

/-- From the start of the first token to the end of any. -/
theorem lt_stop (h : Placed source (t :: ts)) : ∀ u ∈ t :: ts, t.span.start < u.span.stop := by
  intro u hu
  have hlt := (h.inText t List.mem_cons_self).lt
  rcases List.mem_cons.mp hu with rfl | hu
  · exact hlt
  · have hle := List.rel_of_pairwise_cons h.ordered hu
    have hult := (h.inText u (List.mem_cons_of_mem t hu)).lt
    omega

end Placed

theorem placed_lexemes (source : String) : Placed source.toList (lexemes source) := by
  have hlaid := laid_tokens 0 source.toList [] rfl
  have hsub : (lexemes source).Sublist (tokenize source) := List.dropLast_sublist _
  refine ⟨?_, ?_, hlaid.ordered.sublist hsub⟩
  · intro t ht
    have hlt := hlaid.nonempty t ht
    obtain ⟨left, right, heq, hspan⟩ := hlaid.cut t (hsub.subset ht)
    have htext : t.text.toList ≠ [] := by
      intro hnil
      rw [hspan, hnil] at hlt
      exact Nat.lt_irrefl _ hlt
    rw [hspan, show source.toList = _ from heq]
    exact .after htext
  · intro t ht
    exact hlaid.tiles.slice_eq t (hsub.subset ht)

/-! ## The spans that are cut out -/

variable {α : Type} [Scalar α] {side : Side} {after : Option Token} {r r' : PartialTerm α}
  {t : Token} {ts : List Token}

namespace PartialTerm

/-- The spans that reading `t` cuts out of the source, whether or not it fails: up to a name or
a divisor, or through what follows a power. -/
def cuts (r : PartialTerm α) (t : Token) (after : Option Token) : List Span :=
  match t.kind with
  | .number => if r.slot = .over then [⟨r.start, t.span.stop⟩] else []
  | .ident => [⟨r.start, t.span.stop⟩]
  | .caret => [⟨r.start, (after.getD t).span.stop⟩]
  | _ => []

/-- The spans that reading the rest of a term cuts out, up to the first failure. -/
def allCuts (source : List Char) (side : Side) (after : Option Token) :
    PartialTerm α → List Token → List Span
  | r, [] => [r.span]
  | r, t :: ts =>
    let next := ts.head?.or after
    r.cuts t next ++
      match r.read source side t next with
      | .ok r' => allCuts source side after r' ts
      | .error _ => []

end PartialTerm

namespace Term

/-- The spans that reading one summand cuts out: signs that no term follows are quoted too. -/
def cuts (α : Type) [Scalar α] (source : List Char) (side : Side) (after : Option Token)
    (s : Summand) : List Span :=
  match s.factors with
  | [] => [(spanOf? s.signs).getD ⟨0, 0⟩]
  | t :: ts => PartialTerm.allCuts source side after (.empty t : PartialTerm α) (t :: ts)

def allCuts (α : Type) [Scalar α] (source : List Char) (side : Side) : List Summand → List Span
  | [] => []
  | s :: ss =>
    cuts α source side (ss.head?.bind fun s => s.tokens.head?) s ++ allCuts α source side ss

end Term

/-- The spans that reading the tokens of a side cuts out. Every summand is counted, as if the
ones before it had not failed. -/
def Expr.cuts (α : Type) [Scalar α] (source : List Char) (side : Side) (ts : List Token) :
    List Span :=
  Term.allCuts α source side (Summand.cut ts)

/-- The spans that reading a comparison cuts out of its source, those of its tokens first. -/
def Comparison.cuts (α : Type) [Scalar α] (source : String) : List Span :=
  (lexemes source).map Token.span ++
    match comparatorsOf (lexemes source) with
    | [_] => Expr.cuts α source.toList .left (leftOf (lexemes source)) ++
        Expr.cuts α source.toList .right (rightOf (lexemes source))
    | _ => []

/-- The spans that reading an objective cuts out of its source, those of its tokens first. -/
def Objective.cuts (α : Type) [Scalar α] (source : String) : List Span :=
  (lexemes source).map Token.span ++
    match (objectiveTokens (lexemes source) : Except (ParseError α) (List Token)) with
    | .ok us => Expr.cuts α source.toList .left us
    | .error _ => []

/-! ## All of them are in range -/

namespace PartialTerm

/-- The term was begun in the source, ahead of the tokens `us` that are still to be read. -/
structure Begun (source : List Char) (r : PartialTerm α) (us : List Token) : Prop where
  start : IsBoundary source r.start
  span : r.span.InText source
  ahead : ∀ u ∈ us, u.span.InText source ∧ r.start < u.span.stop

theorem begun_empty (h : Placed source (t :: ts)) :
    Begun source (.empty t : PartialTerm α) (t :: ts) where
  start := (h.inText t List.mem_cons_self).start
  span := h.inText t List.mem_cons_self
  ahead u hu := ⟨h.inText u hu, h.lt_stop u hu⟩

omit [Scalar α] in
theorem Begun.upTo {us : List Token} (h : Begun source r us) (ht : t ∈ us) :
    Span.InText ⟨r.start, t.span.stop⟩ source :=
  ⟨(h.ahead t ht).2, h.start, (h.ahead t ht).1.stop⟩

omit [Scalar α] in
theorem Begun.subset {us vs : List Token} (h : Begun source r us) (hsub : vs ⊆ us) :
    Begun source r vs :=
  ⟨h.start, h.span, fun u hu => h.ahead u (hsub hu)⟩

theorem Step.start_eq (h : r.Step t r') : r'.start = r.start := by
  cases h <;> rfl

theorem Step.span_eq (h : r.Step t r') : r'.span = r.span.cover t.span := by
  cases h <;> rfl

theorem Begun.step {us : List Token} (h : Begun source r us) (ht : t ∈ us) (hstep : r.Step t r') :
    Begun source r' us := by
  refine ⟨?_, ?_, ?_⟩
  · rw [hstep.start_eq]
    exact h.start
  · rw [hstep.span_eq]
    exact h.span.cover (h.ahead t ht).1
  · rw [hstep.start_eq]
    exact h.ahead

omit [Scalar α] in
theorem cuts_inText (h : Begun source r (t :: after.toList)) :
    ∀ s ∈ r.cuts t after, s.InText source := by
  intro s hs
  unfold cuts at hs
  split at hs
  · split at hs
    · rw [List.mem_singleton.mp hs]
      exact h.upTo List.mem_cons_self
    · cases hs
  · rw [List.mem_singleton.mp hs]
    exact h.upTo List.mem_cons_self
  · rw [List.mem_singleton.mp hs]
    refine h.upTo ?_
    cases after with
    | none => exact List.mem_cons_self
    | some u => exact List.mem_cons_of_mem t List.mem_cons_self
  · cases hs

theorem allCuts_inText (h : Begun source r (ts ++ after.toList)) :
    ∀ s ∈ allCuts source side after r ts, s.InText source := by
  induction ts generalizing r with
  | nil =>
    intro s hs
    rw [List.mem_singleton.mp hs]
    exact h.span
  | cons t ts ih =>
    intro s hs
    rcases List.mem_append.mp hs with hs | hs
    · refine cuts_inText (h.subset (List.cons_subset_cons t ?_)) s hs
      cases ts with
      | nil => exact List.Subset.refl _
      | cons u us => simp
    · cases hread : r.read source side t (ts.head?.or after) with
      | ok r' =>
        rw [hread] at hs
        have hstep := h.step List.mem_cons_self (read_eq_ok.mp hread)
        exact ih (hstep.subset (List.subset_cons_self _ _)) s hs
      | error e =>
        rw [hread] at hs
        cases hs

end PartialTerm

theorem foldl_cover_inText {s : Span} (hs : s.InText source)
    (hts : ∀ t ∈ ts, t.span.InText source) :
    (ts.foldl (fun s u => s.cover u.span) s).InText source := by
  induction ts generalizing s with
  | nil => exact hs
  | cons t ts ih =>
    obtain ⟨ht, hts⟩ := List.forall_mem_cons.mp hts
    exact ih (hs.cover ht) hts

/-- No summand is empty. -/
theorem Summand.tokens_ne_nil (ts : List Token) : ∀ s ∈ cut ts, s.tokens ≠ [] := by
  induction ts with
  | nil =>
    intro s hs
    cases hs
  | cons t ts ih =>
    change ∀ s ∈ cons t (cut ts), s.tokens ≠ []
    cases hcut : cut ts with
    | nil =>
      by_cases ht : t.isSign <;> simp [cons, ht, tokens]
    | cons s ss =>
      rw [hcut] at ih
      obtain ⟨hs, hss⟩ := List.forall_mem_cons.mp ih
      by_cases ht : t.isSign
      · rw [cons, if_pos ht]
        exact List.forall_mem_cons.mpr ⟨by simp [tokens], hss⟩
      · rw [cons, if_neg ht]
        by_cases hsigns : s.signs.isEmpty
        · rw [if_pos hsigns]
          exact List.forall_mem_cons.mpr ⟨by simp [tokens], hss⟩
        · rw [if_neg hsigns]
          exact List.forall_mem_cons.mpr ⟨by simp [tokens], ih⟩

namespace Term

theorem cuts_inText {s : Summand} (hne : s.tokens ≠ [])
    (h : Placed source (s.tokens ++ after.toList)) :
    ∀ span ∈ cuts α source side after s, span.InText source := by
  obtain ⟨signs, factors⟩ := s
  cases factors with
  | nil =>
    intro span hspan
    rw [List.mem_singleton.mp hspan]
    cases signs with
    | nil => exact absurd rfl hne
    | cons t ts =>
      have hts : ∀ u ∈ t :: ts, u.span.InText source := fun u hu =>
        h.inText u (List.mem_append_left _ (List.mem_append_left _ hu))
      obtain ⟨ht, hts⟩ := List.forall_mem_cons.mp hts
      exact foldl_cover_inText ht hts
  | cons t ts =>
    have hplaced : Placed source (signs ++ (t :: ts) ++ after.toList) := h
    refine PartialTerm.allCuts_inText (PartialTerm.begun_empty (hplaced.sublist ?_))
    exact (List.sublist_append_right signs (t :: ts)).append_right after.toList

theorem allCuts_inText {ss : List Summand} (hne : ∀ s ∈ ss, s.tokens ≠ [])
    (h : Placed source (ss.flatMap Summand.tokens)) :
    ∀ span ∈ allCuts α source side ss, span.InText source := by
  induction ss with
  | nil =>
    intro span hspan
    cases hspan
  | cons s ss ih =>
    obtain ⟨hs, hss⟩ := List.forall_mem_cons.mp hne
    rw [List.flatMap_cons] at h
    intro span hspan
    rcases List.mem_append.mp hspan with hspan | hspan
    · refine cuts_inText hs (h.sublist (List.Sublist.append_left ?_ _)) span hspan
      -- the token after a summand is the first one of the next
      cases ss with
      | nil => exact List.Sublist.refl _
      | cons s' ss =>
        rw [List.head?_cons, Option.bind_some, List.flatMap_cons]
        cases s'.tokens with
        | nil => exact List.nil_sublist _
        | cons u us => exact (List.nil_sublist _).cons_cons u
    · exact ih hss (h.sublist (List.sublist_append_right ..)) span hspan

end Term

theorem Expr.cuts_inText (h : Placed source ts) :
    ∀ span ∈ cuts α source side ts, span.InText source := by
  refine Term.allCuts_inText (Summand.tokens_ne_nil ts) ?_
  rw [Summand.tokens_cut]
  exact h

theorem leftOf_sublist (ts : List Token) : (leftOf ts).Sublist ts := List.takeWhile_sublist _

theorem rightOf_sublist (ts : List Token) : (rightOf ts).Sublist ts :=
  (List.tail_sublist _).trans (List.dropWhile_sublist _)

omit [Scalar α] in
theorem objectiveTokens_sublist {us : List Token}
    (h : (objectiveTokens ts : Except (ParseError α) _) = .ok us) : us.Sublist ts := by
  unfold objectiveTokens at h
  split at h
  · cases h
    exact List.Sublist.refl _
  · split at h
    · split at h
      · cases h
        exact (List.sublist_cons_self _ _).trans (List.sublist_cons_self _ _)
      · cases h
    · cases h
  · cases h

theorem Comparison.cuts_inText (source : String) :
    ∀ span ∈ cuts α source, span.InText source.toList := by
  have hplaced := placed_lexemes source
  intro span hspan
  rcases List.mem_append.mp hspan with hspan | hspan
  · exact hplaced.spans_inText span hspan
  · split at hspan
    · rcases List.mem_append.mp hspan with hspan | hspan
      · exact Expr.cuts_inText (hplaced.sublist (leftOf_sublist _)) span hspan
      · exact Expr.cuts_inText (hplaced.sublist (rightOf_sublist _)) span hspan
    · cases hspan

theorem Objective.cuts_inText (source : String) :
    ∀ span ∈ cuts α source, span.InText source.toList := by
  have hplaced := placed_lexemes source
  intro span hspan
  rcases List.mem_append.mp hspan with hspan | hspan
  · exact hplaced.spans_inText span hspan
  · split at hspan
    · rename_i us hus
      exact Expr.cuts_inText (hplaced.sublist (objectiveTokens_sublist hus)) span hspan
    · cases hspan

/-! ## What errors quote -/

namespace ParseError

/-- The text that is quoted for a division by zero, which no span goes with. -/
def divided? : ParseError α → Option String
  | .divisionByZero text => some text
  | _ => none

/-- An error about one of the tokens `ts`, or about one of the spans `cuts` of the source, that
says what stands there; or one that points at nothing. -/
inductive Quotes (source : List Char) (ts : List Token) (cuts : List Span) : ParseError α → Prop
  | unexpected {t : Token} (ht : t ∈ ts) : Quotes source ts cuts (.unexpectedToken t.text t.span)
  | nonNumeric {t : Token} (ht : t ∈ ts) : Quotes source ts cuts (.nonNumericRhs t.text t.span)
  | unsupported {t : Token} (ht : t ∈ ts) :
    Quotes source ts cuts (.unsupportedVariable t.text t.span)
  | nonLinear {s : Span} (hs : s ∈ cuts) :
    Quotes source ts cuts (.nonLinearTerm (quote source s.start s.stop) s)
  | dangling {s : Span} (hs : s ∈ cuts) :
    Quotes source ts cuts (.danglingOperator (quote source s.start s.stop) s)
  | divisor {s : Span} (hs : s ∈ cuts) :
    Quotes source ts cuts (.divisionByZero (quote source s.start s.stop))
  | bare {e : ParseError α} (hspan : e.span? = none) (hdivided : e.divided? = none) :
    Quotes source ts cuts e

omit [Scalar α] in
theorem Quotes.mono {e : ParseError α} {us : List Token} {cuts cuts' : List Span}
    (h : e.Quotes source us cuts) (hts : us ⊆ ts) (hcuts : cuts ⊆ cuts') :
    e.Quotes source ts cuts' := by
  cases h with
  | unexpected ht => exact .unexpected (hts ht)
  | nonNumeric ht => exact .nonNumeric (hts ht)
  | unsupported ht => exact .unsupported (hts ht)
  | nonLinear hs => exact .nonLinear (hcuts hs)
  | dangling hs => exact .dangling (hcuts hs)
  | divisor hs => exact .divisor (hcuts hs)
  | bare hspan hdivided => exact .bare hspan hdivided

end ParseError

theorem bind_eq_error {ε β γ : Type} {x : Except ε β} {f : β → Except ε γ} {e : ε} :
    (x >>= f) = .error e ↔ x = .error e ∨ ∃ b, x = .ok b ∧ f b = .error e := by
  cases x <;> simp [bind, Except.bind]

theorem numberOf_eq_error {text : String} {e : ParseError α} (h : numberOf text = .error e) :
    e = .invalidNumber text := by
  unfold numberOf at h
  split at h
  · cases h
    rfl
  · split at h
    · cases h
    · cases h
      rfl

namespace PartialTerm

variable {e : ParseError α}

theorem number_quotes (hk : t.kind = .number) (h : r.number source t = .error e) :
    e.Quotes source [t] (r.cuts t after) := by
  unfold number at h
  split at h
  · cases h
    exact .unexpected List.mem_cons_self
  · rcases bind_eq_error.mp h with h | ⟨v, -, h⟩
    · rw [numberOf_eq_error h]
      exact .bare rfl rfl
    · split at h
      · rename_i ho
        split at h
        · cases h
          refine .divisor (s := ⟨r.start, t.span.stop⟩) ?_
          rw [cuts, hk]
          simp [ho]
        · cases h
      · cases h

omit [Scalar α] in
theorem name_quotes (hk : t.kind = .ident) (h : r.name source t = .error e) :
    e.Quotes source [t] (r.cuts t after) := by
  have hcut : ⟨r.start, t.span.stop⟩ ∈ r.cuts t after := by
    rw [cuts, hk]
    exact List.mem_cons_self
  unfold name at h
  split at h
  · cases h
    exact .nonLinear hcut
  · split at h
    · cases h
    · cases h
      exact .nonLinear hcut
    · cases h
      exact .unsupported List.mem_cons_self

omit [Scalar α] in
theorem operator_quotes {slot : Slot} {cuts : List Span} (h : r.operator t slot = .error e) :
    e.Quotes source [t] cuts := by
  unfold operator at h
  split at h
  · cases h
  · cases h
    exact .unexpected List.mem_cons_self

theorem read_quotes (h : r.read source side t after = .error e) :
    e.Quotes source [t] (r.cuts t after) := by
  unfold read at h
  split at h
  · rename_i hk
    exact number_quotes hk h
  · rename_i hk
    exact name_quotes hk h
  · exact operator_quotes h
  · exact operator_quotes h
  · rename_i hk
    cases h
    refine .nonLinear (s := ⟨r.start, (after.getD t).span.stop⟩) ?_
    rw [cuts, hk]
    exact List.mem_cons_self
  · split at h
    · cases h
      exact .unexpected List.mem_cons_self
    · cases h
      exact .nonNumeric List.mem_cons_self

omit [Scalar α] in
theorem finish_quotes (h : r.finish source = .error e) : e.Quotes source ts [r.span] := by
  unfold finish at h
  split at h
  · cases h
    exact .dangling List.mem_cons_self
  · cases h

theorem readAll_quotes (h : readAll source side after r ts = .error e) :
    e.Quotes source ts (allCuts source side after r ts) := by
  induction ts generalizing r with
  | nil => exact finish_quotes h
  | cons t ts ih =>
    rcases bind_eq_error.mp h with hread | ⟨r', hread, h⟩
    · exact (read_quotes hread).mono (by simp) (List.subset_append_left _ _)
    · refine (ih h).mono (List.subset_cons_self t ts) ?_
      simp only [allCuts, hread]
      exact List.subset_append_right _ _

end PartialTerm

namespace Term

variable {e : ParseError α}

theorem ofSummand_quotes {s : Summand} (h : ofSummand source side after s = .error e) :
    e.Quotes source s.tokens (cuts α source side after s) := by
  obtain ⟨signs, factors⟩ := s
  cases factors with
  | nil =>
    cases h
    exact .dangling List.mem_cons_self
  | cons t ts =>
    rcases bind_eq_error.mp h with h | ⟨term, -, h⟩
    · exact (PartialTerm.readAll_quotes h).mono (List.subset_append_right _ _)
        (List.Subset.refl _)
    · cases h

theorem ofSummands_quotes {ss : List Summand} (h : ofSummands source side ss = .error e) :
    e.Quotes source (ss.flatMap Summand.tokens) (allCuts α source side ss) := by
  induction ss with
  | nil => cases h
  | cons s ss ih =>
    rw [List.flatMap_cons]
    rcases bind_eq_error.mp h with h | ⟨term, -, h⟩
    · exact (ofSummand_quotes h).mono (List.subset_append_left _ _) (List.subset_append_left _ _)
    · rcases bind_eq_error.mp h with h | ⟨terms, -, h⟩
      · exact (ih h).mono (List.subset_append_right _ _) (List.subset_append_right _ _)
      · cases h

end Term

theorem Expr.ofTokens_quotes {e : ParseError α} (h : ofTokens source side ts = .error e) :
    e.Quotes source ts (cuts α source side ts) := by
  unfold ofTokens at h
  split at h
  · cases h
    exact .bare rfl rfl
  · rcases bind_eq_error.mp h with h | ⟨terms, -, h⟩
    · have hquotes := Term.ofSummands_quotes h
      rwa [Summand.tokens_cut] at hquotes
    · cases h

theorem Comparison.parse_quotes {source : String} {e : ParseError α}
    (h : parse source = .error e) : e.Quotes source.toList (lexemes source) (cuts α source) := by
  unfold cuts
  rcases hops : comparatorsOf (lexemes source) with _ | ⟨⟨op, span⟩, _ | ⟨_, _⟩⟩
  · simp only [parse, hops] at h
    cases h
    exact .bare rfl rfl
  · simp only [parse, hops] at h
    rcases bind_eq_error.mp h with h | ⟨lhs, -, h⟩
    · refine (Expr.ofTokens_quotes h).mono (leftOf_sublist _).subset ?_
      exact List.subset_append_of_subset_right _ (List.subset_append_left _ _)
    · rcases bind_eq_error.mp h with h | ⟨rhs, -, h⟩
      · refine (Expr.ofTokens_quotes h).mono (rightOf_sublist _).subset ?_
        exact List.subset_append_of_subset_right _ (List.subset_append_right _ _)
      · cases h
  · simp only [parse, hops] at h
    cases h
    exact .bare rfl rfl

theorem constraint_parse_quotes {source : String} {e : ParseError α}
    (h : Constraint.parse source = .error e) :
    e.Quotes source.toList (lexemes source) (Comparison.cuts α source) := by
  rcases bind_eq_error.mp h with h | ⟨c, -, h⟩
  · exact Comparison.parse_quotes h
  · simp only at h
    split at h
    · split at h <;> cases h <;> exact .bare rfl rfl
    · cases hof : Constraint.of (c.lhs.coefficient .x - c.rhs.coefficient .x)
          (c.lhs.coefficient .y - c.rhs.coefficient .y) c.op.relation
          (c.rhs.constant - c.lhs.constant) (normalized source) with
      | ok k =>
        rw [hof] at h
        cases h
      | error defect =>
        rw [hof] at h
        cases h
        exact .bare rfl rfl

omit [Scalar α] in
theorem objectiveTokens_quotes {source : List Char} {cuts : List Span} {e : ParseError α}
    (h : objectiveTokens ts = .error e) : e.Quotes source ts cuts := by
  unfold objectiveTokens at h
  split at h
  · cases h
  · rename_i t hts
    have ht : t ∈ ts := List.mem_of_mem_filter (hts ▸ List.mem_cons_self)
    split at h
    · split at h
      · cases h
      · cases h
        exact .unexpected ht
    · cases h
      exact .unexpected ht
  · cases h
    exact .bare rfl rfl

theorem objective_parse_quotes {source : String} {sense : Sense} {e : ParseError α}
    (h : Objective.parse source sense = .error e) :
    e.Quotes source.toList (lexemes source) (Objective.cuts α source) := by
  rcases bind_eq_error.mp h with h | ⟨us, hus, h⟩
  · exact objectiveTokens_quotes h
  · split at h
    · cases h
      exact .bare rfl rfl
    · rcases bind_eq_error.mp h with h | ⟨expr, -, h⟩
      · refine (Expr.ofTokens_quotes h).mono (objectiveTokens_sublist hus).subset ?_
        unfold Objective.cuts
        rw [hus]
        exact List.subset_append_right _ _
      · simp only at h
        split at h
        · cases h
          exact .bare rfl rfl
        · split at h
          · cases h
            exact .bare rfl rfl
          · cases h

/-! ## Errors point at the text they quote -/

namespace ParseError

/-- The error quotes the text `text`, which may have blanks around it where a term is quoted. -/
def IsAbout : ParseError α → List Char → Prop
  | .unsupportedVariable name _, text => name.toList = text
  | .unexpectedToken found _, text => found.toList = text
  | .nonNumericRhs found _, text => found.toList = text
  | .nonLinearTerm found _, text => found.toList = Text.trim text
  | .danglingOperator found _, text => found.toList = Text.trim text
  | _, _ => True

/-- An error that points at some of the source points between two characters, at the text that
it quotes. -/
structure Located (source : String) (e : ParseError α) : Prop where
  inText : ∀ s, e.span? = some s → s.InText source.toList
  le : ∀ s, e.span? = some s → s.stop ≤ source.utf8ByteSize
  cut : ∀ s, e.span? = some s → ∃ left right,
    source.toList = left ++ s.slice source.toList ++ right ∧
      s = .after left (s.slice source.toList)
  isAbout : ∀ s, e.span? = some s → e.IsAbout (s.slice source.toList)
  divisor : ∀ text, e = .divisionByZero text →
    ∃ s : Span, s.InText source.toList ∧ text.toList = Text.trim (s.slice source.toList)

theorem toList_quote (source : List Char) (s : Span) :
    (quote source s.start s.stop).toList = Text.trim (s.slice source) := String.toList_ofList

omit [Scalar α] in
theorem Quotes.located {source : String} {e : ParseError α} {cuts : List Span}
    (h : e.Quotes source.toList ts cuts) (hts : Placed source.toList ts)
    (hcuts : ∀ s ∈ cuts, s.InText source.toList) : e.Located source := by
  have hpoints : ∀ s, e.span? = some s → s.InText source.toList ∧
      e.IsAbout (s.slice source.toList) := by
    intro s hs
    cases h with
    | unexpected ht | nonNumeric ht | unsupported ht =>
      cases hs
      exact ⟨hts.inText _ ht, (hts.slice _ ht).symm⟩
    | nonLinear hcut | dangling hcut =>
      cases hs
      exact ⟨hcuts _ hcut, toList_quote ..⟩
    | divisor => cases hs
    | bare hspan => cases hspan.symm.trans hs
  refine {
    inText := fun s hs => (hpoints s hs).1
    le := ?_
    cut := fun s hs => (hpoints s hs).1.cut
    isAbout := fun s hs => (hpoints s hs).2
    divisor := ?_ }
  · intro s hs
    rw [← byteCount_toList]
    exact (hpoints s hs).1.stop.le
  · intro text htext
    cases h with
    | divisor hcut =>
      cases htext
      exact ⟨_, hcuts _ hcut, toList_quote ..⟩
    | bare _ hdivided =>
      rw [htext] at hdivided
      cases hdivided
    | unexpected | nonNumeric | unsupported | nonLinear | dangling => cases htext

end ParseError

/-- **Errors of the parser are located.** Whatever the source, an error that points at some of
it points at a text that is not empty and that it quotes, and every span that is cut out of the
source stands between two of its characters. -/
theorem parse_error_located (α : Type) [Scalar α] (source : String) (sense : Sense) :
    (∀ e : ParseError α, Constraint.parse source = .error e ∨
      Objective.parse source sense = .error e → e.Located source) ∧
    ∀ s ∈ Comparison.cuts α source ++ Objective.cuts α source, s.InText source.toList := by
  refine ⟨?_, ?_⟩
  · rintro e (h | h)
    · exact (constraint_parse_quotes h).located (placed_lexemes source)
        (Comparison.cuts_inText source)
    · exact (objective_parse_quotes h).located (placed_lexemes source)
        (Objective.cuts_inText source)
  · intro s hs
    rcases List.mem_append.mp hs with hs | hs
    · exact Comparison.cuts_inText source s hs
    · exact Objective.cuts_inText source s hs

/-- A product of variables, after characters of two and three bytes. -/
theorem parse_error_located_product :
    ∃ e : ParseError Float, Constraint.parse "x ≥ −y·z" = .error e ∧
      e = .nonLinearTerm "y·z" ⟨9, 13⟩ ∧ e.Located "x ≥ −y·z" := by
  have herror : (Constraint.parse "x ≥ −y·z" : Except (ParseError Float) _) =
      .error (.nonLinearTerm "y·z" ⟨9, 13⟩) := by decide +kernel
  exact ⟨_, herror, rfl, (parse_error_located Float _ .maximize).1 _ (.inl herror)⟩

end PlanarLP.Formula
