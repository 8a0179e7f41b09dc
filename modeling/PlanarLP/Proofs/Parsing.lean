import Mathlib.Data.List.Forall2
import PlanarLP.Proofs.TermReading

/-! A text is accepted as a comparison exactly when its tokens spell one, and what is read is
what they spell. The tokens of a side are cut into summands, each of which is one term;
`Expr.ofTokens_sound` and `Expr.ofTokens_complete` settle a side, `comparison_parse` the whole
text. -/

namespace PlanarLP.Formula

/-! Cutting the tokens of a side. -/

namespace Summand

/-- Signs, then other tokens. -/
structure WellFormed (s : Summand) : Prop where
  signs : ∀ t ∈ s.signs, t.isSign = true
  factors : ∀ t ∈ s.factors, t.isSign = false

/-- Summands as they are cut: only the first may have no sign. -/
structure AreCut (ss : List Summand) : Prop where
  wellFormed : ∀ s ∈ ss, s.WellFormed
  signed : ∀ s ∈ ss.tail, s.signs ≠ []

variable {t : Token} {ts us signs factors : List Token} {s : Summand} {ss : List Summand}

theorem wellFormed_sign (ht : t.isSign = true) (h : WellFormed ⟨signs, factors⟩) :
    WellFormed ⟨t :: signs, factors⟩ :=
  ⟨List.forall_mem_cons.mpr ⟨ht, h.signs⟩, h.factors⟩

theorem wellFormed_factor (ht : t.isSign = false) (h : WellFormed ⟨[], factors⟩) :
    WellFormed ⟨[], t :: factors⟩ :=
  ⟨h.signs, List.forall_mem_cons.mpr ⟨ht, h.factors⟩⟩

theorem wellFormed_empty : WellFormed ⟨[], []⟩ := ⟨by simp, by simp⟩

theorem areCut_cons (t : Token) (h : AreCut ss) : AreCut (cons t ss) := by
  obtain ⟨hw, hs⟩ := h
  cases ss with
  | nil =>
    by_cases ht : t.isSign = true
    · rw [cons, if_pos ht]
      exact ⟨List.forall_mem_singleton.mpr (wellFormed_sign ht wellFormed_empty), by simp⟩
    · rw [cons, if_neg ht]
      rw [Bool.not_eq_true] at ht
      exact ⟨List.forall_mem_singleton.mpr (wellFormed_factor ht wellFormed_empty), by simp⟩
  | cons s ss =>
    obtain ⟨signs, factors⟩ := s
    obtain ⟨hhead, htail⟩ := List.forall_mem_cons.mp hw
    by_cases ht : t.isSign = true
    · rw [cons, if_pos ht]
      exact ⟨List.forall_mem_cons.mpr ⟨wellFormed_sign ht hhead, htail⟩, hs⟩
    · rw [cons, if_neg ht]
      rw [Bool.not_eq_true] at ht
      cases signs with
      | nil => exact ⟨List.forall_mem_cons.mpr ⟨wellFormed_factor ht hhead, htail⟩, hs⟩
      | cons u signs =>
        refine ⟨List.forall_mem_cons.mpr ⟨wellFormed_factor ht wellFormed_empty, hw⟩, ?_⟩
        exact List.forall_mem_cons.mpr ⟨List.cons_ne_nil _ _, hs⟩

theorem areCut_cut (ts : List Token) : AreCut (cut ts) := by
  induction ts with
  | nil => exact ⟨by simp [cut], by simp [cut]⟩
  | cons t ts ih => exact areCut_cons t ih

/-- The signs before a summand that has none become its signs. -/
theorem cut_signs (hs : ∀ t ∈ signs, t.isSign = true) (h : cut ts = ⟨[], factors⟩ :: ss) :
    cut (signs ++ ts) = ⟨signs, factors⟩ :: ss := by
  induction signs with
  | nil => exact h
  | cons t signs ih =>
    obtain ⟨ht, hs⟩ := List.forall_mem_cons.mp hs
    have hcut : cut (t :: signs ++ ts) = cons t (cut (signs ++ ts)) := rfl
    rw [hcut, ih hs, cons, if_pos ht]

/-- Tokens before the first sign of what follows them are a summand without a sign. -/
theorem cut_factors (hne : factors ≠ []) (hf : ∀ t ∈ factors, t.isSign = false)
    (hus : ∀ s ∈ (cut us).head?, s.signs ≠ []) : cut (factors ++ us) = ⟨[], factors⟩ :: cut us := by
  induction factors with
  | nil => exact absurd rfl hne
  | cons t factors ih =>
    obtain ⟨ht, hf⟩ := List.forall_mem_cons.mp hf
    have hcut : cut (t :: factors ++ us) = cons t (cut (factors ++ us)) := rfl
    rw [hcut]
    cases factors with
    | nil =>
      rw [List.nil_append]
      cases h : cut us with
      | nil => simp [cons, ht]
      | cons s ss =>
        have hsigns : s.signs ≠ [] := hus s (by rw [h]; rfl)
        simp [cons, ht, hsigns]
    | cons u factors =>
      rw [ih (List.cons_ne_nil _ _) hf]
      simp [cons, ht]

theorem cut_head_signs (ht : t.isSign = true) : ∀ s ∈ (cut (t :: ts)).head?, s.signs ≠ [] := by
  have hcut : cut (t :: ts) = cons t (cut ts) := rfl
  rw [hcut]
  cases cut ts <;> simp [cons, ht]

end Summand

variable {α : Type} [Scalar α] {source : List Char} {side : Side} {after : Option Token}
  {t : Token} {ts us signs factors : List Token} {w : WrittenTerm α} {ws : List (WrittenTerm α)}

/-! The kinds of the tokens that spell a term. -/

theorem Token.Kind.InTerm.isSign (h : t.kind.InTerm) : t.isSign = false := by
  rcases h with h | h | h | h <;> simp [Token.isSign, h]

theorem Token.Kind.InTerm.isComparator (h : t.kind.InTerm) : t.isComparator = false := by
  rcases h with h | h | h | h <;> simp [Token.isComparator, Token.comparator?, h]

theorem isComparator_of_isSign (h : t.isSign = true) : t.isComparator = false := by
  rw [Token.isSign, Bool.or_eq_true, beq_iff_eq, beq_iff_eq] at h
  rcases h with h | h <;> simp [Token.isComparator, Token.comparator?, h]

theorem Factor.SpelledBy.inTerm {f : Factor α} (h : f.SpelledBy t) : t.kind.InTerm := by
  cases h with
  | number h => exact .inl h.1
  | var h => exact .inr (.inl h.1)

theorem Tail.SpelledBy.inTerm {b : Tail α} (h : b.SpelledBy ts) : ∀ t ∈ ts, t.kind.InTerm := by
  cases h with
  | times hop hf =>
    have hk : Token.Kind.InTerm .star := .inr (.inr (.inl rfl))
    simpa [hop, hf.inTerm] using hk
  | divided hop hd =>
    have hk : Token.Kind.InTerm .slash := .inr (.inr (.inr rfl))
    simpa [hop, (Factor.SpelledBy.number hd).inTerm] using hk
  | beside h => simpa using (Factor.SpelledBy.var (α := α) h).inTerm

theorem Spells.forall_mem {β : Type} {spelled : β → List Token → Prop} {bs : List β}
    {P : Token → Prop} (h : Spells spelled bs ts)
    (hp : ∀ b ∈ bs, ∀ us, spelled b us → ∀ t ∈ us, P t) : ∀ t ∈ ts, P t := by
  induction h with
  | nil => simp
  | cons hb _ ih =>
    obtain ⟨hhead, htail⟩ := List.forall_mem_cons.mp hp
    exact List.forall_mem_append.mpr ⟨hhead _ hb, ih htail⟩

theorem Spells.singleton {β : Type} {spelled : β → List Token → Prop} {b : β}
    (h : spelled b ts) : Spells spelled [b] ts :=
  List.append_nil ts ▸ .cons h .nil

theorem Spells.exists_tokens {β : Type} {spelled : β → List Token → Prop} {bs : List β}
    (h : Spells spelled bs ts) : ∀ b ∈ bs, ∃ us, spelled b us := by
  induction h with
  | nil => simp
  | cons hb _ ih => exact List.forall_mem_cons.mpr ⟨⟨_, hb⟩, ih⟩

namespace WrittenTerm.Fits

theorem isSign (h : w.Fits signs factors) : ∀ t ∈ signs, t.isSign = true := by
  intro t ht
  have hk : t.kind ∈ w.signs.map Sign.kind := h.signs ▸ List.mem_map_of_mem ht
  obtain ⟨s, -, hs⟩ := List.mem_map.mp hk
  cases s <;> simp [Token.isSign, ← hs, Sign.kind]

theorem inTerm (h : w.Fits signs factors) : ∀ t ∈ factors, t.kind.InTerm := by
  obtain ⟨t, ts, rfl, hfirst, hrest⟩ := h.factors
  exact List.forall_mem_cons.mpr
    ⟨hfirst.inTerm, hrest.forall_mem fun _ _ _ hb => hb.inTerm⟩

theorem factors_ne_nil (h : w.Fits signs factors) : factors ≠ [] := by
  obtain ⟨t, ts, rfl, -⟩ := h.factors
  exact List.cons_ne_nil t ts

theorem signs_ne_nil (h : w.Fits signs factors) (hw : w.signs ≠ []) : signs ≠ [] := by
  rintro rfl
  exact hw (List.map_eq_nil_iff.mp h.signs.symm)

end WrittenTerm.Fits

theorem WrittenTerm.SpelledBy.not_isComparator (h : w.SpelledBy ts) :
    ∀ t ∈ ts, t.isComparator = false := by
  obtain ⟨signs, factors, rfl, h⟩ := h
  exact List.forall_mem_append.mpr
    ⟨fun t ht => isComparator_of_isSign (h.isSign t ht), fun t ht => (h.inTerm t ht).isComparator⟩

/-! A side of a comparison. -/

/-- Terms account for summands one by one. -/
def Account (ws : List (WrittenTerm α)) (ss : List Summand) : Prop :=
  List.Forall₂ (fun w s => w.Fits s.signs s.factors) ws ss

theorem Account.spells {ss : List Summand} (h : Account ws ss) :
    Spells WrittenTerm.SpelledBy ws (ss.flatMap Summand.tokens) := by
  induction h with
  | nil => exact .nil
  | cons hfits _ ih => exact .cons ⟨_, _, rfl, hfits⟩ ih

theorem Account.signed {ss : List Summand} (h : Account ws ss) (hs : ∀ s ∈ ss, s.signs ≠ []) :
    ∀ w ∈ ws, w.signs ≠ [] := by
  induction h with
  | nil => simp
  | @cons w s ws ss hfits _ ih =>
    obtain ⟨hhead, htail⟩ := List.forall_mem_cons.mp hs
    refine List.forall_mem_cons.mpr ⟨fun hw => hhead ?_, ih htail⟩
    exact List.map_eq_nil_iff.mp (hfits.signs.trans (congrArg _ hw))

theorem cut_head_signed (h : Spells WrittenTerm.SpelledBy ws ts) (hs : ∀ w ∈ ws, w.signs ≠ []) :
    ∀ s ∈ (Summand.cut ts).head?, s.signs ≠ [] := by
  cases h with
  | nil => simp [Summand.cut]
  | cons hw hws =>
    obtain ⟨signs, factors, rfl, hfits⟩ := hw
    obtain ⟨t, signs, rfl⟩ :=
      List.exists_cons_of_ne_nil (hfits.signs_ne_nil (hs _ List.mem_cons_self))
    exact Summand.cut_head_signs (hfits.isSign t List.mem_cons_self)

/-- Cutting finds the terms that signs set apart. -/
theorem account_cut (h : Spells WrittenTerm.SpelledBy ws ts)
    (hs : ∀ w ∈ ws.tail, w.signs ≠ []) : Account ws (Summand.cut ts) := by
  induction h with
  | nil => exact .nil
  | @cons w ws ts us hw hws ih =>
    have htail := ih fun v hv => hs v (List.mem_of_mem_tail hv)
    obtain ⟨signs, factors, rfl, hfits⟩ := hw
    have hfactors := Summand.cut_factors hfits.factors_ne_nil
      (fun t ht => (hfits.inTerm t ht).isSign) (cut_head_signed hws hs)
    rw [List.append_assoc, Summand.cut_signs hfits.isSign hfactors]
    exact .cons hfits htail

theorem Term.ofSummands_sound {ss : List Summand} {terms : List (Term α)}
    (hs : ∀ s ∈ ss, s.WellFormed) (h : ofSummands source side ss = .ok terms) :
    ∃ ws, Account ws ss ∧ terms.map Term.parts = ws.map WrittenTerm.parts := by
  induction ss generalizing terms with
  | nil =>
    cases h
    exact ⟨[], .nil, rfl⟩
  | cons s ss ih =>
    obtain ⟨hhead, htail⟩ := List.forall_mem_cons.mp hs
    obtain ⟨term, hterm, h⟩ := bind_eq_ok.mp h
    obtain ⟨terms', hterms, h⟩ := bind_eq_ok.mp h
    cases h
    obtain ⟨w, hw, hparts⟩ := ofSummand_sound hhead.signs hterm
    obtain ⟨ws, hws, hrest⟩ := ih htail hterms
    exact ⟨w :: ws, .cons hw hws, by rw [List.map_cons, List.map_cons, hparts, hrest]⟩

theorem Term.ofSummands_complete {ss : List Summand} (h : Account ws ss) :
    ∃ terms, ofSummands source side ss = .ok terms ∧
      terms.map Term.parts = ws.map WrittenTerm.parts := by
  induction h with
  | nil => exact ⟨[], rfl, rfl⟩
  | @cons w s ws ss hw _ ih =>
    obtain ⟨term, hterm, hparts⟩ := ofSummand_complete hw
    obtain ⟨terms, hterms, hrest⟩ := ih
    refine ⟨term :: terms, ?_, by rw [List.map_cons, List.map_cons, hparts, hrest]⟩
    exact bind_eq_ok.mpr ⟨term, hterm, bind_eq_ok.mpr ⟨terms, hterms, rfl⟩⟩

theorem IsSum.ne_nil (h : IsSum ws ts) : ts ≠ [] := by
  obtain ⟨hne, -, hspelled⟩ := h
  cases hspelled with
  | nil => exact absurd rfl hne
  | cons hw _ =>
    obtain ⟨signs, factors, rfl, hfits⟩ := hw
    simp [hfits.factors_ne_nil]

theorem IsSum.linear (h : IsSum ws ts) : ∀ w ∈ ws, w.vars.length ≤ 1 := by
  intro w hw
  obtain ⟨_, _, _, -, hfits⟩ := h.spelled.exists_tokens w hw
  exact hfits.linear

theorem IsSum.not_isComparator (h : IsSum ws ts) : ∀ t ∈ ts, t.isComparator = false :=
  h.spelled.forall_mem fun _ _ _ hw => hw.not_isComparator

namespace Expr

/-- An expression is the terms that the summands of its tokens are read as. -/
theorem ofTokens_eq_ok {e : Expr α} : ofTokens source side ts = .ok e ↔
    ts ≠ [] ∧ Term.ofSummands source side (Summand.cut ts) = .ok e.terms := by
  unfold ofTokens
  split
  · rename_i hnone
    exact iff_of_false nofun fun h => h.1 (List.isEmpty_iff.mp hnone)
  · rename_i hsome
    rw [bind_eq_ok, and_iff_right (mt List.isEmpty_iff.mpr hsome)]
    constructor
    · rintro ⟨terms, hterms, h⟩
      cases h
      exact hterms
    · exact fun hterms => ⟨e.terms, hterms, rfl⟩

theorem ofTokens_sound {e : Expr α} (h : ofTokens source side ts = .ok e) :
    ∃ ws, IsSum ws ts ∧ e.terms.map Term.parts = ws.map WrittenTerm.parts := by
  obtain ⟨hts, hterms⟩ := ofTokens_eq_ok.mp h
  obtain ⟨hwell, hsigned⟩ := Summand.areCut_cut ts
  obtain ⟨ws, hws, hparts⟩ := Term.ofSummands_sound hwell hterms
  have hspells := hws.spells
  rw [Summand.tokens_cut] at hspells
  refine ⟨ws, ⟨?_, ?_, hspells⟩, hparts⟩
  · rintro rfl
    cases hspells
    exact hts rfl
  · generalize Summand.cut ts = ss at hws hsigned
    cases hws with
    | nil => simp
    | cons _ hws => exact Account.signed hws hsigned

theorem ofTokens_complete (h : IsSum ws ts) :
    ∃ e, ofTokens source side ts = .ok e ∧
      e.terms.map Term.parts = ws.map WrittenTerm.parts := by
  have hcut := account_cut h.spelled h.signed
  obtain ⟨terms, hterms, hparts⟩ := @Term.ofSummands_complete _ _ source side _ _ hcut
  exact ⟨⟨terms⟩, ofTokens_eq_ok.mpr ⟨h.ne_nil, hterms⟩, hparts⟩

end Expr

/-! The two sides and the operator between them. -/

omit [Scalar α] in
theorem Token.comparator?_eq_some {op : Comparator} :
    t.comparator? = some op ↔ t.kind = .comparator op := by
  unfold Token.comparator?
  split
  · rename_i h
    simp [h]
  · rename_i h
    exact iff_of_false nofun fun hk => h op hk

theorem Token.isComparator_of_kind {op : Comparator} (h : t.kind = .comparator op) :
    t.isComparator = true := by
  rw [Token.isComparator, Token.comparator?_eq_some.mpr h]
  rfl

theorem Token.map_comparator?_eq_none :
    (t.comparator?.map fun op => (op, t.span)) = none ↔ t.isComparator = false := by
  rw [Option.map_eq_none_iff, Token.isComparator, Option.isSome_eq_false_iff,
    Option.isNone_iff_eq_none]

theorem comparatorsOf_eq_singleton {op : Comparator} {span : Span} :
    comparatorsOf ts = [(op, span)] ↔ ∃ left t right, ts = left ++ t :: right ∧
      t.kind = .comparator op ∧ t.span = span ∧
      (∀ u ∈ left, u.isComparator = false) ∧ ∀ u ∈ right, u.isComparator = false := by
  rw [comparatorsOf, List.filterMap_eq_cons_iff]
  refine exists_congr fun left => exists_congr fun t => exists_congr fun right => ?_
  simp only [List.filterMap_eq_nil_iff, Token.map_comparator?_eq_none, Option.map_eq_some_iff,
    Token.comparator?_eq_some, Prod.mk.injEq]
  constructor
  · rintro ⟨hts, hl, ⟨_, hk, rfl, hs⟩, hr⟩
    exact ⟨hts, hk, hs, hl, hr⟩
  · rintro ⟨hts, hk, hs, hl, hr⟩
    exact ⟨hts, hl, ⟨op, hk, rfl, hs⟩, hr⟩

variable {left right : List Token}

theorem leftOf_append (hl : ∀ u ∈ left, u.isComparator = false) (ht : t.isComparator = true) :
    leftOf (left ++ t :: right) = left := by
  rw [leftOf, List.takeWhile_append_of_pos fun u hu => by rw [hl u hu]; rfl]
  simp [ht]

theorem rightOf_append (hl : ∀ u ∈ left, u.isComparator = false) (ht : t.isComparator = true) :
    rightOf (left ++ t :: right) = right := by
  rw [rightOf, List.dropWhile_append_of_pos fun u hu => by rw [hl u hu]; rfl]
  simp [ht]

namespace Comparison

theorem parse_sound {source : String} {c : Comparison α} (h : parse source = .ok c) :
    ∃ w : WrittenComparison α, w.SpelledBy (lexemes source) ∧ c.Reads w := by
  simp only [parse] at h
  split at h
  · cases h
  · rename_i op span hops
    obtain ⟨lhs, hlhs, h⟩ := bind_eq_ok.mp h
    obtain ⟨rhs, hrhs, h⟩ := bind_eq_ok.mp h
    cases h
    obtain ⟨left, t, right, hts, hk, -, hleft, -⟩ := comparatorsOf_eq_singleton.mp hops
    have ht := Token.isComparator_of_kind hk
    rw [hts, leftOf_append hleft ht] at hlhs
    rw [hts, rightOf_append hleft ht] at hrhs
    obtain ⟨ws, hws, hlparts⟩ := Expr.ofTokens_sound hlhs
    obtain ⟨vs, hvs, hrparts⟩ := Expr.ofTokens_sound hrhs
    exact ⟨⟨ws, op, vs⟩, ⟨left, t, right, hts, hk, hws, hvs⟩, rfl, hlparts, hrparts⟩
  · cases h

theorem parse_complete {source : String} {w : WrittenComparison α}
    (h : w.SpelledBy (lexemes source)) : ∃ c, parse source = .ok c ∧ c.Reads w := by
  obtain ⟨left, t, right, hts, hk, hws, hvs⟩ := h
  have ht := Token.isComparator_of_kind hk
  have hleft := hws.not_isComparator
  have hops := comparatorsOf_eq_singleton.mpr
    ⟨left, t, right, hts, hk, rfl, hleft, hvs.not_isComparator⟩
  obtain ⟨lhs, hlhs, hlparts⟩ := @Expr.ofTokens_complete _ _ source.toList .left _ _ hws
  obtain ⟨rhs, hrhs, hrparts⟩ := @Expr.ofTokens_complete _ _ source.toList .right _ _ hvs
  refine ⟨⟨lhs, w.op, t.span, rhs⟩, ?_, rfl, hlparts, hrparts⟩
  simp only [parse, hops]
  simp only [hts, leftOf_append hleft ht, rightOf_append hleft ht, hlhs, hrhs]
  rfl

/-- What is read does not depend on how the tokens are taken to spell a comparison. -/
theorem parse_reads {source : String} {c : Comparison α} {w : WrittenComparison α}
    (hc : parse source = .ok c) (hw : w.SpelledBy (lexemes source)) : c.Reads w := by
  obtain ⟨c', hc', hreads⟩ := parse_complete hw
  cases hc.symm.trans hc'
  exact hreads

end Comparison

/-- Comparisons are accepted exactly when their tokens spell one, and read as they are spelled. -/
theorem comparison_parse (source : String) :
    ((∃ c : Comparison α, Comparison.parse source = .ok c) ↔
      ∃ w : WrittenComparison α, w.SpelledBy (lexemes source)) ∧
    ∀ (c : Comparison α) (w : WrittenComparison α), Comparison.parse source = .ok c →
      w.SpelledBy (lexemes source) → c.Reads w := by
  refine ⟨⟨?_, ?_⟩, ?_⟩
  · rintro ⟨c, hc⟩
    obtain ⟨w, hw, -⟩ := Comparison.parse_sound hc
    exact ⟨w, hw⟩
  · rintro ⟨w, hw⟩
    obtain ⟨c, hc, -⟩ := Comparison.parse_complete hw
    exact ⟨c, hc⟩
  · intro c w hc hw
    exact Comparison.parse_reads hc hw

end PlanarLP.Formula
