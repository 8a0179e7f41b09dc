import PlanarLP.Proofs.ErrorSpans

/-! Terms lie over their tokens. Whatever is read of a term, its span reaches from the first token
that was read to the last one, so a finished term reaches from its first sign, or else its first
factor, to its last token (`Term.ofSummand_reaches`). The summands of a side are its tokens cut
up, so the spans of its terms part these tokens among them (`Expr.ofTokens_partitions`). -/

namespace PlanarLP.Formula

/-! ## Spans over tokens -/

namespace Span

/-- From the start of the first token to the end of the last. -/
def Reaches (s : Span) (ts : List Token) : Prop :=
  ∃ first last, ts.head? = some first ∧ ts.getLast? = some last ∧
    s = ⟨first.span.start, last.span.stop⟩

def Within (s t : Span) : Prop := t.start ≤ s.start ∧ s.stop ≤ t.stop

end Span

namespace Placed

variable {source : List Char} {t : Token} {ts : List Token}

theorem head_start_le (h : Placed source ts) (ht : ts.head? = some t) :
    ∀ u ∈ ts, t.span.start ≤ u.span.start := by
  obtain ⟨us, rfl⟩ := List.head?_eq_some_iff.mp ht
  have hlt := (h.inText t List.mem_cons_self).lt
  refine List.forall_mem_cons.mpr ⟨Nat.le_refl _, fun u hu => ?_⟩
  have hle := List.rel_of_pairwise_cons h.ordered hu
  omega

theorem stop_le_last (h : Placed source ts) (ht : ts.getLast? = some t) :
    ∀ u ∈ ts, u.span.stop ≤ t.span.stop := by
  obtain ⟨us, rfl⟩ := List.getLast?_eq_some_iff.mp ht
  have hlt := (h.inText t (List.mem_append_right us List.mem_cons_self)).lt
  refine List.forall_mem_append.mpr ⟨fun u hu => ?_, by simp⟩
  have hle := (List.pairwise_append.mp h.ordered).2.2 u hu t List.mem_cons_self
  omega

end Placed

namespace Span.Reaches

variable {source : List Char} {s r : Span} {ts us : List Token}

theorem token (t : Token) : t.span.Reaches [t] := ⟨t, t, rfl, rfl, rfl⟩

theorem start_mem (h : s.Reaches ts) : ∃ t ∈ ts, s.start = t.span.start := by
  obtain ⟨first, last, hfirst, -, rfl⟩ := h
  exact ⟨first, List.mem_of_head? hfirst, rfl⟩

theorem stop_mem (h : s.Reaches ts) : ∃ t ∈ ts, s.stop = t.span.stop := by
  obtain ⟨first, last, -, hlast, rfl⟩ := h
  exact ⟨last, List.mem_of_getLast? hlast, rfl⟩

theorem within (h : s.Reaches ts) (hp : Placed source ts) : ∀ t ∈ ts, t.span.Within s := by
  obtain ⟨first, last, hfirst, hlast, rfl⟩ := h
  exact fun t ht => ⟨hp.head_start_le hfirst t ht, hp.stop_le_last hlast t ht⟩

theorem lt (h : s.Reaches ts) (hp : Placed source ts) : s.start < s.stop := by
  obtain ⟨t, ht, hstart⟩ := h.start_mem
  have hlt := (hp.inText t ht).lt
  have hle := (h.within hp t ht).2
  omega

/-- Tokens that stand behind others are spanned behind them. -/
theorem stop_le_start (h : s.Reaches ts) (h' : r.Reaches us)
    (ho : ∀ t ∈ ts, ∀ u ∈ us, t.span.stop ≤ u.span.start) : s.stop ≤ r.start := by
  obtain ⟨t, ht, hstop⟩ := h.stop_mem
  obtain ⟨u, hu, hstart⟩ := h'.start_mem
  rw [hstop, hstart]
  exact ho t ht u hu

theorem cover (h : s.Reaches ts) (h' : r.Reaches us) (hp : Placed source (ts ++ us)) :
    (s.cover r).Reaches (ts ++ us) := by
  have hs := h.lt (hp.sublist (List.sublist_append_left ts us))
  have hr := h'.lt (hp.sublist (List.sublist_append_right ts us))
  have hle := h.stop_le_start h' (List.pairwise_append.mp hp.ordered).2.2
  obtain ⟨first, _, hfirst, -, rfl⟩ := h
  obtain ⟨_, last, -, hlast, rfl⟩ := h'
  refine ⟨first, last, by simp [hfirst], by simp [hlast], ?_⟩
  simp only [Span.cover, Span.mk.injEq] at hs hr hle ⊢
  omega

/-- Spans covered one after another. -/
theorem foldl_cover {spans : List Span} {groups : List (List Token)} (h : s.Reaches ts)
    (hs : List.Forall₂ Reaches spans groups) (hp : Placed source (ts ++ groups.flatten)) :
    (spans.foldl Span.cover s).Reaches (ts ++ groups.flatten) := by
  induction hs generalizing s ts with
  | nil => simpa using h
  | @cons r us spans groups hr hs ih =>
    rw [List.flatten_cons, ← List.append_assoc] at hp ⊢
    exact ih (h.cover hr (hp.sublist (List.sublist_append_left _ _))) hp

end Span.Reaches

section Groups

variable {source : List Char} {spans : List Span} {groups : List (List Token)}

theorem pairwise_of_reaches (h : List.Forall₂ Span.Reaches spans groups)
    (hp : Placed source groups.flatten) : spans.Pairwise fun s r => s.stop ≤ r.start := by
  induction h with
  | nil => exact .nil
  | @cons s ts spans groups hs h ih =>
    rw [List.flatten_cons] at hp
    obtain ⟨-, -, hbehind⟩ := List.pairwise_append.mp hp.ordered
    refine .cons (fun r hr => ?_) (ih (hp.sublist (List.sublist_append_right _ _)))
    obtain ⟨i, hi, rfl⟩ := List.getElem_of_mem hr
    have hlen : i < groups.length := h.length_eq ▸ hi
    refine hs.stop_le_start (h.get hi hlen) fun t ht u hu => hbehind t ht u ?_
    exact List.mem_flatten.mpr ⟨_, List.getElem_mem hlen, hu⟩

theorem exists_within_of_reaches (h : List.Forall₂ Span.Reaches spans groups)
    (hp : Placed source groups.flatten) :
    ∀ t ∈ groups.flatten, ∃ s ∈ spans, t.span.Within s := by
  intro t ht
  obtain ⟨ts, hts, ht⟩ := List.mem_flatten.mp ht
  obtain ⟨i, hi, rfl⟩ := List.getElem_of_mem hts
  have hlen : i < spans.length := h.length_eq ▸ hi
  have hreaches : spans[i].Reaches groups[i] := h.get hlen hi
  exact ⟨_, List.getElem_mem hlen,
    hreaches.within (hp.sublist (List.sublist_flatten_of_mem hts)) t ht⟩

end Groups

theorem spanOf?_reaches {source : List Char} {ts : List Token} {s : Span}
    (h : spanOf? ts = some s) (hp : Placed source ts) : s.Reaches ts := by
  cases ts with
  | nil => cases h
  | cons t ts =>
    cases h
    have hsingles : List.Forall₂ Span.Reaches (ts.map Token.span) (ts.map fun u => [u]) :=
      List.forall₂_map_left_iff.mpr (List.forall₂_map_right_iff.mpr
        (List.forall₂_same.mpr fun u _ => .token u))
    have hflat : (ts.map fun u => [u]).flatten = ts := by simp [← List.flatMap_def]
    have hreaches := (Span.Reaches.token t).foldl_cover hsingles (by rwa [hflat])
    rwa [hflat, List.foldl_map] at hreaches

/-! ## Terms -/

section Terms

variable {α : Type} [Scalar α] {source : List Char} {side : Side} {after : Option Token}
  {ts : List Token} {term : Term α}

/-- A partial term reaches over what is read of it, and the finished term over the rest too. -/
theorem PartialTerm.readAll_reaches {r : PartialTerm α} {before : List Token}
    (hr : r.span.Reaches before) (hp : Placed source (before ++ ts))
    (h : readAll source side after r ts = .ok term) : term.span.Reaches (before ++ ts) := by
  induction ts generalizing r before with
  | nil =>
    obtain ⟨-, -, rfl⟩ := finish_eq_ok.mp h
    simpa using hr
  | cons t ts ih =>
    obtain ⟨r', hstep, h⟩ := readAll_cons_eq_ok.mp h
    rw [List.append_cons] at hp ⊢
    have hnext : r'.span.Reaches (before ++ [t]) := by
      rw [hstep.span_eq]
      exact hr.cover (.token t) (hp.sublist (List.sublist_append_left _ _))
    exact ih hnext hp h

namespace Term

/-- A term has a factor, and reaches from its first sign, or else from that factor, to its last
token. -/
theorem ofSummand_reaches {s : Summand} (hp : Placed source s.tokens)
    (h : ofSummand source side after s = .ok term) :
    s.factors ≠ [] ∧ term.span.Reaches s.tokens := by
  obtain ⟨signs, factors⟩ := s
  cases factors with
  | nil => cases h
  | cons t ts =>
    refine ⟨List.cons_ne_nil t ts, ?_⟩
    obtain ⟨unsigned, hread, h⟩ := bind_eq_ok.mp h
    cases h
    obtain ⟨r, hstep, hread⟩ := PartialTerm.readAll_cons_eq_ok.mp hread
    -- the span that reading starts from is that of the first factor, which is then covered again
    have hfirst : r.span.Reaches [t] := by
      have hself : t.span.cover t.span = t.span := by simp [Span.cover]
      rw [hstep.span_eq]
      exact hself.symm ▸ .token t
    have hfactors : Placed source ([t] ++ ts) := hp.sublist (List.sublist_append_right _ _)
    have hreaches := PartialTerm.readAll_reaches hfirst hfactors hread
    show (unsigned.signed signs).span.Reaches (signs ++ t :: ts)
    unfold signed
    cases signs with
    | nil => exact hreaches
    | cons u us =>
      have hsigns : Placed source (u :: us) := hp.sublist (List.sublist_append_left _ _)
      exact (spanOf?_reaches rfl hsigns).cover hreaches hp

theorem ofSummands_reaches {ss : List Summand} {terms : List (Term α)}
    (hp : Placed source (ss.flatMap Summand.tokens)) (h : ofSummands source side ss = .ok terms) :
    List.Forall₂ (fun t s => s.factors ≠ [] ∧ t.span.Reaches s.tokens) terms ss := by
  induction ss generalizing terms with
  | nil =>
    cases h
    exact .nil
  | cons s ss ih =>
    rw [List.flatMap_cons] at hp
    obtain ⟨term, hterm, h⟩ := bind_eq_ok.mp h
    obtain ⟨rest, hrest, h⟩ := bind_eq_ok.mp h
    cases h
    exact .cons (ofSummand_reaches (hp.sublist (List.sublist_append_left _ _)) hterm)
      (ih (hp.sublist (List.sublist_append_right _ _)) hrest)

end Term

end Terms

/-! ## Sides -/

section Sides

variable {α : Type} {source : List Char}

/-- The terms of a side part its tokens among them. -/
structure Expr.Partitions (e : Expr α) (ts : List Token) : Prop where
  nonempty : ∀ t ∈ e.terms, t.span.start < t.span.stop
  ordered : e.terms.Pairwise fun t u => t.span.stop ≤ u.span.start
  /-- A token lies within one term and no other. -/
  covered : ∀ t ∈ ts, ∃! i : Fin e.terms.length, t.span.Within e.terms[i].span
  /-- The tokens are cut before each run of signs, and each term reaches over its share. -/
  cut : ∃ ss : List Summand, Summand.AreCut ss ∧ ss.flatMap Summand.tokens = ts ∧
    List.Forall₂ (fun t s => s.factors ≠ [] ∧ t.span.Reaches s.tokens) e.terms ss
  /-- The side as a whole reaches over all of them. -/
  span : ∃ s, e.span? = some s ∧ s.Reaches ts

variable {e : Expr α} {groups : List (List Token)}

theorem covered_of_reaches (h : List.Forall₂ Span.Reaches (e.terms.map Term.span) groups)
    (hp : Placed source groups.flatten) :
    ∀ t ∈ groups.flatten, ∃! i : Fin e.terms.length, t.span.Within e.terms[i].span := by
  intro t ht
  obtain ⟨s, hs, hwithin⟩ := exists_within_of_reaches h hp t ht
  obtain ⟨term, hterm, rfl⟩ := List.mem_map.mp hs
  obtain ⟨i, hi, rfl⟩ := List.getElem_of_mem hterm
  refine ⟨⟨i, hi⟩, hwithin, fun ⟨j, hj⟩ hother => Fin.ext ?_⟩
  -- within two terms, the token would have to end before it starts
  have hlt := (hp.inText t ht).lt
  have hordered := List.pairwise_iff_getElem.mp (List.pairwise_map.mp (pairwise_of_reaches h hp))
  rcases Nat.lt_trichotomy j i with hji | hji | hij
  · have hle := hordered j i hj hi hji
    exact absurd (hlt.trans_le (hother.2.trans (hle.trans hwithin.1))) (Nat.lt_irrefl _)
  · exact hji
  · have hle := hordered i j hi hj hij
    exact absurd (hlt.trans_le (hwithin.2.trans (hle.trans hother.1))) (Nat.lt_irrefl _)

theorem span_of_reaches (h : List.Forall₂ Span.Reaches (e.terms.map Term.span) groups)
    (hne : groups ≠ []) (hp : Placed source groups.flatten) :
    ∃ s, e.span? = some s ∧ s.Reaches groups.flatten := by
  obtain ⟨terms⟩ := e
  cases terms with
  | nil =>
    cases h
    exact absurd rfl hne
  | cons t ts =>
    obtain _ | ⟨hfirst, hrest⟩ := h
    have hreaches := hfirst.foldl_cover hrest hp
    rw [List.foldl_map] at hreaches
    exact ⟨_, rfl, hreaches⟩

theorem Expr.partitions_of_reaches {ss : List Summand} (hcut : Summand.AreCut ss) (hne : ss ≠ [])
    (hp : Placed source (ss.flatMap Summand.tokens))
    (h : List.Forall₂ (fun t s => s.factors ≠ [] ∧ t.span.Reaches s.tokens) e.terms ss) :
    e.Partitions (ss.flatMap Summand.tokens) := by
  have hspans : List.Forall₂ Span.Reaches (e.terms.map Term.span) (ss.map Summand.tokens) :=
    List.forall₂_map_left_iff.mpr (List.forall₂_map_right_iff.mpr (h.imp fun _ _ => And.right))
  have hflat : ss.flatMap Summand.tokens = (ss.map Summand.tokens).flatten := List.flatMap_def ..
  have hgroups : ss.map Summand.tokens ≠ [] := by simpa using hne
  refine ⟨?_, ?_, ?_, ⟨ss, hcut, rfl, h⟩, ?_⟩
  · intro t ht
    obtain ⟨i, hi, rfl⟩ := List.getElem_of_mem ht
    have hlen : i < ss.length := h.length_eq ▸ hi
    have hsub : ss[i].tokens.Sublist (ss.flatMap Summand.tokens) := by
      rw [hflat]
      exact List.sublist_flatten_of_mem (List.mem_map_of_mem (List.getElem_mem hlen))
    exact (h.get hi hlen).2.lt (hp.sublist hsub)
  all_goals rw [hflat] at hp
  · exact List.pairwise_map.mp (pairwise_of_reaches hspans hp)
  · rw [hflat]
    exact covered_of_reaches hspans hp
  · rw [hflat]
    exact span_of_reaches hspans hgroups hp

theorem Expr.ofTokens_partitions [Scalar α] {side : Side} {ts : List Token}
    (hp : Placed source ts) (h : ofTokens source side ts = .ok e) : e.Partitions ts := by
  obtain ⟨hts, hterms⟩ := ofTokens_eq_ok.mp h
  have hcut := Summand.tokens_cut ts
  rw [← hcut] at hp
  have hne : Summand.cut ts ≠ [] := by
    intro hnil
    rw [hnil] at hcut
    exact hts hcut.symm
  have hpart := Expr.partitions_of_reaches (Summand.areCut_cut ts) hne hp
    (Term.ofSummands_reaches hp hterms)
  rwa [hcut] at hpart

end Sides

/-! ## Comparisons -/

variable {α : Type} {source : String} {c : Comparison α}

/-- The tokens to the left and to the right of the operator belong to the terms on either side,
and it stands between them. -/
structure Comparison.Partitions (c : Comparison α) (left : List Token) (op : Token)
    (right : List Token) : Prop where
  kind : op.kind = .comparator c.op
  opSpan : c.opSpan = op.span
  only : ∀ t ∈ left ++ right, t.isComparator = false
  lhs : c.lhs.Partitions left
  rhs : c.rhs.Partitions right
  lhs_stop : ∀ s, c.lhs.span? = some s → s.stop ≤ c.opSpan.start
  rhs_start : ∀ s, c.rhs.span? = some s → c.opSpan.stop ≤ s.start

/-- **Terms part their side.** In a text that is read as a comparison, the spans of the terms on
each side are apart and in order, and every token of the side lies in one of them: each reaches
from the first sign or factor of its term to the last token. The sides reach from their first
token to their last, with the only operator between them. -/
theorem comparison_partitions [Scalar α] (h : Comparison.parse source = .ok c) :
    ∃ left op right, lexemes source = left ++ op :: right ∧ c.Partitions left op right := by
  have hp := placed_lexemes source
  simp only [Comparison.parse] at h
  split at h
  · cases h
  · rename_i op span hops
    obtain ⟨lhs, hlhs, h⟩ := bind_eq_ok.mp h
    obtain ⟨rhs, hrhs, h⟩ := bind_eq_ok.mp h
    cases h
    obtain ⟨left, t, right, hts, hk, rfl, hleft, hright⟩ := comparatorsOf_eq_singleton.mp hops
    have ht := Token.isComparator_of_kind hk
    rw [hts, leftOf_append hleft ht] at hlhs
    rw [hts, rightOf_append hleft ht] at hrhs
    rw [hts] at hp
    obtain ⟨-, hbehind, hordered⟩ := List.pairwise_append.mp hp.ordered
    have hlpart := Expr.ofTokens_partitions (hp.sublist (List.sublist_append_left _ _)) hlhs
    have hrpart := Expr.ofTokens_partitions
      (hp.sublist ((List.sublist_cons_self _ _).trans (List.sublist_append_right _ _))) hrhs
    refine ⟨left, t, right, hts, hk, rfl, List.forall_mem_append.mpr ⟨hleft, hright⟩, hlpart,
      hrpart, fun s hs => ?_, fun s hs => ?_⟩
    · obtain ⟨r, hr, hreaches⟩ := hlpart.span
      cases hs.symm.trans hr
      exact hreaches.stop_le_start (.token t) (by simpa using fun u hu => hordered u hu t (by simp))
    · obtain ⟨r, hr, hreaches⟩ := hrpart.span
      cases hs.symm.trans hr
      exact (Span.Reaches.token t).stop_le_start hreaches
        (by simpa using fun u hu => List.rel_of_pairwise_cons hbehind hu)
  · cases h

/-- Two terms on each side, of several factors and signs, about an operator of three bytes. -/
theorem comparison_partitions_signs : ∃ c : Comparison Float,
    Comparison.parse "-2x*3 - - y/4 ≥ 1e2 + .5x" = .ok c ∧
    c.lhs.terms.map Term.span = [⟨0, 5⟩, ⟨6, 13⟩] ∧ c.opSpan = ⟨14, 17⟩ ∧
    c.rhs.terms.map Term.span = [⟨18, 21⟩, ⟨22, 27⟩] ∧
    ∃ left op right, lexemes "-2x*3 - - y/4 ≥ 1e2 + .5x" = left ++ op :: right ∧
      c.Partitions left op right := by
  have hparse : (Comparison.parse "-2x*3 - - y/4 ≥ 1e2 + .5x" : Except (ParseError Float) _) =
      .ok ⟨⟨[⟨⟨0, 5⟩, -6, some .x⟩, ⟨⟨6, 13⟩, 0.25, some .y⟩]⟩, .ge, ⟨14, 17⟩,
        ⟨[⟨⟨18, 21⟩, 100, none⟩, ⟨⟨22, 27⟩, 0.5, some .x⟩]⟩⟩ := by
    decide +kernel
  exact ⟨_, hparse, rfl, rfl, rfl, comparison_partitions hparse⟩

end PlanarLP.Formula
