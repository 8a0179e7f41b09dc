import PlanarLP.Proofs.Lowering
import PlanarLP.Proofs.Spacing

/-! A constraint is read from its tokens, and their places matter to error messages only. Tokens
of the same kinds and texts spell the same comparisons, so what `Comparison.parse` accepts and
the coefficients it finds are the same for them. The text that a constraint keeps has the
tokens of the text it was read from and is read back as that very constraint. -/

namespace PlanarLP

namespace Formula

/-- The second tokens are the first ones at other places. -/
def Alike (ts us : List Token) : Prop := us.map Token.form = ts.map Token.form

variable {α : Type} [Scalar α] {t u : Token} {ts ts' us : List Token}

namespace Alike

theorem append (h : Alike (ts ++ ts') us) :
    ∃ vs vs', us = vs ++ vs' ∧ Alike ts vs ∧ Alike ts' vs' :=
  List.map_eq_append_iff.mp (h.trans List.map_append)

theorem cons (h : Alike (t :: ts) us) : ∃ v vs, us = v :: vs ∧ v.form = t.form ∧ Alike ts vs :=
  List.map_eq_cons_iff.mp h

theorem kinds (h : Alike ts us) : us.map Token.kind = ts.map Token.kind := by
  have := congrArg (List.map Prod.fst) h
  rwa [List.map_map, List.map_map] at this

theorem lexemes {s t : String} (h : Alike (tokenize s) (tokenize t)) :
    Alike (lexemes s) (lexemes t) := by
  rw [Alike, Formula.lexemes, Formula.lexemes, List.map_dropLast, List.map_dropLast]
  exact congrArg List.dropLast h

end Alike

/-! What tokens spell, they spell at other places too. -/

theorem Token.IsVariable.alike {v : Variable} (h : t.IsVariable v) (hu : u.form = t.form) :
    u.IsVariable v := by
  obtain ⟨hkind, htext⟩ := Prod.mk.inj hu
  exact ⟨hkind.trans h.1, by rw [htext]; exact h.2⟩

theorem Token.IsNumber.alike {v : α} (h : t.IsNumber v) (hu : u.form = t.form) :
    u.IsNumber v := by
  obtain ⟨hkind, htext⟩ := Prod.mk.inj hu
  exact ⟨hkind.trans h.1, by rw [htext]; exact h.2⟩

theorem Factor.SpelledBy.alike {f : Factor α} (h : f.SpelledBy t) (hu : u.form = t.form) :
    f.SpelledBy u := by
  cases h with
  | number h => exact .number (h.alike hu)
  | var h => exact .var (h.alike hu)

theorem Tail.SpelledBy.alike {b : Tail α} (h : b.SpelledBy ts) (hu : Alike ts us) :
    b.SpelledBy us := by
  cases h with
  | times hop hf =>
    obtain ⟨op, vs, rfl, hop', hvs⟩ := hu.cons
    obtain ⟨v, vs, rfl, hv, hvs⟩ := hvs.cons
    obtain rfl := List.map_eq_nil_iff.mp hvs
    exact .times ((congrArg Prod.fst hop').trans hop) (hf.alike hv)
  | divided hop hd hne =>
    obtain ⟨op, vs, rfl, hop', hvs⟩ := hu.cons
    obtain ⟨v, vs, rfl, hv, hvs⟩ := hvs.cons
    obtain rfl := List.map_eq_nil_iff.mp hvs
    exact .divided ((congrArg Prod.fst hop').trans hop) (hd.alike hv) hne
  | beside h =>
    obtain ⟨v, vs, rfl, hv, hvs⟩ := hu.cons
    obtain rfl := List.map_eq_nil_iff.mp hvs
    exact .beside (h.alike hv)

theorem Spells.alike {β : Type} {spelled : β → List Token → Prop} {bs : List β}
    (hspelled : ∀ b ts us, spelled b ts → Alike ts us → spelled b us) (h : Spells spelled bs ts)
    (hu : Alike ts us) : Spells spelled bs us := by
  induction h generalizing us with
  | nil =>
    obtain rfl := List.map_eq_nil_iff.mp hu
    exact .nil
  | cons hb _ ih =>
    obtain ⟨vs, vs', rfl, hvs, hvs'⟩ := hu.append
    exact .cons (hspelled _ _ _ hb hvs) (ih hvs')

theorem WrittenTerm.SpelledBy.alike {w : WrittenTerm α} (h : w.SpelledBy ts) (hu : Alike ts us) :
    w.SpelledBy us := by
  obtain ⟨signs, factors, rfl, hfits⟩ := h
  obtain ⟨vs, vs', rfl, hsigns, hfactors⟩ := hu.append
  obtain ⟨t, rest, rfl, hfirst, hrest⟩ := hfits.factors
  obtain ⟨v, tail, rfl, hv, htail⟩ := hfactors.cons
  refine ⟨vs, v :: tail, rfl, hsigns.kinds.trans hfits.signs, ?_, hfits.linear⟩
  exact ⟨v, tail, rfl, hfirst.alike hv, hrest.alike (fun _ _ _ => Tail.SpelledBy.alike) htail⟩

theorem IsSum.alike {ws : List (WrittenTerm α)} (h : IsSum ws ts) (hu : Alike ts us) :
    IsSum ws us :=
  ⟨h.nonempty, h.signed, h.spelled.alike (fun _ _ _ => WrittenTerm.SpelledBy.alike) hu⟩

theorem WrittenComparison.SpelledBy.alike {w : WrittenComparison α} (h : w.SpelledBy ts)
    (hu : Alike ts us) : w.SpelledBy us := by
  obtain ⟨left, op, right, rfl, hop, hleft, hright⟩ := h
  obtain ⟨vs, vs', rfl, hvs, hvs'⟩ := hu.append
  obtain ⟨v, tail, rfl, hv, htail⟩ := hvs'.cons
  exact ⟨vs, v, tail, rfl, (congrArg Prod.fst hv).trans hop, hleft.alike hvs, hright.alike htail⟩

/-! What is read follows from what is spelled. -/

theorem Expr.total_congr {e f : Expr α} (h : e.terms.map Term.parts = f.terms.map Term.parts)
    (v : Option Variable) : e.total v = f.total v := by
  have htotal : ∀ e : Expr α, e.total v =
      (((e.terms.map Term.parts).filter fun q => q.2 == v).map Prod.fst).foldl (· + ·) (-0) := by
    intro e
    rw [List.filter_map, List.map_map]
    rfl
  rw [htotal, htotal, h]

theorem Comparison.Reads.lowered_eq {c d : Comparison α} {w : WrittenComparison α}
    (hc : c.Reads w) (hd : d.Reads w) (source : String) : c.lowered source = d.lowered source := by
  have hl := Expr.total_congr (hc.lhs.trans hd.lhs.symm)
  have hr := Expr.total_congr (hc.rhs.trans hd.rhs.symm)
  simp only [lowered, Expr.coefficient, Expr.constant, hl, hr, hc.op, hd.op]

end Formula

open Formula

namespace Constraint

variable {α : Type} [Scalar α]

/-- Both texts are no constraint, or both are one with the same coefficients and relation. -/
inductive Agree : Except (ParseError α) (Constraint α) → Except (ParseError α) (Constraint α) → Prop
  | rejected (e f : ParseError α) : Agree (.error e) (.error f)
  | accepted {k l : Constraint α} (ha : k.a = l.a) (hb : k.b = l.b) (hc : k.c = l.c)
    (hrelation : k.relation = l.relation) : Agree (.ok k) (.ok l)

/-- Only the text that a constraint keeps depends on more than the tokens. -/
theorem parse_alike {s t : String} (h : Alike (tokenize s) (tokenize t)) {k : Constraint α}
    (hk : Constraint.parse s = .ok k) :
    Constraint.parse t = .ok { k with source := normalized t } := by
  obtain ⟨c, hc, rfl, hfinite, hzero⟩ := parse_eq_ok.mp hk
  obtain ⟨w, hw, hreads⟩ := Comparison.parse_sound hc
  obtain ⟨d, hd, hreads'⟩ := Comparison.parse_complete (hw.alike h.lexemes)
  exact parse_eq_ok.mpr ⟨d, hd, hreads'.lowered_eq hreads t, hfinite, hzero⟩

theorem parse_agree {s t : String} (h : Alike (tokenize s) (tokenize t)) :
    Agree (Constraint.parse s : Except (ParseError α) (Constraint α)) (Constraint.parse t) := by
  cases hs : (Constraint.parse s : Except (ParseError α) (Constraint α)) with
  | ok k =>
    rw [parse_alike h hs]
    exact .accepted rfl rfl rfl rfl
  | error e =>
    cases ht : (Constraint.parse t : Except (ParseError α) (Constraint α)) with
    | ok l => exact absurd (parse_alike h.symm ht) (by rw [hs]; nofun)
    | error f => exact .rejected e f

theorem source_of_parse {source : String} {k : Constraint α}
    (hk : Constraint.parse source = .ok k) : k.source = normalized source := by
  obtain ⟨c, -, rfl, -⟩ := parse_eq_ok.mp hk
  rfl

/-- The text that a constraint keeps is read as the constraint itself. -/
theorem parse_source {source : String} {k : Constraint α}
    (hk : Constraint.parse source = .ok k) : Constraint.parse k.source = .ok k := by
  have hsource := source_of_parse hk
  rw [hsource, parse_alike (map_form_normalized source) hk, normalized_normalized, ← hsource]

end Constraint

/-- A constraint is read back from the text that it keeps, normalizing a text leaves the kinds
and texts of its tokens as they are, and these alone decide whether a text is a constraint and
which one. -/
theorem constraint_reparse (α : Type) [Scalar α] :
    (∀ (source : String) (k : Constraint α), Constraint.parse source = .ok k →
      Constraint.parse k.source = .ok k) ∧
    (∀ source, (tokenize (normalized source)).map Token.form =
      (tokenize source).map Token.form) ∧
    ∀ s t, (tokenize s).map Token.form = (tokenize t).map Token.form →
      Constraint.Agree (Constraint.parse s : Except (ParseError α) (Constraint α))
        (Constraint.parse t) :=
  ⟨fun _ _ => Constraint.parse_source, map_form_normalized,
    fun _ _ h => Constraint.parse_agree h.symm⟩

end PlanarLP
