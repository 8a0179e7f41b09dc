import PlanarLP.Proofs.Grammar

/-! Reading a term against the grammar of terms. `PartialTerm.read_eq_ok` says once what a
token can do to a partial term; from it the loop is sound (`readAll_sound`: what it accepts is
spelled by the tokens it has read) and complete (`readAll_complete`). -/

namespace PlanarLP.Formula

theorem bind_eq_ok {ε β γ : Type} {x : Except ε β} {f : β → Except ε γ} {c : γ} :
    (x >>= f) = .ok c ↔ ∃ b, x = .ok b ∧ f b = .ok c := by
  cases x <;> simp [bind, Except.bind]

theorem Name.of_eq_var {name : String} {v : Variable} :
    Name.of name = .var v ↔ name.toLower = v.name := by
  have hlower : name.toLower.toList = name.toList.map Char.toLower := String.toList_map
  rw [← String.toList_inj, hlower, Name.of]
  split
  · rename_i h
    cases v <;> simp [h, Variable.name]
  · rename_i h
    cases v <;> simp [h, Variable.name]
  · rename_i hx hy
    refine iff_of_false (by split <;> simp) ?_
    cases v
    · exact hx
    · exact hy

/-- The kinds of tokens that a term is made of, apart from its signs. -/
def Token.Kind.InTerm (k : Token.Kind) : Prop :=
  k = .number ∨ k = .ident ∨ k = .star ∨ k = .slash

variable {α : Type} [Scalar α] {source : List Char} {side : Side} {after : Option Token}
  {r r' : PartialTerm α} {t : Token} {ts : List Token}

theorem numberOf_eq_ok {text : String} {v : α} : numberOf text = .ok v ↔
    (Decimal.ofNumeral? text.toList).map Decimal.value = some v ∧
      Scalar.isFinite v = true := by
  unfold numberOf
  split
  · rename_i h
    simp [h]
  · rename_i d h
    rw [h, Option.map_some, Option.some.injEq]
    split
    · rename_i hd
      rw [Except.ok.injEq]
      exact ⟨fun e => ⟨e, e ▸ hd⟩, And.left⟩
    · rename_i hd
      exact iff_of_false nofun fun ⟨e, hv⟩ => hd (e ▸ hv)

namespace PartialTerm

/-- What a token can do to a partial term. -/
inductive Step (r : PartialTerm α) (t : Token) : PartialTerm α → Prop
  | number {v : α} (hv : t.IsNumber v) (hf : r.slot ≠ .factor) (ho : r.slot ≠ .over) :
    Step r t { r.grow t.span .factor with coefficient := r.coefficient * v }
  | divisor {v : α} (hv : t.IsNumber v) (ho : r.slot = .over) (hne : (v == 0) = false) :
    Step r t { r.grow t.span .factor with coefficient := r.coefficient / v }
  | var {v : Variable} (hv : t.IsVariable v) (ho : r.slot ≠ .over) (hn : r.var = none) :
    Step r t { r.grow t.span .factor with var := some v }
  | star (hk : t.kind = .star) (hf : r.slot = .factor) : Step r t (r.grow t.span .times)
  | slash (hk : t.kind = .slash) (hf : r.slot = .factor) : Step r t (r.grow t.span .over)

theorem Step.kind (h : r.Step t r') : t.kind.InTerm := by
  cases h with
  | number hv | divisor hv | var hv => simp [Token.Kind.InTerm, hv.1]
  | star hk | slash hk => simp [Token.Kind.InTerm, hk]

theorem number_eq_ok (hk : t.kind = .number) : r.number source t = .ok r' ↔ r.Step t r' := by
  unfold number
  constructor
  · intro h
    split at h
    · cases h
    · rename_i hf
      obtain ⟨v, hv, h⟩ := bind_eq_ok.mp h
      have hv : t.IsNumber v := ⟨hk, numberOf_eq_ok.mp hv⟩
      split at h
      · rename_i ho
        split at h
        · cases h
        · rename_i hne
          cases h
          exact .divisor hv ho (Bool.eq_false_iff.mpr hne)
      · rename_i ho
        cases h
        exact .number hv hf ho
  · intro h
    cases h with
    | number hv hf ho =>
      rw [if_neg hf]
      exact bind_eq_ok.mpr ⟨_, numberOf_eq_ok.mpr hv.2, by rw [if_neg ho]; rfl⟩
    | divisor hv ho hne =>
      rw [if_neg (by rw [ho]; nofun)]
      exact bind_eq_ok.mpr ⟨_, numberOf_eq_ok.mpr hv.2, by rw [if_pos ho, hne]; rfl⟩
    | var hv => exact absurd (hk.symm.trans hv.1) nofun
    | star hk' | slash hk' => exact absurd (hk.symm.trans hk') nofun

theorem name_eq_ok (hk : t.kind = .ident) : r.name source t = .ok r' ↔ r.Step t r' := by
  unfold name
  constructor
  · intro h
    split at h
    · cases h
    · rename_i hs
      rw [Bool.or_eq_true, decide_eq_true_iff, not_or] at hs
      split at h
      · rename_i v hv
        cases h
        exact .var ⟨hk, Name.of_eq_var.mp hv⟩ hs.1 (Option.not_isSome_iff_eq_none.mp hs.2)
      · cases h
      · cases h
  · intro h
    cases h with
    | var hv ho hn => rw [if_neg (by simp [ho, hn]), Name.of_eq_var.mpr hv.2]
    | number hv | divisor hv => exact absurd (hk.symm.trans hv.1) nofun
    | star hk' | slash hk' => exact absurd (hk.symm.trans hk') nofun

omit [Scalar α] in
theorem operator_eq_ok {slot : Slot} :
    r.operator t slot = .ok r' ↔ r.slot = .factor ∧ r.grow t.span slot = r' := by
  unfold operator
  split
  · rename_i h
    simp [h]
  · rename_i h
    simp [h]

theorem read_eq_ok : r.read source side t after = .ok r' ↔ r.Step t r' := by
  unfold read
  split
  · rename_i hk
    exact number_eq_ok hk
  · rename_i hk
    exact name_eq_ok hk
  · rename_i hk
    rw [operator_eq_ok]
    constructor
    · rintro ⟨hf, rfl⟩
      exact .star hk hf
    · intro h
      cases h with
      | star _ hf => exact ⟨hf, rfl⟩
      | number hv | divisor hv | var hv => exact absurd (hk.symm.trans hv.1) nofun
      | slash hk' => exact absurd (hk.symm.trans hk') nofun
  · rename_i hk
    rw [operator_eq_ok]
    constructor
    · rintro ⟨hf, rfl⟩
      exact .slash hk hf
    · intro h
      cases h with
      | slash _ hf => exact ⟨hf, rfl⟩
      | number hv | divisor hv | var hv => exact absurd (hk.symm.trans hv.1) nofun
      | star hk' => exact absurd (hk.symm.trans hk') nofun
  · rename_i hk
    exact iff_of_false nofun fun h => absurd h.kind (by simp [Token.Kind.InTerm, hk])
  · rename_i hnumber hident hstar hslash _
    exact iff_of_false (by split <;> nofun) fun h =>
      h.kind.elim hnumber (·.elim hident (·.elim hstar hslash))

omit [Scalar α] in
theorem finish_eq_ok {term : Term α} : r.finish source = .ok term ↔
    r.slot ≠ .times ∧ r.slot ≠ .over ∧ (⟨r.span, r.coefficient, r.var⟩ : Term α) = term := by
  unfold finish
  split
  · rename_i h
    simp only [Bool.or_eq_true, decide_eq_true_eq] at h
    exact iff_of_false nofun fun ⟨ht, ho, _⟩ => h.elim ht ho
  · rename_i h
    simp only [Bool.or_eq_true, decide_eq_true_eq, not_or] at h
    simp [h.1, h.2]

theorem readAll_cons_eq_ok {term : Term α} :
    readAll source side after r (t :: ts) = .ok term ↔
      ∃ r', r.Step t r' ∧ readAll source side after r' ts = .ok term := by
  rw [readAll, bind_eq_ok]
  exact exists_congr fun r' => and_congr_left fun _ => read_eq_ok

/-- The tokens of a tail that are read while `slot` waits for its factor. -/
inductive Pending : Slot → List Token → Prop
  | factor : Pending .factor []
  | times {op : Token} (h : op.kind = .star) : Pending .times [op]
  | divided {op : Token} (h : op.kind = .slash) : Pending .over [op]

/-- The term is the partial one with `rest` after it. -/
def Extends (r : PartialTerm α) (rest : List (Tail α)) (term : Term α) : Prop :=
  (r.var.toList ++ rest.flatMap Tail.vars).length ≤ 1 ∧
    term.parts = (rest.foldl Tail.scale r.coefficient,
      (r.var.toList ++ rest.flatMap Tail.vars).head?)

theorem extends_nil (r : PartialTerm α) :
    r.Extends [] ⟨r.span, r.coefficient, r.var⟩ := by
  rw [Extends, List.flatMap_nil, List.append_nil]
  cases h : r.var <;> simp [Term.parts]

/-- What is accepted after a part of a term is spelled by the tokens that are read. -/
theorem readAll_sound {term : Term α} {pending : List Token} (hp : Pending r.slot pending)
    (h : readAll source side after r ts = .ok term) :
    ∃ rest, Spells Tail.SpelledBy rest (pending ++ ts) ∧ r.Extends rest term := by
  induction ts generalizing r pending with
  | nil =>
    obtain ⟨ht, ho, rfl⟩ := finish_eq_ok.mp h
    obtain ⟨start, span, coefficient, var, slot⟩ := r
    cases hp with
    | factor => exact ⟨[], .nil, extends_nil _⟩
    | times => exact absurd rfl ht
    | divided => exact absurd rfl ho
  | cons t ts ih =>
    obtain ⟨r', hstep, h⟩ := readAll_cons_eq_ok.mp h
    obtain ⟨start, span, coefficient, var, slot⟩ := r
    cases hstep with
    | number hv hf ho =>
      obtain ⟨rest, hrest, hext⟩ := ih .factor h
      cases hp with
      | factor => exact absurd rfl hf
      | times hop =>
        have hspell := Spells.cons (.times hop (.number hv)) hrest
        exact ⟨.times (.number _) :: rest, hspell, hext⟩
      | divided => exact absurd rfl ho
    | divisor hv ho hne =>
      obtain ⟨rest, hrest, hext⟩ := ih .factor h
      cases ho
      obtain _ | _ | hop := hp
      have hspell := Spells.cons (.divided hop hv hne) hrest
      exact ⟨.divided _ :: rest, hspell, hext⟩
    | var hv ho hn =>
      obtain ⟨rest, hrest, hext⟩ := ih .factor h
      cases hn
      cases hp with
      | factor =>
        have hspell := Spells.cons (.beside hv) hrest
        exact ⟨.beside _ :: rest, hspell, hext⟩
      | times hop =>
        have hspell := Spells.cons (.times hop (.var hv)) hrest
        exact ⟨.times (.var _) :: rest, hspell, hext⟩
      | divided => exact absurd rfl ho
    | star hk hf =>
      cases hf
      cases hp
      exact ih (.times hk) h
    | slash hk hf =>
      cases hf
      cases hp
      exact ih (.divided hk) h

omit [Scalar α] in
theorem no_var_before {o : Option Variable} {v : Variable} {vs : List Variable}
    (h : (o.toList ++ v :: vs).length ≤ 1) : o = none := by
  cases o with
  | none => rfl
  | some _ => simp at h

theorem Step.accepts {P : Term α → Prop} (hstep : r.Step t r')
    (h : ∃ term, readAll source side after r' ts = .ok term ∧ P term) :
    ∃ term, readAll source side after r (t :: ts) = .ok term ∧ P term := by
  obtain ⟨term, hterm, hp⟩ := h
  exact ⟨term, readAll_cons_eq_ok.mpr ⟨r', hstep, hterm⟩, hp⟩

/-- What the tokens spell after a part of a term is accepted. -/
theorem readAll_complete {rest : List (Tail α)} (hs : Spells Tail.SpelledBy rest ts)
    (hf : r.slot = .factor) (hl : (r.var.toList ++ rest.flatMap Tail.vars).length ≤ 1) :
    ∃ term, readAll source side after r ts = .ok term ∧ r.Extends rest term := by
  induction hs generalizing r with
  | nil =>
    refine ⟨_, finish_eq_ok.mpr ⟨?_, ?_, rfl⟩, extends_nil r⟩ <;> rw [hf] <;> nofun
  | cons hb _ ih =>
    obtain ⟨start, span, coefficient, var, slot⟩ := r
    cases hf
    cases hb with
    | times hop hfactor =>
      refine Step.accepts (.star hop rfl) ?_
      cases hfactor with
      | number hv => exact Step.accepts (.number hv nofun nofun) (ih rfl hl)
      | var hv =>
        cases no_var_before hl
        exact Step.accepts (.var hv nofun rfl) (ih rfl hl)
    | divided hop hv hne =>
      refine Step.accepts (.slash hop rfl) ?_
      exact Step.accepts (.divisor hv rfl hne) (ih rfl hl)
    | beside hv =>
      cases no_var_before hl
      exact Step.accepts (.var hv nofun rfl) (ih rfl hl)

/-- The partial term is a factor, with nothing after it. -/
structure IsFactor (r : PartialTerm α) (f : Factor α) : Prop where
  slot : r.slot = .factor
  vars : r.var.toList = f.vars
  coefficient : r.coefficient = f.scale 1

theorem first_sound (h : Step (.empty t) t r) : ∃ f : Factor α, f.SpelledBy t ∧ r.IsFactor f := by
  cases h with
  | @number v hv => exact ⟨.number v, .number hv, rfl, rfl, rfl⟩
  | @var v hv => exact ⟨.var v, .var hv, rfl, rfl, rfl⟩
  | divisor _ ho => cases ho
  | star _ hf | slash _ hf => cases hf

theorem first_complete {f : Factor α} (h : f.SpelledBy t) :
    ∃ r, Step (.empty t) t r ∧ r.IsFactor f := by
  cases h with
  | number hv => exact ⟨_, .number hv nofun nofun, rfl, rfl, rfl⟩
  | var hv => exact ⟨_, .var hv nofun rfl, rfl, rfl, rfl⟩

end PartialTerm

theorem exists_signs {signs : List Token} (h : ∀ t ∈ signs, t.isSign = true) :
    ∃ ss : List Sign, signs.map Token.kind = ss.map Sign.kind := by
  induction signs with
  | nil => exact ⟨[], rfl⟩
  | cons t signs ih =>
    obtain ⟨ss, hss⟩ := ih fun u hu => h u (List.mem_cons_of_mem t hu)
    have ht := h t List.mem_cons_self
    rw [Token.isSign, Bool.or_eq_true, beq_iff_eq, beq_iff_eq] at ht
    rcases ht with ht | ht
    · exact ⟨.plus :: ss, by rw [List.map_cons, ht, hss]; rfl⟩
    · exact ⟨.minus :: ss, by rw [List.map_cons, ht, hss]; rfl⟩

/-- The sign that some tokens write, from any sign before them. -/
theorem foldl_sign {signs : List Token} {ss : List Sign} (c : α)
    (h : signs.map Token.kind = ss.map Sign.kind) :
    signs.foldl (fun sign t => if t.kind = .minus then -sign else sign) c =
      (fun s => -s)^[ss.count .minus] c := by
  induction ss generalizing signs c with
  | nil => rw [List.map_eq_nil_iff.mp h]; rfl
  | cons s ss ih =>
    obtain ⟨t, signs, rfl, ht, hts⟩ := List.map_eq_cons_iff.mp h
    rw [List.foldl_cons, ih _ hts, ht]
    cases s with
    | plus => simp [Sign.kind]
    | minus => simp [Sign.kind]

namespace Term

theorem parts_signed {term : Term α} {w : WrittenTerm α} {signs : List Token}
    (hs : signs.map Token.kind = w.signs.map Sign.kind)
    (h : term.parts = (w.product, w.vars.head?)) : (term.signed signs).parts = w.parts := by
  have hc : term.coefficient = w.product := congrArg Prod.fst h
  have hv : term.var = w.vars.head? := congrArg Prod.snd h
  rw [WrittenTerm.parts, ← hc, ← hv, WrittenTerm.sign, ← foldl_sign 1 hs]
  rfl

/-- A partial term extends to the term that its first factor and the tails write. -/
theorem extends_iff {r : PartialTerm α} {w : WrittenTerm α} {term : Term α}
    (h : r.IsFactor w.first) : r.Extends w.rest term ↔
      w.vars.length ≤ 1 ∧ term.parts = (w.product, w.vars.head?) := by
  rw [PartialTerm.Extends, h.vars, h.coefficient]
  rfl

/-- A term of the grammar accounts for every summand that is accepted. -/
theorem ofSummand_sound {s : Summand} {term : Term α} (hs : ∀ t ∈ s.signs, t.isSign = true)
    (h : ofSummand source side after s = .ok term) :
    ∃ w : WrittenTerm α, w.Fits s.signs s.factors ∧ term.parts = w.parts := by
  obtain ⟨ss, hss⟩ := exists_signs hs
  unfold ofSummand at h
  split at h
  · cases h
  · rename_i t ts hfactors
    obtain ⟨term', hread, h⟩ := bind_eq_ok.mp h
    cases h
    obtain ⟨r, hstep, hread⟩ := PartialTerm.readAll_cons_eq_ok.mp hread
    obtain ⟨first, hfirst, hr⟩ := PartialTerm.first_sound hstep
    have hpending : PartialTerm.Pending r.slot [] := hr.slot ▸ .factor
    obtain ⟨rest, hrest, hext⟩ := PartialTerm.readAll_sound hpending hread
    let w : WrittenTerm α := ⟨ss, first, rest⟩
    obtain ⟨hl, hparts⟩ := (extends_iff (w := w) hr).mp hext
    exact ⟨w, ⟨hss, ⟨t, ts, hfactors, hfirst, hrest⟩, hl⟩, parts_signed hss hparts⟩

/-- Every summand that a term of the grammar accounts for is accepted. -/
theorem ofSummand_complete {s : Summand} {w : WrittenTerm α} (h : w.Fits s.signs s.factors) :
    ∃ term, ofSummand source side after s = .ok term ∧ term.parts = w.parts := by
  obtain ⟨hss, ⟨t, ts, hfactors, hfirst, hrest⟩, hl⟩ := h
  obtain ⟨r, hstep, hr⟩ := PartialTerm.first_complete hfirst
  have hlinear : (r.var.toList ++ w.rest.flatMap Tail.vars).length ≤ 1 := by rwa [hr.vars]
  obtain ⟨term, hread, hext⟩ := hstep.accepts (PartialTerm.readAll_complete hrest hr.slot hlinear)
  obtain ⟨-, hparts⟩ := (extends_iff hr).mp hext
  refine ⟨term.signed s.signs, ?_, parts_signed hss hparts⟩
  rw [ofSummand, hfactors]
  exact bind_eq_ok.mpr ⟨term, hread, rfl⟩

end Term

end PlanarLP.Formula
