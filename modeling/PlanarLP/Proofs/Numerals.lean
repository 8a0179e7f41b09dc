import PlanarLP.Decimal
import PlanarLP.Proofs.Tiling

/-! Numerals and the tokens that hold them. A numeral is digits with a point among them, behind
them or ahead of them, and perhaps an exponent (`Decimal.IsNumeral`); these are the texts that
have a decimal value (`Decimal.ofNumeral?_isSome_iff`). `Token.numeralLength` measures the
longest numeral that a text starts with: what it takes is one, and none is longer. -/

namespace PlanarLP

/-! ## Runs of digits -/

namespace Text

/-- One digit or more. -/
def Digits (cs : List Char) : Prop := cs ≠ [] ∧ ∀ c ∈ cs, c.isDigit = true

theorem Digits.cons {ds : List Char} (h : Digits ds) :
    ∃ c cs, ds = c :: cs ∧ c.isDigit = true := by
  obtain ⟨hne, hd⟩ := h
  obtain ⟨c, cs, rfl⟩ := List.exists_cons_of_ne_nil hne
  exact ⟨c, cs, rfl, hd c List.mem_cons_self⟩

/-- Something other than a digit comes first, if anything does. -/
def NoDigitAhead (cs : List Char) : Prop := cs.head?.any Char.isDigit = false

variable {cs ds : List Char} {c : Char}

theorem NoDigitAhead.takeWhile (h : NoDigitAhead cs) : cs.takeWhile Char.isDigit = [] := by
  cases cs with
  | nil => rfl
  | cons c cs => exact List.takeWhile_cons_of_neg (by simpa [NoDigitAhead] using h)

theorem NoDigitAhead.dropWhile (h : NoDigitAhead cs) : cs.dropWhile Char.isDigit = cs := by
  have hall := List.takeWhile_append_dropWhile (p := Char.isDigit) (l := cs)
  rwa [h.takeWhile, List.nil_append] at hall

theorem noDigitAhead_dropWhile (cs : List Char) : NoDigitAhead (cs.dropWhile Char.isDigit) := by
  have hhead := List.head?_dropWhile_not Char.isDigit cs
  unfold NoDigitAhead
  cases h : (cs.dropWhile Char.isDigit).head? with
  | none => rfl
  | some c => simpa [h] using hhead

theorem takeWhile_digits (hd : ∀ c ∈ ds, c.isDigit = true) (h : NoDigitAhead cs) :
    (ds ++ cs).takeWhile Char.isDigit = ds := by
  rw [List.takeWhile_append_of_pos hd, h.takeWhile, List.append_nil]

theorem dropWhile_digits (hd : ∀ c ∈ ds, c.isDigit = true) (h : NoDigitAhead cs) :
    (ds ++ cs).dropWhile Char.isDigit = cs := by
  rw [List.dropWhile_append_of_pos hd, h.dropWhile]

theorem digitCount_append (hd : ∀ c ∈ ds, c.isDigit = true) (cs : List Char) :
    digitCount (ds ++ cs) = ds.length + digitCount cs := by
  rw [digitCount, List.takeWhile_append_of_pos hd, List.length_append, digitCount]

theorem NoDigitAhead.digitCount (h : NoDigitAhead cs) : digitCount cs = 0 := by
  rw [Text.digitCount, h.takeWhile, List.length_nil]

theorem take_digitCount (cs : List Char) : cs.take (digitCount cs) = cs.takeWhile Char.isDigit :=
  (List.prefix_iff_eq_take.mp (List.takeWhile_prefix Char.isDigit)).symm

theorem drop_digitCount (cs : List Char) : cs.drop (digitCount cs) = cs.dropWhile Char.isDigit := by
  have htake := List.take_append_drop (digitCount cs) cs
  rw [take_digitCount] at htake
  exact List.append_cancel_left (htake.trans List.takeWhile_append_dropWhile.symm)

theorem digits_takeWhile (cs : List Char) : ∀ c ∈ cs.takeWhile Char.isDigit, c.isDigit = true :=
  fun _ hc => List.mem_takeWhile_imp hc

theorem take_bothLength (f g : List Char → Nat) (cs : List Char) :
    cs.take (bothLength f g cs) = cs.take (f cs) ++ (cs.drop (f cs)).take (g (cs.drop (f cs))) :=
  List.take_add

end Text

open Text

/-! ## The grammar -/

namespace Decimal

inductive IsMantissa : List Char → Prop
  | whole {ds : List Char} (h : Digits ds) : IsMantissa ds
  | pointed {ds fs : List Char} (h : Digits ds) (hf : ∀ c ∈ fs, c.isDigit = true) :
    IsMantissa (ds ++ '.' :: fs)
  | fraction {fs : List Char} (h : Digits fs) : IsMantissa ('.' :: fs)

/-- Nothing, or a mark, perhaps a sign, and digits. -/
inductive IsExponent : List Char → Prop
  | absent : IsExponent []
  | unsigned {mark : Char} {ds : List Char} (hm : mark = 'e' ∨ mark = 'E') (h : Digits ds) :
    IsExponent (mark :: ds)
  | signed {mark sign : Char} {ds : List Char} (hm : mark = 'e' ∨ mark = 'E')
    (hs : sign = '+' ∨ sign = '-') (h : Digits ds) : IsExponent (mark :: sign :: ds)

def IsNumeral (cs : List Char) : Prop := ∃ m e, cs = m ++ e ∧ IsMantissa m ∧ IsExponent e

/-- The text is a numeral that the characters start with, and they start with none longer. -/
structure IsLongestNumeral (text cs : List Char) : Prop where
  numeral : IsNumeral text
  starts : text <+: cs
  longest : ∀ p, p <+: cs → IsNumeral p → p.length ≤ text.length

/-- Neither a digit nor a point comes first. -/
structure EndsMantissa (cs : List Char) : Prop where
  digit : NoDigitAhead cs
  point : cs.head? ≠ some '.'

variable {m e cs : List Char}

theorem IsMantissa.ne_nil (h : IsMantissa m) : m ≠ [] := by
  cases h with
  | whole h => exact h.1
  | pointed | fraction => simp

theorem isDigit_of_mark {c : Char} (h : c = 'e' ∨ c = 'E') : c.isDigit = false ∧ c ≠ '.' := by
  rcases h with rfl | rfl <;> decide

theorem endsMantissa_nil : EndsMantissa [] := ⟨rfl, nofun⟩

/-- An exponent ends the mantissa before it, and what follows it does where there is none. -/
theorem IsExponent.endsMantissa (h : IsExponent e) (hcs : e = [] → EndsMantissa cs) :
    EndsMantissa (e ++ cs) := by
  cases h with
  | absent => exact hcs rfl
  | unsigned hm | signed hm =>
    obtain ⟨hdigit, hpoint⟩ := isDigit_of_mark hm
    exact ⟨by simpa [NoDigitAhead] using hdigit, by simpa using hpoint⟩

theorem point_cases (cs : List Char) : (∃ fs, cs = '.' :: fs) ∨ cs.head? ≠ some '.' := by
  by_cases h : cs.head? = some '.'
  · exact .inl (List.head?_eq_some_iff.mp h)
  · exact .inr h

/-! ## Texts that have a value -/

/-- What stands behind the sign of an exponent, if it has one. -/
def unsignedPart : List Char → List Char
  | '+' :: ds => ds
  | '-' :: ds => ds
  | ds => ds

theorem exponentPart?_cons (c : Char) (cs : List Char) : exponentPart? (c :: cs) =
    if c != 'e' && c != 'E' then none
    else if (unsignedPart cs).isEmpty || !(unsignedPart cs).all Char.isDigit then none
    else if cs.head? == some '-' then some (-Int.ofNat (Text.ofDigits (unsignedPart cs)))
    else some (Int.ofNat (Text.ofDigits (unsignedPart cs))) := rfl

theorem mark_test {c : Char} : (c != 'e' && c != 'E') = true ↔ ¬(c = 'e' ∨ c = 'E') := by
  simp [not_or]

theorem digits_test {ds : List Char} :
    (ds.isEmpty || !ds.all Char.isDigit) = true ↔ ¬Digits ds := by
  simp [Digits, Classical.or_iff_not_imp_left]

theorem exponentPart?_isSome_cons (c : Char) (cs : List Char) :
    (exponentPart? (c :: cs)).isSome = true ↔ (c = 'e' ∨ c = 'E') ∧ Digits (unsignedPart cs) := by
  rw [exponentPart?_cons]
  split
  · rename_i hm
    exact iff_of_false nofun fun h => mark_test.mp hm h.1
  · rename_i hm
    rw [mark_test, not_not] at hm
    split
    · rename_i hd
      exact iff_of_false nofun fun h => digits_test.mp hd h.2
    · rename_i hd
      rw [digits_test, not_not] at hd
      exact iff_of_true (by split <;> rfl) ⟨hm, hd⟩

/-- A text without a sign ahead is all unsigned. -/
theorem unsignedPart_digits (h : Digits e) : unsignedPart e = e := by
  obtain ⟨hne, hd⟩ := h
  unfold unsignedPart
  split
  · exact absurd (hd '+' List.mem_cons_self) (by decide)
  · exact absurd (hd '-' List.mem_cons_self) (by decide)
  · rfl

theorem exponentPart?_isSome_iff : (exponentPart? e).isSome = true ↔ IsExponent e := by
  cases e with
  | nil => exact iff_of_true rfl .absent
  | cons c cs =>
    rw [exponentPart?_isSome_cons]
    constructor
    · rintro ⟨hm, hd⟩
      unfold unsignedPart at hd
      split at hd
      · exact .signed hm (.inl rfl) hd
      · exact .signed hm (.inr rfl) hd
      · exact .unsigned hm hd
    · intro h
      cases h with
      | unsigned hm hd => exact ⟨hm, (unsignedPart_digits hd).symm ▸ hd⟩
      | signed hm hs hd =>
        refine ⟨hm, ?_⟩
        rcases hs with rfl | rfl <;> exact hd

/-- The digits after a point, where one comes first, and what stands behind them. -/
def fractionSplit : List Char → List Char × List Char
  | '.' :: cs => (cs.takeWhile Char.isDigit, cs.dropWhile Char.isDigit)
  | cs => ([], cs)

theorem fractionSplit_of_no_point (h : cs.head? ≠ some '.') : fractionSplit cs = ([], cs) := by
  unfold fractionSplit
  split
  · exact absurd rfl h
  · rfl

theorem ofNumeral?_isSome (cs : List Char) : (ofNumeral? cs).isSome = true ↔
    ¬(cs.takeWhile Char.isDigit = [] ∧ (fractionSplit (cs.dropWhile Char.isDigit)).1 = []) ∧
      IsExponent (fractionSplit (cs.dropWhile Char.isDigit)).2 := by
  have hsplit : ofNumeral? cs =
      if (cs.takeWhile Char.isDigit).isEmpty &&
          (fractionSplit (cs.dropWhile Char.isDigit)).1.isEmpty then none
      else (exponentPart? (fractionSplit (cs.dropWhile Char.isDigit)).2).map fun exponent =>
        ⟨Text.ofDigits (cs.takeWhile Char.isDigit ++ (fractionSplit (cs.dropWhile Char.isDigit)).1),
          exponent - (fractionSplit (cs.dropWhile Char.isDigit)).1.length⟩ := rfl
  rw [hsplit, ← exponentPart?_isSome_iff]
  split
  · rename_i h
    rw [Bool.and_eq_true, List.isEmpty_iff, List.isEmpty_iff] at h
    exact iff_of_false nofun fun hsome => hsome.1 h
  · rename_i h
    rw [Bool.and_eq_true, List.isEmpty_iff, List.isEmpty_iff] at h
    rw [Option.isSome_map, and_iff_right h]

theorem ofNumeral?_isSome_pointed {ds fs : List Char} (hds : ∀ c ∈ ds, c.isDigit = true)
    (hfs : ∀ c ∈ fs, c.isDigit = true) (hne : ¬(ds = [] ∧ fs = [])) (he : IsExponent e) :
    (ofNumeral? (ds ++ '.' :: (fs ++ e))).isSome = true := by
  have hend : NoDigitAhead e := by
    simpa using (he.endsMantissa fun _ => endsMantissa_nil).digit
  have hpoint : NoDigitAhead ('.' :: (fs ++ e)) := rfl
  rw [ofNumeral?_isSome, takeWhile_digits hds hpoint, dropWhile_digits hds hpoint]
  simp only [fractionSplit, takeWhile_digits hfs hend, dropWhile_digits hfs hend]
  exact ⟨hne, he⟩

/-- The texts that have a value are the numerals. -/
theorem ofNumeral?_isSome_iff : (ofNumeral? cs).isSome = true ↔ IsNumeral cs := by
  constructor
  · intro h
    obtain ⟨hne, hexponent⟩ := (ofNumeral?_isSome cs).mp h
    have hdigits := digits_takeWhile cs
    have hcs := List.takeWhile_append_dropWhile (p := Char.isDigit) (l := cs)
    generalize cs.takeWhile Char.isDigit = ds at hne hdigits hcs
    generalize cs.dropWhile Char.isDigit = rest at hne hexponent hcs
    obtain ⟨fs, rfl⟩ | hpoint := point_cases rest
    · have hfs := digits_takeWhile fs
      refine ⟨ds ++ '.' :: fs.takeWhile Char.isDigit, fs.dropWhile Char.isDigit, ?_, ?_, hexponent⟩
      · rw [List.append_assoc, List.cons_append, List.takeWhile_append_dropWhile, hcs]
      · by_cases hds : ds = []
        · rw [hds, List.nil_append]
          exact .fraction ⟨fun hnil => hne ⟨hds, hnil⟩, hfs⟩
        · exact .pointed ⟨hds, hdigits⟩ hfs
    · rw [fractionSplit_of_no_point hpoint] at hne hexponent
      exact ⟨ds, rest, hcs.symm, .whole ⟨fun hnil => hne ⟨hnil, rfl⟩, hdigits⟩, hexponent⟩
  · rintro ⟨m, e, rfl, hm, he⟩
    cases hm with
    | whole h =>
      have hend : EndsMantissa e := by simpa using he.endsMantissa fun _ => endsMantissa_nil
      rw [ofNumeral?_isSome, takeWhile_digits h.2 hend.digit, dropWhile_digits h.2 hend.digit,
        fractionSplit_of_no_point hend.point]
      exact ⟨fun hnil => h.1 hnil.1, he⟩
    | pointed h hf =>
      rw [List.append_assoc]
      exact ofNumeral?_isSome_pointed h.2 hf (fun hnil => h.1 hnil.1) he
    | fraction h =>
      exact ofNumeral?_isSome_pointed (List.forall_mem_nil _) h.2 (fun hnil => h.1 hnil.2) he

end Decimal

/-! ## The longest numeral -/

namespace Formula

namespace Token

open Decimal

/-- The length of the digits that a text starts with, and of a point and the digits after it. -/
def mantissaLength : List Char → Nat := bothLength digitCount fractionLength

theorem numeralLength_eq_both (cs : List Char) :
    numeralLength cs = bothLength mantissaLength exponentLength cs := numeralLength_eq cs

variable {m e p cs : List Char} {d : Char}

theorem fractionLength_of_no_point (h : cs.head? ≠ some '.') : fractionLength cs = 0 := by
  rw [fractionLength_eq]
  split
  · exact absurd rfl h
  · rfl

theorem mantissaLength_pointed {ds fs : List Char} (hds : ∀ c ∈ ds, c.isDigit = true)
    (hfs : ∀ c ∈ fs, c.isDigit = true) (cs : List Char) :
    mantissaLength (ds ++ '.' :: (fs ++ cs)) = ds.length + (1 + (fs.length + digitCount cs)) := by
  have hpoint : NoDigitAhead ('.' :: (fs ++ cs)) := rfl
  have hcount : digitCount (ds ++ '.' :: (fs ++ cs)) = ds.length := by
    rw [digitCount_append hds, hpoint.digitCount, Nat.add_zero]
  rw [mantissaLength, bothLength, hcount, List.drop_left, fractionLength_eq]
  simp only [digitCount_append hfs]

/-- A mantissa is measured in full, and no more is measured where it ends. -/
theorem mantissaLength_append (h : IsMantissa m) (cs : List Char) :
    m.length ≤ mantissaLength (m ++ cs) ∧
      (EndsMantissa cs → mantissaLength (m ++ cs) = m.length) := by
  cases h with
  | whole h =>
    rw [mantissaLength, bothLength, digitCount_append h.2]
    refine ⟨by omega, fun hend => ?_⟩
    rw [hend.digit.digitCount, Nat.add_zero, List.drop_left, fractionLength_of_no_point hend.point,
      Nat.add_zero]
  | @pointed ds fs h hf =>
    have hlength := mantissaLength_pointed h.2 hf cs
    rw [List.append_assoc, List.cons_append, hlength, List.length_append, List.length_cons]
    refine ⟨by omega, fun hend => ?_⟩
    rw [hend.digit.digitCount]
    omega
  | @fraction fs h =>
    have hlength := mantissaLength_pointed (List.forall_mem_nil _) h.2 cs
    rw [List.nil_append] at hlength
    rw [List.cons_append, hlength, List.length_cons, List.length_nil]
    refine ⟨by omega, fun hend => ?_⟩
    rw [hend.digit.digitCount]
    omega

/-- A digit comes first, or a point and a digit. -/
def startsMantissa : List Char → Bool
  | [] => false
  | d :: cs => d.isDigit || (d == '.' && cs.head?.any Char.isDigit)

theorem fractionLength_point (fs : List Char) : fractionLength ('.' :: fs) = 1 + digitCount fs :=
  fractionLength_eq _

theorem takeWhile_ne_nil (h : cs.head?.any Char.isDigit = true) :
    cs.takeWhile Char.isDigit ≠ [] := by
  cases cs with
  | nil => cases h
  | cons c cs => simp [show c.isDigit = true from h]

/-- Where a mantissa starts, one is measured. -/
theorem isMantissa_take (h : startsMantissa cs = true) :
    IsMantissa (cs.take (mantissaLength cs)) := by
  have hdigits := digits_takeWhile cs
  have hahead := noDigitAhead_dropWhile cs
  have hcs := List.takeWhile_append_dropWhile (p := Char.isDigit) (l := cs)
  rw [mantissaLength, take_bothLength, take_digitCount, drop_digitCount]
  generalize cs.takeWhile Char.isDigit = ds at hdigits hcs
  generalize cs.dropWhile Char.isDigit = rest at hahead hcs
  subst hcs
  obtain ⟨fs, rfl⟩ | hpoint := point_cases rest
  · rw [fractionLength_point, Nat.add_comm, List.take_succ_cons, take_digitCount]
    -- without digits ahead of the point, the text starts with it and with one behind it
    by_cases hds : ds = []
    · rw [hds, List.nil_append] at h ⊢
      exact .fraction ⟨takeWhile_ne_nil (by simpa [startsMantissa] using h), digits_takeWhile fs⟩
    · exact .pointed ⟨hds, hdigits⟩ (digits_takeWhile fs)
  · rw [fractionLength_of_no_point hpoint, List.take_zero, List.append_nil]
    refine .whole ⟨?_, hdigits⟩
    rintro rfl
    cases rest with
    | nil => cases h
    | cons c cs => simp_all [startsMantissa, NoDigitAhead]

/-- A mantissa starts a text only where one is seen to. -/
theorem startsMantissa_append (h : IsMantissa m) (cs : List Char) :
    startsMantissa (m ++ cs) = true := by
  cases h with
  | whole h | pointed h =>
    obtain ⟨d, ds, rfl, hd⟩ := h.cons
    simp [startsMantissa, hd]
  | fraction h =>
    obtain ⟨d, fs, rfl, hd⟩ := h.cons
    simp [startsMantissa, hd]

theorem isExponentMark_iff {c : Char} : isExponentMark c = true ↔ c = 'e' ∨ c = 'E' := by
  rw [isExponentMark, Bool.or_eq_true, beq_iff_eq, beq_iff_eq]

theorem isExponentSign_iff {c : Char} : isExponentSign c = true ↔ c = '+' ∨ c = '-' := by
  rw [isExponentSign, Bool.or_eq_true, beq_iff_eq, beq_iff_eq]

theorem headLength_digits {ds : List Char} (h : Digits ds) (cs : List Char) :
    headLength isExponentSign (ds ++ cs) = 0 := by
  obtain ⟨c, ds, rfl, hdigit⟩ := h.cons
  have hc : isExponentSign c = false := by
    rw [Bool.eq_false_iff]
    intro hsign
    rcases isExponentSign_iff.mp hsign with rfl | rfl <;> cases hdigit
  simp [headLength, hc]

theorem digitCount_bne_zero {ds : List Char} (h : Digits ds) (cs : List Char) :
    (digitCount (ds ++ cs) != 0) = true := by
  have hpos := List.length_pos_iff.mpr h.1
  rw [digitCount_append h.2, bne_iff_ne]
  omega

/-- An exponent is measured in full. -/
theorem le_exponentLength (h : IsExponent e) (cs : List Char) :
    e.length ≤ exponentLength (e ++ cs) := by
  cases h with
  | absent => exact Nat.zero_le _
  | unsigned hm hd =>
    rw [List.cons_append, exponentLength_cons, headLength_digits hd, List.drop_zero,
      isExponentMark_iff.mpr hm, digitCount_bne_zero hd, Bool.and_self, if_pos rfl,
      digitCount_append hd.2, List.length_cons]
    omega
  | @signed mark sign ds hm hs hd =>
    have hsign : headLength isExponentSign (sign :: (ds ++ cs)) = 1 := by
      simp [headLength, isExponentSign_iff.mpr hs]
    rw [List.cons_append, List.cons_append, exponentLength_cons, hsign, List.drop_succ_cons,
      List.drop_zero, isExponentMark_iff.mpr hm, digitCount_bne_zero hd, Bool.and_self, if_pos rfl,
      digitCount_append hd.2, List.length_cons, List.length_cons]
    omega

/-- What is measured as an exponent is one. -/
theorem isExponent_take (cs : List Char) : IsExponent (cs.take (exponentLength cs)) := by
  cases cs with
  | nil => exact .absent
  | cons c cs =>
    rw [exponentLength_cons]
    split
    · rename_i h
      rw [Bool.and_eq_true, isExponentMark_iff, bne_iff_ne] at h
      obtain ⟨hm, hcount⟩ := h
      have hdigits : Digits ((cs.drop (headLength isExponentSign cs)).takeWhile Char.isDigit) :=
        ⟨fun hnil => hcount (by rw [digitCount, hnil, List.length_nil]), digits_takeWhile _⟩
      rw [Nat.add_assoc, Nat.add_comm, List.take_succ_cons, List.take_add, take_digitCount]
      by_cases hsign : cs.head?.any isExponentSign = true
      · obtain ⟨s, ds, rfl⟩ : ∃ s ds, cs = s :: ds := by
          cases cs with
          | nil => cases hsign
          | cons s ds => exact ⟨s, ds, rfl⟩
        rw [headLength, if_pos hsign] at hdigits ⊢
        exact .signed hm (isExponentSign_iff.mp hsign) hdigits
      · rw [headLength, if_neg hsign] at hdigits ⊢
        exact .unsigned hm hdigits
    · exact .absent

theorem numeralLength_append (h : IsNumeral p) (cs : List Char) :
    p.length ≤ numeralLength (p ++ cs) := by
  obtain ⟨m, e, rfl, hm, he⟩ := h
  have hmeasured := mantissaLength_append hm (e ++ cs)
  rw [List.append_assoc, numeralLength_eq_both, bothLength, List.length_append]
  by_cases hnil : e = []
  · rw [hnil, List.length_nil]
    rw [hnil] at hmeasured
    omega
  · rw [hmeasured.2 (he.endsMantissa fun hnil' => absurd hnil' hnil), List.drop_left]
    exact Nat.add_le_add_left (le_exponentLength he cs) _

/-- Where a mantissa starts, the longest numeral is what is measured. -/
theorem isLongestNumeral_take (h : startsMantissa cs = true) :
    IsLongestNumeral (cs.take (numeralLength cs)) cs where
  numeral := by
    rw [numeralLength_eq_both, take_bothLength]
    exact ⟨_, _, rfl, isMantissa_take h, isExponent_take _⟩
  starts := List.take_prefix _ _
  longest := by
    rintro p ⟨rest, rfl⟩ hp
    have hle := numeralLength_append hp rest
    rw [List.length_take, List.length_append]
    omega

theorem startsMantissa_iff : startsMantissa cs = true ↔ ∃ p, p <+: cs ∧ IsNumeral p := by
  constructor
  · intro h
    exact ⟨_, (isLongestNumeral_take h).starts, (isLongestNumeral_take h).numeral⟩
  · rintro ⟨_, ⟨rest, rfl⟩, m, e, rfl, hm, -⟩
    rw [List.append_assoc]
    exact startsMantissa_append hm _

/-! ## Tokens of a numeral's kind -/

/-- What a scan finds in front of some characters has to do with the numerals there: it is one
where one starts, and then all that is measured of it is taken. -/
structure ScansNumeral (found : Kind × Nat) (d : Char) (ds : List Char) : Prop where
  isNumber_iff : found.1 = .number ↔ startsMantissa (d :: ds) = true
  take_eq : found.1 = .number → d :: ds.take found.2 = (d :: ds).take (numeralLength (d :: ds))

theorem scansNumeral_other {k : Kind} {n : Nat} {ds : List Char} (hk : k ≠ .number)
    (hd : startsMantissa (d :: ds) = false) : ScansNumeral (k, n) d ds :=
  ⟨iff_of_false hk (Bool.eq_false_iff.mp hd), fun h => absurd h hk⟩

theorem scansNumeral_number {ds : List Char} (h : startsMantissa (d :: ds) = true) :
    ScansNumeral (.number, numeralLength (d :: ds) - 1) d ds := by
  refine ⟨iff_of_true rfl h, fun _ => ?_⟩
  have hmantissa : IsMantissa ((d :: ds).take (mantissaLength (d :: ds))) := isMantissa_take h
  have hpos := List.length_pos_iff.mpr hmantissa.ne_nil
  have hle : mantissaLength (d :: ds) ≤ numeralLength (d :: ds) := by
    rw [numeralLength_eq_both, bothLength]
    exact Nat.le_add_right ..
  rw [List.length_take] at hpos
  obtain ⟨n, hn⟩ := Nat.exists_eq_add_of_lt (Nat.lt_of_lt_of_le (Nat.lt_min.mp hpos).1 hle)
  rw [hn, Nat.add_sub_cancel, List.take_succ_cons]

theorem scan_scansNumeral (d : Char) (ds : List Char) : ScansNumeral (scan d ds) d ds := by
  unfold scan
  split
  case h_16 =>
    split
    · rename_i h
      exact scansNumeral_number h
    · rename_i h
      have hd := Bool.eq_false_iff.mpr h
      split <;> exact scansNumeral_other (by decide) hd
  case h_13 | h_14 => split <;> exact scansNumeral_other (by decide) rfl
  case h_15 =>
    split
    · exact scansNumeral_other (by decide) rfl
    · split
      · exact scansNumeral_other (by decide) rfl
      · split <;> exact scansNumeral_other (by decide) rfl
  all_goals exact scansNumeral_other (by decide) rfl

end Token

namespace Cursor

/-- A token is cut from what is left of the text where it starts. -/
theorem tokens_cut (p : Nat) (cs before : List Char) (hp : p = byteCount before) :
    ∀ t ∈ tokens ⟨p, cs⟩, (t = endMark t.span.start ∧ dropBytes t.span.start (before ++ cs) = []) ∨
      ∃ d ds, t = tokenAt t.span.start d ds ∧ dropBytes t.span.start (before ++ cs) = d :: ds := by
  induction p, cs using place_induction generalizing before with
  | blank p blanks hb =>
    have hstart : p + byteCount blanks = byteCount (before ++ blanks) := by
      rw [hp, byteCount_append]
    have hdrop := dropBytes_append (before ++ blanks) []
    rw [List.append_nil, ← hstart] at hdrop
    rw [tokens_blank hb]
    exact List.forall_mem_singleton.mpr (.inl ⟨rfl, hdrop⟩)
  | token p blanks d ds hb hd ih =>
    have hstart : p + byteCount blanks = byteCount (before ++ blanks) := by
      rw [hp, byteCount_append]
    have hdrop := dropBytes_append (before ++ blanks) (d :: ds)
    rw [List.append_assoc, ← hstart] at hdrop
    have htext := toList_tokenAt_append (p + byteCount blanks) d ds
    rw [tokens_cons hb hd]
    refine List.forall_mem_cons.mpr ⟨.inr ⟨d, ds, rfl, hdrop⟩, ?_⟩
    have hstop : (tokenAt (p + byteCount blanks) d ds).span.stop =
        byteCount (before ++ (blanks ++ (tokenAt (p + byteCount blanks) d ds).text.toList)) := by
      rw [stop_tokenAt, byteCount_append, byteCount_append, hp, Nat.add_assoc]
    have hrest := ih _ hstop
    rwa [List.append_assoc, List.append_assoc, htext] at hrest

end Cursor

end Formula

end PlanarLP
