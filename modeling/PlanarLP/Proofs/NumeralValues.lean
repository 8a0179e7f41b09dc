import PlanarLP.Proofs.Numerals
import PlanarLP.Proofs.SignSymmetry
import PlanarLP.Proofs.TermReading

/-! What numerals come to as doubles. A numeral has no sign, and rounding, products and quotients
of numbers that are not below zero stay there (`Unsigned`). So the value of a numeral is finite or
it is the infinite one, which is all that can stop a token from being read back
(`numeral_tokens`). -/

namespace PlanarLP

namespace Binary64

open Float.Model
open Float.Model.UnpackedFloat (Sign packComponents Accuracy)

/-- A number that is not below zero, the infinite one among them. -/
inductive Unsigned : UnpackedFloat → Prop
  | zero : Unsigned (.zero .positive)
  | infinity : Unsigned (.infinity .positive)
  | finite (m : Nat) (e : Int) (hm : 0 < m) : Unsigned (.finite .positive m e hm)

namespace Unsigned

variable {u : UnpackedFloat}

theorem roundWithAccuracy (f : Format) (m : Nat) (e : Int) (acc : Accuracy) :
    Unsigned (UnpackedFloat.roundWithAccuracy f .positive m e acc) := by
  unfold UnpackedFloat.roundWithAccuracy
  dsimp only
  split
  · exact .zero
  · exact .finite _ _ _

theorem unpack_packComponents {f : Format} {e : BitVec f.exponentBits}
    {m : BitVec f.mantissaBitsWithoutImplicit} (h : e = -1#_ → m = 0#_) :
    Unsigned (UnpackedFloat.unpack f (packComponents f .positive e m)) := by
  unfold UnpackedFloat.unpack
  simp only [UnpackedFloat.unpackSign_packComponents, UnpackedFloat.unpackExponent_packComponents,
    UnpackedFloat.unpackMantissa_packComponents, Sign.ofBitVec_toBitVec]
  split
  · rename_i he
    rw [if_pos (show m = 0#_ from h he)]
    exact .infinity
  · split
    · split
      · exact .zero
      · exact .finite _ _ _
    · exact .finite _ _ _

/-- Storing a number may make it infinite, but takes it no lower than zero. -/
theorem repacked (h : Unsigned u) : Unsigned (repacked u) := by
  unfold Binary64.repacked
  cases h with
  | zero => exact unpack_packComponents (f := .binary64) (by decide)
  | infinity => exact unpack_packComponents (f := .binary64) fun _ => rfl
  | finite m e hm =>
    rw [UnpackedFloat.pack]
    dsimp only
    split
    · exact unpack_packComponents (f := .binary64) fun _ => rfl
    · rename_i hlt
      split
      · refine unpack_packComponents (f := .binary64) fun he => absurd (congrArg BitVec.toNat he) ?_
        change ¬_ % 2048 = 2047
        change ¬2048 ≤ _ + 1 at hlt
        omega
      · exact unpack_packComponents (f := .binary64) fun he => absurd he (by decide)

theorem mul_finite (h : Unsigned u) (f : Format) (m : Nat) (e : Int) (hm : 0 < m) :
    Unsigned (UnpackedFloat.mul f u (.finite .positive m e hm)) := by
  cases h with
  | zero => exact .zero
  | infinity => exact .infinity
  | finite => exact roundWithAccuracy ..

theorem div_finite (h : Unsigned u) (f : Format) (m : Nat) (e : Int) (hm : 0 < m) :
    Unsigned (UnpackedFloat.div f u (.finite .positive m e hm)) := by
  cases h with
  | zero => exact .zero
  | infinity => exact .infinity
  | finite => exact roundWithAccuracy ..

theorem ofNat (f : Format) (n : Nat) : Unsigned (UnpackedFloat.ofNat f n) := by
  show Unsigned (UnpackedFloat.normalize f (n : Int) 0 .positive)
  unfold UnpackedFloat.normalize
  split
  · rename_i h
    exact absurd (Int.compare_eq_lt.mp h) (by omega)
  · exact .zero
  · exact roundWithAccuracy ..

theorem ofScientific (f : Format) (m : Nat) (e : Int) :
    Unsigned (UnpackedFloat.ofScientific f m e) := by
  unfold UnpackedFloat.ofScientific
  split
  · exact .zero
  · split
    · exact .infinity
    · split
      · exact .zero
      · split
        · exact mul_finite (.finite _ _ _) ..
        · exact div_finite (.finite _ _ _) ..

theorem eq_infinity {x : Float} (h : Unsigned (unpacked x)) (hx : x.isFinite = false) :
    x = Binary64.infinity := by
  refine eq_of_unpacked ?_
  change (unpacked x).isFinite = false at hx
  generalize unpacked x = u at h hx
  cases h with
  | zero | finite => cases hx
  | infinity => rfl

end Unsigned

theorem unpacked_eq_finite {x : Float} (hpos : 0 < x) (hx : x.isFinite = true) :
    ∃ m e hm, unpacked x = .finite .positive m e hm := by
  have hpos : ((UnpackedFloat.zero .positive).compare (unpacked x) == some .lt) = true :=
    of_decide_eq_true hpos
  change (unpacked x).isFinite = true at hx
  generalize unpacked x = u at hpos hx
  cases u with
  | notANumber | infinity => cases hx
  | zero => cases hpos
  | finite s m e hm =>
    cases s with
    | negative => cases hpos
    | positive => exact ⟨m, e, hm, rfl⟩

theorem powerOfTen_pos : ∀ i : Fin 23, 0 < Float.exactlyRepresentablePowersOfTen[i] ∧
    Float.exactlyRepresentablePowersOfTen[i].isFinite = true := by
  decide +kernel

/-- A decimal literal without a sign denotes a number that is not below zero. -/
theorem unsigned_ofScientific (m : Nat) (s : Bool) (e : Nat) :
    Unsigned (unpacked (OfScientific.ofScientific m s e)) := by
  show Unsigned (unpacked (Float.ofScientific m s e))
  unfold Float.ofScientific
  split
  · rename_i h
    obtain ⟨hpos, hfinite⟩ := powerOfTen_pos ⟨e, by omega⟩
    obtain ⟨n, k, hn, hpower⟩ := unpacked_eq_finite hpos hfinite
    have hm : Unsigned (unpacked m.toUInt64.toFloat) := (Unsigned.ofNat .binary64 _).repacked
    dsimp only
    split
    · show Unsigned (repacked (.div .binary64 (unpacked m.toUInt64.toFloat) (unpacked _)))
      exact (hpower ▸ hm.div_finite .binary64 n k hn).repacked
    · show Unsigned (repacked (.mul .binary64 (unpacked m.toUInt64.toFloat) (unpacked _)))
      exact (hpower ▸ hm.mul_finite .binary64 n k hn).repacked
  · exact (Unsigned.ofScientific .binary64 _ _).repacked

theorem toLower_of_isDigit {c : Char} (h : c.isDigit = true) : c.toLower = c := by
  rw [Char.isDigit, Bool.and_eq_true, decide_eq_true_iff, decide_eq_true_iff] at h
  exact dif_neg fun hupper => absurd (UInt32.le_trans hupper.1 h.2) (by decide)

/-- A text that starts like a numeral has no sign and is not the name of a value. -/
theorem ofText?_cons {c : Char} {cs : List Char} (h : c.isDigit = true ∨ c = '.') :
    ofText? (c :: cs) = (Decimal.ofNumeral? (c :: cs)).map Decimal.value := by
  have hne : ∀ d : Char, d.isDigit = false → d ≠ '.' → c ≠ d := by
    rintro d hdigit hpoint rfl
    exact h.elim (fun hc => absurd (hc.symm.trans hdigit) nofun) hpoint
  have hsigned : ofText? (c :: cs) = unsigned? (c :: cs) := by
    unfold ofText?
    split
    · rename_i heq
      exact absurd (List.cons.inj heq).1 (hne '-' rfl (by decide))
    · rename_i heq
      exact absurd (List.cons.inj heq).1 (hne '+' rfl (by decide))
    · rfl
  have hlower : c.toLower = c := h.elim toLower_of_isDigit fun hc => hc ▸ rfl
  have hword : ∀ d ds, c ≠ d →
      String.ofList ((c :: cs).map Char.toLower) ≠ String.ofList (d :: ds) := by
    intro d ds hcd heq
    rw [String.ofList_inj, List.map_cons, hlower] at heq
    exact hcd (List.cons.inj heq).1
  have hi := hne 'i' rfl (by decide)
  have hn := hne 'n' rfl (by decide)
  rw [hsigned, unsigned?, if_neg (not_or.mpr ⟨hword 'i' _ hi, hword 'i' _ hi⟩),
    if_neg (hword 'n' _ hn)]

end Binary64

namespace Formula

open Binary64 Decimal

/-- The text reads back as the double that it writes, unless that is infinite. -/
inductive ReadsBack (text : String) : Prop
  | finite {v : Float} (hv : ofText? text.toList = some v) (hfinite : v.isFinite = true)
    (h : numberOf text = .ok v) : ReadsBack text
  | overflow (hv : ofText? text.toList = some infinity)
    (h : numberOf text = (.error (.invalidNumber text) : Except (ParseError Float) Float)) :
    ReadsBack text

theorem readsBack_of_isNumeral {text : String} (h : IsNumeral text.toList) : ReadsBack text := by
  obtain ⟨d, hd⟩ := Option.isSome_iff_exists.mp (ofNumeral?_isSome_iff.mpr h)
  have hvalue : ofText? text.toList = some (d.value : Float) := by
    have hstarts := Token.startsMantissa_iff.mpr ⟨_, List.prefix_rfl, h⟩
    cases htext : text.toList with
    | nil =>
      rw [htext] at hstarts
      cases hstarts
    | cons c cs =>
      rw [htext, Token.startsMantissa, Bool.or_eq_true, Bool.and_eq_true, beq_iff_eq] at hstarts
      rw [ofText?_cons (hstarts.imp_right And.left), ← htext, hd, Option.map_some]
  cases hfinite : (d.value : Float).isFinite with
  | true => exact .finite hvalue hfinite (numberOf_eq_ok.mpr ⟨by rw [hd, Option.map_some], hfinite⟩)
  | false =>
    have hinfinity : (d.value : Float) = infinity :=
      (unsigned_ofScientific _ _ _).eq_infinity hfinite
    refine .overflow (hinfinity ▸ hvalue) ?_
    rw [numberOf, hd]
    exact if_neg (Bool.eq_false_iff.mp hfinite)

/-- What a token has to do with the numerals that the characters from its start on begin with:
it is one, the longest, or there is none. -/
structure Token.ReadsNumeral (t : Token) (cs : List Char) : Prop where
  isNumber_iff : t.kind = .number ↔ ∃ p, p <+: cs ∧ IsNumeral p
  longest : t.kind = .number → IsLongestNumeral t.text.toList cs
  readsBack : t.kind = .number → ReadsBack t.text

theorem readsNumeral_tokenAt (n : Nat) (d : Char) (ds : List Char) :
    (Cursor.tokenAt n d ds).ReadsNumeral (d :: ds) := by
  obtain ⟨hiff, htake⟩ := Token.scan_scansNumeral d ds
  have hlongest : (Token.scan d ds).1 = .number →
      IsLongestNumeral (Cursor.tokenAt n d ds).text.toList (d :: ds) := by
    intro h
    rw [Cursor.toList_tokenAt, htake h]
    exact Token.isLongestNumeral_take (hiff.mp h)
  exact ⟨hiff.trans Token.startsMantissa_iff, hlongest,
    fun h => readsBack_of_isNumeral (hlongest h).numeral⟩

/-- Wherever a token starts, it is a numeral exactly if one can be read there; it is the
longest, and its value is lost only by being infinite. -/
theorem numeral_tokens {source : String} {t : Token} (ht : t ∈ tokenize source) :
    t.ReadsNumeral (dropBytes t.span.start source.toList) := by
  obtain ⟨heof, hdrop⟩ | ⟨d, ds, htoken, hdrop⟩ :=
    Cursor.tokens_cut 0 source.toList [] rfl t ht
  · rw [List.nil_append] at hdrop
    rw [hdrop, heof]
    exact ⟨iff_of_false nofun fun h => absurd (Token.startsMantissa_iff.mpr h) nofun, nofun, nofun⟩
  · rw [List.nil_append] at hdrop
    rw [hdrop, htoken]
    exact readsNumeral_tokenAt ..

/-- A second point starts another numeral, and a mark without digits behind it is a name. -/
theorem numeral_tokens_glued :
    (tokenize "1.e5+.5.2e").map Token.text = ["1.e5", "+", ".5", ".2", "e", ""] ∧
      Token.ReadsNumeral ⟨.number, ⟨5, 7⟩, ".5"⟩ ['.', '5', '.', '2', 'e'] ∧
      Token.ReadsNumeral ⟨.ident, ⟨9, 10⟩, "e"⟩ ['e'] := by
  have hreads := @numeral_tokens "1.e5+.5.2e"
  refine ⟨by decide +kernel, ?_, ?_⟩
  · have hdrop : dropBytes 5 "1.e5+.5.2e".toList = ['.', '5', '.', '2', 'e'] := by decide +kernel
    exact hdrop ▸ hreads (t := ⟨.number, ⟨5, 7⟩, ".5"⟩) (by decide +kernel)
  · have hdrop : dropBytes 9 "1.e5+.5.2e".toList = ['e'] := by decide +kernel
    exact hdrop ▸ hreads (t := ⟨.ident, ⟨9, 10⟩, "e"⟩) (by decide +kernel)

example : (numberOf "1e999" : Except (ParseError Float) Float) =
    .error (.invalidNumber "1e999") := by
  decide +kernel

end Formula

end PlanarLP
