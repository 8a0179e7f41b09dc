import Mathlib.Tactic.SplitIfs
import PlanarLP.Proofs.Lexing

/-! Tokens and blanks. A token holds no blank and looks past none: what is read from a character
on follows from the characters up to the next blank, and takes no more than those
(`Token.scan_firstWord`, `Token.scan_le`), although a numeral looks ahead for the digits of an
exponent and an operator for its second character. A cursor then goes over some blanks and one
such token at a time, which is what `Cursor.place_induction` follows. -/

namespace PlanarLP

namespace Text

/-- The characters up to the first blank. -/
def firstWord (cs : List Char) : List Char := cs.takeWhile fun c => !isBlank c

theorem isBlank_of_mem_firstWord {c : Char} {cs : List Char} (h : c ∈ firstWord cs) :
    isBlank c = false := by
  simpa using List.mem_takeWhile_imp h

theorem firstWord_cons {c : Char} (h : isBlank c = false) (cs : List Char) :
    firstWord (c :: cs) = c :: firstWord cs := by
  simp [firstWord, h]

theorem firstWord_blank {c : Char} (h : isBlank c = true) (cs : List Char) :
    firstWord (c :: cs) = [] := by
  simp [firstWord, h]

theorem take_firstWord {n : Nat} {cs : List Char} (h : n ≤ (firstWord cs).length) :
    cs.take n = (firstWord cs).take n := by
  calc cs.take n = (firstWord cs ++ cs.dropWhile fun c => !isBlank c).take n := by
        rw [firstWord, List.takeWhile_append_dropWhile]
    _ = (firstWord cs).take n := List.take_append_of_le_length h

theorem drop_firstWord {n : Nat} {cs : List Char} (h : n ≤ (firstWord cs).length) :
    (firstWord cs).drop n = firstWord (cs.drop n) := by
  induction n generalizing cs with
  | zero => rfl
  | succ n ih =>
    cases cs with
    | nil => rfl
    | cons c cs =>
      by_cases hc : isBlank c = true
      · rw [firstWord_blank hc] at h
        simp at h
      · rw [firstWord_cons (by simpa using hc)] at h ⊢
        exact ih (Nat.le_of_succ_le_succ h)

/-- Characters of a kind that no blank is of are counted within the first word. -/
theorem takeWhile_firstWord {p : Char → Bool} (hp : ∀ c, p c = true → isBlank c = false)
    (cs : List Char) : (firstWord cs).takeWhile p = cs.takeWhile p := by
  rw [firstWord, List.takeWhile_takeWhile]
  congr 1
  funext c
  by_cases hc : p c = true
  · simp [hc, hp c hc]
  · simp [hc]

theorem head?_firstWord {p : Char → Bool} (hp : ∀ c, p c = true → isBlank c = false)
    (cs : List Char) : (firstWord cs).head?.any p = cs.head?.any p := by
  cases cs with
  | nil => rfl
  | cons c cs =>
    by_cases hc : isBlank c = true
    · have hpc : p c = false := by
        by_contra h
        rw [hp c (by simpa using h)] at hc
        contradiction
      simp [firstWord_blank hc, hpc]
    · simp [firstWord_cons (by simpa using hc : isBlank c = false)]

theorem head_dropWhile {p : Char → Bool} {cs ds : List Char} {d : Char}
    (h : cs.dropWhile p = d :: ds) : p d = false := by
  have hnot := List.head?_dropWhile_not p cs
  simpa [h] using hnot

/-- Every range of the one list lies apart from every range of the other. -/
def apart (rs ss : List (Nat × Nat)) : Bool :=
  rs.all fun r => ss.all fun s => r.2 < s.1 || s.2 < r.1

theorem inRanges_of_apart {rs ss : List (Nat × Nat)} (h : apart rs ss = true) {c : Char}
    (hc : inRanges rs c = true) : inRanges ss c = false := by
  simp only [inRanges, List.any_eq_true, Bool.and_eq_true, decide_eq_true_eq] at hc
  obtain ⟨r, hr, hlow, hhigh⟩ := hc
  simp only [apart, List.all_eq_true, Bool.or_eq_true, decide_eq_true_eq] at h
  simp only [inRanges, List.any_eq_false, Bool.and_eq_true, decide_eq_true_eq]
  intro s hs
  have := h r hr s hs
  omega

theorem letterRanges_apart : apart letterRanges blankRanges = true := by decide +kernel

theorem numberRanges_apart : apart numberRanges blankRanges = true := by decide +kernel

/-- The blanks below 0x80 are the space and control characters. -/
theorem isBlank_of_printable {c : Char} (h : 0x21 ≤ c.toNat ∧ c.toNat < 0x80) :
    isBlank c = false := by
  simp only [isBlank, inRanges, blankRanges, List.any_cons, List.any_nil, Bool.or_eq_false_iff,
    Bool.and_eq_false_iff, decide_eq_false_iff_not, and_true]
  omega

theorem isBlank_of_isDigit {c : Char} (h : c.isDigit = true) : isBlank c = false := by
  simp only [Char.isDigit, Bool.and_eq_true, decide_eq_true_eq, UInt32.le_iff_toNat_le] at h
  change 48 ≤ c.toNat ∧ c.toNat ≤ 57 at h
  exact isBlank_of_printable (by omega)

theorem isBlank_of_isAlpha {c : Char} (h : c.isAlpha = true) : isBlank c = false := by
  change (decide (65 ≤ c.val ∧ c.val ≤ 90) ||
    decide (97 ≤ c.val) && decide (c.val ≤ 122)) = true at h
  simp only [Bool.or_eq_true, Bool.and_eq_true, decide_eq_true_eq, UInt32.le_iff_toNat_le] at h
  change 65 ≤ c.toNat ∧ c.toNat ≤ 90 ∨ 97 ≤ c.toNat ∧ c.toNat ≤ 122 at h
  exact isBlank_of_printable (by omega)

theorem isBlank_of_isLetter {c : Char} (h : isLetter c = true) : isBlank c = false := by
  unfold isLetter at h
  split_ifs at h
  · exact isBlank_of_isAlpha h
  · exact inRanges_of_apart letterRanges_apart h

theorem isBlank_of_isNumber {c : Char} (h : isNumber c = true) : isBlank c = false := by
  unfold isNumber at h
  split_ifs at h
  · exact isBlank_of_isDigit h
  · exact inRanges_of_apart numberRanges_apart h

/-- One where the first character is there and `p` holds of it, else zero. -/
def headLength (p : Char → Bool) (cs : List Char) : Nat := if cs.head?.any p then 1 else 0

/-- The length of what `f` measures and of what `g` measures right after it. -/
def bothLength (f g : List Char → Nat) (cs : List Char) : Nat := f cs + g (cs.drop (f cs))

/-- A length that is read off the first word and stays within it. -/
structure InWord (f : List Char → Nat) : Prop where
  firstWord_eq (cs : List Char) : f (firstWord cs) = f cs
  le (cs : List Char) : f cs ≤ (firstWord cs).length

namespace InWord

variable {f g : List Char → Nat} {p : Char → Bool}

theorem takeWhile (hp : ∀ c, p c = true → isBlank c = false) :
    InWord fun cs => (cs.takeWhile p).length where
  firstWord_eq cs := by rw [takeWhile_firstWord hp]
  le cs := by
    rw [← takeWhile_firstWord hp]
    exact (List.takeWhile_sublist p).length_le

theorem head (hp : ∀ c, p c = true → isBlank c = false) : InWord (headLength p) where
  firstWord_eq cs := by rw [headLength, head?_firstWord hp, headLength]
  le cs := by
    rw [headLength, ← head?_firstWord hp]
    cases firstWord cs with
    | nil => simp
    | cons c cs => simp only [List.length_cons]; split <;> omega

theorem drop_eq (hf : InWord f) (hg : InWord g) (cs : List Char) :
    g ((firstWord cs).drop (f (firstWord cs))) = g (cs.drop (f cs)) := by
  rw [hf.firstWord_eq, drop_firstWord (hf.le cs), hg.firstWord_eq]

theorem both (hf : InWord f) (hg : InWord g) : InWord (bothLength f g) where
  firstWord_eq cs := by rw [bothLength, hf.drop_eq hg, hf.firstWord_eq, bothLength]
  le cs := by
    rw [bothLength]
    have h := hg.le (cs.drop (f cs))
    rw [← drop_firstWord (hf.le cs), List.length_drop] at h
    have := hf.le cs
    omega

theorem guarded {q : List Char → Bool} (hq : ∀ cs, q (firstWord cs) = q cs) (hf : InWord f) :
    InWord fun cs => if q cs then f cs else 0 where
  firstWord_eq cs := by simp only [hq, hf.firstWord_eq]
  le cs := by
    split
    · exact hf.le cs
    · exact Nat.zero_le _

theorem digitCount : InWord Text.digitCount := takeWhile fun _ h => isBlank_of_isDigit h

end InWord

end Text

namespace Formula.Token

open Text

theorem isBlank_of_continuesName {c : Char} (h : continuesName c = true) : isBlank c = false := by
  simp only [continuesName, Bool.or_eq_true, beq_iff_eq] at h
  obtain (h | h) | rfl := h
  · exact isBlank_of_isLetter h
  · exact isBlank_of_isNumber h
  · rfl

def isPoint (c : Char) : Bool := c == '.'

def isExponentMark (c : Char) : Bool := c == 'e' || c == 'E'

def isExponentSign (c : Char) : Bool := c == '+' || c == '-'

/-- The length of a point and the digits after it. -/
def fractionLength (cs : List Char) : Nat :=
  if cs.head?.any isPoint then bothLength (headLength isPoint) digitCount cs else 0

/-- The length of what stands before the digits of an exponent. -/
def exponentLead : List Char → Nat :=
  bothLength (headLength isExponentMark) (headLength isExponentSign)

theorem headLength_isExponentSign (cs : List Char) :
    headLength isExponentSign cs = match cs with | '+' :: _ => 1 | '-' :: _ => 1 | _ => 0 := by
  split
  · rfl
  · rfl
  · rename_i hplus hminus
    cases cs with
    | nil => rfl
    | cons c cs =>
      have hp : c ≠ '+' := fun h => hplus cs (by rw [h])
      have hm : c ≠ '-' := fun h => hminus cs (by rw [h])
      simp [headLength, isExponentSign, hp, hm]

theorem exponentLength_cons (e : Char) (cs : List Char) : exponentLength (e :: cs) =
    if isExponentMark e && digitCount (cs.drop (headLength isExponentSign cs)) != 0 then
      1 + headLength isExponentSign cs + digitCount (cs.drop (headLength isExponentSign cs))
    else 0 :=
  congrArg (fun sign => if isExponentMark e && digitCount (cs.drop sign) != 0 then
    1 + sign + digitCount (cs.drop sign) else 0) (headLength_isExponentSign cs).symm

theorem exponentLength_eq (cs : List Char) :
    exponentLength cs =
      if cs.head?.any isExponentMark && digitCount (cs.drop (exponentLead cs)) != 0 then
        bothLength exponentLead digitCount cs else 0 := by
  cases cs with
  | nil => rfl
  | cons e cs =>
    rw [exponentLength_cons, List.head?_cons, Option.any_some]
    by_cases he : isExponentMark e = true
    · have hlead : exponentLead (e :: cs) = 1 + headLength isExponentSign cs := by
        simp [exponentLead, bothLength, headLength, he]
      rw [bothLength, hlead, Nat.add_comm 1, List.drop_succ_cons]
    · rw [Bool.not_eq_true] at he
      simp only [he, Bool.false_and, Bool.false_eq_true, if_false]

theorem fractionLength_eq (cs : List Char) :
    fractionLength cs = match cs with | '.' :: ds => 1 + digitCount ds | _ => 0 := by
  split
  · rfl
  · rename_i hpoint
    cases cs with
    | nil => rfl
    | cons c cs =>
      have hc : c ≠ '.' := fun h => hpoint cs (by rw [h])
      simp [fractionLength, isPoint, hc]

theorem numeralLength_eq (cs : List Char) :
    numeralLength cs = bothLength (bothLength digitCount fractionLength) exponentLength cs :=
  congrArg (fun fraction => digitCount cs + fraction +
    exponentLength (cs.drop (digitCount cs + fraction)))
    (fractionLength_eq (cs.drop (digitCount cs))).symm

theorem isBlank_of_isPoint {c : Char} (h : isPoint c = true) : isBlank c = false := by
  rw [isPoint, beq_iff_eq] at h
  rw [h]
  rfl

theorem isBlank_of_isExponentMark {c : Char} (h : isExponentMark c = true) :
    isBlank c = false := by
  rw [isExponentMark, Bool.or_eq_true, beq_iff_eq, beq_iff_eq] at h
  obtain rfl | rfl := h <;> rfl

theorem isBlank_of_isExponentSign {c : Char} (h : isExponentSign c = true) :
    isBlank c = false := by
  rw [isExponentSign, Bool.or_eq_true, beq_iff_eq, beq_iff_eq] at h
  obtain rfl | rfl := h <;> rfl

theorem inWord_fractionLength : InWord fractionLength :=
  (InWord.both (.head fun _ => isBlank_of_isPoint) .digitCount).guarded
    (head?_firstWord fun _ => isBlank_of_isPoint)

theorem inWord_exponentLength : InWord exponentLength := by
  have hlead : InWord exponentLead :=
    .both (.head fun _ => isBlank_of_isExponentMark) (.head fun _ => isBlank_of_isExponentSign)
  have hguard := (hlead.both .digitCount).guarded
    (q := fun cs => cs.head?.any isExponentMark && digitCount (cs.drop (exponentLead cs)) != 0)
    fun cs => by
      simp only [head?_firstWord fun _ => isBlank_of_isExponentMark, hlead.drop_eq .digitCount]
  rwa [← funext exponentLength_eq] at hguard

theorem inWord_numeralLength : InWord numeralLength := by
  have h := (InWord.digitCount.both inWord_fractionLength).both inWord_exponentLength
  rwa [← funext numeralLength_eq] at h

theorem inWord_nameLength : InWord fun cs => (cs.takeWhile continuesName).length :=
  .takeWhile fun _ => isBlank_of_continuesName

theorem head?_beq_firstWord {d : Char} (hd : isBlank d = false) (cs : List Char) :
    ((firstWord cs).head? == some d) = (cs.head? == some d) := by
  have h := head?_firstWord (p := (· == d)) (fun c hc => by rwa [beq_iff_eq.mp hc]) cs
  cases hw : (firstWord cs).head? <;> cases hcs : cs.head? <;> simp_all

theorem one_le_firstWord {d : Char} (hd : isBlank d = false) {cs : List Char}
    (h : (cs.head? == some d) = true) : 1 ≤ (firstWord cs).length := by
  rw [← head?_beq_firstWord hd, beq_iff_eq] at h
  exact List.length_pos_of_mem (List.mem_of_head? h)

/-- What is read from a character on follows from the rest of its word. Every look ahead is for
characters that are not blank, so it ends where the word does. -/
theorem scan_firstWord {c : Char} (hc : isBlank c = false) (cs : List Char) :
    scan c (firstWord cs) = scan c cs := by
  have hdigit : (firstWord cs).head?.any Char.isDigit = cs.head?.any Char.isDigit :=
    head?_firstWord (fun _ => isBlank_of_isDigit) cs
  have hnumeral : numeralLength (c :: firstWord cs) = numeralLength (c :: cs) := by
    rw [← firstWord_cons hc, inWord_numeralLength.firstWord_eq]
  have hname := inWord_nameLength.firstWord_eq cs
  unfold scan
  simp only [head?_beq_firstWord (show isBlank '=' = false from rfl),
    head?_beq_firstWord (show isBlank '<' = false from rfl),
    head?_beq_firstWord (show isBlank '>' = false from rfl), hdigit, hnumeral, hname]

theorem scan_le {c : Char} (hc : isBlank c = false) (cs : List Char) :
    (scan c cs).2 ≤ (firstWord cs).length := by
  have hnumeral := inWord_numeralLength.le (c :: cs)
  rw [firstWord_cons hc, List.length_cons] at hnumeral
  have hname := inWord_nameLength.le cs
  unfold scan
  split
  case h_13 | h_14 =>
    split_ifs with hle
    · exact one_le_firstWord rfl hle
    · exact Nat.zero_le _
  case h_15 =>
    split_ifs with hle hge heq
    · exact one_le_firstWord rfl hle
    · exact one_le_firstWord rfl hge
    · exact one_le_firstWord rfl heq
    · exact Nat.zero_le _
  case h_16 =>
    split_ifs
    · show numeralLength (c :: cs) - 1 ≤ _
      omega
    · exact hname
    · exact Nat.zero_le _
  all_goals exact Nat.zero_le _

/-- The characters that a token takes after its first, cut out of the first word. -/
theorem take_scan {c : Char} (hc : isBlank c = false) (cs : List Char) :
    cs.take (scan c cs).2 = (firstWord cs).take (scan c cs).2 :=
  take_firstWord (scan_le hc cs)

theorem isBlank_of_mem_scan {c d : Char} {cs : List Char} (hc : isBlank c = false)
    (hd : d ∈ c :: cs.take (scan c cs).2) : isBlank d = false := by
  rw [take_scan hc] at hd
  obtain rfl | hd := List.mem_cons.mp hd
  · exact hc
  · exact isBlank_of_mem_firstWord (List.mem_of_mem_take hd)

end Formula.Token

namespace Formula.Cursor

open Text

/-- The token at `d`, with the place it starts at. -/
def tokenAt (start : Nat) (d : Char) (ds : List Char) : Token :=
  let text := d :: ds.take (Token.scan d ds).2
  ⟨(Token.scan d ds).1, ⟨start, start + byteCount text⟩, String.ofList text⟩

theorem toList_tokenAt (start : Nat) (d : Char) (ds : List Char) :
    (tokenAt start d ds).text.toList = d :: ds.take (Token.scan d ds).2 :=
  String.toList_ofList

theorem toList_tokenAt_append (start : Nat) (d : Char) (ds : List Char) :
    (tokenAt start d ds).text.toList ++ ds.drop (Token.scan d ds).2 = d :: ds := by
  rw [toList_tokenAt, List.cons_append, List.take_append_drop]

theorem stop_tokenAt (start : Nat) (d : Char) (ds : List Char) :
    (tokenAt start d ds).span.stop = start + byteCount (tokenAt start d ds).text.toList := by
  rw [toList_tokenAt]
  rfl

theorem tokenAt_kind (start : Nat) (d : Char) (ds : List Char) :
    (tokenAt start d ds).kind ≠ .eof := by
  intro hkind
  have h : (tokenAt start d ds).WellSpelled := Token.scan_wellSpelled d ds _
  rw [Token.WellSpelled, hkind] at h
  exact h

def endMark (position : Nat) : Token := ⟨.eof, ⟨position, position⟩, ""⟩

theorem takeWhile_isBlank {blanks : List Char} (hb : ∀ c ∈ blanks, isBlank c = true) {d : Char}
    (hd : isBlank d = false) (ds : List Char) :
    (blanks ++ d :: ds).takeWhile isBlank = blanks := by
  rw [List.takeWhile_append_of_pos hb, List.takeWhile_cons_of_neg (by simp [hd]), List.append_nil]

theorem dropWhile_isBlank {blanks : List Char} (hb : ∀ c ∈ blanks, isBlank c = true) {d : Char}
    (hd : isBlank d = false) (ds : List Char) :
    (blanks ++ d :: ds).dropWhile isBlank = d :: ds := by
  rw [List.dropWhile_append_of_pos hb, List.dropWhile_cons_of_neg (by simp [hd])]

theorem next_blank {blanks : List Char} (hb : ∀ c ∈ blanks, isBlank c = true) (p : Nat) :
    next ⟨p, blanks⟩ = (endMark (p + byteCount blanks), ⟨p + byteCount blanks, []⟩) := by
  simp only [next, List.dropWhile_eq_nil_iff.mpr hb, List.takeWhile_eq_self_iff.mpr hb, endMark]

theorem tokens_blank {blanks : List Char} (hb : ∀ c ∈ blanks, isBlank c = true) (p : Nat) :
    tokens ⟨p, blanks⟩ = [endMark (p + byteCount blanks)] := by
  rw [tokens, next_blank hb, if_pos (show (endMark _).kind = .eof from rfl)]

theorem next_cons {blanks : List Char} (hb : ∀ c ∈ blanks, isBlank c = true) {d : Char}
    (hd : isBlank d = false) (ds : List Char) (p : Nat) :
    next ⟨p, blanks ++ d :: ds⟩ =
      (tokenAt (p + byteCount blanks) d ds,
        ⟨(tokenAt (p + byteCount blanks) d ds).span.stop, ds.drop (Token.scan d ds).2⟩) := by
  simp only [next, takeWhile_isBlank hb hd, dropWhile_isBlank hb hd, tokenAt]

theorem tokens_cons {blanks : List Char} (hb : ∀ c ∈ blanks, isBlank c = true) {d : Char}
    (hd : isBlank d = false) (ds : List Char) (p : Nat) :
    tokens ⟨p, blanks ++ d :: ds⟩ =
      tokenAt (p + byteCount blanks) d ds ::
        tokens ⟨(tokenAt (p + byteCount blanks) d ds).span.stop,
          ds.drop (Token.scan d ds).2⟩ := by
  rw [tokens, next_cons hb hd, if_neg (tokenAt_kind _ d ds)]

/-- What holds where only blanks are left, and before a token when it holds after it, holds at
every place. -/
theorem place_induction {motive : Nat → List Char → Prop}
    (blank : ∀ p blanks, (∀ c ∈ blanks, isBlank c = true) → motive p blanks)
    (token : ∀ p blanks d ds, (∀ c ∈ blanks, isBlank c = true) → isBlank d = false →
      motive (tokenAt (p + byteCount blanks) d ds).span.stop (ds.drop (Token.scan d ds).2) →
      motive p (blanks ++ d :: ds)) (p : Nat) (cs : List Char) : motive p cs := by
  induction hn : cs.length using Nat.strong_induction_on generalizing p cs with
  | _ n ih =>
    cases hd : cs.dropWhile isBlank with
    | nil => exact blank p cs (List.dropWhile_eq_nil_iff.mp hd)
    | cons d ds =>
      have hsolid : isBlank d = false := head_dropWhile hd
      have hcs : cs = cs.takeWhile isBlank ++ d :: ds := by
        rw [← hd, List.takeWhile_append_dropWhile]
      have hlen := congrArg List.length hcs
      rw [List.length_append, List.length_cons] at hlen
      rw [hcs]
      refine token p _ d ds (fun c hc => List.mem_takeWhile_imp hc) hsolid
        (ih _ ?_ _ _ rfl)
      rw [List.length_drop]
      omega

end Formula.Cursor

end PlanarLP
