import Mathlib.Data.List.TakeWhile
import Mathlib.Tactic.SplitIfs
import PlanarLP.Formula.Token

/-! What the tokens of a text have to do with it. Their texts stand in it in their order with
only blanks between them, and a token of an operator's kind is one of the spellings of that
operator. -/

namespace PlanarLP.Formula

def Comparator.spellings : Comparator → List String
  | le => ["<=", "≤", "=<"]
  | ge => [">=", "≥", "=>"]
  | lt => ["<"]
  | gt => [">"]
  | eq => ["=", "=="]

/-- The text says what the kind does: an operator is spelled as one, a numeral starts with a
digit or a point, and a name consists of letters, digits and underscores. -/
def Token.WellSpelled (t : Token) : Prop :=
  match t.kind with
  | .plus => t.text = "+"
  | .minus => t.text ∈ ["-", "−"]
  | .star => t.text ∈ ["*", "·", "×"]
  | .slash => t.text = "/"
  | .caret => t.text = "^"
  | .leftParen => t.text = "("
  | .rightParen => t.text = ")"
  | .comparator op => t.text ∈ op.spellings
  | .number => ∃ c ∈ t.text.toList.head?, c.isDigit = true ∨ c = '.'
  | .ident => ∃ c cs, t.text.toList = c :: cs ∧ (Text.isLetter c = true ∨ c = '_') ∧
      ∀ d ∈ cs, Token.continuesName d = true
  | .error => t.text.length = 1
  | .eof => False

/-- The texts of the tokens make up the characters, apart from blanks. -/
inductive Lexed : List Char → List Token → Prop
  | nil {blanks : List Char} (hb : ∀ c ∈ blanks, Text.isBlank c = true) : Lexed blanks []
  | cons {blanks rest : List Char} {t : Token} {ts : List Token}
    (hb : ∀ c ∈ blanks, Text.isBlank c = true) (ht : t.WellSpelled) (h : Lexed rest ts) :
    Lexed (blanks ++ (t.text.toList ++ rest)) (t :: ts)

namespace Token

/-- A name is as long as its letters, digits and underscores go. -/
theorem take_name (cs : List Char) :
    cs.take (cs.takeWhile continuesName).length = cs.takeWhile continuesName :=
  (List.prefix_iff_eq_take.mp (List.takeWhile_prefix continuesName)).symm

theorem take_one {d : Char} {cs : List Char} (h : (cs.head? == some d) = true) :
    cs.take 1 = [d] := by
  rw [beq_iff_eq, List.head?_eq_some_iff] at h
  obtain ⟨ds, rfl⟩ := h
  rfl

theorem scan_wellSpelled (c : Char) (cs : List Char) (span : Span) :
    WellSpelled ⟨(scan c cs).1, span, String.ofList (c :: cs.take (scan c cs).2)⟩ := by
  unfold scan
  split
  case h_13 | h_14 =>
    split
    · rename_i h
      simp [WellSpelled, Comparator.spellings, take_one h]
    · simp [WellSpelled, Comparator.spellings]
  case h_15 =>
    split_ifs with hle hge heq
    · simp [WellSpelled, Comparator.spellings, take_one hle]
    · simp [WellSpelled, Comparator.spellings, take_one hge]
    · simp [WellSpelled, Comparator.spellings, take_one heq]
    · simp [WellSpelled, Comparator.spellings]
  case h_16 =>
    split_ifs with hnumber hname
    · rw [Bool.or_eq_true, Bool.and_eq_true, beq_iff_eq] at hnumber
      exact ⟨c, by simp, hnumber.imp_right And.left⟩
    · rw [Bool.or_eq_true, beq_iff_eq] at hname
      refine ⟨c, cs.takeWhile continuesName, by simp [take_name], hname, fun d hd => ?_⟩
      exact List.mem_takeWhile_imp hd
    · simp [WellSpelled]
  all_goals simp [WellSpelled, Comparator.spellings]

end Token

namespace Cursor

/-- The end mark comes when only blanks are left. -/
theorem next_eof {c : Cursor} :
    c.next.1.kind = .eof ↔ ∀ d ∈ c.rest, Text.isBlank d = true := by
  rw [← List.dropWhile_eq_nil_iff]
  cases hd : c.rest.dropWhile Text.isBlank with
  | nil => simp only [next, hd]
  | cons d ds =>
    simp only [next, hd]
    refine iff_of_false (fun hk => ?_) (List.cons_ne_nil d ds)
    have hspell := Token.scan_wellSpelled d ds ⟨0, 0⟩
    rw [hk] at hspell
    exact hspell

/-- Any other token stands after the next blanks. -/
theorem next_token {c : Cursor} (h : c.next.1.kind ≠ .eof) :
    c.next.1.WellSpelled ∧ c.rest =
      c.rest.takeWhile Text.isBlank ++ (c.next.1.text.toList ++ c.next.2.rest) := by
  cases hd : c.rest.dropWhile Text.isBlank with
  | nil => exact absurd (next_eof.mpr (List.dropWhile_eq_nil_iff.mp hd)) h
  | cons d ds =>
    simp only [next, hd]
    refine ⟨Token.scan_wellSpelled d ds _, ?_⟩
    rw [String.toList_ofList, List.cons_append, List.take_append_drop, ← hd,
      List.takeWhile_append_dropWhile]

theorem tokens_ne_nil (c : Cursor) : c.tokens ≠ [] := by
  rw [tokens]
  split <;> exact List.cons_ne_nil _ _

theorem lexed_tokens (c : Cursor) : Lexed c.rest c.tokens.dropLast := by
  induction c using Cursor.tokens.induct with
  | case1 c h =>
    rw [tokens, if_pos h]
    exact .nil (next_eof.mp h)
  | case2 c h ih =>
    obtain ⟨hspell, hrest⟩ := next_token h
    rw [tokens, if_neg h, List.dropLast_cons_of_ne_nil c.next.2.tokens_ne_nil, hrest]
    exact .cons (fun d hd => List.mem_takeWhile_imp hd) hspell ih

end Cursor

/-- The tokens of a source are what stands in it between blanks. -/
theorem lexed_lexemes (source : String) : Lexed source.toList (lexemes source) :=
  (Cursor.start source).lexed_tokens

end PlanarLP.Formula
