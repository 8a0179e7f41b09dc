import PlanarLP.Formula.Parse
import PlanarLP.Proofs.Words

/-! Blanks separate tokens and do nothing else. The tokens of a text are those of its words one
after another, so a text with its blanks normalized has the same tokens, but for their spans,
and normalizing it once more changes nothing. -/

namespace PlanarLP

namespace Text

/-- Without blanks. -/
def Solid (w : List Char) : Prop := ∀ c ∈ w, isBlank c = false

/-- A text is a stretch without blanks, or such a stretch before a blank and another text. -/
theorem stretch_induction {motive : List Char → Prop} (last : ∀ w, Solid w → motive w)
    (next : ∀ w b cs, Solid w → isBlank b = true → motive cs → motive (w ++ b :: cs))
    (cs : List Char) : motive cs := by
  induction hn : cs.length using Nat.strong_induction_on generalizing cs with
  | _ n ih =>
    have hw : Solid (firstWord cs) := fun c hc => isBlank_of_mem_firstWord hc
    have hcs : firstWord cs ++ cs.dropWhile (fun c => !isBlank c) = cs :=
      List.takeWhile_append_dropWhile
    cases hd : cs.dropWhile fun c => !isBlank c with
    | nil =>
      rw [hd, List.append_nil] at hcs
      exact hcs ▸ last _ hw
    | cons b ds =>
      have hb : isBlank b = true := by simpa using head_dropWhile hd
      rw [hd] at hcs
      have hlen := congrArg List.length hcs
      rw [List.length_append, List.length_cons] at hlen
      exact hcs ▸ next _ b ds hw hb (ih ds.length (by omega) ds rfl)

theorem fields_eq_splitOnP (p : Char → Bool) (cs : List Char) : fields p cs = cs.splitOnP p := by
  induction cs with
  | nil => rfl
  | cons c cs ih =>
    rw [fields, List.splitOnP_cons_eq_if_modifyHead, ih]
    split
    · rfl
    · cases h : cs.splitOnP p with
      | nil => exact absurd h (List.splitOnP_ne_nil p cs)
      | cons w ws => rfl

theorem fields_solid {w : List Char} (h : Solid w) : fields isBlank w = [w] := by
  rw [fields_eq_splitOnP, List.splitOnP_eq_singleton h]

theorem fields_append {w : List Char} (h : Solid w) {b : Char} (hb : isBlank b = true)
    (cs : List Char) : fields isBlank (w ++ b :: cs) = w :: fields isBlank cs := by
  rw [fields_eq_splitOnP, fields_eq_splitOnP, List.splitOnP_append_cons_of_forall_mem h b hb]

theorem solid_fields (cs : List Char) : ∀ w ∈ fields isBlank cs, Solid w := by
  induction cs using stretch_induction with
  | last w hw =>
    rw [fields_solid hw]
    exact List.forall_mem_singleton.mpr hw
  | next w b cs hw hb ih =>
    rw [fields_append hw hb]
    exact List.forall_mem_cons.mpr ⟨hw, ih⟩

/-- The stretches between blanks that are not empty. -/
def words (cs : List Char) : List (List Char) :=
  (fields isBlank cs).filter fun word => !word.isEmpty

structure IsWord (w : List Char) : Prop where
  nonempty : w ≠ []
  solid : Solid w

theorem filter_cons_word {w : List Char} (h : w ≠ []) (ws : List (List Char)) :
    (w :: ws).filter (fun word => !word.isEmpty) = w :: ws.filter fun word => !word.isEmpty := by
  rw [List.filter_cons_of_pos]
  simpa using h

theorem isWord_words (cs : List Char) : ∀ w ∈ words cs, IsWord w := by
  intro w hw
  obtain ⟨hmem, hne⟩ := List.mem_filter.mp hw
  exact ⟨by simpa using hne, solid_fields cs w hmem⟩

theorem words_join {ws : List (List Char)} (h : ∀ w ∈ ws, IsWord w) :
    words ([' '].intercalate ws) = ws := by
  induction ws with
  | nil => rfl
  | cons w ws ih =>
    obtain ⟨hw, hws⟩ := List.forall_mem_cons.mp h
    cases ws with
    | nil =>
      rw [List.intercalate_singleton, words, fields_solid hw.solid, filter_cons_word hw.nonempty,
        List.filter_nil]
    | cons v ws =>
      have hjoin : [' '].intercalate (w :: v :: ws) = w ++ ' ' :: [' '].intercalate (v :: ws) := by
        rw [List.intercalate_cons_cons, List.append_assoc, List.singleton_append]
      rw [hjoin, words, fields_append hw.solid rfl, filter_cons_word hw.nonempty]
      exact congrArg _ (ih hws)

theorem normalizeBlanks_normalizeBlanks (cs : List Char) :
    normalizeBlanks (normalizeBlanks cs) = normalizeBlanks cs := by
  have hjoin : ∀ ds, normalizeBlanks ds = [' '].intercalate (words ds) := fun _ => rfl
  rw [hjoin (normalizeBlanks cs), hjoin cs, words_join (isWord_words cs)]

theorem firstWord_solid {w : List Char} (h : Solid w) : firstWord w = w :=
  List.takeWhile_eq_self_iff.mpr fun c hc => by rw [h c hc]; rfl

theorem firstWord_append {w rest : List Char} (h : Solid w) (hrest : firstWord rest = []) :
    firstWord (w ++ rest) = w := by
  rw [firstWord, List.takeWhile_append_of_pos fun c hc => by rw [h c hc]; rfl]
  exact (congrArg (w ++ ·) hrest).trans (List.append_nil w)

end Text

namespace Formula

open Text

/-- A token apart from the place where it stands. -/
def Token.form (t : Token) : Token.Kind × String := (t.kind, t.text)

def eofForm : Token.Kind × String := (.eof, "")

/-- The tokens of a text without the end mark, apart from their places. -/
def formsOf (cs : List Char) : List (Token.Kind × String) :=
  (Cursor.tokens ⟨0, cs⟩).dropLast.map Token.form

/-- Where a text stands makes no difference. -/
theorem map_form_tokens (p q : Nat) (cs : List Char) : (Cursor.tokens ⟨p, cs⟩).map Token.form =
    (Cursor.tokens ⟨q, cs⟩).dropLast.map Token.form ++ [eofForm] := by
  induction p, cs using Cursor.place_induction generalizing q with
  | blank p blanks hb =>
    rw [Cursor.tokens_blank hb, Cursor.tokens_blank hb]
    rfl
  | token p blanks d ds hb hd ih =>
    rw [Cursor.tokens_cons hb hd, Cursor.tokens_cons hb hd,
      List.dropLast_cons_of_ne_nil (Cursor.tokens_ne_nil _), List.map_cons, List.map_cons, ih,
      List.cons_append]
    rfl

theorem map_form_lexemes (p : Nat) (cs : List Char) :
    (Cursor.tokens ⟨p, cs⟩).dropLast.map Token.form = formsOf cs :=
  List.append_cancel_right ((map_form_tokens 0 p cs).symm.trans (map_form_tokens 0 0 cs))

theorem formsOf_blank {blanks : List Char} (hb : ∀ c ∈ blanks, isBlank c = true) :
    formsOf blanks = [] := by
  rw [formsOf, Cursor.tokens_blank hb]
  rfl

theorem formsOf_cons {blanks : List Char} (hb : ∀ c ∈ blanks, isBlank c = true) {d : Char}
    (hd : isBlank d = false) (ds : List Char) :
    formsOf (blanks ++ d :: ds) =
      ((Token.scan d ds).1, String.ofList (d :: ds.take (Token.scan d ds).2)) ::
        formsOf (ds.drop (Token.scan d ds).2) := by
  rw [formsOf, Cursor.tokens_cons hb hd, List.dropLast_cons_of_ne_nil (Cursor.tokens_ne_nil _),
    List.map_cons, map_form_lexemes]
  rfl

/-- A blank ahead of a text is passed over. -/
theorem formsOf_skip {b : Char} (hb : isBlank b = true) (cs : List Char) :
    formsOf (b :: cs) = formsOf cs := by
  induction 0, cs using Cursor.place_induction with
  | blank p blanks hblanks =>
    rw [formsOf_blank hblanks, formsOf_blank (List.forall_mem_cons.mpr ⟨hb, hblanks⟩)]
  | token p blanks d ds hblanks hd _ =>
    rw [← List.cons_append, formsOf_cons hblanks hd,
      formsOf_cons (List.forall_mem_cons.mpr ⟨hb, hblanks⟩) hd]

/-- The tokens of a word are the same whatever comes after it and a blank. -/
theorem formsOf_append {w rest : List Char} (hw : Solid w) (hrest : firstWord rest = []) :
    formsOf (w ++ rest) = formsOf w ++ formsOf rest := by
  induction hn : w.length using Nat.strong_induction_on generalizing w with
  | _ n ih =>
    cases w with
    | nil => rw [List.nil_append, formsOf_blank (List.forall_mem_nil _), List.nil_append]
    | cons c w =>
      obtain ⟨hc, hsolid⟩ := List.forall_mem_cons.mp hw
      -- the first token ends inside the word, and what it leaves of the word is shorter
      have hscan : Token.scan c (w ++ rest) = Token.scan c w := by
        rw [← Token.scan_firstWord hc (w ++ rest), firstWord_append hsolid hrest]
      have hle := Token.scan_le hc w
      rw [firstWord_solid hsolid] at hle
      have hword := formsOf_cons (List.forall_mem_nil _) hc w
      have htext := formsOf_cons (List.forall_mem_nil _) hc (w ++ rest)
      rw [List.nil_append] at hword htext
      have hdrop := ih (w.drop (Token.scan c w).2).length ?_
        (w := w.drop (Token.scan c w).2) (fun d hd => hsolid d (List.mem_of_mem_drop hd)) rfl
      · rw [List.cons_append, hword, htext, hscan, List.take_append_of_le_length hle,
          List.drop_append_of_le_length hle, hdrop, List.cons_append]
      · rw [← hn, List.length_drop, List.length_cons]
        omega

theorem formsOf_fields (cs : List Char) : formsOf cs = (fields isBlank cs).flatMap formsOf := by
  induction cs using stretch_induction with
  | last w hw => rw [fields_solid hw, List.flatMap_singleton]
  | next w b cs hw hb ih =>
    rw [fields_append hw hb, List.flatMap_cons, ← ih, ← formsOf_skip hb cs]
    exact formsOf_append hw (firstWord_blank hb cs)

/-- The tokens of a text are those of its words. -/
theorem formsOf_words (cs : List Char) : formsOf cs = (words cs).flatMap formsOf := by
  rw [formsOf_fields, words]
  induction fields isBlank cs with
  | nil => rfl
  | cons w ws ih =>
    cases w with
    | nil =>
      rw [List.flatMap_cons, formsOf_blank (List.forall_mem_nil _), List.nil_append, ih]
      rfl
    | cons c w => rw [filter_cons_word (List.cons_ne_nil c w), List.flatMap_cons, ih,
        List.flatMap_cons]

theorem formsOf_normalizeBlanks (cs : List Char) : formsOf (normalizeBlanks cs) = formsOf cs := by
  have hwords : words (normalizeBlanks cs) = words cs := words_join (isWord_words cs)
  rw [formsOf_words, hwords, ← formsOf_words]

theorem normalized_normalized (source : String) :
    normalized (normalized source) = normalized source := by
  rw [normalized, normalized, String.toList_ofList, normalizeBlanks_normalizeBlanks]

theorem map_form_tokenize (source : String) :
    (tokenize source).map Token.form = formsOf source.toList ++ [eofForm] :=
  map_form_tokens 0 0 source.toList

theorem map_form_normalized (source : String) :
    (tokenize (normalized source)).map Token.form = (tokenize source).map Token.form := by
  rw [map_form_tokenize, map_form_tokenize, normalized, String.toList_ofList,
    formsOf_normalizeBlanks]

end Formula

end PlanarLP
