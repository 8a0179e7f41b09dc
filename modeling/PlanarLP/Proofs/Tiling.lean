import Mathlib.Data.String.Basic
import PlanarLP.Proofs.Words

/-! The tokens of a source tile it. Each stands between two characters on bytes of its own and
says what is written there, one comes after another, what no token covers is blank, and the
end mark stands alone behind the last byte, where it is read again and again. So the source
is the texts of its tokens with the blanks between them put back. -/

namespace PlanarLP.Formula

theorem byteCount_eq_utf8Len (cs : List Char) : byteCount cs = String.utf8Len cs := by
  induction cs with
  | nil => rfl
  | cons c cs ih => rw [byteCount, ih, String.utf8Len_cons, Nat.add_comm]

theorem byteCount_toList (s : String) : byteCount s.toList = s.utf8ByteSize := by
  rw [byteCount_eq_utf8Len, ← String.utf8ByteSize_ofList, String.ofList_toList]

theorem byteCount_pos {cs : List Char} (h : cs ≠ []) : 0 < byteCount cs := by
  cases cs with
  | nil => contradiction
  | cons c cs => exact Nat.add_pos_left c.utf8Size_pos _

/-- The bytes that `text` takes after `before`. -/
def Span.after (before text : List Char) : Span :=
  ⟨byteCount before, byteCount before + byteCount text⟩

/-- The tokens stand one after another in what follows `before`, each over its own bytes with
only blanks ahead of it, and the end mark where the text is over. -/
inductive Laid : List Char → List Char → List Token → Prop
  | eof {before blanks : List Char} (hb : ∀ c ∈ blanks, Text.isBlank c = true) :
    Laid before blanks [Cursor.endMark (byteCount (before ++ blanks))]
  | token {before blanks rest : List Char} {t : Token} {ts : List Token}
    (hb : ∀ c ∈ blanks, Text.isBlank c = true) (hkind : t.kind ≠ .eof)
    (hne : t.text.toList ≠ []) (hsolid : ∀ c ∈ t.text.toList, Text.isBlank c = false)
    (hspan : t.span = .after (before ++ blanks) t.text.toList)
    (h : Laid (before ++ blanks ++ t.text.toList) rest ts) :
    Laid before (blanks ++ (t.text.toList ++ rest)) (t :: ts)

theorem laid_tokens (p : Nat) (cs before : List Char) (hp : p = byteCount before) :
    Laid before cs (Cursor.tokens ⟨p, cs⟩) := by
  induction p, cs using Cursor.place_induction generalizing before with
  | blank p blanks hb =>
    rw [Cursor.tokens_blank hb, hp, ← byteCount_append]
    exact .eof hb
  | token p blanks d ds hb hd ih =>
    have hstart : p + byteCount blanks = byteCount (before ++ blanks) := by
      rw [hp, byteCount_append]
    rw [Cursor.tokens_cons hb hd]
    rw [hstart] at ih ⊢
    have htext := Cursor.toList_tokenAt (byteCount (before ++ blanks)) d ds
    rw [← Cursor.toList_tokenAt_append (byteCount (before ++ blanks)) d ds]
    refine .token hb (Cursor.tokenAt_kind _ d ds) (by simp [htext]) ?_ ?_ (ih _ ?_)
    · intro c hc
      rw [htext] at hc
      exact Token.isBlank_of_mem_scan hd hc
    · rw [Span.after, ← Cursor.stop_tokenAt]
      rfl
    · rw [Cursor.stop_tokenAt, ← byteCount_append]

/-- A character found in `xs ++ ys` lies in `xs`, or in `ys` with all of `xs` before it. -/
theorem append_eq_split {xs ys as bs : List Char} {c : Char} (h : xs ++ ys = as ++ c :: bs) :
    c ∈ xs ∧ byteCount as < byteCount xs ∨ ∃ cs, as = xs ++ cs ∧ ys = cs ++ c :: bs := by
  obtain ⟨cs, has, hys⟩ | ⟨cs, hxs, hys⟩ := List.append_eq_append_iff.mp h
  · exact .inr ⟨cs, has, hys⟩
  · cases cs with
    | nil => exact .inr ⟨[], by simpa using hxs.symm, hys.symm⟩
    | cons d ds =>
      obtain ⟨rfl, -⟩ := List.cons.inj hys
      refine .inl ⟨by simp [hxs], ?_⟩
      rw [hxs, byteCount_append]
      have := byteCount_pos (List.cons_ne_nil c ds)
      omega

namespace Laid

variable {before rest : List Char} {ts : List Token}

theorem ne_nil (h : Laid before rest ts) : ts ≠ [] := by
  cases h <;> exact List.cons_ne_nil _ _

theorem le_start (h : Laid before rest ts) : ∀ t ∈ ts, byteCount before ≤ t.span.start := by
  induction h with
  | eof hb => simp [Cursor.endMark, byteCount_append]
  | token hb hkind hne hsolid hspan h ih =>
    simp only [List.forall_mem_cons, hspan, Span.after, byteCount_append] at ih ⊢
    refine ⟨by omega, fun t ht => ?_⟩
    have := ih t ht
    omega

theorem ordered (h : Laid before rest ts) :
    ts.Pairwise fun s t => s.span.stop ≤ t.span.start := by
  induction h with
  | eof hb => exact List.pairwise_singleton ..
  | token hb hkind hne hsolid hspan h ih =>
    refine .cons ?_ ih
    intro t ht
    rw [hspan, Span.after, ← byteCount_append]
    exact h.le_start t ht

/-- Each token is cut out of the text between two characters. -/
theorem cut (h : Laid before rest ts) : ∀ t ∈ ts, ∃ left right,
    before ++ rest = left ++ t.text.toList ++ right ∧ t.span = .after left t.text.toList := by
  induction h with
  | @eof before blanks hb =>
    simp only [List.mem_singleton, forall_eq]
    exact ⟨before ++ blanks, [], by simp [Cursor.endMark], rfl⟩
  | @token before blanks rest t ts hb hkind hne hsolid hspan h ih =>
    refine List.forall_mem_cons.mpr ⟨⟨before ++ blanks, rest, by simp, hspan⟩, ?_⟩
    intro s hs
    obtain ⟨left, right, heq, hs⟩ := ih s hs
    exact ⟨left, right, by simp [← heq], hs⟩

theorem solid (h : Laid before rest ts) :
    ∀ t ∈ ts, ∀ c ∈ t.text.toList, Text.isBlank c = false := by
  induction h with
  | eof hb => simp [Cursor.endMark]
  | token hb hkind hne hsolid hspan h ih => exact List.forall_mem_cons.mpr ⟨hsolid, ih⟩

theorem nonempty (h : Laid before rest ts) : ∀ t ∈ ts.dropLast, t.span.start < t.span.stop := by
  induction h with
  | eof hb => simp
  | token hb hkind hne hsolid hspan h ih =>
    rw [List.dropLast_cons_of_ne_nil h.ne_nil]
    refine List.forall_mem_cons.mpr ⟨?_, ih⟩
    rw [hspan]
    exact Nat.lt_add_of_pos_right (byteCount_pos hne)

theorem ended (h : Laid before rest ts) :
    ts = ts.dropLast ++ [Cursor.endMark (byteCount (before ++ rest))] ∧
      ∀ t ∈ ts.dropLast, t.kind ≠ .eof := by
  induction h with
  | eof hb => simp
  | @token before blanks rest t ts hb hkind hne hsolid hspan h ih =>
    rw [List.dropLast_cons_of_ne_nil h.ne_nil]
    refine ⟨?_, List.forall_mem_cons.mpr ⟨hkind, ih.2⟩⟩
    rw [List.cons_append, ← List.append_assoc before, ← List.append_assoc _ t.text.toList, ← ih.1]

/-- A character that no token covers is blank. -/
theorem blank_outside (h : Laid before rest ts) {left right : List Char} {c : Char}
    (hrest : rest = left ++ c :: right)
    (hout : ∀ t ∈ ts, byteCount (before ++ left) < t.span.start ∨
      t.span.stop ≤ byteCount (before ++ left)) : Text.isBlank c = true := by
  induction h generalizing left with
  | eof hb => exact hb c (by simp [hrest])
  | token hb hkind hne hsolid hspan h ih =>
    obtain ⟨hc, -⟩ | ⟨cs, rfl, htext⟩ := append_eq_split hrest
    · exact hb c hc
    · obtain ⟨-, hlt⟩ | ⟨ds, rfl, hnext⟩ := append_eq_split htext
      · have := (List.forall_mem_cons.mp hout).1
        simp only [hspan, Span.after, byteCount_append] at this
        omega
      · refine ih hnext ?_
        simpa using (List.forall_mem_cons.mp hout).2

theorem length_le (h : Laid before rest ts) : ts.length ≤ rest.length + 1 := by
  induction h with
  | eof hb => simp
  | token hb hkind hne hsolid hspan h ih =>
    have := List.length_pos_iff.mpr hne
    simp only [List.length_cons, List.length_append]
    omega

/-- The text is those of the tokens with blanks put before each. -/
theorem interleaved (h : Laid before rest ts) : ∃ gaps : List (List Char),
    gaps.length = ts.length ∧ (∀ gap ∈ gaps, ∀ c ∈ gap, Text.isBlank c = true) ∧
      rest = (List.zipWith (fun gap t => gap ++ t.text.toList) gaps ts).flatten := by
  induction h with
  | @eof before blanks hb => exact ⟨[blanks], rfl, by simpa using hb, by simp [Cursor.endMark]⟩
  | @token before blanks rest t ts hb hkind hne hsolid hspan h ih =>
    obtain ⟨gaps, hlen, hblank, hrest⟩ := ih
    refine ⟨blanks :: gaps, by simp [hlen], List.forall_mem_cons.mpr ⟨hb, hblank⟩, ?_⟩
    rw [List.zipWith_cons_cons, List.flatten_cons, ← hrest, List.append_assoc]

end Laid

/-- Behind the last byte the end mark is read again and again. -/
theorem read_nil (p n : Nat) : Cursor.read ⟨p, []⟩ n = List.replicate n (Cursor.endMark p) := by
  induction n with
  | zero => rfl
  | succ n ih =>
    rw [Cursor.read, Cursor.next_blank (by simp), List.replicate_succ]
    exact congrArg _ ih

theorem read_tokens (p : Nat) (cs : List Char) (n : Nat) :
    Cursor.read ⟨p, cs⟩ ((Cursor.tokens ⟨p, cs⟩).length + n) =
      Cursor.tokens ⟨p, cs⟩ ++ List.replicate n (Cursor.endMark (p + byteCount cs)) := by
  induction p, cs using Cursor.place_induction with
  | blank p blanks hb =>
    rw [Cursor.tokens_blank hb, List.length_singleton, Nat.add_comm 1, Cursor.read,
      Cursor.next_blank hb, read_nil, List.singleton_append]
  | token p blanks d ds hb hd ih =>
    have hend : (Cursor.tokenAt (p + byteCount blanks) d ds).span.stop +
        byteCount (ds.drop (Token.scan d ds).2) = p + byteCount (blanks ++ d :: ds) := by
      rw [Cursor.stop_tokenAt, Nat.add_assoc, ← byteCount_append, Cursor.toList_tokenAt_append,
        byteCount_append, Nat.add_assoc]
    rw [Cursor.tokens_cons hb hd, List.length_cons, Nat.add_right_comm, Cursor.read,
      Cursor.next_cons hb hd, ih, hend, List.cons_append]

/-- The tokens cut a source up and lose none of it. -/
structure Tiles (source : String) (ts : List Token) : Prop where
  /-- A token stands between two characters, over the bytes of its own text. -/
  cut : ∀ t ∈ ts, ∃ left right, source.toList = left ++ t.text.toList ++ right ∧
    t.span = ⟨byteCount left, byteCount left + byteCount t.text.toList⟩
  slice_eq : ∀ t ∈ ts, t.span.slice source.toList = t.text.toList
  ordered : ts.Pairwise fun s t => s.span.stop ≤ t.span.start
  nonempty : ∀ t ∈ ts.dropLast, t.span.start < t.span.stop
  solid : ∀ t ∈ ts, ∀ c ∈ t.text.toList, Text.isBlank c = false
  /-- A character whose bytes lie in no span is blank. -/
  blank_outside : ∀ left c right, source.toList = left ++ c :: right →
    (∀ t ∈ ts, byteCount left < t.span.start ∨ t.span.stop ≤ byteCount left) →
    Text.isBlank c = true
  ended : ts = ts.dropLast ++ [⟨.eof, ⟨source.utf8ByteSize, source.utf8ByteSize⟩, ""⟩]
  eof_last : ∀ t ∈ ts.dropLast, t.kind ≠ .eof
  length_le : ts.length ≤ source.length + 1
  /-- The source is the texts of the tokens with blanks put before each. -/
  interleaved : ∃ gaps : List (List Char), gaps.length = ts.length ∧
    (∀ gap ∈ gaps, ∀ c ∈ gap, Text.isBlank c = true) ∧
    source.toList = (List.zipWith (fun gap t => gap ++ t.text.toList) gaps ts).flatten

theorem Laid.tiles {source : String} {ts : List Token} (h : Laid [] source.toList ts) :
    Tiles source ts where
  cut := h.cut
  slice_eq t ht := by
    obtain ⟨left, right, heq, hspan⟩ := h.cut t ht
    rw [← List.nil_append source.toList, heq, hspan]
    exact Span.slice_append ..
  ordered := h.ordered
  nonempty := h.nonempty
  solid := h.solid
  blank_outside left c right heq hout := h.blank_outside heq (by simpa using hout)
  ended := by simpa [byteCount_toList, Cursor.endMark] using h.ended.1
  eof_last := h.ended.2
  length_le := by
    rw [← String.length_toList]
    exact h.length_le
  interleaved := h.interleaved

/-- The tokens of any source tile it, and whoever reads on finds the same end mark. -/
theorem tokenize_tiles (source : String) :
    Tiles source (tokenize source) ∧
      ∀ n, (Cursor.start source).read ((tokenize source).length + n) =
        tokenize source ++
          List.replicate n ⟨.eof, ⟨source.utf8ByteSize, source.utf8ByteSize⟩, ""⟩ := by
  refine ⟨(laid_tokens 0 source.toList [] rfl).tiles, fun n => ?_⟩
  have h := read_tokens 0 source.toList n
  rwa [Nat.zero_add, byteCount_toList] at h

example : (tokenize "x ≥ 9").map Token.span = [⟨0, 1⟩, ⟨2, 5⟩, ⟨6, 7⟩, ⟨7, 7⟩] := by decide +kernel

end PlanarLP.Formula
