/-! Stretches of a source text, counted in the bytes of its UTF-8 form. -/

namespace PlanarLP.Formula

structure Span where
  start : Nat
  stop : Nat
deriving DecidableEq, Repr

/-- The number of bytes that characters take in UTF-8. -/
def byteCount : List Char → Nat
  | [] => 0
  | c :: cs => c.utf8Size + byteCount cs

/-- The characters that start at byte `n` or later. -/
def dropBytes : Nat → List Char → List Char
  | _, [] => []
  | 0, cs => cs
  | n, c :: cs => dropBytes (n - c.utf8Size) cs

/-- The characters that start before byte `n`. -/
def takeBytes : Nat → List Char → List Char
  | _, [] => []
  | 0, _ => []
  | n, c :: cs => c :: takeBytes (n - c.utf8Size) cs

theorem byteCount_append (xs ys : List Char) :
    byteCount (xs ++ ys) = byteCount xs + byteCount ys := by
  induction xs with
  | nil => simp [byteCount]
  | cons x xs ih => simp [byteCount, ih, Nat.add_assoc]

theorem dropBytes_zero (cs : List Char) : dropBytes 0 cs = cs := by
  cases cs <;> rfl

theorem takeBytes_zero (cs : List Char) : takeBytes 0 cs = [] := by
  cases cs <;> rfl

theorem dropBytes_append (xs ys : List Char) : dropBytes (byteCount xs) (xs ++ ys) = ys := by
  induction xs with
  | nil => exact dropBytes_zero ys
  | cons x xs ih =>
    obtain ⟨n, hn⟩ := Nat.exists_eq_succ_of_ne_zero (Nat.ne_of_gt x.utf8Size_pos)
    have h : x.utf8Size + byteCount xs - x.utf8Size = byteCount xs := Nat.add_sub_cancel_left ..
    rw [hn] at h
    simp only [byteCount, hn, List.cons_append, Nat.succ_add, dropBytes]
    rw [← Nat.succ_add, h, ih]

theorem takeBytes_append (xs ys : List Char) : takeBytes (byteCount xs) (xs ++ ys) = xs := by
  induction xs with
  | nil => exact takeBytes_zero ys
  | cons x xs ih =>
    obtain ⟨n, hn⟩ := Nat.exists_eq_succ_of_ne_zero (Nat.ne_of_gt x.utf8Size_pos)
    have h : x.utf8Size + byteCount xs - x.utf8Size = byteCount xs := Nat.add_sub_cancel_left ..
    rw [hn] at h
    simp only [byteCount, hn, List.cons_append, Nat.succ_add, takeBytes]
    rw [← Nat.succ_add, h, ih]

namespace Span

/-- The smallest span that covers both. -/
def cover (s t : Span) : Span := ⟨min s.start t.start, max s.stop t.stop⟩

/-- What stands in a text between the ends of a span. -/
def slice (s : Span) (source : List Char) : List Char :=
  takeBytes (s.stop - s.start) (dropBytes s.start source)

/-- A span that starts after `xs` and is as long as `ys` cuts `ys` out. -/
theorem slice_append (xs ys zs : List Char) :
    slice ⟨byteCount xs, byteCount xs + byteCount ys⟩ (xs ++ ys ++ zs) = ys := by
  rw [slice, List.append_assoc, dropBytes_append, Nat.add_sub_cancel_left, takeBytes_append]

end Span

end PlanarLP.Formula
