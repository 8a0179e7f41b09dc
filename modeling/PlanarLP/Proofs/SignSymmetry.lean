import Mathlib
import PlanarLP.Binary64
import PlanarLP.Proofs.Exact

/-! Arithmetic in which the order of a difference decides its sign and nothing else. That is so of
exact numbers, and also of doubles, although these are rounded and have two zeros, infinities
and a value that is no number: rounding looks at a size, and the sign is a bit of its own. So
`y - x` is `-(x - y)`, except that equal numbers have the positive zero for a difference either
way (`Binary64.sub_comm_value`). -/

namespace PlanarLP

/-- Swapping the terms of a difference changes its sign at most. -/
class Scalar.SignSymmetric (α : Type) [Scalar α] : Prop where
  isFinite_sub_comm (x y : α) : isFinite (x - y) = isFinite (y - x)
  abs_sub_comm (x y : α) : abs (x - y) = abs (y - x)
  beq_neg_sub {x y : α} (h : isFinite (x - y) = true) : (y - x == -(x - y)) = true
  zero_sub_le (x y z : α) : 0 - (x - y) ≤ z ↔ -z ≤ 0 - (y - x)
  sub_zero (x : α) : x - 0 = x

instance : Scalar.SignSymmetric ℝ where
  isFinite_sub_comm _ _ := rfl
  abs_sub_comm := abs_sub_comm
  beq_neg_sub _ := decide_eq_true (neg_sub _ _).symm
  zero_sub_le x y z := by constructor <;> intro h <;> linarith
  sub_zero := sub_zero

namespace Binary64

open Float.Model
open Float.Model.UnpackedFloat (Sign packComponents)

/-! ## The sign bit -/

/-- The other sign bit negates the value. -/
theorem unpack_packComponents_neg {f : Format} (s : Sign) (e : BitVec f.exponentBits)
    (m : BitVec f.mantissaBitsWithoutImplicit) :
    UnpackedFloat.unpack f (packComponents f (-s) e m) =
      (UnpackedFloat.unpack f (packComponents f s e m)).neg := by
  unfold UnpackedFloat.unpack
  simp only [UnpackedFloat.unpackSign_packComponents, UnpackedFloat.unpackExponent_packComponents,
    UnpackedFloat.unpackMantissa_packComponents, Sign.ofBitVec_toBitVec]
  split
  · split <;> rfl
  · split
    · split <;> rfl
    · rfl

/-- The double that `u` is stored as. -/
def repacked (u : UnpackedFloat) : UnpackedFloat :=
  .unpack .binary64 (UnpackedFloat.pack .binary64 u)

/-- The sign goes through packing by itself. -/
theorem repacked_neg (u : UnpackedFloat) : repacked u.neg = (repacked u).neg := by
  unfold repacked
  cases u with
  | notANumber => rfl
  | infinity s => exact unpack_packComponents_neg s _ _
  | zero s => exact unpack_packComponents_neg s _ _
  | finite s m e hm =>
    rw [UnpackedFloat.neg, UnpackedFloat.pack, UnpackedFloat.pack]
    split
    · exact unpack_packComponents_neg s _ _
    · split <;> exact unpack_packComponents_neg s _ _

/-! ## Differences of values -/

/-- The same value, where the sign of a zero does not matter. -/
inductive SameValue : UnpackedFloat → UnpackedFloat → Prop
  | same (u : UnpackedFloat) : SameValue u u
  | zeros (s t : Sign) : SameValue (.zero s) (.zero t)

namespace SameValue

variable {u v w : UnpackedFloat}

theorem trans (h : SameValue u v) (h' : SameValue v w) : SameValue u w := by
  cases h with
  | same => exact h'
  | zeros s t =>
    cases h' with
    | same => exact .zeros s t
    | zeros _ t => exact .zeros s t

theorem neg (h : SameValue u v) : SameValue u.neg v.neg := by
  cases h with
  | same => exact .same _
  | zeros s t => exact .zeros _ _

theorem isFinite_eq (h : SameValue u v) : u.isFinite = v.isFinite := by cases h <;> rfl

theorem abs_eq (h : SameValue u v) : u.abs = v.abs := by cases h <;> rfl

theorem repacked (h : SameValue u v) : SameValue (repacked u) (repacked v) := by
  cases h with
  | same => exact .same _
  | zeros s t =>
    have hzero : ∀ s, Binary64.repacked (.zero s) = .zero s := by
      intro s
      cases s <;> rfl
    rw [hzero, hzero]
    exact .zeros s t

theorem compare_left (h : SameValue u v) (w : UnpackedFloat) : u.compare w = v.compare w := by
  cases h with
  | same => rfl
  | zeros s t =>
    cases w with
    | notANumber | zero => rfl
    | infinity r | finite r => cases r <;> rfl

theorem compare_right (h : SameValue u v) (w : UnpackedFloat) : w.compare u = w.compare v := by
  cases h with
  | same => rfl
  | zeros s t =>
    cases w with
    | notANumber | zero => rfl
    | infinity r | finite r => cases r <;> rfl

end SameValue

namespace Unpacked

theorem neg_neg (u : UnpackedFloat) : u.neg.neg = u := by
  cases u with
  | notANumber => rfl
  | infinity s | zero s | finite s => cases s <;> rfl

theorem abs_neg (u : UnpackedFloat) : u.neg.abs = u.abs := by cases u <;> rfl

theorem isFinite_neg (u : UnpackedFloat) : u.neg.isFinite = u.isFinite := by cases u <;> rfl

theorem compare_self {u : UnpackedFloat} (h : u.isFinite = true) : u.compare u = some .eq := by
  cases u with
  | notANumber | infinity => cases h
  | zero s => rfl
  | finite s m e => cases s <;> simp [UnpackedFloat.compare]

/-- Negation reverses the order. -/
theorem compare_neg (u v : UnpackedFloat) : u.neg.compare v.neg = v.compare u := by
  cases u with
  | notANumber => cases v <;> rfl
  | zero s =>
    cases v with
    | notANumber | zero => rfl
    | infinity t | finite t => cases t <;> rfl
  | infinity s =>
    cases v with
    | notANumber | zero => cases s <;> rfl
    | infinity t | finite t => cases s <;> cases t <;> rfl
  | finite s m e =>
    cases v with
    | notANumber | zero => cases s <;> rfl
    | infinity t => cases s <;> cases t <;> rfl
    | finite t n d =>
      have hswap : (compare e d).then (compare m n) = ((compare d e).then (compare n m)).swap := by
        rw [Ordering.swap_then, Int.compare_swap, Nat.compare_swap]
      have hback : ((compare e d).then (compare m n)).swap = (compare d e).then (compare n m) := by
        rw [hswap, Ordering.swap_swap]
      cases s <;> cases t
      · exact congrArg some hswap
      · rfl
      · rfl
      · exact congrArg some hback

theorem round_neg (f : Format) (s : Sign) (m : Nat) (e : Int) :
    UnpackedFloat.round f (-s) m e = (UnpackedFloat.round f s m e).neg := by
  unfold UnpackedFloat.round UnpackedFloat.roundWithAccuracy
  dsimp only
  split <;> rfl

theorem normalize_neg (f : Format) (m e : Int) :
    SameValue (UnpackedFloat.normalize f (-m) e .positive)
      (UnpackedFloat.normalize f m e .positive).neg := by
  unfold UnpackedFloat.normalize
  rcases lt_trichotomy m 0 with hm | rfl | hm
  · rw [compare_gt_iff_gt.mpr (neg_pos.mpr hm), compare_lt_iff_lt.mpr hm]
    exact round_neg f .negative _ _ ▸ .same _
  · exact .zeros _ _
  · rw [compare_lt_iff_lt.mpr (neg_neg_of_pos hm), compare_gt_iff_gt.mpr hm]
    dsimp only
    rw [Int.neg_neg]
    exact round_neg f .positive _ _ ▸ .same _

/-- Swapping the terms of a difference negates it. -/
theorem sub_comm (f : Format) (u v : UnpackedFloat) :
    SameValue (UnpackedFloat.sub f v u) (UnpackedFloat.sub f u v).neg := by
  cases u with
  | notANumber => cases v <;> exact .same _
  | infinity s =>
    cases v with
    | infinity t => cases s <;> cases t <;> exact .same _
    | notANumber | zero | finite => exact .same _
  | zero s =>
    cases v with
    | notANumber => exact .same _
    | zero t => cases s <;> cases t <;> exact .zeros _ _
    | infinity t | finite t => cases t <;> exact .same _
  | finite s m e =>
    cases v with
    | notANumber | zero => exact .same _
    | infinity t => cases t <;> exact .same _
    | finite t n d =>
      unfold UnpackedFloat.sub UnpackedFloat.decreaseExponent
      dsimp only
      rw [min_comm d e, ← neg_sub]
      exact normalize_neg f _ _

end Unpacked

/-! ## Differences of doubles -/

/-- What the bits of a double stand for. -/
def unpacked (x : Float) : UnpackedFloat := x.toModel.unpack

variable {x y z : Float}

theorem repacked_unpacked (x : Float) : repacked (unpacked x) = unpacked x :=
  congrArg (UnpackedFloat.unpack .binary64) (UnpackedFloat.pack_unpack_of_valid x.toModel.valid)

theorem eq_of_unpacked (h : unpacked x = unpacked y) : x = y := by
  have hbits := (UnpackedFloat.unpack_inj_of_valid x.toModel.valid y.toModel.valid).mp h
  exact Float.toBits_inj.mp (UInt64.toBitVec_inj.mp hbits)

theorem unpacked_zero : unpacked 0 = .zero .positive := rfl

theorem unpacked_sub (x y : Float) :
    unpacked (x - y) = repacked (.sub .binary64 (unpacked x) (unpacked y)) := rfl

theorem unpacked_neg (x : Float) : unpacked (-x) = (unpacked x).neg :=
  (repacked_neg (unpacked x)).trans (congrArg UnpackedFloat.neg (repacked_unpacked x))

theorem unpacked_abs (x : Float) : unpacked (Float.abs x) = (unpacked x).abs := by
  have habs : (unpacked x).abs = unpacked x ∨ (unpacked x).abs = (unpacked x).neg := by
    cases unpacked x with
    | notANumber => exact .inl rfl
    | infinity s | zero s | finite s => cases s with
      | negative => exact .inr rfl
      | positive => exact .inl rfl
  show repacked (unpacked x).abs = _
  rcases habs with h | h <;> rw [h]
  · exact repacked_unpacked x
  · rw [repacked_neg, repacked_unpacked]

theorem le_iff (x y : Float) :
    x ≤ y ↔ ((unpacked x).compare (unpacked y)).any (·.isLE) = true := decide_eq_true_iff

theorem beq_iff (x y : Float) :
    (x == y) = true ↔ (unpacked x).compare (unpacked y) = some .eq :=
  beq_iff_eq (a := (unpacked x).compare (unpacked y)) (b := some .eq)

/-- Both differences of two doubles have the same value, but for the sign. -/
theorem sub_comm_value (x y : Float) :
    SameValue (unpacked (y - x)) (unpacked (x - y)).neg := by
  rw [unpacked_sub, unpacked_sub, ← repacked_neg]
  exact (Unpacked.sub_comm .binary64 (unpacked x) (unpacked y)).repacked

theorem sub_zero (x : Float) : x - 0 = x := by
  have hsub : UnpackedFloat.sub .binary64 (unpacked x) (.zero .positive) = unpacked x := by
    cases unpacked x with
    | zero s => cases s <;> rfl
    | notANumber | infinity | finite => rfl
  refine eq_of_unpacked ?_
  rw [unpacked_sub, unpacked_zero, hsub, repacked_unpacked]

/-- What is taken from nothing. -/
theorem zero_sub_value (x : Float) : SameValue (unpacked (0 - x)) (unpacked x).neg := by
  have h := sub_comm_value x 0
  rwa [sub_zero] at h

theorem zero_sub_sub_value (x y : Float) :
    SameValue (unpacked (0 - (y - x))) (unpacked (x - y)) := by
  have h := (zero_sub_value (y - x)).trans (sub_comm_value x y).neg
  rwa [Unpacked.neg_neg] at h

end Binary64

open Binary64 in
instance : Scalar.SignSymmetric Float where
  isFinite_sub_comm x y := by
    have h := (sub_comm_value x y).isFinite_eq
    rw [Unpacked.isFinite_neg] at h
    exact h.symm
  abs_sub_comm x y := by
    refine eq_of_unpacked ?_
    show unpacked (Float.abs (x - y)) = unpacked (Float.abs (y - x))
    rw [unpacked_abs, unpacked_abs, (sub_comm_value x y).abs_eq, Unpacked.abs_neg]
  beq_neg_sub {x y} h := by
    have hfinite : (unpacked (x - y)).neg.isFinite = true := (Unpacked.isFinite_neg _).trans h
    refine (beq_iff (y - x) (-(x - y))).mpr ?_
    rw [unpacked_neg, (sub_comm_value x y).compare_left, Unpacked.compare_self hfinite]
  zero_sub_le x y z := by
    have hneg := Unpacked.compare_neg (unpacked z) (unpacked (x - y)).neg
    rw [Unpacked.neg_neg] at hneg
    refine (le_iff (0 - (x - y)) z).trans (Iff.trans ?_ (le_iff (-z) (0 - (y - x))).symm)
    rw [(zero_sub_value (x - y)).compare_left, (zero_sub_sub_value x y).compare_right,
      unpacked_neg, hneg]
  sub_zero := Binary64.sub_zero

end PlanarLP
