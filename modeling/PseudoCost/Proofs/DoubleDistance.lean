import Mathlib
import PseudoCost.Number.Double

/-!
# The distance of two doubles

Two scalars count as equal if the absolute value of their difference is below the tolerance. In
floating point this does not depend on which of the two comes first (`near_comm`), although a
difference of equal numbers is the positive zero both ways and one that is not a number stays so.

A double is looked at as its parts, a sign, a mantissa and an exponent. Taken the other way around,
a difference changes its sign or nothing at all (`sub_swap`). Rounding and encoding treat both signs
alike (`unpack_pack_neg`), and an absolute value is compared by its parts without the sign
(`abs_lt_iff`).
-/

open Float.Model (UnpackedFloat Format)
open Float.Model.UnpackedFloat (Sign packComponents)

namespace PseudoCost.Double

/-! ## Signs -/

/-- A number in parts without its sign. -/
def magnitude : UnpackedFloat → UnpackedFloat
  | .infinity _ => .infinity .positive
  | .notANumber => .notANumber
  | .zero _ => .zero .positive
  | .finite _ mantissa exponent positive => .finite .positive mantissa exponent positive

theorem magnitude_neg (x : UnpackedFloat) : magnitude x.neg = magnitude x := by
  cases x <;> rfl

theorem round_neg (spec : Format) (s : Sign) (m : ℕ) (e : ℤ) :
    UnpackedFloat.round spec (-s) m e = (UnpackedFloat.round spec s m e).neg := by
  simp only [UnpackedFloat.round, UnpackedFloat.roundWithAccuracy]
  split <;> rfl

theorem normalize_neg (spec : Format) (m e : ℤ) (s : Sign) :
    UnpackedFloat.normalize spec (-m) e s = (UnpackedFloat.normalize spec m e s).neg
      ∨ UnpackedFloat.normalize spec (-m) e s = UnpackedFloat.normalize spec m e s := by
  rcases lt_trichotomy m 0 with h | rfl | h
  · left
    have hneg : compare (-m) 0 = .gt := compare_gt_iff_gt.mpr (by omega)
    rw [UnpackedFloat.normalize, UnpackedFloat.normalize, compare_lt_iff_lt.mpr h, hneg]
    exact round_neg spec .negative _ _
  · exact Or.inr rfl
  · left
    have hneg : compare (-m) 0 = .lt := compare_lt_iff_lt.mpr (by omega)
    rw [UnpackedFloat.normalize, UnpackedFloat.normalize, compare_gt_iff_gt.mpr h, hneg,
      Int.neg_neg]
    exact round_neg spec .positive _ _

/-- A difference taken the other way around changes its sign or nothing. It does not change where
it is no number, or the zero of equal numbers, which is positive. -/
theorem sub_swap (spec : Format) (a b : UnpackedFloat) :
    b.sub spec a = (a.sub spec b).neg ∨ b.sub spec a = a.sub spec b := by
  rcases a with s | _ | s | ⟨s, m, e, h⟩ <;> rcases b with t | _ | t | ⟨t, n, f, k⟩
  case finite.finite =>
    simp only [UnpackedFloat.sub, UnpackedFloat.decreaseExponent]
    rw [Int.min_comm f e, ← Int.neg_sub (s.apply _)]
    exact normalize_neg spec _ _ _
  case notANumber.infinity | notANumber.notANumber | notANumber.zero | notANumber.finite =>
    exact Or.inr rfl
  all_goals cases s <;> try cases t
  all_goals first
    | exact Or.inl rfl
    | exact Or.inr rfl

theorem unpack_packComponents_neg {spec : Format} (s : Sign) (e : BitVec spec.exponentBits)
    (m : BitVec spec.mantissaBitsWithoutImplicit) :
    UnpackedFloat.unpack spec (packComponents spec (-s) e m)
      = (UnpackedFloat.unpack spec (packComponents spec s e m)).neg := by
  simp only [UnpackedFloat.unpack, UnpackedFloat.unpackExponent_packComponents,
    UnpackedFloat.unpackMantissa_packComponents, UnpackedFloat.unpackSign_packComponents,
    Sign.ofBitVec_toBitVec]
  split
  · split <;> rfl
  · split
    · split <;> rfl
    · rfl

/-- Encoding and decoding a number commutes with a change of sign. -/
theorem unpack_pack_neg (spec : Format) (x : UnpackedFloat) :
    UnpackedFloat.unpack spec (UnpackedFloat.pack spec x.neg)
      = (UnpackedFloat.unpack spec (UnpackedFloat.pack spec x)).neg := by
  cases x with
  | notANumber => rw [UnpackedFloat.neg, UnpackedFloat.pack, UnpackedFloat.unpack_packedNaN]; rfl
  | infinity s => exact unpack_packComponents_neg s _ _
  | zero s => exact unpack_packComponents_neg s _ _
  | finite s m e h =>
      simp only [UnpackedFloat.neg, UnpackedFloat.pack]
      split
      · exact unpack_packComponents_neg s _ _
      · split <;> exact unpack_packComponents_neg s _ _

/-! ## Absolute values -/

theorem zero_lt (s t : Sign) (y : UnpackedFloat) :
    (UnpackedFloat.zero s).lt y = (UnpackedFloat.zero t).lt y := by
  rcases y with u | _ | u | ⟨u, m, e, h⟩ <;> try cases u
  all_goals rfl

/-- An absolute value in parts is the magnitude, but for the sign of a zero. -/
theorem abs_eq_or (x : UnpackedFloat) :
    (if x.lt (.zero .positive) then x.neg else x) = magnitude x ∨ ∃ s, x = .zero s := by
  rcases x with s | _ | s | ⟨s, m, e, h⟩
  case zero => exact Or.inr ⟨s, rfl⟩
  case notANumber => exact Or.inl rfl
  all_goals cases s <;> exact Or.inl rfl

theorem abs_lt (x y : UnpackedFloat) :
    (if x.lt (.zero .positive) then x.neg else x).lt y = (magnitude x).lt y := by
  rcases abs_eq_or x with h | ⟨s, rfl⟩
  · rw [h]
  · exact zero_lt _ _ _

/-! ## Doubles in parts -/

/-- The parts of a double. -/
def parts (x : Double) : UnpackedFloat := x.value.toModel.unpack

theorem lt_iff (a b : Double) : a < b ↔ a.parts.lt b.parts = true :=
  show a.value < b.value ↔ _ from decide_eq_true_iff

theorem parts_zero : parts Scalar.zero = .zero .positive := rfl

theorem parts_neg (a : Double) : (-a).parts = a.parts.neg := by
  have hvalid : UnpackedFloat.pack .binary64 a.parts = a.value.toModel.toBits.toBitVec :=
    UnpackedFloat.pack_unpack_of_valid a.value.toModel.valid
  have hneg := unpack_pack_neg .binary64 a.parts
  rw [hvalid] at hneg
  exact hneg

theorem parts_sub (a b : Double) : (a - b).parts
    = UnpackedFloat.unpack .binary64
        (UnpackedFloat.pack .binary64 (a.parts.sub .binary64 b.parts)) := rfl

theorem abs_lt_iff (a b : Double) :
    Scalar.abs a < b ↔ (magnitude a.parts).lt b.parts = true := by
  rw [lt_iff, ← abs_lt, Scalar.abs]
  simp only [lt_iff, parts_zero]
  split
  · rw [parts_neg]
  · rfl

theorem magnitude_sub_comm (a b : Double) :
    magnitude (a - b).parts = magnitude (b - a).parts := by
  rw [parts_sub, parts_sub]
  rcases sub_swap .binary64 a.parts b.parts with h | h
  · rw [h, unpack_pack_neg, magnitude_neg]
  · rw [h]

/-- Of two doubles that count as equal either may come first. -/
theorem near_comm (a b : Double) : Scalar.near a b = Scalar.near b a := by
  rw [Scalar.near, Scalar.near, Bool.eq_iff_iff, decide_eq_true_iff, decide_eq_true_iff, abs_lt_iff,
    abs_lt_iff, magnitude_sub_comm]

end PseudoCost.Double
