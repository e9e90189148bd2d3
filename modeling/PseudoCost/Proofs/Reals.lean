import Mathlib
import PseudoCost.Number.Scalar

/-!
# Real scalars

The analysis read over the real numbers: every operation is exact, and only the tolerance of
comparisons remains. It is a parameter, so that statements can be made for the tolerance the
analysis runs with, for none at all, or for any. `Tolerant ε` is the type of these scalars; the
lemmas here turn the operations of the class into those of the reals, so that no proof has to open
the instance.

A comparison `order` forgives differences up to the tolerance and is therefore not transitive. On
a set of values that are pairwise equal or further apart (`Apart`) it is the order of the reals
(`order_eq_cmp`).
-/

namespace PseudoCost

/-- The real number an exact value stands for; zero where it stands for none. -/
noncomputable def Exact.real : Exact → ℝ
  | .finite false num den => num / den
  | .finite true num den => -(num / den)
  | _ => 0

/-- A real number, in comparisons up to the tolerance `ε`. -/
@[ext] structure Tolerant (ε : ℝ) where
  val : ℝ

namespace Tolerant

variable {ε : ℝ}

/-- The nearest integer, halves going away from zero. -/
noncomputable def roundAway (x : ℝ) : ℝ := if x < 0 then -⌊-x + 1 / 2⌋ else ⌊x + 1 / 2⌋

/-- The exact value of a real as a report shows it: cut off after nine places. -/
noncomputable def nineDigits (x : ℝ) : Exact :=
  open Classical in .finite (decide (x < 0)) ⌊|x| * 10 ^ 9⌋₊ (10 ^ 9)

noncomputable instance : Scalar (Tolerant ε) where
  add a b := ⟨a.val + b.val⟩
  sub a b := ⟨a.val - b.val⟩
  mul a b := ⟨a.val * b.val⟩
  div a b := ⟨a.val / b.val⟩
  neg a := ⟨-a.val⟩
  lt a b := a.val < b.val
  le a b := a.val ≤ b.val
  decideLt _ _ := Classical.propDecidable _
  decideLe _ _ := Classical.propDecidable _
  ofExact x := ⟨x.real⟩
  exact a := nineDigits a.val
  pow a b := ⟨a.val ^ b.val⟩
  ln a := ⟨Real.log a.val⟩
  log2 a := ⟨Real.logb 2 a.val⟩
  floor a := ⟨⌊a.val⌋⟩
  round a := ⟨roundAway a.val⟩
  golden := ⟨(1 + √5) / 2⟩
  epsilon := ⟨ε⟩

/-! ## Operations -/

@[simp] theorem val_add (a b : Tolerant ε) : (a + b).val = a.val + b.val := rfl

@[simp] theorem val_sub (a b : Tolerant ε) : (a - b).val = a.val - b.val := rfl

@[simp] theorem val_mul (a b : Tolerant ε) : (a * b).val = a.val * b.val := rfl

@[simp] theorem val_div (a b : Tolerant ε) : (a / b).val = a.val / b.val := rfl

@[simp] theorem val_neg (a : Tolerant ε) : (-a).val = -a.val := rfl

@[simp] theorem lt_iff (a b : Tolerant ε) : a < b ↔ a.val < b.val := Iff.rfl

@[simp] theorem le_iff (a b : Tolerant ε) : a ≤ b ↔ a.val ≤ b.val := Iff.rfl

@[simp] theorem val_pow (a b : Tolerant ε) : (Scalar.pow a b).val = a.val ^ b.val := rfl

@[simp] theorem val_ln (a : Tolerant ε) : (Scalar.ln a).val = Real.log a.val := rfl

@[simp] theorem val_epsilon : (Scalar.epsilon : Tolerant ε).val = ε := rfl

@[simp] theorem val_ofInt (i : Int) : (Scalar.ofInt i : Tolerant ε).val = i := by
  show (Exact.ofInt i).real = i
  rcases lt_or_ge i 0 with h | h
  · simp [Exact.ofInt, h, Exact.real, abs_of_neg h]
  · simp [Exact.ofInt, not_lt.mpr h, Exact.real, abs_of_nonneg h]

@[simp] theorem val_ofNat (n : ℕ) : (Scalar.ofNat n : Tolerant ε).val = n := by
  simp [Scalar.ofNat]

@[simp] theorem val_zero : (Scalar.zero : Tolerant ε).val = 0 := by
  simp [Scalar.zero, Scalar.ofNat]

@[simp] theorem val_one : (Scalar.one : Tolerant ε).val = 1 := by
  simp [Scalar.one, Scalar.ofNat]

@[simp] theorem val_two : (Scalar.two : Tolerant ε).val = 2 := by
  simp [Scalar.two, Scalar.ofNat]

@[simp] theorem val_abs (a : Tolerant ε) : (Scalar.abs a).val = |a.val| := by
  rw [Scalar.abs]
  split
  · rename_i h
    simp only [lt_iff, val_zero] at h
    rw [val_neg, abs_of_neg h]
  · rename_i h
    simp only [lt_iff, val_zero, not_lt] at h
    rw [abs_of_nonneg h]

/-! ## Comparisons -/

/-- Values that are pairwise equal or further apart than the tolerance. -/
def Apart (ε : ℝ) (s : Set ℝ) : Prop := ∀ x ∈ s, ∀ y ∈ s, x = y ∨ ε < |x - y|

/-- On values that are apart, the tolerance makes no difference. -/
theorem order_eq_cmp (hε : 0 ≤ ε) {s : Set ℝ} (hs : Apart ε s) {a b : Tolerant ε}
    (ha : a.val ∈ s) (hb : b.val ∈ s) : Scalar.order a b = cmp a.val b.val := by
  simp only [Scalar.order, lt_iff, val_epsilon, val_sub, val_neg]
  rcases lt_trichotomy a.val b.val with h | h | h
  · have hapart : ε < |a.val - b.val| := (hs _ ha _ hb).resolve_left h.ne
    rw [abs_of_neg (sub_neg.mpr h)] at hapart
    rw [if_neg (by linarith), if_pos (by linarith), (cmp_eq_lt_iff _ _).mpr h]
  · rw [h, sub_self, if_neg (not_lt.mpr hε), if_neg (by simpa using hε), cmp_self_eq_eq]
  · have hapart : ε < |a.val - b.val| := (hs _ ha _ hb).resolve_left h.ne'
    rw [abs_of_pos (sub_pos.mpr h)] at hapart
    rw [if_pos hapart, (cmp_eq_gt_iff _ _).mpr h]

end Tolerant

end PseudoCost
