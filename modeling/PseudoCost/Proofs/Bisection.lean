import PseudoCost.Proofs.LinearRecurrence
import PseudoCost.Recurrence.Characteristic

/-!
# The bisection encloses the characteristic root

The root above one of `Σ aᵢ x ^ (-kᵢ) = 1` is looked for by halving an interval that starts as
`[1, s + 1]`, where `s` is the number of calls. Every power on the left is a negative one, so the
left side falls strictly on the positive numbers (`characteristic_strictAntiOn`) and there is at
most one root. It is above one at one, as there are at least two calls, and below one at `s + 1`, as
no call counts for more than `1 / (s + 1)` there.

A halving keeps the end that has the sign of the middle, so the signs at the ends are an invariant
(`Encloses`), and with them the root stays inside. The width halves every time; the middle after two
hundred halvings is therefore no further from the root than `s / 2 ^ 201` (`dominantRoot_near`). The
ends are rational numbers all the way, so exact rational arithmetic is all this takes.
-/

namespace PseudoCost.Recurrence

open Tolerant Set

variable {ε : ℝ} {ss : List Shift}

/-! ## The characteristic function -/

/-- By how much `Σ aᵢ x ^ (-kᵢ)` exceeds one. -/
noncomputable def characteristic (ss : List Shift) (x : ℝ) : ℝ :=
  (ss.map fun s => (s.calls : ℝ) * x ^ (-(s.amount : ℤ))).sum - 1

/-- The number of all calls. -/
def callCount (ss : List Shift) : ℕ := (ss.map fun s => (s.calls : ℕ)).sum

theorem characteristic_eq_load (ss : List Shift) (x : ℝ) :
    characteristic ss x = load ss x⁻¹ - 1 := by
  simp [characteristic, load]

theorem excess_eq_characteristic (ss : List Shift) {x : Tolerant ε} (hx : 0 < x.val) :
    (excess (ss.map Shift.term) x).val = characteristic ss x.val := by
  rw [excess_eq_load ss hx, characteristic_eq_load]

theorem characteristic_strictAntiOn (hss : ss ≠ []) : StrictAntiOn (characteristic ss) (Ioi 0) := by
  intro x hx y hy hxy
  have hinv : y⁻¹ < x⁻¹ := inv_strictAnti₀ hx hxy
  rw [characteristic_eq_load, characteristic_eq_load]
  exact sub_lt_sub_right (load_lt_load hss (inv_nonneg.mpr (le_of_lt hy)) hinv) 1

theorem load_continuous (ss : List Shift) : Continuous (load ss) := by
  have hpow : Continuous fun z : ℝ => (ss.map fun s => (s.calls : ℝ) * z ^ (s.amount : ℕ)).sum :=
    continuous_list_sum _ fun s _ => by fun_prop
  exact hpow

theorem characteristic_continuousOn (ss : List Shift) :
    ContinuousOn (characteristic ss) (Ioi 0) := by
  have hinv : ContinuousOn (fun x : ℝ => x⁻¹) (Ioi 0) :=
    continuousOn_inv₀.mono fun x hx => ne_of_gt hx
  have hload : ContinuousOn (fun x => load ss x⁻¹ - 1) (Ioi 0) :=
    ((load_continuous ss).comp_continuousOn hinv).sub continuousOn_const
  exact hload.congr fun x _ => characteristic_eq_load ss x

theorem load_one (ss : List Shift) : load ss 1 = callCount ss := by
  simp [load, callCount, Function.comp_def]

/-- Below one, every call counts for no more than one on the size less one. -/
theorem load_le (ss : List Shift) {z : ℝ} (hz : 0 ≤ z) (hz1 : z ≤ 1) :
    load ss z ≤ callCount ss * z := by
  rw [← load_one, load, load, ← List.sum_map_mul_right]
  refine List.sum_le_sum fun s _ => ?_
  have hpow : z ^ (s.amount : ℕ) ≤ z := pow_le_of_le_one hz hz1 s.amount.ne_zero
  simpa using mul_le_mul_of_nonneg_left hpow (Nat.cast_nonneg (s.calls : ℕ))

theorem characteristic_one_pos (hs : 2 ≤ callCount ss) : 0 < characteristic ss 1 := by
  have hs' : (2 : ℝ) ≤ callCount ss := by exact_mod_cast hs
  rw [characteristic_eq_load, inv_one, load_one]
  linarith

theorem characteristic_callCount_neg (ss : List Shift) :
    characteristic ss (callCount ss + 1) < 0 := by
  have hpos : (0 : ℝ) < callCount ss + 1 := by positivity
  have hone : ((callCount ss : ℝ) + 1)⁻¹ ≤ 1 := inv_le_one_of_one_le₀ (by linarith)
  have hload := load_le ss (inv_nonneg.mpr hpos.le) hone
  have hlt : (callCount ss : ℝ) * (callCount ss + 1 : ℝ)⁻¹ < 1 := by
    rw [← div_eq_mul_inv, div_lt_one hpos]
    exact lt_add_one _
  rw [characteristic_eq_load]
  linarith

theorem ne_nil_of_callCount (hs : 2 ≤ callCount ss) : ss ≠ [] := by
  rintro rfl
  simp [callCount] at hs

/-- The function changes its sign between one and one more than the number of calls. -/
theorem exists_characteristic_root (hs : 2 ≤ callCount ss) :
    ∃ r, 1 < r ∧ characteristic ss r = 0 := by
  have hone : (1 : ℝ) ≤ callCount ss + 1 := by
    have : (0 : ℝ) ≤ callCount ss := Nat.cast_nonneg _
    linarith
  have hcont : ContinuousOn (characteristic ss) (Icc 1 (callCount ss + 1)) :=
    (characteristic_continuousOn ss).mono fun x hx => zero_lt_one.trans_le hx.1
  have hpos := characteristic_one_pos hs
  have hneg := characteristic_callCount_neg ss
  obtain ⟨r, hr, hroot⟩ := intermediate_value_Icc' hone hcont ⟨hneg.le, hpos.le⟩
  refine ⟨r, lt_of_le_of_ne hr.1 ?_, hroot⟩
  rintro rfl
  exact hpos.ne' hroot

/-! ## Intervals -/

/-- The width of an interval. -/
noncomputable def Bracket.width (b : Bracket (Tolerant ε)) : ℝ := b.high.val - b.low.val

theorem middle_val (b : Bracket (Tolerant ε)) : b.middle.val = (b.low.val + b.high.val) / 2 := by
  simp [Bracket.middle]

theorem width_halve (g : Tolerant ε → Tolerant ε) (b : Bracket (Tolerant ε)) :
    (b.halve g).width = b.width / 2 := by
  rw [Bracket.halve]
  split <;>
  · simp only [Bracket.width, middle_val]
    ring

/-! ## The invariant of the halvings -/

/-- An interval with rational ends inside `[1, s + 1]`, above whose lower end and not below whose
upper end the characteristic function vanishes. -/
structure Encloses (ss : List Shift) (b : Bracket (Tolerant ε)) : Prop where
  low_rational : ∃ q : ℚ, b.low.val = q
  high_rational : ∃ q : ℚ, b.high.val = q
  one_le_low : 1 ≤ b.low.val
  low_lt_high : b.low.val < b.high.val
  high_le : b.high.val ≤ callCount ss + 1
  low_pos : 0 < characteristic ss b.low.val
  high_nonpos : characteristic ss b.high.val ≤ 0

theorem low_startBracket (ss : List Shift) :
    (startBracket (ss.map Shift.term) : Bracket (Tolerant ε)).low.val = 1 := val_one

theorem high_startBracket (ss : List Shift) :
    (startBracket (ss.map Shift.term) : Bracket (Tolerant ε)).high.val = callCount ss + 1 := by
  -- The calls are added up from the left, so the induction is for any start.
  have hfold : ∀ start : Tolerant ε, ((ss.map Shift.term).foldl (fun sum (t : Term (Tolerant ε)) =>
      sum + Scalar.ofInt t.multiplicity) start).val = start.val + callCount ss := by
    induction ss with
    | nil => simp [callCount]
    | cons s ss ih =>
        intro start
        rw [List.map_cons, List.foldl_cons, ih]
        simp [callCount, Shift.term, add_assoc]
  rw [startBracket, val_add, hfold, val_zero, val_one, zero_add]

namespace Encloses

variable {b : Bracket (Tolerant ε)}

theorem start (hs : 2 ≤ callCount ss) :
    Encloses ss (startBracket (ss.map Shift.term) : Bracket (Tolerant ε)) where
  low_rational := ⟨1, by rw [low_startBracket, Rat.cast_one]⟩
  high_rational := ⟨callCount ss + 1, by rw [high_startBracket]; push_cast; rfl⟩
  one_le_low := (low_startBracket ss).ge
  low_lt_high := by
    have hs' : (2 : ℝ) ≤ callCount ss := by exact_mod_cast hs
    rw [low_startBracket, high_startBracket]
    linarith
  high_le := (high_startBracket ss).le
  low_pos := by
    rw [low_startBracket]
    exact characteristic_one_pos hs
  high_nonpos := by
    rw [high_startBracket]
    exact (characteristic_callCount_neg ss).le

/-- The half that is kept has a positive lower end and an upper end that is not positive. -/
theorem halve (hb : Encloses ss b) : Encloses ss (b.halve (excess (ss.map Shift.term))) := by
  have hlow := hb.one_le_low
  have hlt := hb.low_lt_high
  have hmiddle := middle_val b
  have hrational : ∃ q : ℚ, b.middle.val = q := by
    obtain ⟨p, hp⟩ := hb.low_rational
    obtain ⟨q, hq⟩ := hb.high_rational
    exact ⟨(p + q) / 2, by rw [hmiddle, hp, hq]; push_cast; rfl⟩
  have hvalue : (excess (ss.map Shift.term) b.middle).val = characteristic ss b.middle.val :=
    excess_eq_characteristic ss (by linarith)
  rw [Bracket.halve]
  split
  · rename_i hpos
    rw [lt_iff, val_zero, hvalue] at hpos
    exact { hb with
      low_rational := hrational
      one_le_low := by linarith
      low_lt_high := by linarith
      low_pos := hpos }
  · rename_i hpos
    rw [lt_iff, val_zero, hvalue, not_lt] at hpos
    exact { hb with
      high_rational := hrational
      low_lt_high := by linarith
      high_le := by linarith [hb.high_le]
      high_nonpos := hpos }

/-- A root lies above the lower end and not above the upper one. -/
theorem mem_Ioc (hb : Encloses ss b) (hss : ss ≠ []) {r : ℝ} (hr : 0 < r)
    (hroot : characteristic ss r = 0) : r ∈ Ioc b.low.val b.high.val := by
  have hlow : 0 < b.low.val := zero_lt_one.trans_le hb.one_le_low
  have hanti := characteristic_strictAntiOn hss
  refine ⟨(hanti.lt_iff_gt hr hlow).mp ?_, (hanti.le_iff_ge (hlow.trans hb.low_lt_high) hr).mp ?_⟩
  · rw [hroot]
    exact hb.low_pos
  · rw [hroot]
    exact hb.high_nonpos

end Encloses

theorem bracketAfter_succ {R : Type} [Scalar R] (terms : List (Term R)) (n : ℕ) :
    bracketAfter terms (n + 1) = (bracketAfter terms n).halve (excess terms) := rfl

theorem encloses_bracketAfter (hs : 2 ≤ callCount ss) (n : ℕ) :
    Encloses ss (bracketAfter (ss.map Shift.term) n : Bracket (Tolerant ε)) := by
  induction n with
  | zero => exact .start hs
  | succ n ih =>
      rw [bracketAfter_succ]
      exact ih.halve

theorem width_bracketAfter (ss : List Shift) (n : ℕ) :
    (bracketAfter (ss.map Shift.term) n : Bracket (Tolerant ε)).width = callCount ss / 2 ^ n := by
  induction n with
  | zero =>
      rw [pow_zero, div_one]
      exact (congrArg₂ (· - ·) (high_startBracket ss) (low_startBracket ss)).trans
        (add_sub_cancel_right _ _)
  | succ n ih => rw [bracketAfter_succ, width_halve, ih, pow_succ, div_div]

/-! ## The distance from the root -/

/-- **The bisection encloses the characteristic root.** For any calls that take whole amounts off
the size, two or more in all, the sign that is tested is that of the characteristic function, every
interval encloses its root, it falls strictly, and the answer is within `s / 2 ^ 201` of its only
root above one. -/
theorem dominantRoot_near (hs : 2 ≤ callCount ss) :
    (∀ x : Tolerant ε, 0 < x.val →
        (excess (ss.map Shift.term) x).val = characteristic ss x.val)
      ∧ (∀ n, Encloses ss (bracketAfter (ss.map Shift.term) n : Bracket (Tolerant ε)))
      ∧ StrictAntiOn (characteristic ss) (Ioi 0)
      ∧ ∃ r, 1 < r ∧ characteristic ss r = 0
        ∧ (∀ x, 1 < x → characteristic ss x = 0 → x = r)
        ∧ |(dominantRoot (ss.map Shift.term) : Tolerant ε).val - r| ≤ callCount ss / 2 ^ 201 := by
  have hss := ne_nil_of_callCount hs
  have hanti := characteristic_strictAntiOn hss
  obtain ⟨r, hr, hroot⟩ := exists_characteristic_root hs
  have hr0 : 0 < r := zero_lt_one.trans hr
  refine ⟨fun x hx => excess_eq_characteristic ss hx, encloses_bracketAfter hs, hanti, r, hr, hroot,
    fun x hx hxroot => ?_, ?_⟩
  · exact hanti.injOn (zero_lt_one.trans hx) hr0 (hxroot.trans hroot.symm)
  · obtain ⟨hlow, hhigh⟩ := (encloses_bracketAfter (ε := ε) hs 200).mem_Ioc hss hr0 hroot
    have hwidth := width_bracketAfter (ε := ε) ss 200
    rw [dominantRoot, middle_val, pow_succ, ← div_div, ← hwidth, Bracket.width, abs_le]
    constructor <;> linarith

/-- The root of the Fibonacci recursion is found up to one part in `2 ^ 200`. -/
theorem dominantRoot_near_golden :
    2 ≤ callCount [⟨1, 1⟩, ⟨1, 2⟩]
      ∧ |(dominantRoot ([⟨1, 1⟩, ⟨1, 2⟩].map Shift.term) : Tolerant (1 / 10 ^ 9)).val
        - Real.goldenRatio| ≤ 2 / 2 ^ 201 := by
  have hs : 2 ≤ callCount [⟨1, 1⟩, ⟨1, 2⟩] := le_rfl
  obtain ⟨-, -, -, r, -, -, hunique, hnear⟩ := dominantRoot_near (ε := 1 / 10 ^ 9) hs
  have hroot : characteristic [⟨1, 1⟩, ⟨1, 2⟩] Real.goldenRatio = 0 := by
    rw [characteristic_eq_load, load_oneTwo (.inl rfl), sub_self]
  rw [hunique _ Real.one_lt_goldenRatio hroot]
  exact ⟨hs, by simpa [callCount] using hnear⟩

end PseudoCost.Recurrence
