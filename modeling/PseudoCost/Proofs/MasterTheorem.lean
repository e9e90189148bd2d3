import PseudoCost.Recurrence.Master
import PseudoCost.Proofs.Reals

/-!
# The bound of the master theorem is tight

Let `T(1) = 1` and `T(n) = a T(n / b) + n ^ d log ^ k n` at the powers of `b`. Unrolled down to the
leaves, `T(b ^ j)` is the number `a ^ j` of leaves times a sum over the levels (`levelSum`), in
which a level weighs `r ^ i · i ^ k` with `r = b ^ d / a`. What `r` is to one, `d` is to the
critical exponent, so the three cases of the theorem are three regimes of that sum:

* `r < 1`: the sum converges, and the leaves dominate;
* `r = 1`: it is a sum of powers, one power higher than its last term;
* `r > 1`: it is a multiple of its last term, the root.

`masterBound_sameOrder` puts them together. Logarithms and comparisons are exact here, so the case
is the order of `d` and the critical exponent and nothing else.
-/

namespace PseudoCost.Recurrence

open Tolerant Finset

/-- From one on, the first sequence stays between two positive multiples of the second. -/
def SameOrder (u v : ℕ → ℝ) : Prop :=
  ∃ C₁ > 0, ∃ C₂ > 0, ∀ j ≥ 1, C₁ * v j ≤ u j ∧ u j ≤ C₂ * v j

theorem SameOrder.mul_left {u v w : ℕ → ℝ} (h : SameOrder u v) (hw : ∀ j, 0 ≤ w j) :
    SameOrder (fun j => w j * u j) fun j => w j * v j := by
  obtain ⟨C₁, hC₁, C₂, hC₂, hle⟩ := h
  refine ⟨C₁, hC₁, C₂, hC₂, fun j hj => ?_⟩
  obtain ⟨hlow, hhigh⟩ := hle j hj
  constructor
  · calc C₁ * (w j * v j) = w j * (C₁ * v j) := by ring
      _ ≤ w j * u j := mul_le_mul_of_nonneg_left hlow (hw j)
  · calc w j * u j ≤ w j * (C₂ * v j) := mul_le_mul_of_nonneg_left hhigh (hw j)
      _ = C₂ * (w j * v j) := by ring

/-! ## The sum over the levels -/

/-- One for the leaves, and the weight of each of the `j` levels above them. -/
noncomputable def levelSum (r : ℝ) (k j : ℕ) : ℝ :=
  1 + ∑ i ∈ range j, r ^ (i + 1) * ((i + 1 : ℕ) : ℝ) ^ k

theorem one_le_levelSum {r : ℝ} (hr : 0 ≤ r) (k j : ℕ) : 1 ≤ levelSum r k j := by
  rw [levelSum, le_add_iff_nonneg_right]
  exact sum_nonneg fun i _ => by positivity

/-- Weights that shrink have a finite sum. -/
theorem levelSum_of_lt_one {r : ℝ} (hr : 0 ≤ r) (hr1 : r < 1) (k : ℕ) :
    SameOrder (levelSum r k) fun _ => 1 := by
  have hsum : Summable fun i : ℕ => (i : ℝ) ^ k * r ^ i :=
    summable_pow_mul_geometric_of_norm_lt_one k (by rwa [Real.norm_of_nonneg hr])
  have hnonneg : ∀ i : ℕ, 0 ≤ (i : ℝ) ^ k * r ^ i := fun i => by positivity
  have htotal : 0 ≤ tsum fun i : ℕ => (i : ℝ) ^ k * r ^ i := tsum_nonneg hnonneg
  refine ⟨1, one_pos, 1 + tsum fun i : ℕ => (i : ℝ) ^ k * r ^ i, by linarith,
    fun j _ => ⟨?_, ?_⟩⟩
  · simpa using one_le_levelSum hr k j
  · have hfinite : ∑ i ∈ range (j + 1), (i : ℝ) ^ k * r ^ i
        ≤ tsum fun i : ℕ => (i : ℝ) ^ k * r ^ i := hsum.sum_le_tsum _ fun i _ => hnonneg i
    rw [sum_range_succ'] at hfinite
    have hzero := hnonneg 0
    simp only [levelSum, mul_one, mul_comm (r ^ _)]
    linarith

/-- The sum of the `k`-th powers up to `j` is at least `j ^ (k + 1) / (k + 1)`. -/
theorem pow_le_sum_pow (k j : ℕ) :
    (j : ℝ) ^ (k + 1) ≤ (k + 1) * ∑ i ∈ range j, ((i + 1 : ℕ) : ℝ) ^ k := by
  induction j with
  | zero => simp
  | succ j ih =>
      -- Bernoulli's inequality for the ratio of two neighbours.
      have hpos : (0 : ℝ) < j + 1 := by positivity
      have hbernoulli := one_add_mul_le_pow (a := -1 / ((j : ℝ) + 1))
        (by rw [le_div_iff₀ hpos]; linarith) (k + 1)
      have hratio : (1 : ℝ) + -1 / (j + 1) = j / (j + 1) := by field_simp; ring
      have hstep : ((j : ℝ) + 1) ^ (k + 1) - (k + 1) * (j + 1) ^ k ≤ (j : ℝ) ^ (k + 1) := by
        rw [hratio, div_pow, le_div_iff₀ (by positivity)] at hbernoulli
        calc ((j : ℝ) + 1) ^ (k + 1) - (k + 1) * (j + 1) ^ k
            = (1 + ((k + 1 : ℕ) : ℝ) * (-1 / (j + 1))) * (j + 1) ^ (k + 1) := by
              push_cast
              field_simp
              ring
          _ ≤ (j : ℝ) ^ (k + 1) := hbernoulli
      rw [sum_range_succ, mul_add]
      push_cast at ih ⊢
      linarith

/-- Equal levels: the sum is one power above its last term. -/
theorem levelSum_one (k : ℕ) : SameOrder (levelSum 1 k) fun j => (j : ℝ) ^ (k + 1) := by
  have hpos : (0 : ℝ) < k + 1 := by positivity
  refine ⟨1 / (k + 1), by positivity, 2, two_pos, fun j hj => ?_⟩
  have hone : (1 : ℝ) ≤ j := by exact_mod_cast hj
  simp only [levelSum, one_pow, one_mul]
  constructor
  · rw [one_div, inv_mul_le_iff₀ hpos]
    have := pow_le_sum_pow k j
    nlinarith
  · have hterm : ∀ i ∈ range j, ((i + 1 : ℕ) : ℝ) ^ k ≤ (j : ℝ) ^ k := fun i hi => by
      have hij : i + 1 ≤ j := mem_range.mp hi
      gcongr
    have hsum := sum_le_card_nsmul _ _ _ hterm
    rw [card_range, nsmul_eq_mul] at hsum
    have hlast : (1 : ℝ) ≤ (j : ℝ) ^ (k + 1) := one_le_pow₀ hone
    calc 1 + ∑ i ∈ range j, ((i + 1 : ℕ) : ℝ) ^ k ≤ (j : ℝ) ^ (k + 1) + j * (j : ℝ) ^ k := by
          linarith
      _ = 2 * (j : ℝ) ^ (k + 1) := by ring

/-- Weights that grow: the sum is a multiple of its last term. -/
theorem levelSum_of_one_lt {r : ℝ} (hr : 1 < r) (k : ℕ) :
    SameOrder (levelSum r k) fun j => r ^ j * (j : ℝ) ^ k := by
  have hr0 : 0 < r - 1 := by linarith
  refine ⟨1, one_pos, 1 + r / (r - 1), by positivity, fun j hj => ?_⟩
  have hone : (1 : ℝ) ≤ j := by exact_mod_cast hj
  constructor
  · obtain ⟨i, rfl⟩ : ∃ i, j = i + 1 := ⟨j - 1, by omega⟩
    have hrest : 0 ≤ ∑ i ∈ range i, r ^ (i + 1) * ((i + 1 : ℕ) : ℝ) ^ k :=
      sum_nonneg fun i _ => by positivity
    rw [levelSum, sum_range_succ]
    linarith
  · have hterm : ∀ i ∈ range j, r ^ (i + 1) * ((i + 1 : ℕ) : ℝ) ^ k
        ≤ r ^ (i + 1) * (j : ℝ) ^ k := fun i hi => by
      have hij : i + 1 ≤ j := mem_range.mp hi
      gcongr
    have hgeom : ∑ i ∈ range j, r ^ (i + 1) ≤ r / (r - 1) * r ^ j := by
      simp only [pow_succ', ← mul_sum]
      rw [geom_sum_eq hr.ne', div_mul_eq_mul_div, mul_div_assoc']
      gcongr
      linarith
    have hfirst : (1 : ℝ) ≤ r ^ j * (j : ℝ) ^ k :=
      one_le_mul_of_one_le_of_one_le (one_le_pow₀ hr.le) (one_le_pow₀ hone)
    calc levelSum r k j ≤ 1 + ∑ i ∈ range j, r ^ (i + 1) * (j : ℝ) ^ k := by
          rw [levelSum]
          exact add_le_add_right (sum_le_sum hterm) 1
      _ = 1 + (∑ i ∈ range j, r ^ (i + 1)) * (j : ℝ) ^ k := by rw [sum_mul]
      _ ≤ r ^ j * (j : ℝ) ^ k + r / (r - 1) * r ^ j * (j : ℝ) ^ k := by gcongr
      _ = (1 + r / (r - 1)) * (r ^ j * (j : ℝ) ^ k) := by ring

/-! ## Unrolling the recurrence -/

/-- At the powers of `b`, the cost `T` is that of `a` calls on the size divided by `b` and of own
work `n ^ d log ^ k n`. The logarithm is the one to base `b`. -/
structure DividesBy (a b : ℕ) (d : ℝ) (k : ℕ) (T : ℕ → ℝ) : Prop where
  leaf : T 1 = 1
  node : ∀ j : ℕ, 1 ≤ j → T (b ^ j) = a * T (b ^ (j - 1)) + ((b : ℝ) ^ j) ^ d * (j : ℝ) ^ k

section Unrolled

variable {a b : ℕ} {d : ℝ} {k : ℕ} {T : ℕ → ℝ}

theorem DividesBy.eq_levelSum (hT : DividesBy a b d k T) (ha : 1 ≤ a) (j : ℕ) :
    T (b ^ j) = (a : ℝ) ^ j * levelSum ((b : ℝ) ^ d / a) k j := by
  have ha0 : (a : ℝ) ≠ 0 := by positivity
  induction j with
  | zero => simp [levelSum, hT.leaf]
  | succ j ih =>
      have hlevel : ((b : ℝ) ^ (j + 1)) ^ d = (a : ℝ) ^ (j + 1) * ((b : ℝ) ^ d / a) ^ (j + 1) := by
        rw [← mul_pow, mul_div_cancel₀ _ ha0, ← Real.rpow_natCast_mul b.cast_nonneg,
          ← Real.rpow_mul_natCast b.cast_nonneg, mul_comm]
      rw [hT.node (j + 1) (by omega), Nat.add_sub_cancel, ih, hlevel, levelSum, levelSum,
        sum_range_succ]
      ring

/-- The number of leaves is the size to the critical exponent. -/
theorem leaves_eq (ha : 1 ≤ a) (hb : 2 ≤ b) (j : ℕ) :
    (a : ℝ) ^ j = ((b : ℝ) ^ j) ^ Real.logb b a := by
  have hb1 : (1 : ℝ) < b := by exact_mod_cast hb
  rw [← Real.rpow_natCast_mul b.cast_nonneg, mul_comm, Real.rpow_mul_natCast b.cast_nonneg,
    Real.rpow_logb (by linarith) hb1.ne' (by exact_mod_cast ha)]

/-- The weight of a level compares with one as the degree does with the critical exponent. -/
theorem cmp_ratio (ha : 1 ≤ a) (hb : 2 ≤ b) : cmp ((b : ℝ) ^ d / a) 1 = cmp d (Real.logb b a) := by
  have hb1 : (1 : ℝ) < b := by exact_mod_cast hb
  have ha0 : (0 : ℝ) < a := by exact_mod_cast ha
  have hleaf : (b : ℝ) ^ Real.logb b a = a := Real.rpow_logb (by linarith) hb1.ne' ha0
  have hmono : StrictMono fun x : ℝ => (b : ℝ) ^ x := Real.strictMono_rpow_of_base_gt_one hb1
  rw [← hmono.cmp_map_eq d, hleaf]
  rcases lt_trichotomy ((b : ℝ) ^ d) a with h | h | h
  · rw [(cmp_eq_lt_iff _ _).mpr h, (cmp_eq_lt_iff _ _).mpr ((div_lt_one ha0).mpr h)]
  · rw [h, div_self ha0.ne', cmp_self_eq_eq, cmp_self_eq_eq]
  · rw [(cmp_eq_gt_iff _ _).mpr h, (cmp_eq_gt_iff _ _).mpr ((one_lt_div ha0).mpr h)]

end Unrolled

/-! ## The three cases -/

/-- The case for an order of the degree and the critical exponent. -/
def MasterCase.ofOrdering : Ordering → MasterCase
  | .lt => .leaves
  | .eq => .levels
  | .gt => .root

theorem val_criticalExponent {ε : ℝ} (a b : Tolerant ε) :
    (criticalExponent a b).val = Real.logb b.val a.val := rfl

/-- Without tolerance the case is the order of the degree and the critical exponent. -/
theorem masterCase_eq (a b d : Tolerant 0) :
    masterCase a b d = .ofOrdering (cmp d.val (Real.logb b.val a.val)) := by
  simp only [masterCase, lt_iff, le_iff, val_sub, val_abs, val_epsilon, sub_zero, abs_nonpos_iff,
    sub_eq_zero, val_criticalExponent]
  rcases lt_trichotomy d.val (Real.logb b.val a.val) with h | h | h
  · rw [if_pos h, (cmp_eq_lt_iff _ _).mpr h]
    rfl
  · rw [if_neg h.not_lt, if_pos h, h, cmp_self_eq_eq]
    rfl
  · rw [if_neg h.not_gt, if_neg h.ne', (cmp_eq_gt_iff _ _).mpr h]
    rfl

/-- **The bound of the master theorem is tight.** It is a growth `n ^ e log ^ m n`, in the case that
the order of the degree and the critical exponent says, and the cost at the powers of `b` stays
between two multiples of it. -/
theorem masterBound_sameOrder {a b : ℕ} (ha : 1 ≤ a) (hb : 2 ≤ b) (d : ℝ) (k : ℕ) {T : ℕ → ℝ}
    (hT : DividesBy a b d k T) :
    masterCase (Scalar.ofNat a : Tolerant 0) (Scalar.ofNat b) ⟨d⟩
        = .ofOrdering (cmp d (Real.logb b a))
      ∧ ∃ (e : ℝ) (m : ℕ),
        masterBound (Scalar.ofNat a : Tolerant 0) (Scalar.ofNat b) (Growth.polynomial ⟨d⟩ k)
            = Growth.polynomial ⟨e⟩ m
          ∧ SameOrder (fun j => T (b ^ j)) fun j => ((b : ℝ) ^ j) ^ e * (j : ℝ) ^ m := by
  have hcase : masterCase (Scalar.ofNat a : Tolerant 0) (Scalar.ofNat b) ⟨d⟩
      = .ofOrdering (cmp d (Real.logb b a)) := by
    rw [masterCase_eq, val_ofNat, val_ofNat]
  have hcritical : criticalExponent (Scalar.ofNat a : Tolerant 0) (Scalar.ofNat b)
      = ⟨Real.logb b a⟩ := by
    ext
    rw [val_criticalExponent, val_ofNat, val_ofNat]
  have ha0 : (0 : ℝ) < a := by exact_mod_cast ha
  have hb0 : (0 : ℝ) < b := by exact_mod_cast (by omega : 0 < b)
  have hleaves : ∀ j, 0 ≤ (a : ℝ) ^ j := fun j => by positivity
  refine ⟨hcase, ?_⟩
  have hratio := cmp_ratio (d := d) ha hb
  simp only [masterBound, Growth.polynomial, hcase, hT.eq_levelSum ha]
  rcases lt_trichotomy d (Real.logb b a) with h | h | h
  · rw [(cmp_eq_lt_iff _ _).mpr h] at hratio ⊢
    refine ⟨Real.logb b a, 0, by simp [MasterCase.ofOrdering, MasterCase.bound, hcritical,
      Growth.polynomial], ?_⟩
    simpa [← leaves_eq ha hb] using
      (levelSum_of_lt_one (by positivity) ((cmp_eq_lt_iff _ _).mp hratio) k).mul_left hleaves
  · rw [(cmp_eq_eq_iff _ _).mpr h] at hratio ⊢
    refine ⟨Real.logb b a, k + 1, by simp [MasterCase.ofOrdering, MasterCase.bound, hcritical,
      Growth.polynomial], ?_⟩
    rw [(cmp_eq_eq_iff _ _).mp hratio]
    simpa [← leaves_eq ha hb] using (levelSum_one k).mul_left hleaves
  · rw [(cmp_eq_gt_iff _ _).mpr h] at hratio ⊢
    refine ⟨d, k, by simp [MasterCase.ofOrdering, MasterCase.bound, Growth.polynomial], ?_⟩
    have hroot : ∀ j : ℕ, (a : ℝ) ^ j * (((b : ℝ) ^ d / a) ^ j * (j : ℝ) ^ k)
        = ((b : ℝ) ^ j) ^ d * (j : ℝ) ^ k := fun j => by
      rw [← mul_assoc, ← mul_pow, mul_div_cancel₀ _ ha0.ne', ← Real.rpow_natCast_mul hb0.le,
        ← Real.rpow_mul_natCast hb0.le, mul_comm d]
    simpa only [hroot] using
      (levelSum_of_one_lt ((cmp_eq_gt_iff _ _).mp hratio) k).mul_left hleaves

/-- The cost of sorting `n` elements by merging, for `n` a power of two. -/
noncomputable def mergeCost (n : ℕ) : ℝ := n * (Nat.log 2 n + 1)

theorem mergeCost_sameOrder :
    DividesBy 2 2 1 0 mergeCost
      ∧ masterCase (Scalar.ofNat 2 : Tolerant 0) (Scalar.ofNat 2) ⟨1⟩
        = .ofOrdering (cmp 1 (Real.logb (2 : ℕ) (2 : ℕ)))
      ∧ ∃ (e : ℝ) (m : ℕ),
        masterBound (Scalar.ofNat 2 : Tolerant 0) (Scalar.ofNat 2) (Growth.polynomial ⟨1⟩ (0 : ℕ))
            = Growth.polynomial ⟨e⟩ m
          ∧ SameOrder (fun j => mergeCost (2 ^ j))
            fun j => ((2 : ℕ) ^ j : ℝ) ^ e * (j : ℝ) ^ m := by
  have hT : DividesBy 2 2 1 0 mergeCost := by
    refine ⟨by simp [mergeCost], fun j hj => ?_⟩
    obtain ⟨i, rfl⟩ : ∃ i, j = i + 1 := ⟨j - 1, by omega⟩
    simp only [mergeCost, Nat.add_sub_cancel, Nat.log_pow Nat.one_lt_two, Real.rpow_one, pow_zero]
    push_cast
    ring
  exact ⟨hT, masterBound_sameOrder (by norm_num) le_rfl 1 0 hT⟩

end PseudoCost.Recurrence
