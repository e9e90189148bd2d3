import PseudoCost.Recurrence.Solution
import PseudoCost.Proofs.Reals

/-!
# The bound of a linear recurrence is tight

Let every call take a whole number off the size: `T(n) = Σ aᵢ T(n - kᵢ) + f(n)` above the largest
`kᵢ`, and `T(n) = 1` up to it, with `f(n) = n ^ d log ^ q n`. The solver has four answers, collected
in `LinearBound`, and each is the order of `T` (`solveWith_isTheta`).

One call costs a sum of about `n / k` values of `f`, half of which are about `f(n)`
(`Unfolds.isTheta_single`). All other cases are exponential with a base `x > 1` at which the weights
`aᵢ x ^ (-kᵢ)` sum up to one:

* from below, `T` keeps above a multiple of `x ^ n`, since `f` only adds to it;
* from above, `x ^ n` alone is not enough of an invariant, as `f` has to be paid for. Under a base
  `y < x` the weights sum up to more than one, so taking a multiple of `y ^ n` off leaves a surplus
  of that order, and `f` is below it.
-/

namespace PseudoCost

open Tolerant Filter Asymptotics

variable {ε : ℝ}

/-! ## Growths as functions -/

namespace Growth

/-- The function a growth stands for: `n ^ degree · log ^ logPower n · expBase ^ n`, without the
last factor when no base is written. What the analysis evaluates agrees with it
(`evaluate_eq_curve`). -/
noncomputable def curve (g : Growth (Tolerant ε)) (n : ℕ) : ℝ :=
  (n : ℝ) ^ g.degree.val * Real.logb (2 : ℕ) n ^ g.logPower
    * (if g.expBase.val = 0 then 1 else g.expBase.val) ^ n

theorem curve_exponential {x : ℝ} (hx : x ≠ 0) :
    curve (exponential (⟨x⟩ : Tolerant ε)) = fun n => x ^ n := by
  funext n
  simp [curve, exponential, hx]

/-- The logarithm as the analysis evaluates it: one up to size two. -/
noncomputable def logFactor (n : ℕ) : ℝ := if 2 < n then Real.logb (2 : ℕ) n else 1

theorem logFactor_eq (n : ℕ) : logFactor n = if 2 < n then Real.logb 2 n else 1 := by
  rw [logFactor, Nat.cast_ofNat]

theorem logb_le_logFactor (n : ℕ) : Real.logb 2 n ≤ logFactor n := by
  rw [logFactor_eq]
  split
  · exact le_rfl
  · rename_i h
    rcases Nat.eq_zero_or_pos n with rfl | hn
    · simp
    · rw [Real.logb_le_iff_le_rpow one_lt_two (by exact_mod_cast hn), Real.rpow_one]
      exact_mod_cast not_lt.mp h

theorem logFactor_of_two_le {n : ℕ} (hn : 2 ≤ n) : logFactor n = Real.logb 2 n := by
  rw [logFactor_eq]
  split
  · rfl
  · obtain rfl : n = 2 := by omega
    simp

theorem one_le_logFactor (n : ℕ) : 1 ≤ logFactor n := by
  rcases le_or_gt n 2 with h | h
  · rw [logFactor_eq, if_neg (not_lt.mpr h)]
  · rw [logFactor_eq, if_pos h, Real.le_logb_iff_rpow_le one_lt_two (by positivity), Real.rpow_one]
    exact_mod_cast h.le

theorem logFactor_mono : Monotone logFactor := by
  intro m n hmn
  rcases le_or_gt m 2 with h | h
  · rw [logFactor_eq, if_neg (not_lt.mpr h)]
    exact one_le_logFactor n
  · have hm : (0 : ℝ) < m := by exact_mod_cast (by omega : 0 < m)
    rw [logFactor_eq, logFactor_eq, if_pos h, if_pos (by omega)]
    exact Real.logb_le_logb_of_le one_lt_two hm (by exact_mod_cast hmn)

/-- The function `n ^ d log ^ q n` as the analysis evaluates it. -/
noncomputable def polyLog (d : ℝ) (q n : ℕ) : ℝ := (n : ℝ) ^ d * logFactor n ^ q

theorem evaluate_polynomial (hε : 0 ≤ ε) (d : ℝ) (q n : ℕ) :
    ((polynomial (⟨d⟩ : Tolerant ε) q).evaluate (Scalar.ofNat n)).val
      = polyLog d q n := by
  rw [polyLog]
  have hplain : ¬ 1 + ε < 0 := by linarith
  have hlog : (if 2 < n then Scalar.log2 (Scalar.ofNat n) else Scalar.one : Tolerant ε).val
      = logFactor n := by
    rw [logFactor_eq]
    split
    · show Real.logb 2 (Scalar.ofNat n : Tolerant ε).val = _
      rw [val_ofNat]
    · exact val_one
  rcases Nat.eq_zero_or_pos q with rfl | hq
  · simp [evaluate, polynomial, isExponential, hplain]
  · simp [evaluate, polynomial, isExponential, hplain, hlog, hq]

/-- From size two on, a growth is evaluated as the function it stands for. A base between zero and
what counts as exponential is the exception: it is written in the function but not multiplied. -/
theorem evaluate_eq_curve (hε : 0 ≤ ε) {g : Growth (Tolerant ε)} (hlog : 0 ≤ g.logPower)
    (hbase : g.isExponential = true ∨ g.expBase.val = 0) {n : ℕ} (hn : 2 ≤ n) :
    (g.evaluate (Scalar.ofNat n)).val = g.curve n := by
  obtain ⟨d, q, b⟩ := g
  obtain ⟨q, rfl⟩ := Int.eq_ofNat_of_zero_le hlog
  have hpoly := evaluate_polynomial hε d.val q n
  have hplain : (polynomial d (q : ℤ)).isExponential = false := by
    have hlt : ¬ 1 + ε < 0 := by linarith
    simpa [isExponential, polynomial] using hlt
  have hcurve : polyLog d.val q n = (n : ℝ) ^ d.val * Real.logb (2 : ℕ) n ^ (q : ℤ) := by
    rw [polyLog, logFactor_of_two_le hn, zpow_natCast, Nat.cast_ofNat]
  rw [curve, ← hcurve, ← hpoly]
  cases hexp : (⟨d, q, b⟩ : Growth (Tolerant ε)).isExponential with
  | true =>
      have hb : b.val ≠ 0 := by
        have hlt : 1 + ε < b.val := by simpa [isExponential] using hexp
        linarith
      rw [evaluate, evaluate, hexp, hplain, if_neg hb]
      show (_ * Scalar.pow b (Scalar.ofNat n)).val = _
      rw [val_mul, val_pow, val_ofNat, Real.rpow_natCast]
      rfl
  | false =>
      have hb : b.val = 0 := hbase.resolve_left (by simp [hexp])
      rw [evaluate, evaluate, hexp, hplain, if_pos hb, one_pow, mul_one]
      rfl

section PolyLog

variable {d : ℝ} (hd : 0 ≤ d) (q : ℕ)
include hd

theorem polyLog_mono : Monotone (polyLog d q) := by
  intro m n hmn
  have hlog := logFactor_mono hmn
  have hone := one_le_logFactor m
  rw [polyLog, polyLog]
  gcongr

theorem one_le_polyLog {n : ℕ} (hn : 1 ≤ n) : 1 ≤ polyLog d q n :=
  one_le_mul_of_one_le_of_one_le (Real.one_le_rpow (by exact_mod_cast hn) hd)
    (one_le_pow₀ (one_le_logFactor n))

/-- Halving the size costs at most a constant factor. -/
theorem polyLog_half {m n : ℕ} (hn : 4 ≤ n) (hm : n ≤ 2 * m) :
    2⁻¹ ^ d * 2⁻¹ ^ q * polyLog d q n ≤ polyLog d q m := by
  have hm' : (2⁻¹ : ℝ) * n ≤ m := by
    rw [inv_mul_le_iff₀ two_pos]
    exact_mod_cast hm
  have hlog : (2⁻¹ : ℝ) * logFactor n ≤ logFactor m := by
    have hn0 : (0 : ℝ) < n := by positivity
    have htwo : (2 : ℝ) ≤ Real.logb 2 n := by
      rw [Real.le_logb_iff_rpow_le one_lt_two hn0]
      exact_mod_cast hn
    have hshift : Real.logb 2 n - 1 ≤ Real.logb 2 m := by
      have hle := Real.logb_le_logb_of_le one_lt_two (by positivity) hm'
      rw [Real.logb_mul (by norm_num) hn0.ne', Real.logb_inv, Real.logb_self_eq_one one_lt_two]
        at hle
      linarith
    rw [logFactor_of_two_le (by omega)]
    linarith [logb_le_logFactor m]
  have hlog0 : 0 ≤ logFactor n := zero_le_one.trans (one_le_logFactor n)
  calc (2⁻¹ : ℝ) ^ d * 2⁻¹ ^ q * polyLog d q n = (2⁻¹ * n) ^ d * (2⁻¹ * logFactor n) ^ q := by
        rw [polyLog, Real.mul_rpow (by positivity) n.cast_nonneg, mul_pow]
        ring
    _ ≤ polyLog d q m := by
        rw [polyLog]
        gcongr

/-- Powers and logarithms stay below every exponential. -/
theorem polyLog_isBigO {y : ℝ} (hy : 1 < y) : polyLog d q =O[atTop] fun n => y ^ n := by
  have hpow : polyLog d q =O[atTop] fun n => (n : ℝ) ^ (⌈d⌉₊ + q) := by
    refine IsBigO.of_bound 1 ((eventually_ge_atTop 2).mono fun n hn => ?_)
    have hone : (1 : ℝ) ≤ n := by exact_mod_cast (by omega : 1 ≤ n)
    have hlog : logFactor n ≤ n := by
      rw [logFactor_of_two_le hn, Real.logb_le_iff_le_rpow one_lt_two (by linarith)]
      exact_mod_cast n.lt_two_pow_self.le
    have hdeg : (n : ℝ) ^ d ≤ (n : ℝ) ^ ⌈d⌉₊ := by
      rw [← Real.rpow_natCast]
      exact Real.rpow_le_rpow_of_exponent_le hone (Nat.le_ceil d)
    have hlog0 : 0 ≤ logFactor n := zero_le_one.trans (one_le_logFactor n)
    have hwork : 0 ≤ polyLog d q n := zero_le_one.trans (one_le_polyLog hd q (by omega))
    rw [Real.norm_of_nonneg hwork, Real.norm_of_nonneg (by positivity), one_mul, pow_add, polyLog]
    gcongr
  exact hpow.trans (isLittleO_pow_const_const_pow_of_one_lt _ hy).isBigO

end PolyLog

end Growth

namespace Recurrence

/-! ## Shifts and their weights -/

/-- Some calls that each take the same amount off the size. -/
structure Shift where
  calls : ℕ+
  amount : ℕ+
deriving DecidableEq

/-- The term of a relation that a shift makes. -/
def Shift.term (s : Shift) : Term (Tolerant ε) := ⟨.subtract ⟨(s.amount : ℕ)⟩, (s.calls : ℕ)⟩

/-- The largest amount taken off. -/
def largestAmount (ss : List Shift) : ℕ := ss.foldr (fun s k => max s.amount k) 0

theorem amount_le_largest {ss : List Shift} {s : Shift} (hs : s ∈ ss) :
    (s.amount : ℕ) ≤ largestAmount ss := by
  induction ss with
  | nil => cases hs
  | cons t ss ih =>
      rcases List.mem_cons.mp hs with rfl | hs
      · exact le_max_left _ _
      · exact (ih hs).trans (le_max_right _ _)

/-- What the calls at size `n` cost, if a call on a size costs what `u` says. -/
def callSum (ss : List Shift) (u : ℕ → ℝ) (n : ℕ) : ℝ :=
  (ss.map fun s => (s.calls : ℝ) * u (n - s.amount)).sum

/-- The cost `T` of calls that take the given amounts off, with own work `f`: one as long as some
call would have nothing left, and that of the calls and the own work above. -/
structure Unfolds (ss : List Shift) (f T : ℕ → ℝ) : Prop where
  leaf : ∀ n ≤ largestAmount ss, T n = 1
  node : ∀ n, largestAmount ss < n → T n = callSum ss T n + f n

/-- The sum of the weights `a z ^ k` of `a` calls on the size less `k`. -/
noncomputable def load (ss : List Shift) (z : ℝ) : ℝ :=
  (ss.map fun s => (s.calls : ℝ) * z ^ (s.amount : ℕ)).sum

theorem excess_eq_load (ss : List Shift) {x : Tolerant ε} (hx : 0 < x.val) :
    (excess (ss.map Shift.term) x).val = load ss x.val⁻¹ - 1 := by
  -- The sum is accumulated from the left, so the induction is for any start.
  have hfold : ∀ start : Tolerant ε, ((ss.map Shift.term).foldl (fun sum t =>
      sum + Scalar.ofInt t.multiplicity * Scalar.pow x (-t.change.amount)) start).val
        = start.val + load ss x.val⁻¹ := by
    induction ss with
    | nil => simp [load]
    | cons s ss ih =>
        intro start
        rw [List.map_cons, List.foldl_cons, ih]
        simp [load, Shift.term, SizeChange.subtract, Real.rpow_neg hx.le, add_assoc]
  rw [excess, val_sub, hfold, val_zero, val_one, zero_add]

/-- The weights grow with `z`, strictly if there are any. -/
theorem load_lt_load {ss : List Shift} (hss : ss ≠ []) {y z : ℝ} (hy : 0 ≤ y) (hyz : y < z) :
    load ss y < load ss z := by
  refine List.sum_lt_sum_of_ne_nil hss _ _ fun s _ => ?_
  have hcalls : (0 : ℝ) < s.calls := by exact_mod_cast s.calls.pos
  have hpow := pow_lt_pow_left₀ hyz hy s.amount.ne_zero
  gcongr

theorem callSum_mono {ss : List Shift} {u v : ℕ → ℝ} {n : ℕ} (hn : 0 < n)
    (huv : ∀ m < n, u m ≤ v m) : callSum ss u n ≤ callSum ss v n := by
  refine List.sum_le_sum fun s _ => ?_
  have hle := huv (n - s.amount) (Nat.sub_lt hn s.amount.pos)
  gcongr

/-- Calls that cost a power of their size cost the load times the power of the whole size. -/
theorem callSum_pow {ss : List Shift} {x : ℝ} (hx : x ≠ 0) (c : ℝ) {n : ℕ}
    (hn : largestAmount ss ≤ n) :
    callSum ss (fun m => c * x ^ m) n = load ss x⁻¹ * (c * x ^ n) := by
  rw [callSum, load, ← List.sum_map_mul_right]
  refine congrArg List.sum (List.map_congr_left fun s hs => ?_)
  rw [pow_sub₀ x hx ((amount_le_largest hs).trans hn), inv_pow]
  ring

theorem Unfolds.nonneg {ss : List Shift} {f T : ℕ → ℝ} (hT : Unfolds ss f T) (hf : ∀ n, 0 ≤ f n)
    (n : ℕ) : 0 ≤ T n := by
  induction n using Nat.strong_induction_on with
  | _ n ih =>
      rcases le_or_gt n (largestAmount ss) with hn | hn
      · exact (hT.leaf n hn).symm ▸ zero_le_one
      · have hcalls : callSum ss (fun _ => 0) n ≤ callSum ss T n := callSum_mono (by omega) ih
        have hzero : callSum ss (fun _ => 0) n = 0 := by simp [callSum]
        rw [hT.node n hn]
        linarith [hf n]

theorem callSum_add (ss : List Shift) (u v : ℕ → ℝ) (n : ℕ) :
    callSum ss (fun m => u m + v m) n = callSum ss u n + callSum ss v n := by
  simp only [callSum, mul_add, List.sum_map_add]

/-! ## Exponential bounds -/

section Exponential

variable {ss : List Shift} {f T : ℕ → ℝ} {x : ℝ}

/-- From below: own work only adds to what the calls cost. -/
theorem Unfolds.pow_le (hT : Unfolds ss f T) (hf : ∀ n, 0 ≤ f n) (hx : 1 < x)
    (hload : load ss x⁻¹ = 1) (n : ℕ) : (x ^ largestAmount ss)⁻¹ * x ^ n ≤ T n := by
  have hx0 : 0 < x := by linarith
  induction n using Nat.strong_induction_on with
  | _ n ih =>
      rcases le_or_gt n (largestAmount ss) with hn | hn
      · rw [hT.leaf n hn, inv_mul_le_iff₀ (by positivity), mul_one]
        exact pow_le_pow_right₀ hx.le hn
      · calc (x ^ largestAmount ss)⁻¹ * x ^ n
            = callSum ss (fun m => (x ^ largestAmount ss)⁻¹ * x ^ m) n := by
              rw [callSum_pow hx0.ne' _ hn.le, hload, one_mul]
          _ ≤ callSum ss T n := callSum_mono (by omega) ih
          _ ≤ callSum ss T n + f n := le_add_of_nonneg_right (hf n)
          _ = T n := (hT.node n hn).symm

/-- From above: the surplus that a smaller base leaves pays for the own work. -/
theorem Unfolds.le_pow (hT : Unfolds ss f T) (hload : load ss x⁻¹ = 1) {y D : ℝ} (hy : 1 < y)
    (hyx : y < x) (hD : 0 ≤ D) (hf : ∀ n, f n ≤ D * (load ss y⁻¹ - 1) * y ^ n) (n : ℕ) :
    T n ≤ (1 + D) * x ^ n + -D * y ^ n := by
  have hx0 : x ≠ 0 := by linarith
  have hy0 : y ≠ 0 := by linarith
  induction n using Nat.strong_induction_on with
  | _ n ih =>
      rcases le_or_gt n (largestAmount ss) with hn | hn
      · have hpow : y ^ n ≤ x ^ n := pow_le_pow_left₀ (by linarith) hyx.le n
        have hone : 1 ≤ x ^ n := one_le_pow₀ (by linarith)
        rw [hT.leaf n hn]
        nlinarith
      · calc T n = callSum ss T n + f n := hT.node n hn
          _ ≤ callSum ss (fun m => (1 + D) * x ^ m + -D * y ^ m) n
              + D * (load ss y⁻¹ - 1) * y ^ n := add_le_add (callSum_mono (by omega) ih) (hf n)
          _ = (1 + D) * x ^ n + -D * y ^ n := by
              rw [callSum_add, callSum_pow hx0 _ hn.le, callSum_pow hy0 _ hn.le, hload]
              ring

/-- Own work that grows slower than every exponential does not matter. -/
theorem Unfolds.isTheta_pow (hT : Unfolds ss f T) (hss : ss ≠ []) (hx : 1 < x)
    (hload : load ss x⁻¹ = 1) (hf : ∀ n, 0 ≤ f n)
    (hslow : ∀ y : ℝ, 1 < y → f =O[atTop] fun n => y ^ n) : T =Θ[atTop] fun n => x ^ n := by
  have hx0 : 0 < x := by linarith
  have hpos : ∀ n, 0 ≤ T n := fun n => le_trans (by positivity) (hT.pow_le hf hx hload n)
  constructor
  · obtain ⟨y, hy, hyx⟩ := exists_between hx
    have hy0 : 0 < y := by linarith
    have hsurplus : 0 < load ss y⁻¹ - 1 := by
      rw [← hload, sub_pos]
      exact load_lt_load hss (inv_nonneg.mpr hx0.le) (inv_strictAnti₀ hy0 hyx)
    obtain ⟨M, hM, hfM⟩ := bound_of_isBigO_nat_atTop (hslow y hy)
    have hfy : ∀ n, f n ≤ M / (load ss y⁻¹ - 1) * (load ss y⁻¹ - 1) * y ^ n := fun n => by
      have hyn : 0 < y ^ n := by positivity
      have hle := hfM (x := n) hyn.ne'
      rw [Real.norm_of_nonneg (hf n), Real.norm_of_nonneg hyn.le] at hle
      rwa [div_mul_cancel₀ M hsurplus.ne']
    refine IsBigO.of_bound (1 + M / (load ss y⁻¹ - 1)) (Eventually.of_forall fun n => ?_)
    have hupper := hT.le_pow hload hy hyx (by positivity) hfy n
    have hpaid : 0 ≤ M / (load ss y⁻¹ - 1) * y ^ n := by positivity
    rw [Real.norm_of_nonneg (hpos n), Real.norm_of_nonneg (by positivity)]
    linarith
  · refine IsBigO.of_bound (x ^ largestAmount ss) (Eventually.of_forall fun n => ?_)
    rw [Real.norm_of_nonneg (hpos n), Real.norm_of_nonneg (by positivity),
      ← inv_mul_le_iff₀ (by positivity)]
    exact hT.pow_le hf hx hload n

end Exponential

/-! ## A chain of single calls -/

section Chain

variable {k : ℕ+} {f T : ℕ → ℝ}

/-- A single call on the size less `k`. -/
def single (k : ℕ+) : List Shift := [⟨1, k⟩]

theorem Unfolds.leaf_single (hT : Unfolds (single k) f T) {n : ℕ} (hn : n ≤ k) : T n = 1 :=
  hT.leaf n (by simpa [single, largestAmount] using hn)

theorem Unfolds.node_single (hT : Unfolds (single k) f T) {n : ℕ} (hn : (k : ℕ) < n) :
    T n = T (n - k) + f n := by
  rw [hT.node n (by simpa [single, largestAmount] using hn)]
  simp [callSum, single]

/-- From above: no step of the chain costs more than the first. -/
theorem Unfolds.le_single (hT : Unfolds (single k) f T) (hf : ∀ n, 0 ≤ f n) (hmono : Monotone f)
    (n : ℕ) : T n ≤ 1 + n * f n := by
  induction n using Nat.strong_induction_on with
  | _ n ih =>
      rcases le_or_gt n k with hn | hn
      · rw [hT.leaf_single hn]
        exact le_add_of_nonneg_right (mul_nonneg n.cast_nonneg (hf n))
      · have hk : (1 : ℝ) ≤ (k : ℕ) := by exact_mod_cast k.pos
        have hrest := ih (n - k) (Nat.sub_lt (by omega) k.pos)
        have hf' : f (n - k) ≤ f n := hmono (Nat.sub_le n k)
        rw [Nat.cast_sub hn.le] at hrest
        have hlength : (0 : ℝ) ≤ n - (k : ℕ) := by
          rw [sub_nonneg]
          exact_mod_cast hn.le
        rw [hT.node_single hn]
        nlinarith [hf n, mul_le_mul_of_nonneg_left hf' hlength]

/-- From below: the first `j` steps cost at least what the last of them does. -/
theorem Unfolds.single_le (hT : Unfolds (single k) f T) (hmono : Monotone f) (hpos : ∀ n, 0 ≤ T n)
    (j n : ℕ) (hj : j * k < n) : j * f (n - j * k) ≤ T n := by
  induction j generalizing n with
  | zero => simpa using hpos n
  | succ j ih =>
      have hsucc : (j + 1) * (k : ℕ) = j * k + k := by ring
      have hrest := ih (n - k) (by omega)
      have hstep : f (n - (j + 1) * k) ≤ f n := hmono (Nat.sub_le _ _)
      rw [show n - k - j * k = n - (j + 1) * k by omega] at hrest
      rw [hT.node_single (by omega)]
      push_cast
      linarith

/-- A chain costs as much as all its steps would at full size. -/
theorem Unfolds.isTheta_single {d : ℝ} (hd : 0 ≤ d) {q : ℕ}
    (hT : Unfolds (single k) (Growth.polyLog d q) T) :
    T =Θ[atTop] fun n => (n : ℝ) * Growth.polyLog d q n := by
  have hf : ∀ n, 0 ≤ Growth.polyLog d q n := fun n =>
    mul_nonneg (by positivity) (pow_nonneg (zero_le_one.trans (Growth.one_le_logFactor n)) q)
  have hmono := Growth.polyLog_mono hd q
  have hpos : ∀ n, 0 ≤ T n := hT.nonneg hf
  have hk : (0 : ℝ) < (k : ℕ) := by exact_mod_cast k.pos
  constructor
  · refine IsBigO.of_bound 2 ((eventually_ge_atTop 1).mono fun n hn => ?_)
    have hone : 1 ≤ (n : ℝ) * Growth.polyLog d q n :=
      one_le_mul_of_one_le_of_one_le (by exact_mod_cast hn) (Growth.one_le_polyLog hd q hn)
    rw [Real.norm_of_nonneg (hpos n), Real.norm_of_nonneg (by linarith)]
    linarith [hT.le_single hf hmono n]
  · -- Half of the steps are made at half the size or more.
    refine IsBigO.of_bound ((4 * (k : ℕ)) * (2⁻¹ ^ d * 2⁻¹ ^ q)⁻¹)
      ((eventually_ge_atTop (4 * (k : ℕ))).mono fun n hn => ?_)
    have hk1 : 1 ≤ (k : ℕ) := k.pos
    set j := n / (2 * k) with hj
    have hjk : j * k * 2 ≤ n := by
      rw [mul_assoc, mul_comm (k : ℕ)]
      exact Nat.div_mul_le_self n _
    have hsteps : (n : ℝ) ≤ 4 * (k : ℕ) * j := by
      have hlt := Nat.lt_div_mul_add (a := n) (b := 2 * (k : ℕ)) (by omega)
      rw [← hj] at hlt
      exact_mod_cast (by nlinarith : n ≤ 4 * (k : ℕ) * j)
    have hhalf := Growth.polyLog_half hd q (m := n - j * k) (n := n) (by omega) (by omega)
    have hchain := hT.single_le hmono hpos j n (by omega)
    have hc : (0 : ℝ) < 2⁻¹ ^ d * 2⁻¹ ^ q := by positivity
    rw [Real.norm_of_nonneg (mul_nonneg n.cast_nonneg (hf n)), Real.norm_of_nonneg (hpos n)]
    calc (n : ℝ) * Growth.polyLog d q n
        ≤ 4 * (k : ℕ) * j * Growth.polyLog d q n := mul_le_mul_of_nonneg_right hsteps (hf n)
      _ = 4 * (k : ℕ) * (2⁻¹ ^ d * 2⁻¹ ^ q)⁻¹
            * (j * (2⁻¹ ^ d * 2⁻¹ ^ q * Growth.polyLog d q n)) := by
          field_simp
      _ ≤ 4 * (k : ℕ) * (2⁻¹ ^ d * 2⁻¹ ^ q)⁻¹ * (j * Growth.polyLog d q (n - j * k)) := by
          gcongr
      _ ≤ 4 * (k : ℕ) * (2⁻¹ ^ d * 2⁻¹ ^ q)⁻¹ * T n := by gcongr

end Chain

/-! ## The four answers -/

/-- Whether the shifts are those of the Fibonacci recursion, in one order or the other. -/
def OneTwo (ss : List Shift) : Prop := ss = [⟨1, 1⟩, ⟨1, 2⟩] ∨ ss = [⟨1, 2⟩, ⟨1, 1⟩]

/-- The bound for some shifts and own work `f`: a chain of single calls, one repeated shift, the
Fibonacci recursion, and all other shifts, whose root is given. -/
inductive LinearBound (root : Tolerant ε) (f : Growth (Tolerant ε)) :
    List Shift → Growth (Tolerant ε) → Prop
  | unrolled (k : ℕ+) : LinearBound root f (single k) (Growth.linear.times f)
  | repeated (a k : ℕ+) (ha : 1 < a) :
      LinearBound root f [⟨a, k⟩] (.exponential ⟨(a : ℝ) ^ (1 / (k : ℝ))⟩)
  | fibonacci {ss : List Shift} (hss : OneTwo ss) :
      LinearBound root f ss (.exponential ⟨Real.goldenRatio⟩)
  | mixed {ss : List Shift} (htwo : 2 ≤ ss.length) (hss : ¬ OneTwo ss) :
      LinearBound root f ss (.exponential root)

section Answers

variable {ss : List Shift} {T : ℕ → ℝ} {d : ℝ} {q : ℕ} {root : Tolerant ε}

/-- With two calls or more, the weights can sum up to one at a base above one only. -/
theorem one_lt_of_load_eq_one {x : ℝ} (htwo : 2 ≤ ss.length) (hx : 0 < x)
    (hload : load ss x⁻¹ = 1) : 1 < x := by
  by_contra hle
  have hinv : 1 ≤ x⁻¹ := (one_le_inv₀ hx).mpr (not_lt.mp hle)
  have hmany : ss.length • (1 : ℝ) ≤ load ss x⁻¹ := by
    refine (List.card_nsmul_le_sum _ 1 fun w hw => ?_).trans_eq' (by rw [List.length_map])
    obtain ⟨s, -, rfl⟩ := List.mem_map.mp hw
    exact one_le_mul_of_one_le_of_one_le (by exact_mod_cast s.calls.pos) (one_le_pow₀ hinv)
  have hlength : (2 : ℝ) ≤ ss.length := by exact_mod_cast htwo
  rw [nsmul_one, hload] at hmany
  linarith

theorem load_repeated (a k : ℕ+) : load [⟨a, k⟩] ((a : ℝ) ^ (1 / (k : ℝ)))⁻¹ = 1 := by
  have ha : (0 : ℝ) < a := by exact_mod_cast a.pos
  have hk : ((k : ℕ) : ℝ) ≠ 0 := by exact_mod_cast k.ne_zero
  have hpow : ((a : ℝ) ^ (1 / (k : ℝ))) ^ (k : ℕ) = a := by
    rw [← Real.rpow_mul_natCast ha.le, one_div_mul_cancel hk, Real.rpow_one]
  simp only [load, List.map_cons, List.map_nil, List.sum_cons, List.sum_nil, add_zero, inv_pow,
    hpow]
  exact mul_inv_cancel₀ ha.ne'

theorem load_oneTwo (hss : OneTwo ss) : load ss Real.goldenRatio⁻¹ = 1 := by
  have hequation : ∀ x : ℝ, x ≠ 0 → x ^ 2 = x + 1 → x⁻¹ + x⁻¹ ^ 2 = 1 := fun x hx hsq => by
    field_simp
    exact hsq.symm
  have hroot := hequation _ Real.goldenRatio_ne_zero Real.goldenRatio_sq
  rcases hss with rfl | rfl
  · simpa [load] using hroot
  · simpa [load, add_comm] using hroot

theorem curve_linear_times (hε : 0 ≤ ε) :
    (Growth.linear.times (Growth.polynomial (⟨d⟩ : Tolerant ε) q)).curve
      =ᶠ[atTop] fun n => (n : ℝ) * Growth.polyLog d q n := by
  have hplain : ¬ 1 + ε < 0 := by linarith
  refine (eventually_ge_atTop 2).mono fun n hn => ?_
  have hn0 : (0 : ℝ) < n := by exact_mod_cast (by omega : 0 < n)
  simp [Growth.curve, Growth.times, Growth.linear, Growth.polynomial, Growth.isExponential, hplain,
    Growth.polyLog, Growth.logFactor_of_two_le hn, Real.rpow_add hn0, mul_assoc]

/-- Each answer is the order of the cost. -/
theorem LinearBound.isTheta (hε : 0 ≤ ε) (hd : 0 ≤ d) {g : Growth (Tolerant ε)}
    (hg : LinearBound root (.polynomial ⟨d⟩ q) ss g) (hroot : 0 < root.val)
    (hload : load ss root.val⁻¹ = 1) (hT : Unfolds ss (Growth.polyLog d q) T) :
    T =Θ[atTop] g.curve := by
  have hf : ∀ n, 0 ≤ Growth.polyLog d q n := fun n =>
    mul_nonneg (by positivity) (pow_nonneg (zero_le_one.trans (Growth.one_le_logFactor n)) q)
  have hexp : ∀ {x : ℝ}, ss ≠ [] → 1 < x → load ss x⁻¹ = 1 →
      T =Θ[atTop] (Growth.exponential (⟨x⟩ : Tolerant ε)).curve := fun hss hx hload => by
    rw [Growth.curve_exponential (by linarith)]
    exact hT.isTheta_pow hss hx hload hf fun y hy => Growth.polyLog_isBigO hd q hy
  cases hg with
  | unrolled k => exact (hT.isTheta_single hd).trans_eventuallyEq (curve_linear_times hε).symm
  | repeated a k ha =>
      refine hexp (by simp) (Real.one_lt_rpow (by exact_mod_cast ha) ?_) (load_repeated a k)
      have hk : (0 : ℝ) < k := by exact_mod_cast k.pos
      positivity
  | fibonacci hss =>
      exact hexp (by rcases hss with rfl | rfl <;> simp) Real.one_lt_goldenRatio (load_oneTwo hss)
  | mixed htwo _ =>
      have hss : ss ≠ [] := by rintro rfl; simp at htwo
      exact hexp hss (one_lt_of_load_eq_one htwo hroot hload) hload

/-! ## The solver -/

theorem near_natCast (hε : 0 < ε) (hε1 : ε < 1) (j k : ℕ) :
    Scalar.near (⟨j⟩ : Tolerant ε) (Scalar.ofNat k) = decide (j = k) := by
  simp only [Scalar.near, lt_iff, val_abs, val_sub, val_ofNat, val_epsilon, decide_eq_decide]
  refine ⟨fun h => ?_, fun h => by simpa [h] using hε⟩
  have hlt : |(j : ℤ) - k| < 1 := by exact_mod_cast h.trans hε1
  have hzero : (j : ℤ) - k = 0 := Int.abs_lt_one_iff.mp hlt
  omega

/-- Two calls are looked at in ascending order of their shifts. -/
theorem isOneTwo_sortedShifts (hε : 0 < ε) (hε1 : ε < 1) {terms : List (Term (Tolerant ε))}
    {j k : ℕ+} (hamounts : amounts terms = [⟨(j : ℕ)⟩, ⟨(k : ℕ)⟩]) :
    isOneTwo (sortedShifts terms) = true ↔ (j = 1 ∧ k = 2) ∨ (j = 2 ∧ k = 1) := by
  have hnear : ∀ i l : ℕ+,
      isOneTwo [(⟨(i : ℕ)⟩ : Tolerant ε), ⟨(l : ℕ)⟩] = true ↔ i = 1 ∧ l = 2 := fun i l => by
    rw [isOneTwo, Scalar.one, Scalar.two, near_natCast hε hε1, near_natCast hε hε1,
      Bool.and_eq_true, decide_eq_true_eq, decide_eq_true_eq, ← PNat.coe_inj, ← PNat.coe_inj]
    rfl
  have hsort : sortedShifts terms
      = if j ≤ k then [⟨(j : ℕ)⟩, ⟨(k : ℕ)⟩] else [⟨(k : ℕ)⟩, ⟨(j : ℕ)⟩] := by
    rw [sortedShifts, hamounts]
    simp [List.mergeSort, List.MergeSort.Internal.splitInTwo, List.merge]
  rw [hsort]
  split
  · rename_i hle
    rw [hnear]
    refine ⟨Or.inl, fun h => h.resolve_right ?_⟩
    rintro ⟨rfl, rfl⟩
    exact absurd hle (by decide)
  · rename_i hle
    rw [hnear, and_comm]
    refine ⟨Or.inr, fun h => h.resolve_left ?_⟩
    rintro ⟨rfl, rfl⟩
    exact hle (by decide)

/-- Only two single calls can be those of the Fibonacci recursion. -/
theorem isFibonacci_iff (hε : 0 < ε) (hε1 : ε < 1) (ss : List Shift) :
    isFibonacci (ss.map (Shift.term (ε := ε))) = true ↔ OneTwo ss := by
  rw [isFibonacci, Bool.and_eq_true, beq_iff_eq, List.foldr_map]
  match ss with
  | [] => simp [OneTwo]
  | [⟨a, k⟩] =>
      refine iff_of_false ?_ (by simp [OneTwo])
      rintro ⟨htotal, hshifts⟩
      have ha : (a : ℕ) = 2 := by simpa [Shift.term] using htotal
      have hamounts : amounts ([⟨a, k⟩].map (Shift.term (ε := ε))) = [⟨(k : ℕ)⟩, ⟨(k : ℕ)⟩] := by
        simp [amounts, Shift.term, ha, SizeChange.subtract, List.replicate]
      rcases (isOneTwo_sortedShifts hε hε1 hamounts).mp hshifts with ⟨rfl, h⟩ | ⟨rfl, h⟩
      · exact absurd h (by decide)
      · exact absurd h (by decide)
  | [⟨a, j⟩, ⟨b, k⟩] =>
      have hcalls : a.val + b.val = 2 ↔ a = 1 ∧ b = 1 := by
        rw [← PNat.coe_inj, ← PNat.coe_inj]
        have := a.pos
        have := b.pos
        simp only [PNat.val_ofNat]
        omega
      have htotal : [⟨a, j⟩, ⟨b, k⟩].foldr (fun s calls =>
          (Shift.term (ε := ε) s).multiplicity.toNat + calls) 0 = a.val + b.val := by
        simp [Shift.term]
      rw [htotal, hcalls]
      constructor
      · rintro ⟨⟨rfl, rfl⟩, hshifts⟩
        simpa [OneTwo] using (isOneTwo_sortedShifts hε hε1 (j := j) (k := k) rfl).mp hshifts
      · intro h
        have hpair : (a = 1 ∧ b = 1) ∧ ((j = 1 ∧ k = 2) ∨ (j = 2 ∧ k = 1)) := by
          simp only [OneTwo, List.cons.injEq, Shift.mk.injEq, and_true] at h
          tauto
        obtain ⟨⟨rfl, rfl⟩, hjk⟩ := hpair
        exact ⟨⟨rfl, rfl⟩, (isOneTwo_sortedShifts hε hε1 (j := j) (k := k) rfl).mpr hjk⟩
  | s :: t :: u :: ss =>
      have hs := s.calls.pos
      have ht := t.calls.pos
      have hu := u.calls.pos
      refine iff_of_false ?_ (by simp [OneTwo])
      rintro ⟨htotal, -⟩
      simp only [Shift.term, List.foldr_cons, Int.toNat_natCast] at htotal
      omega

theorem allOf_map_term (kind : ChangeKind) (hss : ss ≠ []) :
    allOf kind (ss.map (Shift.term (ε := ε))) = (kind == .subtract) := by
  have hkind : ∀ s : Shift, (s.term (ε := ε)).change.kind = .subtract := fun _ => rfl
  cases ss with
  | nil => exact absurd rfl hss
  | cons s ss =>
      cases kind with
      | subtract => simp [allOf, hkind]
      | _ => rfl

/-- The linear method applies to shifts and gives one of the four answers. -/
theorem solveLinear_eq_some (hε : 0 < ε) (hε1 : ε < 1)
    (root : List (Term (Tolerant ε)) → Tolerant ε) {rel : Relation (Tolerant ε)} (hss : ss ≠ [])
    (hterms : rel.terms = ss.map Shift.term) (hf : rel.localCost.isExponential = false) :
    ∃ s, solveLinear root rel = some s
      ∧ LinearBound (root rel.terms) rel.localCost ss s.bound := by
  have hopen : (!allOf .subtract rel.terms || rel.localCost.isExponential) = false := by
    rw [hterms, allOf_map_term _ hss, hf]
    rfl
  have hfib := isFibonacci_iff hε hε1 ss
  rw [solveLinear, hopen, hterms]
  match ss with
  | [⟨a, k⟩] =>
      have hplain : ¬ OneTwo [⟨a, k⟩] := by simp [OneTwo]
      rw [← hfib] at hplain
      rcases eq_or_ne a 1 with rfl | ha
      · exact ⟨_, rfl, .unrolled k⟩
      · have hmany : ¬ ((a : ℕ) : ℤ) = 1 := by
          rw [Nat.cast_eq_one, PNat.coe_eq_one_iff]
          exact ha
        have hbase : Scalar.pow (Scalar.ofInt (a : ℕ)) (Scalar.one / (⟨(k : ℕ)⟩ : Tolerant ε))
            = ⟨(a : ℝ) ^ (1 / (k : ℝ))⟩ := by
          ext
          simp
        refine ⟨repeatedShift rel (a : ℕ) ⟨(k : ℕ)⟩, (if_neg hmany).trans (if_neg hplain), ?_⟩
        rw [repeatedShift, hbase]
        exact .repeated a k (one_le.lt_of_ne' ha)
  | s :: t :: ss =>
      by_cases hpair : OneTwo (s :: t :: ss)
      · exact ⟨_, if_pos (hfib.mpr hpair), .fibonacci hpair⟩
      · exact ⟨_, if_neg (mt hfib.mp hpair), .mixed (by simp) hpair⟩

/-- **The bound of a linear recurrence is tight.** Whatever whole amounts the calls of a relation
take off, and whatever polynomial-logarithmic cost it has besides, the solver has an answer, which
is one of the four, and the cost has its order. The root of the characteristic equation is taken to
be exact. -/
theorem solveWith_isTheta (hε : 0 < ε) (hε1 : ε < 1) {rel : Relation (Tolerant ε)}
    {ss : List Shift} (hss : ss ≠ []) (hterms : rel.terms = ss.map Shift.term)
    {d : ℝ} (hd : 0 ≤ d) {q : ℕ} (hf : rel.localCost = .polynomial ⟨d⟩ q)
    (root : List (Term (Tolerant ε)) → Tolerant ε) (hroot : 0 < (root rel.terms).val)
    (hexcess : (excess rel.terms (root rel.terms)).val = 0) {T : ℕ → ℝ}
    (hT : Unfolds ss (fun n => (rel.localCost.evaluate (Scalar.ofNat n)).val) T) :
    ∃ s, solveWith root rel = .solved s
      ∧ LinearBound (root rel.terms) rel.localCost ss s.bound
      ∧ T =Θ[atTop] s.bound.curve := by
  have hplain : rel.localCost.isExponential = false := by
    have hlt : ¬ 1 + ε < 0 := by linarith
    simpa [hf, Growth.isExponential, Growth.polynomial] using hlt
  have hmaster : solveByMaster rel = none := by
    simp [solveByMaster, divisor?, hterms, allOf_map_term _ hss]
  obtain ⟨s, hsolve, hbound⟩ := solveLinear_eq_some hε hε1 root hss hterms hplain
  have hload : load ss (root rel.terms).val⁻¹ = 1 := by
    rw [hterms] at hexcess hroot ⊢
    rw [excess_eq_load ss hroot] at hexcess
    linarith
  simp only [hf, Growth.evaluate_polynomial hε.le] at hT
  refine ⟨s, ?_, hbound, (hf ▸ hbound).isTheta hε.le hd hroot hload hT⟩
  rw [solveWith, hmaster, hsolve]
  simp [hterms, hss]

end Answers

/-- The relation of the Fibonacci recursion with constant work besides. -/
noncomputable def fibonacciRelation (ε : ℝ) : Relation (Tolerant ε) where
  terms := [⟨1, 1⟩, ⟨1, 2⟩].map Shift.term
  localCost := .polynomial ⟨0⟩ (0 : ℕ)

/-- The number of calls the Fibonacci recursion makes. -/
def fibonacciCalls (n : ℕ) : ℝ := if n = 0 then 1 else (2 * Nat.fib n : ℕ) - 1

theorem fibonacciCalls_isTheta :
    Unfolds [⟨1, 1⟩, ⟨1, 2⟩]
        (fun n => ((fibonacciRelation (1 / 10 ^ 9)).localCost.evaluate (Scalar.ofNat n)).val)
        fibonacciCalls
      ∧ ∃ s, solveWith (fun _ => ⟨Real.goldenRatio⟩) (fibonacciRelation (1 / 10 ^ 9)) = .solved s
        ∧ LinearBound ⟨Real.goldenRatio⟩ (fibonacciRelation (1 / 10 ^ 9)).localCost
          [⟨1, 1⟩, ⟨1, 2⟩] s.bound
        ∧ fibonacciCalls =Θ[atTop] s.bound.curve := by
  have hlargest : largestAmount [⟨1, 1⟩, ⟨1, 2⟩] = 2 := rfl
  have hterms : (fibonacciRelation (1 / 10 ^ 9)).terms = [⟨1, 1⟩, ⟨1, 2⟩].map Shift.term := rfl
  have hf : (fibonacciRelation (1 / 10 ^ 9)).localCost = .polynomial ⟨0⟩ (0 : ℕ) := rfl
  have hT : Unfolds [⟨1, 1⟩, ⟨1, 2⟩]
      (fun n => ((fibonacciRelation (1 / 10 ^ 9)).localCost.evaluate (Scalar.ofNat n)).val)
      fibonacciCalls := by
    simp only [hf, Growth.evaluate_polynomial (by norm_num : (0 : ℝ) ≤ 1 / 10 ^ 9)]
    constructor
    · intro n hn
      rw [hlargest] at hn
      interval_cases n <;> norm_num [fibonacciCalls]
    · intro n hn
      rw [hlargest] at hn
      obtain ⟨m, rfl⟩ : ∃ m, n = m + 3 := ⟨n - 3, by omega⟩
      simp [callSum, fibonacciCalls, Growth.polyLog, Nat.fib_add_two]
      ring
  have hexcess : (excess (fibonacciRelation (1 / 10 ^ 9)).terms ⟨Real.goldenRatio⟩).val = 0 := by
    rw [hterms, excess_eq_load _ Real.goldenRatio_pos, load_oneTwo (.inl rfl), sub_self]
  exact ⟨hT, solveWith_isTheta (by norm_num) (by norm_num) (by simp) hterms le_rfl hf
    (fun _ => ⟨Real.goldenRatio⟩) Real.goldenRatio_pos hexcess hT⟩

end Recurrence

end PseudoCost
