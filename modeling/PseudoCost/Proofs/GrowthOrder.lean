import PseudoCost.Growth
import PseudoCost.Proofs.Reals

/-!
# The order of growths

Growths are compared by base, then by degree, then by the power of the logarithm, each up to a
tolerance. `Growth.key` is the triple that is compared, ordered lexicographically, and a `Grid` is
a set of degrees and a set of bases on which the tolerance makes no difference. On a grid the
comparison is the order of the keys (`compare_eq_cmp`), so the larger and the smaller of two growths
have the larger and the smaller key, and everything about them is a fact about a linear order.

A grid has room for loops: multiplying by the number of iterations of a loop adds zero or one to
the degree, so the degrees are closed under adding one. Without tolerance every growth is on the
grid of all reals (`Grid.all`).
-/

namespace PseudoCost

open Tolerant

variable {ε : ℝ}

/-! ## Keys and grids -/

namespace Growth

/-- What growths are compared by. -/
noncomputable def key (g : Growth (Tolerant ε)) : ℝ ×ₗ (ℝ ×ₗ ℤ) :=
  toLex (g.base.val, toLex (g.degree.val, g.logPower))

theorem base_of_exponential {g : Growth (Tolerant ε)} (h : g.isExponential = true) :
    g.base = g.expBase := by
  rw [base, if_pos h]

theorem base_of_polynomial {g : Growth (Tolerant ε)} (h : g.isExponential = false) :
    g.base.val = 1 := by
  simp [base, h]

theorem isExponential_iff {g : Growth (Tolerant ε)} :
    g.isExponential = true ↔ 1 + ε < g.expBase.val := by
  simp [isExponential]

end Growth

/-- Degrees and bases on which the tolerance makes no difference, with room for loops. -/
structure Grid (ε : ℝ) where
  degrees : Set ℝ
  bases : Set ℝ
  nonneg : 0 ≤ ε
  degrees_apart : Apart ε degrees
  bases_apart : Apart ε bases
  zero_mem : 0 ∈ degrees
  add_one_mem : ∀ d ∈ degrees, d + 1 ∈ degrees
  one_mem : 1 ∈ bases

namespace Grid

/-- Without tolerance all reals make a grid. -/
def all : Grid 0 where
  degrees := Set.univ
  bases := Set.univ
  nonneg := le_refl 0
  degrees_apart x _ y _ := (eq_or_ne x y).imp_right fun h => abs_pos.mpr (sub_ne_zero.mpr h)
  bases_apart x _ y _ := (eq_or_ne x y).imp_right fun h => abs_pos.mpr (sub_ne_zero.mpr h)
  zero_mem := trivial
  add_one_mem _ _ := trivial
  one_mem := trivial

variable (G : Grid ε)

/-- A growth on the grid. -/
structure Holds (g : Growth (Tolerant ε)) : Prop where
  degree : g.degree.val ∈ G.degrees
  base : g.base.val ∈ G.bases

end Grid

variable {G : Grid ε} {f g h : Growth (Tolerant ε)}

theorem cmp_toLex {α β : Type} [LinearOrder α] [LinearOrder β] (a c : α) (b d : β) :
    cmp (toLex (a, b)) (toLex (c, d)) = (cmp a c).then (cmp b d) := by
  rcases lt_trichotomy a c with hac | rfl | hac
  · have hlt : toLex (a, b) < toLex (c, d) := Prod.Lex.toLex_lt_toLex.mpr (Or.inl hac)
    rw [(cmp_eq_lt_iff _ _).mpr hac, (cmp_eq_lt_iff _ _).mpr hlt]
    rfl
  · rw [cmp_self_eq_eq]
    rcases lt_trichotomy b d with hbd | rfl | hbd
    · have hlt : toLex (a, b) < toLex (a, d) := by simp [Prod.Lex.toLex_lt_toLex, hbd]
      rw [(cmp_eq_lt_iff _ _).mpr hbd, (cmp_eq_lt_iff _ _).mpr hlt]
      rfl
    · rw [cmp_self_eq_eq, cmp_self_eq_eq]
      rfl
    · have hgt : toLex (a, d) < toLex (a, b) := by simp [Prod.Lex.toLex_lt_toLex, hbd]
      rw [(cmp_eq_gt_iff _ _).mpr hbd, (cmp_eq_gt_iff _ _).mpr hgt]
      rfl
  · have hgt : toLex (c, d) < toLex (a, b) := Prod.Lex.toLex_lt_toLex.mpr (Or.inl hac)
    rw [(cmp_eq_gt_iff _ _).mpr hac, (cmp_eq_gt_iff _ _).mpr hgt]
    rfl

theorem isLE_cmp_iff {α : Type} [LinearOrder α] (a b : α) : (cmp a b).isLE = true ↔ a ≤ b := by
  rcases lt_trichotomy a b with hlt | heq | hgt
  · rw [(cmp_eq_lt_iff _ _).mpr hlt]
    exact ⟨fun _ => hlt.le, fun _ => rfl⟩
  · rw [heq, cmp_self_eq_eq]
    exact ⟨fun _ => le_rfl, fun _ => rfl⟩
  · rw [(cmp_eq_gt_iff _ _).mpr hgt]
    exact ⟨fun hfalse => by simp at hfalse, fun hle => absurd hgt (not_lt.mpr hle)⟩

namespace Growth

/-! ## Comparisons and keys -/

/-- A pair of growths on which the tolerance makes no difference: they compare like their keys. -/
def Sharp (g h : Growth (Tolerant ε)) : Prop := g.compare h = cmp g.key h.key

theorem sharp_of_apart (hε : 0 ≤ ε) {degrees bases : Set ℝ} (hdegrees : Apart ε degrees)
    (hbases : Apart ε bases) (hgd : g.degree.val ∈ degrees) (hgb : g.base.val ∈ bases)
    (hhd : h.degree.val ∈ degrees) (hhb : h.base.val ∈ bases) : Sharp g h := by
  rw [Sharp, key, key, cmp_toLex, cmp_toLex, compare, order_eq_cmp hε hbases hgb hhb,
    order_eq_cmp hε hdegrees hgd hhd, cmp_eq_compare g.logPower]

namespace Sharp

variable (hgh : Sharp g h)
include hgh

theorem isLE_iff : (g.compare h).isLE = true ↔ g.key ≤ h.key := by
  rw [hgh, isLE_cmp_iff]

theorem isGE_iff : (g.compare h).isGE = true ↔ h.key ≤ g.key := by
  rw [hgh, ← Ordering.isLE_swap, cmp_swap, isLE_cmp_iff]

theorem agrees_iff : g.agrees h = true ↔ g.key = h.key := by
  rw [agrees, beq_iff_eq, hgh, cmp_eq_eq_iff]

theorem key_max : (g.max h).key = Max.max g.key h.key := by
  rw [max]
  split
  · rename_i hge
    rw [max_eq_left (hgh.isGE_iff.mp hge)]
  · rename_i hge
    rw [hgh.isGE_iff, not_le] at hge
    rw [max_eq_right hge.le]

theorem key_min : (g.min h).key = Min.min g.key h.key := by
  rw [min]
  split
  · rename_i hle
    rw [min_eq_left (hgh.isLE_iff.mp hle)]
  · rename_i hle
    rw [hgh.isLE_iff, not_le] at hle
    rw [min_eq_right hle.le]

end Sharp

/-- On a grid, growths are ordered like their keys. -/
theorem compare_eq_cmp (hg : G.Holds g) (hh : G.Holds h) : g.compare h = cmp g.key h.key :=
  sharp_of_apart G.nonneg G.degrees_apart G.bases_apart hg.degree hg.base hh.degree hh.base

theorem isLE_compare_iff (hg : G.Holds g) (hh : G.Holds h) :
    (g.compare h).isLE = true ↔ g.key ≤ h.key := Sharp.isLE_iff (compare_eq_cmp hg hh)

theorem isGE_compare_iff (hg : G.Holds g) (hh : G.Holds h) :
    (g.compare h).isGE = true ↔ h.key ≤ g.key := Sharp.isGE_iff (compare_eq_cmp hg hh)

theorem dominates_eq_false_iff (hg : G.Holds g) (hh : G.Holds h) :
    g.dominates h = false ↔ g.key ≤ h.key := by
  rw [← isLE_compare_iff hg hh, dominates]
  cases g.compare h <;> simp

theorem key_max (hg : G.Holds g) (hh : G.Holds h) : (g.max h).key = Max.max g.key h.key :=
  Sharp.key_max (compare_eq_cmp hg hh)

theorem key_min (hg : G.Holds g) (hh : G.Holds h) : (g.min h).key = Min.min g.key h.key :=
  Sharp.key_min (compare_eq_cmp hg hh)

/-! ## Comparisons the other way round -/

theorem order_swap (hε : 0 ≤ ε) (a b : Tolerant ε) :
    Scalar.order b a = (Scalar.order a b).swap := by
  simp only [Scalar.order, lt_iff, val_epsilon, val_sub, val_neg]
  rcases lt_or_ge ε (a.val - b.val) with habove | habove
  · rw [if_neg (by linarith), if_pos (by linarith), if_pos habove]
    rfl
  · rcases lt_or_ge (a.val - b.val) (-ε) with hbelow | hbelow
    · rw [if_pos (by linarith), if_neg (by linarith), if_pos hbelow]
      rfl
    · rw [if_neg (by linarith), if_neg (by linarith), if_neg (by linarith), if_neg (by linarith)]
      rfl

/-- The tolerance does not depend on which of two growths comes first. -/
theorem compare_swap (hε : 0 ≤ ε) (g h : Growth (Tolerant ε)) :
    h.compare g = (g.compare h).swap := by
  rw [compare, compare, Ordering.swap_then, Ordering.swap_then, ← order_swap hε, ← order_swap hε,
    ← Std.OrientedOrd.eq_swap]

theorem compare_self (hε : 0 ≤ ε) (g : Growth (Tolerant ε)) : g.compare g = .eq := by
  have hswap := compare_swap hε g g
  cases hg : g.compare g with
  | eq => rfl
  | lt | gt => simp [hg] at hswap

/-! ## Products -/

theorem isExponential_polynomial (hε : 0 ≤ ε) (d : Tolerant ε) (k : Int) :
    (polynomial d k).isExponential = false := by
  rw [Bool.eq_false_iff, Ne, isExponential_iff]
  simp only [polynomial, val_zero]
  linarith

theorem expBase_times (hh : h.isExponential = false) :
    (g.times h).expBase = if g.isExponential then g.expBase else Scalar.zero := by
  cases hg : g.isExponential <;> simp [times, hg, hh]

/-- A product is exponential as soon as one of its factors is. -/
theorem isExponential_times_eq_or (hε : 0 ≤ ε) (g h : Growth (Tolerant ε)) :
    (g.times h).isExponential = (g.isExponential || h.isExponential) := by
  cases hg : g.isExponential with
  | true =>
      have hge := isExponential_iff.mp hg
      refine isExponential_iff.mpr ?_
      cases hh : h.isExponential with
      | true =>
          -- Both bases exceed one, so their product exceeds the one that is above the tolerance.
          have hhe := isExponential_iff.mp hh
          simp only [times, hg, hh, val_mul]
          exact hge.trans (lt_mul_of_one_lt_right (by linarith) (by linarith))
      | false => simpa only [times, hg, hh] using hge
  | false =>
      cases hh : h.isExponential with
      | true =>
          have hhe := isExponential_iff.mp hh
          exact isExponential_iff.mpr (by simpa only [times, hg, hh] using hhe)
      | false =>
          rw [Bool.or_self, Bool.eq_false_iff, Ne, isExponential_iff]
          simp only [times, hg, hh, val_zero]
          linarith

theorem isExponential_times (hε : 0 ≤ ε) (hh : h.isExponential = false) :
    (g.times h).isExponential = g.isExponential := by
  rw [isExponential_times_eq_or hε, hh, Bool.or_false]

/-- The base of a product, as it counts in comparisons, is the product of the bases. -/
theorem base_times (hε : 0 ≤ ε) (g h : Growth (Tolerant ε)) :
    (g.times h).base.val = g.base.val * h.base.val := by
  have hexp := isExponential_times_eq_or hε g h
  cases hg : g.isExponential with
  | true =>
      rw [base_of_exponential hg, base_of_exponential (by rw [hexp, hg, Bool.true_or])]
      cases hh : h.isExponential with
      | true => simp only [times, hg, hh, val_mul, base_of_exponential hh]
      | false => simp only [times, hg, hh, base_of_polynomial hh, mul_one]
  | false =>
      rw [base_of_polynomial hg, one_mul]
      cases hh : h.isExponential with
      | true =>
          rw [base_of_exponential hh, base_of_exponential (by rw [hexp, hh, Bool.or_true])]
          simp only [times, hg, hh]
      | false =>
          rw [base_of_polynomial hh, base_of_polynomial (by rw [hexp, hg, hh, Bool.or_self])]

theorem key_times (hε : 0 ≤ ε) (hh : h.isExponential = false) :
    (g.times h).key
      = toLex (g.base.val, toLex (g.degree.val + h.degree.val, g.logPower + h.logPower)) := by
  rw [key, base_times hε, base_of_polynomial hh, mul_one]
  rfl

/-- Multiplying by a polynomial growth keeps the order. -/
theorem key_times_le (hε : 0 ≤ ε) (hh : h.isExponential = false) (hfg : f.key ≤ g.key) :
    (f.times h).key ≤ (g.times h).key := by
  rw [key_times hε hh, key_times hε hh]
  simp only [key, Prod.Lex.toLex_le_toLex] at hfg ⊢
  rcases hfg with hbase | ⟨hbase, hdegree | ⟨hdegree, hlog⟩⟩
  · exact Or.inl hbase
  · exact Or.inr ⟨hbase, Or.inl (by simpa using hdegree)⟩
  · exact Or.inr ⟨hbase, Or.inr ⟨by simpa using hdegree, by simpa using hlog⟩⟩

/-- Multiplying by a polynomial growth that is at least constant makes no growth smaller. -/
theorem key_le_key_times (hε : 0 ≤ ε) (hh : h.isExponential = false)
    (hone : 0 < h.degree.val ∨ h.degree.val = 0 ∧ 0 ≤ h.logPower) :
    g.key ≤ (g.times h).key := by
  rw [key_times hε hh, key, Prod.Lex.toLex_le_toLex, Prod.Lex.toLex_le_toLex]
  refine Or.inr ⟨rfl, ?_⟩
  rcases hone with hdegree | ⟨hdegree, hlog⟩
  · exact Or.inl (by simpa using hdegree)
  · exact Or.inr ⟨by simp [hdegree], by simpa using hlog⟩

theorem holds_times (hg : G.Holds g) (hh : h.isExponential = false)
    (hdegree : h.degree.val = 0 ∨ h.degree.val = 1) : G.Holds (g.times h) where
  degree := by
    show g.degree.val + h.degree.val ∈ G.degrees
    rcases hdegree with hd | hd
    · rw [hd, add_zero]
      exact hg.degree
    · rw [hd]
      exact G.add_one_mem _ hg.degree
  base := by
    rw [base_times G.nonneg, base_of_polynomial hh, mul_one]
    exact hg.base

/-- A product commutes as far as the key can tell. -/
theorem key_linear_times (hε : 0 ≤ ε) : (linear.times f).key = (f.times linear).key := by
  rw [key, key, base_times hε, base_times hε, mul_comm]
  simp [times, add_comm]

end Growth

end PseudoCost
