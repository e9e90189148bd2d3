import PseudoCost.Proofs.Patterns

/-!
# Growths as an ordered algebra

Statements one after another cost the larger growth, branches the smaller one in the best case, and
a loop multiplies the growth of its body. That costs may be combined in any order, and a loop taken
out of a maximum, rests on the laws of `OrderedAlgebra`.

The tolerance breaks them in general, since being close is not transitive. They hold on a set of
growths whose degrees and bases are pairwise equal or further apart than the tolerance (`Spaced`):
there growths compare like their keys, so the laws of the larger and the smaller one are those of a
linear order. The factor of a product may be any growth, on the set or not: it moves all degrees and
logarithms by the same amount, and multiplies all bases by the same number, which is at least one
and so brings no two of them closer together (`compare_times`).
-/

namespace PseudoCost

open Tolerant

variable {ε : ℝ}

namespace Growth

variable {a b c : Growth (Tolerant ε)} {S : Set (Growth (Tolerant ε))}

/-! ## Comparing products -/

theorem order_self (hε : 0 ≤ ε) (x : Tolerant ε) : Scalar.order x x = .eq := by
  simp only [Scalar.order, lt_iff, val_epsilon, val_sub, val_neg, sub_self]
  rw [if_neg (not_lt.mpr hε), if_neg (by linarith)]

theorem order_add_right (x y z : Tolerant ε) : Scalar.order (x + z) (y + z) = Scalar.order x y := by
  simp only [Scalar.order, lt_iff, val_epsilon, val_sub, val_neg, val_add, add_sub_add_right_eq_sub]

/-- A factor of at least one brings no two numbers closer together. -/
theorem order_mul_right (hε : 0 ≤ ε) {x y z : Tolerant ε} (hz : 1 ≤ z.val)
    (hxy : x.val = y.val ∨ ε < |x.val - y.val|) :
    Scalar.order (x * z) (y * z) = Scalar.order x y := by
  rcases hxy with heq | hapart
  · rw [Tolerant.ext heq, order_self hε, order_self hε]
  · simp only [Scalar.order, lt_iff, val_epsilon, val_sub, val_neg, val_mul, ← sub_mul]
    rcases lt_abs.mp hapart with habove | hbelow
    · have hscaled : ε < (x.val - y.val) * z.val := by nlinarith
      rw [if_pos hscaled, if_pos habove]
    · have hscaled : (x.val - y.val) * z.val < -ε := by nlinarith
      have hnot : ¬ε < (x.val - y.val) * z.val := by linarith
      rw [if_neg hnot, if_pos hscaled, if_neg (by linarith), if_pos (by linarith)]

theorem one_le_base (hε : 0 ≤ ε) (g : Growth (Tolerant ε)) : 1 ≤ g.base.val := by
  cases hg : g.isExponential with
  | true =>
      have hlt := isExponential_iff.mp hg
      rw [base_of_exponential hg]
      linarith
  | false => rw [base_of_polynomial hg]

/-- Multiplying two growths by a third one keeps their order, if their bases are equal or further
apart than the tolerance. -/
theorem compare_times (hε : 0 ≤ ε) (hab : a.base.val = b.base.val ∨ ε < |a.base.val - b.base.val|)
    (c : Growth (Tolerant ε)) : (a.times c).compare (b.times c) = a.compare b := by
  have hbase (g : Growth (Tolerant ε)) : (g.times c).base = g.base * c.base :=
    Tolerant.ext (base_times hε g c)
  have hlog : Ord.compare (a.logPower + c.logPower) (b.logPower + c.logPower)
      = Ord.compare a.logPower b.logPower := by
    rw [← cmp_eq_compare, cmp_add_right, cmp_eq_compare]
  rw [compare, hbase, hbase, order_mul_right hε (one_le_base hε c) hab, compare, ← hlog,
    ← order_add_right a.degree b.degree c.degree]
  rfl

/-! ## Sets on which the tolerance makes no difference -/

/-- Growths whose degrees, and whose bases as they count in comparisons, are pairwise equal or
further apart than the tolerance. -/
structure Spaced (S : Set (Growth (Tolerant ε))) : Prop where
  nonneg : 0 ≤ ε
  degrees : Apart ε ((fun g => g.degree.val) '' S)
  bases : Apart ε ((fun g => g.base.val) '' S)

namespace Spaced

theorem max_mem (ha : a ∈ S) (hb : b ∈ S) : a.max b ∈ S := max_of_both (P := (· ∈ S)) ha hb

theorem min_mem (ha : a ∈ S) (hb : b ∈ S) : a.min b ∈ S := min_of_both (P := (· ∈ S)) ha hb

variable (hS : Spaced S) (ha : a ∈ S) (hb : b ∈ S)
include hS ha hb

theorem sharp : Sharp a b :=
  sharp_of_apart hS.nonneg hS.degrees hS.bases ⟨a, ha, rfl⟩ ⟨a, ha, rfl⟩ ⟨b, hb, rfl⟩ ⟨b, hb, rfl⟩

theorem isLE_iff : (a.compare b).isLE = true ↔ a.key ≤ b.key := (hS.sharp ha hb).isLE_iff

theorem agrees_iff : a.agrees b = true ↔ a.key = b.key := (hS.sharp ha hb).agrees_iff

theorem key_max : (a.max b).key = Max.max a.key b.key := (hS.sharp ha hb).key_max

theorem key_min : (a.min b).key = Min.min a.key b.key := (hS.sharp ha hb).key_min

theorem compare_times (c : Growth (Tolerant ε)) :
    (a.times c).compare (b.times c) = a.compare b :=
  Growth.compare_times hS.nonneg (hS.bases _ ⟨a, ha, rfl⟩ _ ⟨b, hb, rfl⟩) c

end Spaced

/-! ## The laws -/

/-- The laws that growths obey when blocks, branches and loops combine them: comparison is a total
preorder, the larger and the smaller growth are the operations of a lattice up to growths that count
as equal, and multiplying by any growth respects both. -/
structure OrderedAlgebra (S : Set (Growth (Tolerant ε))) : Prop where
  swap : ∀ a ∈ S, ∀ b ∈ S, b.compare a = (a.compare b).swap
  trans : ∀ a ∈ S, ∀ b ∈ S, ∀ c ∈ S, (a.compare b).isLE = true → (b.compare c).isLE = true →
    (a.compare c).isLE = true
  total : ∀ a ∈ S, ∀ b ∈ S, (a.compare b).isLE = true ∨ (b.compare a).isLE = true
  max_assoc : ∀ a ∈ S, ∀ b ∈ S, ∀ c ∈ S, ((a.max b).max c).agrees (a.max (b.max c)) = true
  min_assoc : ∀ a ∈ S, ∀ b ∈ S, ∀ c ∈ S, ((a.min b).min c).agrees (a.min (b.min c)) = true
  max_comm : ∀ a ∈ S, ∀ b ∈ S, (a.max b).agrees (b.max a) = true
  min_comm : ∀ a ∈ S, ∀ b ∈ S, (a.min b).agrees (b.min a) = true
  max_idem : ∀ a ∈ S, (a.max a).agrees a = true
  min_idem : ∀ a ∈ S, (a.min a).agrees a = true
  max_min : ∀ a ∈ S, ∀ b ∈ S, (a.max (a.min b)).agrees a = true
  min_max : ∀ a ∈ S, ∀ b ∈ S, (a.min (a.max b)).agrees a = true
  compare_times : ∀ a ∈ S, ∀ b ∈ S, ∀ c, (a.times c).compare (b.times c) = a.compare b
  max_times : ∀ a ∈ S, ∀ b ∈ S, ∀ c, (a.max b).times c = (a.times c).max (b.times c)
  min_times : ∀ a ∈ S, ∀ b ∈ S, ∀ c, (a.min b).times c = (a.times c).min (b.times c)

open Spaced in
/-- **Growths are an ordered algebra** wherever the tolerance makes no difference between them. -/
theorem orderedAlgebra_of_spaced (hS : Spaced S) : OrderedAlgebra S where
  swap a _ b _ := compare_swap hS.nonneg a b
  trans a ha b hb c hc hab hbc := by
    rw [hS.isLE_iff ha hb] at hab
    rw [hS.isLE_iff hb hc] at hbc
    exact (hS.isLE_iff ha hc).mpr (hab.trans hbc)
  total a ha b hb := by
    rw [hS.isLE_iff ha hb, hS.isLE_iff hb ha]
    exact le_total _ _
  max_assoc a ha b hb c hc := by
    have hab := max_mem ha hb
    have hbc := max_mem hb hc
    rw [hS.agrees_iff (max_mem hab hc) (max_mem ha hbc), hS.key_max hab hc, hS.key_max ha hb,
      hS.key_max ha hbc, hS.key_max hb hc, sup_assoc]
  min_assoc a ha b hb c hc := by
    have hab := min_mem ha hb
    have hbc := min_mem hb hc
    rw [hS.agrees_iff (min_mem hab hc) (min_mem ha hbc), hS.key_min hab hc, hS.key_min ha hb,
      hS.key_min ha hbc, hS.key_min hb hc, inf_assoc]
  max_comm a ha b hb := by
    rw [hS.agrees_iff (max_mem ha hb) (max_mem hb ha), hS.key_max ha hb, hS.key_max hb ha, sup_comm]
  min_comm a ha b hb := by
    rw [hS.agrees_iff (min_mem ha hb) (min_mem hb ha), hS.key_min ha hb, hS.key_min hb ha, inf_comm]
  max_idem a ha := by
    rw [hS.agrees_iff (max_mem ha ha) ha, hS.key_max ha ha, sup_idem]
  min_idem a ha := by
    rw [hS.agrees_iff (min_mem ha ha) ha, hS.key_min ha ha, inf_idem]
  max_min a ha b hb := by
    have hab := min_mem ha hb
    rw [hS.agrees_iff (max_mem ha hab) ha, hS.key_max ha hab, hS.key_min ha hb, sup_inf_self]
  min_max a ha b hb := by
    have hab := max_mem ha hb
    rw [hS.agrees_iff (min_mem ha hab) ha, hS.key_min ha hab, hS.key_max ha hb, inf_sup_self]
  compare_times a ha b hb c := hS.compare_times ha hb c
  max_times a ha b hb c := by
    rw [max, max, hS.compare_times ha hb]
    split <;> rfl
  min_times a ha b hb c := by
    rw [min, min, hS.compare_times ha hb]
    split <;> rfl

theorem apart_of_integers (hε : ε < 1) {s : Set ℝ} (hs : ∀ x ∈ s, ∃ k : ℤ, x = k) :
    Apart ε s := by
  intro x hx y hy
  obtain ⟨j, rfl⟩ := hs x hx
  obtain ⟨k, rfl⟩ := hs y hy
  rcases eq_or_ne j k with rfl | hne
  · exact Or.inl rfl
  · have hone : 1 ≤ |j - k| := Int.one_le_abs (sub_ne_zero.mpr hne)
    exact Or.inr (hε.trans_le (by exact_mod_cast hone))

/-- The growths `log n`, `n log n`, `n ^ 2` and `2 ^ n`. -/
def mixed (ε : ℝ) : Set (Growth (Tolerant ε)) :=
  {logarithmic, polynomial Scalar.one 1, polynomial Scalar.two 0, exponential Scalar.two}

theorem spaced_mixed (hε : 0 ≤ ε) (hε1 : ε < 1) : Spaced (mixed ε) where
  nonneg := hε
  degrees := by
    refine apart_of_integers hε1 ?_
    rintro _ ⟨g, rfl | rfl | rfl | rfl, rfl⟩
    · exact ⟨0, by simp [logarithmic, polynomial]⟩
    · exact ⟨1, by simp [polynomial]⟩
    · exact ⟨2, by simp [polynomial]⟩
    · exact ⟨0, by simp [exponential]⟩
  bases := by
    refine apart_of_integers hε1 ?_
    have hpoly (d : Tolerant ε) (k : Int) : ∃ j : ℤ, (polynomial d k).base.val = j :=
      ⟨1, by rw [base_of_polynomial (isExponential_polynomial hε d k), Int.cast_one]⟩
    rintro _ ⟨g, rfl | rfl | rfl | rfl, rfl⟩
    · exact hpoly _ _
    · exact hpoly _ _
    · exact hpoly _ _
    · have hexp : (exponential (Scalar.two : Tolerant ε)).isExponential = true := by
        rw [isExponential_iff, exponential, val_two]
        linarith
      have hbase : (exponential (Scalar.two : Tolerant ε)).base.val = 2 := by
        rw [base_of_exponential hexp, exponential, val_two]
      exact ⟨2, by simpa using hbase⟩

theorem orderedAlgebra_mixed :
    Spaced (mixed (1 / 10 ^ 9)) ∧ OrderedAlgebra (mixed (1 / 10 ^ 9)) := by
  have hS : Spaced (mixed (1 / 10 ^ 9)) := spaced_mixed (by norm_num) (by norm_num)
  exact ⟨hS, orderedAlgebra_of_spaced hS⟩

end Growth

end PseudoCost
