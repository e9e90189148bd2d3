import PseudoCost.Proofs.Operations
import PseudoCost.Proofs.Patterns

/-!
# The order of the three cases

The best case should not be above the average, nor the average above the worst case (`Ordered`).
Statements, conditionals, loops and calls all preserve this (`closed_ordered`), and so do most
patterns of recursion. Two do not always:

- a recursion that splits at an unknown point is given the bound of a balanced split as best and
  average case and the own work times `n` as worst case, which is the smaller one as soon as there
  are more calls than `2 ^ (degree + 1)`;
- a recursion with one dividing call keeps the best case of its own work, while the bound of the
  master theorem forgets that the own work was exponential.

`Pattern.KeepsOrder` is the condition on the own work, and `Pattern.ordered_iff` shows that it is
exact. For whole programs, the cases of all procedures are ordered exactly if every recursive
procedure keeps the order, and then so are those of the program.
-/

namespace PseudoCost

open Recurrence Tolerant

variable {ε : ℝ} {G : Grid ε}

/-! ## Ordered cases -/

/-- The best case does not compare above the average, nor the average above the worst case. -/
def Cases.Ordered {R : Type} [Scalar R] (c : Cases R) : Prop :=
  (c.best.compare c.average).isLE = true ∧ (c.average.compare c.worst).isLE = true

theorem ordered_iff_key {c : Cases (Tolerant ε)} (hc : c.All G.Holds) :
    c.Ordered ↔ c.best.key ≤ c.average.key ∧ c.average.key ≤ c.worst.key := by
  rw [Cases.Ordered, Growth.isLE_compare_iff hc.best hc.average,
    Growth.isLE_compare_iff hc.average hc.worst]

theorem ordered_max {c d : Cases (Tolerant ε)} (hc : c.All G.Holds) (hd : d.All G.Holds)
    (hmax : (c.max d).All G.Holds) (hco : c.Ordered) (hdo : d.Ordered) : (c.max d).Ordered := by
  rw [ordered_iff_key hc] at hco
  rw [ordered_iff_key hd] at hdo
  rw [ordered_iff_key hmax, Cases.max, Growth.key_max hc.best hd.best,
    Growth.key_max hc.average hd.average, Growth.key_max hc.worst hd.worst]
  exact ⟨max_le_max hco.1 hdo.1, max_le_max hco.2 hdo.2⟩

theorem ordered_either {c d : Cases (Tolerant ε)} (hc : c.All G.Holds) (hd : d.All G.Holds)
    (heither : (c.either d).All G.Holds) (hco : c.Ordered) (hdo : d.Ordered) :
    (c.either d).Ordered := by
  rw [ordered_iff_key hc] at hco
  rw [ordered_iff_key hd] at hdo
  rw [ordered_iff_key heither, Cases.either, Growth.key_min hc.best hd.best,
    Growth.key_max hc.average hd.average, Growth.key_max hc.worst hd.worst]
  refine ⟨?_, max_le_max hco.2 hdo.2⟩
  calc min c.best.key d.best.key ≤ c.best.key := min_le_left ..
    _ ≤ c.average.key := hco.1
    _ ≤ max c.average.key d.average.key := le_max_left ..

theorem ordered_scaled {c : Cases (Tolerant ε)} {h : Growth (Tolerant ε)} (hc : c.All G.Holds)
    (hscaled : (c.scaled h).All G.Holds) (hh : h.isExponential = false) (hco : c.Ordered) :
    (c.scaled h).Ordered := by
  rw [ordered_iff_key hc] at hco
  rw [ordered_iff_key hscaled]
  exact ⟨Growth.key_times_le G.nonneg hh hco.1, Growth.key_times_le G.nonneg hh hco.2⟩

theorem ordered_uniform {g : Growth (Tolerant ε)} (hg : (Cases.uniform g).All G.Holds) :
    (Cases.uniform g).Ordered := by
  rw [ordered_iff_key hg]
  exact ⟨le_refl _, le_refl _⟩

/-- A loop keeps the order of the cases of one pass, also where the best case is a single pass. -/
theorem ordered_repeated {v : Verdict (Tolerant ε)} (shape : LoopShape) (line : Int)
    (hv : v.cases.All G.Holds) (hrepeated : (v.repeated shape line).cases.All G.Holds)
    (ho : v.cases.Ordered) : (v.repeated shape line).cases.Ordered := by
  have hpoly := isExponential_iterations G.nonneg shape.progress
  rw [ordered_iff_key hv] at ho
  rw [ordered_iff_key hrepeated, Verdict.cases_repeated]
  refine ⟨?_, Growth.key_times_le G.nonneg hpoly ho.2⟩
  show Growth.key (if shape.earlyExit then _ else _) ≤ _
  split
  · exact ho.1.trans (Growth.key_le_key_times G.nonneg hpoly (atLeastOnce_iterations _))
  · exact Growth.key_times_le G.nonneg hpoly ho.1

/-- The ways in which the cost of a block is combined keep the cases ordered. -/
theorem closed_ordered (G : Grid ε) :
    Costing.Closed fun v : Verdict (Tolerant ε) => v.cases.All G.Holds ∧ v.cases.Ordered where
  constant := ⟨G.closed.constant, ordered_uniform G.closed.constant⟩
  insideLoop _ _ hv := hv
  sequence hv hw :=
    have h := G.closed.sequence hv.1 hw.1
    ⟨h, ordered_max hv.1 hw.1 h hv.2 hw.2⟩
  repeated shape line hv :=
    have h := G.closed.repeated shape line hv.1
    ⟨h, ordered_repeated shape line hv.1 h hv.2⟩
  branched {c t e} hc ht he := by
    have h := G.closed.branched hc.1 ht.1 he.1
    have heither : (t.cases.either e.cases).All G.Holds :=
      ⟨Growth.min_of_both ht.1.best he.1.best, Growth.max_of_both ht.1.worst he.1.worst,
        Growth.max_of_both ht.1.average he.1.average⟩
    exact ⟨h, ordered_max hc.1 heither h hc.2 (ordered_either ht.1 he.1 heither ht.2 he.2)⟩

/-! ## Powers of the logarithm are never negative -/

theorem closed_logPower : Costing.Closed fun v : Verdict (Tolerant ε) =>
    v.cases.All fun g => 0 ≤ g.logPower :=
  Costing.closed_all (le_refl 0) fun _ progress hg => add_nonneg hg (logPower_iterations progress)

theorem logPower_masterBound {f : Growth (Tolerant ε)} (hf : 0 ≤ f.logPower) (a b : Tolerant ε) :
    0 ≤ (masterBound a b f).logPower := by
  rw [masterBound]
  cases masterCase a b f.degree with
  | leaves => exact le_refl 0
  | levels => exact Int.le_add_one hf
  | root => exact hf

theorem logPower_times {g h : Growth (Tolerant ε)} (hg : 0 ≤ g.logPower) (hh : 0 ≤ h.logPower) :
    0 ≤ (g.times h).logPower := add_nonneg hg hh

/-- No pattern makes a power of the logarithm negative. -/
theorem Pattern.logPower_cases (p : Procedure) {own : Cases (Tolerant ε)}
    (hown : own.All fun g => 0 ≤ g.logPower) (pattern : Pattern (Tolerant ε)) :
    (pattern.cases p own).All fun g => 0 ≤ g.logPower := by
  have hlinear : 0 ≤ (Growth.linear : Growth (Tolerant ε)).logPower := le_refl 0
  cases pattern with
  | linear =>
      exact ⟨logPower_times hown.best hlinear, logPower_times hown.worst hlinear,
        logPower_times hown.average hlinear⟩
  | splitting calls =>
      have h := logPower_masterBound hown.worst (Scalar.ofInt calls) Scalar.two
      exact ⟨h, logPower_times hlinear hown.worst, h⟩
  | dividing calls divisor =>
      have h := logPower_masterBound hown.worst (Scalar.ofInt calls) divisor
      refine ⟨?_, h, h⟩
      show 0 ≤ Growth.logPower (if _ then _ else _)
      split
      · exact hown.best
      · exact h
  | exponential base => exact ⟨le_refl 0, le_refl 0, le_refl 0⟩

/-! ## Patterns that keep the order -/

namespace Pattern

/-- The condition on the own work under which a pattern keeps the cases ordered. For a split, the
binary logarithm of the number of calls is at most one more than the degree. -/
def KeepsOrder (p : Procedure) (own : Cases (Tolerant ε)) : Pattern (Tolerant ε) → Prop
  | .splitting calls =>
    own.worst.isExponential = true
      ∨ (criticalExponent (Scalar.ofInt calls) Scalar.two : Tolerant ε).val
        ≤ own.worst.degree.val + 1
  | .dividing calls divisor =>
    calls = 1 → (countSelfCalls p).min = 0 → own.worst.isExponential = true →
      (own.best.compare (masterBound (Scalar.ofInt calls) divisor own.worst)).isLE = true
  | .linear | .exponential _ => True

theorem criticalExponent_two (calls : Int) :
    (criticalExponent (Scalar.ofInt calls) Scalar.two : Tolerant ε).val = Real.logb 2 calls := by
  simp [criticalExponent, Real.logb]

/-- A split is ordered exactly if the balanced bound is not above the uneven one. -/
theorem splitting_key_le_iff {f : Growth (Tolerant ε)} {calls : Int} (hf : G.Holds f)
    (hlog : 0 ≤ f.logPower)
    (hbalanced : G.Holds (masterBound (Scalar.ofInt calls) Scalar.two f)) :
    (masterBound (Scalar.ofInt calls) Scalar.two f).key ≤ (Growth.linear.times f).key
      ↔ f.isExponential = true
        ∨ (criticalExponent (Scalar.ofInt calls) Scalar.two : Tolerant ε).val
          ≤ f.degree.val + 1 := by
  have hε := G.nonneg
  have hlinear : (Growth.linear : Growth (Tolerant ε)).isExponential = false :=
    Growth.isExponential_polynomial hε _ _
  have hdegree : (Growth.linear : Growth (Tolerant ε)).degree.val = 1 := val_one
  rw [Growth.key_linear_times hε]
  cases hexp : f.isExponential with
  | true =>
      have hle := Growth.key_le_key_times (g := f) hε hlinear (Or.inl (by rw [hdegree]; norm_num))
      exact iff_of_true ((masterBound_lt hexp hε).le.trans hle) (Or.inl rfl)
  | false =>
      rw [Growth.key_times hε hlinear, Growth.key, base_masterBound hε,
        Growth.base_of_polynomial hexp, Prod.Lex.toLex_le_toLex, Prod.Lex.toLex_le_toLex, hdegree]
      simp only [lt_irrefl, true_and, false_or, Bool.false_eq_true]
      rcases masterBound_cases hf.degree hbalanced.degree with ⟨h, e⟩ | ⟨h, e⟩ | ⟨h, e⟩ <;> rw [e]
      · simp only [Growth.polynomial, Growth.linear, add_zero]
        rw [and_iff_left hlog, le_iff_lt_or_eq]
      · simp only [Growth.polynomial, ← h]
        exact iff_of_true (Or.inl (lt_add_one _)) (lt_add_one _).le
      · exact iff_of_true (Or.inl (lt_add_one _)) (h.trans (lt_add_one _)).le

/-- **A pattern keeps the cases ordered exactly under its condition.** -/
theorem ordered_iff (p : Procedure) {own : Cases (Tolerant ε)} (pattern : Pattern (Tolerant ε))
    (hown : own.All G.Holds) (hordered : own.Ordered) (hlog : 0 ≤ own.worst.logPower)
    (hcases : (pattern.cases p own).All G.Holds) :
    (pattern.cases p own).Ordered ↔ pattern.KeepsOrder p own := by
  cases pattern with
  | linear =>
      refine iff_of_true (ordered_scaled hown hcases ?_ hordered) trivial
      exact Growth.isExponential_polynomial G.nonneg _ _
  | exponential base => exact iff_of_true (ordered_uniform hcases) trivial
  | splitting calls =>
      rw [ordered_iff_key hcases]
      refine (and_iff_right (le_refl _)).trans ?_
      exact splitting_key_le_iff hown.worst hlog hcases.best
  | dividing calls divisor =>
      have hbound : G.Holds (masterBound (Scalar.ofInt calls) divisor own.worst) := hcases.worst
      rw [ordered_iff_key hcases]
      refine (and_iff_left (le_refl _)).trans ?_
      show Growth.key (if _ then _ else _) ≤ _ ↔ (calls = 1 → _ → _ → _)
      split
      · rename_i hone
        rw [Growth.isLE_compare_iff hown.best hbound]
        refine ⟨fun h _ _ _ => h, fun h => ?_⟩
        -- A polynomial own work is below the bound, and its best case below it.
        cases hexp : own.worst.isExponential with
        | true => exact h hone.1 hone.2 hexp
        | false =>
            rw [ordered_iff_key hown] at hordered
            exact (hordered.1.trans hordered.2).trans (key_le_masterBound hown.worst hbound hexp)
      · rename_i hone
        exact iff_of_true (le_refl _) fun hcalls hmin => absurd ⟨hcalls, hmin⟩ hone

end Pattern

/-! ## Programs -/

namespace Engine

variable (p : Program)

/-- Whether a procedure keeps the cases of its own work ordered, in a program without solved
costs. -/
def KeepsOrder (ε : ℝ) (q : Procedure) : Prop :=
  let own : Verdict (Tolerant ε) := ownVerdict p (fun _ => none) q
  (CallGraph.ofProgram p).isRecursive q.name = true →
    (Pattern.ofProcedure (CallGraph.ofProgram p) q own).KeepsOrder q own.cases

variable {p}

theorem verdictOn_logPower (n : Name) :
    (verdictOn p (fun _ => none) n : Verdict (Tolerant ε)).cases.All fun g => 0 ≤ g.logPower := by
  refine verdictOn_induction closed_logPower (fun n q hq hown => ?_) n
  rw [verdictOn_eq hq, Verdict.withSolved, Verdict.ofBody]
  split
  · rw [Pattern.recursive_cases]
    exact Pattern.logPower_cases q hown _
  · exact hown

/-- The verdict on a procedure whose own work is ordered is ordered exactly if the procedure keeps
the order. -/
theorem verdictOn_ordered_iff
    (hG : ∀ n, (verdictOn p (fun _ => none) n : Verdict (Tolerant ε)).cases.All G.Holds)
    {n : Name} {q : Procedure} (hq : p.find? n = some q)
    (hown : (ownVerdict p (fun _ => none) q : Verdict (Tolerant ε)).cases.Ordered) :
    (verdictOn p (fun _ => none) n : Verdict (Tolerant ε)).cases.Ordered ↔ KeepsOrder p ε q := by
  have hholds := ownVerdict_of_closed G.closed hG q
  have hlog := ownVerdict_of_closed closed_logPower (verdictOn_logPower (p := p) (ε := ε)) q
  have hn := hG n
  rw [verdictOn_eq hq, Verdict.withSolved, Verdict.ofBody] at hn ⊢
  simp only [KeepsOrder]
  split at hn
  · rename_i hrec
    rw [if_pos hrec, Pattern.recursive_cases] at *
    rw [Pattern.ordered_iff q _ hholds hown hlog.worst hn]
    simp [hrec]
  · rename_i hrec
    rw [if_neg hrec]
    exact iff_of_true hown fun h => absurd h hrec

/-- **The cases of all procedures are ordered exactly if every recursive procedure keeps the order
of its own work**, and in that case those of the whole program are ordered as well. The growths of
the procedures lie on a grid, which is no condition when comparisons are exact (`Grid.all`). -/
theorem procedures_ordered_iff (G : Grid ε) (p : Program)
    (hG : ∀ n, (casesOf p n).All G.Holds) :
    ((∀ n, (casesOf p n : Cases (Tolerant ε)).Ordered)
        ↔ ∀ n q, p.find? n = some q → KeepsOrder p ε q)
      ∧ ((∀ n q, p.find? n = some q → KeepsOrder p ε q) →
        (analyze.run (ofProgram p : Engine (Tolerant ε))).run.1.cases.Ordered) := by
  simp only [casesOf_eq, analyze_ofProgram] at hG ⊢
  have hall : (∀ n q, p.find? n = some q → KeepsOrder p ε q) → ∀ n,
      (verdictOn p (fun _ => none) n : Verdict (Tolerant ε)).cases.All G.Holds
        ∧ (verdictOn p (fun _ => none) n : Verdict (Tolerant ε)).cases.Ordered := by
    intro hkeeps
    refine verdictOn_induction (closed_ordered G) fun n q hq hown => ⟨hG n, ?_⟩
    exact (verdictOn_ordered_iff hG hq hown.2).mpr (hkeeps n q hq)
  refine ⟨⟨fun h n q hq => ?_, fun h n => (hall h n).2⟩, fun h => ?_⟩
  · have hown := ownVerdict_of_closed (closed_ordered G) (fun n => ⟨hG n, h n⟩) q
    exact (verdictOn_ordered_iff hG hq hown.2).mp (h n)
  · exact (programVerdict_of_closed (closed_ordered G) (hall h)).2

/-! A split into three is not ordered: balanced, it is bounded by `n ^ log₂ 3`, above the `n` of its
worst case. -/

/-- The call `t(n - k)`, which takes something unknown off the size. -/
def unevenCall : Expr :=
  .call ⟨2, 1⟩ [116] false [.binary ⟨2, 3⟩ .sub (.name ⟨2, 3⟩ [110]) (.name ⟨2, 7⟩ [107])]

/-- The recursion `t(n) = t(n - k) + (t(n - k) + t(n - k))`. -/
def threeWay : Procedure where
  pos := ⟨1, 1⟩
  name := [116]
  display := [116]
  params := [{ name := [110] }]
  body := .mk ⟨1, 1⟩ true ⟨3, 1⟩
    [.give ⟨2, 1⟩
      (some (.binary ⟨2, 1⟩ .add unevenCall (.binary ⟨2, 1⟩ .add unevenCall unevenCall)))]

theorem ownVerdict_threeWay :
    (ownVerdict ⟨⟨1, 1⟩, [threeWay], none⟩ (fun _ => none) threeWay : Verdict (Tolerant 0))
      = Verdict.constant := by
  rw [ownVerdict, threeWay, Costing.block, Costing.list]
  exact Verdict.constant_sequence_constant

theorem pattern_threeWay :
    Pattern.ofProcedure (CallGraph.ofProgram ⟨⟨1, 1⟩, [threeWay], none⟩) threeWay
      (Verdict.constant : Verdict (Tolerant 0)) = .splitting 3 := rfl

theorem threeWay_not_ordered :
    ¬∀ n, (casesOf ⟨⟨1, 1⟩, [threeWay], none⟩ n : Cases (Tolerant 0)).Ordered := by
  intro h
  have hkeeps := (procedures_ordered_iff Grid.all _ fun _ => Grid.all_holds _).1.mp h
    [116] threeWay rfl (by decide)
  rw [ownVerdict_threeWay, pattern_threeWay] at hkeeps
  rcases hkeeps with hexp | hlog
  · exact absurd hexp (by rw [Bool.not_eq_true]; exact Growth.isExponential_polynomial le_rfl _ _)
  · have htwo : Real.logb 2 2 < Real.logb 2 3 := Real.logb_lt_logb (by norm_num) (by norm_num)
      (by norm_num)
    have hdegree : (Growth.constant : Growth (Tolerant 0)).degree.val = 0 := val_zero
    rw [Real.logb_self_eq_one (by norm_num)] at htwo
    rw [Pattern.criticalExponent_two, Verdict.cases_constant, Cases.uniform, hdegree] at hlog
    norm_num at hlog
    linarith

end Engine

end PseudoCost
