import PseudoCost.Proofs.Costing
import PseudoCost.Proofs.GrowthOrder

/-!
# What the analysis does to the three cases

Remarks and guesses aside, the cost of a block is made by a few operations on triples of growths,
and the cost of a recursive procedure by one of four patterns. This module says which: an equation
for the cases of each combination of verdicts, and `recursive_cases`, which reads the cases of a
recursive procedure off its `Pattern`. Later proofs never open the definitions of the verdicts.

The second half is about the bound of the master theorem, the only pattern whose growth depends on
the own work in more than one way. On a grid it is never below the own work, unless that is
exponential (`key_le_masterBound`): the bound has no exponential part.
-/

namespace PseudoCost

open Recurrence

/-! ## Cases of combined verdicts -/

namespace Verdict

section Remarks

variable {R : Type}

@[simp] theorem cases_remark (v : Verdict R) (kind : RemarkKind) (text : Text) (line : Int) :
    (v.remark kind text line).cases = v.cases := rfl

@[simp] theorem cases_assume (v : Verdict R) : v.assume.cases = v.cases := rfl

@[simp] theorem cases_merge (v w : Verdict R) : (v.merge w).cases = v.cases := rfl

@[simp] theorem cases_onto (c : Cases R) (v : Verdict R) : (onto c v).cases = c := rfl

@[simp] theorem cases_pattern (v : Verdict R) (p : Procedure) (text : Text) :
    (v.pattern p text).cases = v.cases := rfl

@[simp] theorem cases_remarkProgress (v : Verdict R) (shape : LoopShape) (line : Int) :
    (v.remarkProgress shape line).cases = v.cases := by
  rw [remarkProgress]
  split <;> rfl

end Remarks

variable {R : Type} [Scalar R]

@[simp] theorem cases_constant :
    (constant : Verdict R).cases = Cases.uniform Growth.constant := rfl

@[simp] theorem cases_sequence (v w : Verdict R) :
    (v.sequence w).cases = v.cases.max w.cases := rfl

@[simp] theorem cases_branched (c t e : Verdict R) :
    (c.branched t e).cases = c.cases.max (t.cases.either e.cases) := rfl

/-- The cases of a loop: those of one pass times the iterations, except that a loop that can be
left early keeps one pass as its best case. -/
theorem cases_repeated (v : Verdict R) (shape : LoopShape) (line : Int) :
    (v.repeated shape line).cases =
      ⟨if shape.earlyExit then v.cases.best
          else v.cases.best.times shape.progress.iterations,
        v.cases.worst.times shape.progress.iterations,
        v.cases.average.times shape.progress.iterations⟩ := by
  cases h : shape.earlyExit with
  | false => simp [repeated, h, Cases.scaled]
  | true =>
      simp only [repeated, h, if_true]
      split <;> simp [Cases.scaled]

end Verdict

variable {R : Type} [Scalar R]

/-! ## A property of all growths -/

/-- A property holds of the growth in every case. -/
structure Cases.All (P : Growth R → Prop) (c : Cases R) : Prop where
  best : P c.best
  worst : P c.worst
  average : P c.average

theorem Growth.max_of_both {P : Growth R → Prop} {g h : Growth R} (hg : P g) (hh : P h) :
    P (g.max h) := by
  rw [max]
  split <;> assumption

theorem Growth.max_self (g : Growth R) : g.max g = g := by
  rw [max]
  split <;> rfl

theorem Growth.min_of_both {P : Growth R → Prop} {g h : Growth R} (hg : P g) (hh : P h) :
    P (g.min h) := by
  rw [min]
  split <;> assumption

theorem Verdict.constant_sequence_constant :
    (constant : Verdict R).sequence constant = constant := by
  rw [sequence, Cases.max]
  simp only [cases_constant, Cases.uniform, Growth.max_self]
  rfl

section Closed

variable {P : Growth R → Prop} (hconstant : P Growth.constant)
  (htimes : ∀ (g : Growth R) (progress : Progress), P g → P (g.times progress.iterations))
include hconstant htimes

/-- A property of growths that loops preserve is one of every worst case: the other ways of
combining costs only choose between growths. -/
theorem Costing.closed_worst : Costing.Closed fun v : Verdict R => P v.cases.worst where
  constant := hconstant
  insideLoop _ _ hv := hv
  sequence hv hw := Growth.max_of_both hv hw
  repeated shape line hv := by
    rw [Verdict.cases_repeated]
    exact htimes _ _ hv
  branched hc ht he := Growth.max_of_both hc (Growth.max_of_both ht he)

/-- A property of growths that loops preserve is one of every cost. -/
theorem Costing.closed_all : Costing.Closed fun v : Verdict R => v.cases.All P where
  constant := ⟨hconstant, hconstant, hconstant⟩
  insideLoop _ _ hv := hv
  sequence hv hw :=
    ⟨Growth.max_of_both hv.best hw.best, Growth.max_of_both hv.worst hw.worst,
      Growth.max_of_both hv.average hw.average⟩
  repeated shape line hv := by
    rw [Verdict.cases_repeated]
    refine ⟨?_, htimes _ _ hv.worst, htimes _ _ hv.average⟩
    show P (if shape.earlyExit then _ else _)
    split
    · exact hv.best
    · exact htimes _ _ hv.best
  branched hc ht he :=
    ⟨Growth.max_of_both hc.best (Growth.min_of_both ht.best he.best),
      Growth.max_of_both hc.worst (Growth.max_of_both ht.worst he.worst),
      Growth.max_of_both hc.average (Growth.max_of_both ht.average he.average)⟩

end Closed

/-! ## Patterns of recursion -/

/-- How the cost of a recursive procedure comes from its own work. -/
inductive Pattern (R : Type) where
  /-- The own work, as often as the input size. -/
  | linear
  /-- A split at an unknown point. -/
  | splitting (calls : Int)
  /-- Calls that all divide the size, by no less than the divisor. -/
  | dividing (calls : Int) (divisor : R)
  /-- Exponential growth with a base that the own work has no part in. -/
  | exponential (base : R)

namespace Pattern

/-- The pattern of a recursion all of whose calls take something off the size. -/
def ofSubtracting (calls : Int) (terms : List (Term R)) : Pattern R :=
  if calls = 1 then .linear
  else
    match terms with
    | [t] => .exponential (Scalar.pow (Scalar.ofInt calls) (Scalar.one / t.change.amount))
    | _ =>
      .exponential (if Verdict.isFibonacci calls terms then Scalar.golden else dominantRoot terms)

/-- The pattern of a recursion with the given terms of shrinking calls. -/
def ofTerms (terms : List (Term R)) : Pattern R :=
  let calls := totalCalls terms
  if calls = 0 then .linear
  else if anyOf .split terms then .splitting calls
  else if allOf .divide terms then
    .dividing calls (Verdict.smallest (terms.map (·.change.amount)))
  else if allOf .subtract terms then ofSubtracting calls terms
  else .linear

/-- The pattern of a recursive procedure with the given own work. -/
def ofProcedure (g : CallGraph) (p : Procedure) (own : Verdict R) : Pattern R :=
  if own.has .callInsideLoop then .exponential Scalar.two
  else if !g.callsSelf p.name then .linear
  else ofTerms ((worstTerms p).filter (·.change.shrinks))

/-- The cases of a recursive procedure with a pattern, from those of its own work. Only a recursion
with one dividing call looks at whether some path makes no call at all. -/
def cases (p : Procedure) (own : Cases R) : Pattern R → Cases R
  | .linear => own.scaled Growth.linear
  | .splitting calls =>
    let balanced := masterBound (Scalar.ofInt calls) Scalar.two own.worst
    ⟨balanced, Growth.linear.times own.worst, balanced⟩
  | .dividing calls divisor =>
    let bound := masterBound (Scalar.ofInt calls) divisor own.worst
    ⟨if calls = 1 ∧ (countSelfCalls p).min = 0 then own.best else bound, bound, bound⟩
  | .exponential base => Cases.uniform (Growth.exponential base)

theorem cases_dividing (p : Procedure) (own : Verdict R) (calls : Int) (terms : List (Term R)) :
    (Verdict.dividing p own calls terms).cases
      = cases p own.cases (.dividing calls (Verdict.smallest (terms.map (·.change.amount)))) := by
  simp only [Verdict.dividing, cases]
  by_cases h : calls = 1
  · by_cases hmin : (countSelfCalls p).min = 0 <;> simp [h, hmin]
  · simp [h, Cases.uniform]

theorem cases_subtracting (p : Procedure) (own : Verdict R) (calls : Int) (terms : List (Term R)) :
    (Verdict.subtracting p own calls terms).cases
      = cases p own.cases (ofSubtracting calls terms) := by
  simp only [Verdict.subtracting, ofSubtracting]
  by_cases h : calls = 1
  · simp [h, cases]
  · rw [if_neg h, if_neg h]
    -- Only a single kind of call has a pattern of its own.
    rcases terms with _ | ⟨t, _ | ⟨u, terms⟩⟩
    · dsimp only
      split <;> rfl
    · rfl
    · dsimp only
      split <;> rfl

/-- The cases of a recursive procedure are those of its pattern. -/
theorem recursive_cases (g : CallGraph) (p : Procedure) (own : Verdict R) :
    (own.recursive g p).cases = (ofProcedure g p own).cases p own.cases := by
  simp only [Verdict.recursive, ofProcedure, ofTerms]
  split
  · rfl
  · split
    · rfl
    · split
      · rfl
      · split
        · rfl
        · split
          · exact cases_dividing ..
          · split
            · exact cases_subtracting ..
            · rfl

end Pattern

/-! ## Costs on a grid -/

section OnGrid

open Tolerant

variable {ε : ℝ} {G : Grid ε}

theorem isExponential_iterations (hε : 0 ≤ ε) (progress : Progress) :
    (progress.iterations : Growth (Tolerant ε)).isExponential = false := by
  cases progress <;> exact Growth.isExponential_polynomial hε _ _

theorem degree_iterations (progress : Progress) :
    (progress.iterations : Growth (Tolerant ε)).degree.val = 0
      ∨ (progress.iterations : Growth (Tolerant ε)).degree.val = 1 := by
  cases progress <;>
    simp [Progress.iterations, Growth.constant, Growth.linear, Growth.logarithmic,
      Growth.polynomial]

theorem logPower_iterations (progress : Progress) :
    0 ≤ (progress.iterations : Growth (Tolerant ε)).logPower := by
  cases progress <;>
    simp [Progress.iterations, Growth.constant, Growth.linear, Growth.logarithmic,
      Growth.polynomial]

theorem atLeastOnce_iterations (progress : Progress) :
    0 < (progress.iterations : Growth (Tolerant ε)).degree.val
      ∨ (progress.iterations : Growth (Tolerant ε)).degree.val = 0
        ∧ 0 ≤ (progress.iterations : Growth (Tolerant ε)).logPower := by
  rcases degree_iterations (ε := ε) progress with h | h
  · exact Or.inr ⟨h, logPower_iterations progress⟩
  · exact Or.inl (by rw [h]; norm_num)

theorem holds_constant : G.Holds (Growth.constant : Growth (Tolerant ε)) where
  degree := by simpa [Growth.constant, Growth.polynomial] using G.zero_mem
  base := by
    rw [Growth.constant, Growth.base_of_polynomial (Growth.isExponential_polynomial G.nonneg _ _)]
    exact G.one_mem

/-- Without tolerance all costs are on the grid of all reals. -/
theorem Grid.all_holds (c : Cases (Tolerant 0)) : c.All Grid.all.Holds :=
  ⟨⟨trivial, trivial⟩, ⟨trivial, trivial⟩, ⟨trivial, trivial⟩⟩

/-- Without exponential callees no cost is exponential. -/
theorem closed_polynomial (hε : 0 ≤ ε) : Costing.Closed fun v : Verdict (Tolerant ε) =>
    v.cases.worst.isExponential = false := by
  refine Costing.closed_worst (P := fun g : Growth (Tolerant ε) => g.isExponential = false)
    (Growth.isExponential_polynomial hε _ _) fun g progress hg => ?_
  rw [Growth.isExponential_times hε (isExponential_iterations hε progress), hg]

/-- Costs stay on a grid. -/
theorem Grid.closed (G : Grid ε) :
    Costing.Closed fun v : Verdict (Tolerant ε) => v.cases.All G.Holds :=
  Costing.closed_all holds_constant fun _ progress hg =>
    Growth.holds_times hg (isExponential_iterations G.nonneg progress) (degree_iterations progress)

end OnGrid

/-! ## The bound of the master theorem -/

section MasterBound

open Tolerant

variable {ε : ℝ} {G : Grid ε} {f : Growth (Tolerant ε)} {a b : Tolerant ε}

theorem isExponential_masterBound (hε : 0 ≤ ε) : (masterBound a b f).isExponential = false := by
  rw [masterBound]
  cases masterCase a b f.degree <;> exact Growth.isExponential_polynomial hε _ _

theorem base_masterBound (hε : 0 ≤ ε) : (masterBound a b f).base.val = 1 :=
  Growth.base_of_polynomial (isExponential_masterBound hε)

/-- The bound is in one of three cases; on a grid the middle one is an equality of degrees. -/
theorem masterBound_cases (hf : f.degree.val ∈ G.degrees)
    (hbound : (masterBound a b f).degree.val ∈ G.degrees) :
    (f.degree.val < (criticalExponent a b).val - ε
        ∧ masterBound a b f = Growth.polynomial (criticalExponent a b) 0)
      ∨ (f.degree.val = (criticalExponent a b).val
        ∧ masterBound a b f = Growth.polynomial (criticalExponent a b) (f.logPower + 1))
      ∨ ((criticalExponent a b).val < f.degree.val
        ∧ masterBound a b f = Growth.polynomial f.degree f.logPower) := by
  simp only [masterBound, masterCase, lt_iff, le_iff, val_sub, val_epsilon, val_abs] at hbound ⊢
  split
  · rename_i h
    exact Or.inl ⟨h, rfl⟩
  · split
    · rename_i hnear
      simp only [*, if_true, if_false] at hbound
      refine Or.inr (Or.inl ⟨?_, rfl⟩)
      exact (G.degrees_apart _ hf _ hbound).resolve_right (not_lt.mpr hnear)
    · rename_i hlow hnear
      refine Or.inr (Or.inr ⟨?_, rfl⟩)
      by_contra hle
      rw [abs_of_nonpos (by linarith)] at hnear
      linarith

/-- On a grid the bound is not below the own work, unless that is exponential. -/
theorem key_le_masterBound (hf : G.Holds f) (hbound : G.Holds (masterBound a b f))
    (hpoly : f.isExponential = false) : f.key ≤ (masterBound a b f).key := by
  rw [Growth.key, Growth.key, base_masterBound G.nonneg, Growth.base_of_polynomial hpoly,
    Prod.Lex.toLex_le_toLex, Prod.Lex.toLex_le_toLex]
  refine Or.inr ⟨rfl, ?_⟩
  have hε := G.nonneg
  rcases masterBound_cases hf.degree hbound.degree with ⟨h, e⟩ | ⟨h, e⟩ | ⟨-, e⟩ <;> rw [e]
  · exact Or.inl (by show f.degree.val < (criticalExponent a b).val; linarith)
  · exact Or.inr ⟨h, by show f.logPower ≤ f.logPower + 1; omega⟩
  · exact Or.inr ⟨rfl, le_rfl⟩

/-- An exponential growth is above every bound of the master theorem. -/
theorem masterBound_lt (hexp : f.isExponential = true) (hε : 0 ≤ ε) {f' : Growth (Tolerant ε)} :
    (masterBound a b f').key < f.key := by
  rw [Growth.key, Growth.key, Prod.Lex.toLex_lt_toLex, base_masterBound hε,
    Growth.base_of_exponential hexp]
  have h := Growth.isExponential_iff.mp hexp
  exact Or.inl (by show (1 : ℝ) < f.expBase.val; linarith)

end MasterBound

end PseudoCost
