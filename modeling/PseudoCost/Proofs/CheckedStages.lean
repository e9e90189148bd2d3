import PseudoCost.Report
import PseudoCost.Cost.Structural
import PseudoCost.Proofs.CheckedSolver

/-!
# The other stages read nothing that is not there

Three more stages look at what has to be there: the verdict on a recursive procedure at the first
two of its terms, the drawing of a recursion tree at the first node of every level, and the report
at the reason why a recurrence was not solved. The checked readers here fail where that is missing,
as those of the solver do, and give what the stages give. The levels of a tree are the one case that
needs an argument: a level is drawn only if the calls on it were counted and found to be some, and
there is a node for each call because every term stands for one.
-/

namespace PseudoCost

open Recurrence

variable {R : Type} [Scalar R]

/-! ## Recursive procedures -/

namespace Verdict

/-- The verdict on a recursion all of whose calls divide the size, by no less than `b`. -/
def divided (p : Procedure) (own : Verdict R) (calls : Int) (b : R) : Verdict R :=
  let bound := masterBound (Scalar.ofInt calls) b own.cases.worst
  let remarked (cases : Cases R) : Verdict R :=
    (onto cases own).remark .divideAndConquer
      (Text.ofInt calls ++ " subproblems of size n/" ++ Scalar.text b ++ Remark.atLine p.pos.line)
      p.pos.line
  if calls = 1 then
    let best := if (countSelfCalls p).min = 0 then own.cases.best else bound
    (remarked ⟨best, bound, bound⟩).pattern p "binary-search pattern"
  else
    (remarked (Cases.uniform bound)).pattern p
      (if calls = 2 && Scalar.near b Scalar.two then "merge-sort pattern"
       else "balanced divide and conquer")

/-- The verdict on a recursion all of whose calls divide the size, with the divisors read. -/
def checkedDividing (p : Procedure) (own : Verdict R) (calls : Int) (terms : List (Term R)) :
    Option (Verdict R) :=
  (checkedSmallest terms).map (divided p own calls)

theorem checkedDividing_eq (p : Procedure) (own : Verdict R) (calls : Int) {terms : List (Term R)}
    (hnil : terms ≠ []) :
    checkedDividing p own calls terms = some (dividing p own calls terms) := by
  have hsmallest : smallestAmount terms = smallest (terms.map (·.change.amount)) := by
    cases terms with
    | nil => rfl
    | cons t ts => rw [smallestAmount, List.map_cons, smallest, List.foldl_map]
  rw [checkedDividing, checkedSmallest_eq hnil, hsmallest]
  rfl

/-- Whether two terms are the size less one and the size less two, with the first two terms read. -/
def checkedFibonacci (calls : Int) (terms : List (Term R)) : Option Bool := do
  let t ← terms[0]?
  let u ← terms[1]?
  let low := Scalar.min t.change.amount u.change.amount
  let high := Scalar.max t.change.amount u.change.amount
  return calls == 2 && terms.length == 2 && Scalar.near low Scalar.one
    && Scalar.near high Scalar.two

theorem checkedFibonacci_eq (calls : Int) (t u : Term R) (ts : List (Term R)) :
    checkedFibonacci calls (t :: u :: ts) = some (isFibonacci calls (t :: u :: ts)) := by
  cases ts <;> simp [checkedFibonacci, isFibonacci]

/-- The verdict on a recursion all of whose calls take something off the size, with the amounts
read. -/
def checkedSubtracting (p : Procedure) (own : Verdict R) (calls : Int) (terms : List (Term R)) :
    Option (Verdict R) := do
  let grows (base : R) : Verdict R := onto (Cases.uniform (Growth.exponential base)) own
  if calls = 1 then return (onto (own.cases.scaled Growth.linear) own).pattern p "linear recursion"
  else if terms.length = 1 then
    let first ← terms.head?
    let k := first.change.amount
    return (grows (Scalar.pow (Scalar.ofInt calls) (Scalar.one / k))).pattern p
      (if calls = 2 && Scalar.near k Scalar.one then "hanoi pattern"
       else "multi-branch subtract pattern")
  else if ← checkedFibonacci calls terms then
    return (grows Scalar.golden).pattern p "fibonacci pattern"
  else return (grows (dominantRoot terms)).pattern p "multi-branch subtract pattern"

theorem checkedSubtracting_eq (p : Procedure) (own : Verdict R) (calls : Int)
    {terms : List (Term R)} (hnil : terms ≠ []) :
    checkedSubtracting p own calls terms = some (subtracting p own calls terms) := by
  unfold checkedSubtracting subtracting
  split
  · rfl
  match terms with
  | [] => exact absurd rfl hnil
  | [t] => rfl
  | t :: u :: ts =>
      rw [checkedFibonacci_eq]
      cases isFibonacci calls (t :: u :: ts) <;> rfl

/-- The verdict on a recursive procedure, with everything it looks at read. -/
def checkedRecursive (g : CallGraph) (p : Procedure) (own : Verdict R) : Option (Verdict R) :=
  if own.has .callInsideLoop then
    some (((onto (Cases.uniform (Growth.exponential Scalar.two)) own).assume).pattern p
      "recursion inside a loop, exponential growth assumed")
  else if !g.callsSelf p.name then
    some (((onto (own.cases.scaled Growth.linear) own).assume).pattern p
      "mutual recursion, linear depth assumed")
  else
    let terms : List (Term R) := (worstTerms p).filter (·.change.shrinks)
    let calls := totalCalls terms
    if calls = 0 then some (linearDepth p own "argument change could not be classified")
    else if anyOf .split terms then some (splitting p own calls)
    else if allOf .divide terms then checkedDividing p own calls terms
    else if allOf .subtract terms then checkedSubtracting p own calls terms
    else some (linearDepth p own "mixed subproblem sizes")

/-- **The verdict on a recursive procedure reads nothing that is not there**, whatever its body. -/
theorem checkedRecursive_eq (g : CallGraph) (p : Procedure) (own : Verdict R) :
    checkedRecursive g p own = some (own.recursive g p) := by
  simp only [checkedRecursive, recursive]
  split
  · rfl
  split
  · rfl
  split
  · rfl
  split
  · rfl
  split
  · rename_i hdivide
    exact checkedDividing_eq p own _ (allOf_iff.mp hdivide).1
  split
  · rename_i hsubtract
    exact checkedSubtracting_eq p own _ (allOf_iff.mp hsubtract).1
  · rfl

end Verdict

/-! ## Recursion trees -/

namespace Recurrence

namespace TreePlan

variable (plan : TreePlan R)

/-- The level made of calls on some sizes, with the cost of its first node read. -/
def checkedLevel (depth : Nat) (sizes : List (SymbolicSize R)) : Option (TreeLevel R) := do
  return plan.levelWith (← (plan.costTexts sizes).head?) depth sizes

/-- The levels from a depth on, with the first node of each read. -/
def checkedLevelsFrom : Nat → Nat → Nat → List (SymbolicSize R) →
    Option (List (TreeLevel R) × Bool)
  | 0, _, depth, sizes => do return ([← plan.checkedLevel depth sizes], false)
  | further + 1, room, depth, sizes => do
    let level ← plan.checkedLevel depth sizes
    let count := plan.childCount sizes
    if count = 0 then return ([level], false)
    else if room < count then return ([level], true)
    else
      let (below, truncated) ←
        checkedLevelsFrom further (room - count) (depth + 1) (plan.nextSizes sizes)
      return (level :: below, truncated)

theorem checkedLevel_eq (depth : Nat) {sizes : List (SymbolicSize R)} (hnil : sizes ≠ []) :
    plan.checkedLevel depth sizes = some (plan.level depth sizes) := by
  obtain ⟨s, ss, rfl⟩ := List.exists_cons_of_ne_nil hnil
  rfl

variable {plan}

/-- Where calls are counted there are sizes to go on with. -/
theorem nextSizes_ne_nil (hpos : Positive plan.relation.terms) {sizes : List (SymbolicSize R)}
    (hcount : plan.childCount sizes ≠ 0) : plan.nextSizes sizes ≠ [] := by
  -- Calls are counted by adding up multiplicities; each of them has to give a size as well.
  obtain ⟨hsizes, hcalls⟩ := Nat.mul_ne_zero_iff.mp hcount
  obtain ⟨s, hs⟩ := List.exists_mem_of_ne_nil _ (mt List.length_eq_zero_iff.mpr hsizes)
  have hterms : plan.relation.terms ≠ [] := by
    intro hnil
    rw [hnil] at hcalls
    exact hcalls rfl
  obtain ⟨t, ht⟩ := List.exists_mem_of_ne_nil _ hterms
  have hone := hpos t ht
  have hmem : s.after t.change ∈ childSizes plan.relation.terms s := by
    refine List.mem_flatMap.mpr ⟨t, ht, List.mem_replicate.mpr ⟨?_, rfl⟩⟩
    omega
  exact List.ne_nil_of_mem (List.mem_flatMap.mpr ⟨s, hs, hmem⟩)

theorem checkedLevelsFrom_eq (hpos : Positive plan.relation.terms) :
    ∀ (further room depth : Nat) {sizes : List (SymbolicSize R)}, sizes ≠ [] →
      plan.checkedLevelsFrom further room depth sizes
        = some (plan.levelsFrom further room depth sizes)
  | 0, _, depth, sizes, hnil => by
      rw [checkedLevelsFrom, levelsFrom, checkedLevel_eq plan depth hnil]
      rfl
  | further + 1, room, depth, sizes, hnil => by
      rw [checkedLevelsFrom, levelsFrom, checkedLevel_eq plan depth hnil]
      dsimp only [Option.bind_eq_bind, Option.bind_some]
      split
      · rfl
      rename_i hcount
      split
      · rfl
      · rw [checkedLevelsFrom_eq hpos further _ _ (nextSizes_ne_nil hpos hcount)]
        rfl

end TreePlan

/-- How sizes shrink along a branch, with the amounts read. -/
def checkedShrink (terms : List (Term R)) : Option (Text × Text) := do
  if allOf .divide terms then
    let first ← terms.head?
    let b := Scalar.text first.change.amount
    return (b, "log_" ++ b ++ " n")
  else if allOf .split terms then
    return ("2 (split point assumed balanced)", "between log_2 n and n")
  else if allOf .subtract terms then
    let k ← checkedSmallest terms
    return ("-" ++ Scalar.text k, if Scalar.near k Scalar.one then "n" else "n/" ++ Scalar.text k)
  else return ("mixed", "unknown")

theorem checkedShrink_eq (terms : List (Term R)) :
    checkedShrink terms = some (shrinkTexts terms) := by
  rw [checkedShrink, shrinkTexts]
  split
  · rename_i hdivide
    obtain ⟨t, ts, rfl⟩ := List.exists_cons_of_ne_nil (allOf_iff.mp hdivide).1
    rfl
  split
  · rfl
  split
  · rename_i hsubtract
    rw [checkedSmallest_eq (allOf_iff.mp hsubtract).1]
    rfl
  · rfl

/-- The tree of a plan, with everything the drawing looks at read. -/
def TreePlan.checkedTree (plan : TreePlan R) : Option (CallTree R) := do
  let terms := plan.relation.terms
  let (divisor, height) ← checkedShrink terms
  let (levels, truncated) ←
    plan.checkedLevelsFrom (plan.maxDepth.toNat - 1) (nodeCap - 1) 0 [SymbolicSize.whole]
  return {
    root := plan.grow (levels.length - 1) SymbolicSize.whole
    levels := levels
    total := totalText plan.nominal levels
    truncated := truncated
    profile := { Recurrence.profile terms with divisor := divisor, height := height } }

/-- **The drawing of a tree reads nothing that is not there**, to whatever depth. -/
theorem TreePlan.checkedTree_eq {plan : TreePlan R} (hpos : Positive plan.relation.terms) :
    plan.checkedTree = some plan.tree := by
  rw [checkedTree, checkedShrink_eq, checkedLevelsFrom_eq hpos _ _ _ (List.cons_ne_nil _ _)]
  rfl

end Recurrence

/-! ## Reports -/

/-- Why a recurrence could not be solved, if it could not. -/
def Recurrence.Outcome.failure? : Outcome R → Option (Text × List Step)
  | .solved _ => none
  | .unsolvable reason steps => some (reason, steps)

namespace Report

/-- The report on a verdict and the outcome of a recurrence, with its solution or the reason of its
failure read. -/
def checkedConclude (v : Verdict R) (relation : Option (Relation R)) (outcome : Option (Outcome R))
    (programLevel : Bool) : Option (Report R) := do
  let solved := outcome.bind Outcome.solution?
  if v.overrides || solved.isNone || !programLevel then
    if solved.isSome && !programLevel then return ofPart v relation (← solved)
    else if v.overrides then return ofStructure v v.directText
    else if outcome.isSome then
      let (reason, steps) ← (← outcome).failure?
      return ofFailure v reason steps
    else return ofStructure v "no recursion; loop structure and call costs combined directly"
  else return ofSolution v (← solved)

/-- **A report reads the reason of a failure only where there is one.** -/
theorem checkedConclude_eq (v : Verdict R) (relation : Option (Relation R))
    (outcome : Option (Outcome R)) (programLevel : Bool) :
    checkedConclude v relation outcome programLevel
      = some (conclude v relation outcome programLevel) := by
  unfold checkedConclude conclude
  rcases outcome with _ | ⟨s⟩ | ⟨reason, steps⟩
  · cases v.overrides <;> rfl
  · cases programLevel <;> cases v.overrides <;> rfl
  · cases v.overrides <;> rfl

/-- The report on a verdict, a relation, its outcome and its tree, with everything read. -/
def checkedResolve (v : Verdict R) (relation : Option (Relation R)) (outcome : Option (Outcome R))
    (tree : Option (CallTree R)) (programLevel : Bool) : Option (Report R) := do
  let r ← checkedConclude v relation outcome programLevel
  return { r with
    relation := relation, outcome := outcome, tree := tree, mainResult := r.cases.boundsText }

theorem checkedResolve_eq (v : Verdict R) (relation : Option (Relation R))
    (outcome : Option (Outcome R)) (tree : Option (CallTree R)) (programLevel : Bool) :
    checkedResolve v relation outcome tree programLevel
      = some (resolve v relation outcome tree programLevel) := by
  rw [checkedResolve, checkedConclude_eq]
  rfl

end Report

end PseudoCost
