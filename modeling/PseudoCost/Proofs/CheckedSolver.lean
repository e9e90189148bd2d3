import PseudoCost.Recurrence.CallTree
import PseudoCost.Proofs.SolverAgreement

/-!
# The solver reads nothing that is not there

The solver looks at the first term of a relation, at the first two and at the last of its shifts,
and at entries of a table of samples. In the definitions a missing entry has some value or other.
Here the same steps are taken by *checked* readers, which fail where an entry is missing, and each
of them gives what the solver gives. What makes the entries be there is known elsewhere: the terms
of a form are not empty (`allOf_iff`), every term stands for a call (`worstTerms_positive`), and a
sample depends on smaller sizes only, since the size of a call is kept below the size it is made
from (`childIndex_lt`).
-/

namespace PseudoCost.Recurrence

section Readers

variable {R : Type} [Scalar R]

/-! ## Amounts -/

/-- The smallest amount of some terms, starting from the first term. -/
def checkedSmallest (terms : List (Term R)) : Option R := do
  let first ← terms.head?
  return terms.foldl (fun b t => Scalar.min b t.change.amount) first.change.amount

theorem checkedSmallest_eq {terms : List (Term R)} (h : terms ≠ []) :
    checkedSmallest terms = some (smallestAmount terms) := by
  obtain ⟨t, ts, rfl⟩ := List.exists_cons_of_ne_nil h
  have hfirst : Scalar.min t.change.amount t.change.amount = t.change.amount := ite_self _
  rw [checkedSmallest, smallestAmount, List.head?_cons, Option.bind_eq_bind, Option.bind_some,
    List.foldl_cons, hfirst]
  rfl

/-! ## The master theorem -/

/-- The common divisor of some terms, read off the first of them. -/
def checkedDivisor (terms : List (Term R)) : Option (Option R) :=
  if allOf .split terms then some (some Scalar.two)
  else if allOf .divide terms then do
    let first ← terms.head?
    let b := first.change.amount
    return if terms.any fun t => Scalar.epsilon < Scalar.abs (t.change.amount - b) then none
      else some b
  else some none

theorem checkedDivisor_eq (terms : List (Term R)) :
    checkedDivisor terms = some (divisor? terms) := by
  unfold checkedDivisor divisor?
  split
  · rfl
  split
  · rename_i hdivide
    obtain ⟨t, ts, rfl⟩ := List.exists_cons_of_ne_nil (allOf_iff.mp hdivide).1
    rfl
  · rfl

/-- The solution by the master theorem for terms with a common divisor. -/
def masterSolution (rel : Relation R) (b : R) : Solution R :=
  let f := rel.localCost
  let balanced := allOf .split rel.terms
  let calls := totalCalls rel.terms
  let a : R := Scalar.ofInt calls
  { bound := masterBound a b f
    method := "Master theorem"
    justification := caseText f.logPower (masterCase a b f.degree)
      ++ (if balanced then "; split point assumed balanced" else [] : Text)
    steps := masterSteps balanced a b f
    remarks := [⟨.divideAndConquer,
      Text.ofInt calls ++ " subproblems of size n/" ++ Scalar.text b, 0⟩] }

/-- The solution by the master theorem, with its divisor read. -/
def checkedMaster (rel : Relation R) : Option (Option (Solution R)) :=
  if rel.localCost.isExponential then some none
  else do
    let divisor ← checkedDivisor rel.terms
    return divisor.map (masterSolution rel)

theorem checkedMaster_eq (rel : Relation R) : checkedMaster rel = some (solveByMaster rel) := by
  rw [checkedMaster, solveByMaster, checkedDivisor_eq]
  dsimp only
  split <;> rfl

/-! ## Linear relations -/

/-- Whether there is one term and it makes one call. -/
def checkedSingle (terms : List (Term R)) : Option Bool :=
  if terms.length = 1 then do
    let first ← terms.head?
    return first.multiplicity = 1
  else some false

/-- Whether there are two shifts, one and two. -/
def checkedOneTwo (shifts : List R) : Option Bool :=
  if shifts.length = 2 then do
    let j ← shifts[0]?
    let k ← shifts[1]?
    return Scalar.near j Scalar.one && Scalar.near k Scalar.two
  else some false

theorem checkedOneTwo_eq (shifts : List R) : checkedOneTwo shifts = some (isOneTwo shifts) := by
  match shifts with
  | [] | [_] | [_, _] => rfl
  | _ :: _ :: _ :: _ => simp [checkedOneTwo, isOneTwo]

/-- The solution of a relation all of whose calls take something off the size, with its shifts
read. -/
def checkedLinear (root : List (Term R) → R) (rel : Relation R) : Option (Option (Solution R)) := do
  let shifts := sortedShifts rel.terms
  if !allOf .subtract rel.terms || rel.localCost.isExponential then return none
  else if ← checkedSingle rel.terms then
    let first ← rel.terms.head?
    return unrolled rel first.change.amount
  else if ← checkedOneTwo shifts then return fibonacci rel
  else if rel.terms.length = 1 then
    let first ← rel.terms.head?
    return repeatedShift rel first.multiplicity first.change.amount
  else
    let largest ← shifts.getLast?
    return mixedShifts rel largest (root rel.terms)

theorem length_sortedShifts (terms : List (Term R)) :
    (sortedShifts terms).length
      = terms.foldr (fun t calls => t.multiplicity.toNat + calls) 0 := by
  rw [sortedShifts, List.length_mergeSort]
  induction terms with
  | nil => rfl
  | cons t terms ih =>
      rw [amounts, List.flatMap_cons, List.length_append, List.length_replicate, List.foldr_cons,
        ← ih]
      rfl

/-- Counting the calls first makes no difference. -/
theorem isFibonacci_eq_isOneTwo (terms : List (Term R)) :
    isFibonacci terms = isOneTwo (sortedShifts terms) := by
  rw [isFibonacci, ← length_sortedShifts]
  rcases sortedShifts terms with _ | ⟨j, _ | ⟨k, _ | ⟨l, shifts⟩⟩⟩
  · rfl
  · rfl
  · rfl
  · simp [isOneTwo]

/-! ## Numeric substitution -/

/-- Adds the next value to a table, with the values it depends on read from the table. -/
def checkedExtend (rel : Relation R) (table : Array R) : Option (Array R) := do
  let m := table.size
  let v ← rel.terms.foldlM (fun v t => do
      let w ← table[childIndex t.change m]?
      return v + Scalar.ofInt t.multiplicity * w)
    (rel.localCost.evaluate (Scalar.ofNat m))
  return table.push v

/-- The values of a relation up to a size, with every value read from those of smaller sizes. -/
def checkedTable (rel : Relation R) (limit : Nat) : Option (Array R) :=
  Nat.repeat (fun table? => table? >>= checkedExtend rel) (limit - 1)
    (some #[Scalar.one, Scalar.one])

/-- The sampled values in a step, read from a table. -/
def checkedSamples (table : Array R) : Option Text := do
  let samples ← (List.range' 3 (lastExponent - 2)).mapM fun e => do
    let v ← table[Nat.pow 2 e]?
    return "T(" ++ Text.ofNat (Nat.pow 2 e) ++ ") = " ++ Scalar.sampleText v
  return Text.join ", " samples

/-- The ratio of a growth to a value that is read from a table. -/
def checkedRatio (table : Array R) (g : Growth R) (n : Nat) : Option R := do
  let v ← table[n]?
  return v / g.evaluate (Scalar.ofNat n)

/-- The first growth to which the samples keep a steady ratio, with the samples read. -/
def checkedSettle (table : Array R) : List (Growth R) → Option (List Step × Option (Growth R))
  | [] => some ([], none)
  | g :: gs => do
    let early ← checkedRatio table g sampleMiddle
    let late ← checkedRatio table g sampleLimit
    let tried := candidateStep g early late
    if isSteady early late then return ([tried], some g)
    else
      let (steps, found) ← checkedSettle table gs
      return (tried :: steps, found)

/-- The outcome of sampling a relation, with the samples read. -/
def checkedSampling (rel : Relation R) : Option (Outcome R) :=
  if anyOf .unknown rel.terms || anyOf .same rel.terms then
    some (.unsolvable "argument change could not be classified" [identified rel])
  else do
    let table ← checkedTable rel sampleLimit
    let samples ← checkedSamples table
    let (tried, found) ← checkedSettle table ladder
    let steps := identified rel :: ⟨"Sample T(n)", samples⟩ :: tried
    match found with
    | some g =>
      return .solved
        { bound := g
          method := "Substitution"
          justification := "T(n)/g(n) settles within 20% between n = 2^8 and n = 2^12"
          steps := steps ++ [conclusion g] }
    | none =>
      return .unsolvable "numeric substitution did not converge to a candidate bound"
        (steps ++ [⟨"Conclusion", "no candidate bound fits the sampled values"⟩])

/-- The outcome of a relation, with everything the solver looks at read. -/
def checkedSolve (rel : Relation R) : Option (Outcome R) :=
  if rel.terms.isEmpty then some (.unsolvable "relation has no recursive terms" [identified rel])
  else do
    match ← checkedMaster rel with
    | some s => return .solved s
    | none =>
      match ← checkedLinear dominantRoot rel with
      | some s => return .solved s
      | none => checkedSampling rel

theorem getElem?_eq_valueAt {table : Array R} {n : Nat} (hn : n < table.size) :
    table[n]? = some (valueAt table n) := by
  rw [valueAt, Array.getElem?_eq_getElem hn]
  rfl

theorem checkedRatio_eq {table : Array R} {n : Nat} (hn : n < table.size) (g : Growth R) :
    checkedRatio table g n = some (ratioAt table g n) := by
  rw [checkedRatio, getElem?_eq_valueAt hn]
  rfl

theorem checkedSettle_eq {table : Array R} (htable : sampleLimit < table.size) :
    ∀ gs : List (Growth R), checkedSettle table gs = some (settle table gs)
  | [] => rfl
  | g :: gs => by
      have hmiddle : sampleMiddle < table.size := Nat.lt_trans (by decide) htable
      rw [checkedSettle, settle, checkedRatio_eq hmiddle, checkedRatio_eq htable,
        checkedSettle_eq htable gs]
      simp only [Option.bind_eq_bind, Option.bind_some]
      split <;> rfl

theorem mapM_eq_some {α β : Type} {f : α → Option β} {g : α → β} {l : List α}
    (h : ∀ x ∈ l, f x = some (g x)) : l.mapM f = some (l.map g) := by
  induction l with
  | nil => rfl
  | cons x l ih =>
      rw [List.mapM_cons, h x List.mem_cons_self, ih fun y hy => h y (List.mem_cons_of_mem x hy)]
      rfl

theorem checkedSamples_eq {table : Array R} (htable : sampleLimit < table.size) :
    checkedSamples table = some (samplesText table) := by
  have hread : ∀ e ∈ List.range' 3 (lastExponent - 2),
      (do
        let v ← table[Nat.pow 2 e]?
        return "T(" ++ Text.ofNat (Nat.pow 2 e) ++ ") = " ++ Scalar.sampleText v)
        = some ("T(" ++ Text.ofNat (Nat.pow 2 e) ++ ") = "
          ++ Scalar.sampleText (valueAt table (Nat.pow 2 e))) := by
    intro e he
    have hle : Nat.pow 2 e ≤ sampleLimit := by
      refine Nat.pow_le_pow_right (by decide) ?_
      rw [List.mem_range'_1] at he
      simp only [lastExponent] at he ⊢
      omega
    rw [getElem?_eq_valueAt (Nat.lt_of_le_of_lt hle htable)]
    rfl
  rw [checkedSamples, mapM_eq_some hread]
  rfl

end Readers

/-! ## Exact arithmetic -/

section Exact

open Tolerant

variable {ε : ℝ}

theorem foldl_max_spec (ks : List (Tolerant ε)) (k : Tolerant ε) :
    ks.foldl Scalar.max k ∈ k :: ks ∧ ∀ x ∈ k :: ks, x.val ≤ (ks.foldl Scalar.max k).val := by
  induction ks generalizing k with
  | nil => simp
  | cons l ks ih =>
      obtain ⟨hmem, hle⟩ := ih (Scalar.max k l)
      have hmax : (Scalar.max k l = k ∨ Scalar.max k l = l)
          ∧ k.val ≤ (Scalar.max k l).val ∧ l.val ≤ (Scalar.max k l).val := by
        rw [Scalar.max]
        split
        · rename_i hlt
          exact ⟨.inr rfl, (lt_iff _ _ |>.mp hlt).le, le_refl _⟩
        · rename_i hlt
          exact ⟨.inl rfl, le_refl _, not_lt.mp hlt⟩
      have hfirst := hle _ List.mem_cons_self
      rw [List.foldl_cons]
      constructor
      · rcases List.mem_cons.mp hmem with heq | hmem
        · rw [heq]
          rcases hmax.1 with heq | heq <;> simp [heq]
        · exact List.mem_cons_of_mem k (List.mem_cons_of_mem l hmem)
      · intro x hx
        rcases List.mem_cons.mp hx with rfl | hx
        · exact hmax.2.1.trans hfirst
        · rcases List.mem_cons.mp hx with rfl | hx
          · exact hmax.2.2.trans hfirst
          · exact hle x (List.mem_cons_of_mem _ hx)

/-- There is a last shift, and it is the largest one. -/
theorem getLast?_sortedShifts {terms : List (Term (Tolerant ε))} (hpos : Positive terms)
    (hnil : terms ≠ []) : (sortedShifts terms).getLast? = some (largestShift terms) := by
  have hfilter : terms.filter (0 < ·.multiplicity) = terms :=
    List.filter_eq_self.mpr fun t ht => decide_eq_true (hpos t ht)
  have hmem : ∀ x, x ∈ sortedShifts terms ↔ x ∈ terms.map (·.change.amount) := by
    intro x
    rw [sortedShifts, List.mem_mergeSort, amounts, List.mem_flatMap, List.mem_map]
    refine exists_congr fun t => and_congr_right fun ht => ?_
    have hone := hpos t ht
    rw [List.mem_replicate, eq_comm, and_iff_right_iff_imp]
    intro _
    omega
  have hsorted : (sortedShifts terms).Pairwise fun a b => a.val ≤ b.val := by
    have htrans : ∀ a b c : Tolerant ε, decide (a ≤ b) = true → decide (b ≤ c) = true →
        decide (a ≤ c) = true := by
      simp only [decide_eq_true_eq, le_iff]
      exact fun _ _ _ => le_trans
    have htotal : ∀ a b : Tolerant ε, (decide (a ≤ b) || decide (b ≤ a)) = true := by
      simpa using fun a b : Tolerant ε => le_total a.val b.val
    refine (List.pairwise_mergeSort htrans htotal _).imp fun h => ?_
    simpa using h
  -- Each of the last shift and the largest amount bounds the other.
  obtain ⟨t, ts, rfl⟩ := List.exists_cons_of_ne_nil hnil
  obtain ⟨hlargest, hle⟩ := foldl_max_spec (ts.map (·.change.amount)) t.change.amount
  have hshifts : sortedShifts (t :: ts) ≠ [] :=
    List.ne_nil_of_mem ((hmem t.change.amount).mpr List.mem_cons_self)
  rw [List.getLast?_eq_some_getLast hshifts, largestShift, hfilter, List.map_cons]
  refine congrArg some (Tolerant.ext (le_antisymm ?_ ?_))
  · exact hle _ ((hmem _).mp (List.getLast_mem hshifts))
  · exact hsorted.rel_getLast_of_rel_getLast_getLast ((hmem _).mpr hlargest) (le_refl _)

/-- The solver of linear relations reads what is there. -/
theorem checkedLinear_eq (root : List (Term (Tolerant ε)) → Tolerant ε)
    {rel : Relation (Tolerant ε)} (hpos : Positive rel.terms) :
    checkedLinear root rel = some (solveLinear root rel) := by
  rw [checkedLinear, solveLinear, checkedOneTwo_eq, ← isFibonacci_eq_isOneTwo]
  split
  · rfl
  rename_i hform
  have hall : allOf .subtract rel.terms = true := by
    by_contra hall
    exact hform (by simp [hall])
  have hnil := (allOf_iff.mp hall).1
  have hlargest := getLast?_sortedShifts hpos hnil
  -- One term is read by the first and the third form only, several by the last one only.
  rcases hterms : rel.terms with _ | ⟨t, _ | ⟨u, ts⟩⟩
  · exact absurd hterms hnil
  · by_cases hone : t.multiplicity = 1
    · simp [checkedSingle, hone]
    · cases hfib : isFibonacci [t] <;> simp [checkedSingle, hone, hfib]
  · rw [hterms] at hlargest
    cases hfib : isFibonacci (t :: u :: ts) <;> simp [checkedSingle, hfib, hlargest]

/-- A call on a size is made with a smaller one. -/
theorem childIndex_lt (change : SizeChange (Tolerant ε)) {m : ℕ} (hm : 0 < m) :
    childIndex change m < m := by
  set c : Tolerant ε := Scalar.clamp (Scalar.floor (change.apply (Scalar.ofNat m))) Scalar.zero
    (Scalar.ofNat (m - 1)) with hc
  have hclamp : 0 ≤ c.val ∧ c.val ≤ (m - 1 : ℕ) := by
    rw [hc, Scalar.clamp]
    split
    · simp
    · rename_i hlow
      split
      · simp
      · rename_i hhigh
        simp only [lt_iff, val_zero, val_ofNat, not_lt] at hlow hhigh
        exact ⟨hlow, hhigh⟩
  -- The index is read off nine decimal digits, which do not lift a number over a whole one.
  have hindex : childIndex change m = ⌊c.val * 10 ^ 9⌋₊ / 10 ^ 9 := by
    have htrunc : Scalar.toInt c = ((⌊c.val * 10 ^ 9⌋₊ / 10 ^ 9 : ℕ) : Int) := by
      show (nineDigits c.val).truncate = _
      rw [nineDigits, abs_of_nonneg hclamp.1, decide_eq_false (not_lt.mpr hclamp.1)]
      rfl
    rw [childIndex, ← hc, htrunc, Int.toNat_natCast]
  have hfloor : ⌊c.val * 10 ^ 9⌋₊ ≤ (m - 1) * 10 ^ 9 := by
    refine Nat.floor_le_of_le ?_
    rw [Nat.cast_mul, Nat.cast_pow, Nat.cast_ofNat]
    exact mul_le_mul_of_nonneg_right hclamp.2 (by positivity)
  rw [hindex]
  omega

theorem checkedExtend_eq (rel : Relation (Tolerant ε)) {table : Array (Tolerant ε)}
    (htable : 0 < table.size) : checkedExtend rel table = some (extendTable rel table) := by
  have hread : (fun v (t : Term (Tolerant ε)) => do
        let w ← table[childIndex t.change table.size]?
        return v + Scalar.ofInt t.multiplicity * w)
      = fun v t => pure (v + Scalar.ofInt t.multiplicity
          * valueAt table (childIndex t.change table.size)) := by
    funext v t
    rw [getElem?_eq_valueAt (childIndex_lt t.change htable)]
    rfl
  rw [checkedExtend, hread, List.foldlM_pure]
  rfl

/-- The table of a relation reads only what it holds already, and reaches up to the limit. -/
theorem checkedTable_eq (rel : Relation (Tolerant ε)) (limit : ℕ) :
    checkedTable rel limit = some (valueTable rel limit)
      ∧ limit < (valueTable rel limit).size := by
  -- The size is part of the run, since the next entry to be filled in is the size of the table.
  have hrun : ∀ steps, Nat.repeat (fun table? => table? >>= checkedExtend rel) steps
        (some #[Scalar.one, Scalar.one])
      = some (Nat.repeat (extendTable rel) steps #[Scalar.one, Scalar.one])
      ∧ (Nat.repeat (extendTable rel) steps #[Scalar.one, Scalar.one]).size = steps + 2 := by
    intro steps
    induction steps with
    | zero => exact ⟨rfl, rfl⟩
    | succ steps ih =>
        obtain ⟨hread, hsize⟩ := ih
        rw [Nat.repeat, Nat.repeat, hread]
        refine ⟨checkedExtend_eq rel (by omega), ?_⟩
        rw [extendTable, Array.size_push, hsize]
  obtain ⟨hread, hsize⟩ := hrun (limit - 1)
  refine ⟨hread, ?_⟩
  rw [valueTable, hsize]
  omega

theorem checkedSampling_eq (rel : Relation (Tolerant ε)) :
    checkedSampling rel = some (solveBySampling rel) := by
  obtain ⟨htable, hsize⟩ := checkedTable_eq rel sampleLimit
  rw [checkedSampling, solveBySampling, htable]
  split
  · rfl
  · rw [Option.bind_eq_bind, Option.bind_some, checkedSamples_eq hsize, checkedSettle_eq hsize]
    dsimp only
    rcases settle (valueTable rel sampleLimit) ladder with ⟨tried, found⟩
    cases found <;> rfl

/-- **The solver reads nothing that is not there.** -/
theorem checkedSolve_eq {rel : Relation (Tolerant ε)} (hpos : Positive rel.terms) :
    checkedSolve rel = some (solve rel) := by
  rw [checkedSolve, solve, solveWith, checkedMaster_eq, checkedLinear_eq _ hpos,
    checkedSampling_eq]
  split
  · rfl
  · cases solveByMaster rel with
    | some s => rfl
    | none => cases solveLinear dominantRoot rel <;> rfl

end Exact

end PseudoCost.Recurrence
