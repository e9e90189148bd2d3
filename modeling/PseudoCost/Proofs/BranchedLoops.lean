import PseudoCost.Loop
import PseudoCost.Program.Reading
import PseudoCost.Proofs.GrowthOrder

/-!
# Loops whose body branches

A loop is judged by all assignments in its body, on whatever branch they stand. So if the body of a
loop chooses between two bodies, the updates of both are judged together, and the one that promises
the quickest end decides: with two bodies that are each resolved on their own, the loop over the
choice is as quick as the quicker of the two (`iterations_branched`). It need not be as slow as the
slower one, which is taken if always the same branch is (`iterations_branched_lt`).

To judge updates together changes the class of single ones in one case only. What counts as a
midpoint are the names that are set to one *anywhere* in the body. More midpoints never make an
update unclear, and they change a clear one only if it shifts a condition variable by a literal and
the variable is itself set to a midpoint (`classify_mono`). Then two steps, one in each branch, are
taken for a search by bisection (`Shares`).
-/

namespace PseudoCost

/-! ## Assignments of a choice -/

mutual

/-- The statements in a statement do not depend on how deep it stands. -/
theorem Stmt.map_snd_nested : ∀ (s : Stmt) (d e : Nat),
    (s.nested d).map Prod.snd = (s.nested e).map Prod.snd
  | .forLoop _ _ _ _ _ _ body, d, e | .whileLoop _ _ _ body, d, e
  | .repeatLoop _ _ body _, d, e => by
      simp [Stmt.nested, body.map_snd_nested d e]
  | .conditional _ _ thenBlock (some elseBlock), d, e => by
      simp [Stmt.nested, thenBlock.map_snd_nested (d + 1) (e + 1),
        elseBlock.map_snd_nested (d + 1) (e + 1)]
  | .conditional _ _ thenBlock none, d, e => by
      simp [Stmt.nested, thenBlock.map_snd_nested (d + 1) (e + 1)]
  | .assign .., _, _ | .call .., _, _ | .give .., _, _ => by simp [Stmt.nested]

theorem Block.map_snd_nested : ∀ (b : Block) (d e : Nat),
    (b.nested d).map Prod.snd = (b.nested e).map Prod.snd
  | .mk _ _ _ stmts, d, e => Stmt.map_snd_nestedOf stmts d e

theorem Stmt.map_snd_nestedOf : ∀ (ss : List Stmt) (d e : Nat),
    (Stmt.nestedOf d ss).map Prod.snd = (Stmt.nestedOf e ss).map Prod.snd
  | [], _, _ => rfl
  | s :: ss, d, e => by
      simp [Stmt.nestedOf, s.map_snd_nested d e, Stmt.map_snd_nestedOf ss d e]

end

theorem Block.assignments_congr {b b' : Block} (h : b.stmts = b'.stmts) :
    b.assignments = b'.assignments := by
  cases b
  cases b'
  cases h
  rfl

theorem Block.assignments_choice {b thenBlock elseBlock : Block} {pos : Pos} {c : Expr}
    (h : b.stmts = [.conditional pos c thenBlock (some elseBlock)]) :
    b.assignments = thenBlock.assignments ++ elseBlock.assignments := by
  have hwithin : b.within = .conditional pos c thenBlock (some elseBlock) ::
      (thenBlock.within ++ elseBlock.within) := by
    cases b
    cases h
    simp only [Block.within, Block.nested, Stmt.nestedOf, Stmt.nested, List.append_nil,
      List.map_cons, List.map_append, thenBlock.map_snd_nested (0 + 1) 0,
      elseBlock.map_snd_nested (0 + 1) 0]
  rw [assignments, hwithin, List.filterMap_cons_none rfl, List.filterMap_append]
  rfl

/-! ## More midpoints -/

/-- The name that the expression shifts by a literal. -/
def Expr.shifted? (e : Expr) : Option Name :=
  match e.unrounded with
  | .binary _ .add lhs rhs | .binary _ .sub lhs rhs =>
    if rhs.number?.isSome then lhs.name? else none
  | _ => none

namespace LoopShape

variable {v : Name} {M N : List Name} {value : Expr}

/-- Midpoints matter to an update only if it takes one over or shifts one. -/
theorem classify_eq (v : Name) (M : List Name) (value : Expr) :
    Update.classify v M value
      = if value.unrounded.name?.any (M.contains ·) || value.shifted?.any (M.contains ·) then
          .midpoint
        else Update.classify v [] value := by
  have hsum : ∀ op lhs rhs, Update.ofSum v M op lhs rhs
      = if (if rhs.number?.isSome then lhs.name? else none).any (M.contains ·) then .midpoint
        else Update.ofSum v [] op lhs rhs := by
    intro op lhs rhs
    cases hname : lhs.name? <;> cases hnumber : rhs.number? <;>
      simp [Update.ofSum, hname, hnumber]
  rw [Update.classify, Update.classify, Expr.shifted?]
  cases value.unrounded with
  | name pos n => simp [Expr.name?]
  | binary pos op lhs rhs =>
      cases op <;> first | exact hsum _ _ _ | rfl
  | _ => rfl

theorem not_isName_of_number? {e : Expr} (h : e.number?.isSome = true) : e.isName v = false := by
  cases e <;> first | rfl | cases h

/-- Without midpoints an update that takes over a name is unclear. -/
theorem unclear_of_name {n : Name} (h : value.unrounded.name? = some n) :
    Update.classify v [] value = .unclear := by
  rw [Update.classify]
  cases hvalue : value.unrounded <;> rw [hvalue] at h <;> cases h
  rfl

/-- Without midpoints an update that shifts another name is unclear. -/
theorem unclear_of_shifted {n : Name} (h : value.shifted? = some n) (hne : n ≠ v) :
    Update.classify v [] value = .unclear := by
  have hsum : ∀ op lhs rhs, (if rhs.number?.isSome then lhs.name? else none) = some n →
      Update.ofSum v [] op lhs rhs = .unclear := by
    intro op lhs rhs hshift
    obtain ⟨hnumber, hname⟩ : rhs.number?.isSome = true ∧ lhs.name? = some n := by
      simpa using hshift
    have hother : lhs.isName v = false := by simp [Expr.isName, hname, hne]
    simp [Update.ofSum, hname, hother, not_isName_of_number? hnumber]
  rw [Expr.shifted?] at h
  rw [Update.classify]
  cases hvalue : value.unrounded with
  | binary pos op lhs rhs =>
      rw [hvalue] at h
      cases op <;> first | exact hsum _ _ _ h | cases h
  | _ => simp [hvalue] at h

theorem shifted?_of_name {n : Name} (h : value.unrounded.name? = some n) :
    value.shifted? = none := by
  rw [Expr.shifted?]
  cases hvalue : value.unrounded with
  | binary => simp [hvalue, Expr.name?] at h
  | _ => rfl

/-- With more midpoints a clear update stays what it is, unless it shifts a variable that is a
midpoint now. -/
theorem classify_mono (hsub : M ⊆ N) (hclear : Update.classify v M value ≠ .unclear) :
    Update.classify v N value
      = if value.shifted? = some v ∧ v ∈ N then .midpoint else Update.classify v M value := by
  rw [classify_eq v M] at hclear ⊢
  rw [classify_eq v N]
  cases hname : value.unrounded.name? with
  | some n =>
      rw [unclear_of_name hname, hname, shifted?_of_name hname] at hclear
      have hM : n ∈ M := by simpa using hclear
      simp [hM, hsub hM]
  | none =>
      cases hshift : value.shifted? with
      | none => simp
      | some n =>
          by_cases hM : n ∈ M
          · simp [hM, hsub hM]
          · have hn : n = v := by
              refine Decidable.byContradiction fun hn => hclear ?_
              simp [hname, hshift, hM, unclear_of_shifted hshift hn]
            subst hn
            simp [hM]

/-! ## Variables that are set to a midpoint -/

theorem not_isName_of_applies {p : BinaryOp → Bool} {e : Expr} (h : e.applies p = true) :
    e.isName v = false := by
  cases e <;> first | rfl | cases h

/-- If a midpoint is a quotient, it is one of a sum. -/
theorem not_isName_of_quotient {pos : Pos} {op : BinaryOp} {lhs rhs : Expr}
    (h : value.isMidpoint = true) (hop : op.isDivision = true)
    (hvalue : value.unrounded = .binary pos op lhs rhs) : lhs.isName v = false := by
  have hsum : lhs.applies (· == .add) = true := by
    simp only [Expr.isMidpoint, hvalue, Expr.halved?, hop, Bool.true_and] at h
    cases htwo : rhs.isTwo with
    | true => simpa [htwo] using h
    | false =>
        cases op with
        | div | intDiv => simp [htwo] at h
        | _ => cases hop
  exact not_isName_of_applies hsum

/-- If a midpoint is a sum, its second part is a half. -/
theorem half_of_sum {pos : Pos} {lhs rhs : Expr} (h : value.isMidpoint = true)
    (hvalue : value.unrounded = .binary pos .add lhs rhs) :
    rhs.number? = none ∧ rhs.isName v = false := by
  have hhalf : rhs.unrounded.halved?.any (·.applies (· == .sub)) = true := by
    simpa [Expr.isMidpoint, hvalue, Expr.halved?, BinaryOp.isDivision] using h
  cases rhs with
  | unary pos op operand =>
      cases op <;> first | exact ⟨rfl, rfl⟩ | cases hhalf
  | binary => exact ⟨rfl, rfl⟩
  | _ => cases hhalf

/-- A clear update that sets a variable to a midpoint is a step up from it. -/
theorem step_of_isMidpoint (h : value.isMidpoint = true)
    (hclear : Update.classify v M value ≠ .unclear) : Update.classify v M value = .step true := by
  rw [Update.classify] at hclear ⊢
  cases hvalue : value.unrounded with
  | binary pos op lhs rhs =>
      cases op with
      | add =>
          obtain ⟨hnumber, hname⟩ := half_of_sum (v := v) h hvalue
          simp only [hvalue, Update.ofSum, hnumber, hname] at hclear ⊢
          cases hself : lhs.isName v && !rhs.mentions v <;> simp_all
      | div | intDiv => simp [hvalue, not_isName_of_quotient h rfl hvalue] at hclear
      | _ => simp [Expr.isMidpoint, hvalue, Expr.halved?, BinaryOp.isDivision] at h
  | _ => simp [Expr.isMidpoint, hvalue, Expr.halved?] at h

/-! ## Updates judged together -/

variable {cond : Expr} {all as bs : List Assignment}

/-- An assignment to a variable of the condition. -/
def Sets (cond : Expr) (as : List Assignment) (a : Assignment) (v : Name) : Prop :=
  a ∈ as ∧ a.target.name? = some v ∧ cond.mentions v = true

/-- No update is unclear, if the given names hold midpoints. -/
def Clear (cond : Expr) (M : List Name) (as : List Assignment) : Prop :=
  ∀ a v, Sets cond as a v → Update.classify v M a.value ≠ .unclear

/-- Some update changes a variable by a factor, if the given names hold midpoints. -/
def Geometric (cond : Expr) (M : List Name) (as : List Assignment) : Prop :=
  ∃ a v, Sets cond as a v ∧ (Update.classify v M a.value).isGeometric = true

/-- Some update makes the given variable larger, if the given names hold midpoints. -/
def Raises (cond : Expr) (M : List Name) (as : List Assignment) (v : Name) : Prop :=
  ∃ a, Sets cond as a v ∧ (Update.classify v M a.value).isIncreasing = true

/-- Some variable of the condition is shifted by a literal, and is among the given names. -/
def Shifts (cond : Expr) (as : List Assignment) (M : List Name) : Prop :=
  ∃ a v, Sets cond as a v ∧ a.value.shifted? = some v ∧ v ∈ M

theorem sets_append {a : Assignment} :
    Sets cond (as ++ bs) a v ↔ Sets cond as a v ∨ Sets cond bs a v := by
  simp only [Sets, List.mem_append, or_and_right]

theorem clear_append : Clear cond M (as ++ bs) ↔ Clear cond M as ∧ Clear cond M bs := by
  simp only [Clear, sets_append, or_imp, forall_and]

theorem geometric_append :
    Geometric cond M (as ++ bs) ↔ Geometric cond M as ∨ Geometric cond M bs := by
  simp only [Geometric, sets_append, or_and_right, exists_or]

theorem raises_append : Raises cond M (as ++ bs) v ↔ Raises cond M as v ∨ Raises cond M bs v := by
  simp only [Raises, sets_append, or_and_right, exists_or]

theorem shifts_append : Shifts cond as (M ++ N) ↔ Shifts cond as M ∨ Shifts cond as N := by
  simp only [Shifts, List.mem_append, and_or_left, exists_or]

theorem midpointsOf_append : midpointsOf (as ++ bs) = midpointsOf as ++ midpointsOf bs :=
  List.filterMap_append

theorem midpointsOf_subset_left : midpointsOf as ⊆ midpointsOf (as ++ bs) := by
  rw [midpointsOf_append]
  exact List.subset_append_left _ _

theorem midpointsOf_subset_right : midpointsOf bs ⊆ midpointsOf (as ++ bs) := by
  rw [midpointsOf_append]
  exact List.subset_append_right _ _

theorem Clear.mono (h : Clear cond M as) (hsub : M ⊆ N) : Clear cond N as := by
  intro a v ha
  rw [classify_mono hsub (h a v ha)]
  split
  · exact fun h => by cases h
  · exact h a v ha

/-- What is shifted and a midpoint counts as geometric. -/
theorem geometric_of_shifts (h : Shifts cond as M) : Geometric cond M as := by
  obtain ⟨a, v, ha, hshift, hv⟩ := h
  refine ⟨a, v, ha, ?_⟩
  rw [classify_eq, hshift, Option.any_some, List.contains_iff_mem.mpr hv, Bool.or_true]
  rfl

theorem geometric_mono (hsub : M ⊆ N) (hclear : Clear cond M as) :
    Geometric cond N as ↔ Geometric cond M as ∨ Shifts cond as N := by
  constructor
  · rintro ⟨a, v, ha, hgeometric⟩
    rw [classify_mono hsub (hclear a v ha)] at hgeometric
    split at hgeometric
    · rename_i hshift
      exact .inr ⟨a, v, ha, hshift⟩
    · exact .inl ⟨a, v, ha, hgeometric⟩
  · rintro (⟨a, v, ha, hgeometric⟩ | hshift)
    · refine ⟨a, v, ha, ?_⟩
      rw [classify_mono hsub (hclear a v ha)]
      split
      · rfl
      · exact hgeometric
    · exact geometric_of_shifts hshift

/-- A variable that is set to a midpoint, without an unclear update, is raised. -/
theorem raises_of_mem_midpointsOf (hclear : Clear cond N as) (hv : v ∈ midpointsOf as)
    (hcond : cond.mentions v = true) : Raises cond N as v := by
  obtain ⟨a, ha, hmidpoint⟩ := List.mem_filterMap.mp hv
  split at hmidpoint
  case isFalse => cases hmidpoint
  case isTrue hvalue =>
    have hset : Sets cond as a v := ⟨ha, hmidpoint, hcond⟩
    refine ⟨a, hset, ?_⟩
    rw [step_of_isMidpoint hvalue (hclear a v hset)]
    rfl

theorem raises_mono (hsub : M ⊆ N) (hclear : Clear cond M as) (h : Raises cond N as v) :
    Raises cond M as v := by
  obtain ⟨a, ha, hraises⟩ := h
  rw [classify_mono hsub (hclear a v ha)] at hraises
  split at hraises
  · cases hraises
  · exact ⟨a, ha, hraises⟩

/-- A variable that is raised is still raised together with other updates, either by the same update
or by the one that makes it a midpoint. -/
theorem raises_of_raises (hsub : M ⊆ midpointsOf all) (hall : Clear cond (midpointsOf all) all)
    (has : ∀ a, Sets cond as a v → Sets cond all a v) (hclear : Clear cond M as)
    (h : Raises cond M as v) : Raises cond (midpointsOf all) all v := by
  obtain ⟨a, ha, hraises⟩ := h
  by_cases hshift : a.value.shifted? = some v ∧ v ∈ midpointsOf all
  · -- The update itself counts as a midpoint now, which raises nothing.
    exact raises_of_mem_midpointsOf hall hshift.2 ha.2.2
  · refine ⟨a, has a ha, ?_⟩
    rw [classify_mono hsub (hclear a v ha), if_neg hshift]
    exact hraises

section Choice

variable (has : Clear cond (midpointsOf as) as) (hbs : Clear cond (midpointsOf bs) bs)
include has hbs

theorem clear_choice : Clear cond (midpointsOf (as ++ bs)) (as ++ bs) := by
  rw [clear_append]
  exact ⟨has.mono midpointsOf_subset_left, hbs.mono midpointsOf_subset_right⟩

theorem raises_choice : Raises cond (midpointsOf (as ++ bs)) (as ++ bs) v
    ↔ Raises cond (midpointsOf as) as v ∨ Raises cond (midpointsOf bs) bs v := by
  constructor
  · intro h
    exact (raises_append.mp h).imp (raises_mono midpointsOf_subset_left has)
      (raises_mono midpointsOf_subset_right hbs)
  · have hall := clear_choice has hbs
    rintro (h | h)
    · exact raises_of_raises midpointsOf_subset_left hall (fun a ha => sets_append.mpr (.inl ha))
        has h
    · exact raises_of_raises midpointsOf_subset_right hall (fun a ha => sets_append.mpr (.inr ha))
        hbs h

theorem geometric_choice : Geometric cond (midpointsOf (as ++ bs)) (as ++ bs)
    ↔ (Geometric cond (midpointsOf as) as ∨ Geometric cond (midpointsOf bs) bs)
      ∨ Shifts cond as (midpointsOf bs) ∨ Shifts cond bs (midpointsOf as) := by
  have hleft : Shifts cond as (midpointsOf as) → Geometric cond (midpointsOf as) as :=
    geometric_of_shifts
  have hright : Shifts cond bs (midpointsOf bs) → Geometric cond (midpointsOf bs) bs :=
    geometric_of_shifts
  rw [geometric_append, geometric_mono midpointsOf_subset_left has,
    geometric_mono midpointsOf_subset_right hbs, midpointsOf_append, shifts_append, shifts_append]
  tauto

end Choice

/-! ## The number of iterations -/

theorem mem_updates {a : Assignment} {u : Update} : (a, v, u) ∈ updates cond as
    ↔ Sets cond as a v ∧ Update.classify v (midpointsOf as) a.value = u := by
  rw [updates, List.mem_filterMap]
  constructor
  · rintro ⟨a', ha, h⟩
    split at h
    case h_2 => cases h
    case h_1 n hn =>
      split at h
      · rename_i hcond
        cases h
        exact ⟨⟨ha, hn, hcond⟩, rfl⟩
      · cases h
  · rintro ⟨⟨ha, hv, hcond⟩, rfl⟩
    exact ⟨a, ha, by simp [hv, hcond]⟩

theorem any_updates {p : Name → Update → Bool} :
    ((updates cond as).any fun x => p x.2.1 x.2.2) = true
      ↔ ∃ a v, Sets cond as a v ∧ p v (Update.classify v (midpointsOf as) a.value) = true := by
  rw [List.any_eq_true]
  constructor
  · rintro ⟨⟨a, v, u⟩, hmem, hp⟩
    obtain ⟨ha, rfl⟩ := mem_updates.mp hmem
    exact ⟨a, v, ha, hp⟩
  · rintro ⟨a, v, ha, hp⟩
    exact ⟨(a, v, _), mem_updates.mpr ⟨ha, rfl⟩, hp⟩

/-- Whether the updates make the control variable climb to a bound without names. -/
def climbs (control : Control) (found : List (Assignment × Name × Update)) : Bool :=
  control.bound.any isLiteralOnly
    && found.any fun x => x.2.1 == control.variableName && x.2.2.isIncreasing

/-- Whether some update is geometric. -/
def quickens (found : List (Assignment × Name × Update)) : Bool :=
  found.any fun x => x.2.2.isGeometric

theorem climbs_iff {control : Control} : climbs control (updates cond as) = true
    ↔ control.bound.any isLiteralOnly = true
      ∧ Raises cond (midpointsOf as) as control.variableName := by
  rw [climbs, Bool.and_eq_true,
    any_updates (p := fun n u => n == control.variableName && u.isIncreasing)]
  refine and_congr_right fun _ => ?_
  constructor
  · rintro ⟨a, v, ha, hv⟩
    obtain ⟨rfl, hincreasing⟩ : v = control.variableName ∧ _ := by simpa using hv
    exact ⟨a, ha, hincreasing⟩
  · rintro ⟨a, ha, hincreasing⟩
    exact ⟨a, _, ha, by simpa using hincreasing⟩

theorem quickens_iff :
    quickens (updates cond as) = true ↔ Geometric cond (midpointsOf as) as :=
  any_updates (p := fun _ u => u.isGeometric)

/-- The number of iterations of a loop without unclear updates. -/
def pace {R : Type} [Scalar R] (climbs quickens : Bool) : Growth R :=
  if climbs then Growth.constant else if quickens then Growth.logarithmic else Growth.linear

variable {control : Control} {body : Block}

theorem clear_of_resolved (h : (ofCondition control cond body).progress ≠ .unresolved) :
    Clear cond (midpointsOf body.assignments) body.assignments := by
  intro a v ha hunclear
  refine h ?_
  have hmem : (a, v, Update.unclear) ∈ updates cond body.assignments :=
    mem_updates.mpr ⟨ha, hunclear⟩
  rw [ofCondition]
  dsimp only
  split
  · rfl
  · rename_i hfind
    exact absurd rfl (List.find?_eq_none.mp hfind _ hmem)

theorem iterations_ofCondition {R : Type} [Scalar R]
    (hclear : Clear cond (midpointsOf body.assignments) body.assignments) :
    ((ofCondition control cond body).progress.iterations : Growth R)
      = pace (climbs control (updates cond body.assignments))
        (quickens (updates cond body.assignments)) := by
  have hbound : ∀ found : List (Assignment × Name × Update),
      (control.bound.filter fun bound =>
        (found.any fun x => x.2.1 == control.variableName && x.2.2.isIncreasing)
          && isLiteralOnly bound).isSome = climbs control found := by
    intro found
    rw [climbs]
    cases control.bound with
    | none => rfl
    | some bound =>
        rw [Option.filter_some, Option.any_some, Bool.and_comm]
        cases isLiteralOnly bound && _ <;> rfl
  rw [← hbound, ofCondition, pace, quickens]
  dsimp only
  split
  · rename_i a n u hfind
    obtain ⟨ha, hu⟩ := mem_updates.mp (List.mem_of_find?_eq_some hfind)
    have hunclear : u = .unclear := by simpa using List.find?_some hfind
    exact absurd (hu.trans hunclear) (hclear a n ha)
  split
  · rename_i hfilter
    rw [hfilter]
    rfl
  · rename_i hfilter
    rw [hfilter, Option.isSome_none, if_neg Bool.false_ne_true]
    split
    · rfl
    split
    · rfl
    -- Flags, and no updates at all, count as many iterations as steps do.
    split <;> rfl

/-! ## The order of paces -/

section Order

variable {ε : ℝ} (hε : 0 ≤ ε) (hlt : ε < 1)
include hε hlt

/-- How slow a loop is: constant, logarithmic or linear. -/
def rank (climbs quickens : Bool) : ℕ := if climbs then 0 else if quickens then 1 else 2

theorem compare_pace (c q c' q' : Bool) : (pace c q : Growth (Tolerant ε)).compare (pace c' q')
    = compare (rank c q) (rank c' q') := by
  have hsame : ∀ d : Tolerant ε, Scalar.order d d = .eq := by
    intro d
    have h : ¬ε < 0 := not_lt.mpr hε
    simp [Scalar.order, h]
  have hless : Scalar.order (Scalar.zero : Tolerant ε) Scalar.one = .lt := by
    have h : ¬ε < -1 := by linarith
    simp [Scalar.order, h, hlt]
  have hmore : Scalar.order (Scalar.one : Tolerant ε) Scalar.zero = .gt := by
    simp [Scalar.order, hlt]
  have hbase : ∀ (d : Tolerant ε) (k : ℤ), (Growth.polynomial d k).base = Scalar.one := by
    intro d k
    rw [Growth.base, Growth.isExponential_polynomial hε, if_neg Bool.false_ne_true]
  have hpolynomial : ∀ (d e : Tolerant ε) (k l : ℤ),
      (Growth.polynomial d k).compare (Growth.polynomial e l)
        = (Scalar.order d e).then (compare k l) := by
    intro d e k l
    rw [Growth.compare, hbase, hbase, hsame]
    rfl
  cases c <;> cases q <;> cases c' <;> cases q' <;>
    simp only [pace, Growth.constant, Growth.logarithmic, Growth.linear, hpolynomial, hsame, hless,
      hmore, Bool.false_eq_true, if_true, if_false] <;> rfl

theorem pace_or (c q c' q' : Bool) :
    (pace (c || c') (q || q') : Growth (Tolerant ε)) = (pace c q).min (pace c' q') := by
  rw [Growth.min, compare_pace hε hlt]
  cases c <;> cases q <;> cases c' <;> cases q' <;> rfl

/-- The pace of a choice is above neither of the two, and below one of them unless they agree. -/
theorem compare_pace_or (c₁ q₁ c₂ q₂ q : Bool) :
    ((pace (c₁ || c₂) ((q₁ || q₂) || q) : Growth (Tolerant ε)).compare (pace c₁ q₁)).isLE = true
    ∧ ((pace (c₁ || c₂) ((q₁ || q₂) || q) : Growth (Tolerant ε)).compare (pace c₂ q₂)).isLE = true
    ∧ (((pace (c₁ || c₂) ((q₁ || q₂) || q) : Growth (Tolerant ε)).compare (pace c₁ q₁)).isGE = true
        ∧ ((pace (c₁ || c₂) ((q₁ || q₂) || q) : Growth (Tolerant ε)).compare (pace c₂ q₂)).isGE
          = true
      ↔ (pace c₁ q₁ : Growth (Tolerant ε)).agrees (pace c₂ q₂) = true
        ∧ (q = true → (pace c₁ q₁ : Growth (Tolerant ε)).agrees (pace false false) = false)) := by
  simp only [Growth.agrees, compare_pace hε hlt]
  revert c₁ q₁ c₂ q₂ q
  decide

end Order

/-- One body shifts a variable of the condition by a literal, and the other one sets it to a
midpoint. -/
def Shares (cond : Expr) (body₁ body₂ : Block) : Prop :=
  Shifts cond body₁.assignments (midpointsOf body₂.assignments)
    ∨ Shifts cond body₂.assignments (midpointsOf body₁.assignments)

/-- The judgement of a choice between two bodies that are clear on their own. -/
theorem iterations_choice {R : Type} [Scalar R] {body₁ body₂ : Block}
    (hbody : body.assignments = body₁.assignments ++ body₂.assignments)
    (h₁ : (ofCondition control cond body₁).progress ≠ .unresolved)
    (h₂ : (ofCondition control cond body₂).progress ≠ .unresolved) :
    ∃ c₁ q₁ c₂ q₂ q,
      ((ofCondition control cond body₁).progress.iterations : Growth R) = pace c₁ q₁
      ∧ ((ofCondition control cond body₂).progress.iterations : Growth R) = pace c₂ q₂
      ∧ ((ofCondition control cond body).progress.iterations : Growth R)
        = pace (c₁ || c₂) ((q₁ || q₂) || q)
      ∧ (q = true ↔ Shares cond body₁ body₂) := by
  have hclear₁ := clear_of_resolved h₁
  have hclear₂ := clear_of_resolved h₂
  have hclear : Clear cond (midpointsOf body.assignments) body.assignments := by
    rw [hbody]
    exact clear_choice hclear₁ hclear₂
  classical
  refine ⟨_, _, _, _, decide (Shares cond body₁ body₂),
    iterations_ofCondition hclear₁, iterations_ofCondition hclear₂, ?_, decide_eq_true_iff⟩
  rw [iterations_ofCondition hclear, hbody]
  congr 1
  · rw [Bool.eq_iff_iff, Bool.or_eq_true, climbs_iff, climbs_iff, climbs_iff,
      raises_choice hclear₁ hclear₂, and_or_left]
  · rw [Bool.eq_iff_iff, Bool.or_eq_true, Bool.or_eq_true, quickens_iff, quickens_iff,
      quickens_iff, geometric_choice hclear₁ hclear₂, decide_eq_true_iff, Shares]

end LoopShape

/-- The number of iterations of a loop. -/
def Stmt.iterations {R : Type} [Scalar R] (s : Stmt) : Growth R := s.loopShape.progress.iterations

/-- Three loops of one kind and with one condition; the body of the third one chooses between the
bodies of the other two. -/
inductive Branched (cond : Expr) (body₁ body₂ : Block) : Stmt → Stmt → Stmt → Prop
  | whileLoop {pos₁ pos₂ pos : Pos} {control : Control} {body thenBlock elseBlock : Block}
      {choicePos : Pos} {choice : Expr} :
      body.stmts = [.conditional choicePos choice thenBlock (some elseBlock)] →
      thenBlock.stmts = body₁.stmts → elseBlock.stmts = body₂.stmts →
      Branched cond body₁ body₂ (.whileLoop pos₁ control cond body₁)
        (.whileLoop pos₂ control cond body₂) (.whileLoop pos control cond body)
  | repeatLoop {pos₁ pos₂ pos : Pos} {control : Control} {body thenBlock elseBlock : Block}
      {choicePos : Pos} {choice : Expr} :
      body.stmts = [.conditional choicePos choice thenBlock (some elseBlock)] →
      thenBlock.stmts = body₁.stmts → elseBlock.stmts = body₂.stmts →
      Branched cond body₁ body₂ (.repeatLoop pos₁ control body₁ cond)
        (.repeatLoop pos₂ control body₂ cond) (.repeatLoop pos control body cond)

theorem Branched.shapes {cond : Expr} {body₁ body₂ : Block} {s₁ s₂ s : Stmt}
    (h : Branched cond body₁ body₂ s₁ s₂ s) : ∃ control body,
      body.assignments = body₁.assignments ++ body₂.assignments
      ∧ s₁.loopShape = LoopShape.ofCondition control cond body₁
      ∧ s₂.loopShape = LoopShape.ofCondition control cond body₂
      ∧ s.loopShape = LoopShape.ofCondition control cond body := by
  cases h with
  | whileLoop hbody hthen helse | repeatLoop hbody hthen helse =>
      refine ⟨_, _, ?_, rfl, rfl, rfl⟩
      rw [Block.assignments_choice hbody, Block.assignments_congr hthen,
        Block.assignments_congr helse]

open LoopShape in
/-- **A loop over a choice is as quick as the quicker of its branches.** If two loops are resolved,
the loop whose body chooses between theirs never takes more iterations than either of them, and it
takes those of the quicker one; or, where one body shifts a variable by a literal that the other one
sets to a midpoint, no more than a logarithmic number. So it takes at least as many as both exactly
if the two take equally many, and these are not linear in that one case. -/
theorem iterations_branched {ε : ℝ} (hε : 0 ≤ ε) (hlt : ε < 1) {cond : Expr} {body₁ body₂ : Block}
    {s₁ s₂ s : Stmt} (h : Branched cond body₁ body₂ s₁ s₂ s)
    (h₁ : s₁.loopShape.progress ≠ .unresolved) (h₂ : s₂.loopShape.progress ≠ .unresolved) :
    ((s.iterations : Growth (Tolerant ε)).compare s₁.iterations).isLE = true
    ∧ ((s.iterations : Growth (Tolerant ε)).compare s₂.iterations).isLE = true
    ∧ (¬Shares cond body₁ body₂ →
      (s.iterations : Growth (Tolerant ε)) = s₁.iterations.min s₂.iterations)
    ∧ (Shares cond body₁ body₂ → (s.iterations : Growth (Tolerant ε))
      = (s₁.iterations.min s₂.iterations).min Growth.logarithmic)
    ∧ (((s.iterations : Growth (Tolerant ε)).compare s₁.iterations).isGE = true
        ∧ ((s.iterations : Growth (Tolerant ε)).compare s₂.iterations).isGE = true
      ↔ (s₁.iterations : Growth (Tolerant ε)).agrees s₂.iterations = true
        ∧ (Shares cond body₁ body₂ →
          (s₁.iterations : Growth (Tolerant ε)).agrees Growth.linear = false)) := by
  obtain ⟨control, body, hbody, hs₁, hs₂, hs⟩ := h.shapes
  rw [hs₁] at h₁
  rw [hs₂] at h₂
  obtain ⟨c₁, q₁, c₂, q₂, q, hpace₁, hpace₂, hpace, hshares⟩ :=
    iterations_choice (R := Tolerant ε) hbody h₁ h₂
  simp only [Stmt.iterations, hs₁, hs₂, hs, hpace₁, hpace₂, hpace, ← hshares]
  have hlogarithmic : (Growth.logarithmic : Growth (Tolerant ε)) = pace false true := rfl
  have hlinear : (Growth.linear : Growth (Tolerant ε)) = pace false false := rfl
  obtain ⟨hle₁, hle₂, hge⟩ := compare_pace_or hε hlt c₁ q₁ c₂ q₂ q
  refine ⟨hle₁, hle₂, fun hq => ?_, fun hq => ?_, ?_⟩
  · rw [Bool.not_eq_true] at hq
    rw [hq, Bool.or_false, pace_or hε hlt]
  · rw [hq, hlogarithmic, ← pace_or hε hlt, ← pace_or hε hlt, Bool.or_false]
  · rw [hlinear]
    exact hge

/-! ## Two choices -/

/-- A `while` loop. -/
def loopOver (cond : Expr) (body : Block) : Stmt :=
  .whileLoop ⟨2, 3⟩ (Control.ofCondition cond) cond body

/-- The body `if c > 0 then … else … end`. -/
def choiceOf (thenBlock elseBlock : Block) : Block :=
  .mk ⟨3, 5⟩ false ⟨8, 3⟩ [.conditional ⟨3, 5⟩
    (.binary ⟨3, 10⟩ .gt (.name ⟨3, 8⟩ "c") (.number ⟨3, 12⟩ (.finite false 0 1)))
    thenBlock (some elseBlock)]

theorem branched_loopOver (cond : Expr) (body₁ body₂ : Block) :
    Branched cond body₁ body₂ (loopOver cond body₁) (loopOver cond body₂)
      (loopOver cond (choiceOf body₁ body₂)) :=
  .whileLoop rfl rfl rfl

/-- The body of a single assignment. -/
def setting (n : Name) (value : Expr) : Block :=
  .mk ⟨3, 5⟩ false ⟨4, 3⟩ [.assign ⟨3, 5⟩ (.name ⟨3, 5⟩ n) value]

/-- The condition `lo < n`. -/
def untilTop : Expr := .binary ⟨2, 12⟩ .lt (.name ⟨2, 9⟩ "lo") (.name ⟨2, 14⟩ "n")

/-- The body `lo <- lo + 1`. -/
def nextUp : Block :=
  setting "lo" (.binary ⟨3, 14⟩ .add (.name ⟨3, 11⟩ "lo") (.number ⟨3, 16⟩ (.finite false 1 1)))

/-- The body `lo <- lo + (b - a) / 2`. -/
def halfUp : Block :=
  setting "lo" (.binary ⟨3, 14⟩ .add (.name ⟨3, 11⟩ "lo")
    (.binary ⟨3, 24⟩ .div (.binary ⟨3, 19⟩ .sub (.name ⟨3, 17⟩ "b") (.name ⟨3, 21⟩ "a"))
      (.number ⟨3, 26⟩ (.finite false 2 1))))

open LoopShape in
/-- Two loops that step up, each of them linear. To choose between the steps counts as
logarithmic, since one of them is a midpoint. -/
theorem iterations_branched_shared :
    Branched untilTop halfUp nextUp (loopOver untilTop halfUp) (loopOver untilTop nextUp)
      (loopOver untilTop (choiceOf halfUp nextUp))
    ∧ ((loopOver untilTop halfUp).iterations : Growth (Tolerant (1 / 10 ^ 9))) = Growth.linear
    ∧ ((loopOver untilTop nextUp).iterations : Growth (Tolerant (1 / 10 ^ 9))) = Growth.linear
    ∧ ((loopOver untilTop (choiceOf halfUp nextUp)).iterations : Growth (Tolerant (1 / 10 ^ 9)))
      = Growth.logarithmic := by
  have hε : (0 : ℝ) ≤ 1 / 10 ^ 9 := by norm_num
  have hlt : (1 : ℝ) / 10 ^ 9 < 1 := by norm_num
  have hhalf : (loopOver untilTop halfUp).loopShape.progress = .linear := by decide
  have hnext : (loopOver untilTop nextUp).loopShape.progress = .linear := by decide
  have hshares : Shares untilTop halfUp nextUp :=
    .inr ⟨_, "lo", ⟨List.mem_singleton_self _, rfl, by decide⟩, by decide, by decide⟩
  obtain ⟨-, -, -, hmin, -⟩ := iterations_branched hε hlt (branched_loopOver untilTop halfUp nextUp)
    (by rw [hhalf]; decide) (by rw [hnext]; decide)
  refine ⟨branched_loopOver _ _ _, ?_, ?_, ?_⟩
  · rw [Stmt.iterations, hhalf]
    rfl
  · rw [Stmt.iterations, hnext]
    rfl
  · rw [hmin hshares, Stmt.iterations, Stmt.iterations, hhalf, hnext]
    have hlogarithmic : pace (false || false || false) (false || false || true)
        = ((pace false false).min (pace false false)).min
          (pace false true : Growth (Tolerant (1 / 10 ^ 9))) := by
      rw [pace_or hε hlt, pace_or hε hlt]
    exact hlogarithmic.symm

/-- The condition `n > 0`. -/
def whilePositive : Expr :=
  .binary ⟨2, 11⟩ .gt (.name ⟨2, 9⟩ "n") (.number ⟨2, 13⟩ (.finite false 0 1))

/-- The body `n <- n - 1`. -/
def oneLess : Block :=
  setting "n" (.binary ⟨3, 12⟩ .sub (.name ⟨3, 10⟩ "n") (.number ⟨3, 14⟩ (.finite false 1 1)))

/-- The body `n <- n div 2`. -/
def halfOf : Block :=
  setting "n" (.binary ⟨3, 12⟩ .intDiv (.name ⟨3, 10⟩ "n") (.number ⟨3, 16⟩ (.finite false 2 1)))

open LoopShape in
/-- The loop that either takes one off or halves is below the loop that always takes one off. -/
theorem iterations_branched_lt :
    Branched whilePositive oneLess halfOf (loopOver whilePositive oneLess)
      (loopOver whilePositive halfOf) (loopOver whilePositive (choiceOf oneLess halfOf))
    ∧ (loopOver whilePositive oneLess).loopShape.progress ≠ .unresolved
    ∧ (loopOver whilePositive halfOf).loopShape.progress ≠ .unresolved
    ∧ ((loopOver whilePositive (choiceOf oneLess halfOf)).iterations
        : Growth (Tolerant (1 / 10 ^ 9))).compare (loopOver whilePositive oneLess).iterations
      = .lt := by
  have hε : (0 : ℝ) ≤ 1 / 10 ^ 9 := by norm_num
  have hlt : (1 : ℝ) / 10 ^ 9 < 1 := by norm_num
  have hless : (loopOver whilePositive oneLess).loopShape.progress = .linear := by decide
  have hhalf : (loopOver whilePositive halfOf).loopShape.progress = .logarithmic := by decide
  have hchoice : (loopOver whilePositive (choiceOf oneLess halfOf)).loopShape.progress
      = .logarithmic := by decide
  refine ⟨branched_loopOver _ _ _, by rw [hless]; decide, by rw [hhalf]; decide, ?_⟩
  rw [Stmt.iterations, Stmt.iterations, hless, hchoice]
  exact compare_pace hε hlt false true false false

end PseudoCost
