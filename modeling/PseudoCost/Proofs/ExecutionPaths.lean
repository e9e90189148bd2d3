import Mathlib.Algebra.Order.Group.Nat
import Mathlib.Algebra.Order.Group.Pointwise.Bounds
import Mathlib.Order.Bounds.Lattice
import PseudoCost.Recurrence.Paths
import PseudoCost.Proofs.Calls

/-!
# Self-calls on execution paths

An execution path takes one branch of every conditional, evaluates the header of every loop once and
runs its body once or not at all, and ends at the first return. `Stmt.Path` says so without a
summary: it relates a statement to the calls along one path through it. The counting of self-calls
keeps two summaries instead, one of the paths that fall through and one of those that returned.

The paths that are counted differ from those of an execution in two rules (`PathRules`). The step of
a counting loop is not evaluated, and a path that returned in the body of a loop also goes on after
the loop. Over its own paths the counting is exact. Over those of an execution the least number is
still right and the largest one a bound if no step makes a self-call, and both are exact if moreover
no return leaves a loop (`countSelfCalls_extremes`).

What carries the proof is that a summary spans a set of numbers (`CallCount.Spans`): either of two
paths is a union of such sets, and one path after another their sum.
-/

namespace PseudoCost

open scoped Pointwise

/-! ## Paths -/

/-- How a path goes through a loop. -/
structure PathRules where
  /-- Whether the step of a counting loop is evaluated with its header. -/
  evaluatesStep : Bool
  /-- Whether a path that returned in the body of a loop also goes on after the loop. -/
  resumes : Bool

/-- The paths of an execution. -/
def PathRules.execution : PathRules := ⟨true, false⟩

/-- The paths that the counting of calls goes by. -/
def PathRules.counted : PathRules := ⟨false, true⟩

/-- The calls in the header of a loop, and its body. -/
def Stmt.loop? (r : PathRules) : Stmt → Option (List Call × Block)
  | .forLoop _ _ _ start stop step body =>
    let stepCalls := if r.evaluatesStep then step.toList.flatMap Expr.calls else []
    some (start.calls ++ stop.calls ++ stepCalls, body)
  | .whileLoop _ _ cond body => some (cond.calls, body)
  | .repeatLoop _ _ body cond => some (cond.calls, body)
  | .conditional .. | .assign .. | .call .. | .give .. => none

/-- Whether a statement without parts returns. -/
def Stmt.ends? : Stmt → Option Bool
  | .give .. => some true
  | .assign .. | .call .. => some false
  | .forLoop .. | .whileLoop .. | .repeatLoop .. | .conditional .. => none

mutual

/-- A path through a statement: the calls along it and whether it returned. -/
inductive Stmt.Path (r : PathRules) : Stmt → List Call → Bool → Prop
  | simple {s returned} : s.ends? = some returned → Stmt.Path r s s.calls returned
  | thenBranch {pos cond thenBlock elseBlock calls returned} :
      Stmt.PathOf r thenBlock.stmts calls returned →
      Stmt.Path r (.conditional pos cond thenBlock elseBlock) (cond.calls ++ calls) returned
  | elseBranch {pos cond thenBlock elseBlock calls returned} :
      Stmt.PathOf r (elseBlock.elim [] Block.stmts) calls returned →
      Stmt.Path r (.conditional pos cond thenBlock elseBlock) (cond.calls ++ calls) returned
  | skipped {s header body} : s.loop? r = some (header, body) → Stmt.Path r s header false
  | entered {s header body calls returned} : s.loop? r = some (header, body) →
      Stmt.PathOf r body.stmts calls returned → Stmt.Path r s (header ++ calls) returned
  | resumed {s header body calls} : s.loop? r = some (header, body) → r.resumes = true →
      Stmt.PathOf r body.stmts calls true → Stmt.Path r s (header ++ calls) false

/-- A path through a list of statements. A statement after a return is not reached. -/
inductive Stmt.PathOf (r : PathRules) : List Stmt → List Call → Bool → Prop
  | nil : Stmt.PathOf r [] [] false
  | ended {s ss calls} : Stmt.Path r s calls true → Stmt.PathOf r (s :: ss) calls true
  | cons {s ss calls more returned} : Stmt.Path r s calls false →
      Stmt.PathOf r ss more returned → Stmt.PathOf r (s :: ss) (calls ++ more) returned

end

/-- The number of calls that go to a procedure. -/
def tally (self : Name) (calls : List Call) : ℕ := calls.countP (·.callee == self)

/-- The numbers of calls to a procedure along the paths through a statement that returned, or those
that did not. -/
def Stmt.tallies (r : PathRules) (self : Name) (s : Stmt) (returned : Bool) : Set ℕ :=
  {k | ∃ calls, s.Path r calls returned ∧ tally self calls = k}

/-- The numbers of calls to a procedure along the paths through a list of statements. -/
def Stmt.talliesOf (r : PathRules) (self : Name) (ss : List Stmt) (returned : Bool) : Set ℕ :=
  {k | ∃ calls, Stmt.PathOf r ss calls returned ∧ tally self calls = k}

/-- The numbers of self-calls along the paths through a procedure. -/
def Procedure.selfCalls (r : PathRules) (q : Procedure) : Set ℕ :=
  {k | ∃ calls returned, Stmt.PathOf r q.body.stmts calls returned ∧ tally q.name calls = k}

mutual

/-- Whether a return in the statement leaves a loop. `inside` says that the statement itself is in
one. -/
def Stmt.leavesLoop (inside : Bool) : Stmt → Bool
  | .forLoop _ _ _ _ _ _ body => body.leavesLoop true
  | .whileLoop _ _ _ body => body.leavesLoop true
  | .repeatLoop _ _ body _ => body.leavesLoop true
  | .conditional _ _ thenBlock (some elseBlock) =>
    thenBlock.leavesLoop inside || elseBlock.leavesLoop inside
  | .conditional _ _ thenBlock none => thenBlock.leavesLoop inside
  | .give .. => inside
  | .assign .. | .call .. => false

/-- Whether a return in the block leaves a loop. -/
def Block.leavesLoop (inside : Bool) : Block → Bool
  | .mk _ _ _ stmts => Stmt.leavesLoopOf inside stmts

/-- Whether a return in a list of statements leaves a loop. -/
def Stmt.leavesLoopOf (inside : Bool) : List Stmt → Bool
  | [] => false
  | s :: ss => s.leavesLoop inside || Stmt.leavesLoopOf inside ss

end

theorem Block.leavesLoop_eq (b : Block) (inside : Bool) :
    b.leavesLoop inside = Stmt.leavesLoopOf inside b.stmts := by
  cases b
  rfl

/-! ## The numbers along a path -/

section Tallies

variable {r : PathRules} {self : Name}

@[simp] theorem tally_append (xs ys : List Call) :
    tally self (xs ++ ys) = tally self xs + tally self ys := List.countP_append

theorem tally_eq_zero {calls : List Call} (h : ∀ c ∈ calls, c.callee ≠ self) :
    tally self calls = 0 := by
  rw [tally, List.countP_eq_zero]
  intro c hc
  simpa using h c hc

theorem Procedure.selfCalls_eq (q : Procedure) :
    q.selfCalls r = Stmt.talliesOf r q.name q.body.stmts false
      ∪ Stmt.talliesOf r q.name q.body.stmts true := by
  ext k
  constructor
  · rintro ⟨calls, returned, hpath, hk⟩
    cases returned with
    | false => exact Or.inl ⟨calls, hpath, hk⟩
    | true => exact Or.inr ⟨calls, hpath, hk⟩
  · rintro (⟨calls, hpath, hk⟩ | ⟨calls, hpath, hk⟩)
    · exact ⟨calls, false, hpath, hk⟩
    · exact ⟨calls, true, hpath, hk⟩

namespace Stmt

theorem ends?_of_loop? {s : Stmt} {header : List Call} {body : Block}
    (h : s.loop? r = some (header, body)) : s.ends? = none := by
  cases s <;> first | rfl | cases h

theorem tallies_simple {s : Stmt} {ends : Bool} (h : s.ends? = some ends) :
    s.tallies r self ends = {tally self s.calls} := by
  ext k
  constructor
  · rintro ⟨calls, hpath, rfl⟩
    cases hpath with
    | simple => rfl
    | thenBranch | elseBranch => cases h
    | skipped hloop | entered hloop | resumed hloop => cases (ends?_of_loop? hloop).symm.trans h
  · rintro rfl
    exact ⟨_, .simple h, rfl⟩

theorem tallies_simple_ne {s : Stmt} {ends returned : Bool} (h : s.ends? = some ends)
    (hne : returned ≠ ends) : s.tallies r self returned = ∅ := by
  refine Set.eq_empty_of_forall_notMem ?_
  rintro k ⟨calls, hpath, -⟩
  cases hpath with
  | simple hends => exact hne (Option.some.inj (hends.symm.trans h))
  | thenBranch | elseBranch => cases h
  | skipped hloop | entered hloop | resumed hloop => cases (ends?_of_loop? hloop).symm.trans h

/-- The paths of a conditional, whose second branch is empty if there is none. -/
theorem tallies_conditional {pos : Pos} {cond : Expr} {thenBlock : Block} {elseBlock : Option Block}
    {returned : Bool} :
    (Stmt.conditional pos cond thenBlock elseBlock).tallies r self returned
      = ({tally self cond.calls} : Set ℕ) + (talliesOf r self thenBlock.stmts returned
          ∪ talliesOf r self (elseBlock.elim [] Block.stmts) returned) := by
  ext k
  rw [Set.singleton_add]
  constructor
  · rintro ⟨calls, hpath, rfl⟩
    cases hpath with
    | thenBranch hthen => exact ⟨_, Or.inl ⟨_, hthen, rfl⟩, (tally_append _ _).symm⟩
    | elseBranch helse => exact ⟨_, Or.inr ⟨_, helse, rfl⟩, (tally_append _ _).symm⟩
    | simple hends => cases hends
    | skipped hloop | entered hloop | resumed hloop => cases hloop
  · rintro ⟨_, (⟨calls, hthen, rfl⟩ | ⟨calls, helse, rfl⟩), rfl⟩
    · exact ⟨_, .thenBranch hthen, tally_append _ _⟩
    · exact ⟨_, .elseBranch helse, tally_append _ _⟩

theorem tallies_loop {s : Stmt} {header : List Call} {body : Block}
    (h : s.loop? r = some (header, body)) :
    s.tallies r self true = ({tally self header} : Set ℕ) + talliesOf r self body.stmts true := by
  ext k
  rw [Set.singleton_add]
  constructor
  · rintro ⟨calls, hpath, rfl⟩
    cases hpath with
    | entered hloop hbody =>
        obtain ⟨rfl, rfl⟩ := Prod.mk.inj (Option.some.inj (h.symm.trans hloop))
        exact ⟨_, ⟨_, hbody, rfl⟩, (tally_append _ _).symm⟩
    | simple hends => cases (ends?_of_loop? h).symm.trans hends
    | thenBranch | elseBranch => cases h
  · rintro ⟨_, ⟨calls, hbody, rfl⟩, rfl⟩
    exact ⟨_, .entered h hbody, tally_append _ _⟩

theorem tallies_loop_falls {s : Stmt} {header : List Call} {body : Block}
    (h : s.loop? r = some (header, body)) :
    s.tallies r self false = ({tally self header} : Set ℕ)
      + ({0} ∪ (talliesOf r self body.stmts false
          ∪ {k ∈ talliesOf r self body.stmts true | r.resumes = true})) := by
  ext k
  rw [Set.singleton_add]
  constructor
  · rintro ⟨calls, hpath, rfl⟩
    cases hpath with
    | skipped hloop =>
        obtain ⟨rfl, rfl⟩ := Prod.mk.inj (Option.some.inj (h.symm.trans hloop))
        exact ⟨0, Or.inl rfl, rfl⟩
    | entered hloop hbody =>
        obtain ⟨rfl, rfl⟩ := Prod.mk.inj (Option.some.inj (h.symm.trans hloop))
        exact ⟨_, Or.inr (Or.inl ⟨_, hbody, rfl⟩), (tally_append _ _).symm⟩
    | resumed hloop hresumes hbody =>
        obtain ⟨rfl, rfl⟩ := Prod.mk.inj (Option.some.inj (h.symm.trans hloop))
        exact ⟨_, Or.inr (Or.inr ⟨⟨_, hbody, rfl⟩, hresumes⟩), (tally_append _ _).symm⟩
    | simple hends => cases (ends?_of_loop? h).symm.trans hends
    | thenBranch | elseBranch => cases h
  · rintro ⟨_, (rfl | ⟨calls, hbody, rfl⟩ | ⟨⟨calls, hbody, rfl⟩, hresumes⟩), rfl⟩
    · exact ⟨_, .skipped h, rfl⟩
    · exact ⟨_, .entered h hbody, tally_append _ _⟩
    · exact ⟨_, .resumed h hresumes hbody, tally_append _ _⟩

@[simp] theorem talliesOf_nil : talliesOf r self [] false = {0} := by
  ext k
  constructor
  · rintro ⟨calls, hpath, rfl⟩
    cases hpath
    rfl
  · rintro rfl
    exact ⟨_, .nil, rfl⟩

@[simp] theorem talliesOf_nil_returned : talliesOf r self [] true = ∅ := by
  refine Set.eq_empty_of_forall_notMem ?_
  rintro k ⟨calls, hpath, -⟩
  cases hpath

theorem talliesOf_cons (s : Stmt) (ss : List Stmt) :
    talliesOf r self (s :: ss) false
      = s.tallies r self false + talliesOf r self ss false := by
  ext k
  rw [Set.mem_add]
  constructor
  · rintro ⟨_, hpath, rfl⟩
    cases hpath with
    | cons hs hss => exact ⟨_, ⟨_, hs, rfl⟩, _, ⟨_, hss, rfl⟩, (tally_append _ _).symm⟩
  · rintro ⟨_, ⟨calls, hs, rfl⟩, _, ⟨more, hss, rfl⟩, rfl⟩
    exact ⟨_, .cons hs hss, tally_append _ _⟩

theorem talliesOf_cons_returned (s : Stmt) (ss : List Stmt) :
    talliesOf r self (s :: ss) true
      = s.tallies r self true ∪ (s.tallies r self false + talliesOf r self ss true) := by
  ext k
  rw [Set.mem_union, Set.mem_add]
  constructor
  · rintro ⟨_, hpath, rfl⟩
    cases hpath with
    | ended hs => exact Or.inl ⟨_, hs, rfl⟩
    | cons hs hss => exact Or.inr ⟨_, ⟨_, hs, rfl⟩, _, ⟨_, hss, rfl⟩, (tally_append _ _).symm⟩
  · rintro (⟨calls, hs, rfl⟩ | ⟨_, ⟨calls, hs, rfl⟩, _, ⟨more, hss, rfl⟩, rfl⟩)
    · exact ⟨_, .ended hs, rfl⟩
    · exact ⟨_, .cons hs hss, tally_append _ _⟩

end Stmt

mutual

theorem Stmt.exists_path (r : PathRules) : ∀ s : Stmt, ∃ calls returned, s.Path r calls returned
  | .give .. | .assign .. | .call .. => ⟨_, _, .simple rfl⟩
  | .conditional _ _ thenBlock _ =>
      have ⟨_, _, hthen⟩ := Block.exists_path r thenBlock
      ⟨_, _, .thenBranch hthen⟩
  | .forLoop .. | .whileLoop .. | .repeatLoop .. => ⟨_, _, .skipped rfl⟩

/-- Some path leads through every block. -/
theorem Block.exists_path (r : PathRules) : ∀ b : Block,
    ∃ calls returned, Stmt.PathOf r b.stmts calls returned
  | .mk _ _ _ stmts => Stmt.exists_pathOf r stmts

theorem Stmt.exists_pathOf (r : PathRules) : ∀ ss : List Stmt,
    ∃ calls returned, Stmt.PathOf r ss calls returned
  | [] => ⟨_, _, .nil⟩
  | s :: ss => by
      obtain ⟨calls, returned, hs⟩ := s.exists_path r
      cases returned with
      | true => exact ⟨_, _, .ended hs⟩
      | false =>
          obtain ⟨more, returned, hss⟩ := Stmt.exists_pathOf r ss
          exact ⟨_, _, .cons hs hss⟩

end

theorem Procedure.selfCalls_nonempty (r : PathRules) (q : Procedure) :
    (q.selfCalls r).Nonempty := by
  obtain ⟨calls, returned, hpath⟩ := q.body.exists_path r
  exact ⟨_, calls, returned, hpath, rfl⟩

mutual

/-- A path that returns inside of a loop takes a return that leaves the loop. -/
theorem Stmt.Path.leavesLoop : ∀ {s : Stmt} {calls : List Call} {returned : Bool},
    s.Path r calls returned → returned = true → s.leavesLoop true = true
  | .give .., _, _, .simple _, _ => rfl
  | .assign .., _, _, .simple hends, hreturned | .call .., _, _, .simple hends, hreturned => by
      cases hends
      cases hreturned
  | .conditional _ _ _ none, _, _, .thenBranch hthen, hreturned => by
      rw [Stmt.leavesLoop, Block.leavesLoop_eq, hthen.leavesLoop hreturned]
  | .conditional _ _ _ (some _), _, _, .thenBranch hthen, hreturned => by
      rw [Stmt.leavesLoop, Block.leavesLoop_eq, hthen.leavesLoop hreturned, Bool.true_or]
  | .conditional _ _ _ none, _, _, .elseBranch helse, hreturned => by
      cases helse
      cases hreturned
  | .conditional _ _ _ (some elseBlock), _, _, .elseBranch helse, hreturned => by
      have hleaves : Stmt.leavesLoopOf true elseBlock.stmts = true := helse.leavesLoop hreturned
      rw [← Block.leavesLoop_eq] at hleaves
      rw [Stmt.leavesLoop, hleaves, Bool.or_true]
  | s, _, _, .entered hloop hbody, hreturned => by
      have hleaves := hbody.leavesLoop hreturned
      rw [← Block.leavesLoop_eq] at hleaves
      cases s <;> cases hloop <;> exact hleaves

theorem Stmt.PathOf.leavesLoop : ∀ {ss : List Stmt} {calls : List Call} {returned : Bool},
    Stmt.PathOf r ss calls returned → returned = true → Stmt.leavesLoopOf true ss = true
  | _, _, _, .ended hs, hreturned => by
      rw [Stmt.leavesLoopOf, hs.leavesLoop hreturned, Bool.true_or]
  | _, _, _, .cons _ hss, hreturned => by
      rw [Stmt.leavesLoopOf, hss.leavesLoop hreturned, Bool.or_true]

end

theorem Stmt.talliesOf_returned_eq_empty {b : Block} (h : b.leavesLoop true = false) :
    Stmt.talliesOf r self b.stmts true = ∅ := by
  refine Set.eq_empty_of_forall_notMem ?_
  rintro k ⟨calls, hpath, -⟩
  rw [Block.leavesLoop_eq, hpath.leavesLoop rfl] at h
  cases h

end Tallies

/-! ## Summaries of sets of numbers -/

namespace Recurrence

/-- A count has the least number of a set and a bound of it, which is in the set if `exact`. -/
structure CallCount.Spans (exact : Prop) (S : Set ℕ) (c : CallCount) : Prop where
  least : IsLeast S c.min
  bound : c.max ∈ upperBounds S
  attained : exact → c.max ∈ S

/-- A count spans a set, and that there is none means that the set is empty. -/
def Covers (exact : Prop) (S : Set ℕ) : Option CallCount → Prop
  | none => S = ∅
  | some c => c.Spans exact S

/-- What a flow keeps of the paths that fell through, and of those that returned. -/
structure Follows (exact : Prop) (F D : Set ℕ) (f : Flow CallCount) : Prop where
  falls : Covers exact F f.falls
  returned : Covers exact D f.returned

variable {exact : Prop} {self : Name}

namespace CallCount.Spans

variable {S T : Set ℕ} {a b : CallCount}

theorem ofCalls (calls : List Call) :
    Spans exact {tally self calls} ((countAlgebra self).ofCalls calls) where
  least := isLeast_singleton
  bound := mem_upperBounds.mpr fun _ hk => le_of_eq hk
  attained _ := rfl

theorem empty (self : Name) : Spans exact {0} (countAlgebra self).empty :=
  @ofCalls _ self []

theorem join (ha : Spans exact S a) (hb : Spans exact T b) :
    Spans exact (S ∪ T) ((countAlgebra self).join a b) where
  least := ha.least.union hb.least
  bound := by
    rintro k (hk | hk)
    · exact (ha.bound hk).trans (le_max_left _ _)
    · exact (hb.bound hk).trans (le_max_right _ _)
  attained h := by
    change Max.max a.max b.max ∈ S ∪ T
    rcases max_choice a.max b.max with hmax | hmax <;> rw [hmax]
    · exact Or.inl (ha.attained h)
    · exact Or.inr (hb.attained h)

theorem concat (ha : Spans exact S a) (hb : Spans exact T b) :
    Spans exact (S + T) ((countAlgebra self).concat a b) where
  least := ⟨Set.add_mem_add ha.least.1 hb.least.1, add_mem_lowerBounds_add ha.least.2 hb.least.2⟩
  bound := add_mem_upperBounds_add ha.bound hb.bound
  attained h := Set.add_mem_add (ha.attained h) (hb.attained h)

/-- A count still spans a part of the set that has its least number. -/
theorem mono (h : Spans exact T a) (hsub : S ⊆ T) (hleast : a.min ∈ S) (heq : exact → T ⊆ S) :
    Spans exact S a where
  least := ⟨hleast, fun _ hk => h.least.2 (hsub hk)⟩
  bound _ hk := h.bound (hsub hk)
  attained hexact := heq hexact (h.attained hexact)

end CallCount.Spans

namespace Covers

variable {S T : Set ℕ} {x y : Option CallCount} {c : CallCount}

theorem join? (hx : Covers exact S x) (hy : Covers exact T y) :
    Covers exact (S ∪ T) ((countAlgebra self).join? x y) := by
  cases x with
  | none =>
      obtain rfl : S = ∅ := hx
      rwa [Set.empty_union]
  | some a =>
      cases y with
      | none =>
          obtain rfl : T = ∅ := hy
          rwa [Set.union_empty]
      | some b => exact CallCount.Spans.join hx hy

theorem map_concat (hc : c.Spans exact S) (hx : Covers exact T x) :
    Covers exact (S + T) (x.map ((countAlgebra self).concat c)) := by
  cases x with
  | none =>
      obtain rfl : T = ∅ := hx
      exact Set.add_empty
  | some a => exact CallCount.Spans.concat hc hx

end Covers

namespace Follows

variable {F F' D D' H : Set ℕ} {f f' : Flow CallCount} {c : CallCount}

theorem all (h : Follows exact F D f) : Covers exact (F ∪ D) ((countAlgebra self).all f) :=
  h.falls.join? h.returned

theorem start (self : Name) : Follows exact {0} ∅ (countAlgebra self).start := ⟨.empty self, rfl⟩

theorem conditional (hc : c.Spans exact H) (ht : Follows exact F D f)
    (he : Follows exact F' D' f') :
    Follows exact (H + (F ∪ F')) (H + (D ∪ D')) ((countAlgebra self).conditional c f f') where
  falls := Covers.map_concat hc (ht.falls.join? he.falls)
  returned := Covers.map_concat hc (ht.returned.join? he.returned)

theorem sequence (hf : Follows exact F D f) (hc : c.Spans exact F) (hn : Follows exact F' D' f') :
    Follows exact (F + F') (D ∪ (F + D')) ((countAlgebra self).sequence f c f') where
  falls := Covers.map_concat hc hn.falls
  returned := hf.returned.join? (Covers.map_concat hc hn.returned)

/-- The paths through a loop, of which only those in `R` go on after a return in the body. Not to
enter the loop is the path with the fewest calls, so what goes on bears on the largest number
only. -/
theorem loop {R : Set ℕ} (hc : c.Spans exact H) (hb : Follows exact F D f) (hR : R ⊆ D)
    (heq : exact → D ⊆ R) :
    Follows exact (H + ({0} ∪ (F ∪ R))) (H + D) ((countAlgebra self).loop c f) where
  falls := by
    refine CallCount.Spans.concat hc ?_
    have hall : Covers exact (F ∪ D) ((countAlgebra self).all f) := hb.all
    cases h : (countAlgebra self).all f with
    | none =>
        rw [h] at hall
        obtain ⟨rfl, rfl⟩ := Set.union_empty_iff.mp hall
        obtain rfl := Set.subset_empty_iff.mp hR
        rw [Set.union_empty, Set.union_empty]
        exact .empty self
    | some a =>
        rw [h] at hall
        have hjoin : CallCount.Spans exact ({0} ∪ (F ∪ D)) ((countAlgebra self).join {} a) :=
          (CallCount.Spans.empty self).join hall
        refine hjoin.mono ?_ (Or.inl ?_) ?_
        · exact Set.union_subset_union_right _ (Set.union_subset_union_right _ hR)
        · exact Nat.zero_min _
        · intro hexact
          exact Set.union_subset_union_right _ (Set.union_subset_union_right _ (heq hexact))
  returned := Covers.map_concat hc hb.returned

end Follows

/-! ## The counting follows the paths -/

/-- What the steps of loops and the returns in them must be for the counting: no step that is
evaluated makes a call to the procedure, and it is exact if no return leaves a loop, unless such a
path is resumed. -/
structure Fits (r : PathRules) (name : Name) (exact : Prop) (steps : List Call) (leaves : Bool) :
    Prop where
  steps : r.evaluatesStep = true → ∀ c ∈ steps, c.callee ≠ name
  leaves : exact → r.resumes = true ∨ leaves = false

namespace Fits

variable {r : PathRules} {steps steps' : List Call} {leaves leaves' : Bool}

theorem mono (h : Fits r self exact steps leaves) (hsteps : steps' ⊆ steps)
    (hleaves : leaves = false → leaves' = false) : Fits r self exact steps' leaves' where
  steps hr c hc := h.steps hr c (hsteps hc)
  leaves hexact := (h.leaves hexact).imp_right hleaves

end Fits

section Counting

variable {r : PathRules}

theorem follows_falling {s : Stmt} (h : s.ends? = some false) :
    Follows exact (s.tallies r self false) (s.tallies r self true)
      ⟨some ((countAlgebra self).ofCalls s.calls), none, []⟩ where
  falls := by
    rw [Stmt.tallies_simple h]
    exact .ofCalls s.calls
  returned := Stmt.tallies_simple_ne h (by decide)

theorem follows_returning {s : Stmt} (h : s.ends? = some true) :
    Follows exact (s.tallies r self false) (s.tallies r self true)
      ⟨none, some ((countAlgebra self).ofCalls s.calls), []⟩ where
  falls := Stmt.tallies_simple_ne h (by decide)
  returned := by
    rw [Stmt.tallies_simple h]
    exact .ofCalls s.calls

/-- The header of a counting loop: a step that makes no self-call does not change its count. -/
theorem spans_header (start stop : Expr) (step : Option Expr)
    (hstep : r.evaluatesStep = true → ∀ c ∈ step.toList.flatMap Expr.calls, c.callee ≠ self) :
    CallCount.Spans exact
      {tally self (start.calls ++ stop.calls
        ++ if r.evaluatesStep then step.toList.flatMap Expr.calls else [])}
      ((countAlgebra self).concat ((countAlgebra self).ofCalls start.calls)
        ((countAlgebra self).ofCalls stop.calls)) := by
  have hzero : tally self (if r.evaluatesStep then step.toList.flatMap Expr.calls else []) = 0 := by
    split
    · rename_i hr
      exact tally_eq_zero (hstep hr)
    · rfl
  rw [tally_append, hzero, Nat.add_zero, tally_append, ← Set.singleton_add_singleton]
  exact (CallCount.Spans.ofCalls start.calls).concat (.ofCalls stop.calls)

theorem follows_loop {s : Stmt} {header : List Call} {body : Block} {c : CallCount}
    {f : Flow CallCount} (hloop : s.loop? r = some (header, body))
    (hheader : c.Spans exact {tally self header})
    (hbody : Follows exact (Stmt.talliesOf r self body.stmts false)
      (Stmt.talliesOf r self body.stmts true) f)
    (hleaves : exact → r.resumes = true ∨ body.leavesLoop true = false) :
    Follows exact (s.tallies r self false) (s.tallies r self true)
      ((countAlgebra self).loop c f) := by
  rw [Stmt.tallies_loop hloop, Stmt.tallies_loop_falls hloop]
  refine .loop hheader hbody (Set.sep_subset _ _) ?_
  intro hexact k hk
  rcases hleaves hexact with hresumes | hleaves
  · exact ⟨hk, hresumes⟩
  · rw [Stmt.talliesOf_returned_eq_empty hleaves] at hk
    exact absurd hk (Set.notMem_empty k)

mutual

theorem follows_ofStmt (inside : Bool) : ∀ s : Stmt,
    Fits r self exact s.stepCalls (s.leavesLoop inside) →
    Follows exact (s.tallies r self false) (s.tallies r self true) ((countAlgebra self).ofStmt s)
  | .give .., _ => by
      rw [PathAlgebra.ofStmt]
      exact follows_returning rfl
  | .assign .., _ | .call .., _ => by
      rw [PathAlgebra.ofStmt]
      exact follows_falling rfl
  | .conditional _ cond thenBlock (some elseBlock), h => by
      rw [Stmt.stepCalls, Stmt.leavesLoop] at h
      rw [PathAlgebra.ofStmt, Stmt.tallies_conditional, Stmt.tallies_conditional]
      refine .conditional (.ofCalls _) (follows_ofBlock inside thenBlock ?_)
        (follows_ofBlock inside elseBlock ?_)
      · exact h.mono (List.subset_append_left _ _) fun hl => (Bool.or_eq_false_iff.mp hl).1
      · exact h.mono (List.subset_append_right _ _) fun hl => (Bool.or_eq_false_iff.mp hl).2
  | .conditional _ cond thenBlock none, h => by
      rw [Stmt.stepCalls, Stmt.leavesLoop] at h
      rw [PathAlgebra.ofStmt, Stmt.tallies_conditional, Stmt.tallies_conditional, Option.elim,
        Stmt.talliesOf_nil, Stmt.talliesOf_nil_returned]
      exact .conditional (.ofCalls _) (follows_ofBlock inside thenBlock h) (.start self)
  | .forLoop _ _ _ start stop step body, h => by
      rw [Stmt.stepCalls, Stmt.leavesLoop] at h
      have hbody := h.mono (List.subset_append_right _ _) id
      rw [PathAlgebra.ofStmt]
      refine follows_loop rfl (spans_header start stop step ?_) (follows_ofBlock true body hbody)
        hbody.leaves
      exact fun hr c hc => h.steps hr c (List.mem_append_left _ hc)
  | .whileLoop _ _ cond body, h | .repeatLoop _ _ body cond, h => by
      rw [Stmt.stepCalls, Stmt.leavesLoop] at h
      rw [PathAlgebra.ofStmt]
      exact follows_loop rfl (.ofCalls cond.calls) (follows_ofBlock true body h) h.leaves

/-- The summaries of a block span the numbers of calls along its paths. -/
theorem follows_ofBlock (inside : Bool) : ∀ b : Block,
    Fits r self exact b.stepCalls (b.leavesLoop inside) →
    Follows exact (Stmt.talliesOf r self b.stmts false) (Stmt.talliesOf r self b.stmts true)
      ((countAlgebra self).ofBlock b)
  | .mk _ _ _ stmts, h => by
      rw [Block.stepCalls, Block.leavesLoop] at h
      have hlist := follows_ofList inside stmts h (.start self)
      rw [Set.singleton_zero, zero_add, zero_add, Set.empty_union] at hlist
      rwa [PathAlgebra.ofBlock]

theorem follows_ofList (inside : Bool) {F D : Set ℕ} {before : Flow CallCount} :
    ∀ ss : List Stmt, Fits r self exact (Stmt.stepCallsOf ss) (Stmt.leavesLoopOf inside ss) →
    Follows exact F D before →
    Follows exact (F + Stmt.talliesOf r self ss false) (D ∪ (F + Stmt.talliesOf r self ss true))
      ((countAlgebra self).ofList before ss)
  | [], _, hbefore => by
      rw [PathAlgebra.ofList, Stmt.talliesOf_nil, Stmt.talliesOf_nil_returned, Set.singleton_zero,
        add_zero, Set.add_empty, Set.union_empty]
      exact hbefore
  | s :: ss, h, hbefore => by
      rw [Stmt.stepCallsOf, Stmt.leavesLoopOf] at h
      have hs := h.mono (List.subset_append_left _ _) fun hl => (Bool.or_eq_false_iff.mp hl).1
      have hss := h.mono (List.subset_append_right _ _) fun hl => (Bool.or_eq_false_iff.mp hl).2
      rw [PathAlgebra.ofList]
      split
      · rename_i hfalls
        obtain rfl : F = ∅ := by simpa only [hfalls, Covers] using hbefore.falls
        rwa [Set.empty_add, Set.empty_add, Set.union_empty]
      · rename_i prior hfalls
        have hprior : prior.Spans exact F := by simpa only [hfalls, Covers] using hbefore.falls
        rw [Stmt.talliesOf_cons, Stmt.talliesOf_cons_returned, Set.add_union, ← add_assoc,
          ← add_assoc, ← Set.union_assoc]
        exact follows_ofList inside ss hss
          (.sequence hbefore hprior (follows_ofStmt inside s hs))

end

/-- The count of a procedure spans the numbers of self-calls along its paths. -/
theorem spans_countSelfCalls (q : Procedure)
    (h : Fits r q.name exact q.body.stepCalls (q.body.leavesLoop false)) :
    (countSelfCalls q).Spans exact (q.selfCalls r) := by
  have hall : Covers exact (q.selfCalls r)
      ((countAlgebra q.name).all ((countAlgebra q.name).ofBlock q.body)) := by
    rw [Procedure.selfCalls_eq]
    exact (follows_ofBlock false q.body h).all
  rw [countSelfCalls, PathAlgebra.ofProcedure]
  cases hcount : (countAlgebra q.name).all ((countAlgebra q.name).ofBlock q.body) with
  | none =>
      rw [hcount] at hall
      exact absurd hall (q.selfCalls_nonempty r).ne_empty
  | some c =>
      rw [hcount] at hall
      exact hall

end Counting

/-- The least and the largest number of self-calls are exact over the paths that are counted. Over
the paths of an execution, if no step of a loop makes a self-call, the least number is exact and the
largest one a bound, which is exact if no return leaves a loop. -/
theorem countSelfCalls_extremes (q : Procedure) :
    (IsLeast (q.selfCalls .counted) (countSelfCalls q).min
        ∧ IsGreatest (q.selfCalls .counted) (countSelfCalls q).max)
      ∧ ((∀ c ∈ q.body.stepCalls, c.callee ≠ q.name) →
          IsLeast (q.selfCalls .execution) (countSelfCalls q).min
            ∧ (countSelfCalls q).max ∈ upperBounds (q.selfCalls .execution)
            ∧ (q.body.leavesLoop false = false →
                IsGreatest (q.selfCalls .execution) (countSelfCalls q).max)) := by
  constructor
  · have hcounted : (countSelfCalls q).Spans True (q.selfCalls .counted) :=
      spans_countSelfCalls q ⟨fun hr => absurd hr Bool.false_ne_true, fun _ => Or.inl rfl⟩
    exact ⟨hcounted.least, hcounted.attained trivial, hcounted.bound⟩
  · intro hsteps
    have hexecution : (countSelfCalls q).Spans (q.body.leavesLoop false = false)
        (q.selfCalls .execution) :=
      spans_countSelfCalls q ⟨fun _ => hsteps, fun hleaves => Or.inr hleaves⟩
    exact ⟨hexecution.least, hexecution.bound,
      fun hleaves => ⟨hexecution.attained hleaves, hexecution.bound⟩⟩

/-- The procedure `p` with a parameter `n` and the given statements. -/
def declaring (stmts : List Stmt) : Procedure where
  pos := ⟨1, 1⟩
  name := [112]
  display := [112]
  params := [{ name := [110] }]
  body := .mk ⟨1, 1⟩ true ⟨9, 1⟩ stmts

/-- The number one. -/
def oneNumber : Expr := .number ⟨2, 12⟩ (.finite false 1 1)

/-- The argument `n - 1`. -/
def lessOne : Expr := .binary ⟨3, 14⟩ .sub (.name ⟨3, 12⟩ [110]) oneNumber

/-- The call of `p` in an expression. -/
def again : Expr := .call ⟨2, 24⟩ [112] false [lessOne]

/-- The call of `p` as a statement. -/
def callAgain : Stmt := .call ⟨3, 5⟩ [112] true [lessOne]

/-- Calls itself in the condition of a loop, in its body, and after a return that may be taken. -/
def searching : Procedure :=
  declaring
    [.whileLoop ⟨2, 3⟩ {} again (.mk ⟨2, 14⟩ false ⟨4, 3⟩ [callAgain]),
      .conditional ⟨5, 3⟩ (.name ⟨5, 6⟩ [110]) (.mk ⟨5, 8⟩ false ⟨7, 3⟩ [.give ⟨6, 5⟩ none]) none,
      callAgain]

/-- A loop that calls `p` and returns in its body. -/
def leavingLoop : Stmt :=
  .forLoop ⟨2, 3⟩ [105] false oneNumber (.name ⟨2, 17⟩ [110]) none
    (.mk ⟨2, 19⟩ false ⟨5, 3⟩ [callAgain, .give ⟨4, 5⟩ none])

/-- Calls itself after a loop that calls it and returns. -/
def leaving : Procedure := declaring [leavingLoop, callAgain]

/-- A loop that calls `p` in its step. -/
def steppingLoop : Stmt :=
  .forLoop ⟨2, 3⟩ [105] false oneNumber (.name ⟨2, 17⟩ [110]) (some again)
    (.mk ⟨2, 33⟩ false ⟨4, 3⟩ [])

/-- Calls itself in the step of a loop. -/
def stepping : Procedure := declaring [steppingLoop]

/-- Every execution of `leaving` makes one self-call: in the loop, or after it. -/
theorem selfCalls_leaving : leaving.selfCalls .execution = {1} := by
  have hcall : callAgain.tallies .execution [112] false = {1} :=
    Stmt.tallies_simple rfl
  have hcall_returned : callAgain.tallies .execution [112] true = ∅ :=
    Stmt.tallies_simple_ne rfl (by decide)
  have hgive : (Stmt.give ⟨4, 5⟩ none).tallies .execution [112] true = {0} :=
    Stmt.tallies_simple rfl
  have hgive_falls : (Stmt.give ⟨4, 5⟩ none).tallies .execution [112] false = ∅ :=
    Stmt.tallies_simple_ne rfl (by decide)
  have hbody : Stmt.talliesOf .execution [112] [callAgain, .give ⟨4, 5⟩ none] true = {1} := by
    simp [Stmt.talliesOf_cons_returned, hcall, hcall_returned, hgive, hgive_falls]
  have hbody_falls : Stmt.talliesOf .execution [112] [callAgain, .give ⟨4, 5⟩ none] false = ∅ := by
    simp [Stmt.talliesOf_cons, hgive_falls]
  have hloop : leavingLoop.tallies .execution [112] true = {1} := by
    rw [Stmt.tallies_loop rfl, Block.stmts, hbody]
    exact Set.singleton_add_singleton
  have hloop_falls : leavingLoop.tallies .execution [112] false = {0} := by
    rw [Stmt.tallies_loop_falls rfl, Block.stmts, hbody, hbody_falls]
    change ({0} : Set ℕ) + ({0} ∪ (∅ ∪ {k ∈ ({1} : Set ℕ) | false = true})) = {0}
    simp
  rw [Procedure.selfCalls_eq]
  simp [leaving, declaring, Block.stmts, Stmt.talliesOf_cons, Stmt.talliesOf_cons_returned, hloop,
    hloop_falls, hcall, hcall_returned]

/-- Every execution of `stepping` makes one self-call: in the step. -/
theorem selfCalls_stepping : stepping.selfCalls .execution = {1} := by
  have hloop : steppingLoop.tallies .execution [112] true = ∅ := by
    rw [Stmt.tallies_loop rfl, Block.stmts, Stmt.talliesOf_nil_returned, Set.add_empty]
  have hloop_falls : steppingLoop.tallies .execution [112] false = {1} := by
    rw [Stmt.tallies_loop_falls rfl, Block.stmts, Stmt.talliesOf_nil, Stmt.talliesOf_nil_returned]
    change ({1} : Set ℕ) + ({0} ∪ ({0} ∪ {k ∈ (∅ : Set ℕ) | false = true})) = {1}
    simp
  rw [Procedure.selfCalls_eq]
  simp [stepping, declaring, Block.stmts, Stmt.talliesOf_cons, Stmt.talliesOf_cons_returned, hloop,
    hloop_falls]

/-- The count is exact for `searching`, and not where a return or a step says otherwise: two for
`leaving`, and none for `stepping`. -/
theorem countSelfCalls_searching :
    (IsLeast (searching.selfCalls .execution) 1 ∧ IsGreatest (searching.selfCalls .execution) 3)
      ∧ (IsGreatest (leaving.selfCalls .counted) 2 ∧ IsGreatest (leaving.selfCalls .execution) 1)
      ∧ IsLeast (stepping.selfCalls .counted) 0 ∧ IsLeast (stepping.selfCalls .execution) 1 := by
  obtain ⟨-, hsearching⟩ := countSelfCalls_extremes searching
  obtain ⟨hleast, -, hgreatest⟩ := hsearching fun c hc => by cases hc
  refine ⟨⟨hleast, hgreatest rfl⟩, ⟨(countSelfCalls_extremes leaving).1.2, ?_⟩,
    (countSelfCalls_extremes stepping).1.1, ?_⟩
  · rw [selfCalls_leaving]
    exact isGreatest_singleton
  · rw [selfCalls_stepping]
    exact isLeast_singleton

end Recurrence

end PseudoCost
