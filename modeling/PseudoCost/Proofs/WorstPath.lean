import PseudoCost.Proofs.DoubleDistance
import PseudoCost.Proofs.SolverAgreement

/-!
# The terms of the costliest path

The recursive terms of a procedure are collected by the same walk over its paths that counts its
self-calls, with other values and another choice between two paths. The two stay in step, whatever
changes of size the calls are given: of two paths the one with more calls is taken, and so the terms
stand for as many calls as the largest count (`relates_count`).

Terms are added one by one, each to a term with an equal change if there is one and else at the end
(`map_change_addTerm`). So every term stands for a call and no two have equal changes
(`keeps_distinct`). That changes count as equal is only approximate, but between doubles it does not
depend on the order of the two (`agrees_comm`).
-/

namespace PseudoCost.Recurrence

section Terms

variable {R : Type}

/-! ## As many calls as are counted -/

theorem totalCalls_map_one (change : Call → SizeChange R) (calls : List Call) :
    totalCalls (calls.map fun c => ⟨change c, 1⟩) = calls.length := by
  induction calls with
  | nil => rfl
  | cons c cs ih =>
      rw [List.map_cons, totalCalls_cons, ih, List.length_cons]
      push_cast
      exact Int.add_comm _ _

variable [Scalar R]

theorem totalCalls_addTerm (t : Term R) : ∀ terms : List (Term R),
    totalCalls (addTerm t terms) = totalCalls terms + t.multiplicity
  | [] => by
      rw [addTerm, totalCalls_cons]
      exact Int.add_comm _ _
  | u :: us => by
      rw [addTerm]
      split
      · rw [totalCalls_cons, totalCalls_cons]
        exact Int.add_right_comm _ _ _
      · rw [totalCalls_cons, totalCalls_cons, totalCalls_addTerm t us, Int.add_assoc]

theorem totalCalls_addTerms (into terms : List (Term R)) :
    totalCalls (addTerms into terms) = totalCalls into + totalCalls terms := by
  induction terms generalizing into with
  | nil => exact (Int.add_zero _).symm
  | cons t ts ih =>
      rw [totalCalls_cons, ← Int.add_assoc, ← totalCalls_addTerm]
      exact ih _

/-- The terms stand for as many calls as the largest number that is counted. -/
theorem relates_count (self : Name) (change : Call → SizeChange R) :
    (termsBy self change).Relates (countAlgebra self) fun terms c => totalCalls terms = c.max where
  empty := rfl
  ofCalls calls := by
    show totalCalls (addTerms [] _) = ((calls.countP (·.callee == self) : ℕ) : ℤ)
    rw [totalCalls_addTerms, totalCalls_map_one, List.countP_eq_length_filter]
    exact Int.zero_add _
  concat {a b x y} ha hb := by
    show totalCalls (addTerms a b) = ((x.max + y.max : ℕ) : ℤ)
    rw [totalCalls_addTerms, ha, hb]
    push_cast
    rfl
  join {a b x y} ha hb := by
    show totalCalls (if totalCalls a < totalCalls b then b else a) = ((max x.max y.max : ℕ) : ℤ)
    split <;> omega

/-! ## No two equal changes -/

/-- No two terms have changes that count as equal, in either order. -/
def Distinct (terms : List (Term R)) : Prop :=
  terms.Pairwise fun t u => t.change.agrees u.change = false ∧ u.change.agrees t.change = false

theorem agrees_comm (hnear : ∀ a b : R, Scalar.near a b = Scalar.near b a) (c d : SizeChange R) :
    c.agrees d = d.agrees c := by
  obtain ⟨kind, a⟩ := c
  obtain ⟨kind', b⟩ := d
  by_cases h : kind = kind'
  · subst h
    cases kind <;> simp [SizeChange.agrees, hnear a b]
  · show ((kind == kind') && _) = ((kind' == kind) && _)
    rw [beq_false_of_ne h, beq_false_of_ne (Ne.symm h), Bool.false_and, Bool.false_and]

/-- A term that is added is taken into one with an equal change, or stands at the end. -/
theorem map_change_addTerm (t : Term R) : ∀ terms : List (Term R),
    (addTerm t terms).map Term.change = terms.map Term.change
      ∨ addTerm t terms = terms ++ [t] ∧ ∀ u ∈ terms, u.change.agrees t.change = false
  | [] => Or.inr ⟨rfl, by simp⟩
  | u :: us => by
      rw [addTerm]
      split
      · exact Or.inl rfl
      · rename_i hu
        rcases map_change_addTerm t us with hsame | ⟨hend, hother⟩
        · exact Or.inl (by rw [List.map_cons, List.map_cons, hsame])
        · refine Or.inr ⟨by rw [hend, List.cons_append], ?_⟩
          exact List.forall_mem_cons.mpr ⟨Bool.eq_false_iff.mpr hu, hother⟩

theorem distinct_iff {terms : List (Term R)} :
    Distinct terms ↔ (terms.map Term.change).Pairwise fun c d =>
      c.agrees d = false ∧ d.agrees c = false := by
  rw [Distinct, List.pairwise_map]

theorem Distinct.addTerm (hnear : ∀ a b : R, Scalar.near a b = Scalar.near b a) (t : Term R)
    {terms : List (Term R)} (h : Distinct terms) : Distinct (addTerm t terms) := by
  rcases map_change_addTerm t terms with hsame | ⟨hend, hother⟩
  · rw [distinct_iff, hsame]
    exact distinct_iff.mp h
  · rw [hend]
    refine List.pairwise_append.mpr ⟨h, List.pairwise_singleton _ _, ?_⟩
    intro u hu v hv
    obtain rfl := List.mem_singleton.mp hv
    exact ⟨hother u hu, (agrees_comm hnear _ _).trans (hother u hu)⟩

theorem Distinct.addTerms (hnear : ∀ a b : R, Scalar.near a b = Scalar.near b a)
    {into : List (Term R)} (h : Distinct into) (terms : List (Term R)) :
    Distinct (addTerms into terms) :=
  List.foldlRecOn terms _ h fun _ hacc t _ => hacc.addTerm hnear t

theorem keeps_distinct (hnear : ∀ a b : R, Scalar.near a b = Scalar.near b a) (self : Name)
    (change : Call → SizeChange R) : (termsBy self change).Keeps Distinct where
  empty := List.Pairwise.nil
  ofCalls _ := Distinct.addTerms hnear List.Pairwise.nil _
  concat ha _ := ha.addTerms hnear _
  join {a b} ha hb := by
    show Distinct (if totalCalls a < totalCalls b then b else a)
    split
    · exact hb
    · exact ha

/-! ## Accounting for the calls -/

/-- Terms account for the self-calls of a procedure: they stand for as many calls as the path with
the most self-calls makes, each for at least one, and no two could be taken together. -/
structure Accounts (q : Procedure) (terms : List (Term R)) : Prop where
  total : totalCalls terms = (countSelfCalls q).max
  positive : ∀ t ∈ terms, 1 ≤ t.multiplicity
  distinct : Distinct terms

theorem accounts_termsBy (hnear : ∀ a b : R, Scalar.near a b = Scalar.near b a) (q : Procedure)
    (change : Call → SizeChange R) : Accounts q ((termsBy q.name change).ofProcedure q) where
  total := (relates_count q.name change).ofProcedure q
  positive := (keeps_positive q.name change).ofProcedure q
  distinct := (keeps_distinct hnear q.name change).ofProcedure q

end Terms

/-- The terms of every procedure account for its self-calls, and would do so if the calls were given
other changes of size. -/
theorem worstTerms_accounts (q : Procedure) :
    Accounts q (worstTerms q : List (Term Double))
      ∧ ∀ change : Call → SizeChange Double,
          Accounts q ((termsBy q.name change).ofProcedure q) := by
  have h : ∀ change : Call → SizeChange Double,
      Accounts q ((termsBy q.name change).ofProcedure q) := fun change =>
    accounts_termsBy Double.near_comm q change
  refine ⟨?_, h⟩
  rw [worstTerms, termAlgebra_eq]
  exact h _

end PseudoCost.Recurrence
