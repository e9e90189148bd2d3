import PseudoCost.Proofs.Assumptions
import PseudoCost.Proofs.CaseOrder
import PseudoCost.Report

/-!
# A report covers the structure of the program

What the structure of a program shows and what a recurrence says may disagree, and whichever of
the two a report follows, it does not narrow what the structure showed (`resolve_covers`): the worst
case is at least and the best case at most the structural one, ordered cases stay ordered, and
everything said about the structure is said in the report.

A report is concluded in one of four ways, and `Concludes` says of each when it is taken and which
cases and remarks it gives. That the bounds only widen then rests on the larger and the smaller of
two growths being above and below both of them. With a tolerance this needs no growths that are far
apart: only the comparison itself is turned round, and nothing is chained.
-/

namespace PseudoCost

open Tolerant Recurrence

variable {ε : ℝ}

/-! ## The larger growth is above both -/

namespace Growth

variable (hε : 0 ≤ ε) (g h : Growth (Tolerant ε))
include hε

theorem isLE_compare_max_left : (g.compare (g.max h)).isLE = true := by
  rw [max]
  split
  · rw [compare_self hε]
    rfl
  · rename_i hge
    cases hgh : g.compare h with
    | lt => rfl
    | eq | gt => exact absurd (by rw [hgh]; rfl) hge

theorem isLE_compare_max_right : (h.compare (g.max h)).isLE = true := by
  rw [max]
  split
  · rename_i hge
    rw [compare_swap hε g h, Ordering.isLE_swap, hge]
  · rw [compare_self hε]
    rfl

theorem isLE_compare_min_left : ((g.min h).compare g).isLE = true := by
  rw [min]
  split
  · rw [compare_self hε]
    rfl
  · rename_i hle
    rw [compare_swap hε g h, Ordering.isLE_swap]
    cases hgh : g.compare h with
    | gt => rfl
    | lt | eq => exact absurd (by rw [hgh]; rfl) hle

theorem isLE_compare_min_right : ((g.min h).compare h).isLE = true := by
  rw [min]
  split
  · assumption
  · rw [compare_self hε]
    rfl

end Growth

theorem ordered_widened (hε : 0 ≤ ε) (bound : Growth (Tolerant ε)) (c : Cases (Tolerant ε)) :
    (Cases.widened bound c).Ordered :=
  ⟨Growth.isLE_compare_min_right hε _ _, Growth.isLE_compare_max_right hε _ _⟩

/-! ## Remarks that are handed on -/

namespace Remark

variable {remarks : List Remark} {a : Remark}

theorem mem_add_of_mem (h : a ∈ remarks) (r : Remark) : a ∈ add remarks r := by
  rw [add]
  split
  · exact h
  · exact List.mem_append_left _ h

theorem mem_addAll_of_mem (h : a ∈ remarks) (more : List Remark) : a ∈ addAll remarks more :=
  List.foldlRecOn more _ h fun _ hacc r _ => mem_add_of_mem hacc r

/-- A remark that is left out says what another one says already. -/
theorem said_add (remarks : List Remark) (r : Remark) :
    ∃ b ∈ add remarks r, b.kind = r.kind ∧ b.text = r.text := by
  rw [add]
  split
  · rename_i hany
    obtain ⟨b, hb, hsame⟩ := List.any_eq_true.mp hany
    exact ⟨b, hb, by simpa [equivalent] using hsame⟩
  · exact ⟨r, List.mem_append_right _ (List.mem_singleton_self r), rfl, rfl⟩

theorem said_addAll {more : List Remark} (h : a ∈ more) (remarks : List Remark) :
    ∃ b ∈ addAll remarks more, b.kind = a.kind ∧ b.text = a.text := by
  induction more generalizing remarks with
  | nil => cases h
  | cons r more ih =>
      rcases List.mem_cons.mp h with rfl | h
      · obtain ⟨b, hb, hsame⟩ := said_add remarks a
        exact ⟨b, mem_addAll_of_mem hb more, hsame⟩
      · exact ih h (add remarks r)

end Remark

/-- Whether a remark of the kind leaves the structure of the program in charge. -/
def RemarkKind.overrides : RemarkKind → Bool
  | .callInsideLoop | .logarithmicLoop | .unresolvedProgress => true
  | _ => false

theorem Verdict.overrides_iff {R : Type} [Scalar R] {v : Verdict R} :
    v.overrides = true ↔ ∃ a ∈ v.remarks, a.kind.overrides = true := by
  simp only [Verdict.overrides, Verdict.has, Remark.anyOf, Bool.or_eq_true, List.any_eq_true,
    beq_iff_eq]
  constructor
  · rintro ((⟨a, ha, hk⟩ | ⟨a, ha, hk⟩) | ⟨a, ha, hk⟩) <;> exact ⟨a, ha, by rw [hk]; rfl⟩
  · rintro ⟨a, ha, hk⟩
    cases hkind : a.kind with
    | callInsideLoop => exact Or.inl (Or.inl ⟨a, ha, hkind⟩)
    | logarithmicLoop => exact Or.inl (Or.inr ⟨a, ha, hkind⟩)
    | unresolvedProgress => exact Or.inr ⟨a, ha, hkind⟩
    | divideAndConquer | earlyExit | recursivePattern | solverFailed =>
        rw [hkind] at hk
        cases hk

namespace Report

/-! ## How a report is concluded -/

section Concluding

variable {R : Type} [Scalar R]

/-- The ways to conclude a report, each with when it is taken and the cases and remarks it gives. -/
inductive Concludes (v : Verdict R) (outcome : Option (Outcome R)) (programLevel : Bool) :
    Cases R → List Remark → Prop
  | direct (h : outcome = none ∨ v.overrides = true) :
    Concludes v outcome programLevel v.cases (Remark.addAll [] v.remarks)
  | part (s : Solution R) (hs : outcome = some (.solved s)) (h : programLevel = false) :
    Concludes v outcome programLevel v.cases
      (Remark.addAll (Remark.addAll [] v.remarks) s.remarks)
  | failure (reason : Text) (steps : List Step) (hs : outcome = some (.unsolvable reason steps))
    (h : v.overrides = false) :
    Concludes v outcome programLevel v.cases
      (Remark.addAll [] v.remarks ++ [⟨.solverFailed, reason, 0⟩])
  | solution (s : Solution R) (hs : outcome = some (.solved s)) (hlevel : programLevel = true)
    (h : v.overrides = false) :
    Concludes v outcome programLevel (Cases.widened s.bound v.cases)
      (Remark.addAll (Remark.addAll [] v.remarks) s.remarks)

theorem concludes_resolve (v : Verdict R) (relation : Option (Relation R))
    (outcome : Option (Outcome R)) (tree : Option (CallTree R)) (programLevel : Bool) :
    Concludes v outcome programLevel (resolve v relation outcome tree programLevel).cases
      (resolve v relation outcome tree programLevel).remarks := by
  rw [resolve]
  match outcome, h : v.overrides with
  | none, _ => exact .direct (Or.inl rfl)
  | some (.unsolvable reason steps), true =>
      simp only [conclude, h, if_true]
      exact .direct (Or.inr h)
  | some (.unsolvable reason steps), false =>
      simp only [conclude, h]
      exact .failure reason steps rfl h
  | some (.solved s), overridden =>
      cases programLevel with
      | false => exact .part s rfl rfl
      | true =>
        cases overridden with
        | true =>
            simp only [conclude, h]
            exact .direct (Or.inr h)
        | false =>
            simp only [conclude, h]
            exact .solution s rfl rfl h

end Concluding

/-! ## What every conclusion keeps -/

namespace Concludes

variable {v : Verdict (Tolerant ε)} {outcome : Option (Outcome (Tolerant ε))} {programLevel : Bool}
  {c : Cases (Tolerant ε)} {remarks : List Remark}

theorem widens (hε : 0 ≤ ε) (h : Concludes v outcome programLevel c remarks) :
    (c.best.compare v.cases.best).isLE = true ∧ (v.cases.worst.compare c.worst).isLE = true := by
  have hself (g : Growth (Tolerant ε)) : (g.compare g).isLE = true := by
    rw [Growth.compare_self hε]
    rfl
  cases h with
  | direct | part | failure => exact ⟨hself _, hself _⟩
  | solution s =>
      exact ⟨Growth.isLE_compare_min_left hε _ _, Growth.isLE_compare_max_left hε _ _⟩

theorem ordered (hε : 0 ≤ ε) (h : Concludes v outcome programLevel c remarks)
    (hv : v.cases.Ordered) : c.Ordered := by
  cases h with
  | direct | part | failure => exact hv
  | solution s => exact ordered_widened hε _ _

theorem cases_eq (h : Concludes v outcome programLevel c remarks)
    (hkeep : v.overrides = true ∨ (∀ s, outcome ≠ some (.solved s)) ∨ programLevel = false) :
    c = v.cases := by
  cases h with
  | direct | part | failure => rfl
  | solution s hs hlevel hv =>
      rcases hkeep with h | h | h
      · rw [hv] at h
        cases h
      · exact absurd hs (h s)
      · rw [hlevel] at h
        cases h

theorem cases_solved {s : Solution (Tolerant ε)}
    (h : Concludes v (some (.solved s)) true c remarks) (hv : v.overrides = false) :
    c.average = s.bound ∧ (c.best = v.cases.best ∨ c.best = s.bound)
      ∧ (c.worst = v.cases.worst ∨ c.worst = s.bound) := by
  cases h with
  | direct h => simp [hv] at h
  | part _ _ h => cases h
  | failure _ _ hs => cases hs
  | solution _ hs =>
      cases hs
      exact ⟨rfl, Growth.min_of_both (P := fun g => g = v.cases.best ∨ g = s.bound) (.inl rfl)
        (.inr rfl), Growth.max_of_both (P := fun g => g = v.cases.worst ∨ g = s.bound) (.inl rfl)
        (.inr rfl)⟩

theorem said (h : Concludes v outcome programLevel c remarks) {a : Remark} (ha : a ∈ v.remarks) :
    ∃ b ∈ remarks, b.kind = a.kind ∧ b.text = a.text := by
  obtain ⟨b, hb, hsame⟩ := Remark.said_addAll ha []
  refine ⟨b, ?_, hsame⟩
  cases h with
  | direct => exact hb
  | part s | solution s => exact Remark.mem_addAll_of_mem hb _
  | failure reason steps => exact List.mem_append_left _ hb

theorem failed_iff (h : Concludes v outcome programLevel c remarks)
    (hv : v.has .solverFailed = false)
    (hs : ∀ s, outcome = some (.solved s) → Remark.anyOf s.remarks .solverFailed = false) :
    Remark.anyOf remarks .solverFailed = true
      ↔ (∃ reason steps, outcome = some (.unsolvable reason steps)) ∧ v.overrides = false := by
  have hown : Remark.anyOf (Remark.addAll [] v.remarks) .solverFailed = false := by
    rw [Remark.anyOf_addAll]
    exact hv
  cases h with
  | direct h =>
      refine iff_of_false (by rw [hown]; exact Bool.false_ne_true) ?_
      rintro ⟨⟨reason, steps, hout⟩, hnot⟩
      rcases h with h | h
      · rw [h] at hout
        cases hout
      · rw [h] at hnot
        cases hnot
  | part s hout | solution s hout =>
      refine iff_of_false ?_ ?_
      · rw [Remark.anyOf_addAll, hown, hs s hout]
        exact Bool.false_ne_true
      · rintro ⟨⟨reason, steps, hnot⟩, -⟩
        rw [hout] at hnot
        cases hnot
  | failure reason steps hout hnot =>
      refine iff_of_true ?_ ⟨⟨reason, steps, hout⟩, hnot⟩
      exact List.any_eq_true.mpr ⟨_, List.mem_append_right _ (List.mem_singleton_self _), rfl⟩

end Concludes

/-! ## What every report covers -/

/-- What a report owes to the structure of the program, whatever a recurrence says. -/
structure Covers (r : Report (Tolerant ε)) (v : Verdict (Tolerant ε))
    (outcome : Option (Outcome (Tolerant ε))) (programLevel : Bool) : Prop where
  /-- The best case is not above the structural one. -/
  best : (r.cases.best.compare v.cases.best).isLE = true
  /-- The worst case is not below the structural one. -/
  worst : (v.cases.worst.compare r.cases.worst).isLE = true
  ordered : v.cases.Ordered → r.cases.Ordered
  /-- The structure decides if a remark says so, without a solution, and for a part of a program. -/
  kept : (∃ a ∈ v.remarks, a.kind.overrides = true) ∨ (∀ s, outcome ≠ some (.solved s))
    ∨ programLevel = false → r.cases = v.cases
  /-- Otherwise the bound is the average, and each other case is the structural one or the bound. -/
  solved : ∀ s, outcome = some (.solved s) → programLevel = true →
    (∀ a ∈ v.remarks, a.kind.overrides = false) → r.cases.average = s.bound
      ∧ (r.cases.best = v.cases.best ∨ r.cases.best = s.bound)
      ∧ (r.cases.worst = v.cases.worst ∨ r.cases.worst = s.bound)
  said : ∀ a ∈ v.remarks, ∃ b ∈ r.remarks, b.kind = a.kind ∧ b.text = a.text
  failed : v.has .solverFailed = false →
    (∀ s, outcome = some (.solved s) → Remark.anyOf s.remarks .solverFailed = false) →
    (r.has .solverFailed = true ↔ (∃ reason steps, outcome = some (.unsolvable reason steps))
      ∧ ∀ a ∈ v.remarks, a.kind.overrides = false)

/-- **A report covers the structure of the program**, whatever the verdict on it, the relation, the
outcome and the tree are, and whether or not the recurrence is that of the whole program. -/
theorem resolve_covers (hε : 0 ≤ ε) (v : Verdict (Tolerant ε))
    (relation : Option (Relation (Tolerant ε))) (outcome : Option (Outcome (Tolerant ε)))
    (tree : Option (CallTree (Tolerant ε))) (programLevel : Bool) :
    (resolve v relation outcome tree programLevel).Covers v outcome programLevel := by
  have h := concludes_resolve v relation outcome tree programLevel
  have hnot : v.overrides = false ↔ ∀ a ∈ v.remarks, a.kind.overrides = false := by
    rw [← Bool.not_eq_true, Verdict.overrides_iff]
    simp
  exact {
    best := (h.widens hε).1
    worst := (h.widens hε).2
    ordered := h.ordered hε
    kept := fun hkeep => h.cases_eq (hkeep.imp_left Verdict.overrides_iff.mpr)
    solved := fun s hs hlevel hv => by
      subst hs hlevel
      exact h.cases_solved (hnot.mpr hv)
    said := fun a => h.said
    failed := fun hv hs => by
      rw [← hnot]
      exact h.failed_iff hv hs }

/-- A search with the cases `1`, `log n` and `log n`, remarked as divide and conquer. -/
noncomputable def searching (ε : ℝ) : Verdict (Tolerant ε) where
  cases := ⟨.constant, .logarithmic, .logarithmic⟩
  remarks := [⟨.divideAndConquer, "1 subproblem of size n/2", 0⟩]

/-- A solution that disagrees with the structure of the search. -/
noncomputable def linearSolution (ε : ℝ) : Solution (Tolerant ε) where
  bound := .linear
  method := "Master theorem"
  justification := "case 3"

theorem resolve_covers_searching :
    let v := searching (1 / 10 ^ 9)
    let s := linearSolution (1 / 10 ^ 9)
    (0 : ℝ) ≤ 1 / 10 ^ 9
      ∧ (resolve v none (some (.solved s)) none true).Covers v (some (.solved s)) true
      ∧ (resolve v none (some (.solved s)) none true).cases.average = .linear
      ∧ (resolve v none (some (.unsolvable [] [])) none true).has .solverFailed = true := by
  intro v s
  have hε : (0 : ℝ) ≤ 1 / 10 ^ 9 := by norm_num
  have hremarks : ∀ a ∈ v.remarks, a.kind.overrides = false := by
    simp [v, searching, RemarkKind.overrides]
  have hsolved := resolve_covers hε v none (some (.solved s)) none true
  have hfailed := resolve_covers hε v none (some (.unsolvable [] [])) none true
  refine ⟨hε, hsolved, (hsolved.solved s rfl rfl hremarks).1, ?_⟩
  exact (hfailed.failed rfl (fun s hs => by cases hs)).mpr ⟨⟨[], [], rfl⟩, hremarks⟩

end Report

end PseudoCost
