import PseudoCost.Recurrence.Derivation
import PseudoCost.Recurrence.Solution
import PseudoCost.Proofs.CalleeBound
import PseudoCost.Proofs.PathValues

/-!
# The solver agrees with the patterns of recursion

A recursive procedure is bounded twice: the structural analysis reads a pattern off its terms, and
the solver chooses a method for its relation. The two look at the same terms with different tests.
Where the terms are all subtractions, one division or all splits, they agree: the solver has an
answer, and it is the bound of the pattern (`solve_eq_bound`), which is the worst case of the
pattern, or the average one for a split (`bound_key_eq`).

What makes the tests agree is that every term of the costliest path stands for at least one call
(`worstTerms_positive`). Without that a total of one would not mean a single term, nor a total of
two terms with two calls one call each. The fact is an instance of a closure principle for path
algebras: what all ways of combining paths preserve holds of every procedure (`Keeps.ofProcedure`).
-/

namespace PseudoCost

namespace Recurrence

/-! ## Every term stands for a call -/

section Terms

variable {R : Type}

/-- Every term stands for at least one call. -/
def Positive (terms : List (Term R)) : Prop := ∀ t ∈ terms, 1 ≤ t.multiplicity

theorem Positive.nil : Positive ([] : List (Term R)) := fun _ ht => absurd ht List.not_mem_nil

theorem positive_cons {t : Term R} {terms : List (Term R)} :
    Positive (t :: terms) ↔ 1 ≤ t.multiplicity ∧ Positive terms := by
  simp [Positive]

theorem totalCalls_cons (t : Term R) (terms : List (Term R)) :
    totalCalls (t :: terms) = t.multiplicity + totalCalls terms := rfl

theorem Positive.length_le : ∀ {terms : List (Term R)}, Positive terms →
    (terms.length : Int) ≤ totalCalls terms
  | [], _ => le_refl 0
  | t :: terms, h => by
      obtain ⟨ht, hterms⟩ := positive_cons.mp h
      have hrest := hterms.length_le
      rw [totalCalls_cons, List.length_cons]
      push_cast
      omega

theorem Positive.totalCalls_ne_zero {terms : List (Term R)} (h : Positive terms)
    (hnil : terms ≠ []) : totalCalls terms ≠ 0 := by
  have hlength := h.length_le
  have hpos : 0 < terms.length := List.length_pos_iff.mpr hnil
  omega

/-- The calls are counted alike with and without a sign. -/
theorem Positive.foldr_toNat : ∀ {terms : List (Term R)}, Positive terms →
    ((terms.foldr (fun t calls => t.multiplicity.toNat + calls) 0 : ℕ) : Int) = totalCalls terms
  | [], _ => rfl
  | t :: terms, h => by
      obtain ⟨ht, hterms⟩ := positive_cons.mp h
      rw [totalCalls_cons, List.foldr_cons, ← hterms.foldr_toNat]
      omega

theorem allOf_iff {kind : ChangeKind} {terms : List (Term R)} :
    allOf kind terms = true ↔ terms ≠ [] ∧ ∀ t ∈ terms, t.change.kind = kind := by
  simp [allOf]

theorem anyOf_of_allOf {kind other : ChangeKind} {terms : List (Term R)}
    (h : allOf kind terms = true) : anyOf other terms = (kind == other) := by
  obtain ⟨hnil, hkind⟩ := allOf_iff.mp h
  obtain ⟨t, ht⟩ := List.exists_mem_of_ne_nil terms hnil
  rw [Bool.eq_iff_iff, anyOf, List.any_eq_true, beq_iff_eq]
  constructor
  · rintro ⟨u, hu, hk⟩
    rw [← hkind u hu]
    exact beq_iff_eq.mp hk
  · rintro rfl
    exact ⟨t, ht, beq_iff_eq.mpr (hkind t ht)⟩

/-- Terms of one kind are of no other. -/
theorem allOf_of_allOf {kind other : ChangeKind} {terms : List (Term R)}
    (h : allOf kind terms = true) : allOf other terms = (kind == other) := by
  obtain ⟨hnil, hkind⟩ := allOf_iff.mp h
  obtain ⟨t, ht⟩ := List.exists_mem_of_ne_nil terms hnil
  rw [Bool.eq_iff_iff, allOf_iff, beq_iff_eq]
  constructor
  · rintro ⟨-, hother⟩
    rw [← hkind t ht, hother t ht]
  · rintro rfl
    exact ⟨hnil, hkind⟩

variable [Scalar R]

theorem Positive.addTerm {t : Term R} (ht : 1 ≤ t.multiplicity) :
    ∀ {terms : List (Term R)}, Positive terms → Positive (addTerm t terms)
  | [], _ => positive_cons.mpr ⟨ht, Positive.nil⟩
  | u :: us, h => by
      obtain ⟨hu, hus⟩ := positive_cons.mp h
      rw [Recurrence.addTerm]
      split
      · refine positive_cons.mpr ⟨?_, hus⟩
        show 1 ≤ u.multiplicity + t.multiplicity
        omega
      · exact positive_cons.mpr ⟨hu, Positive.addTerm ht hus⟩

theorem Positive.addTerms {into terms : List (Term R)} (hinto : Positive into)
    (hterms : Positive terms) : Positive (addTerms into terms) := by
  refine List.foldlRecOn terms _ hinto fun acc hacc t ht => ?_
  exact Positive.addTerm (hterms t ht) hacc

/-- Keeps the terms of the calls to a procedure, each with the change that a function gives. -/
def termsBy (self : Name) (change : Call → SizeChange R) : PathAlgebra (List (Term R)) where
  empty := []
  ofCalls calls := addTerms [] ((calls.filter (·.callee == self)).map fun c => ⟨change c, 1⟩)
  concat := addTerms
  join a b := if totalCalls a < totalCalls b then b else a
  isBusy a := 0 < totalCalls a

/-- The changes that are kept are those read off the arguments. -/
theorem termAlgebra_eq (p : Procedure) (facts : SizeFacts) :
    (termAlgebra p facts : PathAlgebra (List (Term R)))
      = termsBy p.name (SizeChange.ofCall p facts) := rfl

theorem keeps_positive (self : Name) (change : Call → SizeChange R) :
    (termsBy self change).Keeps Positive where
  empty := Positive.nil
  ofCalls calls := by
    refine Positive.addTerms Positive.nil fun t ht => ?_
    obtain ⟨c, -, rfl⟩ := List.mem_map.mp ht
    exact le_refl 1
  concat ha hb := Positive.addTerms ha hb
  join {a b} ha hb := by
    show Positive (if totalCalls a < totalCalls b then b else a)
    split
    · exact hb
    · exact ha

theorem worstTerms_positive (p : Procedure) : Positive (worstTerms p : List (Term R)) := by
  rw [worstTerms, termAlgebra_eq]
  exact (keeps_positive p.name _).ofProcedure p

end Terms

/-! ## The tests for the Fibonacci recursion -/

section Fibonacci

open Tolerant

variable {ε : ℝ} {terms : List (Term (Tolerant ε))}

theorem sortedShifts_pair {a b : Tolerant ε} (h : amounts terms = [a, b]) :
    sortedShifts terms = [Scalar.min a b, Scalar.max a b] := by
  have hsort : sortedShifts terms = if a ≤ b then [a, b] else [b, a] := by
    rw [sortedShifts, h]
    simp [List.mergeSort, List.MergeSort.Internal.splitInTwo, List.merge]
  rw [hsort, Scalar.min, Scalar.max]
  simp only [le_iff, lt_iff]
  rcases lt_trichotomy a.val b.val with hab | hab | hab
  · rw [if_pos hab.le, if_neg (not_lt.mpr hab.le), if_pos hab]
  · rw [if_pos hab.le, if_neg (by simp [hab]), if_neg (by simp [hab]), Tolerant.ext hab]
  · rw [if_neg (not_le.mpr hab), if_pos hab, if_neg (not_lt.mpr hab.le)]

/-- On two or more terms the two tests for the Fibonacci recursion agree. -/
theorem isFibonacci_eq (hpos : Positive terms) (htwo : 2 ≤ terms.length) :
    Verdict.isFibonacci (totalCalls terms) terms = isFibonacci terms := by
  have hcount := hpos.foldr_toNat
  match terms with
  | [t, u] =>
      have ht : 1 ≤ t.multiplicity := hpos t (by simp)
      have hu : 1 ≤ u.multiplicity := hpos u (by simp)
      have htotal : totalCalls [t, u] = t.multiplicity + u.multiplicity := by
        simp [totalCalls]
      rw [Verdict.isFibonacci, isFibonacci, Bool.and_assoc]
      by_cases h : totalCalls [t, u] = 2
      · have hamounts : amounts [t, u] = [t.change.amount, u.change.amount] := by
          have ht1 : t.multiplicity = 1 := by omega
          have hu1 : u.multiplicity = 1 := by omega
          simp [amounts, ht1, hu1]
        rw [sortedShifts_pair hamounts, isOneTwo, beq_iff_eq.mpr h,
          beq_iff_eq.mpr (show _ = 2 by omega)]
      · have hnat :
            ([t, u].foldr (fun t calls => t.multiplicity.toNat + calls) 0 == 2) = false := by
          rw [Bool.eq_false_iff, Ne, beq_iff_eq]
          omega
        rw [hnat, show (totalCalls [t, u] == 2) = false from by simpa using h]
        rfl
  | t :: u :: v :: rest =>
      have hlength := hpos.length_le
      simp only [List.length_cons] at hlength
      rw [Verdict.isFibonacci.eq_2 _ _ (by simp), isFibonacci]
      rw [show (List.foldr _ 0 (t :: u :: v :: rest) == 2) = false by
        rw [Bool.eq_false_iff, Ne, beq_iff_eq]; push_cast at hlength; omega]
      rfl

/-- A single term is never taken for the Fibonacci recursion: its amount is not both one and two. -/
theorem isFibonacci_single (hε : ε ≤ 1 / 2) (t : Term (Tolerant ε)) :
    isFibonacci [t] = false := by
  rw [Bool.eq_false_iff]
  intro h
  rw [isFibonacci, Bool.and_eq_true, beq_iff_eq] at h
  obtain ⟨hcount, hshifts⟩ := h
  have hm : t.multiplicity.toNat = 2 := by simpa using hcount
  have hamounts : amounts [t] = [t.change.amount, t.change.amount] := by
    simp [amounts, hm, List.replicate]
  have hself : (Scalar.min t.change.amount t.change.amount) = t.change.amount := by
    rw [Scalar.min]
    split <;> rfl
  have hself' : (Scalar.max t.change.amount t.change.amount) = t.change.amount := by
    rw [Scalar.max]
    split <;> rfl
  rw [sortedShifts_pair hamounts, hself, hself', isOneTwo] at hshifts
  simp only [Scalar.near, Bool.and_eq_true, decide_eq_true_eq, lt_iff, val_abs, val_sub, val_one,
    val_two, val_epsilon] at hshifts
  have hone := abs_lt.mp hshifts.1
  have htwo := abs_lt.mp hshifts.2
  linarith [hone.2, htwo.1]

end Fibonacci

end Recurrence

/-! ## The bound of a pattern -/

namespace Pattern

open Recurrence Tolerant

variable {R : Type} [Scalar R]

/-- The tight bound of a recursion with a pattern and the given cost outside its calls. -/
def bound (f : Growth R) : Pattern R → Growth R
  | .linear => Growth.linear.times f
  | .splitting calls => masterBound (Scalar.ofInt calls) Scalar.two f
  | .dividing calls divisor => masterBound (Scalar.ofInt calls) divisor f
  | .exponential base => Growth.exponential base

variable {ε : ℝ}

/-- The bound of a pattern depends on a polynomial cost only through what growths are compared
by. -/
theorem bound_congr (pattern : Pattern (Tolerant ε)) {f g : Growth (Tolerant ε)}
    (hf : f.isExponential = false) (hg : g.isExponential = false) (h : f.key = g.key) :
    pattern.bound f = pattern.bound g := by
  simp only [Growth.key, EmbeddingLike.apply_eq_iff_eq, Prod.mk.injEq] at h
  obtain ⟨-, hdegree, hlog⟩ := h
  replace hdegree : f.degree = g.degree := Tolerant.ext hdegree
  cases pattern with
  | linear =>
      cases hlinear : (Growth.linear : Growth (Tolerant ε)).isExponential <;>
        simp [bound, Growth.times, hlinear, hf, hg, hdegree, hlog]
  | splitting calls => simp [bound, masterBound, MasterCase.bound, hdegree, hlog]
  | dividing calls divisor => simp [bound, masterBound, MasterCase.bound, hdegree, hlog]
  | exponential base => rfl

/-- The case that the bound of a pattern is meant for: a split is bounded on average. -/
def tightCase : Pattern R → Cases R → Growth R
  | .splitting _, c => c.average
  | _, c => c.worst

theorem bound_key_eq (hε : 0 ≤ ε) (p : Procedure) (own : Cases (Tolerant ε)) :
    ∀ pattern : Pattern (Tolerant ε),
      (pattern.bound own.worst).key = (pattern.tightCase (pattern.cases p own)).key
  | .linear => Growth.key_linear_times hε
  | .splitting _ | .dividing .. | .exponential _ => rfl

end Pattern

namespace Recurrence

open Tolerant

/-! ## The pattern of uniform terms -/

section Uniform

variable {R : Type}

/-- The terms are all subtractions, one division, or all splits. -/
def Uniform (terms : List (Term R)) : Prop :=
  allOf .subtract terms = true ∨ (∃ t, terms = [t] ∧ t.change.kind = .divide)
    ∨ allOf .split terms = true

theorem allOf_single {t : Term R} {kind : ChangeKind} (h : t.change.kind = kind) :
    allOf kind [t] = true := by
  simp [allOf, h]

theorem Uniform.filter_shrinks {terms : List (Term R)} (h : Uniform terms) :
    terms.filter (·.change.shrinks) = terms := by
  refine List.filter_eq_self.mpr fun t ht => ?_
  rw [SizeChange.shrinks]
  rcases h with hsub | ⟨u, rfl, hkind⟩ | hsplit
  · rw [(allOf_iff.mp hsub).2 t ht]
  · rw [List.mem_singleton.mp ht, hkind]
  · rw [(allOf_iff.mp hsplit).2 t ht]

variable [Scalar R]

theorem ofTerms_subtract {terms : List (Term R)} (hpos : Positive terms)
    (h : allOf .subtract terms = true) :
    Pattern.ofTerms terms = Pattern.ofSubtracting (totalCalls terms) terms := by
  rw [Pattern.ofTerms, if_neg (hpos.totalCalls_ne_zero (allOf_iff.mp h).1), anyOf_of_allOf h,
    allOf_of_allOf h, allOf_of_allOf h]
  rfl

theorem ofTerms_divide {t : Term R} (hpos : Positive [t]) (h : t.change.kind = .divide) :
    Pattern.ofTerms [t] = .dividing (totalCalls [t]) t.change.amount := by
  have hall := allOf_single h
  rw [Pattern.ofTerms, if_neg (hpos.totalCalls_ne_zero (by simp)), anyOf_of_allOf hall, hall]
  rfl

theorem ofTerms_split {terms : List (Term R)} (hpos : Positive terms)
    (h : allOf .split terms = true) : Pattern.ofTerms terms = .splitting (totalCalls terms) := by
  rw [Pattern.ofTerms, if_neg (hpos.totalCalls_ne_zero (allOf_iff.mp h).1), anyOf_of_allOf h]
  rfl

theorem tightCase_ofSubtracting (calls : Int) (terms : List (Term R)) (c : Cases R) :
    (Pattern.ofSubtracting calls terms).tightCase c = c.worst := by
  unfold Pattern.ofSubtracting
  split
  · rfl
  · split <;> rfl

theorem tightCase_ofTerms {terms : List (Term R)} (hpos : Positive terms) (h : Uniform terms)
    (c : Cases R) :
    (Pattern.ofTerms terms).tightCase c
      = if allOf .split terms then c.average else c.worst := by
  rcases h with hsub | ⟨t, rfl, hkind⟩ | hsplit
  · rw [ofTerms_subtract hpos hsub, tightCase_ofSubtracting, allOf_of_allOf hsub]
    rfl
  · rw [ofTerms_divide hpos hkind, allOf_of_allOf (allOf_single hkind)]
    rfl
  · rw [ofTerms_split hpos hsplit, hsplit]
    rfl

end Uniform

/-! ## The solver finds the bound of the pattern -/

variable {ε : ℝ} {rel : Relation (Tolerant ε)}

theorem solve_of_master {b : Tolerant ε} (hnil : rel.terms ≠ [])
    (hf : rel.localCost.isExponential = false) (h : divisor? rel.terms = some b) :
    ∃ s, solve rel = .solved s
      ∧ s.bound = masterBound (Scalar.ofInt (totalCalls rel.terms)) b rel.localCost := by
  have hempty : rel.terms.isEmpty = false := by simpa using hnil
  obtain ⟨s, hs⟩ : ∃ s, solveByMaster rel = some s := by
    rw [solveByMaster, hf, h]
    exact ⟨_, rfl⟩
  refine ⟨s, ?_, ?_⟩
  · rw [solve, solveWith, hempty, hs]
    rfl
  · rw [solveByMaster, hf, h] at hs
    obtain rfl := Option.some.inj hs
    rfl

theorem solve_of_linear {s : Solution (Tolerant ε)} (hsub : allOf .subtract rel.terms = true)
    (h : solveLinear dominantRoot rel = some s) : solve rel = .solved s := by
  have hempty : rel.terms.isEmpty = false := by simpa using (allOf_iff.mp hsub).1
  have hmaster : solveByMaster rel = none := by
    simp [solveByMaster, divisor?, allOf_of_allOf hsub]
  rw [solve, solveWith, hempty, hmaster, h]
  rfl

/-- Subtractions: a single call unrolls, and several have the same base on both sides. -/
theorem solveLinear_eq_bound (hε : ε ≤ 1 / 2) (hpos : Positive rel.terms)
    (hf : rel.localCost.isExponential = false) (hsub : allOf .subtract rel.terms = true) :
    ∃ s, solveLinear dominantRoot rel = some s
      ∧ s.bound = (Pattern.ofSubtracting (totalCalls rel.terms) rel.terms).bound rel.localCost := by
  have hnil := (allOf_iff.mp hsub).1
  rw [solveLinear, hsub, hf, if_neg (by decide)]
  match hterms : rel.terms with
  | [] => exact absurd hterms hnil
  | [t] =>
      have hcalls : totalCalls [t] = t.multiplicity := by simp [totalCalls]
      rw [hcalls, Pattern.ofSubtracting]
      dsimp only
      by_cases hone : t.multiplicity = 1
      · rw [if_pos hone, if_pos hone]
        exact ⟨unrolled rel t.change.amount, rfl, rfl⟩
      · rw [if_neg hone, if_neg hone, isFibonacci_single hε, if_neg Bool.false_ne_true]
        exact ⟨repeatedShift rel t.multiplicity t.change.amount, rfl, rfl⟩
  | t :: u :: rest =>
      rw [hterms] at hpos
      have hmany : totalCalls (t :: u :: rest) ≠ 1 := by
        have hlength := hpos.length_le
        simp only [List.length_cons] at hlength
        push_cast at hlength
        omega
      unfold Pattern.ofSubtracting
      rw [if_neg hmany]
      dsimp only
      rw [isFibonacci_eq hpos (by simp)]
      by_cases hfib : isFibonacci (t :: u :: rest) = true
      · rw [if_pos hfib, if_pos hfib]
        exact ⟨fibonacci rel, rfl, rfl⟩
      · rw [if_neg hfib, if_neg hfib]
        exact ⟨mixedShifts rel _ (dominantRoot (t :: u :: rest)), rfl, rfl⟩

/-- **The solver answers with the bound of the pattern**, for uniform terms that each stand for a
call. -/
theorem solve_eq_bound (hε0 : 0 ≤ ε) (hε : ε ≤ 1 / 2) (hpos : Positive rel.terms)
    (hf : rel.localCost.isExponential = false) (huniform : Uniform rel.terms) :
    ∃ s, solve rel = .solved s ∧ s.bound = (Pattern.ofTerms rel.terms).bound rel.localCost := by
  rcases huniform with hsub | ⟨t, hterms, hkind⟩ | hsplit
  · obtain ⟨s, hs, hbound⟩ := solveLinear_eq_bound hε hpos hf hsub
    rw [ofTerms_subtract hpos hsub]
    exact ⟨s, solve_of_linear hsub hs, hbound⟩
  · have hdivisor : divisor? rel.terms = some t.change.amount := by
      simpa [hterms, divisor?, allOf_of_allOf (allOf_single hkind)] using hε0
    obtain ⟨s, hs, hbound⟩ := solve_of_master (by simp [hterms]) hf hdivisor
    refine ⟨s, hs, ?_⟩
    rw [hterms] at hpos hbound ⊢
    rw [ofTerms_divide hpos hkind]
    exact hbound
  · have hdivisor : divisor? rel.terms = some Scalar.two := by simp [divisor?, hsplit]
    obtain ⟨s, hs, hbound⟩ := solve_of_master (allOf_iff.mp hsplit).1 hf hdivisor
    rw [ofTerms_split hpos hsplit]
    exact ⟨s, hs, hbound⟩

end Recurrence

/-! ## Programs -/

theorem Growth.agrees_of_key_eq {ε : ℝ} (hε : 0 ≤ ε) {g h : Growth (Tolerant ε)}
    (hkey : g.key = h.key) : g.agrees h = true := by
  simp only [key, EmbeddingLike.apply_eq_iff_eq, Prod.mk.injEq] at hkey
  obtain ⟨hbase, hdegree, hlog⟩ := hkey
  have hself : ∀ a : Tolerant ε, Scalar.order a a = .eq := by
    intro a
    simp [Scalar.order, not_lt.mpr hε]
  rw [agrees, compare, Tolerant.ext hbase, Tolerant.ext hdegree, hlog, hself, hself]
  simp

theorem Growth.isExponential_of_key_eq {ε : ℝ} (hε : 0 ≤ ε) {g h : Growth (Tolerant ε)}
    (hkey : g.key = h.key) (hg : g.isExponential = false) : h.isExponential = false := by
  rw [Bool.eq_false_iff]
  intro hexp
  simp only [key, EmbeddingLike.apply_eq_iff_eq, Prod.mk.injEq] at hkey
  have hbase := hkey.1
  rw [base_of_polynomial hg, base_of_exponential hexp] at hbase
  have hlt := isExponential_iff.mp hexp
  linarith

namespace Engine

open Recurrence

variable {ε : ℝ}

/-- A procedure that calls itself is recursive, and known to the graph as such. -/
theorem callsSelf_of_callsTo {p : Program} {q : Procedure} (hq : p.find? q.name = some q)
    (h : q.body.callsTo q.name = true) :
    (CallGraph.ofProgram p).callsSelf q.name = true
      ∧ (CallGraph.ofProgram p).isRecursive q.name = true := by
  obtain ⟨c, hc, hname⟩ := List.any_eq_true.mp h
  rw [beq_iff_eq] at hname
  have hedge : (CallGraph.ofProgram p).Edge q.name q.name := by
    have hdecl : p.declares c.callee = true := by
      rw [hname, Program.declares, hq]
      rfl
    have hedge := CallGraph.edge_of_call hq hc hdecl
    rwa [hname] at hedge
  exact ⟨List.contains_iff_mem.mpr hedge,
    (CallGraph.reaches_iff (CallGraph.ofProgram_declared p)).mpr (.single hedge)⟩

/-- **The bound of the solver agrees with the structural analysis.** For a self-calling procedure
of a program with distinct names, whose calls are outside loops, whose cost outside its calls is
what its own work costs and is not exponential, and whose terms are all subtractions, one division
or all splits, the solver has an answer, and it compares equal to the worst case of the procedure,
or for splits to its average case. Comparisons may forgive up to a half. -/
theorem solve_agrees_casesOf (hε0 : 0 ≤ ε) (hε : ε ≤ 1 / 2) (p : Program)
    (hnames : (p.procedures.map Procedure.name).Nodup) (source : Text) (q : Procedure)
    (hq : q ∈ p.procedures) (rel : Relation (Tolerant ε))
    (hrel : Relation.ofName? p source q.name = some rel)
    (hloop : (ownVerdict p (fun _ => none) q : Verdict (Tolerant ε)).has .callInsideLoop = false)
    (hf : rel.localCost.key
      = (ownVerdict p (fun _ => none) q : Verdict (Tolerant ε)).cases.worst.key)
    (hpoly : rel.localCost.isExponential = false) (huniform : Uniform rel.terms) :
    ∃ s, solve rel = .solved s
      ∧ s.bound.agrees (if allOf .split rel.terms then (casesOf p q.name).average
          else (casesOf p q.name).worst) = true := by
  have hfind := Program.find?_of_mem hnames hq
  rw [Relation.ofName?, hfind] at hrel
  obtain ⟨q', hq', rfl⟩ := Option.map_eq_some_iff.mp hrel
  obtain ⟨rfl, hself⟩ : q = q' ∧ q'.body.callsTo q'.name = true := by
    simpa using hq'
  obtain ⟨hgraph, hrec⟩ := callsSelf_of_callsTo hfind hself
  have hpos : Positive (Relation.ofProcedure p source q : Relation (Tolerant ε)).terms :=
    worstTerms_positive q
  obtain ⟨s, hs, hbound⟩ := solve_eq_bound hε0 hε hpos hpoly huniform
  refine ⟨s, hs, Growth.agrees_of_key_eq hε0 ?_⟩
  -- The engine looks at the shrinking terms only, and these are all of them.
  have hpattern : Pattern.ofProcedure (CallGraph.ofProgram p) q
      (ownVerdict p (fun _ => none) q : Verdict (Tolerant ε))
      = Pattern.ofTerms (worstTerms q) := by
    rw [Pattern.ofProcedure, hloop, hgraph]
    exact congrArg Pattern.ofTerms huniform.filter_shrinks
  have hcases : (casesOf p q.name : Cases (Tolerant ε))
      = (Pattern.ofTerms (worstTerms q)).cases q
          (ownVerdict p (fun _ => none) q : Verdict (Tolerant ε)).cases := by
    rw [casesOf_eq, verdictOn_eq hfind, Verdict.withSolved, Verdict.ofBody, if_pos hrec,
      Pattern.recursive_cases, hpattern]
  rw [hbound, Pattern.bound_congr _ hpoly (Growth.isExponential_of_key_eq hε0 hf hpoly) hf,
    ← tightCase_ofTerms hpos huniform, hcases]
  exact Pattern.bound_key_eq hε0 q _ _

/-- The call `f(n - amount)`. -/
def smallerCall (amount : Nat) : Expr :=
  .call ⟨2, 1⟩ [102] false
    [.binary ⟨2, 3⟩ .sub (.name ⟨2, 3⟩ [110]) (.number ⟨2, 7⟩ (.finite false amount 1))]

/-- The recursion `f(n) = f(n - 1) + f(n - 2)`. -/
def fibonacciProcedure : Procedure where
  pos := ⟨1, 1⟩
  name := [102]
  display := [102]
  params := [{ name := [110] }]
  body := .mk ⟨1, 1⟩ true ⟨3, 1⟩
    [.give ⟨2, 1⟩ (some (.binary ⟨2, 1⟩ .add (smallerCall 1) (smallerCall 2)))]

theorem ownVerdict_fibonacci :
    (ownVerdict ⟨⟨1, 1⟩, [fibonacciProcedure], none⟩ (fun _ => none) fibonacciProcedure :
      Verdict (Tolerant ε)) = Verdict.constant := by
  rw [ownVerdict, fibonacciProcedure, Costing.block, Costing.list]
  exact Verdict.constant_sequence_constant

theorem localCost_fibonacci :
    (localCost ⟨⟨1, 1⟩, [fibonacciProcedure], none⟩ [] fibonacciProcedure : Growth (Tolerant ε))
      = Growth.constant := by
  show (Growth.constant : Growth (Tolerant ε)).max Growth.constant = Growth.constant
  exact Growth.max_self _

/-- The size less a whole amount, once. -/
noncomputable def lessTerm (amount : Nat) : Term (Tolerant ε) :=
  ⟨.subtract (Scalar.ofExact (.finite false amount 1)), 1⟩

theorem worstTerms_fibonacci (hε : ε ≤ 1 / 2) :
    (worstTerms fibonacciProcedure : List (Term (Tolerant ε))) = [lessTerm 1, lessTerm 2] := by
  have hterms : (worstTerms fibonacciProcedure : List (Term (Tolerant ε)))
      = addTerms [] (addTerm (lessTerm 2) [lessTerm 1]) := rfl
  have hval : ∀ n : Nat, (lessTerm n : Term (Tolerant ε)).change.amount.val = n := by
    intro n
    show (n : ℝ) / (1 : ℕ) = n
    simp
  have hapart : (lessTerm 1 : Term (Tolerant ε)).change.agrees (lessTerm 2).change = false := by
    show decide (Scalar.abs (_ - _) < (Scalar.epsilon : Tolerant ε)) = false
    rw [decide_eq_false_iff_not, Tolerant.lt_iff, Tolerant.val_abs, Tolerant.val_sub, hval, hval,
      Tolerant.val_epsilon]
    norm_num
    linarith
  rw [hterms]
  simp [addTerms, addTerm, hapart]

theorem solve_agrees_fibonacci :
    allOf .subtract (worstTerms fibonacciProcedure : List (Term (Tolerant (1 / 10 ^ 9)))) = true
      ∧ ∃ s, solve (Relation.ofProcedure ⟨⟨1, 1⟩, [fibonacciProcedure], none⟩ []
          fibonacciProcedure : Relation (Tolerant (1 / 10 ^ 9))) = .solved s
        ∧ s.bound.agrees (casesOf ⟨⟨1, 1⟩, [fibonacciProcedure], none⟩ [102]).worst = true := by
  have hε : (0 : ℝ) ≤ 1 / 10 ^ 9 := by norm_num
  have hhalf : (1 : ℝ) / 10 ^ 9 ≤ 1 / 2 := by norm_num
  have hsub : allOf .subtract (worstTerms fibonacciProcedure :
      List (Term (Tolerant (1 / 10 ^ 9)))) = true := by
    rw [worstTerms_fibonacci hhalf]
    rfl
  have hpoly : (localCost ⟨⟨1, 1⟩, [fibonacciProcedure], none⟩ [] fibonacciProcedure :
      Growth (Tolerant (1 / 10 ^ 9))).isExponential = false := by
    rw [localCost_fibonacci]
    exact Growth.isExponential_polynomial hε _ _
  obtain ⟨s, hs, hagrees⟩ := solve_agrees_casesOf hε hhalf ⟨⟨1, 1⟩, [fibonacciProcedure], none⟩
    (by decide) [] fibonacciProcedure (by simp) (Relation.ofProcedure _ _ _) rfl
    (by rw [ownVerdict_fibonacci]; rfl)
    (by rw [ownVerdict_fibonacci]; exact congrArg Growth.key localCost_fibonacci) hpoly (.inl hsub)
  refine ⟨hsub, s, hs, ?_⟩
  rwa [show allOf .split (Relation.terms _) = false from allOf_of_allOf hsub] at hagrees

end Engine

end PseudoCost
