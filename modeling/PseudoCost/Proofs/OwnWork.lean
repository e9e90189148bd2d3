import PseudoCost.Proofs.WeightedCosts
import PseudoCost.Proofs.SolverAgreement
import PseudoCost.Proofs.UnreachableProcedures

/-!
# The own work of a procedure, twice

The work that a procedure does outside its recursion is found twice. The structural analysis judges
its body with the calls on its cycles left out; the lines of the procedure, and the relation that is
derived from them, are made without that verdict. Both are read here as bounds, the verdict with
`Costing.block_key_le_iff` and the lines with `LineCost.largest_key_le_iff`.

- Without calls to declared procedures the largest line is the own work. The *cost* of the
  procedure is its own work unless it is taken to be recursive. The call graph does so when another
  declaration of its name leads back to it, and then the largest line is too small
  (`largest_agrees_iff`).
- The local cost of a relation takes every helper once, the own work as often as its call is made.
  So the local cost is never the larger one, and the two agree exactly if taking a helper as often
  as it is called adds nothing (`localCost_agrees_iff`).
-/

namespace PseudoCost

open Recurrence Tolerant

variable {ε : ℝ} {G : Grid ε}

/-! ## Paths without self-calls -/

namespace Recurrence

namespace PathAlgebra

variable {V : Type}

/-- The algebra that keeps nothing of any call. -/
def silent (alg : PathAlgebra V) : PathAlgebra V := { alg with ofCalls := fun _ => alg.empty }

/-- Nothing is kept of calls of some kind. -/
def Ignores (alg : PathAlgebra V) (C : Call → Prop) : Prop :=
  ∀ calls, (∀ c ∈ calls, C c) → alg.ofCalls calls = alg.empty

variable {alg : PathAlgebra V} {C : Call → Prop}

mutual

theorem ofStmt_silent (hC : alg.Ignores C) : ∀ s : Stmt, (∀ c ∈ s.calls, C c) →
    alg.silent.ofStmt s = alg.ofStmt s
  | .give .., h => by
      rw [ofStmt, ofStmt, hC _ h]
      rfl
  | .conditional _ cond thenBlock (some elseBlock), h => by
      rw [ofStmt, ofStmt, ofBlock_silent hC thenBlock fun c hc => h c (by simp [hc]),
        ofBlock_silent hC elseBlock fun c hc => h c (by simp [hc]),
        hC _ fun c hc => h c (by simp [hc])]
      rfl
  | .conditional _ cond thenBlock none, h => by
      rw [ofStmt, ofStmt, ofBlock_silent hC thenBlock fun c hc => h c (by simp [hc]),
        hC _ fun c hc => h c (by simp [hc])]
      rfl
  | .forLoop _ _ _ start stop step body, h => by
      rw [ofStmt, ofStmt, ofBlock_silent hC body fun c hc => h c (by simp [hc]),
        hC start.calls fun c hc => h c (by simp [hc]), hC stop.calls fun c hc => h c (by simp [hc])]
      rfl
  | .whileLoop _ _ cond body, h => by
      rw [ofStmt, ofStmt, ofBlock_silent hC body fun c hc => h c (by simp [hc]),
        hC _ fun c hc => h c (by simp [hc])]
      rfl
  | .repeatLoop _ _ body cond, h => by
      rw [ofStmt, ofStmt, ofBlock_silent hC body fun c hc => h c (by simp [hc]),
        hC _ fun c hc => h c (by simp [hc])]
      rfl
  | .assign .., h => by
      rw [ofStmt, ofStmt, hC _ h]
      rfl
  | .call .., h => by
      rw [ofStmt, ofStmt, hC _ h]
      rfl

/-- A block is read alike without its calls, if nothing is kept of them anyway. -/
theorem ofBlock_silent (hC : alg.Ignores C) : ∀ b : Block, (∀ c ∈ b.calls, C c) →
    alg.silent.ofBlock b = alg.ofBlock b
  | .mk _ _ _ stmts, h => by
      rw [ofBlock, ofBlock]
      exact ofList_silent hC stmts (by simpa only [Block.calls_mk] using h) _

theorem ofList_silent (hC : alg.Ignores C) : ∀ ss : List Stmt, (∀ c ∈ ss.flatMap Stmt.calls, C c) →
    ∀ before : Flow V, alg.silent.ofList before ss = alg.ofList before ss
  | [], _, before => rfl
  | s :: ss, h, before => by
      rw [List.flatMap_cons, List.forall_mem_append] at h
      rw [ofList, ofList, ofStmt_silent hC s h.1]
      split
      · rfl
      · exact ofList_silent hC ss h.2 _

end

end PathAlgebra

variable {R : Type} [Scalar R]

/-- Without self-calls there are no terms. -/
theorem worstTerms_eq_nil {q : Procedure} (h : ∀ c ∈ q.body.calls, c.callee ≠ q.name) :
    (worstTerms q : List (Term R)) = [] := by
  let alg : PathAlgebra (List (Term R)) := termAlgebra q (SizeFacts.ofProcedure q)
  have hkeeps : alg.silent.Keeps (· = []) := {
    empty := rfl
    ofCalls := fun _ => rfl
    concat := fun ha hb => by
      rw [ha, hb]
      rfl
    join := fun ha hb => by
      rw [ha, hb]
      rfl }
  have hcalls : alg.Ignores (·.callee ≠ q.name) := by
    intro calls hc
    have hnone : calls.filter (·.callee == q.name) = [] :=
      List.filter_eq_nil_iff.mpr fun c hmem => by simpa using hc c hmem
    show addTerms [] ((calls.filter (·.callee == q.name)).map _) = []
    rw [hnone]
    rfl
  have hnil := hkeeps.ofProcedure q
  rw [PathAlgebra.ofProcedure, PathAlgebra.ofBlock_silent hcalls q.body h] at hnil
  exact hnil

end Recurrence

/-! ## The own work under a bound -/

/-- On a grid, growths count as equal exactly if their keys are equal. -/
theorem Growth.agrees_iff {g h : Growth (Tolerant ε)} (hg : G.Holds g) (hh : G.Holds h) :
    g.agrees h = true ↔ g.key = h.key := Sharp.agrees_iff (compare_eq_cmp hg hh)

namespace Costing

variable {p : Program} {g : CallGraph} {v : Name → Verdict (Tolerant ε)}
  {bound : ℝ ×ₗ (ℝ ×ₗ ℤ)}

/-- The body of a procedure is below a bound exactly if the largest line is, and every callee, taken
as often as it is called. -/
theorem body_key_le_iff (hv : ∀ n, (v n).cases.All G.Holds) (q : Procedure) (source : Text) :
    ((given p g v).block { caller := some q.name } q.body).run.cases.worst.key ≤ bound
      ↔ (LineCost.largest q source : Growth (Tolerant ε)).key ≤ bound
        ∧ CalleesBelow p g v (some q.name) bound (q.body.weightedCalls Growth.constant) := by
  have hconstant : (Growth.constant : Growth (Tolerant ε)).isExponential = false :=
    Growth.isExponential_polynomial G.nonneg _ _
  rw [LineCost.largest_key_le_iff G, and_assoc, ← Growth.key_times_constant G.nonneg]
  exact block_key_le_iff hv { caller := some q.name } 0 q.body hconstant

end Costing

/-! ## Procedures that call no procedure -/

theorem apart_natCast (hε1 : ε < 1) : Apart ε (Set.range ((↑) : ℕ → ℝ)) := by
  rintro _ ⟨j, rfl⟩ _ ⟨k, rfl⟩
  by_cases h : j = k
  · exact Or.inl (by rw [h])
  · right
    have hone : 1 ≤ |(j : ℤ) - k| := Int.one_le_abs (by omega)
    have hreal : (1 : ℝ) ≤ |(j : ℝ) - k| := by exact_mod_cast hone
    linarith

/-- Whole degrees and bases are on a grid, if comparisons forgive less than one. -/
def Grid.whole (hε : 0 ≤ ε) (hε1 : ε < 1) : Grid ε where
  degrees := Set.range ((↑) : ℕ → ℝ)
  bases := Set.range ((↑) : ℕ → ℝ)
  nonneg := hε
  degrees_apart := apart_natCast hε1
  bases_apart := apart_natCast hε1
  zero_mem := ⟨0, Nat.cast_zero⟩
  add_one_mem := by
    rintro _ ⟨k, rfl⟩
    exact ⟨k + 1, by push_cast; rfl⟩
  one_mem := ⟨1, Nat.cast_one⟩

namespace Engine

variable {p : Program} {q : Procedure} {f : Growth (Tolerant ε)}

/-- A procedure whose body calls no declared procedure. -/
def Leaf (p : Program) (q : Procedure) : Prop := ∀ c ∈ q.body.calls, p.declares c.callee = false

namespace Leaf

/-- The verdicts on procedures have no part in the own work of a leaf. -/
theorem ownVerdict_eq {R : Type} [Scalar R] (h : Leaf p q) :
    (ownVerdict p (fun _ => none) q : Verdict R)
      = ((Costing.given p (CallGraph.ofProgram p) fun _ => Verdict.constant).block
          { caller := some q.name } q.body).run := by
  rw [ownVerdict, Costing.block_congr _ q.body fun c hc loops w => ?_]
  simp [Costing.call, Costing.given, h c (q.body.costedCalls_subset hc)]

theorem own_holds (h : Leaf p q) (G : Grid ε) :
    (ownVerdict p (fun _ => none) q : Verdict (Tolerant ε)).cases.All G.Holds := by
  rw [h.ownVerdict_eq]
  exact G.closed.block _ q.body fun _ _ _ => G.closed.constant

theorem own_polynomial (h : Leaf p q) (hε : 0 ≤ ε) :
    (ownVerdict p (fun _ => none) q : Verdict (Tolerant ε)).cases.worst.isExponential = false := by
  rw [h.ownVerdict_eq]
  exact (closed_polynomial hε).block _ q.body fun _ _ _ => (closed_polynomial hε).constant

/-- The largest line of a leaf is its own work. -/
theorem largest_key (h : Leaf p q) (G : Grid ε) (source : Text) :
    (LineCost.largest q source : Growth (Tolerant ε)).key
      = (ownVerdict p (fun _ => none) q : Verdict (Tolerant ε)).cases.worst.key := by
  refine eq_of_forall_ge_iff fun bound => ?_
  rw [h.ownVerdict_eq, Costing.body_key_le_iff (fun _ => G.closed.constant) q source]
  refine (and_iff_left fun w hw hask => ?_).symm
  have hmem : w.2 ∈ q.body.costedCalls := by
    rw [← q.body.map_weightedCalls (Growth.constant : Growth (Tolerant ε))]
    exact List.mem_map_of_mem hw
  have hdecl := h w.2 (q.body.costedCalls_subset hmem)
  rw [hask.1] at hdecl
  cases hdecl

/-- The pattern of a leaf that is taken to be recursive: it has no terms to be judged by. -/
theorem pattern_cases {R : Type} [Scalar R] (h : Leaf p q) (hfind : p.find? q.name = some q)
    (g : CallGraph) (own : Verdict R) :
    Pattern.ofProcedure g q own = .exponential Scalar.two
      ∨ Pattern.ofProcedure g q own = .linear := by
  have hdecl : p.declares q.name = true := by rw [Program.declares, hfind]; rfl
  have hself : ∀ c ∈ q.body.calls, c.callee ≠ q.name := by
    intro c hc heq
    rw [← heq, h c hc] at hdecl
    cases hdecl
  have hterms : (worstTerms q : List (Term R)) = [] := worstTerms_eq_nil hself
  rw [Pattern.ofProcedure, hterms]
  split
  · exact Or.inl rfl
  · split
    · exact Or.inr rfl
    · exact Or.inr rfl

/-- A leaf with a name of its own is not recursive. -/
theorem not_recursive (h : Leaf p q) (hnames : (p.procedures.map Procedure.name).Nodup)
    (hq : q ∈ p.procedures) : (CallGraph.ofProgram p).isRecursive q.name = false := by
  rw [Bool.eq_false_iff]
  intro hrec
  have hreach := (CallGraph.reaches_iff (CallGraph.ofProgram_declared p)).mp hrec
  obtain ⟨b, hedge, -⟩ := Relation.TransGen.head'_iff.mp hreach
  obtain ⟨q', hq', hname, hcall⟩ := CallGraph.edge_ofProgram_iff.mp hedge
  obtain rfl : q' = q := List.inj_on_of_nodup_map hnames hq' hq hname
  obtain ⟨⟨c, hc, rfl⟩, hdecl⟩ := CallGraph.mem_declaredCalls.mp hcall
  rw [h c hc] at hdecl
  cases hdecl

end Leaf

/-- The growth `2 ^ n` is on the grid of whole numbers and above every polynomial one. -/
theorem exponential_two (hε : 0 ≤ ε) (hε1 : ε < 1) {f : Growth (Tolerant ε)}
    (hf : f.isExponential = false) :
    (Grid.whole hε hε1).Holds (Growth.exponential Scalar.two : Growth (Tolerant ε))
      ∧ f.key ≠ (Growth.exponential Scalar.two : Growth (Tolerant ε)).key := by
  have hexp : (Growth.exponential Scalar.two : Growth (Tolerant ε)).isExponential = true := by
    rw [Growth.isExponential_iff]
    show 1 + ε < (Scalar.two : Tolerant ε).val
    rw [val_two]
    linarith
  have hbase : (Growth.exponential Scalar.two : Growth (Tolerant ε)).base.val = 2 := by
    rw [Growth.base_of_exponential hexp]
    exact val_two
  refine ⟨⟨⟨0, ?_⟩, ⟨2, ?_⟩⟩, fun hkey => ?_⟩
  · show ((0 : ℕ) : ℝ) = (Scalar.zero : Tolerant ε).val
    rw [val_zero, Nat.cast_zero]
  · rw [hbase, Nat.cast_ofNat]
  · simp only [Growth.key, EmbeddingLike.apply_eq_iff_eq, Prod.mk.injEq] at hkey
    rw [Growth.base_of_polynomial hf, hbase] at hkey
    norm_num at hkey

/-- A growth times the input size is another one. -/
theorem times_linear (hf : G.Holds f) :
    G.Holds (f.times Growth.linear) ∧ f.key ≠ (f.times Growth.linear).key := by
  have hpoly : (Growth.linear : Growth (Tolerant ε)).isExponential = false :=
    Growth.isExponential_polynomial G.nonneg _ _
  have hdegree : (Growth.linear : Growth (Tolerant ε)).degree.val = 1 := val_one
  refine ⟨Growth.holds_times hf hpoly (Or.inr hdegree), fun hkey => ?_⟩
  rw [Growth.key_times G.nonneg hpoly, hdegree] at hkey
  simp [Growth.key] at hkey

/-- A leaf that is taken to be recursive does not cost its own work. -/
theorem Leaf.recursive_key_ne (h : Leaf p q) (hfind : p.find? q.name = some q) (hε : 0 ≤ ε)
    (hε1 : ε < 1) (g : CallGraph) {own : Verdict (Tolerant ε)}
    (hown : (Grid.whole hε hε1).Holds own.cases.worst)
    (hpoly : own.cases.worst.isExponential = false) :
    (Grid.whole hε hε1).Holds (own.recursive g q).cases.worst
      ∧ own.cases.worst.key ≠ (own.recursive g q).cases.worst.key := by
  rw [Pattern.recursive_cases]
  rcases h.pattern_cases hfind g own with hpattern | hpattern <;> rw [hpattern]
  · exact exponential_two hε hε1 hpoly
  · exact times_linear hown

/-- **The largest line of a leaf is its cost, exactly if the call graph does not take the leaf to be
recursive**; which it does not, where names are distinct. -/
theorem largest_agrees_iff (hε : 0 ≤ ε) (hε1 : ε < 1) (p : Program) (n : Name) (q : Procedure)
    (hfind : p.find? n = some q) (hleaf : Leaf p q) (source : Text) :
    ((LineCost.largest q source : Growth (Tolerant ε)).agrees (casesOf p n).worst = true
        ↔ (CallGraph.ofProgram p).isRecursive n = false)
      ∧ ((p.procedures.map Procedure.name).Nodup →
        (LineCost.largest q source : Growth (Tolerant ε)).agrees (casesOf p n).worst = true) := by
  obtain rfl : q.name = n := by simpa using List.find?_some hfind
  let G := Grid.whole hε hε1
  have hkey := hleaf.largest_key G source
  have hiff : (LineCost.largest q source : Growth (Tolerant ε)).agrees (casesOf p q.name).worst
      = true ↔ (CallGraph.ofProgram p).isRecursive q.name = false := by
    rw [casesOf_eq, verdictOn_eq hfind, Verdict.withSolved, Verdict.ofBody]
    cases hrec : (CallGraph.ofProgram p).isRecursive q.name with
    | false => exact iff_of_true (Growth.agrees_of_key_eq hε hkey) rfl
    | true =>
        obtain ⟨hholds, hne⟩ := hleaf.recursive_key_ne hfind hε hε1 (CallGraph.ofProgram p)
          (hleaf.own_holds G).worst (hleaf.own_polynomial hε)
        rw [if_pos rfl, Growth.agrees_iff (LineCost.largest_holds G q source) hholds, hkey]
        exact iff_of_false hne Bool.true_eq_false.mp
  exact ⟨hiff, fun hnames =>
    hiff.mpr (hleaf.not_recursive hnames (List.mem_of_find?_eq_some hfind))⟩

/-- A declaration of `p` that calls nothing. -/
def calm : Procedure where
  pos := ⟨1, 1⟩
  name := [112]
  display := [112]
  params := [{ name := [110] }]
  body := .mk ⟨1, 1⟩ true ⟨3, 1⟩
    [.assign ⟨2, 3⟩ (.name ⟨2, 3⟩ [120]) (.number ⟨2, 8⟩ (.finite false 1 1))]

/-- Another declaration of `p`, which calls `p`. -/
def restless : Procedure where
  pos := ⟨4, 1⟩
  name := [112]
  display := [112]
  params := [{ name := [110] }]
  body := .mk ⟨4, 1⟩ true ⟨6, 1⟩ [.call ⟨5, 3⟩ [112] true [.name ⟨5, 10⟩ [110]]]

theorem largest_calm :
    (LineCost.largest calm [] : Growth (Tolerant 0)).agrees
      (casesOf ⟨⟨1, 1⟩, [calm, restless], none⟩ [112]).worst = false := by
  have h := largest_agrees_iff (ε := 0) le_rfl one_pos ⟨⟨1, 1⟩, [calm, restless], none⟩ [112] calm
    rfl (fun c hc => absurd hc List.not_mem_nil) []
  have hrec : (CallGraph.ofProgram ⟨⟨1, 1⟩, [calm, restless], none⟩).isRecursive [112] = true := by
    decide
  rw [hrec] at h
  simpa using h.1

/-! ## Procedures that call helpers -/

/-- The helpers of a procedure are what its calls off its cycles go to. -/
theorem mem_helpers_iff (hnames : (p.procedures.map Procedure.name).Nodup)
    (hq : q ∈ p.procedures) {n : Name} :
    n ∈ helpers (CallGraph.ofProgram p) q.name
      ↔ ∃ c ∈ q.body.calls, Leaves p q c ∧ c.callee = n := by
  have hfind := Program.find?_of_mem hnames hq
  have hg := CallGraph.ofProgram_declared p
  have hoff : ∀ {n : Name}, (CallGraph.ofProgram p).Edge q.name n →
      ((n == q.name || (CallGraph.ofProgram p).reaches n q.name) = false
        ↔ (CallGraph.ofProgram p).onCycle q.name n = false) := by
    intro n hedge
    rw [CallGraph.onCycle, (CallGraph.reaches_iff hg).mpr (.single hedge), Bool.true_and]
  rw [helpers, List.mem_filter, Bool.not_eq_true']
  constructor
  · rintro ⟨hedge, hback⟩
    obtain ⟨q', hq', hname, hcall⟩ := CallGraph.edge_ofProgram_iff.mp hedge
    obtain rfl : q' = q := List.inj_on_of_nodup_map hnames hq' hq hname
    obtain ⟨⟨c, hc, rfl⟩, hdecl⟩ := CallGraph.mem_declaredCalls.mp hcall
    exact ⟨c, hc, ⟨hdecl, (hoff hedge).mp hback⟩, rfl⟩
  · rintro ⟨c, hc, ⟨hdecl, hcycle⟩, rfl⟩
    have hedge := CallGraph.edge_of_call hfind hc hdecl
    exact ⟨hedge, (hoff hedge).mpr hcycle⟩

theorem localCost_of_ofName? {R : Type} [Scalar R] {source : Text} {n : Name} {rel : Relation R}
    (hfind : p.find? n = some q) (h : Relation.ofName? p source n = some rel) :
    rel.localCost = localCost p source q := by
  rw [Relation.ofName?, hfind] at h
  obtain ⟨q', hq', rfl⟩ := Option.map_eq_some_iff.mp h
  obtain ⟨hsome, -⟩ := Option.filter_eq_some_iff.mp hq'
  rw [Option.some.inj hsome]
  rfl

section

variable (hG : ∀ n, (casesOf p n : Cases (Tolerant ε)).All G.Holds)
include hG

theorem localCost_holds (q : Procedure) (source : Text) :
    G.Holds (localCost p source q : Growth (Tolerant ε)) := by
  simp only [localCost, largestWorst_run, ← casesOf_eq]
  exact Growth.foldl_max_holds (LineCost.largest_holds G q source) fun n _ => (hG n).worst

/-- The local cost is below a bound exactly if the largest line and every helper are. -/
theorem localCost_key_le_iff {bound : ℝ ×ₗ (ℝ ×ₗ ℤ)} (q : Procedure) (source : Text) :
    (localCost p source q : Growth (Tolerant ε)).key ≤ bound
      ↔ (LineCost.largest q source : Growth (Tolerant ε)).key ≤ bound
        ∧ ∀ n ∈ helpers (CallGraph.ofProgram p) q.name,
          (casesOf p n : Cases (Tolerant ε)).worst.key ≤ bound := by
  simp only [localCost, largestWorst_run, ← casesOf_eq]
  exact Growth.foldl_max_key_le_iff (LineCost.largest_holds G q source) fun n _ => (hG n).worst

/-- The own work is below a bound exactly if the largest line and every callee off the cycles are,
the callee taken as often as it is called. -/
theorem own_key_le_iff {bound : ℝ ×ₗ (ℝ ×ₗ ℤ)} (q : Procedure) (source : Text) :
    (ownVerdict p (fun _ => none) q : Verdict (Tolerant ε)).cases.worst.key ≤ bound
      ↔ (LineCost.largest q source : Growth (Tolerant ε)).key ≤ bound
        ∧ ∀ w ∈ q.body.weightedCalls Growth.constant, Leaves p q w.2 →
          ((casesOf p w.2.callee : Cases (Tolerant ε)).worst.times w.1).key ≤ bound := by
  have hv : ∀ n, (verdictOn p (fun _ => none) n : Verdict (Tolerant ε)).cases.All G.Holds :=
    fun n => casesOf_eq (R := Tolerant ε) p n ▸ hG n
  rw [ownVerdict, Costing.body_key_le_iff hv q source]
  refine and_congr_right fun _ => forall₂_congr fun w _ => ?_
  simp only [Costing.Asks, Leaves, Option.any_some, casesOf_eq]

/-- No helper is above the own work, if those called in steps of loops are not. -/
theorem localCost_key_le_own (hnames : (p.procedures.map Procedure.name).Nodup)
    (hq : q ∈ p.procedures) (source : Text)
    (hsteps : ∀ c ∈ q.body.stepCalls, Leaves p q c →
      (casesOf p c.callee : Cases (Tolerant ε)).worst.key
        ≤ (ownVerdict p (fun _ => none) q : Verdict (Tolerant ε)).cases.worst.key) :
    (localCost p source q : Growth (Tolerant ε)).key
      ≤ (ownVerdict p (fun _ => none) q : Verdict (Tolerant ε)).cases.worst.key := by
  refine (localCost_key_le_iff hG q source).mpr ⟨((own_key_le_iff hG q source).mp le_rfl).1, ?_⟩
  intro n hn
  obtain ⟨c, hc, hleaves, rfl⟩ := (mem_helpers_iff hnames hq).mp hn
  rcases q.body.mem_calls_iff.mp hc with hcosted | hstep
  · exact callee_le_own hG hcosted hleaves
  · exact hsteps c hstep hleaves

end

/-- **The local cost of a relation is the own work of its procedure, exactly if taking the helpers
as often as they are called adds nothing**, and it is never above the own work. Names are distinct,
and no helper that is called in the step of a loop is above the own work. The growths of the
procedures lie on a grid, which is no condition when comparisons are exact (`Grid.all`). -/
theorem localCost_agrees_iff (G : Grid ε) (p : Program)
    (hnames : (p.procedures.map Procedure.name).Nodup) (hG : ∀ n, (casesOf p n).All G.Holds)
    (source : Text) (q : Procedure) (hq : q ∈ p.procedures) (rel : Relation (Tolerant ε))
    (hrel : Relation.ofName? p source q.name = some rel)
    (hsteps : ∀ c ∈ q.body.stepCalls, Leaves p q c →
      (casesOf p c.callee).worst.dominates
        (ownVerdict p (fun _ => none) q : Verdict (Tolerant ε)).cases.worst = false) :
    rel.localCost.dominates (ownVerdict p (fun _ => none) q).cases.worst = false
      ∧ (rel.localCost.agrees (ownVerdict p (fun _ => none) q).cases.worst = true
        ↔ ∀ w ∈ q.body.weightedCalls Growth.constant, Leaves p q w.2 →
          ((casesOf p w.2.callee).worst.times w.1).dominates rel.localCost = false) := by
  have hown := (ownVerdict_holds hG q).worst
  have hlocal := localCost_holds hG q source
  rw [localCost_of_ofName? (Program.find?_of_mem hnames hq) hrel]
  have hle : (localCost p source q : Growth (Tolerant ε)).key
      ≤ (ownVerdict p (fun _ => none) q : Verdict (Tolerant ε)).cases.worst.key :=
    localCost_key_le_own hG hnames hq source fun c hc hleaves =>
      (Growth.dominates_eq_false_iff (hG c.callee).worst hown).mp (hsteps c hc hleaves)
  refine ⟨(Growth.dominates_eq_false_iff hlocal hown).mpr hle, ?_⟩
  have hlines := ((localCost_key_le_iff hG q source).mp le_rfl).1
  rw [Growth.agrees_iff hlocal hown, eq_iff_le_not_lt, not_lt, and_iff_right hle,
    own_key_le_iff hG q source, and_iff_right hlines]
  refine forall₃_congr fun w hw _ => ?_
  exact (Growth.dominates_eq_false_iff (q.body.weight_holds G hw (hG _).worst) hlocal).symm

/-- A procedure `a` that calls itself after some statements. -/
def afterwards (stmts : List Stmt) : Procedure where
  pos := ⟨4, 1⟩
  name := [97]
  display := [97]
  params := [{ name := [110] }]
  body := .mk ⟨4, 1⟩ true ⟨8, 1⟩ (stmts ++ [.call ⟨7, 3⟩ [97] true [.name ⟨7, 10⟩ [110]]])

/-- The call `b(n)`. -/
def countingCall : Stmt := .call ⟨6, 5⟩ [98] true [.name ⟨6, 12⟩ [110]]

/-- The call `b(n)`, as often as the input size. -/
def countingLoop : Stmt :=
  .forLoop ⟨5, 3⟩ [105] false (.number ⟨5, 8⟩ (.finite false 1 1)) (.name ⟨5, 13⟩ [110]) none
    (.mk ⟨5, 15⟩ true ⟨6, 15⟩ [countingCall])

/-- The procedures `b`, which counts to `n`, and `a`. -/
def withCounting (stmts : List Stmt) : Program := ⟨⟨1, 1⟩, [counting, afterwards stmts], none⟩

section Exact

/-- Without tolerance every growth is on the grid of all reals. -/
theorem holds_all (f : Growth (Tolerant 0)) : Grid.all.Holds f := ⟨trivial, trivial⟩

theorem key_loop :
    (Growth.constant.times Growth.linear : Growth (Tolerant 0)).key
      = (Growth.linear : Growth (Tolerant 0)).key :=
  Growth.key_constant_times le_rfl (Growth.isExponential_polynomial le_rfl _ _)

theorem constant_le_linear :
    (Growth.constant : Growth (Tolerant 0)).key ≤ (Growth.linear : Growth (Tolerant 0)).key :=
  (Pattern.key_le_linear le_rfl _).trans key_loop.le

theorem worst_counting (stmts : List Stmt) :
    (casesOf (withCounting stmts) [98] : Cases (Tolerant 0)).worst.key
      = (Growth.linear : Growth (Tolerant 0)).key := by
  have hleaf : Leaf (withCounting stmts) counting := fun c hc => absurd hc List.not_mem_nil
  have hnames : ((withCounting stmts).procedures.map Procedure.name).Nodup := by
    simp [withCounting, counting, afterwards]
  have hrec := hleaf.not_recursive hnames List.mem_cons_self
  have hfind : (withCounting stmts).find? counting.name = some counting := rfl
  have hcases : (casesOf (withCounting stmts) counting.name : Cases (Tolerant 0))
      = (ownVerdict (withCounting stmts) (fun _ => none) counting).cases := by
    rw [casesOf_eq, verdictOn_eq hfind, Verdict.withSolved, Verdict.ofBody, hrec]
    rfl
  have hlargest : (LineCost.largest counting [] : Growth (Tolerant 0))
      = Growth.constant.max (Growth.constant.times Growth.linear) := rfl
  show (casesOf (withCounting stmts) counting.name).worst.key = _
  rw [hcases, ← hleaf.largest_key Grid.all [], hlargest, Growth.key_max (holds_all _) (holds_all _),
    key_loop, max_eq_right constant_le_linear]

/-- With the call of `b` in a loop, the local cost of `a` is linear and its own work is not. -/
theorem localCost_looping :
    ((withCounting [countingLoop]).procedures.map Procedure.name).Nodup
      ∧ ∃ rel : Relation (Tolerant 0),
        Relation.ofName? (withCounting [countingLoop]) [] [97] = some rel
        ∧ rel.localCost.agrees
            (ownVerdict (withCounting [countingLoop]) (fun _ => none)
              (afterwards [countingLoop])).cases.worst = false := by
  let p := withCounting [countingLoop]
  let q := afterwards [countingLoop]
  have hG : ∀ n, (casesOf p n : Cases (Tolerant 0)).All Grid.all.Holds := fun _ => Grid.all_holds _
  have hconstant : (Growth.constant : Growth (Tolerant 0)).isExponential = false :=
    Growth.isExponential_polynomial le_rfl _ _
  have hlinear : (Growth.linear : Growth (Tolerant 0)).isExponential = false :=
    Growth.isExponential_polynomial le_rfl _ _
  have hlargest : (LineCost.largest q [] : Growth (Tolerant 0))
      = ((Growth.constant.max (Growth.constant.times Growth.linear)).max
        (Growth.constant.times Growth.linear)).max Growth.constant := rfl
  have hhelpers : helpers (CallGraph.ofProgram p) q.name = [[98]] := by decide
  have hlocal : (localCost p [] q : Growth (Tolerant 0)).key
      ≤ (Growth.linear : Growth (Tolerant 0)).key := by
    rw [localCost_key_le_iff hG, hlargest, hhelpers, List.forall_mem_singleton, worst_counting]
    simp only [Growth.key_max (holds_all _) (holds_all _), key_loop, max_le_iff, le_refl,
      constant_le_linear, and_self]
  have hown : ((Growth.linear : Growth (Tolerant 0)).times Growth.linear).key
      ≤ (ownVerdict p (fun _ => none) q : Verdict (Tolerant 0)).cases.worst.key := by
    -- The helper is taken as often as the loop around its call runs.
    have hcallee := ((own_key_le_iff hG q []).mp le_rfl).2
      (Growth.constant.times Growth.linear, ⟨⟨6, 5⟩, [98], [.name ⟨6, 12⟩ [110]]⟩)
      List.mem_cons_self ⟨by decide, by decide⟩
    refine le_trans ?_ hcallee
    dsimp only
    rw [← Growth.times_times le_rfl hconstant hlinear]
    refine Growth.key_times_le le_rfl hlinear ?_
    rw [Growth.key_times_constant le_rfl, worst_counting]
  refine ⟨by decide, Relation.ofProcedure p [] q, rfl, ?_⟩
  rw [← Bool.not_eq_true, Growth.agrees_iff (holds_all _) (holds_all _)]
  intro hkey
  have hlt := lt_of_le_of_ne (Pattern.key_le_linear le_rfl (Growth.linear : Growth (Tolerant 0)))
    (times_linear (holds_all _)).2
  exact absurd (hkey ▸ hlocal) (not_le.mpr (hlt.trans_le hown))

/-- With the call of `b` outside all loops, the local cost of `a` is its own work. -/
theorem localCost_delegating :
    ((withCounting [countingCall]).procedures.map Procedure.name).Nodup
      ∧ ∃ rel : Relation (Tolerant 0),
        Relation.ofName? (withCounting [countingCall]) [] [97] = some rel
        ∧ rel.localCost.agrees
            (ownVerdict (withCounting [countingCall]) (fun _ => none)
              (afterwards [countingCall])).cases.worst = true := by
  let p := withCounting [countingCall]
  let q := afterwards [countingCall]
  have hG : ∀ n, (casesOf p n : Cases (Tolerant 0)).All Grid.all.Holds := fun _ => Grid.all_holds _
  have hhelpers : helpers (CallGraph.ofProgram p) q.name = [[98]] := by decide
  have hhelper : (casesOf p [98] : Cases (Tolerant 0)).worst.key
      ≤ (localCost p [] q : Growth (Tolerant 0)).key :=
    ((localCost_key_le_iff hG q []).mp le_rfl).2 _ (hhelpers ▸ List.mem_singleton_self _)
  have h := localCost_agrees_iff Grid.all p (by decide) hG [] q (by simp [p, q, withCounting])
    (Relation.ofProcedure p [] q) rfl fun c hc => absurd hc List.not_mem_nil
  refine ⟨by decide, Relation.ofProcedure p [] q, rfl, h.2.mpr fun w hw hleaves => ?_⟩
  have hweighted : q.body.weightedCalls (Growth.constant : Growth (Tolerant 0))
      = [(Growth.constant, ⟨⟨6, 5⟩, [98], [.name ⟨6, 12⟩ [110]]⟩),
        (Growth.constant, ⟨⟨7, 3⟩, [97], [.name ⟨7, 10⟩ [110]]⟩)] := rfl
  rw [hweighted] at hw
  rw [Growth.dominates_eq_false_iff (holds_all _) (holds_all _)]
  rcases List.mem_cons.mp hw with rfl | hw
  · rw [Growth.key_times_constant le_rfl]
    exact hhelper
  · -- The other call is the recursive one.
    rw [List.mem_singleton.mp hw] at hleaves
    exact absurd hleaves.2 (by decide)

end Exact

end Engine

end PseudoCost
