import PseudoCost.Proofs.Operations
import PseudoCost.Proofs.Patterns

/-!
# A procedure and what it calls

A procedure should not cost less than a procedure it calls, unless the two are on a call cycle. The
own work of a procedure has this property wherever a call stands (`Costing.le_block`), the steps of
loops apart: calls there are not part of the cost at all, so that nothing can be said of them. A
pattern of recursion may then forget the own work:

- the bound of the master theorem has no exponential part, so a recursion with dividing calls
  hides every exponential callee;
- a recursion with several subtracting calls, or with one inside a loop, is given an exponential
  growth of its own, however costly its callees are.

`Pattern.Covers` says that a growth is not lost in this way, and this is the exact condition: steps
of loops apart, a procedure costs no less than its callees exactly if its pattern covers them.
-/

namespace PseudoCost

open Recurrence Tolerant

variable {ε : ℝ} {G : Grid ε}

/-! ## No part of a cost is above the whole -/

namespace Verdict

variable {v w : Verdict (Tolerant ε)}

theorem le_sequence_left (hv : v.cases.All G.Holds) (hw : w.cases.All G.Holds) :
    v.cases.worst.key ≤ (v.sequence w).cases.worst.key := by
  rw [cases_sequence, Cases.max, Growth.key_max hv.worst hw.worst]
  exact le_max_left ..

theorem le_sequence_right (hv : v.cases.All G.Holds) (hw : w.cases.All G.Holds) :
    w.cases.worst.key ≤ (v.sequence w).cases.worst.key := by
  rw [cases_sequence, Cases.max, Growth.key_max hv.worst hw.worst]
  exact le_max_right ..

theorem le_repeated (hε : 0 ≤ ε) (shape : LoopShape) (line : Int) :
    v.cases.worst.key ≤ (v.repeated shape line).cases.worst.key := by
  rw [cases_repeated]
  exact Growth.key_le_key_times hε (isExponential_iterations hε _) (atLeastOnce_iterations _)

/-- The verdicts on a header and on a body are not above the verdict on their loop. -/
theorem le_loop {body header : Verdict (Tolerant ε)} (hbody : body.cases.All G.Holds)
    (hheader : header.cases.All G.Holds) (shape : LoopShape) (line : Int) :
    body.cases.worst.key ≤ ((body.sequence header).repeated shape line).cases.worst.key
      ∧ header.cases.worst.key
        ≤ ((body.sequence header).repeated shape line).cases.worst.key := by
  have hrepeated := le_repeated (v := body.sequence header) G.nonneg shape line
  exact ⟨(le_sequence_left hbody hheader).trans hrepeated,
    (le_sequence_right hbody hheader).trans hrepeated⟩

theorem le_branched {c t e : Verdict (Tolerant ε)} (hc : c.cases.All G.Holds)
    (ht : t.cases.All G.Holds) (he : e.cases.All G.Holds) :
    c.cases.worst.key ≤ (c.branched t e).cases.worst.key
      ∧ t.cases.worst.key ≤ (c.branched t e).cases.worst.key
      ∧ e.cases.worst.key ≤ (c.branched t e).cases.worst.key := by
  rw [cases_branched, Cases.max, Cases.either,
    Growth.key_max hc.worst (Growth.max_of_both ht.worst he.worst),
    Growth.key_max ht.worst he.worst]
  exact ⟨le_max_left .., le_max_of_le_right (le_max_left ..),
    le_max_of_le_right (le_max_right ..)⟩

end Verdict

namespace Costing

section Parts

variable {p : Program} {g : CallGraph} {v : Name → Verdict (Tolerant ε)}

theorem le_call (hv : ∀ n, (v n).cases.All G.Holds) (ctx : Context)
    {w : Verdict (Tolerant ε)} (hw : w.cases.All G.Holds) (c : Call) :
    w.cases.worst.key ≤ ((given p g v).call ctx w c).run.cases.worst.key
      ∧ (Asks p g ctx.caller c →
        (v c.callee).cases.worst.key ≤ ((given p g v).call ctx w c).run.cases.worst.key) := by
  simp only [call, given, Asks]
  by_cases hd : p.declares c.callee = true
  · by_cases hc : (ctx.caller.any fun n => g.onCycle n c.callee) = true
    · simp only [hd, hc, Bool.not_true, Bool.false_eq_true, if_false, if_true]
      refine ⟨?_, fun h => absurd h.2 (by simp)⟩
      split <;> exact le_refl _
    · simp only [hd, hc, Bool.not_true, Bool.false_eq_true, if_false]
      exact ⟨Verdict.le_sequence_left hw (hv _), fun _ => Verdict.le_sequence_right hw (hv _)⟩
  · simp only [hd]
    exact ⟨le_refl _, fun h => absurd h.1 (by simp)⟩

theorem le_foldl_call (hv : ∀ n, (v n).cases.All G.Holds) (ctx : Context) :
    ∀ (found : List Call) {w : Verdict (Tolerant ε)}, w.cases.All G.Holds →
    w.cases.worst.key
        ≤ (found.foldl (fun w c => ((given p g v).call ctx w c).run) w).cases.worst.key
      ∧ ∀ c ∈ found, Asks p g ctx.caller c → (v c.callee).cases.worst.key
        ≤ (found.foldl (fun w c => ((given p g v).call ctx w c).run) w).cases.worst.key
  | [], _, _ => ⟨le_refl _, fun _ hc => absurd hc List.not_mem_nil⟩
  | d :: found, w, hw => by
      have hstep := le_call (p := p) (g := g) hv ctx hw d
      have hholds : ((given p g v).call ctx w d).run.cases.All G.Holds :=
        G.closed.call (fun _ => hv _) hw
      obtain ⟨hacc, hfound⟩ := le_foldl_call hv ctx found hholds
      rw [List.foldl_cons]
      refine ⟨hstep.1.trans hacc, fun c hc hask => ?_⟩
      rcases List.mem_cons.mp hc with rfl | hc
      · exact (hstep.2 hask).trans hacc
      · exact hfound c hc hask

theorem le_calls (hv : ∀ n, (v n).cases.All G.Holds) (ctx : Context)
    {found : List Call} {c : Call} (hc : c ∈ found) (hask : Asks p g ctx.caller c) :
    (v c.callee).cases.worst.key ≤ ((given p g v).calls ctx found).run.cases.worst.key := by
  rw [calls, List.idRun_foldlM]
  exact (le_foldl_call hv ctx found G.closed.constant).2 c hc hask

variable (p g)

theorem calls_holds (hv : ∀ n, (v n).cases.All G.Holds) (ctx : Context) (found : List Call) :
    ((given p g v).calls ctx found).run.cases.All G.Holds :=
  G.closed.calls ctx found fun c _ _ => hv c.callee

theorem block_holds (hv : ∀ n, (v n).cases.All G.Holds) (ctx : Context) (b : Block) :
    ((given p g v).block ctx b).run.cases.All G.Holds :=
  G.closed.block ctx b fun c _ _ => hv c.callee

variable {p g}

mutual

theorem le_stmt (hv : ∀ n, (v n).cases.All G.Holds) (ctx : Context) {c : Call}
    (hask : Asks p g ctx.caller c) : ∀ s : Stmt, c ∈ s.costedCalls →
    (v c.callee).cases.worst.key ≤ ((given p g v).stmt ctx s).run.cases.worst.key
  | .forLoop pos control descending start stop step body, hc => by
      rw [Stmt.costedCalls, List.mem_append, List.mem_append] at hc
      rw [stmt]
      have hstart := calls_holds p g hv ctx start.calls
      have hstop := calls_holds p g hv ctx.enter stop.calls
      have hloop := Verdict.le_loop (block_holds p g hv ctx.enter body)
        (G.closed.sequence hstart hstop)
        (Stmt.forLoop pos control descending start stop step body).loopShape pos.line
      rcases hc with (hc | hc) | hc
      · exact (le_calls hv ctx hc hask).trans
          ((Verdict.le_sequence_left hstart hstop).trans hloop.2)
      · exact (le_calls hv ctx.enter hc hask).trans
          ((Verdict.le_sequence_right hstart hstop).trans hloop.2)
      · exact (le_block hv ctx.enter hask body hc).trans hloop.1
  | .whileLoop pos control cond body, hc => by
      rw [Stmt.costedCalls, List.mem_append] at hc
      rw [stmt]
      have hloop := Verdict.le_loop (block_holds p g hv ctx.enter body)
        (calls_holds p g hv ctx.enter cond.calls)
        (Stmt.whileLoop pos control cond body).loopShape pos.line
      rcases hc with hc | hc
      · exact (le_calls hv ctx.enter hc hask).trans hloop.2
      · exact (le_block hv ctx.enter hask body hc).trans hloop.1
  | .repeatLoop pos control body cond, hc => by
      rw [Stmt.costedCalls, List.mem_append] at hc
      rw [stmt]
      have hloop := Verdict.le_loop (block_holds p g hv ctx.enter body)
        (calls_holds p g hv ctx.enter cond.calls)
        (Stmt.repeatLoop pos control body cond).loopShape pos.line
      rcases hc with hc | hc
      · exact (le_block hv ctx.enter hask body hc).trans hloop.1
      · exact (le_calls hv ctx.enter hc hask).trans hloop.2
  | .conditional pos cond thenBlock (some elseBlock), hc => by
      rw [Stmt.costedCalls, List.mem_append, List.mem_append] at hc
      rw [stmt]
      obtain ⟨hcond, hthen, helse⟩ := Verdict.le_branched (calls_holds p g hv ctx cond.calls)
        (block_holds p g hv ctx thenBlock) (block_holds p g hv ctx elseBlock)
      rcases hc with (hc | hc) | hc
      · exact (le_calls hv ctx hc hask).trans hcond
      · exact (le_block hv ctx hask thenBlock hc).trans hthen
      · exact (le_block hv ctx hask elseBlock hc).trans helse
  | .conditional pos cond thenBlock none, hc => by
      rw [Stmt.costedCalls, List.mem_append] at hc
      rw [stmt]
      obtain ⟨hcond, hthen, -⟩ := Verdict.le_branched (calls_holds p g hv ctx cond.calls)
        (block_holds p g hv ctx thenBlock) G.closed.constant
      rcases hc with hc | hc
      · exact (le_calls hv ctx hc hask).trans hcond
      · exact (le_block hv ctx hask thenBlock hc).trans hthen
  | .assign .., hc => by
      rw [Stmt.costedCalls] at hc
      rw [stmt]
      exact le_calls hv ctx hc hask
  | .call .., hc => by
      rw [Stmt.costedCalls] at hc
      rw [stmt]
      exact le_calls hv ctx hc hask
  | .give .., hc => by
      rw [Stmt.costedCalls] at hc
      rw [stmt]
      exact le_calls hv ctx hc hask

/-- The verdict that a call in a block asks for is not above the cost of the block. -/
theorem le_block (hv : ∀ n, (v n).cases.All G.Holds) (ctx : Context) {c : Call}
    (hask : Asks p g ctx.caller c) : ∀ b : Block, c ∈ b.costedCalls →
    (v c.callee).cases.worst.key ≤ ((given p g v).block ctx b).run.cases.worst.key
  | .mk _ _ _ stmts, hc => by
      rw [Block.costedCalls] at hc
      rw [block]
      exact (le_list hv ctx hask stmts G.closed.constant).2 hc

theorem le_list (hv : ∀ n, (v n).cases.All G.Holds) (ctx : Context) {c : Call}
    (hask : Asks p g ctx.caller c) :
    ∀ (ss : List Stmt) {w : Verdict (Tolerant ε)}, w.cases.All G.Holds →
    w.cases.worst.key ≤ ((given p g v).list ctx w ss).run.cases.worst.key
      ∧ (c ∈ Stmt.costedCallsOf ss →
        (v c.callee).cases.worst.key ≤ ((given p g v).list ctx w ss).run.cases.worst.key)
  | [], w, _ => ⟨le_refl _, fun hc => absurd hc (by simp [Stmt.costedCallsOf])⟩
  | s :: ss, w, hw => by
      have hs : ((given p g v).stmt ctx s).run.cases.All G.Holds :=
        G.closed.stmt ctx s fun c _ _ => hv c.callee
      obtain ⟨hacc, hrest⟩ := le_list hv ctx hask ss (G.closed.sequence hw hs)
      rw [Stmt.costedCallsOf, List.mem_append, list]
      refine ⟨(Verdict.le_sequence_left hw hs).trans hacc, fun hc => ?_⟩
      rcases hc with hc | hc
      · exact ((le_stmt hv ctx hask s hc).trans (Verdict.le_sequence_right hw hs)).trans hacc
      · exact hrest hc

end

end Parts

end Costing

/-! ## Patterns that lose their callees -/

namespace Pattern

/-- The growth of a callee is not lost when the pattern takes the place of the own work. -/
def Covers (f : Growth (Tolerant ε)) : Pattern (Tolerant ε) → Prop
  | .linear | .splitting _ => True
  | .dividing .. => f.isExponential = false
  | .exponential base => f.dominates (Growth.exponential base) = false

theorem key_le_linear (hε : 0 ≤ ε) (f : Growth (Tolerant ε)) :
    f.key ≤ (f.times Growth.linear).key := by
  have hdegree : (Growth.linear : Growth (Tolerant ε)).degree.val = 1 := val_one
  exact Growth.key_le_key_times hε (Growth.isExponential_polynomial hε _ _)
    (Or.inl (by rw [hdegree]; norm_num))

/-- Costs that are not above the own work are not above the cost of a recursive procedure exactly
if the pattern covers them all; provided that the own work is exponential only where one of them
is. -/
theorem worst_ge_iff (p : Procedure) {own : Cases (Tolerant ε)} (pattern : Pattern (Tolerant ε))
    (hown : own.All G.Holds) (hcases : (pattern.cases p own).All G.Holds) {ι : Type}
    {C : ι → Prop} {f : ι → Growth (Tolerant ε)} (hf : ∀ i, G.Holds (f i))
    (hle : ∀ i, C i → (f i).key ≤ own.worst.key)
    (hpoly : (∀ i, C i → (f i).isExponential = false) → own.worst.isExponential = false) :
    (∀ i, C i → (f i).key ≤ (pattern.cases p own).worst.key)
      ↔ ∀ i, C i → pattern.Covers (f i) := by
  cases pattern with
  | linear =>
      refine iff_of_true (fun i hi => (hle i hi).trans ?_) fun _ _ => trivial
      exact key_le_linear G.nonneg _
  | splitting calls =>
      refine iff_of_true (fun i hi => (hle i hi).trans ?_) fun _ _ => trivial
      show _ ≤ (Growth.linear.times own.worst).key
      rw [Growth.key_linear_times G.nonneg]
      exact key_le_linear G.nonneg _
  | dividing calls divisor =>
      constructor
      · intro h i hi
        -- An exponential growth would be above the bound.
        rw [Covers, ← Bool.not_eq_true]
        exact fun hexp => absurd (h i hi) (not_le.mpr (masterBound_lt hexp G.nonneg))
      · intro h i hi
        exact (hle i hi).trans (key_le_masterBound hown.worst hcases.worst (hpoly h))
  | exponential base =>
      refine forall₂_congr fun i _ => ?_
      exact (Growth.dominates_eq_false_iff (hf i) hcases.worst).symm

end Pattern

/-! ## Programs -/

theorem Program.find?_of_mem {p : Program} (hnames : (p.procedures.map Procedure.name).Nodup)
    {q : Procedure} (hq : q ∈ p.procedures) : p.find? q.name = some q := by
  cases hfind : p.find? q.name with
  | none =>
      have h := List.find?_eq_none.mp hfind q hq
      simp at h
  | some r =>
      have hname : r.name = q.name := by simpa using List.find?_some hfind
      rw [List.inj_on_of_nodup_map hnames (List.mem_of_find?_eq_some hfind) hq hname]

namespace Engine

/-- A call in a procedure, to a declared one, that leaves the cycles of the procedure. -/
def Leaves (p : Program) (q : Procedure) (c : Call) : Prop :=
  p.declares c.callee = true ∧ (CallGraph.ofProgram p).onCycle q.name c.callee = false

/-- The worst case of a procedure does not compare below that of a callee. -/
def CostsAtLeast (ε : ℝ) (p : Program) (q : Procedure) (c : Call) : Prop :=
  ((casesOf p q.name : Cases (Tolerant ε)).worst.compare (casesOf p c.callee).worst).isGE = true

/-- The own work of a procedure is exponential only through a call. -/
theorem own_polynomial {p : Program} {q : Procedure} (hε : 0 ≤ ε)
    (h : ∀ c ∈ q.body.costedCalls, Leaves p q c →
      (casesOf p c.callee : Cases (Tolerant ε)).worst.isExponential = false) :
    (ownVerdict p (fun _ => none) q : Verdict (Tolerant ε)).cases.worst.isExponential = false := by
  refine (closed_polynomial hε).block _ q.body fun c hc hask => ?_
  rw [← casesOf_eq]
  exact h c hc ⟨hask.1, by simpa using hask.2⟩

section

variable {p : Program} (hG : ∀ n, (casesOf p n : Cases (Tolerant ε)).All G.Holds)
include hG

theorem ownVerdict_holds (q : Procedure) :
    (ownVerdict p (fun _ => none) q : Verdict (Tolerant ε)).cases.All G.Holds :=
  ownVerdict_of_closed G.closed (fun n => casesOf_eq (R := Tolerant ε) p n ▸ hG n) q

/-- What a procedure calls is not above its own work. -/
theorem callee_le_own {q : Procedure} {c : Call} (hc : c ∈ q.body.costedCalls)
    (hleaves : Leaves p q c) :
    (casesOf p c.callee : Cases (Tolerant ε)).worst.key
      ≤ (ownVerdict p (fun _ => none) q : Verdict (Tolerant ε)).cases.worst.key := by
  rw [casesOf_eq]
  exact Costing.le_block (fun n => casesOf_eq (R := Tolerant ε) p n ▸ hG n) _
    ⟨hleaves.1, by simpa using hleaves.2⟩ q.body hc

end

/-- A procedure costs no less than its callees, over the calls that count, exactly if its pattern
of recursion covers the costs of these callees. -/
theorem costedCallees_le_iff {p : Program} (hG : ∀ n, (casesOf p n).All G.Holds) {q : Procedure}
    (hfind : p.find? q.name = some q) :
    (∀ c ∈ q.body.costedCalls, Leaves p q c → CostsAtLeast ε p q c)
      ↔ ((CallGraph.ofProgram p).isRecursive q.name = true → ∀ c ∈ q.body.costedCalls,
        Leaves p q c → (Pattern.ofProcedure (CallGraph.ofProgram p) q
          (ownVerdict p (fun _ => none) q)).Covers (casesOf p c.callee : Cases (Tolerant ε)).worst)
      := by
  have hkey (c : Call) : CostsAtLeast ε p q c
      ↔ (casesOf p c.callee : Cases (Tolerant ε)).worst.key
        ≤ (casesOf p q.name : Cases (Tolerant ε)).worst.key :=
    Growth.isGE_compare_iff (hG _).worst (hG _).worst
  have hcases := hG q.name
  simp only [hkey, ← and_imp]
  rw [casesOf_eq p q.name, verdictOn_eq hfind, Verdict.withSolved, Verdict.ofBody] at hcases ⊢
  split at hcases
  · rename_i hrec
    rw [Pattern.recursive_cases] at hcases
    rw [if_pos hrec, Pattern.recursive_cases, imp_iff_right hrec]
    exact Pattern.worst_ge_iff q _ (ownVerdict_holds hG q) hcases (fun c => (hG c.callee).worst)
      (fun c hc => callee_le_own hG hc.1 hc.2)
      fun h => own_polynomial G.nonneg fun c hc hleaves => h c ⟨hc, hleaves⟩
  · rename_i hrec
    rw [if_neg hrec]
    exact iff_of_true (fun c hc => callee_le_own hG hc.1 hc.2) fun h => absurd h hrec

/-- **A procedure costs no less than what it calls, exactly if its pattern of recursion covers the
costs of its callees and the steps of its loops call nothing that costs more.** The first holds in
particular whenever the procedure is not recursive. The growths of the procedures lie on a grid,
which is no condition when comparisons are exact (`Grid.all`). -/
theorem callees_le_iff (G : Grid ε) (p : Program)
    (hnames : (p.procedures.map Procedure.name).Nodup) (hG : ∀ n, (casesOf p n).All G.Holds)
    (q : Procedure) (hq : q ∈ p.procedures) :
    (∀ c ∈ q.body.calls, Leaves p q c → CostsAtLeast ε p q c)
      ↔ ((CallGraph.ofProgram p).isRecursive q.name = true → ∀ c ∈ q.body.costedCalls,
        Leaves p q c → (Pattern.ofProcedure (CallGraph.ofProgram p) q
          (ownVerdict p (fun _ => none) q)).Covers (casesOf p c.callee : Cases (Tolerant ε)).worst)
        ∧ ∀ c ∈ q.body.stepCalls, Leaves p q c → CostsAtLeast ε p q c := by
  rw [← costedCallees_le_iff hG (Program.find?_of_mem hnames hq)]
  simp only [q.body.mem_calls_iff, or_imp, forall_and]

/-- The procedure `b`, which counts to `n`. -/
def counting : Procedure where
  pos := ⟨1, 1⟩
  name := [98]
  display := [98]
  params := [{ name := [110] }]
  body := .mk ⟨1, 1⟩ true ⟨3, 1⟩
    [.forLoop ⟨2, 1⟩ [105] false (.number ⟨2, 8⟩ (.finite false 1 1)) (.name ⟨2, 13⟩ [110]) none
      (.mk ⟨2, 15⟩ true ⟨2, 20⟩ [])]

/-- The procedure `a`, which calls `b` in the condition of a loop. -/
def waiting : Procedure where
  pos := ⟨4, 1⟩
  name := [97]
  display := [97]
  params := [{ name := [110] }]
  body := .mk ⟨4, 1⟩ true ⟨6, 1⟩
    [.whileLoop ⟨5, 1⟩ {} (.call ⟨5, 7⟩ [98] false [.name ⟨5, 9⟩ [110]])
      (.mk ⟨5, 12⟩ true ⟨5, 20⟩ [])]

theorem counting_le_waiting :
    CostsAtLeast 0 ⟨⟨1, 1⟩, [counting, waiting], none⟩ waiting
      ⟨⟨5, 7⟩, [98], [.name ⟨5, 9⟩ [110]]⟩ := by
  have h := callees_le_iff Grid.all ⟨⟨1, 1⟩, [counting, waiting], none⟩ (by decide)
    (fun _ => Grid.all_holds _) waiting (by simp)
  refine h.mpr ⟨fun hrec => absurd hrec (by decide), fun c hc => ?_⟩ _
    (List.mem_singleton.mpr rfl) ⟨by decide, by decide⟩
  exact absurd hc List.not_mem_nil

end Engine

end PseudoCost
