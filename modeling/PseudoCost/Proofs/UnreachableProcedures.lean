import PseudoCost.Analysis
import PseudoCost.Number.Double
import PseudoCost.Proofs.LocalCost

/-!
# Procedures that are never called

A program with a main body is judged by what that body reaches. Deleting the procedures of a name
that no chain of calls from the main body reaches changes neither the structural verdict, nor the
primary procedure, nor its relation, nor the report on them (`judge_without`).

The argument compares two runs. `Shares` says that two programs have the same main body and the
same declarations of the names in a set that calls do not leave; it is symmetric, so each fact is
proved from left to right only. On such names everything that is looked up coincides: procedures,
edges, reachability, verdicts. The one thing that sees the whole program is the bound on the search
for the primary procedure, the number of *all* edges. It is shown to be large enough not to matter
(`search_eq_of_le`): a search owes its pending names and the edges of the names not yet seen.
-/

namespace PseudoCost

open Recurrence

/-! ## Costs that agree call by call -/

namespace Costing

variable {R : Type} [Scalar R] {m : Type → Type} [Monad m] {env env' : Costing R m}

/-- A call costs the same in both surroundings, inside any number of loops. -/
def SameCall (env env' : Costing R m) (caller : Option Name) (c : Call) : Prop :=
  ∀ loops v, env.call ⟨caller, loops⟩ v c = env'.call ⟨caller, loops⟩ v c

theorem calls_congr (ctx : Context) : ∀ found : List Call,
    (∀ c ∈ found, SameCall env env' ctx.caller c) → env.calls ctx found = env'.calls ctx found := by
  intro found h
  have hfold : ∀ (found : List Call), (∀ c ∈ found, SameCall env env' ctx.caller c) → ∀ v,
      found.foldlM (env.call ctx) v = found.foldlM (env'.call ctx) v := by
    intro found
    induction found with
    | nil => exact fun _ _ => rfl
    | cons c cs ih =>
        intro h v
        rw [List.foldlM_cons, List.foldlM_cons, h c List.mem_cons_self ctx.loops v]
        exact bind_congr fun w => ih (fun k hk => h k (List.mem_cons_of_mem _ hk)) w
  exact hfold found h _

mutual

theorem stmt_congr (ctx : Context) : ∀ s : Stmt,
    (∀ c ∈ s.costedCalls, SameCall env env' ctx.caller c) → env.stmt ctx s = env'.stmt ctx s
  | .forLoop pos control descending start stop step body, h => by
      rw [stmt, stmt, calls_congr ctx start.calls fun c hc => h c (by simp [Stmt.costedCalls, hc]),
        calls_congr ctx.enter stop.calls fun c hc => h c (by simp [Stmt.costedCalls, hc]),
        block_congr ctx.enter body fun c hc => h c (by simp [Stmt.costedCalls, hc])]
  | .whileLoop pos control cond body, h => by
      rw [stmt, stmt,
        calls_congr ctx.enter cond.calls fun c hc => h c (by simp [Stmt.costedCalls, hc]),
        block_congr ctx.enter body fun c hc => h c (by simp [Stmt.costedCalls, hc])]
  | .repeatLoop pos control body cond, h => by
      rw [stmt, stmt,
        calls_congr ctx.enter cond.calls fun c hc => h c (by simp [Stmt.costedCalls, hc]),
        block_congr ctx.enter body fun c hc => h c (by simp [Stmt.costedCalls, hc])]
  | .conditional pos cond thenBlock (some elseBlock), h => by
      rw [stmt, stmt, calls_congr ctx cond.calls fun c hc => h c (by simp [Stmt.costedCalls, hc]),
        block_congr ctx thenBlock fun c hc => h c (by simp [Stmt.costedCalls, hc]),
        block_congr ctx elseBlock fun c hc => h c (by simp [Stmt.costedCalls, hc])]
  | .conditional pos cond thenBlock none, h => by
      rw [stmt, stmt, calls_congr ctx cond.calls fun c hc => h c (by simp [Stmt.costedCalls, hc]),
        block_congr ctx thenBlock fun c hc => h c (by simp [Stmt.costedCalls, hc])]
  | .assign .., h => by
      rw [stmt, stmt]
      exact calls_congr ctx _ (by simpa only [Stmt.costedCalls] using h)
  | .call .., h => by
      rw [stmt, stmt]
      exact calls_congr ctx _ (by simpa only [Stmt.costedCalls] using h)
  | .give .., h => by
      rw [stmt, stmt]
      exact calls_congr ctx _ (by simpa only [Stmt.costedCalls] using h)

/-- A block costs the same in two surroundings in which its calls do. -/
theorem block_congr (ctx : Context) : ∀ b : Block,
    (∀ c ∈ b.costedCalls, SameCall env env' ctx.caller c) → env.block ctx b = env'.block ctx b
  | .mk _ _ _ stmts, h => by
      rw [block, block]
      exact list_congr ctx stmts (by simpa only [Block.costedCalls] using h) _

theorem list_congr (ctx : Context) : ∀ ss : List Stmt,
    (∀ c ∈ Stmt.costedCallsOf ss, SameCall env env' ctx.caller c) →
    ∀ v, env.list ctx v ss = env'.list ctx v ss
  | [], _, v => by rw [list, list]
  | s :: ss, h, v => by
      rw [list, list, stmt_congr ctx s fun c hc => h c (by simp [Stmt.costedCallsOf, hc])]
      exact bind_congr fun w =>
        list_congr ctx ss (fun c hc => h c (by simp [Stmt.costedCallsOf, hc])) _

end

end Costing

/-! ## The search for a self-calling procedure -/

namespace CallGraph

/-- The number of edges that start at a name not seen yet. -/
def owed (seen : List Name) : List (Name × List Name) → Nat
  | [] => 0
  | (a, cs) :: edges => (if a ∈ seen then 0 else cs.length) + owed seen edges

theorem owed_nil : ∀ edges : List (Name × List Name),
    owed [] edges = (edges.flatMap Prod.snd).length
  | [] => rfl
  | (a, cs) :: edges => by simp [owed, owed_nil edges]

theorem owed_cons_le (n : Name) (seen : List Name) : ∀ edges : List (Name × List Name),
    owed (n :: seen) edges ≤ owed seen edges
  | [] => le_refl _
  | (a, cs) :: edges => by
      refine Nat.add_le_add ?_ (owed_cons_le n seen edges)
      by_cases ha : a ∈ seen
      · simp [ha]
      · by_cases han : a = n <;> simp [ha, han]

/-- Seeing a name pays for the edges that start at it. -/
theorem callees_add_owed_le {seen : List Name} {n : Name} (hn : n ∉ seen) :
    ∀ edges : List (Name × List Name),
      ((edges.lookup n).getD []).length + owed (n :: seen) edges ≤ owed seen edges
  | [] => le_refl _
  | (a, cs) :: edges => by
      by_cases han : a = n
      · subst han
        have hle := owed_cons_le a seen edges
        simpa [owed, hn] using hle
      · have ih := callees_add_owed_le hn edges
        have hna : (n == a) = false := by simpa using Ne.symm han
        simp only [List.lookup_cons, hna, owed, List.mem_cons, han, false_or]
        omega

variable {g g' : CallGraph}

/-- A search with room for its pending names and the edges it still owes does not use up its
steps, so any two such searches agree. -/
theorem search_eq_of_le : ∀ (steps steps' : Nat) (seen pending : List Name),
    pending.length + owed seen g.edges ≤ steps → pending.length + owed seen g.edges ≤ steps' →
    g.search steps seen pending = g.search steps' seen pending
  | steps, steps', _, [], _, _ => by cases steps <;> cases steps' <;> rfl
  | 0, _, _, n :: pending, h, _ => by simp at h
  | _, 0, _, n :: pending, _, h => by simp at h
  | steps + 1, steps' + 1, seen, n :: pending, h, h' => by
      rw [List.length_cons] at h h'
      rw [search, search]
      by_cases hn : seen.contains n = true
      · rw [if_pos hn, if_pos hn]
        exact search_eq_of_le steps steps' seen pending (by omega) (by omega)
      · rw [if_neg hn, if_neg hn]
        by_cases hself : g.callsSelf n = true
        · rw [if_pos hself, if_pos hself]
        · rw [if_neg hself, if_neg hself]
          have howed : (g.callees n).length + owed (n :: seen) g.edges ≤ owed seen g.edges :=
            callees_add_owed_le (by simpa using hn) g.edges
          refine search_eq_of_le steps steps' _ _ ?_ ?_ <;>
            · rw [List.length_append]
              omega

/-- Two graphs have the same callees of the names in a set that calls do not leave. -/
structure SameCallees (S : Set Name) (g g' : CallGraph) : Prop where
  callees : ∀ n ∈ S, g.callees n = g'.callees n
  closed : ∀ n ∈ S, ∀ c ∈ g.callees n, c ∈ S

variable {S : Set Name}

theorem SameCallees.symm (h : SameCallees S g g') : SameCallees S g' g where
  callees n hn := (h.callees n hn).symm
  closed n hn c hc := h.closed n hn c (by rwa [h.callees n hn])

theorem SameCallees.search (h : SameCallees S g g') : ∀ (steps : Nat) (seen pending : List Name),
    (∀ n ∈ pending, n ∈ S) → g.search steps seen pending = g'.search steps seen pending
  | 0, _, _, _ => rfl
  | _ + 1, _, [], _ => rfl
  | steps + 1, seen, n :: pending, hp => by
      have hn : n ∈ S := hp n List.mem_cons_self
      have hpending : ∀ k ∈ pending, k ∈ S := fun k hk => hp k (List.mem_cons_of_mem _ hk)
      rw [CallGraph.search, CallGraph.search, callsSelf, callsSelf, h.callees n hn]
      refine if_congr Iff.rfl (h.search steps seen pending hpending) ?_
      refine if_congr Iff.rfl rfl (h.search steps _ _ fun k hk => ?_)
      rcases List.mem_append.mp hk with hk | hk
      · exact hpending k hk
      · exact h.closed n hn k (by rwa [h.callees n hn])

/-- A search that starts inside the set ends inside it. -/
theorem SameCallees.search_mem (h : SameCallees S g g') :
    ∀ (steps : Nat) (seen pending : List Name), (∀ n ∈ pending, n ∈ S) →
      ∀ n, g.search steps seen pending = some n → n ∈ S
  | 0, _, _, _, n, hn => by cases hn
  | _ + 1, _, [], _, n, hn => by cases hn
  | steps + 1, seen, k :: pending, hp, n, hn => by
      have hk : k ∈ S := hp k List.mem_cons_self
      have hpending : ∀ k ∈ pending, k ∈ S := fun k hk => hp k (List.mem_cons_of_mem _ hk)
      rw [CallGraph.search] at hn
      split at hn
      · exact h.search_mem steps seen pending hpending n hn
      · split at hn
        · obtain rfl := Option.some.inj hn
          exact hk
        · refine h.search_mem steps _ _ (fun c hc => ?_) n hn
          rcases List.mem_append.mp hc with hc | hc
          · exact hpending c hc
          · exact h.closed k hk c hc

theorem SameCallees.nearestSelfCaller (h : SameCallees S g g') {starts : List Name}
    (hstarts : ∀ n ∈ starts, n ∈ S) : g.nearestSelfCaller starts = g'.nearestSelfCaller starts := by
  have hg : owed [] g.edges = g.edgeCount := owed_nil _
  have hg' : owed [] g'.edges = g'.edgeCount := owed_nil _
  let steps := starts.length + g.edgeCount + g'.edgeCount
  calc g.search (starts.length + g.edgeCount) [] starts
      = g.search steps [] starts := search_eq_of_le _ _ _ _ (by omega) (by omega)
    _ = g'.search steps [] starts := h.search steps [] starts hstarts
    _ = g'.search (starts.length + g'.edgeCount) [] starts :=
        search_eq_of_le _ _ _ _ (by omega) (by omega)

theorem SameCallees.reaches_of (h : SameCallees S g g') {a b : Name} (ha : a ∈ S)
    (hab : Relation.TransGen g.Edge a b) : b ∈ S ∧ Relation.TransGen g'.Edge a b := by
  have hedge : ∀ {x y}, x ∈ S → g.Edge x y → y ∈ S ∧ g'.Edge x y := by
    intro x y hx hxy
    refine ⟨h.closed x hx y hxy, ?_⟩
    rw [Edge, ← h.callees x hx]
    exact hxy
  induction hab with
  | single hb =>
      obtain ⟨hbS, hb'⟩ := hedge ha hb
      exact ⟨hbS, .single hb'⟩
  | tail _ hbc ih =>
      obtain ⟨hcS, hc'⟩ := hedge ih.1 hbc
      exact ⟨hcS, ih.2.tail hc'⟩

theorem SameCallees.reaches (h : SameCallees S g g') (hg : g.Declared) (hg' : g'.Declared)
    {a : Name} (ha : a ∈ S) (b : Name) : g.reaches a b = g'.reaches a b := by
  rw [Bool.eq_iff_iff, reaches_iff hg, reaches_iff hg']
  exact ⟨fun hab => (h.reaches_of ha hab).2, fun hab => (h.symm.reaches_of ha hab).2⟩

theorem SameCallees.callsSelf (h : SameCallees S g g') {n : Name} (hn : n ∈ S) :
    g.callsSelf n = g'.callsSelf n := by
  rw [CallGraph.callsSelf, CallGraph.callsSelf, h.callees n hn]

end CallGraph

/-! ## Programs that share what they reach -/

namespace Program

/-- The program without the procedures of a name. -/
def without (p : Program) (n : Name) : Program :=
  { p with procedures := p.procedures.filter (·.name != n) }

/-- A chain of calls leads from the main body to a name. -/
inductive Reached (p : Program) : Name → Prop where
  | main {b : Block} {c : Call} (hb : p.main = some b) (hc : c ∈ b.calls) : Reached p c.callee
  | call {q : Procedure} {c : Call} (hname : Reached p q.name) (hq : q ∈ p.procedures)
      (hc : c ∈ q.body.calls) : Reached p c.callee

/-- Two programs have the same main body and the same declarations of the names in a set that
calls do not leave. -/
structure Shares (S : Set Name) (p p' : Program) : Prop where
  main : p.main = p'.main
  declared : ∀ n ∈ S, p.procedures.filter (·.name == n) = p'.procedures.filter (·.name == n)
  mainCalls : ∀ b, p.main = some b → ∀ c ∈ b.calls, c.callee ∈ S
  calls : ∀ q ∈ p.procedures, q.name ∈ S → ∀ c ∈ q.body.calls, c.callee ∈ S

/-- Without a name that is not reached, a program shares with itself all that is reached. -/
theorem shares_without {p : Program} {n : Name} (hn : ¬p.Reached n) :
    Shares {k | p.Reached k} p (p.without n) where
  main := rfl
  declared := by
    intro k hk
    rw [without, List.filter_filter]
    refine List.filter_congr fun q _ => ?_
    by_cases hq : q.name = k
    · have hkn : k ≠ n := fun h => hn (h ▸ hk)
      simp [hq, hkn]
    · simp [hq]
  mainCalls b hb c hc := .main hb hc
  calls q hq hname c hc := .call hname hq hc

namespace Shares

variable {S : Set Name} {p p' : Program}

theorem mem_iff (h : Shares S p p') {q : Procedure} (hq : q.name ∈ S) :
    q ∈ p.procedures ↔ q ∈ p'.procedures := by
  have hmem : q ∈ p.procedures.filter (·.name == q.name)
      ↔ q ∈ p'.procedures.filter (·.name == q.name) := by
    rw [h.declared q.name hq]
  simpa using hmem

theorem symm (h : Shares S p p') : Shares S p' p where
  main := h.main.symm
  declared n hn := (h.declared n hn).symm
  mainCalls b hb := h.mainCalls b (h.main.trans hb)
  calls q hq hname := h.calls q ((h.mem_iff hname).mpr hq) hname

theorem find? (h : Shares S p p') {n : Name} (hn : n ∈ S) : p.find? n = p'.find? n := by
  rw [Program.find?, Program.find?, ← List.head?_filter, ← List.head?_filter, h.declared n hn]

theorem declares (h : Shares S p p') {n : Name} (hn : n ∈ S) : p.declares n = p'.declares n := by
  rw [Program.declares, Program.declares, h.find? hn]

theorem entry? (h : Shares S p p') : p.entry? = p'.entry? := by
  unfold Program.entry?
  rw [h.main]

theorem declaredCalls (h : Shares S p p') {b : Block} (hb : ∀ c ∈ b.calls, c.callee ∈ S) :
    CallGraph.declaredCalls p b = CallGraph.declaredCalls p' b := by
  refine List.filter_congr fun n hn => ?_
  obtain ⟨c, hc, rfl⟩ := List.mem_map.mp hn
  exact h.declares (hb c hc)

theorem callsOf (h : Shares S p p') {n : Name} (hn : n ∈ S) :
    CallGraph.callsOf p n = CallGraph.callsOf p' n := by
  rw [CallGraph.callsOf, CallGraph.callsOf, ← h.declared n hn]
  refine List.flatMap_congr fun q hq => ?_
  obtain ⟨hq, hname⟩ := List.mem_filter.mp hq
  rw [beq_iff_eq] at hname
  exact h.declaredCalls (h.calls q hq (hname ▸ hn))

end Shares

end Program

namespace CallGraph

theorem callees_ofProgram (p : Program) (n : Name) :
    (ofProgram p).callees n = Text.sortDistinct (callsOf p n) := by
  rw [callees, ofProgram, lookup_map_self]
  split
  · rfl
  · rename_i hn
    have hnone : p.procedures.filter (·.name == n) = [] := by
      refine List.filter_eq_nil_iff.mpr fun q hq => ?_
      rw [beq_iff_eq]
      rintro rfl
      exact hn (List.mem_map_of_mem hq)
    rw [callsOf, hnone]
    rfl

end CallGraph

namespace Program.Shares

variable {S : Set Name} {p p' : Program}

theorem sameCallees (h : Shares S p p') :
    CallGraph.SameCallees S (CallGraph.ofProgram p) (CallGraph.ofProgram p') where
  callees n hn := by
    rw [CallGraph.callees_ofProgram, CallGraph.callees_ofProgram, h.callsOf hn]
  closed := by
    intro n hn k hk
    obtain ⟨q, hq, rfl, hcall⟩ := CallGraph.edge_ofProgram_iff.mp hk
    obtain ⟨⟨c, hc, rfl⟩, -⟩ := CallGraph.mem_declaredCalls.mp hcall
    exact h.calls q hq hn c hc

theorem mainCalls_eq (h : Shares S p p') :
    (CallGraph.ofProgram p).mainCalls = (CallGraph.ofProgram p').mainCalls := by
  show (p.main.toList.flatMap _).eraseDups = (p'.main.toList.flatMap _).eraseDups
  rw [← h.main]
  refine congrArg List.eraseDups (List.flatMap_congr fun b hb => ?_)
  exact h.declaredCalls (h.mainCalls b (Option.mem_toList.mp hb))

theorem mainCalls_mem (h : Shares S p p') : ∀ n ∈ (CallGraph.ofProgram p).mainCalls, n ∈ S := by
  intro n hn
  rw [CallGraph.ofProgram, List.mem_eraseDups, List.mem_flatMap] at hn
  obtain ⟨b, hb, hcall⟩ := hn
  obtain ⟨⟨c, hc, rfl⟩, -⟩ := CallGraph.mem_declaredCalls.mp hcall
  exact h.mainCalls b (Option.mem_toList.mp hb) c hc

theorem reaches (h : Shares S p p') {a : Name} (ha : a ∈ S) (b : Name) :
    (CallGraph.ofProgram p).reaches a b = (CallGraph.ofProgram p').reaches a b :=
  h.sameCallees.reaches (CallGraph.ofProgram_declared p) (CallGraph.ofProgram_declared p') ha b

theorem onCycle (h : Shares S p p') {a b : Name} (ha : a ∈ S) (hb : b ∈ S) :
    (CallGraph.ofProgram p).onCycle a b = (CallGraph.ofProgram p').onCycle a b := by
  rw [CallGraph.onCycle, CallGraph.onCycle, h.reaches ha, h.reaches hb]

/-- With a main body, the primary procedure is looked for among what that body reaches. -/
theorem primary? (h : Shares S p p') {main : Block} (hmain : p.entry? = some main) :
    p.primary? = p'.primary? ∧ ∀ n, p.primary? = some n → n ∈ S := by
  have hmain' : p'.entry? = some main := h.entry? ▸ hmain
  rw [Program.primary?, Program.primary?, hmain, hmain']
  refine ⟨?_, fun n hn => ?_⟩
  · show CallGraph.nearestSelfCaller _ _ = CallGraph.nearestSelfCaller _ _
    rw [h.mainCalls_eq, h.sameCallees.nearestSelfCaller]
    rw [← h.mainCalls_eq]
    exact h.mainCalls_mem
  · exact h.sameCallees.search_mem _ _ _ h.mainCalls_mem n hn

end Program.Shares

/-! ## Verdicts -/

namespace Program.Shares

variable {S : Set Name} {p p' : Program} {R : Type} [Scalar R] {solved : Name → Option (Cases R)}

/-- A call to a shared name costs the same in both programs, if the verdict that it asks for is the
same. -/
theorem sameCall (h : Shares S p p') {caller : Option Name} (hcaller : ∀ n, caller = some n → n ∈ S)
    {c : Call} (hc : c.callee ∈ S) {v v' : Name → Verdict R}
    (hv : Costing.Asks p (CallGraph.ofProgram p) caller c → v c.callee = v' c.callee) :
    Costing.SameCall (Costing.given p (CallGraph.ofProgram p) v)
      (Costing.given p' (CallGraph.ofProgram p') v') caller c := by
  intro loops w
  have hcycle : (caller.any fun n => (CallGraph.ofProgram p).onCycle n c.callee)
      = caller.any fun n => (CallGraph.ofProgram p').onCycle n c.callee := by
    cases caller with
    | none => rw [Option.any_none, Option.any_none]
    | some n => rw [Option.any_some, Option.any_some, h.onCycle (hcaller n rfl) hc]
  simp only [Costing.call, Costing.given, h.declares hc, hcycle]
  by_cases hd : p'.declares c.callee = true
  · by_cases hon : (caller.any fun n => (CallGraph.ofProgram p').onCycle n c.callee) = true
    · simp [hd, hon]
    · have hcallee := hv ⟨(h.declares hc).trans hd, hcycle.trans (by simpa using hon)⟩
      simp [hd, hon, hcallee]
  · simp [hd]

/-- Shared names have the same verdicts. The induction is on the number of procedures that a name
reaches. -/
theorem verdictOn (h : Shares S p p') (n : Name) (hn : n ∈ S) :
    Engine.verdictOn p solved n = Engine.verdictOn p' solved n := by
  induction hrank : (CallGraph.ofProgram p).rank n using Nat.strongRecOn generalizing n with
  | _ k ih =>
    subst hrank
    cases hq : p.find? n with
    | none =>
        have hq' : p'.find? n = none := (h.find? hn).symm.trans hq
        rw [Engine.verdictOn_of_unknown hq, Engine.verdictOn_of_unknown hq']
    | some q =>
        have hname : q.name = n := by simpa using List.find?_some hq
        have hmem : q ∈ p.procedures := List.mem_of_find?_eq_some hq
        have hdecl : n ∈ (CallGraph.ofProgram p).order :=
          CallGraph.declares_iff.mp (by simp [Program.declares, hq])
        have hown : Engine.ownVerdict p solved q = Engine.ownVerdict p' solved q := by
          rw [Engine.ownVerdict, Engine.ownVerdict, Costing.block_congr _ q.body fun c hc => ?_]
          have hcS : c.callee ∈ S := h.calls q hmem (hname ▸ hn) c (q.body.costedCalls_subset hc)
          refine h.sameCall (fun k hk => ?_) hcS fun hask => ?_
          · obtain rfl := Option.some.inj hk
            exact hname ▸ hn
          · have hedge := CallGraph.edge_of_call hq (q.body.costedCalls_subset hc) hask.1
            obtain ⟨hne, hbelow⟩ := (CallGraph.onCycle_eq_false_iff
              (CallGraph.ofProgram_declared p) hedge).mp (by simpa [hname] using hask.2)
            exact ih _ (CallGraph.rank_lt (CallGraph.ofProgram_declared p) hdecl hne hbelow) _ hcS
              rfl
        have hself := h.sameCallees.callsSelf hn
        rw [Engine.verdictOn_eq hq, Engine.verdictOn_eq ((h.find? hn).symm.trans hq), hown]
        simp only [Verdict.ofBody, Verdict.recursive, CallGraph.isRecursive, hname, h.reaches hn,
          hself]

theorem programVerdict (h : Shares S p p') {main : Block} (hmain : p.entry? = some main) :
    Engine.programVerdict p solved = Engine.programVerdict p' solved := by
  have hmain' : p'.entry? = some main := h.entry? ▸ hmain
  rw [Engine.programVerdict, Engine.programVerdict, hmain, hmain']
  dsimp only
  rw [Costing.block_congr _ main fun c hc => ?_]
  have hb : p.main = some main := (Option.filter_eq_some_iff.mp hmain).1
  have hcS : c.callee ∈ S := h.mainCalls main hb c (main.costedCalls_subset hc)
  exact h.sameCall (fun n hn => by cases hn) hcS fun _ => h.verdictOn _ hcS

end Program.Shares

/-! ## What the analysis asks of an engine -/

section Asked

variable {R : Type} [Scalar R] (p : Program)

/-- Whether the whole program costs what a procedure costs, without an engine. -/
def wholeCostIs (R : Type) [Scalar R] (p : Program) (n : Name) : Bool :=
  p.declares n && (Engine.programVerdict p (fun _ => none) : Verdict R).cases.agrees
    (Engine.verdictOn p (fun _ => none) n).cases

theorem entryCostIs_gives (n : Name) :
    Gives (Engine.Faithful p []) (Engine.entryCostIs (R := R) n) (wholeCostIs R p n) :=
  Engine.costAgrees_gives (m := Id) Verdict.constant n

/-- What becomes of the verdict on a program in view of a solved procedure, without an engine. -/
def placed (n : Name) (s : Solution R) (v : Verdict R) : Verdict R × Bool :=
  if wholeCostIs R p n then (v, true)
  else
    let own := (Engine.verdictOn p (fun _ => none) n).cases
    (Engine.programVerdict p fun k => [(n, Cases.widened s.bound own)].lookup k, false)

theorem placeSolution_run (n : Name) (s : Solution R) (v : Verdict R) {e : Engine R}
    (he : Engine.Faithful p [] e) :
    ((Analysis.placeSolution n s v).run e).1 = placed p n s v := by
  obtain ⟨e₁, h₁, he₁⟩ := entryCostIs_gives p n e he
  obtain ⟨e₂, h₂, he₂⟩ := Engine.runProcedure_gives (m := Id) Verdict.constant n e₁ he₁
  have he₃ := Engine.faithful_useSolved he₂ n
    (Cases.widened s.bound (Engine.verdictOn p (fun _ => none) n).cases)
  obtain ⟨e₄, h₄, -⟩ := Engine.runProgram_gives (m := Id) Verdict.constant _ he₃
  rw [Analysis.placeSolution, placed, StateT.run_bind, h₁]
  cases wholeCostIs R p n with
  | true => rfl
  | false =>
      show ((Engine.procedure n >>= _ : StateM (Engine R) _).run e₁).1 = _
      rw [StateT.run_bind, Engine.procedure, h₂]
      exact congrArg (fun r : Verdict R × Engine R => (r.1, false)) h₄

/-! The stages of an analysis that is not measured. -/

theorem stage_silent {α : Type} (name : Text) (work : Unit → α) :
    (Probe.silent (m := Id)).stage name work = pure (work ()) := rfl

theorem solve_silent (rel : Relation R) :
    Analysis.solve (Probe.silent (m := Id)) rel = pure (solve rel) := by
  rw [Analysis.solve, stage_silent, pure_bind]
  cases solve rel <;> rfl

/-- The recursion tree of a relation, if one is asked for. -/
def treeOf (options : Analysis.Options) (rel : Relation R) : Option (CallTree R) :=
  if options.buildTree then
    some ({ relation := rel, maxDepth := options.treeDepth } : TreePlan R).tree
  else none

theorem draw_silent (options : Analysis.Options) (rel : Relation R) :
    Analysis.draw (Probe.silent (m := Id)) options rel = pure (treeOf options rel) := by
  rw [Analysis.draw, treeOf]
  cases options.buildTree <;> rfl

/-- The report on a program and the recurrence of its primary procedure, without an engine. -/
def reportOn (options : Analysis.Options) : Option (Name × Relation R) → Report R
  | none => Report.resolve (Engine.programVerdict p fun _ => none) none none none true
  | some (n, rel) =>
    let first := Engine.programVerdict p fun _ => none
    let settled :=
      match solve rel with
      | .solved s => placed p n s first
      | .unsolvable .. => (first, true)
    Report.resolve settled.1 (some rel) (some (solve rel)) (treeOf options rel) settled.2

theorem judge_run (options : Analysis.Options) (source : Text) :
    Id.run (Analysis.judge (R := R) Probe.silent options source p)
      = reportOn p options (Analysis.primaryRelation? p source) := by
  obtain ⟨e, he, hfaithful⟩ := Engine.runProgram_gives (m := Id) Verdict.constant _
    (Engine.faithful_ofProgram (R := R) p)
  have hanalyze : Engine.analyze.run (Engine.ofProgram (R := R) p)
      = (Engine.programVerdict p fun _ => none, e) := he
  unfold Analysis.judge
  simp only [stage_silent, solve_silent, draw_silent, pure_bind, hanalyze]
  rcases Analysis.primaryRelation? p source with _ | ⟨n, rel⟩
  · rfl
  · dsimp only [reportOn]
    cases solve rel with
    | solved s => simp [placeSolution_run p n s _ hfaithful]
    | unsolvable reason steps => rfl

end Asked

/-! ## Deleting procedures -/

namespace Program.Shares

variable {S : Set Name} {p p' : Program} {R : Type} [Scalar R]

/-- The cost outside the recursive calls is the same. The source has no part in it. -/
theorem localCost (h : Shares S p p') {q : Procedure} (hq : q.name ∈ S) (source source' : Text) :
    (Recurrence.localCost p source q : Growth R) = Recurrence.localCost p' source' q := by
  have hcallee : ∀ n ∈ (CallGraph.ofProgram p).callees q.name, n ∈ S :=
    h.sameCallees.closed q.name hq
  refine localCost_congr (List.forall₂_same.mpr fun _ _ => ⟨rfl, rfl⟩) ?_ (fun n hn => ?_) _ _
  · rw [helpers, helpers, ← h.sameCallees.callees q.name hq]
    refine List.filter_congr fun n hn => ?_
    rw [h.reaches (hcallee n hn)]
  · rw [h.verdictOn n (hcallee n (List.mem_filter.mp hn).1)]

theorem relation (h : Shares S p p') {n : Name} (hn : n ∈ S) (source source' : Text) :
    (Relation.ofName? p source n : Option (Relation R)) = Relation.ofName? p' source' n := by
  rw [Relation.ofName?, Relation.ofName?, h.find? hn]
  refine Option.map_congr fun q hq => ?_
  have hname : q.name = n := by
    simpa using List.find?_some (Option.filter_eq_some_iff.mp hq).1
  rw [Relation.ofProcedure, Relation.ofProcedure, h.localCost (hname ▸ hn) source source']

theorem wholeCostIs (h : Shares S p p') {main : Block} (hmain : p.entry? = some main) {n : Name}
    (hn : n ∈ S) : PseudoCost.wholeCostIs R p n = PseudoCost.wholeCostIs R p' n := by
  rw [PseudoCost.wholeCostIs, PseudoCost.wholeCostIs, h.declares hn, h.programVerdict hmain,
    h.verdictOn n hn]

theorem placed (h : Shares S p p') {main : Block} (hmain : p.entry? = some main) {n : Name}
    (hn : n ∈ S) (s : Solution R) (v : Verdict R) :
    PseudoCost.placed p n s v = PseudoCost.placed p' n s v := by
  simp only [PseudoCost.placed]
  rw [h.wholeCostIs hmain hn, h.verdictOn n hn, h.programVerdict hmain]

theorem primaryRelation? (h : Shares S p p') {main : Block} (hmain : p.entry? = some main)
    (source source' : Text) :
    (Analysis.primaryRelation? p source : Option (Name × Relation R))
      = Analysis.primaryRelation? p' source' := by
  obtain ⟨hprimary, hmem⟩ := h.primary? hmain
  rw [Analysis.primaryRelation?, Analysis.primaryRelation?, ← hprimary]
  refine Option.bind_congr fun n hn => ?_
  rw [h.relation (hmem n hn) source source']

theorem reportOn (h : Shares S p p') {main : Block} (hmain : p.entry? = some main)
    (options : Analysis.Options) (source source' : Text) :
    (PseudoCost.reportOn p options (Analysis.primaryRelation? p source) : Report R)
      = PseudoCost.reportOn p' options (Analysis.primaryRelation? p' source') := by
  rw [← h.primaryRelation? hmain source source']
  cases hrel : (Analysis.primaryRelation? p source : Option (Name × Relation R)) with
  | none => rw [PseudoCost.reportOn, PseudoCost.reportOn, h.programVerdict hmain]
  | some pair =>
      obtain ⟨k, hk, rel, -, rfl⟩ : ∃ k, p.primary? = some k ∧ ∃ rel : Relation R,
          Relation.ofName? p source k = some rel ∧ (k, rel) = pair := by
        simpa [Analysis.primaryRelation?, Option.bind_eq_some_iff] using hrel
      have hkS := (h.primary? hmain).2 k hk
      simp only [PseudoCost.reportOn, h.programVerdict hmain, h.placed hmain hkS]

end Program.Shares

namespace Analysis

variable {R : Type} [Scalar R]

theorem entryCostIs_ofProgram (p : Program) (n : Name) :
    ((Engine.entryCostIs n).run (Engine.ofProgram (R := R) p)).run.1 = wholeCostIs R p n := by
  obtain ⟨e, he, -⟩ := entryCostIs_gives p n _ (Engine.faithful_ofProgram (R := R) p)
  rw [he]
  rfl

/-- **Procedures that are never called do not show.** Deleting all procedures of a name that no
chain of calls from a non-empty main body reaches changes neither the structural verdict, nor which
procedure is the primary one, nor its relation, nor whether the program costs what it costs, nor
the report on them: the outcome of the solver, the cases, the method and the justification. The
sources may differ, as they do when the procedures are deleted from the text. -/
theorem judge_without (p : Program) {main : Block} (hmain : p.entry? = some main) {n : Name}
    (hn : ¬p.Reached n) (options : Options) (source source' : Text) :
    (Engine.analyze.run (Engine.ofProgram (R := R) (p.without n))).run.1
        = (Engine.analyze.run (Engine.ofProgram p)).run.1
      ∧ (p.without n).primary? = p.primary?
      ∧ (∀ k, p.primary? = some k →
        (Relation.ofName? (p.without n) source' k : Option (Relation R))
            = Relation.ofName? p source k
          ∧ ((Engine.entryCostIs k).run (Engine.ofProgram (R := R) (p.without n))).run.1
            = ((Engine.entryCostIs k).run (Engine.ofProgram (R := R) p)).run.1)
      ∧ Id.run (judge (R := R) Probe.silent options source' (p.without n))
        = Id.run (judge Probe.silent options source p) := by
  have hshares := Program.shares_without hn
  obtain ⟨hprimary, hmem⟩ := hshares.primary? hmain
  refine ⟨?_, hprimary.symm, fun k hk => ⟨?_, ?_⟩, ?_⟩
  · rw [Engine.analyze_ofProgram, Engine.analyze_ofProgram, hshares.programVerdict hmain]
  · exact (hshares.relation (hmem k hk) source source').symm
  · rw [entryCostIs_ofProgram, entryCostIs_ofProgram, hshares.wholeCostIs hmain (hmem k hk)]
  · rw [judge_run, judge_run, hshares.reportOn hmain options source source']

/-- A procedure `name(n)` that calls the given ones on `n - 1`, one after another. -/
def descending (name : Name) (callees : List Name) : Procedure where
  pos := ⟨1, 1⟩
  name := name
  display := name
  params := [{ name := [110] }]
  body := .mk ⟨1, 1⟩ true ⟨3, 1⟩ (callees.map fun callee =>
    .call ⟨2, 1⟩ callee true
      [.binary ⟨2, 3⟩ .sub (.name ⟨2, 3⟩ [110]) (.number ⟨2, 7⟩ (.finite false 1 1))])

/-- The main body calls `a`, which calls itself. No one calls `b`, which calls `a` and itself. -/
def withIdleProcedure : Program where
  pos := ⟨1, 1⟩
  procedures := [descending [97] [[97]], descending [98] [[97], [98], [98]]]
  main := some (.mk ⟨4, 1⟩ true ⟨6, 1⟩ [.call ⟨5, 1⟩ [97] true [.name ⟨5, 3⟩ [110]]])

theorem not_reached_idle : ¬withIdleProcedure.Reached [98] := by
  have hreached : ∀ k, withIdleProcedure.Reached k → k = [97] := by
    intro k hk
    induction hk with
    | main hb hc =>
        obtain rfl := Option.some.inj hb
        obtain rfl := List.mem_singleton.mp hc
        rfl
    | call _ hq hc ih =>
        rcases List.mem_cons.mp hq with rfl | hq
        · obtain rfl := List.mem_singleton.mp hc
          rfl
        · obtain rfl := List.mem_singleton.mp hq
          exact absurd ih (by decide)
  intro h
  exact absurd (hreached _ h) (by decide)

theorem judge_without_idle :
    ¬withIdleProcedure.Reached [98] ∧ withIdleProcedure.primary? = some [97]
      ∧ (Engine.analyze.run (Engine.ofProgram (R := Double) (withIdleProcedure.without [98]))).run.1
        = (Engine.analyze.run (Engine.ofProgram withIdleProcedure)).run.1
      ∧ Id.run (judge (R := Double) Probe.silent {} [] (withIdleProcedure.without [98]))
        = Id.run (judge Probe.silent {} [] withIdleProcedure) := by
  obtain ⟨hanalyze, -, -, hjudge⟩ := judge_without (R := Double) withIdleProcedure rfl
    not_reached_idle {} [] []
  exact ⟨not_reached_idle, by decide, hanalyze, hjudge⟩

end Analysis

end PseudoCost
