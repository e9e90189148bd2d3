import PseudoCost.Proofs.Costing
import PseudoCost.Proofs.Reachability

/-!
# The engine's memory is transparent

An engine keeps the verdicts it has found, and while it judges a procedure it judges the callees.
This module takes both out of the picture. `verdictOn` is the verdict of an engine that knows
nothing yet, and `judge_gives` says that *every* run of `judge` ends in it: whatever the memory
holds, as long as it holds such verdicts, and whichever procedures are being judged, as long as
each of them reaches the one at hand and is not reached back. That second invariant is the point.
A call that stays on a cycle of its caller is never followed, so following a call leads strictly
below every procedure that is being judged, and none of them is ever met again.

The statement holds in every lawful monad and for every `again`, what is done at a procedure met
again. In a monad that can fail, with failure as `again`, it says that this never happens.

`verdictOn_eq` is the recursive equation that the verdicts satisfy, with neither memory nor guard;
all facts about costs are derived from it.
-/

namespace PseudoCost

namespace Engine

variable {R : Type} [Scalar R]

/-! ## One step of judging -/

section Step

variable {m : Type → Type} [Monad m] [LawfulMonad m] {p : Program} {g : CallGraph}
  {solved : Name → Option (Cases R)} {again : m (Verdict R)} {active : List Name} {n : Name}
  {s : Memo R}

theorem judge_of_kept {v : Verdict R} (hs : s.lookup n = some v) :
    (judge again p g solved active n).run s = pure (v, s) := by
  rw [judge]
  simp [hs]

theorem judge_of_unknown (hs : s.lookup n = none) (hq : p.find? n = none) :
    (judge again p g solved active n).run s = pure (Verdict.constant, s) := by
  rw [judge]
  simp only [StateT.run_bind, StateT.run_get, pure_bind, hs]
  split
  · rfl
  · simp_all

theorem judge_of_declared {q : Procedure} (hs : s.lookup n = none) (hq : p.find? n = some q) :
    (judge again p g solved active n).run s
      = if active.contains n then StateT.run (liftM again) s
        else StateT.run (do
          let env : Costing R (StateT (Memo R) m) := ⟨p, g, judge again p g solved (n :: active)⟩
          let own ← env.block { caller := some n } q.body
          let v := (Verdict.ofBody g q own).withSolved (solved n)
          modify ((n, v) :: ·)
          return v) s := by
  rw [judge]
  simp only [StateT.run_bind, StateT.run_get, pure_bind, hs]
  split
  · simp_all
  · rename_i q' hq'
    obtain rfl : q = q' := Option.some.inj (hq.symm.trans hq')
    split <;> simp

theorem judge_of_found {q : Procedure} {own : Verdict R} {s' : Memo R}
    (hs : s.lookup n = none) (hq : p.find? n = some q) (hn : n ∉ active)
    (hown : ((⟨p, g, judge again p g solved (n :: active)⟩ : Costing R (StateT (Memo R) m)).block
      { caller := some n } q.body).run s = pure (own, s')) :
    (judge again p g solved active n).run s
      = pure ((Verdict.ofBody g q own).withSolved (solved n),
          (n, (Verdict.ofBody g q own).withSolved (solved n)) :: s') := by
  rw [judge_of_declared hs hq, if_neg (by simpa using hn)]
  simp [hown]

end Step

/-! ## The verdicts -/

variable (p : Program) (solved : Name → Option (Cases R))

/-- The verdict on a procedure, from an engine that has found nothing yet. -/
def verdictOn (n : Name) : Verdict R :=
  ((judge (m := Id) Verdict.constant p (CallGraph.ofProgram p) solved [] n).run []).run.1

/-- The verdict on the body of a procedure: its own work, the calls on its cycles left out. -/
def ownVerdict (q : Procedure) : Verdict R :=
  ((Costing.given p (CallGraph.ofProgram p) (verdictOn p solved)).block
    { caller := some q.name } q.body).run

/-- The verdict on the whole program. -/
def programVerdict : Verdict R :=
  match p.entry? with
  | some main =>
    ((Costing.given p (CallGraph.ofProgram p) (verdictOn p solved)).block {} main).run
  | none =>
    let g := CallGraph.ofProgram p
    let entries := if g.roots.isEmpty then g.order else g.roots
    entries.foldl (fun v n => v.sequence (verdictOn p solved n)) Verdict.constant

variable {p solved}

/-- A memory holds nothing but the verdicts on its procedures. -/
def Kept (p : Program) (solved : Name → Option (Cases R)) (s : Memo R) : Prop :=
  ∀ n v, s.lookup n = some v → v = verdictOn p solved n

theorem kept_nil : Kept p solved ([] : Memo R) := by
  intro n v h
  simp at h

theorem Kept.cons {s : Memo R} (hs : Kept p solved s) (n : Name) :
    Kept p solved ((n, verdictOn p solved n) :: s) := by
  intro k v hk
  rw [List.lookup_cons] at hk
  by_cases hkn : k = n
  · subst hkn
    simpa using hk.symm
  · rw [show (k == n) = false by simpa using hkn] at hk
    exact hs k v hk

theorem verdictOn_of_unknown {n : Name} (hq : p.find? n = none) :
    verdictOn p solved n = Verdict.constant := by
  rw [verdictOn, judge_of_unknown (by simp) hq]
  rfl

/-! ## Every run of the judge ends in the verdict -/

/-- Every procedure that is being judged reaches the one at hand and is not reached back. -/
def Under (g : CallGraph) (active : List Name) (n : Name) : Prop :=
  ∀ a ∈ active, a ≠ n ∧ g.Below n a

theorem Under.not_mem {g : CallGraph} {active : List Name} {n : Name} (h : Under g active n) :
    n ∉ active := fun hn => (h n hn).1 rfl

/-- Following a call off the cycles of its caller keeps the invariant, the caller included. -/
theorem Under.cons {g : CallGraph} {active : List Name} {n c : Name} (h : Under g active n)
    (hne : c ≠ n) (hc : g.Below c n) : Under g (n :: active) c := by
  intro a ha
  rcases List.mem_cons.mp ha with rfl | ha
  · exact ⟨hne.symm, hc⟩
  · obtain ⟨-, han, -⟩ := h a ha
    refine ⟨?_, hc.trans_reaches han⟩
    rintro rfl
    exact hc.2 han

/-- What `judge_gives` says of the procedures below one that is found. -/
def GivesBelow (p : Program) (solved : Name → Option (Cases R)) (n : Name) : Prop :=
  ∀ c, c ≠ n → (CallGraph.ofProgram p).Below c n →
    ∀ (m : Type → Type) [Monad m] [LawfulMonad m] (again : m (Verdict R)) (active : List Name),
      Under (CallGraph.ofProgram p) active c →
      Gives (Kept p solved) (judge again p (CallGraph.ofProgram p) solved active c)
        (verdictOn p solved c)

/-- The body of a found procedure costs its own verdict, whatever is kept. -/
theorem ownVerdict_gives {n : Name} {q : Procedure} (hq : p.find? n = some q)
    (hbelow : GivesBelow p solved n) {m : Type → Type} [Monad m] [LawfulMonad m]
    (again : m (Verdict R)) {active : List Name}
    (hactive : Under (CallGraph.ofProgram p) active n) :
    Gives (Kept p solved)
      ((⟨p, CallGraph.ofProgram p, judge again p (CallGraph.ofProgram p) solved (n :: active)⟩ :
        Costing R (StateT (Memo R) m)).block { caller := some n } q.body)
      (ownVerdict p solved q) := by
  have hname : q.name = n := by simpa using List.find?_some hq
  rw [ownVerdict, hname]
  refine Costing.block_gives _ q.body fun c hc hask => ?_
  have hedge := CallGraph.edge_of_call hq (q.body.costedCalls_subset hc) hask.1
  obtain ⟨hne, hcn⟩ := (CallGraph.onCycle_eq_false_iff (CallGraph.ofProgram_declared p) hedge).mp
    (by simpa using hask.2)
  exact hbelow c.callee hne hcn m again _ (hactive.cons hne hcn)

theorem verdictOn_of_givesBelow {n : Name} {q : Procedure} (hq : p.find? n = some q)
    (hbelow : GivesBelow p solved n) :
    verdictOn p solved n
      = (Verdict.ofBody (CallGraph.ofProgram p) q (ownVerdict p solved q)).withSolved
          (solved n) := by
  obtain ⟨s', hs', -⟩ := ownVerdict_gives (m := Id) hq hbelow Verdict.constant
    (fun _ ha => absurd ha List.not_mem_nil) [] kept_nil
  rw [verdictOn, judge_of_found (by simp) hq List.not_mem_nil hs']
  rfl

/-- **Every run of the judge ends in the verdict**, and keeps nothing but verdicts. The induction
is on the number of procedures that the one at hand reaches. -/
theorem judge_gives (n : Name) :
    ∀ (m : Type → Type) [Monad m] [LawfulMonad m] (again : m (Verdict R)) (active : List Name),
      Under (CallGraph.ofProgram p) active n →
      Gives (Kept p solved) (judge again p (CallGraph.ofProgram p) solved active n)
        (verdictOn p solved n) := by
  induction h : (CallGraph.ofProgram p).rank n using Nat.strongRecOn generalizing n with
  | _ k ih =>
    subst h
    intro m _ _ again active hactive s hs
    cases hlook : s.lookup n with
    | some v =>
        obtain rfl := hs n v hlook
        exact ⟨s, judge_of_kept hlook, hs⟩
    | none =>
        cases hq : p.find? n with
        | none => exact ⟨s, by rw [verdictOn_of_unknown hq, judge_of_unknown hlook hq], hs⟩
        | some q =>
            have hdecl : n ∈ (CallGraph.ofProgram p).order :=
              CallGraph.declares_iff.mp (by simp [Program.declares, hq])
            have hbelow : GivesBelow p solved n := fun c hne hcn =>
              ih _ (CallGraph.rank_lt (CallGraph.ofProgram_declared p) hdecl hne hcn) c rfl
            obtain ⟨s', hs', hk⟩ := ownVerdict_gives hq hbelow again hactive s hs
            refine ⟨(n, verdictOn p solved n) :: s', ?_, hk.cons n⟩
            rw [judge_of_found hlook hq hactive.not_mem hs', verdictOn_of_givesBelow hq hbelow]

/-- The verdict on a procedure comes from the verdict on its body, in which the verdicts on the
procedures below it stand. -/
theorem verdictOn_eq {n : Name} {q : Procedure} (hq : p.find? n = some q) :
    verdictOn p solved n
      = (Verdict.ofBody (CallGraph.ofProgram p) q (ownVerdict p solved q)).withSolved
          (solved n) :=
  verdictOn_of_givesBelow hq fun c _ _ => judge_gives c

/-! ## Properties of all verdicts -/

section Closed

variable {Q : Verdict R → Prop} (hQ : Costing.Closed Q)
include hQ

/-- A closed property that passes from the own work of each procedure to its verdict is one of
every verdict. The induction is again on the number of procedures that are reached. -/
theorem verdictOn_induction
    (hstep : ∀ n q, p.find? n = some q → Q (ownVerdict p solved q) → Q (verdictOn p solved n))
    (n : Name) : Q (verdictOn p solved n) := by
  induction h : (CallGraph.ofProgram p).rank n using Nat.strongRecOn generalizing n with
  | _ k ih =>
    subst h
    cases hq : p.find? n with
    | none =>
        rw [verdictOn_of_unknown hq]
        exact hQ.constant
    | some q =>
        have hname : q.name = n := by simpa using List.find?_some hq
        have hdecl : n ∈ (CallGraph.ofProgram p).order :=
          CallGraph.declares_iff.mp (by simp [Program.declares, hq])
        refine hstep n q hq ?_
        rw [ownVerdict, hname]
        refine hQ.block _ q.body fun c hc hask => ?_
        have hedge := CallGraph.edge_of_call hq (q.body.costedCalls_subset hc) hask.1
        obtain ⟨hne, hcn⟩ := (CallGraph.onCycle_eq_false_iff
          (CallGraph.ofProgram_declared p) hedge).mp (by simpa using hask.2)
        exact ih _ (CallGraph.rank_lt (CallGraph.ofProgram_declared p) hdecl hne hcn) _ rfl

theorem ownVerdict_of_closed (h : ∀ n, Q (verdictOn p solved n)) (q : Procedure) :
    Q (ownVerdict p solved q) :=
  hQ.block _ q.body fun c _ _ => h c.callee

theorem programVerdict_of_closed (h : ∀ n, Q (verdictOn p solved n)) :
    Q (programVerdict p solved) := by
  rw [programVerdict]
  cases p.entry? with
  | some main => exact hQ.block _ main fun c _ _ => h c.callee
  | none =>
      refine List.foldlRecOn _ _ hQ.constant fun v hv n _ => ?_
      exact hQ.sequence hv (h n)

end Closed

end Engine

end PseudoCost
