import PseudoCost.Proofs.BranchedLoops
import PseudoCost.Proofs.LargestLine
import PseudoCost.Proofs.LineWalk
import PseudoCost.Proofs.OwnWork

/-!
# Which rows a program gets

A statement stands in a program inside some loops (`Program.Stands`), and it runs as often as the
product of their iterations says, its own included if it is a loop (`Stmt.cost`). The entries are
exactly those of the statements so standing (`mem_programEntries_iff`).

Entries are recorded one by one, each into the row of its line. What is known of the rows so far
(`Summarizes`) is about *all* entries of a line, so it does not matter which of them came first: the
lines ascend, a row has the cost of one of its entries and none of them is above it, and a row is
marked as part of the recursion exactly if one of its entries is. To record an entry keeps this
(`Summarizes.record`), and so does a run (`rows_summarizes`); and since it is about entries as a
set, it holds for every order of them.
-/

namespace PseudoCost

open Tolerant

/-! ## Where statements stand -/

/-- A statement stands in another one, inside the loops of it that are listed, the outermost
first. -/
inductive Stmt.Holds : Stmt → List Stmt → Stmt → Prop
  | self (t : Stmt) : t.Holds [] t
  | loop {t u s : Stmt} {body : Block} {loops : List Stmt} : t.loopBody? = some body →
      u ∈ body.stmts → u.Holds loops s → t.Holds (t :: loops) s
  | thenBranch {pos : Pos} {cond : Expr} {thenBlock : Block} {elseBlock : Option Block}
      {u s : Stmt} {loops : List Stmt} : u ∈ thenBlock.stmts → u.Holds loops s →
      (Stmt.conditional pos cond thenBlock elseBlock).Holds loops s
  | elseBranch {pos : Pos} {cond : Expr} {thenBlock elseBlock : Block} {u s : Stmt}
      {loops : List Stmt} : u ∈ elseBlock.stmts → u.Holds loops s →
      (Stmt.conditional pos cond thenBlock (some elseBlock)).Holds loops s

/-- A statement stands in a block, inside some loops of the block. -/
def Block.Holds (b : Block) (loops : List Stmt) (s : Stmt) : Prop :=
  ∃ t ∈ b.stmts, t.Holds loops s

/-- A statement stands in a program, inside some loops: in a procedure, or else in the main body. -/
inductive Program.Stands (p : Program) : Option Procedure → List Stmt → Stmt → Prop
  | main {b : Block} {loops : List Stmt} {s : Stmt} : p.main = some b → b.Holds loops s →
      p.Stands none loops s
  | procedure {q : Procedure} {loops : List Stmt} {s : Stmt} : q ∈ p.procedures →
      q.body.Holds loops s → p.Stands (some q) loops s

section Holds

variable {t s : Stmt} {loops : List Stmt}

theorem Stmt.holds_loop_iff {body : Block} (h : t.loopBody? = some body) :
    t.Holds loops s
      ↔ loops = [] ∧ s = t ∨ ∃ inner, loops = t :: inner ∧ body.Holds inner s := by
  constructor
  · rintro (_ | ⟨hbody, hu, hs⟩ | _ | _)
    · exact .inl ⟨rfl, rfl⟩
    · obtain rfl := Option.some.inj (h.symm.trans hbody)
      exact .inr ⟨_, rfl, _, hu, hs⟩
    · cases h
    · cases h
  · rintro (⟨rfl, rfl⟩ | ⟨inner, rfl, u, hu, hs⟩)
    · exact .self _
    · exact .loop h hu hs

theorem Stmt.holds_conditional_iff {pos : Pos} {cond : Expr} {thenBlock : Block}
    {elseBlock : Option Block} :
    (Stmt.conditional pos cond thenBlock elseBlock).Holds loops s
      ↔ loops = [] ∧ s = .conditional pos cond thenBlock elseBlock
        ∨ thenBlock.Holds loops s ∨ ∃ b, elseBlock = some b ∧ b.Holds loops s := by
  constructor
  · rintro (_ | ⟨hbody, -, -⟩ | ⟨hu, hs⟩ | ⟨hu, hs⟩)
    · exact .inl ⟨rfl, rfl⟩
    · cases hbody
    · exact .inr (.inl ⟨_, hu, hs⟩)
    · exact .inr (.inr ⟨_, rfl, _, hu, hs⟩)
  · rintro (⟨rfl, rfl⟩ | ⟨u, hu, hs⟩ | ⟨b, rfl, u, hu, hs⟩)
    · exact .self _
    · exact .thenBranch hu hs
    · exact .elseBranch hu hs

theorem Stmt.holds_leaf_iff (hloop : t.loopBody? = none)
    (hbranch : ∀ pos cond thenBlock elseBlock, t ≠ .conditional pos cond thenBlock elseBlock) :
    t.Holds loops s ↔ loops = [] ∧ s = t := by
  constructor
  · rintro (_ | ⟨hbody, -, -⟩ | _ | _)
    · exact ⟨rfl, rfl⟩
    · rw [hloop] at hbody
      cases hbody
    · exact (hbranch _ _ _ _ rfl).elim
    · exact (hbranch _ _ _ _ rfl).elim
  · rintro ⟨rfl, rfl⟩
    exact .self _

end Holds

/-! ## The entries of a program -/

section Entries

variable {R : Type} [Scalar R]

/-- How often a piece of a program runs inside some loops, from how often the outermost one is
run. -/
def Growth.inside (outer : Growth R) (loops : List Stmt) : Growth R :=
  loops.foldl (fun runs t => runs.times t.iterations) outer

/-- The loops that count for a statement inside some loops: itself among them, if it is one. -/
def Stmt.counted (s : Stmt) (loops : List Stmt) : List Stmt :=
  loops ++ if s.isLoop then [s] else []

/-- What a statement inside some loops costs: the product of the iterations of its loops. -/
def Stmt.cost (s : Stmt) (loops : List Stmt) : Growth R := Growth.constant.inside (s.counted loops)

namespace LineCost

/-- The beginning of the explanation of a statement that is no loop. -/
def lead : Stmt → Text
  | .conditional .. => "condition test; "
  | _ => []

/-- The entry of a statement inside some loops, in a piece of a program that runs `outer` times
inside `depth` loops. -/
def entryAt (scope : Scope) (outer : Growth R) (depth : Nat) (loops : List Stmt) (s : Stmt) :
    Entry R :=
  let cost := outer.inside (s.counted loops)
  if s.isLoop then loopEntry scope s cost
  else entry scope s cost (lead s ++ countText cost (depth + loops.length))

variable {scope : Scope} {outer : Growth R} {depth : Nat} {loops : List Stmt} {t s : Stmt}
  {e : Entry R}

@[simp] theorem line_entryAt : (entryAt scope outer depth loops s).line = s.pos.line := by
  rw [entryAt]
  split <;> rfl

@[simp] theorem cost_entryAt :
    (entryAt scope outer depth loops s).cost = outer.inside (s.counted loops) := by
  rw [entryAt]
  split <;> rfl

@[simp] theorem recursive_entryAt :
    (entryAt scope outer depth loops s).recursive = scope.isRecursive s := by
  rw [entryAt]
  split <;> rfl

/-- A loop further out multiplies what is run and is one loop more. -/
theorem entryAt_cons : entryAt scope outer depth (t :: loops) s
    = entryAt scope (outer.times t.iterations) (depth + 1) loops s := by
  rw [entryAt, entryAt, List.length_cons, Nat.add_right_comm, Nat.add_assoc]
  rfl

theorem entryAt_loop {body : Block} (h : t.loopBody? = some body) :
    entryAt scope outer depth [] t = loopEntry scope t (outer.times t.iterations) := by
  have hloop : t.isLoop = true := by rw [Stmt.isLoop, h, Option.isSome_some]
  rw [entryAt, Stmt.counted, if_pos hloop, if_pos hloop]
  rfl

/-- The entries of a loop are its own and those of its body, if those of the body are known. -/
theorem mem_loopEntries_iff {body : Block} (h : t.loopBody? = some body)
    (hbody : ∀ {outer : Growth R} {depth : Nat} {e : Entry R},
      e ∈ blockEntries scope outer depth body
        ↔ ∃ loops s, body.Holds loops s ∧ e = entryAt scope outer depth loops s) :
    e ∈ loopEntry scope t (outer.times t.iterations)
        :: blockEntries scope (outer.times t.iterations) (depth + 1) body
      ↔ ∃ loops s, t.Holds loops s ∧ e = entryAt scope outer depth loops s := by
  rw [List.mem_cons, hbody]
  constructor
  · rintro (rfl | ⟨loops, s, hs, rfl⟩)
    · exact ⟨[], t, .self t, (entryAt_loop h).symm⟩
    · exact ⟨t :: loops, s, (Stmt.holds_loop_iff h).mpr (.inr ⟨loops, rfl, hs⟩), entryAt_cons.symm⟩
  · rintro ⟨loops, s, hs, rfl⟩
    rcases (Stmt.holds_loop_iff h).mp hs with ⟨rfl, rfl⟩ | ⟨inner, rfl, hinner⟩
    · exact .inl (entryAt_loop h)
    · exact .inr ⟨inner, s, hinner, entryAt_cons⟩

/-- A statement that is neither a loop nor a conditional has a single entry. -/
theorem mem_leafEntry_iff {own : Entry R} (hloop : t.loopBody? = none)
    (hbranch : ∀ pos cond thenBlock elseBlock, t ≠ .conditional pos cond thenBlock elseBlock)
    (hentry : entryAt scope outer depth [] t = own) :
    e ∈ [own] ↔ ∃ loops s, t.Holds loops s ∧ e = entryAt scope outer depth loops s := by
  rw [List.mem_singleton]
  constructor
  · rintro rfl
    exact ⟨[], t, .self t, hentry.symm⟩
  · rintro ⟨loops, s, hs, rfl⟩
    obtain ⟨rfl, rfl⟩ := (Stmt.holds_leaf_iff hloop hbranch).mp hs
    exact hentry

mutual

theorem mem_entriesOf_iff : ∀ (t : Stmt) {outer : Growth R} {depth : Nat} {e : Entry R},
    e ∈ entriesOf scope outer depth t
      ↔ ∃ loops s, t.Holds loops s ∧ e = entryAt scope outer depth loops s
  | .forLoop _ _ _ _ _ _ body, _, _, _ => by
      rw [entriesOf]
      exact mem_loopEntries_iff rfl (mem_blockEntries_iff body)
  | .whileLoop _ _ _ body, _, _, _ => by
      rw [entriesOf]
      exact mem_loopEntries_iff rfl (mem_blockEntries_iff body)
  | .repeatLoop _ _ body _, _, _, _ => by
      rw [entriesOf]
      exact mem_loopEntries_iff rfl (mem_blockEntries_iff body)
  | .conditional _ _ thenBlock (some elseBlock), _, _, _ => by
      rw [entriesOf, List.mem_cons, List.mem_append, mem_blockEntries_iff thenBlock,
        mem_blockEntries_iff elseBlock]
      simp only [Stmt.holds_conditional_iff, Option.some.injEq, exists_eq_left', or_and_right,
        exists_or]
      refine or_congr ?_ Iff.rfl
      simp [entryAt, Stmt.counted, Stmt.isLoop, Stmt.loopBody?, Growth.inside, lead]
  | .conditional _ _ thenBlock none, _, _, _ => by
      rw [entriesOf, List.mem_cons, mem_blockEntries_iff thenBlock]
      simp only [Stmt.holds_conditional_iff, reduceCtorEq, false_and, exists_false, or_false,
        or_and_right, exists_or]
      refine or_congr ?_ Iff.rfl
      simp [entryAt, Stmt.counted, Stmt.isLoop, Stmt.loopBody?, Growth.inside, lead]
  | .assign .., _, _, _ | .call .., _, _, _ | .give .., _, _, _ => by
      rw [entriesOf]
      exact mem_leafEntry_iff rfl (fun _ _ _ _ h => nomatch h) rfl

/-- The entries of a block are those of the statements that stand in it. -/
theorem mem_blockEntries_iff : ∀ (b : Block) {outer : Growth R} {depth : Nat} {e : Entry R},
    e ∈ blockEntries scope outer depth b
      ↔ ∃ loops s, b.Holds loops s ∧ e = entryAt scope outer depth loops s
  | .mk _ _ _ stmts, _, _, _ => by
      rw [blockEntries, mem_listEntries_iff stmts]
      constructor
      · rintro ⟨t, ht, loops, s, hs, he⟩
        exact ⟨loops, s, ⟨t, ht, hs⟩, he⟩
      · rintro ⟨loops, s, ⟨t, ht, hs⟩, he⟩
        exact ⟨t, ht, loops, s, hs, he⟩

theorem mem_listEntries_iff : ∀ (ss : List Stmt) {outer : Growth R} {depth : Nat} {e : Entry R},
    e ∈ listEntries scope outer depth ss
      ↔ ∃ t ∈ ss, ∃ loops s, t.Holds loops s ∧ e = entryAt scope outer depth loops s
  | [], _, _, _ => by simp [listEntries]
  | t :: ss, _, _, _ => by
      rw [listEntries, List.mem_append, mem_entriesOf_iff t, mem_listEntries_iff ss]
      simp

end

/-- The scope of a piece of a program. -/
def Scope.of : Option Procedure → Scope
  | none => .main
  | some q => .ofProcedure q

/-- The entries of a program are those of the statements that stand in it. -/
theorem mem_programEntries_iff {p : Program} : e ∈ programEntries p
    ↔ ∃ q loops s, p.Stands q loops s ∧ e = entryAt (Scope.of q) Growth.constant 0 loops s := by
  simp only [programEntries, List.mem_append, List.mem_flatMap, Option.mem_toList, scopeEntries,
    mem_blockEntries_iff]
  constructor
  · rintro (⟨b, hb, loops, s, hs, rfl⟩ | ⟨q, hq, loops, s, hs, rfl⟩)
    · exact ⟨none, loops, s, .main hb hs, rfl⟩
    · exact ⟨some q, loops, s, .procedure hq hs, rfl⟩
  · rintro ⟨_, loops, s, ⟨hb, hs⟩ | ⟨hq, hs⟩, rfl⟩
    · exact .inl ⟨_, hb, loops, s, hs, rfl⟩
    · exact .inr ⟨_, hq, loops, s, hs, rfl⟩

end LineCost

end Entries

namespace LineCost

/-! ## Recording an entry -/

section Record

variable {R : Type} [Scalar R] {source : List Text} {e : Entry R} {row : LineCost R}
  {table : List (LineCost R)}

/-- The rows are in the order of their lines. -/
def Sorted (table : List (LineCost R)) : Prop :=
  table.Pairwise fun row row' => row.line < row'.line

/-- The row of a line after an entry, from the row of the line before it, if there was one. -/
def joined (source : List Text) (e : Entry R) : Option (LineCost R) → LineCost R
  | none => ofEntry source false e
  | some row => absorb source row e

theorem line_absorb (h : e.line = row.line) : (absorb source row e).line = row.line := by
  rw [absorb]
  split
  · exact h
  · split <;> rfl

/-- Recording an entry changes the row of its line and no other. -/
theorem mem_record_iff (hsorted : Sorted table) : row ∈ record source e table
    ↔ row ∈ table ∧ row.line ≠ e.line
      ∨ row = joined source e (table.find? (·.line == e.line)) := by
  induction table with
  | nil => simp [record, joined]
  | cons first rest ih =>
      obtain ⟨hfirst, hrest⟩ := List.pairwise_cons.mp hsorted
      rw [record]
      rcases lt_trichotomy e.line first.line with hlt | heq | hgt
      · -- The line comes before all rows, so it has none yet.
        have hlater : ∀ r ∈ first :: rest, e.line < r.line :=
          List.forall_mem_cons.mpr ⟨hlt, fun r hr => hlt.trans (hfirst r hr)⟩
        have hnone : (first :: rest).find? (·.line == e.line) = none :=
          List.find?_eq_none.mpr fun r hr => by simpa using (hlater r hr).ne'
        rw [if_pos hlt, hnone, List.mem_cons, or_comm]
        exact or_congr_left (and_iff_left_of_imp fun hr => (hlater row hr).ne').symm
      · have hothers : ∀ r ∈ rest, r.line ≠ e.line := fun r hr => heq ▸ (hfirst r hr).ne'
        have hfound : (first :: rest).find? (·.line == e.line) = some first :=
          List.find?_cons_of_pos (by simpa using heq.symm)
        rw [if_neg heq.not_lt, if_pos heq, hfound, List.mem_cons, List.mem_cons, or_comm]
        refine or_congr_left ⟨fun hr => ⟨.inr hr, hothers row hr⟩, ?_⟩
        rintro ⟨rfl | hr, hne⟩
        · exact absurd heq.symm hne
        · exact hr
      · have hfound : (first :: rest).find? (·.line == e.line)
            = rest.find? (·.line == e.line) :=
          List.find?_cons_of_neg (by simpa using hgt.ne)
        rw [if_neg hgt.not_gt, if_neg hgt.ne', hfound, List.mem_cons, ih hrest, List.mem_cons,
          or_and_right, or_assoc]
        exact or_congr_left (and_iff_left_of_imp fun h => h ▸ hgt.ne).symm

/-- The row of a line before an entry of the line, and the row after it. -/
theorem line_joined : (joined source e (table.find? (·.line == e.line))).line = e.line := by
  cases hfind : table.find? (·.line == e.line) with
  | none => rfl
  | some row =>
      have hline : row.line = e.line := by simpa using List.find?_some hfind
      exact (line_absorb hline.symm).trans hline

theorem Sorted.record (source : List Text) (e : Entry R) : ∀ {table : List (LineCost R)},
    Sorted table → Sorted (record source e table)
  | [], _ => List.pairwise_singleton _ _
  | first :: rest, h => by
      obtain ⟨hfirst, hrest⟩ := List.pairwise_cons.mp h
      rw [LineCost.record]
      split
      · rename_i hlt
        exact List.pairwise_cons.mpr ⟨List.forall_mem_cons.mpr
          ⟨hlt, fun r hr => hlt.trans (hfirst r hr)⟩, h⟩
      · rename_i hle
        split
        · rename_i heq
          exact List.pairwise_cons.mpr ⟨fun r hr => (line_absorb heq).trans_lt (hfirst r hr), hrest⟩
        · rename_i hne
          refine List.pairwise_cons.mpr ⟨fun r hr => ?_, Sorted.record source e hrest⟩
          rcases (mem_record_iff hrest).mp hr with ⟨hr, -⟩ | rfl
          · exact hfirst r hr
          · rw [line_joined]
            omega

end Record

/-! ## Rows of many entries -/

section Summary

variable {ε : ℝ} {G : Grid ε} {es : List (Entry (Tolerant ε))} {e : Entry (Tolerant ε)}
  {row : LineCost (Tolerant ε)} {table : List (LineCost (Tolerant ε))} {source : List Text}

/-- A row says of the entries of its line what the largest cost is, and whether any of them is part
of the recursion. -/
structure Summary (es : List (Entry (Tolerant ε))) (row : LineCost (Tolerant ε)) : Prop where
  attained : ∃ e ∈ es, e.line = row.line ∧ row.cost = e.cost
  largest : ∀ e ∈ es, e.line = row.line → e.cost.key ≤ row.cost.key
  origin : row.origin = .recurrence ↔ ∃ e ∈ es, e.line = row.line ∧ e.recursive = true

/-- The rows, in the order of their lines, summarize the entries of each line. -/
structure Summarizes (es : List (Entry (Tolerant ε))) (table : List (LineCost (Tolerant ε))) :
    Prop where
  sorted : Sorted table
  complete : ∀ e ∈ es, ∃ row ∈ table, row.line = e.line
  summary : ∀ row ∈ table, Summary es row

theorem Summarizes.of_mem_iff {es' : List (Entry (Tolerant ε))} (hmem : ∀ e, e ∈ es ↔ e ∈ es')
    (h : Summarizes es table) : Summarizes es' table where
  sorted := h.sorted
  complete e he := h.complete e ((hmem e).mpr he)
  summary row hrow := by
    obtain ⟨⟨e, he, hattained⟩, hlargest, horigin⟩ := h.summary row hrow
    refine ⟨⟨e, (hmem e).mp he, hattained⟩, fun e he => hlargest e ((hmem e).mpr he), ?_⟩
    simpa only [hmem] using horigin

/-- The first entry of a line makes its row. -/
theorem Summary.first (source : List Text) (h : ∀ e' ∈ es, e'.line ≠ e.line) :
    Summary (e :: es) (ofEntry source false e) where
  attained := ⟨e, List.mem_cons_self, rfl, rfl⟩
  largest e' he' hline := by
    rcases List.mem_cons.mp he' with rfl | he'
    · exact le_rfl
    · exact absurd hline (h e' he')
  origin := by
    have honly : (∃ e' ∈ e :: es, e'.line = e.line ∧ e'.recursive = true) ↔ e.recursive = true := by
      constructor
      · rintro ⟨e', he', hline, hrecursive⟩
        rcases List.mem_cons.mp he' with rfl | he'
        · exact hrecursive
        · exact absurd hline (h e' he')
      · exact fun hrecursive => ⟨e, List.mem_cons_self, rfl, hrecursive⟩
    refine Iff.trans ?_ honly.symm
    show (if e.recursive || false then CostOrigin.recurrence else CostOrigin.structural)
      = .recurrence ↔ _
    cases e.recursive <;> simp

theorem origin_absorb : (absorb source row e).origin = .recurrence
    ↔ e.recursive = true ∨ row.origin = .recurrence := by
  rw [absorb]
  split
  · show (if e.recursive || row.origin == .recurrence then CostOrigin.recurrence
      else CostOrigin.structural) = .recurrence ↔ _
    cases e.recursive <;> cases row.origin <;> simp
  · split
    · rename_i hrecursive
      simp [hrecursive]
    · rename_i hrecursive
      simp [hrecursive]

/-- A further entry of a line is taken into its row, whichever of the two costs more. -/
theorem Summary.next (source : List Text) (h : Summary es row) (hrow : G.Holds row.cost)
    (he : G.Holds e.cost) (hline : e.line = row.line) :
    Summary (e :: es) (absorb source row e) := by
  have hkey := absorb_key source hrow he
  have hsame : (absorb source row e).line = row.line := line_absorb hline
  obtain ⟨e', he', hline', hcost⟩ := h.attained
  refine ⟨?_, fun e'' he'' hline'' => ?_, ?_⟩
  · rw [hsame, absorb]
    split
    · exact ⟨e, List.mem_cons_self, hline, rfl⟩
    · refine ⟨e', List.mem_cons_of_mem e he', hline', ?_⟩
      split <;> exact hcost
  · rw [hkey]
    rcases List.mem_cons.mp he'' with rfl | he''
    · exact le_max_left _ _
    · exact (h.largest e'' he'' (hline''.trans hsame)).trans (le_max_right _ _)
  · rw [origin_absorb, h.origin, hsame]
    simp [hline]

/-- Entries of other lines do not matter to a row. -/
theorem Summary.other (h : Summary es row) (hline : e.line ≠ row.line) : Summary (e :: es) row where
  attained := by
    obtain ⟨e', he', hattained⟩ := h.attained
    exact ⟨e', List.mem_cons_of_mem e he', hattained⟩
  largest e' he' hline' := by
    rcases List.mem_cons.mp he' with rfl | he'
    · exact absurd hline' hline
    · exact h.largest e' he' hline'
  origin := by
    rw [h.origin]
    simp [hline]

/-- Recording an entry keeps the rows a summary, of one entry more. -/
theorem Summarizes.record (source : List Text) (h : Summarizes es table)
    (hes : ∀ e ∈ es, G.Holds e.cost) (he : G.Holds e.cost) :
    Summarizes (e :: es) (record source e table) where
  sorted := h.sorted.record source e
  complete e' he' := by
    by_cases hline : e'.line = e.line
    · exact ⟨_, (mem_record_iff h.sorted).mpr (.inr rfl), line_joined.trans hline.symm⟩
    · rcases List.mem_cons.mp he' with rfl | he'
      · exact absurd rfl hline
      · obtain ⟨row, hrow, hsame⟩ := h.complete e' he'
        exact ⟨row, (mem_record_iff h.sorted).mpr (.inl ⟨hrow, hsame ▸ hline⟩), hsame⟩
  summary row hrow := by
    rcases (mem_record_iff h.sorted).mp hrow with ⟨hrow, hline⟩ | rfl
    · exact (h.summary row hrow).other (Ne.symm hline)
    · cases hfind : table.find? (·.line == e.line) with
      | none =>
          refine Summary.first source fun e' he' hline => ?_
          obtain ⟨row, hrow, hsame⟩ := h.complete e' he'
          exact List.find?_eq_none.mp hfind row hrow (by simpa using hsame.trans hline)
      | some row =>
          have hsummary := h.summary row (List.mem_of_find?_eq_some hfind)
          obtain ⟨e', he', -, hcost⟩ := hsummary.attained
          have hline : row.line = e.line := by simpa using List.find?_some hfind
          exact hsummary.next source (hcost ▸ hes e' he') he hline.symm

/-- The rows of some entries summarize them. -/
theorem rows_summarizes (source : List Text) (hes : ∀ e ∈ es, G.Holds e.cost) :
    Summarizes es (rows source es) := by
  have hfold : ∀ {later seen : List (Entry (Tolerant ε))} {table : List (LineCost (Tolerant ε))},
      (∀ e ∈ later, G.Holds e.cost) → (∀ e ∈ seen, G.Holds e.cost) → Summarizes seen table →
      Summarizes (later.reverse ++ seen)
        (later.foldl (fun table e => LineCost.record source e table) table) := by
    intro later
    induction later with
    | nil => exact fun _ _ h => h
    | cons e later ih =>
        intro seen table hlater hseen h
        obtain ⟨he, hlater⟩ := List.forall_mem_cons.mp hlater
        rw [List.reverse_cons, List.append_assoc, List.foldl_cons]
        exact ih hlater (List.forall_mem_cons.mpr ⟨he, hseen⟩) (h.record source hseen he)
  have hnone : Summarizes ([] : List (Entry (Tolerant ε))) [] :=
    ⟨List.Pairwise.nil, fun _ h => absurd h List.not_mem_nil, fun _ h => absurd h List.not_mem_nil⟩
  refine (hfold hes (fun _ h => absurd h List.not_mem_nil) hnone).of_mem_iff fun e => ?_
  rw [List.append_nil, List.mem_reverse]

end Summary

/-! ## The rows of a program -/

/-- The rows of a program: in the order of their lines, one for each line on which a statement
starts, with the largest cost of the statements that start there, and marked as part of the
recursion exactly if one of them calls the procedure that it stands in. -/
structure Charts {R : Type} [Scalar R] (p : Program) (table : List (LineCost R)) : Prop where
  sorted : table.Pairwise fun row row' => row.line < row'.line
  lines : ∀ n, (∃ row ∈ table, row.line = n) ↔ ∃ q loops s, p.Stands q loops s ∧ s.pos.line = n
  attained : ∀ row ∈ table, ∃ q loops s, p.Stands q loops s ∧ s.pos.line = row.line
    ∧ row.cost = s.cost loops
  largest : ∀ row ∈ table, ∀ q loops s, p.Stands q loops s → s.pos.line = row.line →
    ((s.cost loops).compare row.cost).isLE = true
  origin : ∀ row ∈ table, row.origin = .recurrence ↔ ∃ q loops s, p.Stands (some q) loops s
    ∧ s.pos.line = row.line ∧ ∃ c ∈ s.calls, c.callee = q.name

theorem isRecursive_of_iff {q : Option Procedure} {s : Stmt} : (Scope.of q).isRecursive s = true
    ↔ ∃ q', q = some q' ∧ ∃ c ∈ s.calls, c.callee = q'.name := by
  cases q with
  | none => simp [Scope.of, Scope.isRecursive, Scope.main]
  | some q => simp [Scope.of, Scope.isRecursive, Scope.ofProcedure, Stmt.callsTo]

section Program

variable {ε : ℝ} {p : Program}

theorem programEntries_holds (G : Grid ε) :
    ∀ e ∈ (programEntries p : List (Entry (Tolerant ε))), G.Holds e.cost := by
  intro e he
  rcases List.mem_append.mp he with he | he
  · obtain ⟨b, -, he⟩ := List.mem_flatMap.mp he
    exact scopeEntries_holds G _ b e he
  · obtain ⟨q, -, he⟩ := List.mem_flatMap.mp he
    exact scopeEntries_holds G _ q.body e he

theorem entryAt_mem_programEntries {q : Option Procedure} {loops : List Stmt} {s : Stmt}
    (hs : p.Stands q loops s) : entryAt (Scope.of q) Growth.constant 0 loops s
      ∈ (programEntries p : List (Entry (Tolerant ε))) :=
  mem_programEntries_iff.mpr ⟨q, loops, s, hs, rfl⟩

/-- A property of some entry of a program is one of some statement that stands in it. -/
theorem exists_programEntry_iff {P : Entry (Tolerant ε) → Prop} :
    (∃ e ∈ programEntries p, P e)
      ↔ ∃ q loops s, p.Stands q loops s
        ∧ P (entryAt (Scope.of q) Growth.constant 0 loops s) := by
  constructor
  · rintro ⟨e, he, hP⟩
    obtain ⟨q, loops, s, hs, rfl⟩ := mem_programEntries_iff.mp he
    exact ⟨q, loops, s, hs, hP⟩
  · rintro ⟨q, loops, s, hs, hP⟩
    exact ⟨_, entryAt_mem_programEntries hs, hP⟩

/-- Rows that summarize the entries of a program chart it. -/
theorem Summarizes.charts (G : Grid ε) {table : List (LineCost (Tolerant ε))}
    (h : Summarizes (programEntries p) table) : Charts p table := by
  refine ⟨h.sorted, fun n => ⟨?_, ?_⟩, fun row hrow => ?_, fun row hrow q loops s hs hline => ?_,
    fun row hrow => ?_⟩
  · rintro ⟨row, hrow, rfl⟩
    obtain ⟨q, loops, s, hs, hline, -⟩ := exists_programEntry_iff.mp (h.summary row hrow).attained
    exact ⟨q, loops, s, hs, by simpa using hline⟩
  · rintro ⟨q, loops, s, hs, rfl⟩
    obtain ⟨row, hrow, hline⟩ := h.complete _ (entryAt_mem_programEntries hs)
    exact ⟨row, hrow, by simpa using hline⟩
  · obtain ⟨q, loops, s, hs, hline, hcost⟩ :=
      exists_programEntry_iff.mp (h.summary row hrow).attained
    rw [line_entryAt] at hline
    rw [cost_entryAt] at hcost
    exact ⟨q, loops, s, hs, hline, hcost⟩
  · obtain ⟨e, he, -, hcost⟩ := (h.summary row hrow).attained
    have hmem := entryAt_mem_programEntries (ε := ε) hs
    have hle := (h.summary row hrow).largest _ hmem (by simpa using hline)
    have hholds := programEntries_holds G _ hmem
    rw [cost_entryAt] at hle hholds
    exact (Growth.isLE_compare_iff hholds (hcost ▸ programEntries_holds G e he)).mpr hle
  · rw [(h.summary row hrow).origin, exists_programEntry_iff]
    simp only [line_entryAt, recursive_entryAt, isRecursive_of_iff]
    constructor
    · rintro ⟨_, loops, s, hs, hline, q, rfl, hcall⟩
      exact ⟨q, loops, s, hs, hline, hcall⟩
    · rintro ⟨q, loops, s, hs, hline, hcall⟩
      exact ⟨some q, loops, s, hs, hline, q, rfl, hcall⟩

/-- **The rows of a program.** If comparisons forgive less than one, the rows chart the program, in
whatever order its statements are recorded. A walker hands out these rows, and those of a procedure,
whatever it was used for before. -/
theorem ofProgram_charts (hε : 0 ≤ ε) (hε1 : ε < 1) (p : Program) (source : Text) :
    Charts p (ofProgram p source : List (LineCost (Tolerant ε)))
    ∧ (∀ es : List (Entry (Tolerant ε)), es.Perm (programEntries p) →
      Charts p (rows source.lines es))
    ∧ ∀ w : Walker (Tolerant ε),
      ((Walker.program p source).run w).run.1 = ofProgram p source
      ∧ ∀ q, ((Walker.procedure q source).run w).run.1 = ofProcedure q source := by
  have horder : ∀ es : List (Entry (Tolerant ε)), es.Perm (programEntries p) →
      Charts p (rows source.lines es) := by
    intro es hperm
    have hes : ∀ e ∈ es, (Grid.whole hε hε1).Holds e.cost := fun e he =>
      programEntries_holds (Grid.whole hε hε1) e (hperm.mem_iff.mp he)
    have hrows := rows_summarizes source.lines hes
    exact (hrows.of_mem_iff fun _ => hperm.mem_iff).charts (Grid.whole hε hε1)
  exact ⟨horder _ (List.Perm.refl _), horder, fun w =>
    ⟨Walker.run_program p source w, fun q => Walker.run_procedure q source w⟩⟩

/-- The loop `for i <- 1 to n do x <- i end`, on the second line. -/
def loopOnLine : Stmt :=
  .forLoop ⟨2, 3⟩ "i" false (.number ⟨2, 12⟩ (.finite false 1 1)) (.name ⟨2, 17⟩ "n") none
    (.mk ⟨2, 22⟩ false ⟨2, 29⟩ [.assign ⟨2, 22⟩ (.name ⟨2, 22⟩ "x") (.name ⟨2, 27⟩ "i")])

/-- The call `call P(n - 1)`, behind it on the same line. -/
def callOnLine : Stmt :=
  .call ⟨2, 33⟩ "p" true
    [.binary ⟨2, 42⟩ .sub (.name ⟨2, 40⟩ "n") (.number ⟨2, 44⟩ (.finite false 1 1))]

/-- A procedure with both statements. -/
def sharedLine : Procedure :=
  ⟨⟨1, 1⟩, "p", "P", [{ name := "n" }], .mk ⟨2, 3⟩ false ⟨3, 1⟩ [loopOnLine, callOnLine]⟩

/-- A line takes its cost from the loop that starts there and its mark from the call behind it. -/
theorem ofProgram_charts_sharedLine :
    (0 : ℝ) ≤ 1 / 10 ^ 9 ∧ (1 : ℝ) / 10 ^ 9 < 1
    ∧ ∃ row ∈ (ofProgram ⟨⟨1, 1⟩, [sharedLine], none⟩ [] : List (LineCost (Tolerant (1 / 10 ^ 9)))),
      row.line = 2 ∧ row.origin = .recurrence
      ∧ ((Growth.constant.times Growth.linear).compare row.cost).isLE = true := by
  have hε : (0 : ℝ) ≤ 1 / 10 ^ 9 := by norm_num
  have hlt : (1 : ℝ) / 10 ^ 9 < 1 := by norm_num
  obtain ⟨hcharts, -⟩ := ofProgram_charts hε hlt ⟨⟨1, 1⟩, [sharedLine], none⟩ []
  have hstands : ∀ s ∈ [loopOnLine, callOnLine],
      Program.Stands ⟨⟨1, 1⟩, [sharedLine], none⟩ (some sharedLine) [] s := fun s hs =>
    .procedure (List.mem_singleton_self _) ⟨s, hs, .self s⟩
  have hloop := hstands loopOnLine List.mem_cons_self
  have hcall := hstands callOnLine (List.mem_cons_of_mem _ List.mem_cons_self)
  have hprogress : loopOnLine.loopShape.progress = .linear := by decide
  have hcost : (loopOnLine.cost [] : Growth (Tolerant (1 / 10 ^ 9)))
      = Growth.constant.times Growth.linear := by
    have hiterations :
        (loopOnLine.iterations : Growth (Tolerant (1 / 10 ^ 9))) = Growth.linear := by
      rw [Stmt.iterations, hprogress]
      rfl
    rw [← hiterations]
    rfl
  obtain ⟨row, hrow, hline⟩ := (hcharts.lines 2).mpr ⟨_, _, _, hloop, rfl⟩
  refine ⟨hε, hlt, row, hrow, hline, ?_, ?_⟩
  · exact (hcharts.origin row hrow).mpr
      ⟨sharedLine, [], callOnLine, hcall, hline.symm, _, List.mem_cons_self, rfl⟩
  · rw [← hcost]
    exact hcharts.largest row hrow _ _ _ hloop hline.symm

end Program

end LineCost

end PseudoCost
