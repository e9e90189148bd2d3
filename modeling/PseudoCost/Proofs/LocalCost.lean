import PseudoCost.Recurrence.Derivation
import PseudoCost.Proofs.Operations

/-!
# What the local cost of a procedure depends on

Entries are folded into one row for each line, and the cost of a row is the cost of some entry. The
source text, the explanations and the marks of recursion have no part in it: entries that agree in
line and cost give rows that do (`rows_alike`). The local cost of a procedure is the largest cost of
a row and of a helper, so it depends on entries and verdicts alone (`localCost_congr`).
-/

namespace PseudoCost

namespace LineCost

variable {R : Type} [Scalar R]

/-- Two entries are about the same line at the same cost. -/
def Entry.Alike (e e' : Entry R) : Prop := e.line = e'.line ∧ e.cost = e'.cost

/-- Two rows are about the same line at the same cost. -/
def Alike (row row' : LineCost R) : Prop := row.line = row'.line ∧ row.cost = row'.cost

theorem ofEntry_alike {e e' : Entry R} (h : e.Alike e') (source source' : List Text)
    (b b' : Bool) : Alike (ofEntry source b e) (ofEntry source' b' e') := h

theorem absorb_alike {row row' : LineCost R} {e e' : Entry R} (hrow : Alike row row')
    (h : e.Alike e') (source source' : List Text) :
    Alike (absorb source row e) (absorb source' row' e') := by
  have hdom : e.cost.dominates row.cost = e'.cost.dominates row'.cost := by rw [h.2, hrow.2]
  rw [absorb, absorb, hdom]
  split
  · exact ofEntry_alike h _ _ _ _
  · split <;> split <;> exact hrow

theorem record_alike {e e' : Entry R} (h : e.Alike e') (source source' : List Text) :
    ∀ {table table' : List (LineCost R)}, List.Forall₂ Alike table table' →
      List.Forall₂ Alike (record source e table) (record source' e' table')
  | [], [], .nil => .cons (ofEntry_alike h _ _ _ _) .nil
  | row :: table, row' :: table', .cons hrow htable => by
      rw [record, record, h.1, hrow.1]
      by_cases hlt : e'.line < row'.line
      · rw [if_pos hlt, if_pos hlt]
        exact .cons (ofEntry_alike h _ _ _ _) (.cons hrow htable)
      · rw [if_neg hlt, if_neg hlt]
        by_cases heq : e'.line = row'.line
        · rw [if_pos heq, if_pos heq]
          exact .cons (absorb_alike hrow h _ _) htable
        · rw [if_neg heq, if_neg heq]
          exact .cons hrow (record_alike h source source' htable)

/-- Entries that agree in line and cost give rows that do, whatever the source is. -/
theorem rows_alike {es es' : List (Entry R)} (h : List.Forall₂ Entry.Alike es es')
    (source source' : List Text) : List.Forall₂ Alike (rows source es) (rows source' es') := by
  have hfold : ∀ {table table' : List (LineCost R)}, List.Forall₂ Alike table table' →
      List.Forall₂ Alike (es.foldl (fun table e => record source e table) table)
        (es'.foldl (fun table e => record source' e table) table') := by
    induction h with
    | nil => exact fun htable => htable
    | cons he _ ih => exact fun htable => ih (record_alike he source source' htable)
  exact hfold .nil

/-- The largest cost among alike rows is the same. -/
theorem foldl_max_alike {table table' : List (LineCost R)} (h : List.Forall₂ Alike table table')
    (f : Growth R) :
    table.foldl (fun f row => f.max row.cost) f = table'.foldl (fun f row => f.max row.cost) f := by
  induction h generalizing f with
  | nil => rfl
  | cons hrow _ ih =>
      rw [List.foldl_cons, List.foldl_cons, hrow.2]
      exact ih _

end LineCost

namespace Recurrence

variable {R : Type} [Scalar R]

/-- The largest worst case of some procedures, without an engine. -/
theorem largestWorst_run (p : Program) (f : Growth R) (names : List Name) :
    ((largestWorst f names).run (Engine.ofProgram p)).1
      = names.foldl (fun f n => f.max (Engine.verdictOn p (fun _ => none) n).cases.worst) f := by
  have hgives : Gives (Engine.Faithful p []) (largestWorst f names)
      (names.foldl (fun f n => f.max (Engine.verdictOn p (fun _ => none) n).cases.worst) f) := by
    refine Gives.foldlM (fun n _ g => ?_) f
    exact (Engine.runProcedure_gives (m := Id) Verdict.constant n).bind_pure fun v =>
      g.max v.cases.worst
  obtain ⟨e, he, -⟩ := hgives _ (Engine.faithful_ofProgram p)
  rw [he]
  rfl

/-- Procedures whose statements cost the same line by line, and whose helpers cost the same, have
the same local cost, whatever the sources are. -/
theorem localCost_congr {p p' : Program} {q q' : Procedure}
    (hentries : List.Forall₂ LineCost.Entry.Alike
      (LineCost.scopeEntries (R := R) (.ofProcedure q) q.body)
      (LineCost.scopeEntries (.ofProcedure q') q'.body))
    (hhelpers : helpers (CallGraph.ofProgram p) q.name = helpers (CallGraph.ofProgram p') q'.name)
    (hworst : ∀ n ∈ helpers (CallGraph.ofProgram p) q.name,
      (Engine.verdictOn p (fun _ => none) n : Verdict R).cases.worst
        = (Engine.verdictOn p' (fun _ => none) n).cases.worst)
    (source source' : Text) :
    (localCost p source q : Growth R) = localCost p' source' q' := by
  have hlines := LineCost.foldl_max_alike
    (LineCost.rows_alike hentries source.lines source'.lines) Growth.constant
  simp only [localCost, largestWorst_run]
  rw [← hhelpers, LineCost.ofProcedure, LineCost.ofProcedure, hlines]
  refine List.foldl_ext _ _ _ fun f n hn => ?_
  rw [hworst n hn]

end Recurrence

end PseudoCost
