import PseudoCost.Proofs.LocalCost
import PseudoCost.Proofs.Patterns

/-!
# The largest line of a scope

The rows of a scope keep, for each line, the largest of its entries. So the largest row is the
largest entry, on however few lines the statements stand, and in whatever order the lines come:
a bound is above every row exactly if it is above every entry (`rows_le_iff`). The search for the
largest row starts at a constant, so its bound is above that too (`largest_key_le_iff`).

An entry is the multiplier it started from, times the iterations of the loops around it. What
holds of the multiplier and passes through loops therefore holds of every entry
(`blockEntries_closed`); in particular entries stay on a grid.
-/

namespace PseudoCost

open Tolerant

variable {ε : ℝ} {G : Grid ε}

/-! ## The largest of several growths -/

namespace Growth

/-- A property of growths that holds of what is done in a loop if it holds of the loop. -/
def LoopClosed {R : Type} [Scalar R] (P : Growth R → Prop) : Prop :=
  ∀ (g : Growth R) (progress : Progress), P g → P (g.times progress.iterations)

variable {ι : Type} {cost : ι → Growth (Tolerant ε)} {f : Growth (Tolerant ε)} {xs : List ι}

theorem foldl_max_holds (hf : G.Holds f) (hxs : ∀ x ∈ xs, G.Holds (cost x)) :
    G.Holds (xs.foldl (fun f x => f.max (cost x)) f) :=
  List.foldlRecOn xs _ hf fun _ hg x hx => max_of_both hg (hxs x hx)

theorem foldl_max_key_le_iff {bound : ℝ ×ₗ (ℝ ×ₗ ℤ)} (hf : G.Holds f)
    (hxs : ∀ x ∈ xs, G.Holds (cost x)) :
    (xs.foldl (fun f x => f.max (cost x)) f).key ≤ bound
      ↔ f.key ≤ bound ∧ ∀ x ∈ xs, (cost x).key ≤ bound := by
  induction xs generalizing f with
  | nil => simp
  | cons x xs ih =>
      obtain ⟨hx, hxs⟩ := List.forall_mem_cons.mp hxs
      rw [List.foldl_cons, ih (max_of_both hf hx) hxs, key_max hf hx, max_le_iff,
        List.forall_mem_cons, and_assoc]

end Growth

namespace LineCost

/-! ## Properties of entries -/

section Entries

variable {R : Type} [Scalar R] {P : Growth R → Prop} {scope : Scope}

mutual

theorem entriesOf_closed (htimes : Growth.LoopClosed P) (loops : Nat) :
    ∀ (s : Stmt) {m : Growth R}, P m → ∀ e ∈ entriesOf scope m loops s, P e.cost
  | .forLoop _ _ _ _ _ _ body, m, hm => by
      rw [entriesOf]
      exact List.forall_mem_cons.mpr
        ⟨htimes _ _ hm, blockEntries_closed htimes (loops + 1) body (htimes _ _ hm)⟩
  | .whileLoop _ _ _ body, m, hm => by
      rw [entriesOf]
      exact List.forall_mem_cons.mpr
        ⟨htimes _ _ hm, blockEntries_closed htimes (loops + 1) body (htimes _ _ hm)⟩
  | .repeatLoop _ _ body _, m, hm => by
      rw [entriesOf]
      exact List.forall_mem_cons.mpr
        ⟨htimes _ _ hm, blockEntries_closed htimes (loops + 1) body (htimes _ _ hm)⟩
  | .conditional _ _ thenBlock (some elseBlock), m, hm => by
      rw [entriesOf]
      exact List.forall_mem_cons.mpr ⟨hm, List.forall_mem_append.mpr
        ⟨blockEntries_closed htimes loops thenBlock hm,
          blockEntries_closed htimes loops elseBlock hm⟩⟩
  | .conditional _ _ thenBlock none, m, hm => by
      rw [entriesOf]
      exact List.forall_mem_cons.mpr ⟨hm, blockEntries_closed htimes loops thenBlock hm⟩
  | .assign .., m, hm | .call .., m, hm | .give .., m, hm => by
      rw [entriesOf]
      exact List.forall_mem_singleton.mpr hm

/-- A property of growths that loops preserve passes from how often a block runs to its entries. -/
theorem blockEntries_closed (htimes : Growth.LoopClosed P) (loops : Nat) :
    ∀ (b : Block) {m : Growth R}, P m → ∀ e ∈ blockEntries scope m loops b, P e.cost
  | .mk _ _ _ stmts, m, hm => by
      rw [blockEntries]
      exact listEntries_closed htimes loops stmts hm

theorem listEntries_closed (htimes : Growth.LoopClosed P) (loops : Nat) :
    ∀ (ss : List Stmt) {m : Growth R}, P m → ∀ e ∈ listEntries scope m loops ss, P e.cost
  | [], m, _ => by
      rw [listEntries]
      exact fun _ he => absurd he List.not_mem_nil
  | s :: ss, m, hm => by
      rw [listEntries]
      exact List.forall_mem_append.mpr
        ⟨entriesOf_closed htimes loops s hm, listEntries_closed htimes loops ss hm⟩

end

end Entries

/-! ## Bounds of entries and rows -/

/-- Every entry is below a bound. -/
def Below (bound : ℝ ×ₗ (ℝ ×ₗ ℤ)) (entries : List (Entry (Tolerant ε))) : Prop :=
  ∀ e ∈ entries, e.cost.key ≤ bound

/-- Every row is below a bound. -/
def RowsBelow (bound : ℝ ×ₗ (ℝ ×ₗ ℤ)) (table : List (LineCost (Tolerant ε))) : Prop :=
  ∀ row ∈ table, row.cost.key ≤ bound

variable {bound : ℝ ×ₗ (ℝ ×ₗ ℤ)} {e : Entry (Tolerant ε)} {es es' : List (Entry (Tolerant ε))}
  {row : LineCost (Tolerant ε)} {table : List (LineCost (Tolerant ε))}

@[simp] theorem below_nil : Below bound ([] : List (Entry (Tolerant ε))) :=
  fun _ he => absurd he List.not_mem_nil

@[simp] theorem below_cons : Below bound (e :: es) ↔ e.cost.key ≤ bound ∧ Below bound es :=
  List.forall_mem_cons

@[simp] theorem below_append : Below bound (es ++ es') ↔ Below bound es ∧ Below bound es' :=
  List.forall_mem_append

theorem rowsBelow_cons :
    RowsBelow bound (row :: table) ↔ row.cost.key ≤ bound ∧ RowsBelow bound table :=
  List.forall_mem_cons

theorem absorb_key (source : List Text) (hrow : G.Holds row.cost) (he : G.Holds e.cost) :
    (absorb source row e).cost.key = Max.max e.cost.key row.cost.key := by
  rw [absorb]
  cases hdom : e.cost.dominates row.cost with
  | true =>
      have hlt : row.cost.key < e.cost.key := by
        rw [← not_le, ← Growth.dominates_eq_false_iff he hrow, hdom]
        simp
      rw [if_pos rfl, max_eq_left hlt.le]
      rfl
  | false =>
      rw [if_neg Bool.false_ne_true,
        max_eq_right ((Growth.dominates_eq_false_iff he hrow).mp hdom)]
      split <;> rfl

theorem absorb_holds (source : List Text) (hrow : G.Holds row.cost) (he : G.Holds e.cost) :
    G.Holds (absorb source row e).cost := by
  rw [absorb]
  split
  · exact he
  · split <;> exact hrow

theorem record_holds (source : List Text) (he : G.Holds e.cost) :
    ∀ {table : List (LineCost (Tolerant ε))}, (∀ row ∈ table, G.Holds row.cost) →
      ∀ row ∈ record source e table, G.Holds row.cost
  | [], _ => List.forall_mem_singleton.mpr he
  | row :: table, h => by
      obtain ⟨hrow, htable⟩ := List.forall_mem_cons.mp h
      rw [record]
      split
      · exact List.forall_mem_cons.mpr ⟨he, h⟩
      · split
        · exact List.forall_mem_cons.mpr ⟨absorb_holds source hrow he, htable⟩
        · exact List.forall_mem_cons.mpr ⟨hrow, record_holds source he htable⟩

/-- Recording an entry puts it under the bound of the rows, wherever its line stands. -/
theorem record_le_iff (source : List Text) (he : G.Holds e.cost) :
    ∀ {table : List (LineCost (Tolerant ε))}, (∀ row ∈ table, G.Holds row.cost) →
      (RowsBelow bound (record source e table) ↔ e.cost.key ≤ bound ∧ RowsBelow bound table)
  | [], _ => rowsBelow_cons
  | row :: table, h => by
      obtain ⟨hrow, htable⟩ := List.forall_mem_cons.mp h
      rw [record]
      split
      · exact rowsBelow_cons
      · split
        · rw [rowsBelow_cons, rowsBelow_cons, absorb_key source hrow he, max_le_iff, and_assoc]
        · rw [rowsBelow_cons, rowsBelow_cons, record_le_iff source he htable, and_left_comm]

theorem rows_holds (source : List Text) (hes : ∀ e ∈ es, G.Holds e.cost) :
    ∀ row ∈ rows source es, G.Holds row.cost := by
  let holds (table : List (LineCost (Tolerant ε))) : Prop := ∀ row ∈ table, G.Holds row.cost
  have hnil : holds [] := fun _ h => absurd h List.not_mem_nil
  refine List.foldlRecOn (motive := holds) es _ hnil fun table htable e he => ?_
  exact record_holds source (hes e he) htable

theorem foldl_record_le_iff (source : List Text) : ∀ {es : List (Entry (Tolerant ε))},
    (∀ e ∈ es, G.Holds e.cost) → ∀ {table : List (LineCost (Tolerant ε))},
    (∀ row ∈ table, G.Holds row.cost) →
      (RowsBelow bound (es.foldl (fun table e => record source e table) table)
        ↔ Below bound es ∧ RowsBelow bound table)
  | [], _, table, _ => by simp
  | e :: es, hes, table, htable => by
      obtain ⟨he, hes⟩ := List.forall_mem_cons.mp hes
      rw [List.foldl_cons, foldl_record_le_iff source hes (record_holds source he htable),
        record_le_iff source he htable, below_cons, and_left_comm, and_assoc]

/-- A bound is above every row exactly if it is above every entry. -/
theorem rows_le_iff (source : List Text) (hes : ∀ e ∈ es, G.Holds e.cost) :
    RowsBelow bound (rows source es) ↔ Below bound es := by
  rw [rows, foldl_record_le_iff source hes fun _ h => absurd h List.not_mem_nil]
  exact and_iff_left fun _ h => absurd h List.not_mem_nil

/-! ## The largest row of a procedure -/

/-- The largest cost of a line of a procedure, a constant if there is none. -/
def largest {R : Type} [Scalar R] (q : Procedure) (source : Text) : Growth R :=
  (ofProcedure q source).foldl (fun f row => f.max row.cost) Growth.constant

theorem scopeEntries_holds (G : Grid ε) (scope : Scope) (b : Block) :
    ∀ e ∈ (scopeEntries scope b : List (Entry (Tolerant ε))), G.Holds e.cost :=
  blockEntries_closed (fun _ progress hg => Growth.holds_times hg
    (isExponential_iterations G.nonneg progress) (degree_iterations progress)) 0 b holds_constant

theorem largest_holds (G : Grid ε) (q : Procedure) (source : Text) :
    G.Holds (largest q source : Growth (Tolerant ε)) :=
  Growth.foldl_max_holds holds_constant (rows_holds source.lines (scopeEntries_holds G _ _))

/-- The largest line of a procedure is its largest entry. -/
theorem largest_key_le_iff (G : Grid ε) (q : Procedure) (source : Text) :
    (largest q source : Growth (Tolerant ε)).key ≤ bound
      ↔ (Growth.constant : Growth (Tolerant ε)).key ≤ bound
        ∧ Below bound (scopeEntries (Scope.ofProcedure q) q.body : List (Entry (Tolerant ε))) := by
  have hentries := scopeEntries_holds G (Scope.ofProcedure q) q.body
  refine (Growth.foldl_max_key_le_iff holds_constant (rows_holds source.lines hentries)).trans ?_
  exact and_congr_right fun _ => rows_le_iff source.lines hentries

end LineCost

end PseudoCost
