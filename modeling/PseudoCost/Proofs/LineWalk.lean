import PseudoCost.LineCost

/-!
# Lines recorded on a walk

The rows of a scope come from a list of entries, which is folded. The same rows can be recorded on a
walk over the statements that keeps, beside the rows, the scope it is in, how often the statement at
hand runs and how many loops are around it. A loop changes the latter two for its body and then puts
them back.

A walk over a piece of a program `Records` entries if, from whatever it is started with, it adds
them to the rows and leaves the rest as it was. Doing one thing after another records the entries of
both (`Records.andThen`), and so does a loop (`Records.inLoop`), because what it changes is put
back. So a walk records exactly the entries of a statement (`records_visit`).

A walker can be used again, for the whole program or for one procedure. Each use first clears the
rows, and each scope sets everything else, so the answers do not depend on earlier uses
(`run_program`, `run_procedure`).
-/

namespace PseudoCost.LineCost

variable {R : Type} [Scalar R]

/-- What a walk keeps: the rows so far, the scope, how often the statement at hand runs and the
number of loops around it. -/
structure Walker (R : Type) where
  rows : List (LineCost R)
  scope : Scope
  cost : Growth R
  loops : Nat

namespace Walker

/-! ## The walk -/

/-- Records a statement. -/
def note (source : List Text) (s : Stmt) (cost : Growth R) (explanation : Text) :
    StateM (Walker R) Unit :=
  modify fun w => { w with rows := record source (entry w.scope s cost explanation) w.rows }

/-- Records a statement that runs as often as its surroundings. -/
def noteHere (source : List Text) (s : Stmt) (lead : Text) : StateM (Walker R) Unit := do
  let w ← get
  note source s w.cost (lead ++ countText w.cost w.loops)

/-- Records a loop, and walks its body with the iterations of the loop counted in. -/
def inLoop (source : List Text) (s : Stmt) (body : StateM (Walker R) Unit) :
    StateM (Walker R) Unit := do
  let outer ← get
  let inner := outer.cost.times s.loopShape.progress.iterations
  note source s inner
    ("loop header, " ++ s.loopShape.progress.text ++ " progress: " ++ s.loopShape.detail)
  modify fun w => { w with cost := inner, loops := w.loops + 1 }
  body
  modify fun w => { w with cost := outer.cost, loops := w.loops - 1 }

mutual

/-- Walks a statement. -/
def visit (source : List Text) : Stmt → StateM (Walker R) Unit
  | .forLoop pos control descending start stop step body =>
    inLoop source (.forLoop pos control descending start stop step body) (visitBlock source body)
  | .whileLoop pos control cond body =>
    inLoop source (.whileLoop pos control cond body) (visitBlock source body)
  | .repeatLoop pos control body cond =>
    inLoop source (.repeatLoop pos control body cond) (visitBlock source body)
  | .conditional pos cond thenBlock (some elseBlock) => do
    noteHere source (.conditional pos cond thenBlock (some elseBlock)) "condition test; "
    visitBlock source thenBlock
    visitBlock source elseBlock
  | .conditional pos cond thenBlock none => do
    noteHere source (.conditional pos cond thenBlock none) "condition test; "
    visitBlock source thenBlock
  | .assign pos target value => noteHere source (.assign pos target value) []
  | .call pos callee explicit args => noteHere source (.call pos callee explicit args) []
  | .give pos value => noteHere source (.give pos value) []

/-- Walks the statements of a block. -/
def visitBlock (source : List Text) : Block → StateM (Walker R) Unit
  | .mk _ _ _ stmts => visitList source stmts

/-- Walks several statements. -/
def visitList (source : List Text) : List Stmt → StateM (Walker R) Unit
  | [] => return
  | s :: ss => do
    visit source s
    visitList source ss

end

/-- Walks the body of a scope, which runs once. -/
def visitScope (source : List Text) (scope : Scope) (body : Block) : StateM (Walker R) Unit := do
  modify fun w => { w with scope := scope, cost := Growth.constant, loops := 0 }
  visitBlock source body

/-- Walks a whole program and hands out the rows. -/
def program (p : Program) (source : Text) : StateM (Walker R) (List (LineCost R)) := do
  modify fun w => { w with rows := [] }
  p.main.forM (visitScope source.lines Scope.main)
  p.procedures.forM fun q => visitScope source.lines (Scope.ofProcedure q) q.body
  return (← get).rows

/-- Walks one procedure and hands out the rows. -/
def procedure (q : Procedure) (source : Text) : StateM (Walker R) (List (LineCost R)) := do
  modify fun w => { w with rows := [] }
  visitScope source.lines (Scope.ofProcedure q) q.body
  return (← get).rows

/-! ## What a walk records -/

/-- Rows with some entries added. -/
def added (source : List Text) (rows : List (LineCost R)) (es : List (Entry R)) :
    List (LineCost R) :=
  es.foldl (fun table e => record source e table) rows

theorem added_append (source : List Text) (rows : List (LineCost R)) (es es' : List (Entry R)) :
    added source rows (es ++ es') = added source (added source rows es) es' :=
  List.foldl_append

/-- The walk adds entries, which depend on where it is, to the rows, and leaves the rest as it
was. -/
def Records (source : List Text) (walk : StateM (Walker R) Unit)
    (entries : Scope → Growth R → Nat → List (Entry R)) : Prop :=
  ∀ w, (walk.run w).run
    = ((), { w with rows := added source w.rows (entries w.scope w.cost w.loops) })

variable {source : List Text} {walk walk' : StateM (Walker R) Unit}
  {entries entries' : Scope → Growth R → Nat → List (Entry R)}

theorem records_noteHere (s : Stmt) (lead : Text) :
    Records (R := R) source (noteHere source s lead)
      fun scope cost loops => [entry scope s cost (lead ++ countText cost loops)] :=
  fun _ => rfl

theorem Records.andThen (h : Records source walk entries) (h' : Records source walk' entries') :
    Records source (do walk; walk')
      fun scope cost loops => entries scope cost loops ++ entries' scope cost loops := by
  intro w
  show (walk'.run ((walk.run w).run).2).run = _
  rw [h, h', added_append]

/-- A loop records itself and, with its iterations counted in, its body. -/
theorem Records.inLoop (h : Records source walk entries) (s : Stmt) :
    Records source (inLoop source s walk) fun scope cost loops =>
      let inner := cost.times s.loopShape.progress.iterations
      loopEntry scope s inner :: entries scope inner (loops + 1) := by
  intro w
  let inner := w.cost.times s.loopShape.progress.iterations
  let entered : Walker R :=
    ⟨record source (loopEntry w.scope s inner) w.rows, w.scope, inner, w.loops + 1⟩
  show ((), { ((walk.run entered).run).2 with
    cost := w.cost, loops := ((walk.run entered).run).2.loops - 1 }) = _
  rw [h entered]
  rfl

mutual

theorem records_visit : ∀ s : Stmt, Records (R := R) source (visit source s)
    fun scope cost loops => entriesOf scope cost loops s
  | .forLoop _ _ _ _ _ _ body => by
      simp only [visit, entriesOf]
      exact (records_visitBlock body).inLoop _
  | .whileLoop _ _ _ body => by
      simp only [visit, entriesOf]
      exact (records_visitBlock body).inLoop _
  | .repeatLoop _ _ body _ => by
      simp only [visit, entriesOf]
      exact (records_visitBlock body).inLoop _
  | .conditional _ _ thenBlock (some elseBlock) => by
      simp only [visit, entriesOf]
      exact (records_noteHere _ _).andThen
        ((records_visitBlock thenBlock).andThen (records_visitBlock elseBlock))
  | .conditional _ _ thenBlock none => by
      simp only [visit, entriesOf]
      exact (records_noteHere _ _).andThen (records_visitBlock thenBlock)
  | .assign .. | .call .. | .give .. => by
      simp only [visit, entriesOf]
      exact records_noteHere _ _

/-- A walk over a block records the entries of the block. -/
theorem records_visitBlock : ∀ b : Block, Records (R := R) source (visitBlock source b)
    fun scope cost loops => blockEntries scope cost loops b
  | .mk _ _ _ stmts => by
      simp only [visitBlock, blockEntries]
      exact records_visitList stmts

theorem records_visitList : ∀ ss : List Stmt, Records (R := R) source (visitList source ss)
    fun scope cost loops => listEntries scope cost loops ss
  | [] => fun _ => by
      simp only [visitList, listEntries]
      rfl
  | s :: ss => by
      simp only [visitList, listEntries]
      exact (records_visit s).andThen (records_visitList ss)

end

/-! ## Uses of a walker -/

theorem rows_visitScope (source : List Text) (scope : Scope) (body : Block) (w : Walker R) :
    (((visitScope source scope body).run w).run).2.rows
      = added source w.rows (scopeEntries scope body) := by
  have h : Records (R := R) source (visitBlock source body)
      (fun scope cost loops => blockEntries scope cost loops body) := records_visitBlock body
  exact congrArg (fun r => r.2.rows)
    (h { w with scope := scope, cost := Growth.constant, loops := 0 })

theorem rows_forM : ∀ (qs : List Procedure) (w : Walker R),
    (((qs.forM fun q => visitScope source (Scope.ofProcedure q) q.body).run w).run).2.rows
      = added source w.rows
          (qs.flatMap fun q => scopeEntries (Scope.ofProcedure q) q.body)
  | [], _ => rfl
  | q :: qs, w => by
      rw [List.flatMap_cons, added_append, ← rows_visitScope source (Scope.ofProcedure q) q.body w]
      exact rows_forM qs _

/-- Whatever a walker was used for, it hands out the rows of a program. -/
theorem run_program (p : Program) (source : Text) (w : Walker R) :
    ((program p source).run w).run.1 = ofProgram p source := by
  have hrows : (ofProgram p source : List (LineCost R))
      = added source.lines [] (programEntries p) := rfl
  rw [hrows, programEntries, added_append]
  cases hmain : p.main with
  | none =>
      rw [program, hmain]
      exact rows_forM p.procedures { w with rows := [] }
  | some b =>
      have hfirst := rows_visitScope source.lines Scope.main b { w with rows := [] }
      rw [program, hmain, Option.toList_some, List.flatMap_singleton, ← hfirst]
      exact rows_forM p.procedures _

/-- Whatever a walker was used for, it hands out the rows of a procedure. -/
theorem run_procedure (q : Procedure) (source : Text) (w : Walker R) :
    ((procedure q source).run w).run.1 = ofProcedure q source :=
  rows_visitScope source.lines (Scope.ofProcedure q) q.body { w with rows := [] }

end Walker

end PseudoCost.LineCost
