import PseudoCost.Program.Reading
import PseudoCost.Proofs.ReadingRules

/-!
# Reading only moves forward

No reader ever puts a token back, so there are never more tokens left after a reading than before.
`Forward` says so of one reader. It is a class: whether a reader moves forward is settled by what it
is made of, so for most readers it is inferred from their definitions, and only loops and nested
readings need an induction.
-/

namespace PseudoCost

open Reading

-- The longest definitions are sequences of some twenty readers.
set_option synthInstance.maxSize 1000

theorem exists_of_run_bind {α β : Type} {r : Reading α} {f : α → Reading β}
    {c c' : Token.Cursor} {b : β} (h : (r >>= f).run c = .ok (b, c')) :
    ∃ a c₁, r.run c = .ok (a, c₁) ∧ (f a).run c₁ = .ok (b, c') := by
  cases hrun : r.run c with
  | error e =>
      rw [StateT.run_bind, hrun] at h
      cases h
  | ok ac => exact ⟨ac.1, ac.2, rfl, by rwa [run_bind_ok hrun] at h⟩

/-- A successful reading leaves no more tokens than it found, before the same end of the input. -/
class Forward {α : Type} (r : Reading α) : Prop where
  length_le : ∀ {c c' : Token.Cursor} {a : α}, r.run c = .ok (a, c') →
    c'.rest.length ≤ c.rest.length
  stop_eq : ∀ {c c' : Token.Cursor} {a : α}, r.run c = .ok (a, c') → c'.stop = c.stop

namespace Forward

/-! ## Sequencing -/

section Sequencing

variable {α β : Type}

instance pure (a : α) : Forward (Pure.pure a) where
  length_le h := by cases h; exact Nat.le_refl _
  stop_eq h := by cases h; rfl

instance bind {r : Reading α} {f : α → Reading β} [hr : Forward r] [hf : ∀ a, Forward (f a)] :
    Forward (r >>= f) where
  length_le h := by
    obtain ⟨a, c₁, hfirst, hsecond⟩ := exists_of_run_bind h
    exact Nat.le_trans ((hf a).length_le hsecond) (hr.length_le hfirst)
  stop_eq h := by
    obtain ⟨a, c₁, hfirst, hsecond⟩ := exists_of_run_bind h
    rw [(hf a).stop_eq hsecond, hr.stop_eq hfirst]

theorem andThen {r : Reading α} [Forward r] {f : α → Reading β} (hf : ∀ a, Forward (f a)) :
    Forward (r >>= f) := inferInstance

instance map {r : Reading α} {f : α → β} [Forward r] : Forward (f <$> r) := by
  rw [map_eq_pure_bind]
  infer_instance

instance ite {p : Prop} [Decidable p] {r s : Reading α} [Forward r] [Forward s] :
    Forward (if p then r else s) := by
  split <;> assumption

instance fail (expected : Text) : Forward (Reading.fail expected : Reading α) where
  length_le h := by cases h
  stop_eq h := by cases h

instance exhausted : Forward (Reading.exhausted : Reading α) where
  length_le h := by cases h
  stop_eq h := by cases h

instance throw (e : Failure) : Forward (throw e : Reading α) where
  length_le h := by cases h
  stop_eq h := by cases h

end Sequencing

/-! ## Primitive readers -/

instance remaining : Forward remaining where
  length_le h := by cases h; exact Nat.le_refl _
  stop_eq h := by cases h; rfl

instance peek : Forward peek where
  length_le h := by cases h; exact Nat.le_refl _
  stop_eq h := by cases h; rfl

instance kind : Forward kind where
  length_le h := by cases h; exact Nat.le_refl _
  stop_eq h := by cases h; rfl

instance nextKind : Forward nextKind where
  length_le h := by cases h; exact Nat.le_refl _
  stop_eq h := by cases h; rfl

instance take : Forward take where
  length_le h := by
    cases h
    simp [Token.Cursor.advance]
  stop_eq h := by cases h; rfl

instance skipWithin (kinds : List Token.Kind) (fuel : Nat) : Forward (skipWithin kinds fuel) := by
  induction fuel with
  | zero => exact Forward.exhausted
  | succ fuel ih =>
      unfold Reading.skipWithin
      infer_instance

instance skipAll (kinds : List Token.Kind) : Forward (skipAll kinds) := by
  unfold Reading.skipAll
  infer_instance

instance accept (k : Token.Kind) : Forward (accept k) := by
  unfold Reading.accept
  infer_instance

instance expect (k : Token.Kind) (expected : Text) : Forward (expect k expected) := by
  unfold Reading.expect
  infer_instance

instance moreItems {α : Type} {item : Reading α} [Forward item] (fuel : Nat) :
    Forward (moreItems item fuel) := by
  induction fuel with
  | zero => exact Forward.exhausted
  | succ fuel ih =>
      unfold Reading.moreItems
      infer_instance

instance items {α : Type} {item : Reading α} [Forward item] : Forward (items item) := by
  unfold Reading.items
  infer_instance

/-! ## Expressions -/

section Expressions

variable {expr operand : Reading Expr} [Forward expr] [Forward operand]

instance chain (op? : Token.Kind → Option BinaryOp) (fuel : Nat) (lhs : Expr) :
    Forward (Expr.chain op? operand fuel lhs) := by
  induction fuel generalizing lhs with
  | zero => exact Forward.exhausted
  | succ fuel ih =>
      unfold Expr.chain
      refine Forward.andThen fun k => ?_
      split <;> infer_instance

instance level (op? : Token.Kind → Option BinaryOp) : Forward (Expr.level op? operand) := by
  unfold Expr.level
  infer_instance

instance foldrLevel (ops : List (Token.Kind → Option BinaryOp)) :
    Forward (ops.foldr Expr.level operand) := by
  induction ops with
  | nil => assumption
  | cons op? ops ih => exact level op?

instance binaryLevels : Forward (Expr.binaryLevels operand) := by
  unfold Expr.binaryLevels
  infer_instance

instance rangeLevel : Forward (Expr.rangeLevel operand) := by
  unfold Expr.rangeLevel
  infer_instance

instance accesses (fuel : Nat) (base : Expr) : Forward (Expr.accesses expr fuel base) := by
  induction fuel generalizing base with
  | zero => exact Forward.exhausted
  | succ fuel ih =>
      unfold Expr.accesses
      refine Forward.andThen fun k => ?_
      split <;> infer_instance

instance arguments (explicit : Bool) : Forward (Expr.arguments expr explicit) := by
  unfold Expr.arguments
  dsimp only
  infer_instance

instance procedureName : Forward Expr.procedureName := by
  unfold Expr.procedureName
  infer_instance

instance explicitCall (pos : Pos) : Forward (Expr.explicitCall expr pos) := by
  unfold Expr.explicitCall
  infer_instance

instance rounded (pos : Pos) (op : UnaryOp) (closing : Token.Kind) (expected : Text) :
    Forward (Expr.rounded expr pos op closing expected) := by
  unfold Expr.rounded
  infer_instance

instance primary : Forward (Expr.primary expr) := by
  unfold Expr.primary
  refine Forward.andThen fun t => ?_
  split
  · refine Forward.andThen fun _ => ?_
    split <;> infer_instance
  all_goals infer_instance

instance powerLevel {sign : Reading Expr} [Forward sign] :
    Forward (Expr.powerLevel expr sign) := by
  unfold Expr.powerLevel
  infer_instance

end Expressions

/-- Expressions, and expressions at the level of signs, are read over each other. -/
theorem expressions (depth : Nat) :
    Forward (Expr.readWithin depth) ∧ Forward (Expr.readSign depth) := by
  induction depth with
  | zero =>
      unfold Expr.readWithin Expr.readSign
      exact ⟨inferInstance, inferInstance⟩
  | succ depth ih =>
      obtain ⟨hwithin, hsign⟩ := ih
      constructor
      · rw [Expr.readWithin]
        infer_instance
      · rw [Expr.readSign]
        refine Forward.andThen fun k => ?_
        split <;> infer_instance

instance exprReadWithin (depth : Nat) : Forward (Expr.readWithin depth) := (expressions depth).1

instance readSign (depth : Nat) : Forward (Expr.readSign depth) := (expressions depth).2

instance exprRead : Forward Expr.read := by
  unfold Expr.read
  infer_instance

/-! ## Statements -/

section Statements

open Stmt (ListReading)

variable {stmt : Reading Stmt} {nested : Reading Block} {list : ListReading} [Forward stmt]
  [Forward nested] [∀ stops, Forward (list stops)]

instance here : Forward Stmt.here := by
  unfold Stmt.here
  infer_instance

instance block : Forward (Stmt.block list) := by
  unfold Stmt.block
  infer_instance

instance body : Forward (Stmt.body list) := by
  unfold Stmt.body
  infer_instance

instance branch (opener : Token) (stops : List Token.Kind) :
    Forward (Stmt.branch stmt list opener stops) := by
  unfold Stmt.branch
  infer_instance

instance upTo (stops : List Token.Kind) (fuel : Nat) :
    Forward (Stmt.upTo stmt nested stops fuel) := by
  induction fuel with
  | zero => exact Forward.exhausted
  | succ fuel ih =>
      unfold Stmt.upTo
      infer_instance

instance assignSign : Forward Stmt.assignSign := by
  unfold Stmt.assignSign
  infer_instance

instance designator (t : Token) : Forward (Stmt.designator t) := by
  unfold Stmt.designator
  infer_instance

instance forStmt (pos : Pos) : Forward (Stmt.forStmt list pos) := by
  unfold Stmt.forStmt
  dsimp only
  infer_instance

instance whileStmt (pos : Pos) : Forward (Stmt.whileStmt list pos) := by
  unfold Stmt.whileStmt
  infer_instance

instance repeatStmt (pos : Pos) : Forward (Stmt.repeatStmt list pos) := by
  unfold Stmt.repeatStmt
  infer_instance

instance ifStmt (pos : Pos) : Forward (Stmt.ifStmt stmt list pos) := by
  unfold Stmt.ifStmt
  dsimp only
  infer_instance

instance callStmt (pos : Pos) : Forward (Stmt.callStmt pos) := by
  unfold Stmt.callStmt
  infer_instance

instance returnStmt (pos : Pos) : Forward (Stmt.returnStmt pos) := by
  unfold Stmt.returnStmt
  infer_instance

instance printStmt (pos : Pos) : Forward (Stmt.printStmt pos) := by
  unfold Stmt.printStmt
  dsimp only
  infer_instance

instance swapStmt (pos : Pos) : Forward (Stmt.swapStmt pos) := by
  unfold Stmt.swapStmt
  infer_instance

instance nameStmt (t : Token) : Forward (Stmt.nameStmt t) := by
  unfold Stmt.nameStmt
  infer_instance

instance stmtOver : Forward (Stmt.stmtOver stmt list) := by
  unfold Stmt.stmtOver
  refine Forward.andThen fun t => ?_
  split <;> infer_instance

end Statements

/-- Statements and lists of statements are read over each other. -/
theorem statements (depth : Nat) :
    Forward (Stmt.readWithin depth) ∧ ∀ stops, Forward (Stmt.readList depth stops) := by
  induction depth with
  | zero =>
      unfold Stmt.readWithin Stmt.readList
      exact ⟨inferInstance, fun _ => inferInstance⟩
  | succ depth ih =>
      obtain ⟨hwithin, hlist⟩ := ih
      constructor
      · rw [Stmt.readWithin]
        infer_instance
      · intro stops
        rw [Stmt.readList]
        infer_instance

instance stmtReadWithin (depth : Nat) : Forward (Stmt.readWithin depth) := (statements depth).1

instance readList (depth : Nat) (stops : List Token.Kind) :
    Forward (Stmt.readList depth stops) := (statements depth).2 stops

instance listReading (stops : List Token.Kind) : Forward (Stmt.listReading stops) := by
  unfold Stmt.listReading
  infer_instance

/-! ## Procedures -/

instance bracketText (fuel depth : Nat) : Forward (Procedure.bracketText fuel depth) := by
  induction fuel generalizing depth with
  | zero => exact Forward.exhausted
  | succ fuel ih =>
      unfold Procedure.bracketText
      infer_instance

instance shapeText (fuel : Nat) : Forward (Procedure.shapeText fuel) := by
  induction fuel with
  | zero => exact Forward.exhausted
  | succ fuel ih =>
      unfold Procedure.shapeText
      dsimp only
      infer_instance

instance param : Forward Procedure.param := by
  unfold Procedure.param
  infer_instance

instance atStart : Forward Procedure.atStart := by
  unfold Procedure.atStart
  infer_instance

instance procedureRead : Forward Procedure.read := by
  unfold Procedure.read
  dsimp only
  infer_instance

instance readAll (fuel : Nat) : Forward (Procedure.readAll fuel) := by
  induction fuel with
  | zero => exact Forward.exhausted
  | succ fuel ih =>
      unfold Procedure.readAll
      infer_instance

end Forward

/-! ## Readers that take a token -/

theorem Token.Cursor.length_advance_lt {c : Token.Cursor} (hstop : c.stop.kind = .eof)
    (hkind : c.kind ≠ .eof) : c.advance.rest.length < c.rest.length := by
  obtain ⟨ts, stop⟩ := c
  cases ts with
  | nil => exact absurd hstop hkind
  | cons t ts => exact Nat.lt_succ_self _

/-- A successful reading takes a token, if the input ends in a token of its own kind. -/
class Consumes {α : Type} (r : Reading α) : Prop where
  length_lt : ∀ {c c' : Token.Cursor} {a : α}, c.stop.kind = .eof → r.run c = .ok (a, c') →
    c'.rest.length < c.rest.length

namespace Consumes

variable {α β : Type} {r : Reading α} {f : α → Reading β}

instance bind_left [hr : Consumes r] [hf : ∀ a, Forward (f a)] : Consumes (r >>= f) where
  length_lt hstop h := by
    obtain ⟨a, c₁, hfirst, hsecond⟩ := exists_of_run_bind h
    exact Nat.lt_of_le_of_lt ((hf a).length_le hsecond) (hr.length_lt hstop hfirst)

instance bind_right [hr : Forward r] [hf : ∀ a, Consumes (f a)] : Consumes (r >>= f) where
  length_lt hstop h := by
    obtain ⟨a, c₁, hfirst, hsecond⟩ := exists_of_run_bind h
    have hstop₁ : c₁.stop.kind = .eof := by rwa [hr.stop_eq hfirst]
    exact Nat.lt_of_lt_of_le ((hf a).length_lt hstop₁ hsecond) (hr.length_le hfirst)

theorem of_take {f : Token → Reading β} [∀ t, Forward (f t)] {c c' : Token.Cursor} {b : β}
    (hstop : c.stop.kind = .eof) (hkind : c.kind ≠ .eof)
    (hrun : (take >>= f).run c = .ok (b, c')) : c'.rest.length < c.rest.length := by
  have hle := Forward.length_le (r := f c.peek) (c := c.advance) hrun
  exact Nat.lt_of_le_of_lt hle (Token.Cursor.length_advance_lt hstop hkind)

theorem expect {k : Token.Kind} (hk : k ≠ .eof) (expected : Text) :
    Consumes (expect k expected) where
  length_lt {c _ _} hstop hrun := by
    rw [Reading.expect, run_bind_ok (rfl : kind.run c = .ok (c.kind, c))] at hrun
    split at hrun
    next hkind =>
      rw [← bind_pure take] at hrun
      exact of_take hstop (hkind ▸ hk) hrun
    next => cases hrun

instance block {list : Stmt.ListReading} [∀ stops, Forward (list stops)] :
    Consumes (Stmt.block list) := by
  have := expect (k := .beginWord) (by decide) "'begin'"
  unfold Stmt.block
  infer_instance

instance stmtOver {stmt : Reading Stmt} {list : Stmt.ListReading} [Forward stmt]
    [∀ stops, Forward (list stops)] : Consumes (Stmt.stmtOver stmt list) where
  length_lt {c _ _} hstop hrun := by
    rw [Stmt.stmtOver, run_bind_ok (rfl : peek.run c = .ok (c.peek, c))] at hrun
    have hkind : c.kind ≠ .eof := by
      intro heq
      rw [show c.peek.kind = .eof from heq] at hrun
      cases hrun
    split at hrun
    all_goals first | exact of_take hstop hkind hrun | cases hrun

instance stmtReadWithin (depth : Nat) : Consumes (Stmt.readWithin depth) := by
  cases depth with
  | zero =>
      refine ⟨fun _ hrun => ?_⟩
      rw [Stmt.readWithin] at hrun
      cases hrun
  | succ depth =>
      rw [Stmt.readWithin]
      infer_instance

instance procedureName : Consumes Expr.procedureName where
  length_lt {c _ _} hstop hrun := by
    rw [Expr.procedureName, run_bind_ok (rfl : kind.run c = .ok (c.kind, c))] at hrun
    split at hrun
    next hkind =>
      rw [← bind_pure take] at hrun
      exact of_take hstop (by rw [hkind]; decide) hrun
    next => exact (expect (by decide) _).length_lt hstop hrun

instance procedureRead : Consumes Procedure.read := by
  unfold Procedure.read
  dsimp only
  infer_instance

end Consumes

end PseudoCost
