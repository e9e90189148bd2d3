import Mathlib.Tactic.Choose
import PseudoCost.Proofs.ReadingBounds
import PseudoCost.Proofs.Scripts

/-!
# Every reader is a script

Reading a program never needs more than the token in front, and, in the three places where a point,
a range sign or a name may go on in two ways, the kind of the next one. `Scripted n` says so of one
reader: from every cursor with fewer than `n` tokens left it gives what one script gives. As with
`Forward`, most readers inherit this from what they are made of.

The bound `n` is there because readers count the tokens left, as a bound on their loops and nested
readings. It tells them nothing, since every bound that is large enough gives the same; for each
loop this is an induction of its own (`run_chain` and so on), and `n` is large enough for all.
-/

namespace PseudoCost

open Reading

-- The longest definitions are sequences of some twenty readers.
set_option synthInstance.maxSize 1000

/-- With fewer than `n` tokens left, the reader does what some script does. -/
class Scripted {α : Type} (n : Nat) (r : Reading α) : Prop where
  exists_script : ∃ s : Script α, ∀ c : Token.Cursor, c.rest.length < n → c.stop.kind = .eof →
    r.run c = s.run c

namespace Scripted

variable {n : Nat}

/-! ## Sequencing -/

section Sequencing

variable {α β : Type}

instance pure (a : α) : Scripted n (Pure.pure a) := ⟨.ends (.value a), fun _ _ _ => rfl⟩

instance fail (expected : Text) : Scripted n (Reading.fail expected : Reading α) :=
  ⟨.ends (.mismatch expected), fun _ _ _ => rfl⟩

instance numeral (e : Numeral.Error) : Scripted n (throw (.numeral e) : Reading α) :=
  ⟨.ends (.numeral e), fun _ _ _ => rfl⟩

instance exhausted : Scripted n (Reading.exhausted : Reading α) :=
  ⟨.ends .exhausted, fun _ _ _ => rfl⟩

instance bind {r : Reading α} {f : α → Reading β} [hr : Scripted n r]
    [hf : ∀ a, Scripted n (f a)] : Scripted n (r >>= f) where
  exists_script := by
    obtain ⟨s, hs⟩ := hr.exists_script
    choose t ht using fun a => (hf a).exists_script
    refine ⟨s.bind t, fun c hlt hstop => ?_⟩
    rw [StateT.run_bind, Script.run_bind, hs c hlt hstop]
    cases hrun : s.run c with
    | error e => rfl
    | ok ad =>
        have hafter : c.After ad.2 := Script.after_of_run_ok hrun
        exact ht ad.1 ad.2 (Nat.lt_of_le_of_lt hafter.rest.length_le hlt) (hafter.stop_eq ▸ hstop)

theorem andThen {r : Reading α} [Scripted n r] {f : α → Reading β} (hf : ∀ a, Scripted n (f a)) :
    Scripted n (r >>= f) := inferInstance

instance map {r : Reading α} {f : α → β} [Scripted n r] : Scripted n (f <$> r) := by
  rw [map_eq_pure_bind]
  infer_instance

instance ite {p : Prop} [Decidable p] {r s : Reading α} [Scripted n r] [Scripted n s] :
    Scripted n (if p then r else s) := by
  split <;> assumption

theorem congr {r r' : Reading α} [hr : Scripted n r]
    (h : ∀ c : Token.Cursor, c.rest.length < n → c.stop.kind = .eof → r'.run c = r.run c) :
    Scripted n r' where
  exists_script := by
    obtain ⟨s, hs⟩ := hr.exists_script
    exact ⟨s, fun c hlt hstop => (h c hlt hstop).trans (hs c hlt hstop)⟩

/-- As `Scripted`, from cursors with a token of a given kind in front only. -/
def At (n : Nat) (k : Token.Kind) (r : Reading α) : Prop :=
  ∃ s : Script α, ∀ c : Token.Cursor, c.kind = k → c.rest.length < n → c.stop.kind = .eof →
    r.run c = s.run c

theorem at_kind {k : Token.Kind} {r : Reading α} [hr : Scripted n r] : At n k r := by
  obtain ⟨s, hs⟩ := hr.exists_script
  exact ⟨s, fun c _ => hs c⟩

theorem at_congr {k : Token.Kind} {r r' : Reading α} [hr : Scripted n r]
    (h : ∀ c : Token.Cursor, c.kind = k → r'.run c = r.run c) : At n k r' := by
  obtain ⟨s, hs⟩ := hr.exists_script
  exact ⟨s, fun c hkind hlt hstop => (h c hkind).trans (hs c hlt hstop)⟩

/-- A reader that first looks at the kind in front. -/
theorem kind_bind {f : Token.Kind → Reading α} (hf : ∀ k, At n k (f k)) :
    Scripted n (Reading.kind >>= f) where
  exists_script := by
    choose s hs using hf
    exact ⟨.look fun t _ => s t.kind, fun c hlt hstop => hs c.kind c rfl hlt hstop⟩

/-- The kind of the next token shows behind some kinds. -/
theorem nextKind_bind {k : Token.Kind} (hk : opensPair k = true) {f : Token.Kind → Reading α}
    (hf : ∀ next, Scripted n (f next)) : At n k (Reading.nextKind >>= f) := by
  choose s hs using fun next => (hf next).exists_script
  refine ⟨.look fun _ ahead? => s (ahead?.getD .eof), fun c hkind hlt hstop => ?_⟩
  have hahead : c.ahead? = some c.nextKind := by rw [Token.Cursor.ahead?, hkind, if_pos hk]
  have hrun : (Script.look fun _ ahead? => s (ahead?.getD .eof)).run c = (s c.nextKind).run c := by
    rw [Script.run, Script.walk, hahead]
    rfl
  rw [hrun]
  exact hs c.nextKind c hlt hstop

/-- A reader that looks at two kinds, if the second one makes no difference where it does not
show. -/
theorem kinds_bind {f : Token.Kind → Token.Kind → Reading α} [hf : ∀ k next, Scripted n (f k next)]
    (h : ∀ k next, opensPair k = false → f k next = f k .eof) :
    Scripted n (Reading.kind >>= fun k => Reading.nextKind >>= f k) := by
  refine kind_bind fun k => ?_
  cases hk : opensPair k with
  | true => exact nextKind_bind hk (hf k)
  | false => exact at_congr (r := f k .eof) fun c _ => congrArg (·.run c) (h k c.nextKind hk)

/-- A reader that counts the tokens left, if a larger count would do as well. -/
theorem of_remaining {f : Nat → Reading α} (hf : Scripted n (f n))
    (h : ∀ c : Token.Cursor, c.rest.length < n → c.stop.kind = .eof →
      (f c.rest.length).run c = (f n).run c) : Scripted n (Reading.remaining >>= f) :=
  congr h

/-- The same, where the count goes into a first reader only. -/
theorem of_remaining_bind {r : Nat → Reading α} {f : α → Reading β} [hr : Scripted n (r n)]
    [hf : ∀ a, Scripted n (f a)]
    (h : ∀ c : Token.Cursor, c.rest.length < n → c.stop.kind = .eof →
      (r c.rest.length).run c = (r n).run c) :
    Scripted n (Reading.remaining >>= fun count => r count >>= f) := by
  refine of_remaining inferInstance fun c hlt hstop => ?_
  rw [StateT.run_bind, StateT.run_bind, h c hlt hstop]

theorem after {r : Reading α} [hr : Scripted n r] {c d : Token.Cursor} {a : α}
    (hlt : c.rest.length < n) (hstop : c.stop.kind = .eof) (h : r.run c = .ok (a, d)) :
    c.After d := by
  obtain ⟨s, hs⟩ := hr.exists_script
  rw [hs c hlt hstop] at h
  exact Script.after_of_run_ok h

end Sequencing

/-! ## Primitive readers -/

instance peek : Scripted n peek := ⟨.look fun t _ => .ends (.value t), fun _ _ _ => rfl⟩

instance kind : Scripted n kind := ⟨.look fun t _ => .ends (.value t.kind), fun _ _ _ => rfl⟩

instance take : Scripted n take :=
  ⟨.look fun t _ => .take (.ends (.value t)), fun _ _ _ => rfl⟩

instance accept (k : Token.Kind) : Scripted n (accept k) := by
  unfold Reading.accept
  infer_instance

instance expect (k : Token.Kind) (expected : Text) : Scripted n (expect k expected) := by
  unfold Reading.expect
  infer_instance

theorem skipAll {kinds : List Token.Kind} (hkinds : Token.Kind.eof ∉ kinds) :
    Scripted n (skipAll kinds) := by
  induction n with
  | zero => exact ⟨.ends .exhausted, fun _ hlt _ => absurd hlt (Nat.not_lt_zero _)⟩
  | succ n ih =>
      obtain ⟨s, hs⟩ := ih.exists_script
      refine ⟨.look fun t _ => if t.kind ∈ kinds then .take s else .ends (.value ()), ?_⟩
      intro c hlt hstop
      change _ = (if c.kind ∈ kinds then Script.take s else .ends (.value ())).run c
      split
      next hmem =>
        have hne : c.kind ≠ .eof := fun heq => hkinds (heq ▸ hmem)
        have hlength := Token.Cursor.length_advance_lt hstop hne
        rw [run_skipAll hkinds hstop, Token.Cursor.skipAll_of_mem hmem,
          ← run_skipAll (c := c.advance) hkinds hstop]
        exact hs c.advance (by omega) hstop
      next hmem =>
        rw [run_skipAll hkinds hstop, Token.Cursor.skipAll_of_not_mem hmem]
        rfl

instance skipSemicolons : Scripted n (Reading.skipAll [.semicolon]) := skipAll (by decide)

instance skipPoints : Scripted n (Reading.skipAll [.semicolon, .dot]) := skipAll (by decide)

instance moreItems {α : Type} {item : Reading α} [Scripted n item] (fuel : Nat) :
    Scripted n (Reading.moreItems item fuel) := by
  induction fuel with
  | zero => exact exhausted
  | succ fuel ih =>
      unfold Reading.moreItems
      infer_instance

instance items {α : Type} {item : Reading α} [Forward item] [Scripted n item] :
    Scripted n (Reading.items item) := by
  unfold Reading.items
  refine andThen fun first => of_remaining_bind fun c hlt hstop => ?_
  exact run_moreItems hstop (Nat.lt_succ_self _) (Nat.lt_succ_of_lt hlt)

/-! ## Expressions -/

section Expressions

variable {expr operand : Reading Expr} [Forward expr] [Forward operand] [Scripted n expr]
  [Scripted n operand]

instance chain (op? : Token.Kind → Option BinaryOp) (fuel : Nat) (lhs : Expr) :
    Scripted n (Expr.chain op? operand fuel lhs) := by
  induction fuel generalizing lhs with
  | zero => exact exhausted
  | succ fuel ih =>
      unfold Expr.chain
      refine andThen fun k => ?_
      split <;> infer_instance

theorem level {op? : Token.Kind → Option BinaryOp} (hop : op? .eof = none) :
    Scripted n (Expr.level op? operand) := by
  unfold Expr.level
  refine andThen fun lhs => of_remaining inferInstance fun c hlt hstop => ?_
  exact run_chain hop hstop (Nat.lt_succ_self _) (Nat.lt_succ_of_lt hlt) lhs

instance binaryLevels : Scripted n (Expr.binaryLevels operand) := by
  have hfold : ∀ ops : List (Token.Kind → Option BinaryOp), (∀ op? ∈ ops, op? .eof = none) →
      Scripted n (ops.foldr Expr.level operand) := by
    intro ops hops
    induction ops with
    | nil => assumption
    | cons op? ops ih =>
        obtain ⟨hop, hops⟩ := List.forall_mem_cons.mp hops
        have := ih hops
        exact level hop
  exact hfold Expr.levels Reports.level_eof

instance rangeLevel : Scripted n (Expr.rangeLevel operand) := by
  unfold Expr.rangeLevel
  infer_instance

instance accesses (fuel : Nat) (base : Expr) : Scripted n (Expr.accesses expr fuel base) := by
  induction fuel generalizing base with
  | zero => exact exhausted
  | succ fuel ih =>
      unfold Expr.accesses
      refine kind_bind fun k => ?_
      split
      · exact at_kind
      · exact nextKind_bind rfl inferInstance
      · exact at_kind

instance arguments (explicit : Bool) : Scripted n (Expr.arguments expr explicit) := by
  unfold Expr.arguments
  dsimp only
  infer_instance

instance procedureName : Scripted n Expr.procedureName := by
  unfold Expr.procedureName
  infer_instance

instance explicitCall (pos : Pos) : Scripted n (Expr.explicitCall expr pos) := by
  unfold Expr.explicitCall
  infer_instance

instance rounded (pos : Pos) (op : UnaryOp) (closing : Token.Kind) (expected : Text) :
    Scripted n (Expr.rounded expr pos op closing expected) := by
  unfold Expr.rounded
  infer_instance

instance primary : Scripted n (Expr.primary expr) := by
  unfold Expr.primary
  refine andThen fun t => ?_
  split
  · refine andThen fun _ => ?_
    split <;> infer_instance
  all_goals infer_instance

instance powerLevel {sign : Reading Expr} [Forward sign] [Scripted n sign] :
    Scripted n (Expr.powerLevel expr sign) := by
  unfold Expr.powerLevel
  refine of_remaining inferInstance fun c hlt hstop => run_bind_congr fun base d hbase => ?_
  have hd := Forward.length_le hbase
  have hdstop : d.stop.kind = .eof := by rwa [Forward.stop_eq hbase]
  rw [StateT.run_bind, StateT.run_bind,
    run_accesses (m := n + 1) hdstop (Nat.lt_succ_of_le hd) (by omega)]

end Expressions

theorem expressions (depth : Nat) :
    Scripted n (Expr.readWithin depth) ∧ Scripted n (Expr.readSign depth) := by
  induction depth with
  | zero =>
      unfold Expr.readWithin Expr.readSign
      exact ⟨inferInstance, inferInstance⟩
  | succ depth ih =>
      obtain ⟨hwithin, hsign⟩ := ih
      constructor
      · rw [Expr.readWithin]
        infer_instance
      · rw [Expr.readSign]
        refine andThen fun k => ?_
        split <;> infer_instance

instance exprRead : Scripted n Expr.read := by
  unfold Expr.read
  refine of_remaining (expressions _).1 fun c hlt hstop => ?_
  exact Expr.run_readWithin hstop (Nat.le_of_lt hlt)

/-! ## Statements -/

section Statements

open Stmt (ListReading)

variable {stmt : Reading Stmt} {nested : Reading Block} {list : ListReading} [Scripted n stmt]
  [Scripted n nested] [∀ stops, Scripted n (list stops)]

instance here : Scripted n Stmt.here := by
  unfold Stmt.here
  infer_instance

instance block : Scripted n (Stmt.block list) := by
  unfold Stmt.block
  infer_instance

instance body : Scripted n (Stmt.body list) := by
  unfold Stmt.body
  infer_instance

instance branch (opener : Token) (stops : List Token.Kind) :
    Scripted n (Stmt.branch stmt list opener stops) := by
  unfold Stmt.branch
  infer_instance

instance upTo (stops : List Token.Kind) (fuel : Nat) :
    Scripted n (Stmt.upTo stmt nested stops fuel) := by
  induction fuel with
  | zero => exact exhausted
  | succ fuel ih =>
      unfold Stmt.upTo
      infer_instance

instance assignSign : Scripted n Stmt.assignSign := by
  unfold Stmt.assignSign
  infer_instance

instance designator (t : Token) : Scripted n (Stmt.designator t) := by
  unfold Stmt.designator
  refine of_remaining inferInstance fun c hlt hstop => ?_
  exact run_accesses hstop (Nat.lt_succ_self _) (Nat.lt_succ_of_lt hlt) _

instance forStmt (pos : Pos) : Scripted n (Stmt.forStmt list pos) := by
  unfold Stmt.forStmt
  dsimp only
  infer_instance

instance whileStmt (pos : Pos) : Scripted n (Stmt.whileStmt list pos) := by
  unfold Stmt.whileStmt
  infer_instance

instance repeatStmt (pos : Pos) : Scripted n (Stmt.repeatStmt list pos) := by
  unfold Stmt.repeatStmt
  infer_instance

instance ifStmt (pos : Pos) : Scripted n (Stmt.ifStmt stmt list pos) := by
  unfold Stmt.ifStmt
  dsimp only
  infer_instance

instance callStmt (pos : Pos) : Scripted n (Stmt.callStmt pos) := by
  unfold Stmt.callStmt
  infer_instance

instance returnStmt (pos : Pos) : Scripted n (Stmt.returnStmt pos) := by
  unfold Stmt.returnStmt
  infer_instance

instance printStmt (pos : Pos) : Scripted n (Stmt.printStmt pos) := by
  unfold Stmt.printStmt
  dsimp only
  infer_instance

instance swapStmt (pos : Pos) : Scripted n (Stmt.swapStmt pos) := by
  unfold Stmt.swapStmt
  infer_instance

instance nameStmt (t : Token) : Scripted n (Stmt.nameStmt t) := by
  unfold Stmt.nameStmt
  infer_instance

instance stmtOver : Scripted n (Stmt.stmtOver stmt list) := by
  unfold Stmt.stmtOver
  refine andThen fun t => ?_
  split <;> infer_instance

end Statements

theorem statements (depth : Nat) :
    Scripted n (Stmt.readWithin depth) ∧ ∀ stops, Scripted n (Stmt.readList depth stops) := by
  induction depth with
  | zero =>
      unfold Stmt.readWithin Stmt.readList
      exact ⟨inferInstance, fun _ => inferInstance⟩
  | succ depth ih =>
      obtain ⟨hwithin, hlist⟩ := ih
      constructor
      · rw [Stmt.readWithin]
        infer_instance
      · intro stops
        rw [Stmt.readList]
        refine of_remaining inferInstance fun c hlt hstop => ?_
        exact run_upTo hstop (Nat.lt_succ_self _) (Nat.lt_succ_of_lt hlt)

instance listReading (stops : List Token.Kind) : Scripted n (Stmt.listReading stops) := by
  unfold Stmt.listReading
  refine of_remaining ((statements _).2 stops) fun c hlt hstop => ?_
  exact Stmt.run_readList stops hstop (Nat.le_of_lt hlt)

/-! ## Programs -/

instance bracketText (fuel depth : Nat) : Scripted n (Procedure.bracketText fuel depth) := by
  induction fuel generalizing depth with
  | zero => exact exhausted
  | succ fuel ih =>
      unfold Procedure.bracketText
      infer_instance

instance bracketText_bind {α : Type} {f : Text → Reading α} [∀ inner, Scripted n (f inner)] :
    Scripted n (remaining >>= fun count => Procedure.bracketText (count + 1) 1 >>= f) := by
  refine of_remaining_bind (r := fun count => Procedure.bracketText (count + 1) 1) ?_
  intro c hlt hstop
  exact run_bracketText hstop (Nat.lt_succ_self _) (Nat.lt_succ_of_lt hlt) 1

instance shapeText (fuel : Nat) : Scripted n (Procedure.shapeText fuel) := by
  induction fuel with
  | zero => exact exhausted
  | succ fuel ih =>
      unfold Procedure.shapeText
      dsimp only
      refine kinds_bind fun k next hpair => ?_
      have hdots : k ≠ .dotDot := by rintro rfl; cases hpair
      simp only [hdots, false_and]

instance param : Scripted n Procedure.param := by
  unfold Procedure.param
  refine andThen fun t => of_remaining_bind fun c hlt hstop => ?_
  exact run_shapeText hstop (Nat.lt_succ_self _) (Nat.lt_succ_of_lt hlt)

instance atStart : Scripted n Procedure.atStart := by
  unfold Procedure.atStart
  refine kinds_bind fun k next hpair => ?_
  have hident : k ≠ .ident := by rintro rfl; cases hpair
  have hswap : k ≠ .swapWord := by rintro rfl; cases hpair
  simp only [hident, hswap, or_self, false_and]

instance procedureRead : Scripted n Procedure.read := by
  unfold Procedure.read
  dsimp only
  infer_instance

instance readAll (fuel : Nat) : Scripted n (Procedure.readAll fuel) := by
  induction fuel with
  | zero => exact exhausted
  | succ fuel ih =>
      unfold Procedure.readAll
      infer_instance

instance readAll_bind {α : Type} {f : List Procedure → Reading α} [∀ ps, Scripted n (f ps)] :
    Scripted n (remaining >>= fun count => Procedure.readAll (count + 1) >>= f) := by
  refine of_remaining_bind (r := fun count => Procedure.readAll (count + 1)) ?_
  intro c hlt hstop
  exact run_readAll hstop (Nat.lt_succ_self _) (Nat.lt_succ_of_lt hlt)

instance programRead : Scripted n Program.read := by
  unfold Program.read
  dsimp only
  infer_instance

end Scripted

end PseudoCost
