import PseudoCost.Proofs.LockstepProgram
import PseudoCost.Proofs.ReadingFailures

/-!
# The bounds of readers do not matter

Readers count the tokens left and take the number as a bound on their loops and nested readings.
Every bound that is large enough gives the same, for two reasons.

A loop takes a token in every round but its last, so that it stops for another reason before its
bound is used up. The induction on the tokens left is the same for all loops (`run_loop`).

A nested reading gives on a larger bound what it gives on its own, unless that is used up. `Below`
compares two readers in this way. It is a class, since it passes from nested readers to the readers
made of them, and is inferred from their definitions. As a bound of twice the tokens left is never
used up, the exact bound does not matter from there on (`Expr.run_readWithin`, `Stmt.run_readList`).
-/

namespace PseudoCost

open Reading

-- The longest definitions are sequences of some twenty readers.
set_option synthInstance.maxSize 1000

/-! ## Loops -/

section Loops

variable {α β ι : Type} {c : Token.Cursor} {k m : Nat}

theorem run_bind_congr {r : Reading α} {f f' : α → Reading β}
    (h : ∀ a d, r.run c = .ok (a, d) → (f a).run d = (f' a).run d) :
    (r >>= f).run c = (r >>= f').run c := by
  rw [StateT.run_bind, StateT.run_bind]
  cases hrun : r.run c with
  | error e => rfl
  | ok ad => exact h ad.1 ad.2 hrun

/-- The two runs of a loop agree wherever fewer tokens are left. -/
def AgreeBelow (c : Token.Cursor) (loop loop' : ι → Reading α) : Prop :=
  ∀ i d, d.stop.kind = .eof → d.rest.length < c.rest.length → (loop i).run d = (loop' i).run d

/-- A loop that gives the same at the end of the input whatever its bound is, and takes a token
elsewhere before it goes on, runs alike on all bounds that are large enough. -/
theorem run_loop (loop : Nat → ι → Reading α)
    (hend : ∀ c : Token.Cursor, c.kind = .eof → c.stop.kind = .eof → ∀ k m i,
      (loop (k + 1) i).run c = (loop (m + 1) i).run c)
    (hstep : ∀ (c : Token.Cursor) k m, c.stop.kind = .eof → c.kind ≠ .eof →
      AgreeBelow c (loop k) (loop m) → ∀ i, (loop (k + 1) i).run c = (loop (m + 1) i).run c)
    (hstop : c.stop.kind = .eof) (hk : c.rest.length < k) (hm : c.rest.length < m) (i : ι) :
    (loop k i).run c = (loop m i).run c := by
  induction hlength : c.rest.length using Nat.strongRecOn generalizing c k m i with
  | _ length ih =>
      obtain ⟨k, rfl⟩ : ∃ k', k = k' + 1 := ⟨k - 1, by omega⟩
      obtain ⟨m, rfl⟩ : ∃ m', m = m' + 1 := ⟨m - 1, by omega⟩
      by_cases hkind : c.kind = .eof
      · exact hend c hkind hstop k m i
      · refine hstep c k m hstop hkind ?_ i
        intro j d hdstop hlt
        exact ih _ (by omega) hdstop (by omega) (by omega) j rfl

theorem run_moreItems {item : Reading α} [Forward item] (hstop : c.stop.kind = .eof)
    (hk : c.rest.length < k) (hm : c.rest.length < m) :
    (moreItems item k).run c = (moreItems item m).run c := by
  refine run_loop (fun n (_ : Unit) => moreItems item n) ?_ ?_ hstop hk hm ()
  · intro c hkind _ k m _
    have hne : c.kind ≠ .comma := by rw [hkind]; decide
    rw [run_moreItems_of_ne k hne, run_moreItems_of_ne m hne]
  · intro c k m hstop hne hagree _
    by_cases hcomma : c.kind = .comma
    · have hlt := Token.Cursor.length_advance_lt hstop hne
      rw [moreItems, moreItems, run_bind_ok (run_accept hcomma), run_bind_ok (run_accept hcomma)]
      refine run_bind_congr fun x d hx => ?_
      have hd := Forward.length_le hx
      rw [StateT.run_bind, StateT.run_bind,
        hagree () d (by rw [Forward.stop_eq hx]; exact hstop) (by omega)]
    · rw [run_moreItems_of_ne _ hcomma, run_moreItems_of_ne _ hcomma]

theorem run_chain {op? : Token.Kind → Option BinaryOp} (hop : op? .eof = none)
    {operand : Reading Expr} [Forward operand] (hstop : c.stop.kind = .eof)
    (hk : c.rest.length < k) (hm : c.rest.length < m) (lhs : Expr) :
    (Expr.chain op? operand k lhs).run c = (Expr.chain op? operand m lhs).run c := by
  refine run_loop (Expr.chain op? operand) ?_ ?_ hstop hk hm lhs
  · intro c hkind _ k m lhs
    have hnone : op? c.kind = none := by rw [hkind, hop]
    rw [run_chain_of_none k lhs hnone, run_chain_of_none m lhs hnone]
  · intro c k m hstop hne hagree lhs
    cases hc : op? c.kind with
    | none => rw [run_chain_of_none _ lhs hc, run_chain_of_none _ lhs hc]
    | some op =>
        have hlt := Token.Cursor.length_advance_lt hstop hne
        rw [Expr.chain, Expr.chain, run_bind_ok (rfl : kind.run c = .ok (c.kind, c)),
          run_bind_ok (rfl : kind.run c = .ok (c.kind, c)), hc]
        refine run_bind_congr fun t d ht => ?_
        cases ht
        refine run_bind_congr fun rhs d hrhs => ?_
        have hd := Forward.length_le hrhs
        exact hagree _ d (by rw [Forward.stop_eq hrhs]; exact hstop) (by omega)

theorem run_accesses {expr : Reading Expr} [Forward expr] (hstop : c.stop.kind = .eof)
    (hk : c.rest.length < k) (hm : c.rest.length < m) (base : Expr) :
    (Expr.accesses expr k base).run c = (Expr.accesses expr m base).run c := by
  refine run_loop (Expr.accesses expr) ?_ ?_ hstop hk hm base
  · intro c hkind _ k m base
    rw [run_accesses_of_ne k base (by rw [hkind]; decide) (by rw [hkind]; decide),
      run_accesses_of_ne m base (by rw [hkind]; decide) (by rw [hkind]; decide)]
  · intro c k m hstop hne hagree base
    have hlt := Token.Cursor.length_advance_lt hstop hne
    rw [Expr.accesses, Expr.accesses, run_bind_ok (rfl : kind.run c = .ok (c.kind, c)),
      run_bind_ok (rfl : kind.run c = .ok (c.kind, c))]
    split
    · refine run_bind_congr fun t d ht => ?_
      cases ht
      refine run_bind_congr fun subscripts d hitems => ?_
      refine run_bind_congr fun _ e hclose => ?_
      have hd := Forward.length_le hitems
      have he := Forward.length_le hclose
      refine hagree _ e ?_ (by omega)
      rw [Forward.stop_eq hclose, Forward.stop_eq hitems]
      exact hstop
    · refine run_bind_congr fun next d hnext => ?_
      cases hnext
      split
      · refine run_bind_congr fun t d ht => ?_
        cases ht
        refine run_bind_congr fun f d hf => ?_
        have hd := Forward.length_le hf
        exact hagree _ d (by rw [Forward.stop_eq hf]; exact hstop) (by omega)
      · rfl
    · rfl

theorem run_upTo_of_eof {stmt : Reading Stmt} {nested : Reading Block} {stops : List Token.Kind}
    (hkind : c.kind = .eof) (hstop : c.stop.kind = .eof) (k : Nat) :
    (Stmt.upTo stmt nested stops (k + 1)).run c = .ok ([], c) := by
  have hskip : c.skipAll [.semicolon] = c :=
    Token.Cursor.skipAll_of_not_mem (by rw [hkind]; decide)
  rw [Lockstep.run_upTo_succ hstop, hskip, if_pos (.inl hkind)]
  rfl

theorem run_upTo {stmt : Reading Stmt} {nested : Reading Block} {stops : List Token.Kind}
    [Forward stmt] [Consumes stmt] [Forward nested] [Consumes nested] (hstop : c.stop.kind = .eof)
    (hk : c.rest.length < k) (hm : c.rest.length < m) :
    (Stmt.upTo stmt nested stops k).run c = (Stmt.upTo stmt nested stops m).run c := by
  refine run_loop (fun n (_ : Unit) => Stmt.upTo stmt nested stops n) ?_ ?_ hstop hk hm ()
  · intro c hkind hstop k m _
    rw [run_upTo_of_eof hkind hstop, run_upTo_of_eof hkind hstop]
  · intro c k m hstop hne hagree _
    have hskip := c.length_skipAll [.semicolon]
    have hstop₁ : (c.skipAll [.semicolon]).stop.kind = .eof := hstop
    rw [Lockstep.run_upTo_succ hstop, Lockstep.run_upTo_succ hstop]
    generalize c.skipAll [.semicolon] = c₁ at *
    split
    · rfl
    split
    · refine run_bind_congr fun inner d hinner => ?_
      have hd := Consumes.length_lt hstop₁ hinner
      rw [StateT.run_bind, StateT.run_bind,
        hagree () d (by rw [Forward.stop_eq hinner]; exact hstop₁) (by omega)]
    · refine run_bind_congr fun s d hs => ?_
      have hd := Consumes.length_lt hstop₁ hs
      rw [StateT.run_bind, StateT.run_bind,
        hagree () d (by rw [Forward.stop_eq hs]; exact hstop₁) (by omega)]

theorem run_bracketText_of_eof (hkind : c.kind = .eof) (k depth : Nat) :
    (Procedure.bracketText (k + 1) depth).run c = .error (.mismatch "']'" c) := by
  rw [Procedure.bracketText, run_bind_ok (rfl : kind.run c = .ok (c.kind, c)), if_pos hkind]
  rfl

theorem run_bracketText (hstop : c.stop.kind = .eof) (hk : c.rest.length < k)
    (hm : c.rest.length < m) (depth : Nat) :
    (Procedure.bracketText k depth).run c = (Procedure.bracketText m depth).run c := by
  refine run_loop Procedure.bracketText ?_ ?_ hstop hk hm depth
  · intro c hkind _ k m depth
    rw [run_bracketText_of_eof hkind, run_bracketText_of_eof hkind]
  · intro c k m hstop hne hagree depth
    have hlt := Token.Cursor.length_advance_lt hstop hne
    have hrest (left : Nat) :
        (if left = 0 then pure c.peek.lexeme
          else do return c.peek.lexeme ++ (← Procedure.bracketText k left) :
            Reading Text).run c.advance
          = (if left = 0 then pure c.peek.lexeme
            else do return c.peek.lexeme ++ (← Procedure.bracketText m left) :
              Reading Text).run c.advance := by
      split
      · rfl
      · rw [StateT.run_bind, StateT.run_bind, hagree left c.advance hstop hlt]
    rw [Procedure.bracketText, Procedure.bracketText,
      run_bind_ok (rfl : kind.run c = .ok (c.kind, c)),
      run_bind_ok (rfl : kind.run c = .ok (c.kind, c)), if_neg hne, if_neg hne]
    exact hrest _

theorem run_shapeText (hstop : c.stop.kind = .eof) (hk : c.rest.length < k)
    (hm : c.rest.length < m) :
    (Procedure.shapeText k).run c = (Procedure.shapeText m).run c := by
  refine run_loop (fun n (_ : Unit) => Procedure.shapeText n) ?_ ?_ hstop hk hm ()
  · intro c hkind _ k m _
    have hshape : ¬ Lockstep.AtShape c := by
      rw [Lockstep.AtShape, hkind]
      simp
    rw [Lockstep.run_shapeText_of_not hshape, Lockstep.run_shapeText_of_not hshape]
  · intro c k m hstop hne hagree _
    by_cases hshape : Lockstep.AtShape c
    · rw [Lockstep.AtShape] at hshape
      simp only [Procedure.shapeText, run_bind_ok (rfl : kind.run c = .ok (c.kind, c)),
        run_bind_ok (rfl : nextKind.run c = .ok (c.nextKind, c)), if_pos hshape]
      refine run_bind_congr fun dots d hdots => ?_
      have hd := Forward.length_le hdots
      have hdstop : d.stop.kind = .eof := by rwa [Forward.stop_eq hdots]
      refine run_bind_congr fun t e ht => ?_
      have he := (Consumes.expect (by decide) _).length_lt hdstop ht
      have hestop : e.stop.kind = .eof := by rwa [Forward.stop_eq ht]
      refine run_bind_congr fun count e' hcount => ?_
      cases hcount
      refine run_bind_congr fun inner f hinner => ?_
      have hf := Forward.length_le hinner
      rw [StateT.run_bind, StateT.run_bind,
        hagree () f (by rwa [Forward.stop_eq hinner]) (by omega)]
    · rw [Lockstep.run_shapeText_of_not hshape, Lockstep.run_shapeText_of_not hshape]

theorem run_readAll (hstop : c.stop.kind = .eof) (hk : c.rest.length < k)
    (hm : c.rest.length < m) :
    (Procedure.readAll k).run c = (Procedure.readAll m).run c := by
  refine run_loop (fun n (_ : Unit) => Procedure.readAll n) ?_ ?_ hstop hk hm ()
  · intro c hkind _ k m _
    have hstart : ¬ Lockstep.AtProcedure c := by
      rw [Lockstep.AtProcedure, hkind]
      simp
    rw [Lockstep.run_readAll_of_not hstart, Lockstep.run_readAll_of_not hstart]
  · intro c k m hstop hne hagree _
    by_cases hstart : Lockstep.AtProcedure c
    · rw [Procedure.readAll, Procedure.readAll, run_bind_ok (Lockstep.run_atStart hstart),
        run_bind_ok (Lockstep.run_atStart hstart)]
      simp only [if_true]
      refine run_bind_congr fun p d hp => ?_
      have hd := Consumes.length_lt hstop hp
      rw [StateT.run_bind, StateT.run_bind,
        hagree () d (by rw [Forward.stop_eq hp]; exact hstop) hd]
    · rw [Lockstep.run_readAll_of_not hstart, Lockstep.run_readAll_of_not hstart]

end Loops

/-! ## Nested readings -/

/-- The first reader gives what the second one does, unless its bound is used up. -/
class Below {α : Type} (r r' : Reading α) : Prop where
  run_eq : ∀ c, r.run c = .error .exhausted ∨ r.run c = r'.run c

namespace Below

variable {α β : Type}

/-! ### Sequencing -/

instance (priority := low) refl (r : Reading α) : Below r r := ⟨fun _ => .inr rfl⟩

theorem trans {r s t : Reading α} (h : Below r s) (h' : Below s t) : Below r t where
  run_eq c := by
    rcases h.run_eq c with hrun | hrun
    · exact .inl hrun
    · rw [hrun]
      exact h'.run_eq c

instance exhausted (r : Reading α) : Below Reading.exhausted r := ⟨fun _ => .inl rfl⟩

instance bind {r r' : Reading α} {f f' : α → Reading β} [hr : Below r r']
    [hf : ∀ a, Below (f a) (f' a)] : Below (r >>= f) (r' >>= f') where
  run_eq c := by
    rw [StateT.run_bind, StateT.run_bind]
    rcases hr.run_eq c with hrun | hrun
    · exact .inl (by rw [hrun]; rfl)
    · rw [hrun]
      cases r'.run c with
      | error e => exact .inr rfl
      | ok ad => exact (hf ad.1).run_eq ad.2

theorem andThen {r : Reading α} {f f' : α → Reading β} (hf : ∀ a, Below (f a) (f' a)) :
    Below (r >>= f) (r >>= f') := inferInstance

instance ite {p : Prop} [Decidable p] {r r' s s' : Reading α} [Below r r'] [Below s s'] :
    Below (if p then r else s) (if p then r' else s') := by
  split <;> assumption

instance moreItems {item item' : Reading α} [Below item item'] (fuel : Nat) :
    Below (moreItems item fuel) (moreItems item' fuel) := by
  induction fuel with
  | zero => exact refl _
  | succ fuel ih =>
      unfold Reading.moreItems
      infer_instance

instance items {item item' : Reading α} [Below item item'] : Below (items item) (items item') := by
  unfold Reading.items
  infer_instance

/-! ### Expressions -/

section Expressions

variable {expr expr' operand operand' : Reading Expr} [Below expr expr'] [Below operand operand']

instance chain (op? : Token.Kind → Option BinaryOp) (fuel : Nat) (lhs : Expr) :
    Below (Expr.chain op? operand fuel lhs) (Expr.chain op? operand' fuel lhs) := by
  induction fuel generalizing lhs with
  | zero => exact refl _
  | succ fuel ih =>
      unfold Expr.chain
      refine andThen fun k => ?_
      split <;> infer_instance

instance level (op? : Token.Kind → Option BinaryOp) :
    Below (Expr.level op? operand) (Expr.level op? operand') := by
  unfold Expr.level
  infer_instance

instance foldrLevel (ops : List (Token.Kind → Option BinaryOp)) :
    Below (ops.foldr Expr.level operand) (ops.foldr Expr.level operand') := by
  induction ops with
  | nil => assumption
  | cons op? ops ih => exact level op?

instance binaryLevels : Below (Expr.binaryLevels operand) (Expr.binaryLevels operand') :=
  foldrLevel Expr.levels

instance rangeLevel : Below (Expr.rangeLevel operand) (Expr.rangeLevel operand') := by
  unfold Expr.rangeLevel
  infer_instance

instance accesses (fuel : Nat) (base : Expr) :
    Below (Expr.accesses expr fuel base) (Expr.accesses expr' fuel base) := by
  induction fuel generalizing base with
  | zero => exact refl _
  | succ fuel ih =>
      unfold Expr.accesses
      refine andThen fun k => ?_
      split <;> infer_instance

instance arguments (explicit : Bool) :
    Below (Expr.arguments expr explicit) (Expr.arguments expr' explicit) := by
  unfold Expr.arguments
  dsimp only
  infer_instance

instance explicitCall (pos : Pos) :
    Below (Expr.explicitCall expr pos) (Expr.explicitCall expr' pos) := by
  unfold Expr.explicitCall
  infer_instance

instance rounded (pos : Pos) (op : UnaryOp) (closing : Token.Kind) (expected : Text) :
    Below (Expr.rounded expr pos op closing expected)
      (Expr.rounded expr' pos op closing expected) := by
  unfold Expr.rounded
  infer_instance

instance primary : Below (Expr.primary expr) (Expr.primary expr') := by
  unfold Expr.primary
  refine andThen fun t => ?_
  split <;> infer_instance

instance powerLevel {sign sign' : Reading Expr} [Below sign sign'] :
    Below (Expr.powerLevel expr sign) (Expr.powerLevel expr' sign') := by
  unfold Expr.powerLevel
  infer_instance

end Expressions

/-- One nesting more is never less. -/
theorem expressions (depth : Nat) :
    Below (Expr.readWithin depth) (Expr.readWithin (depth + 1))
      ∧ Below (Expr.readSign depth) (Expr.readSign (depth + 1)) := by
  induction depth with
  | zero =>
      rw [show Expr.readWithin 0 = Reading.exhausted from rfl,
        show Expr.readSign 0 = Reading.exhausted from rfl]
      exact ⟨exhausted _, exhausted _⟩
  | succ depth ih =>
      obtain ⟨hwithin, hsign⟩ := ih
      constructor
      · rw [Expr.readWithin, Expr.readWithin]
        infer_instance
      · rw [Expr.readSign, Expr.readSign]
        refine andThen fun k => ?_
        split <;> infer_instance

/-! ### Statements -/

section Statements

open Stmt (ListReading)

variable {stmt stmt' : Reading Stmt} {nested nested' : Reading Block} {list list' : ListReading}
  [Below stmt stmt'] [Below nested nested'] [∀ stops, Below (list stops) (list' stops)]

instance block : Below (Stmt.block list) (Stmt.block list') := by
  unfold Stmt.block
  infer_instance

instance body : Below (Stmt.body list) (Stmt.body list') := by
  unfold Stmt.body
  infer_instance

instance branch (opener : Token) (stops : List Token.Kind) :
    Below (Stmt.branch stmt list opener stops) (Stmt.branch stmt' list' opener stops) := by
  unfold Stmt.branch
  infer_instance

instance upTo (stops : List Token.Kind) (fuel : Nat) :
    Below (Stmt.upTo stmt nested stops fuel) (Stmt.upTo stmt' nested' stops fuel) := by
  induction fuel with
  | zero => exact refl _
  | succ fuel ih =>
      unfold Stmt.upTo
      infer_instance

instance forStmt (pos : Pos) : Below (Stmt.forStmt list pos) (Stmt.forStmt list' pos) := by
  unfold Stmt.forStmt
  dsimp only
  infer_instance

instance whileStmt (pos : Pos) : Below (Stmt.whileStmt list pos) (Stmt.whileStmt list' pos) := by
  unfold Stmt.whileStmt
  infer_instance

instance repeatStmt (pos : Pos) : Below (Stmt.repeatStmt list pos) (Stmt.repeatStmt list' pos) := by
  unfold Stmt.repeatStmt
  infer_instance

instance ifStmt (pos : Pos) : Below (Stmt.ifStmt stmt list pos) (Stmt.ifStmt stmt' list' pos) := by
  unfold Stmt.ifStmt
  dsimp only
  infer_instance

instance stmtOver : Below (Stmt.stmtOver stmt list) (Stmt.stmtOver stmt' list') := by
  unfold Stmt.stmtOver
  refine andThen fun t => ?_
  split <;> infer_instance

end Statements

/-- One nesting more is never less. -/
theorem statements (depth : Nat) :
    Below (Stmt.readWithin depth) (Stmt.readWithin (depth + 1))
      ∧ ∀ stops, Below (Stmt.readList depth stops) (Stmt.readList (depth + 1) stops) := by
  induction depth with
  | zero =>
      rw [show Stmt.readWithin 0 = Reading.exhausted from rfl]
      exact ⟨exhausted _, fun stops => exhausted _⟩
  | succ depth ih =>
      obtain ⟨hwithin, hlist⟩ := ih
      constructor
      · rw [Stmt.readWithin, Stmt.readWithin]
        infer_instance
      · intro stops
        rw [Stmt.readList, Stmt.readList]
        infer_instance

/-! ### Larger bounds -/

theorem of_le {r : Nat → Reading α} (hstep : ∀ depth, Below (r depth) (r (depth + 1))) {n m : Nat}
    (h : n ≤ m) : Below (r n) (r m) := by
  induction h with
  | refl => exact refl _
  | step _ ih => exact ih.trans (hstep _)

/-- Where the smaller bound is not used up, the larger one gives the same. -/
theorem run_eq_of_ne {r r' : Reading α} (h : Below r r') {c : Token.Cursor}
    (hne : r.run c ≠ .error .exhausted) : r.run c = r'.run c :=
  (h.run_eq c).resolve_left hne

end Below

variable {c : Token.Cursor} {n : Nat}

theorem Reports.ne_exhausted {α : Type} {r : Reading α} (h : Reports (c.rest.length + 1) r)
    (hstop : c.stop.kind = .eof) : r.run c ≠ .error .exhausted := by
  intro hrun
  have houtcome := h.outcome c (Nat.lt_succ_self _) hstop
  rw [hrun] at houtcome
  exact houtcome

/-- An expression is read in the same way on every bound that is large enough. -/
theorem Expr.run_readWithin (hstop : c.stop.kind = .eof) (h : c.rest.length ≤ n) :
    (Expr.readWithin (2 * c.rest.length + 2)).run c = (Expr.readWithin (2 * n + 2)).run c := by
  have hbound : 2 * c.rest.length + 2 ≤ 2 * n + 2 := by omega
  refine (Below.of_le (fun depth => (Below.expressions depth).1) hbound).run_eq_of_ne ?_
  exact ((Reports.expressions _).1 _ (by omega)).ne_exhausted hstop

/-- A list of statements is read in the same way on every bound that is large enough. -/
theorem Stmt.run_readList (stops : List Token.Kind) (hstop : c.stop.kind = .eof)
    (h : c.rest.length ≤ n) :
    (Stmt.readList (2 * c.rest.length + 2) stops).run c
      = (Stmt.readList (2 * n + 2) stops).run c := by
  have hbound : 2 * c.rest.length + 2 ≤ 2 * n + 2 := by omega
  refine (Below.of_le (fun depth => (Below.statements depth).2 stops) hbound).run_eq_of_ne ?_
  exact ((Reports.statements _).2 _ (by omega) stops).ne_exhausted hstop

end PseudoCost
