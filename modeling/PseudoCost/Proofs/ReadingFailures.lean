import PseudoCost.Proofs.Forward

/-!
# How reading can fail

A reading from a cursor ends in one of three ways: it succeeds further on in the same tokens, it
meets a token it did not expect, further on in the same tokens, or it comes to a number token whose
text has no value. It never uses up a bound. `Reports n` says so of one reader when fewer than `n`
tokens are left.

The count of tokens is what makes the bounds suffice. A loop takes a token in every round but its
last, so one with bound `n` is good for fewer than `n` tokens, by an induction on the bound. Two
nested readings of expressions, or of statements, stand between one token taken and the next, so a
reader with bound `d` is good for half as many tokens: `expressions` and `statements` carry that
inequality through the induction on the bound. Everything else is put together from its parts, and
inferred from the definitions.
-/

namespace PseudoCost

open Reading

-- The longest definitions are sequences of some twenty readers.
set_option synthInstance.maxSize 1000

/-! ## Outcomes -/

/-- The cursor `d` stands at `c` or further on in the same tokens. -/
structure Token.Cursor.After (c d : Cursor) : Prop where
  rest : d.rest <:+ c.rest
  stop_eq : d.stop = c.stop

namespace Token.Cursor.After

variable {c d e : Token.Cursor}

theorem refl (c : Token.Cursor) : c.After c := ⟨List.suffix_refl _, rfl⟩

theorem trans (h : c.After d) (h' : d.After e) : c.After e :=
  ⟨h'.rest.trans h.rest, h'.stop_eq.trans h.stop_eq⟩

theorem advance (c : Token.Cursor) : c.After c.advance := ⟨List.tail_suffix _, rfl⟩

theorem skipAll (c : Token.Cursor) (kinds : List Token.Kind) : c.After (c.skipAll kinds) :=
  ⟨List.dropWhile_suffix _, rfl⟩

end Token.Cursor.After

theorem Token.Cursor.peek_mem (c : Token.Cursor) : c.peek ∈ c.rest ++ [c.stop] := by
  obtain ⟨ts, stop⟩ := c
  cases ts with
  | nil => exact List.mem_singleton_self stop
  | cons t ts => exact List.mem_cons_self

/-- Before the end of the input, the token in front is one of the tokens left. -/
theorem Token.Cursor.exists_rest {c : Token.Cursor} (hstop : c.stop.kind = .eof)
    (hkind : c.kind ≠ .eof) : ∃ ts, c.rest = c.peek :: ts ∧ c.advance = ⟨ts, c.stop⟩ := by
  obtain ⟨ts, stop⟩ := c
  cases ts with
  | nil => exact absurd hstop hkind
  | cons t ts => exact ⟨ts, rfl, rfl⟩

/-- What may come of a reading that starts at a cursor. -/
def Outcome {α : Type} (c : Token.Cursor) : Except Failure (α × Token.Cursor) → Prop
  | .ok (_, d) => c.After d
  | .error (.mismatch _ d) => c.After d
  | .error (.numeral e) => ∃ t ∈ c.rest, t.kind = .number ∧ Numeral.read t.text = .error e
  | .error .exhausted => False

/-- A reading that starts further on ends further on. -/
theorem Outcome.of_after {α : Type} {c d : Token.Cursor} (h : c.After d)
    {result : Except Failure (α × Token.Cursor)} (hresult : Outcome d result) :
    Outcome c result := by
  match result with
  | .ok _ | .error (.mismatch ..) => exact h.trans hresult
  | .error (.numeral _) =>
      obtain ⟨t, ht, hnumeral⟩ := hresult
      exact ⟨t, h.rest.subset ht, hnumeral⟩
  | .error .exhausted => exact hresult

/-- With fewer than `n` tokens left, the reader succeeds, meets a token it did not expect, or comes
to a number without a value. -/
class Reports {α : Type} (n : Nat) (r : Reading α) : Prop where
  outcome : ∀ c : Token.Cursor, c.rest.length < n → c.stop.kind = .eof → Outcome c (r.run c)

namespace Reports

variable {n : Nat}

/-! ## Sequencing -/

section Sequencing

variable {α β : Type}

/-- There are never fewer than no tokens left. -/
instance zero (r : Reading α) : Reports 0 r := ⟨fun _ h => absurd h (Nat.not_lt_zero _)⟩

instance pure (a : α) : Reports n (Pure.pure a) := ⟨fun c _ _ => .refl c⟩

/-- One reader after another, at one cursor. -/
theorem outcome_bind {r : Reading α} {f : α → Reading β} {c : Token.Cursor}
    (hr : Outcome c (r.run c))
    (hf : ∀ a d, r.run c = .ok (a, d) → c.After d → Outcome d ((f a).run d)) :
    Outcome c ((r >>= f).run c) := by
  rw [StateT.run_bind]
  match hrun : r.run c with
  | .ok (a, d) =>
      rw [hrun] at hr
      exact .of_after hr (hf a d hrun hr)
  | .error (.mismatch ..) | .error (.numeral _) | .error .exhausted =>
      rw [hrun] at hr
      exact hr

instance bind {r : Reading α} {f : α → Reading β} [hr : Reports n r]
    [hf : ∀ a, Reports n (f a)] : Reports n (r >>= f) where
  outcome c hlt hstop := by
    refine outcome_bind (hr.outcome c hlt hstop) fun a d _ hafter => ?_
    exact (hf a).outcome d (Nat.lt_of_le_of_lt hafter.rest.length_le hlt) (hafter.stop_eq ▸ hstop)

theorem of_le {m : Nat} (hle : m ≤ n) {r : Reading α} (h : Reports n r) : Reports m r :=
  ⟨fun c hlt hstop => h.outcome c (Nat.lt_of_lt_of_le hlt hle) hstop⟩

theorem of_succ {r : Reading α} (h : Reports (n + 1) r) : Reports n r := h.of_le (Nat.le_succ n)

theorem andThen {r : Reading α} [Reports n r] {f : α → Reading β} (hf : ∀ a, Reports n (f a)) :
    Reports n (r >>= f) := inferInstance

instance map {r : Reading α} {f : α → β} [Reports n r] : Reports n (f <$> r) := by
  rw [map_eq_pure_bind]
  infer_instance

instance ite {p : Prop} [Decidable p] {r s : Reading α} [Reports n r] [Reports n s] :
    Reports n (if p then r else s) := by
  split <;> assumption

instance fail (expected : Text) : Reports n (Reading.fail expected : Reading α) :=
  ⟨fun c _ _ => .refl c⟩

end Sequencing

/-! ## Primitive readers -/

instance remaining : Reports n remaining := ⟨fun c _ _ => .refl c⟩

instance peek : Reports n peek := ⟨fun c _ _ => .refl c⟩

instance kind : Reports n kind := ⟨fun c _ _ => .refl c⟩

instance nextKind : Reports n nextKind := ⟨fun c _ _ => .refl c⟩

instance take : Reports n take := ⟨fun c _ _ => .advance c⟩

instance accept (k : Token.Kind) : Reports n (accept k) := by
  unfold Reading.accept
  infer_instance

instance expect (k : Token.Kind) (expected : Text) : Reports n (expect k expected) := by
  unfold Reading.expect
  infer_instance

/-! ## Taking a token -/

section Taking

variable {α β : Type}

/-- Once a token is taken, there is one fewer left. -/
theorem take_bind {f : Token → Reading β} [hf : ∀ t, Reports n (f t)] {c : Token.Cursor}
    (hlt : c.rest.length < n + 1) (hstop : c.stop.kind = .eof) (hkind : c.kind ≠ .eof) :
    Outcome c ((Reading.take >>= f).run c) := by
  obtain ⟨ts, hrest, hadvance⟩ := Token.Cursor.exists_rest hstop hkind
  refine outcome_bind (.advance c) fun t d hrun _ => ?_
  cases hrun
  refine (hf _).outcome _ ?_ (by rw [hadvance]; exact hstop)
  rw [hrest, List.length_cons] at hlt
  rw [hadvance]
  exact Nat.lt_of_succ_lt_succ hlt

/-- The same behind every reader that takes a token. -/
theorem consumes_bind {r : Reading α} [Consumes r] [hr : Reports (n + 1) r] {f : α → Reading β}
    [hf : ∀ a, Reports n (f a)] : Reports (n + 1) (r >>= f) where
  outcome c hlt hstop := by
    refine outcome_bind (hr.outcome c hlt hstop) fun a d hrun hafter => ?_
    have hd := Consumes.length_lt hstop hrun
    exact (hf a).outcome d (by omega) (hafter.stop_eq ▸ hstop)

theorem expect_bind {k : Token.Kind} (hk : k ≠ .eof) {expected : Text} {f : Token → Reading β}
    [∀ t, Reports n (f t)] : Reports (n + 1) (Reading.expect k expected >>= f) := by
  have := Consumes.expect hk expected
  exact consumes_bind

theorem accept_bind {k : Token.Kind} (hk : k ≠ .eof) {f : Bool → Reading β}
    (htrue : Reports n (f true)) (hfalse : Reports (n + 1) (f false)) :
    Reports (n + 1) (Reading.accept k >>= f) where
  outcome c hlt hstop := by
    by_cases hkind : c.kind = k
    · have hlength := Token.Cursor.length_advance_lt hstop (hkind ▸ hk)
      rw [run_bind_ok (run_accept hkind)]
      exact .of_after (.advance c) (htrue.outcome c.advance (by omega) hstop)
    · rw [run_bind_ok (run_accept_of_ne hkind)]
      exact hfalse.outcome c hlt hstop

/-- A reader that first looks at the kind in front. -/
theorem kind_bind {f : Token.Kind → Reading β}
    (hf : ∀ c : Token.Cursor, c.rest.length < n → c.stop.kind = .eof →
      Outcome c ((f c.kind).run c)) : Reports n (Reading.kind >>= f) where
  outcome c hlt hstop := by
    rw [run_bind_ok (rfl : Reading.kind.run c = .ok (c.kind, c))]
    exact hf c hlt hstop

/-- A reader that first counts the tokens left. -/
theorem remaining_bind {f : Nat → Reading β} (hf : ∀ k < n, Reports (k + 1) (f k)) :
    Reports n (Reading.remaining >>= f) where
  outcome c hlt hstop := (hf c.rest.length hlt).outcome c (Nat.lt_succ_self _) hstop

/-- A reader that first looks at the token in front. -/
theorem peek_bind {f : Token → Reading β}
    (hf : ∀ c : Token.Cursor, c.rest.length < n → c.stop.kind = .eof →
      Outcome c ((f c.peek).run c)) : Reports n (Reading.peek >>= f) where
  outcome c hlt hstop := by
    rw [run_bind_ok (rfl : Reading.peek.run c = .ok (c.peek, c))]
    exact hf c hlt hstop

end Taking

/-! ## Skipping and lists of items -/

theorem skipWithin {kinds : List Token.Kind} (hkinds : .eof ∉ kinds) (fuel : Nat) :
    Reports fuel (skipWithin kinds fuel) := by
  induction fuel with
  | zero => exact zero _
  | succ fuel ih =>
      unfold Reading.skipWithin
      refine kind_bind fun c hlt hstop => ?_
      split
      next hmem => exact take_bind hlt hstop fun heq => hkinds (heq ▸ hmem)
      next => exact .refl c

theorem skipAll {kinds : List Token.Kind} (hkinds : .eof ∉ kinds) : Reports n (skipAll kinds) := by
  unfold Reading.skipAll
  exact remaining_bind fun k _ => skipWithin hkinds (k + 1)

instance skipSemicolons : Reports n (Reading.skipAll [.semicolon]) := skipAll (by decide)

instance skipPoints : Reports n (Reading.skipAll [.semicolon, .dot]) := skipAll (by decide)

theorem moreItems {α : Type} {item : Reading α} (fuel : Nat) (hitem : Reports fuel item) :
    Reports fuel (moreItems item fuel) := by
  induction fuel with
  | zero => exact zero _
  | succ fuel ih =>
      have := of_succ hitem
      have := ih this
      unfold Reading.moreItems
      exact accept_bind (by decide) inferInstance (pure [])

instance items {α : Type} {item : Reading α} [hitem : Reports n item] : Reports n (items item) := by
  unfold Reading.items
  refine andThen fun first => remaining_bind fun k hk => ?_
  have := moreItems (k + 1) (hitem.of_le hk)
  infer_instance

/-! ## Expressions -/

/-- No level knows the end of the input. -/
theorem level_eof : ∀ op? ∈ Expr.levels, op? .eof = none := by
  simp [Expr.levels]

section Expressions

variable {expr operand : Reading Expr}

theorem chain {op? : Token.Kind → Option BinaryOp} (hop : op? .eof = none) (fuel : Nat)
    (hoperand : Reports fuel operand) (lhs : Expr) :
    Reports fuel (Expr.chain op? operand fuel lhs) := by
  induction fuel generalizing lhs with
  | zero => exact zero _
  | succ fuel ih =>
      have := of_succ hoperand
      have := ih this
      unfold Expr.chain
      refine kind_bind fun c hlt hstop => ?_
      split
      next op hc =>
        have hkind : c.kind ≠ .eof := fun heq => by rw [heq, hop] at hc; cases hc
        exact take_bind hlt hstop hkind
      next => exact .refl c

variable [hexpr : Reports n expr] [hoperand : Reports n operand]

theorem level {op? : Token.Kind → Option BinaryOp} (hop : op? .eof = none) :
    Reports n (Expr.level op? operand) := by
  unfold Expr.level
  refine andThen fun lhs => remaining_bind fun k hk => ?_
  exact chain hop (k + 1) (hoperand.of_le hk) lhs

theorem foldrLevel {ops : List (Token.Kind → Option BinaryOp)}
    (hops : ∀ op? ∈ ops, op? .eof = none) : Reports n (ops.foldr Expr.level operand) := by
  induction ops with
  | nil => assumption
  | cons op? ops ih =>
      obtain ⟨hop, hops⟩ := List.forall_mem_cons.mp hops
      have := ih hops
      exact level hop

instance binaryLevels : Reports n (Expr.binaryLevels operand) := foldrLevel level_eof

instance rangeLevel : Reports n (Expr.rangeLevel operand) := by
  unfold Expr.rangeLevel
  infer_instance

/-- A bracket or a point is taken before anything is read between brackets. -/
theorem accesses (fuel : Nat) (hexpr : ∀ m < fuel, Reports m expr) (base : Expr) :
    Reports fuel (Expr.accesses expr fuel base) := by
  induction fuel generalizing base with
  | zero => exact zero _
  | succ fuel ih =>
      have := hexpr fuel (Nat.lt_succ_self fuel)
      have := ih fun m hm => hexpr m (Nat.lt_succ_of_lt hm)
      unfold Expr.accesses
      refine kind_bind fun c hlt hstop => ?_
      split
      next hkind => exact take_bind hlt hstop (by rw [hkind]; decide)
      next hkind =>
        rw [run_bind_ok (rfl : Reading.nextKind.run c = .ok (c.nextKind, c))]
        split
        next => exact take_bind hlt hstop (by rw [hkind]; decide)
        next => exact .refl c
      next => exact .refl c

theorem arguments_succ (explicit : Bool) : Reports (n + 1) (Expr.arguments expr explicit) := by
  have hopen (f : Token → Reading (List Expr)) [∀ t, Reports n (f t)] :
      Reports (n + 1) (Reading.expect .lparen "'('" >>= f) := expect_bind (by decide)
  unfold Expr.arguments
  dsimp only
  infer_instance

instance arguments (explicit : Bool) : Reports n (Expr.arguments expr explicit) :=
  of_succ (arguments_succ explicit)

instance procedureName : Reports n Expr.procedureName := by
  unfold Expr.procedureName
  infer_instance

instance explicitCall (pos : Pos) : Reports n (Expr.explicitCall expr pos) := by
  unfold Expr.explicitCall
  infer_instance

instance rounded (pos : Pos) (op : UnaryOp) (closing : Token.Kind) (expected : Text) :
    Reports n (Expr.rounded expr pos op closing expected) := by
  unfold Expr.rounded
  infer_instance

instance primary : Reports (n + 1) (Expr.primary expr) := by
  unfold Expr.primary
  refine peek_bind fun c hlt hstop => ?_
  split
  next hkind =>
    -- The one place where a token is taken and still found to be at fault.
    obtain ⟨ts, hrest, -⟩ :=
      Token.Cursor.exists_rest hstop (by rw [show c.kind = _ from hkind]; decide)
    rw [run_bind_ok (rfl : Reading.take.run c = .ok (c.peek, c.advance))]
    cases hread : Numeral.read c.peek.text with
    | ok value => exact .advance c
    | error e => exact ⟨c.peek, by rw [hrest]; exact List.mem_cons_self, hkind, hread⟩
  all_goals
    first
    | exact .refl c
    | rename_i hkind
      exact take_bind hlt hstop (by rw [show c.kind = _ from hkind]; decide)

instance powerLevel {sign : Reading Expr} [hsign : Reports n sign] :
    Reports (n + 1) (Expr.powerLevel expr sign) := by
  unfold Expr.powerLevel
  refine remaining_bind fun k hk => ?_
  have : Reports (k + 1) (Expr.primary expr) := primary.of_le hk
  have := hsign.of_le (Nat.le_of_lt_succ hk)
  have := accesses (k + 1) fun m hm => hexpr.of_le (by omega)
  refine andThen fun base => andThen fun base => kind_bind fun c hlt hstop => ?_
  split
  next hkind => exact take_bind hlt hstop (by rw [hkind]; decide)
  next => exact .refl c

end Expressions

/-- A bound of twice the tokens left suffices for an expression, and one less for an expression at
the level of signs, which may take a sign first. -/
theorem expressions (depth : Nat) :
    (∀ n, 2 * n ≤ depth → Reports n (Expr.readWithin depth))
      ∧ ∀ n, 2 * n ≤ depth + 1 → Reports n (Expr.readSign depth) := by
  induction depth with
  | zero =>
      constructor <;> intro n hn
      all_goals
        obtain rfl : n = 0 := by omega
        exact zero _
  | succ depth ih =>
      obtain ⟨hwithin, hsign⟩ := ih
      constructor
      · intro n hn
        have := hsign n hn
        rw [Expr.readWithin]
        infer_instance
      · intro n hn
        cases n with
        | zero => exact zero _
        | succ n =>
            have := hwithin n (by omega)
            have := hsign n (by omega)
            rw [Expr.readSign]
            refine kind_bind fun c hlt hstop => ?_
            split
            next op hop =>
              have hkind : c.kind ≠ .eof := fun heq => by rw [heq] at hop; cases hop
              exact take_bind hlt hstop hkind
            next => exact outcome c hlt hstop

instance exprRead : Reports n Expr.read where
  outcome c hlt hstop := by
    have hbound := (expressions (2 * c.rest.length + 2)).1 (c.rest.length + 1) (Nat.le_refl _)
    rw [Expr.read, run_bind_ok (rfl : Reading.remaining.run c = .ok (c.rest.length, c))]
    exact hbound.outcome c (Nat.lt_succ_self _) hstop

/-! ## Statements -/

section Statements

open Stmt (ListReading)

variable {stmt : Reading Stmt} {nested : Reading Block} {list : ListReading} [Reports n stmt]
  [Reports n nested] [∀ stops, Reports n (list stops)]

instance here : Reports n Stmt.here := by
  unfold Stmt.here
  infer_instance

theorem block_succ : Reports (n + 1) (Stmt.block list) := by
  unfold Stmt.block
  exact expect_bind (by decide)

instance block : Reports n (Stmt.block list) := of_succ block_succ

instance body : Reports n (Stmt.body list) := by
  unfold Stmt.body
  infer_instance

instance branch (opener : Token) (stops : List Token.Kind) :
    Reports n (Stmt.branch stmt list opener stops) := by
  unfold Stmt.branch
  infer_instance

omit [∀ stops, Reports n (list stops)] in
theorem upTo [Consumes stmt] [Consumes nested] (stops : List Token.Kind) (fuel : Nat)
    (hstmt : Reports fuel stmt) (hnested : Reports fuel nested) :
    Reports fuel (Stmt.upTo stmt nested stops fuel) := by
  induction fuel with
  | zero => exact zero _
  | succ fuel ih =>
      have := ih (of_succ hstmt) (of_succ hnested)
      have : Reports (fuel + 1) (nested >>= fun inner => do
          return inner.stmts ++ (← Stmt.upTo stmt nested stops fuel)) := consumes_bind
      have : Reports (fuel + 1) (stmt >>= fun s => do
          return s :: (← Stmt.upTo stmt nested stops fuel)) := consumes_bind
      unfold Stmt.upTo
      infer_instance

instance assignSign : Reports n Stmt.assignSign := by
  unfold Stmt.assignSign
  infer_instance

instance designator (t : Token) : Reports n (Stmt.designator t) := by
  unfold Stmt.designator
  exact remaining_bind fun k _ => accesses (k + 1) (fun _ _ => exprRead) _

instance forStmt (pos : Pos) : Reports n (Stmt.forStmt list pos) := by
  unfold Stmt.forStmt
  dsimp only
  infer_instance

instance whileStmt (pos : Pos) : Reports n (Stmt.whileStmt list pos) := by
  unfold Stmt.whileStmt
  infer_instance

instance repeatStmt (pos : Pos) : Reports n (Stmt.repeatStmt list pos) := by
  unfold Stmt.repeatStmt
  infer_instance

instance ifStmt (pos : Pos) : Reports n (Stmt.ifStmt stmt list pos) := by
  unfold Stmt.ifStmt
  dsimp only
  infer_instance

instance callStmt (pos : Pos) : Reports n (Stmt.callStmt pos) := by
  unfold Stmt.callStmt
  infer_instance

instance returnStmt (pos : Pos) : Reports n (Stmt.returnStmt pos) := by
  unfold Stmt.returnStmt
  infer_instance

instance printStmt (pos : Pos) : Reports n (Stmt.printStmt pos) := by
  unfold Stmt.printStmt
  dsimp only
  infer_instance

instance swapStmt (pos : Pos) : Reports n (Stmt.swapStmt pos) := by
  unfold Stmt.swapStmt
  infer_instance

instance nameStmt (t : Token) : Reports n (Stmt.nameStmt t) := by
  unfold Stmt.nameStmt
  infer_instance

theorem stmtOver_succ : Reports (n + 1) (Stmt.stmtOver stmt list) := by
  unfold Stmt.stmtOver
  refine peek_bind fun c hlt hstop => ?_
  split
  all_goals
    first
    | exact .refl c
    | rename_i hkind
      exact take_bind hlt hstop (by rw [show c.kind = _ from hkind]; decide)

end Statements

/-- A bound of twice the tokens left suffices for a list of statements, and one less for a
statement, which takes a token first. -/
theorem statements (depth : Nat) :
    (∀ n, 2 * n ≤ depth + 1 → Reports n (Stmt.readWithin depth))
      ∧ ∀ n, 2 * n ≤ depth → ∀ stops, Reports n (Stmt.readList depth stops) := by
  induction depth with
  | zero =>
      refine ⟨fun n hn => ?_, fun n hn stops => ?_⟩
      all_goals
        obtain rfl : n = 0 := by omega
        exact zero _
  | succ depth ih =>
      obtain ⟨hwithin, hlist⟩ := ih
      constructor
      · intro n hn
        cases n with
        | zero => exact zero _
        | succ n =>
            have := hwithin n (by omega)
            have := hlist n (by omega)
            rw [Stmt.readWithin]
            exact stmtOver_succ
      · intro n hn stops
        cases n with
        | zero => exact zero _
        | succ n =>
            have hstmt := hwithin (n + 1) (by omega)
            have := hlist n (by omega)
            have hnested : Reports (n + 1) (Stmt.block (Stmt.readList depth)) := block_succ
            rw [Stmt.readList]
            exact remaining_bind fun k hk => upTo stops (k + 1) (hstmt.of_le hk) (hnested.of_le hk)

instance listReading (stops : List Token.Kind) : Reports n (Stmt.listReading stops) where
  outcome c hlt hstop := by
    have hbound := (statements (2 * c.rest.length + 2)).2 (c.rest.length + 1) (Nat.le_refl _) stops
    rw [Stmt.listReading, run_bind_ok (rfl : Reading.remaining.run c = .ok (c.rest.length, c))]
    exact hbound.outcome c (Nat.lt_succ_self _) hstop

/-! ## Programs -/

theorem bracketText (fuel depth : Nat) : Reports fuel (Procedure.bracketText fuel depth) := by
  induction fuel generalizing depth with
  | zero => exact zero _
  | succ fuel ih =>
      unfold Procedure.bracketText
      refine kind_bind fun c hlt hstop => ?_
      split
      next => exact .refl c
      next hkind => exact take_bind hlt hstop hkind

instance bracketText_bind {α : Type} {f : Text → Reading α} [hf : ∀ inner, Reports n (f inner)] :
    Reports n (Reading.remaining >>= fun count => Procedure.bracketText (count + 1) 1 >>= f) := by
  refine remaining_bind fun k hk => ?_
  have := bracketText (k + 1) 1
  have (inner : Text) : Reports (k + 1) (f inner) := (hf inner).of_le hk
  infer_instance

theorem shapeText (fuel : Nat) : Reports fuel (Procedure.shapeText fuel) := by
  induction fuel with
  | zero => exact zero _
  | succ fuel ih =>
      have hbrackets (dots : Text) : Reports (fuel + 1) (do
          let _ ← Reading.expect .lbracket "'['"
          let inner ← Procedure.bracketText ((← Reading.remaining) + 1) 1
          return dots ++ "[" ++ inner ++ (← Procedure.shapeText fuel)) := expect_bind (by decide)
      unfold Procedure.shapeText
      dsimp only
      infer_instance

instance param : Reports n Procedure.param := by
  unfold Procedure.param
  refine andThen fun t => remaining_bind fun k _ => ?_
  have := shapeText (k + 1)
  infer_instance

instance atStart : Reports n Procedure.atStart := by
  unfold Procedure.atStart
  infer_instance

instance procedureRead : Reports n Procedure.read := by
  unfold Procedure.read
  dsimp only
  infer_instance

theorem readAll (fuel : Nat) : Reports fuel (Procedure.readAll fuel) := by
  induction fuel with
  | zero => exact zero _
  | succ fuel ih =>
      have : Reports (fuel + 1) (Procedure.read >>= fun p => do
          return p :: (← Procedure.readAll fuel)) := consumes_bind
      unfold Procedure.readAll
      infer_instance

instance readAll_bind {α : Type} {f : List Procedure → Reading α} [hf : ∀ ps, Reports n (f ps)] :
    Reports n (Reading.remaining >>= fun count => Procedure.readAll (count + 1) >>= f) := by
  refine remaining_bind fun k hk => ?_
  have := readAll (k + 1)
  have (ps : List Procedure) : Reports (k + 1) (f ps) := (hf ps).of_le hk
  infer_instance

instance programRead : Reports n Program.read := by
  unfold Program.read
  dsimp only
  infer_instance

end Reports

/-- Tokens that spell no program have one at fault, which was not expected where it stands or is a
number without a value. -/
theorem Program.ofTokens_fault {body : List Token} {last : Token}
    (hbody : ∀ t ∈ body, t.kind ≠ .eof) (hlast : last.kind = .eof) {e : Failure}
    (h : Program.ofTokens (body ++ [last]) = .error e) :
    (∃ expected c, e = .mismatch expected c ∧ c.peek ∈ body ++ [last])
      ∨ ∃ error, e = .numeral error
        ∧ ∃ t ∈ body, t.kind = .number ∧ Numeral.read t.text = .error error := by
  have houtcome := (Reports.programRead (n := body.length + 1)).outcome ⟨body, last⟩
    (Nat.lt_succ_self _) hlast
  rw [Program.ofTokens, Token.Cursor.ofTokens_append hbody hlast] at h
  cases hrun : Program.read.run ⟨body, last⟩ with
  | ok pc =>
      rw [hrun] at h
      cases h
  | error failure =>
      rw [hrun] at h houtcome
      obtain rfl : failure = e := by cases h; rfl
      cases failure with
      | mismatch expected c =>
          refine .inl ⟨expected, c, rfl, ?_⟩
          rcases List.mem_append.mp c.peek_mem with hpeek | hpeek
          · exact List.mem_append_left _ (houtcome.rest.subset hpeek)
          · rw [List.mem_singleton.mp hpeek, houtcome.stop_eq]
            exact List.mem_append_right _ (List.mem_singleton_self last)
      | numeral error => exact .inr ⟨error, rfl, houtcome⟩
      | exhausted => exact houtcome.elim

end PseudoCost
