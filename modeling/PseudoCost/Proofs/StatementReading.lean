import PseudoCost.Proofs.ExprReading

/-!
# Reading statements back

Statements in words are read back up to positions and the marks of explicit blocks
(`readWithin_reads`, `readList_reads`). As with expressions, the reader of each kind of statement
has its own lemma over any readers of nested statements that do their work, and the recursion over
statements puts them together. Every nested list of statements stands between `begin` and `end`, so
the rules for bodies and branches without `begin` never apply.
-/

namespace PseudoCost

open Reading

/-! ## Loop control -/

theorem Expr.name?_erased (e : Expr) : e.erased.name? = e.name? := by
  cases e <;> simp [Expr.erased, Expr.name?]

/-- What a condition adds to a control does not depend on positions. -/
theorem Control.extend_erased : ∀ (e : Expr) (c : Control),
    (c.extend e).erased = c.erased.extend e.erased
  | .name _ n, c => by
      simp only [Control.extend, Expr.erased, Control.erased]
      split <;> rfl
  | .unary _ _ operand, c => by
      simp only [Control.extend, Expr.erased]
      exact Control.extend_erased operand c
  | .binary _ op lhs rhs, c => by
      simp only [Control.extend, Expr.erased]
      split
      · have hleft := Control.extend_erased lhs c
        have hnone : (c.erased.extend lhs.erased).bound.isNone = (c.extend lhs).bound.isNone := by
          rw [← hleft]
          simp [Control.erased]
        rw [hnone, ← hleft]
        split
        · exact Control.extend_erased rhs _
        · rfl
      · have hsome : c.erased.bound.isSome = c.bound.isSome := by simp [Control.erased]
        rw [hsome, Expr.name?_erased, Expr.name?_erased]
        split
        · rfl
        · cases lhs.name? with
          | some n => rfl
          | none => cases rhs.name? <;> rfl
  | .number .., _ | .string .., _ | .bool .., _ | .null _, _ | .call .., _ | .index .., _
  | .field .., _ | .range .., _ => rfl

/-- Conditions that differ in positions only have controls that do. -/
theorem Control.ofCondition_erased {e e' : Expr} (h : e'.erased = e.erased) :
    (Control.ofCondition e').erased = (Control.ofCondition e).erased := by
  rw [ofCondition, ofCondition, extend_erased, extend_erased, h]

namespace Stmt

variable {stop : Token} {rest : List Token} {n : Nat}

/-! ## Blocks -/

/-- The reader gives a statement back from its words, if there are at most `n` of them and a
semicolon follows. -/
def ReadsBack (stop : Token) (n : Nat) (r : Reading Stmt) (s : Stmt) : Prop :=
  ∀ ts rest, Spelled s.words ts → ts.length ≤ n →
    Token.Cursor.kind ⟨rest, stop⟩ = .semicolon →
    Reads r ⟨ts ++ rest, stop⟩ ⟨rest, stop⟩ fun s' => s'.erased = s.erased

/-- The kinds of tokens that end a list of statements here. -/
def isStop : Token.Kind → Bool
  | .endWord | .untilWord => true
  | _ => false

/-- The reader gives statements back from their words, if there are at most `n` of them and a token
follows at which it is to stop. -/
def ReadsBackList (stop : Token) (n : Nat) (list : ListReading) (ss : List Stmt) : Prop :=
  ∀ k ts rest, isStop k = true → Spelled (wordsOf ss) ts → ts.length ≤ n →
    Token.Cursor.kind ⟨rest, stop⟩ = k →
    Reads (list [k]) ⟨ts ++ rest, stop⟩ ⟨rest, stop⟩ fun ss' => erasedList ss' = erasedList ss

section Blocks

variable {stmt : Reading Stmt} {list : ListReading} {b : Block} {ts : List Token}

theorem reads_block (hlist : ReadsBackList stop n list b.stmts) (hts : Spelled b.words ts)
    (hn : ts.length ≤ n + 2) :
    Reads (block list) ⟨ts ++ rest, stop⟩ ⟨rest, stop⟩ fun b' => b'.erased = b.erased := by
  obtain ⟨pos, explicit, close, stmts⟩ := b
  rw [Block.words] at hts
  obtain ⟨t, us, rfl, ht, hus⟩ := hts.mark
  obtain ⟨us, t', rfl, hus, ht'⟩ := hus.closed
  simp only [List.length_cons, List.length_append, List.length_nil] at hn
  simp only [block, List.cons_append, List.append_assoc, List.nil_append, reads_expect_bind,
    Token.Cursor.kind_cons, ht, Token.Cursor.peek_cons, Token.Cursor.advance_cons]
  refine (hlist .endWord us (t' :: rest) rfl hus (by omega) ht').bind fun ss' hss' => ?_
  simp [here, ht', Block.erased, hss', Block.stmts]

theorem reads_body (hlist : ReadsBackList stop n list b.stmts) (hts : Spelled b.words ts)
    (hn : ts.length ≤ n + 2) :
    Reads (body list) ⟨ts ++ rest, stop⟩ ⟨rest, stop⟩ fun b' => b'.erased = b.erased := by
  have hblock : Reads (block list) ⟨ts ++ rest, stop⟩ ⟨rest, stop⟩ fun b' =>
      b'.erased = b.erased := reads_block hlist hts hn
  obtain ⟨pos, explicit, close, stmts⟩ := b
  rw [Block.words] at hts
  obtain ⟨t, us, rfl, ht, hus⟩ := hts.mark
  simpa [body, ht] using hblock

theorem reads_branch (hlist : ReadsBackList stop n list b.stmts) (hts : Spelled b.words ts)
    (hn : ts.length ≤ n + 2) (opener : Token) (stops : List Token.Kind) :
    Reads (branch stmt list opener stops) ⟨ts ++ rest, stop⟩ ⟨rest, stop⟩ fun r =>
      r.1.erased = b.erased ∧ r.2 = true := by
  have hblock : Reads (block list) ⟨ts ++ rest, stop⟩ ⟨rest, stop⟩ fun b' =>
      b'.erased = b.erased := reads_block hlist hts hn
  obtain ⟨pos, explicit, close, stmts⟩ := b
  rw [Block.words] at hts
  obtain ⟨t, us, rfl, ht, hus⟩ := hts.mark
  simpa [branch, ht] using hblock

end Blocks

/-! ## Compound statements, after their first word -/

section Compound

variable {stmt : Reading Stmt} {list : ListReading} {ts : List Token}

theorem reads_assignSign_bind {β : Type} {t : Token} (h : t.kind = .assign ∨ t.kind = .equal)
    {f : Unit → Reading β} {c : Token.Cursor} {P : β → Prop} :
    Reads (assignSign >>= f) ⟨t :: ts, stop⟩ c P ↔ Reads (f ()) ⟨ts, stop⟩ c P := by
  refine reads_bind_iff ?_
  have hkind : Token.Cursor.kind ⟨t :: ts, stop⟩ = t.kind := rfl
  rcases h with h | h
  · rw [assignSign, run_bind_ok (run_accept (hkind.trans h))]
    rfl
  · have hne : Token.Cursor.kind ⟨t :: ts, stop⟩ ≠ .assign := by simp [h]
    rw [assignSign, run_bind_ok (run_accept_of_ne hne)]
    exact run_bind_ok (run_accept (hkind.trans h))

/-- The word between the bounds of a loop tells its direction. -/
theorem reads_direction {β : Type} {descending : Bool} {t : Token}
    (ht : t.kind = if descending then .downtoWord else .toWord) {f : Bool → Reading β}
    {c : Token.Cursor} {P : β → Prop} (h : Reads (f descending) ⟨ts, stop⟩ c P) :
    Reads (do
      let d ← accept .downtoWord
      if !d then
        let _ ← expect .toWord "'to'"
        f d
      else f d) ⟨t :: ts, stop⟩ c P := by
  cases descending with
  | true =>
      rw [if_pos rfl] at ht
      simpa [ht] using h
  | false =>
      rw [if_neg (by simp)] at ht
      simpa [ht] using h

/-- A step is read back where it stands, and none where it does not. -/
theorem reads_step {β : Type} {step : Option Expr}
    (hts : Spelled (step.toList.flatMap fun e => .mark .stepWord :: e.words) ts)
    (hdo : Token.Cursor.kind ⟨rest, stop⟩ = .doWord) {f : Option Expr → Reading β}
    {c : Token.Cursor} {P : β → Prop}
    (h : ∀ step', step'.map Expr.erased = step.map Expr.erased → Reads (f step') ⟨rest, stop⟩ c P) :
    Reads (do
      if ← accept .stepWord then
        let step ← some <$> Expr.read
        f step
      else
        let step ← pure none
        f step) ⟨ts ++ rest, stop⟩ c P := by
  cases step with
  | none =>
      have hnil : Spelled [] ts := hts
      rw [hnil.nil, List.nil_append]
      simpa [hdo] using h none rfl
  | some e =>
      rw [Option.toList_some, List.flatMap_singleton] at hts
      obtain ⟨t, us, rfl, ht, hus⟩ := hts.mark
      simp only [List.cons_append, reads_accept_bind, Token.Cursor.kind_cons, ht,
        Token.Cursor.advance_cons, if_true, bind_map_left]
      refine (Expr.read_reads hus (by simp [hdo, Expr.isClosing])).bind fun e' he' => ?_
      exact h (some e') (by simp [he'])

/-- A body after `do` is read back. -/
theorem reads_doBody {b : Block} (hlist : ReadsBackList stop n list b.stmts)
    (hts : Spelled (.mark .doWord :: b.words) ts) (hn : ts.length ≤ n + 3) (g : Block → Stmt) :
    Reads (do
      let _ ← expect .doWord "'do'"
      let b ← body list
      return g b) ⟨ts ++ rest, stop⟩ ⟨rest, stop⟩ fun s =>
        ∃ b', s = g b' ∧ b'.erased = b.erased := by
  obtain ⟨t, us, rfl, ht, hus⟩ := hts.mark
  simp only [List.length_cons] at hn
  simp only [List.cons_append, reads_expect_bind, Token.Cursor.kind_cons, ht,
    Token.Cursor.advance_cons]
  refine (reads_body hlist hus (by omega)).bind fun b' hb' => ?_
  exact Reads.pure ⟨b', rfl, hb'⟩

theorem reads_for {pos : Pos} {control : Name} {descending : Bool} {first last : Expr}
    {step : Option Expr} {b : Block} (hlist : ReadsBackList stop n list b.stmts)
    (hts : Spelled (Stmt.forLoop pos control descending first last step b).words ts)
    (hn : ts.length ≤ n + 3) :
    Reads (stmtOver stmt list) ⟨ts ++ rest, stop⟩ ⟨rest, stop⟩ fun s' =>
      s'.erased = (Stmt.forLoop pos control descending first last step b).erased := by
  rw [Stmt.words] at hts
  obtain ⟨t, ts, rfl, ht, hts⟩ := hts.mark
  obtain ⟨var, ts, rfl, hvar, hname, hts⟩ := hts.ident
  obtain ⟨sign, ts, rfl, hsign, hts⟩ := hts.assignment
  obtain ⟨ts₁, ts, rfl, hts₁, hts⟩ := hts.append
  obtain ⟨dir, ts, rfl, hdir, hts⟩ := hts.mark
  obtain ⟨ts₂, ts, rfl, hts₂, hts⟩ := hts.append
  obtain ⟨ts₃, ts, rfl, hts₃, hts⟩ := hts.append
  have hdo : Token.Cursor.kind ⟨ts ++ rest, stop⟩ = .doWord := by
    obtain ⟨d, us, rfl, hd, -⟩ := hts.mark
    exact hd
  have hstep : Expr.isClosing (Token.Cursor.kind ⟨ts₃ ++ (ts ++ rest), stop⟩) = true := by
    cases step with
    | none =>
        have hnil : Spelled [] ts₃ := hts₃
        rw [hnil.nil, List.nil_append, hdo]
        rfl
    | some e =>
        obtain ⟨u, us, rfl, hu, -⟩ := hts₃.mark
        simp [hu, Expr.isClosing]
  simp only [List.length_cons, List.length_append] at hn
  simp only [stmtOver, forStmt, List.cons_append, List.append_assoc, reads_peek_bind,
    Token.Cursor.peek_cons, ht, reads_take_bind, Token.Cursor.advance_cons, reads_expect_bind,
    Token.Cursor.kind_cons, hvar, reads_assignSign_bind hsign]
  refine (Expr.read_reads hts₁ (by cases descending <;> simp_all [Expr.isClosing])).bind
    fun first' hfirst => reads_direction hdir ?_
  refine (Expr.read_reads hts₂ hstep).bind fun last' hlast => reads_step hts₃ hdo ?_
  intro step' hstep'
  refine (reads_doBody hlist hts (by omega) _).imp ?_
  rintro _ ⟨b', rfl, hb'⟩
  simp [Stmt.erased, hname, hfirst, hlast, hstep', hb']

theorem reads_while {pos : Pos} {cond : Expr} {b : Block}
    (hlist : ReadsBackList stop n list b.stmts)
    (hts : Spelled (Stmt.whileLoop pos (Control.ofCondition cond) cond b).words ts)
    (hn : ts.length ≤ n + 3) :
    Reads (stmtOver stmt list) ⟨ts ++ rest, stop⟩ ⟨rest, stop⟩ fun s' =>
      s'.erased = (Stmt.whileLoop pos (Control.ofCondition cond) cond b).erased := by
  rw [Stmt.words] at hts
  obtain ⟨t, ts, rfl, ht, hts⟩ := hts.mark
  obtain ⟨ts₁, ts, rfl, hts₁, hts⟩ := hts.append
  have hdo : Token.Cursor.kind ⟨ts ++ rest, stop⟩ = .doWord := by
    obtain ⟨d, us, rfl, hd, -⟩ := hts.mark
    exact hd
  simp only [List.length_cons, List.length_append] at hn
  simp only [stmtOver, whileStmt, List.cons_append, List.append_assoc, reads_peek_bind,
    Token.Cursor.peek_cons, ht, reads_take_bind, Token.Cursor.advance_cons]
  refine (Expr.read_reads hts₁ (by simp [hdo, Expr.isClosing])).bind fun cond' hcond => ?_
  refine (reads_doBody hlist hts (by omega) _).imp ?_
  rintro _ ⟨b', rfl, hb'⟩
  simp [Stmt.erased, Control.ofCondition_erased hcond, hcond, hb']

/-- The reader gives back the statements of a block that stands where statements may, before
`until`. -/
def ReadsBackNested (stop : Token) (n : Nat) (list : ListReading) (b : Block) : Prop :=
  ∀ ts rest, Spelled b.words ts → ts.length ≤ n →
    Token.Cursor.kind ⟨rest, stop⟩ = .untilWord →
    Reads (list [.untilWord]) ⟨ts ++ rest, stop⟩ ⟨rest, stop⟩ fun ss' =>
      erasedList ss' = erasedList b.stmts

theorem reads_repeat {pos : Pos} {cond : Expr} {b : Block}
    (hnested : ReadsBackNested stop n list b)
    (hts : Spelled (Stmt.repeatLoop pos (Control.ofCondition cond) b cond).words ts)
    (hn : ts.length ≤ n + 1) (hrest : Token.Cursor.kind ⟨rest, stop⟩ = .semicolon) :
    Reads (stmtOver stmt list) ⟨ts ++ rest, stop⟩ ⟨rest, stop⟩ fun s' =>
      s'.erased = (Stmt.repeatLoop pos (Control.ofCondition cond) b cond).erased := by
  rw [Stmt.words] at hts
  obtain ⟨t, ts, rfl, ht, hts⟩ := hts.mark
  obtain ⟨ts₁, ts, rfl, hts₁, hts⟩ := hts.append
  obtain ⟨u, ts, rfl, hu, hts⟩ := hts.mark
  simp only [List.length_cons, List.length_append] at hn
  simp only [stmtOver, repeatStmt, here, List.cons_append, List.append_assoc, reads_peek_bind,
    Token.Cursor.peek_cons, ht, reads_take_bind, Token.Cursor.advance_cons]
  refine (hnested ts₁ (u :: (ts ++ rest)) hts₁ (by omega) hu).bind fun ss' hss' => ?_
  simp only [bind_assoc, pure_bind, reads_peek_bind, Token.Cursor.peek_cons, reads_expect_bind,
    Token.Cursor.kind_cons, hu, Token.Cursor.advance_cons]
  refine (Expr.read_reads hts (by simp [hrest, Expr.isClosing])).bind fun cond' hcond => ?_
  obtain ⟨_, _, _, stmts⟩ := b
  have hstmts : erasedList ss' = erasedList stmts := hss'
  simp [Stmt.erased, Block.erased, Control.ofCondition_erased hcond, hcond, hstmts]

theorem reads_if {pos : Pos} {cond : Expr} {b : Block} (hlist : ReadsBackList stop n list b.stmts)
    (hts : Spelled (Stmt.conditional pos cond b none).words ts) (hn : ts.length ≤ n + 4)
    (hrest : Token.Cursor.kind ⟨rest, stop⟩ = .semicolon) :
    Reads (stmtOver stmt list) ⟨ts ++ rest, stop⟩ ⟨rest, stop⟩ fun s' =>
      s'.erased = (Stmt.conditional pos cond b none).erased := by
  rw [Stmt.words] at hts
  obtain ⟨t, ts, rfl, ht, hts⟩ := hts.mark
  obtain ⟨ts₁, ts, rfl, hts₁, hts⟩ := hts.append
  obtain ⟨u, ts, rfl, hu, hts⟩ := hts.mark
  simp only [List.length_cons, List.length_append] at hn
  simp only [stmtOver, ifStmt, List.cons_append, List.append_assoc, reads_peek_bind,
    Token.Cursor.peek_cons, ht, reads_take_bind, Token.Cursor.advance_cons]
  refine (Expr.read_reads hts₁ (by simp [hu, Expr.isClosing])).bind fun cond' hcond => ?_
  simp only [reads_expect_bind, Token.Cursor.kind_cons, hu, Token.Cursor.peek_cons,
    Token.Cursor.advance_cons]
  refine (reads_branch hlist hts (by omega) u _).bind ?_
  rintro ⟨b', closed⟩ ⟨hb', rfl⟩
  simp [hrest, Stmt.erased, hcond, hb']

theorem reads_ifElse {pos : Pos} {cond : Expr} {b₁ b₂ : Block}
    (hlist₁ : ReadsBackList stop n list b₁.stmts) (hlist₂ : ReadsBackList stop n list b₂.stmts)
    (hts : Spelled (Stmt.conditional pos cond b₁ (some b₂)).words ts) (hn : ts.length ≤ n + 4) :
    Reads (stmtOver stmt list) ⟨ts ++ rest, stop⟩ ⟨rest, stop⟩ fun s' =>
      s'.erased = (Stmt.conditional pos cond b₁ (some b₂)).erased := by
  rw [Stmt.words] at hts
  obtain ⟨t, ts, rfl, ht, hts⟩ := hts.mark
  obtain ⟨ts₁, ts, rfl, hts₁, hts⟩ := hts.append
  obtain ⟨u, ts, rfl, hu, hts⟩ := hts.mark
  obtain ⟨ts₂, ts, rfl, hts₂, hts⟩ := hts.append
  obtain ⟨v, ts, rfl, hv, hts⟩ := hts.mark
  have hbegin : Token.Cursor.kind ⟨ts ++ rest, stop⟩ = .beginWord := by
    obtain ⟨_, _, _, _⟩ := b₂
    obtain ⟨w, us, rfl, hw, -⟩ := hts.mark
    exact hw
  simp only [List.length_cons, List.length_append] at hn
  simp only [stmtOver, ifStmt, List.cons_append, List.append_assoc, reads_peek_bind,
    Token.Cursor.peek_cons, ht, reads_take_bind, Token.Cursor.advance_cons]
  refine (Expr.read_reads hts₁ (by simp [hu, Expr.isClosing])).bind fun cond' hcond => ?_
  simp only [reads_expect_bind, Token.Cursor.kind_cons, hu, Token.Cursor.peek_cons,
    Token.Cursor.advance_cons]
  refine (reads_branch hlist₁ hts₂ (by omega) u _).bind ?_
  rintro ⟨b₁', closed⟩ ⟨hb₁', rfl⟩
  simp only [reads_kind_bind, Token.Cursor.kind_cons, hv, if_true, reads_take_bind,
    Token.Cursor.peek_cons, Token.Cursor.advance_cons, hbegin, reduceCtorEq, if_false]
  refine (reads_branch hlist₂ hts (by omega) v _).bind ?_
  rintro ⟨b₂', closed⟩ ⟨hb₂', rfl⟩
  have hb₁ : b₁'.erased = b₁.erased := hb₁'
  have hb₂ : b₂'.erased = b₂.erased := hb₂'
  simp [Stmt.erased, hcond, hb₁, hb₂]

end Compound

/-! ## Simple statements -/

section Simple

variable {stmt : Reading Stmt} {list : ListReading} {ts : List Token} {pos : Pos}

theorem reads_call {callee : Name} {args : List Expr}
    (hts : Spelled (Stmt.call pos callee true args).words ts) :
    Reads (stmtOver stmt list) ⟨ts ++ rest, stop⟩ ⟨rest, stop⟩ fun s' =>
      s'.erased = (Stmt.call pos callee true args).erased := by
  rw [Stmt.words] at hts
  obtain ⟨t, ts, rfl, ht, hts⟩ := hts.mark
  obtain ⟨u, ts, rfl, ⟨-, hu, hname⟩, hts, -⟩ := hts.cons
  simp only [stmtOver, callStmt, List.cons_append, reads_peek_bind, Token.Cursor.peek_cons, ht,
    reads_take_bind, Token.Cursor.advance_cons, Expr.reads_procedureName_bind hu]
  refine (Expr.reads_arguments (n := ts.length) (fun e _ => Expr.read_readsBack e _) hts (by omega)
    true).bind fun args' hargs => ?_
  simp [Stmt.erased, hname, hargs]

/-- The value of a return is read back, since it starts on the line of its `return`. -/
theorem reads_return {value : Option Expr} (hts : Spelled (Stmt.give pos value).words ts)
    (hrest : Token.Cursor.kind ⟨rest, stop⟩ = .semicolon) :
    Reads (stmtOver stmt list) ⟨ts ++ rest, stop⟩ ⟨rest, stop⟩ fun s' =>
      s'.erased = (Stmt.give pos value).erased := by
  rw [Stmt.words] at hts
  obtain ⟨t, ts, rfl, ht, hts, hadjoins⟩ := hts.cons
  have hkind : t.kind = .returnWord := ht.2
  simp only [stmtOver, returnStmt, List.cons_append, reads_peek_bind, Token.Cursor.peek_cons,
    hkind, reads_take_bind, Token.Cursor.advance_cons]
  cases value with
  | none =>
      have hnil : Spelled [] ts := hts
      have hstart : Expr.canStart (Token.Cursor.peek ⟨rest, stop⟩).kind = false := by
        rw [show (Token.Cursor.peek ⟨rest, stop⟩).kind = .semicolon from hrest]
        rfl
      rw [hnil.nil, List.nil_append]
      simp [hstart, Stmt.erased]
  | some e =>
      rw [Option.toList_some, List.flatMap_singleton] at hts
      obtain ⟨u, us, rfl, hu⟩ := Expr.starts hts
      have hline : u.pos.line = t.pos.line := by
        refine hadjoins u us rfl hkind ?_
        intro h
        simp [h, Expr.canStart] at hu
      simp only [List.cons_append, Token.Cursor.peek_cons, hline, hu, and_self, if_true]
      rw [← List.cons_append]
      refine (Expr.read_reads hts (by simp [hrest, Expr.isClosing])).bind fun e' he' => ?_
      simp [Stmt.erased, he']

theorem reads_assign {target value : Expr} (hplace : target.isPlace = true)
    (hts : Spelled (Stmt.assign pos target value).words ts)
    (hrest : Token.Cursor.kind ⟨rest, stop⟩ = .semicolon) :
    Reads (stmtOver stmt list) ⟨ts ++ rest, stop⟩ ⟨rest, stop⟩ fun s' =>
      s'.erased = (Stmt.assign pos target value).erased := by
  rw [Stmt.words, Expr.placeWords, List.cons_append] at hts
  obtain ⟨t, ts, rfl, ht, hname, hts⟩ := hts.ident
  obtain ⟨ts₁, ts, rfl, hts₁, hts⟩ := hts.append
  obtain ⟨sign, ts, rfl, hsign, hts⟩ := hts.assignment
  have hopen : Expr.isOpen (Token.Cursor.kind ⟨sign :: (ts ++ rest), stop⟩) = false := by
    rcases hsign with h | h <;> simp [h, Expr.isOpen]
  have hparen : Token.Cursor.kind ⟨ts₁ ++ sign :: (ts ++ rest), stop⟩ ≠ .lparen := by
    intro h
    rcases Expr.accessWords_first target hts₁ with rfl | ⟨u, us, rfl, hu⟩
    · rcases hsign with hs | hs <;> simp [hs] at h
    · have hkind : u.kind = .lparen := h
      simp [hkind, Expr.isOpen] at hu
  simp only [stmtOver, nameStmt, List.cons_append, List.append_assoc, reads_peek_bind,
    Token.Cursor.peek_cons, ht, reads_take_bind, Token.Cursor.advance_cons, reads_kind_bind,
    hparen, if_false]
  refine (Expr.reads_place hplace hname hts₁ hopen).bind fun target' htarget => ?_
  simp only [reads_assignSign_bind hsign]
  refine (Expr.read_reads hts (by simp [hrest, Expr.isClosing])).bind fun value' hvalue => ?_
  simp [Stmt.erased, htarget, hvalue]

theorem reads_print {args : List Expr}
    (hts : Spelled (.mark .printWord :: Expr.wordsOf args) ts)
    (hrest : Token.Cursor.kind ⟨rest, stop⟩ = .semicolon) :
    Reads (stmtOver stmt list) ⟨ts ++ rest, stop⟩ ⟨rest, stop⟩ fun s' =>
      s'.erased = (Stmt.call pos "print" false args).erased := by
  obtain ⟨t, ts, rfl, ht, hts⟩ := hts.mark
  simp only [stmtOver, printStmt, List.cons_append, reads_peek_bind, Token.Cursor.peek_cons, ht,
    reads_take_bind, Token.Cursor.advance_cons, reads_kind_bind]
  cases args with
  | nil =>
      have hnil : Spelled [] ts := hts
      rw [hnil.nil, List.nil_append]
      simp [hrest, Expr.canStart, Stmt.erased, Expr.erasedList]
  | cons e es =>
      have hstart : Expr.canStart (Token.Cursor.kind ⟨ts ++ rest, stop⟩) = true := by
        rw [Expr.wordsOf] at hts
        obtain ⟨us, us', rfl, hus, -⟩ := hts.append
        obtain ⟨u, us, rfl, hu⟩ := Expr.starts hus
        exact hu
      simp only [hstart, if_true]
      refine (Expr.reads_items (n := ts.length) (fun e _ => Expr.read_readsBack e _) hts (le_refl _)
        (by simp [hrest, Expr.isClosing]) (by simp [hrest])).bind fun args' hargs => ?_
      simp [Stmt.erased, hargs]

/-- A name before arguments in parentheses is read as a call. -/
theorem reads_nameCall {callee : Name} {args : List Expr}
    (hts : Spelled (.ident callee :: inParens (Expr.wordsOf args)) ts) :
    Reads (stmtOver stmt list) ⟨ts ++ rest, stop⟩ ⟨rest, stop⟩ fun s' =>
      s'.erased = (Stmt.call pos callee false args).erased := by
  obtain ⟨t, ts, rfl, ht, hname, hts⟩ := hts.ident
  have hparen : Token.Cursor.kind ⟨ts ++ rest, stop⟩ = .lparen := by
    obtain ⟨u, us, rfl, hu, -⟩ := hts.mark
    exact hu
  simp only [stmtOver, nameStmt, List.cons_append, reads_peek_bind, Token.Cursor.peek_cons, ht,
    reads_take_bind, Token.Cursor.advance_cons, reads_kind_bind, hparen, if_true]
  refine (Expr.reads_arguments (n := ts.length) (fun e _ => Expr.read_readsBack e _) hts (by omega)
    false).bind fun args' hargs => ?_
  simp [Stmt.erased, hname, hargs]

theorem reads_swapCall {args : List Expr}
    (hts : Spelled (.mark .swapWord :: inParens (Expr.wordsOf args)) ts) :
    Reads (stmtOver stmt list) ⟨ts ++ rest, stop⟩ ⟨rest, stop⟩ fun s' =>
      s'.erased = (Stmt.call pos "swap" false args).erased := by
  obtain ⟨t, ts, rfl, ht, hts⟩ := hts.mark
  have hparen : Token.Cursor.kind ⟨ts ++ rest, stop⟩ = .lparen := by
    obtain ⟨u, us, rfl, hu, -⟩ := hts.mark
    exact hu
  simp only [stmtOver, swapStmt, List.cons_append, reads_peek_bind, Token.Cursor.peek_cons, ht,
    reads_take_bind, Token.Cursor.advance_cons, reads_kind_bind, hparen, if_true]
  refine (Expr.reads_arguments (n := ts.length) (fun e _ => Expr.read_readsBack e _) hts (by omega)
    false).bind fun args' hargs => ?_
  simp [Stmt.erased, hargs]

/-- Two places joined by `with` are read as the arguments of a swap. -/
theorem reads_swapWith {a b : Expr} (ha : a.isPlace = true) (hb : b.isPlace = true)
    (hts : Spelled (.mark .swapWord :: (a.placeWords ++ .mark .withWord :: b.placeWords)) ts)
    (hrest : Token.Cursor.kind ⟨rest, stop⟩ = .semicolon) :
    Reads (stmtOver stmt list) ⟨ts ++ rest, stop⟩ ⟨rest, stop⟩ fun s' =>
      s'.erased = (Stmt.call pos "swap" false [a, b]).erased := by
  obtain ⟨t, ts, rfl, ht, hts⟩ := hts.mark
  rw [Expr.placeWords, List.cons_append] at hts
  obtain ⟨u, ts, rfl, hu, hname, hts⟩ := hts.ident
  obtain ⟨ts₁, ts, rfl, hts₁, hts⟩ := hts.append
  obtain ⟨w, ts, rfl, hw, hts⟩ := hts.mark
  rw [Expr.placeWords] at hts
  obtain ⟨v, ts, rfl, hv, hname', hts⟩ := hts.ident
  simp only [stmtOver, swapStmt, List.cons_append, List.append_assoc, reads_peek_bind,
    Token.Cursor.peek_cons, ht, reads_take_bind, Token.Cursor.advance_cons, reads_kind_bind,
    Token.Cursor.kind_cons, hu, reduceCtorEq, if_false, reads_expect_bind]
  refine (Expr.reads_place ha hname hts₁ (by simp [hw, Expr.isOpen])).bind fun a' ha' => ?_
  simp only [reads_expect_bind, Token.Cursor.kind_cons, hw, hv, Token.Cursor.peek_cons,
    Token.Cursor.advance_cons]
  refine (Expr.reads_place hb hname' hts (by simp [hrest, Expr.isOpen])).bind fun b' hb' => ?_
  simp [Stmt.erased, Expr.erasedList, ha', hb']

/-- A call that is a statement of its own is read back in each of its forms. -/
theorem reads_callWords {callee : Name} {args : List Expr}
    (hts : Spelled (Stmt.call pos callee false args).words ts)
    (hrest : Token.Cursor.kind ⟨rest, stop⟩ = .semicolon) :
    Reads (stmtOver stmt list) ⟨ts ++ rest, stop⟩ ⟨rest, stop⟩ fun s' =>
      s'.erased = (Stmt.call pos callee false args).erased := by
  rw [Stmt.words] at hts
  unfold Stmt.callWords at hts
  split at hts
  · rename_i hprint
    subst hprint
    exact reads_print hts hrest
  · split at hts
    · rename_i hswap
      subst hswap
      split at hts
      · split at hts
        · rename_i hplaces
          rw [Bool.and_eq_true] at hplaces
          exact reads_swapWith hplaces.1 hplaces.2 hts hrest
        · exact reads_swapCall hts
      · exact reads_swapCall hts
    · exact reads_nameCall hts

end Simple

/-! ## Lists of statements -/

/-- The kinds of tokens that statements in words start with. -/
def canStart : Token.Kind → Bool
  | .forWord | .whileWord | .repeatWord | .ifWord | .callWord | .returnWord | .printWord | .swapWord
  | .ident => true
  | _ => false

theorem starts {s : Stmt} {ts : List Token} (h : Spelled s.words ts) :
    ∃ t us, ts = t :: us ∧ canStart t.kind = true := by
  match s with
  | .forLoop .. | .whileLoop .. | .repeatLoop .. | .conditional _ _ _ (some _)
  | .conditional _ _ _ none | .call _ _ true _ | .give .. =>
      obtain ⟨t, us, rfl, ht, -⟩ := h.mark
      exact ⟨t, us, rfl, by rw [ht]; rfl⟩
  | .assign .. =>
      obtain ⟨t, us, rfl, ht, -⟩ := h.ident
      exact ⟨t, us, rfl, by rw [ht]; rfl⟩
  | .call _ callee false args =>
      rw [Stmt.words] at h
      unfold Stmt.callWords at h
      split at h
      · obtain ⟨t, us, rfl, ht, -⟩ := h.mark
        exact ⟨t, us, rfl, by rw [ht]; rfl⟩
      · split at h
        · split at h
          · split at h
            all_goals
              obtain ⟨t, us, rfl, ht, -⟩ := h.mark
              exact ⟨t, us, rfl, by rw [ht]; rfl⟩
          · obtain ⟨t, us, rfl, ht, -⟩ := h.mark
            exact ⟨t, us, rfl, by rw [ht]; rfl⟩
        · obtain ⟨t, us, rfl, ht, -⟩ := h.ident
          exact ⟨t, us, rfl, by rw [ht]; rfl⟩

theorem skipAll_semicolons : ∀ {semicolons : List Token} {ts : List Token},
    (∀ t ∈ semicolons, t.kind = .semicolon) → Token.Cursor.kind ⟨ts, stop⟩ ≠ .semicolon →
    Token.Cursor.skipAll ⟨semicolons ++ ts, stop⟩ [.semicolon] = ⟨ts, stop⟩
  | [], ts, _, h => Token.Cursor.skipAll_of_not_mem (by simpa using h)
  | t :: semicolons, ts, hall, h => by
      have ht := hall t List.mem_cons_self
      have ih := skipAll_semicolons (fun u hu => hall u (List.mem_cons_of_mem _ hu)) h
      simpa [Token.Cursor.skipAll, ht] using ih

theorem reads_skipAll_semicolons {α : Type} {semicolons ts : List Token} {f : Unit → Reading α}
    {c : Token.Cursor} {P : α → Prop} (hall : ∀ t ∈ semicolons, t.kind = .semicolon)
    (h : Token.Cursor.kind ⟨ts, stop⟩ ≠ .semicolon) :
    Reads (skipAll [.semicolon] >>= f) ⟨semicolons ++ ts, stop⟩ c P
      ↔ Reads (f ()) ⟨ts, stop⟩ c P := by
  have hskip := skipAll_semicolons hall h
  rw [reads_skipAll_bind (by rw [hskip]; simpa using h), hskip]

section Lists

variable {stmt : Reading Stmt} {nested : Reading Block}

/-- Statements are read back up to a token at which to stop. Before them, the semicolon of the
statement before may still have to be read. -/
theorem reads_upTo {k : Token.Kind} (hk : isStop k = true)
    (hrest : Token.Cursor.kind ⟨rest, stop⟩ = k) : ∀ {ss : List Stmt},
    (∀ s ∈ ss, ReadsBack stop n stmt s) → ∀ {semicolons ts : List Token} {fuel : Nat},
    (∀ t ∈ semicolons, t.kind = .semicolon) → Spelled (wordsOf ss) ts → ts.length ≤ n →
    ts.length < fuel →
    Reads (upTo stmt nested [k] fuel) ⟨semicolons ++ (ts ++ rest), stop⟩ ⟨rest, stop⟩ fun ss' =>
      erasedList ss' = erasedList ss
  | [], _, semicolons, ts, fuel, hsemi, hts, _, hfuel => by
      have hnil : Spelled [] ts := hts
      obtain ⟨fuel, rfl⟩ : ∃ f, fuel = f + 1 := ⟨fuel - 1, by omega⟩
      have hne : Token.Cursor.kind ⟨rest, stop⟩ ≠ .semicolon := by
        rw [hrest]
        rintro rfl
        simp [isStop] at hk
      rw [hnil.nil, List.nil_append, upTo, reads_skipAll_semicolons hsemi hne]
      simp [hrest]
  | s :: ss, hss, semicolons, ts, fuel, hsemi, hts, hn, hfuel => by
      rw [wordsOf] at hts
      obtain ⟨us, us', rfl, hus, hus'⟩ := hts.append
      obtain ⟨t, us', rfl, ht, hus'⟩ := hus'.mark
      obtain ⟨u, vs, rfl, hu⟩ := starts hus
      obtain ⟨fuel, rfl⟩ : ∃ f, fuel = f + 1 := ⟨fuel - 1, by omega⟩
      simp only [List.length_append, List.length_cons] at hn hfuel
      have hne : u.kind ≠ .semicolon ∧ u.kind ≠ .eof ∧ u.kind ≠ k ∧ u.kind ≠ .beginWord := by
        refine ⟨?_, ?_, ?_, ?_⟩ <;> intro h <;> rw [h] at hu
        · simp [canStart] at hu
        · simp [canStart] at hu
        · cases k <;> simp_all [isStop, canStart]
        · simp [canStart] at hu
      have hs : Reads stmt ⟨u :: (vs ++ t :: (us' ++ rest)), stop⟩ ⟨t :: (us' ++ rest), stop⟩
          fun s' => s'.erased = s.erased :=
        hss s List.mem_cons_self (u :: vs) (t :: (us' ++ rest)) hus
          (by simp only [List.length_cons]; omega) ht
      -- The semicolon `t` is left to the next round, which skips it.
      have hmore : Reads (upTo stmt nested [k] fuel) ⟨[t] ++ (us' ++ rest), stop⟩ ⟨rest, stop⟩
          fun ss' => erasedList ss' = erasedList ss :=
        reads_upTo hk hrest (fun d hd => hss d (List.mem_cons_of_mem _ hd)) (by simpa using ht)
          hus' (by omega) (by omega)
      rw [upTo, reads_skipAll_semicolons hsemi (by simpa using hne.1)]
      simp only [reads_kind_bind, List.cons_append, List.append_assoc, Token.Cursor.kind_cons, hne,
        List.mem_singleton, or_self, if_false]
      refine hs.bind fun s' hs' => hmore.bind fun ss' hss' => ?_
      simp [erasedList, hs', hss']

/-- The statements of a block are read back where statements may stand. -/
theorem reads_upTo_nested {b : Block} {ts : List Token} {fuel : Nat}
    (hnested : Reads nested ⟨ts ++ rest, stop⟩ ⟨rest, stop⟩ fun b' => b'.erased = b.erased)
    (hts : Spelled b.words ts) (hrest : Token.Cursor.kind ⟨rest, stop⟩ = .untilWord)
    (hfuel : 1 < fuel) :
    Reads (upTo stmt nested [.untilWord] fuel) ⟨ts ++ rest, stop⟩ ⟨rest, stop⟩ fun ss' =>
      erasedList ss' = erasedList b.stmts := by
  obtain ⟨_, _, _, stmts⟩ := b
  obtain ⟨t, us, rfl, ht, -⟩ := hts.mark
  obtain ⟨fuel, rfl⟩ : ∃ f, fuel = f + 1 := ⟨fuel - 1, by omega⟩
  have hdone : Reads (upTo stmt nested [.untilWord] fuel) ⟨[] ++ ([] ++ rest), stop⟩
      ⟨rest, stop⟩ fun ss' => erasedList ss' = erasedList [] :=
    reads_upTo (n := 0) rfl hrest (by simp) (by simp) ⟨.nil, .nil⟩ (by simp) (by simp; omega)
  have hskip : Token.Cursor.skipAll ⟨t :: (us ++ rest), stop⟩ [.semicolon]
      = ⟨t :: (us ++ rest), stop⟩ := Token.Cursor.skipAll_of_not_mem (by simp [ht])
  rw [List.cons_append, upTo, reads_skipAll_bind (by rw [hskip]; simp [ht]), hskip]
  simp only [reads_kind_bind, Token.Cursor.kind_cons, ht, reduceCtorEq,
    List.mem_singleton, or_self, if_false, if_true]
  refine hnested.bind fun b' hb' => hdone.bind fun ss' hss' => ?_
  obtain ⟨_, _, _, stmts'⟩ := b'
  have hstmts : erasedList stmts' = erasedList stmts := by simpa [Block.erased] using hb'
  have hnil : ss' = [] := by cases ss' <;> simp_all [erasedList]
  simp [hnil, Block.stmts, hstmts]

end Lists

/-! ## The recursion -/

theorem readsBackList_readList {ss : List Stmt} {depth : Nat}
    (hss : ∀ s ∈ ss, ReadsBack stop n (readWithin depth) s) :
    ReadsBackList stop n (readList (depth + 1)) ss := by
  intro k ts rest hk hts hn hrest
  have hreads : Reads (upTo (readWithin depth) (block (readList depth)) [k]
      ((ts ++ rest).length + 1)) ⟨[] ++ (ts ++ rest), stop⟩ ⟨rest, stop⟩ fun ss' =>
      erasedList ss' = erasedList ss :=
    reads_upTo hk hrest hss (by simp) hts hn (by simp only [List.length_append]; omega)
  rw [readList, reads_remaining_bind]
  exact hreads

theorem readsBackNested_readList {b : Block} {depth : Nat}
    (hlist : ReadsBackList stop n (readList depth) b.stmts) :
    ReadsBackNested stop (n + 2) (readList (depth + 1)) b := by
  intro ts rest hts hn hrest
  rw [readList, reads_remaining_bind]
  refine reads_upTo_nested (reads_block hlist hts hn) hts hrest ?_
  obtain ⟨_, _, _, stmts⟩ := b
  obtain ⟨t, us, rfl, -⟩ := hts.mark
  simp

theorem depth_of_words {s : Stmt} {ts : List Token} (hts : Spelled s.words ts) {depth n : Nat}
    (hn : ts.length ≤ n) (hdepth : 2 * n ≤ depth) :
    ∃ d m, depth = d + 2 ∧ n = m + 1 ∧ 2 * m ≤ d := by
  obtain ⟨t, us, rfl, -⟩ := starts hts
  simp only [List.length_cons] at hn
  exact ⟨depth - 2, n - 1, by omega, by omega, by omega⟩

mutual

/-- **A statement in words is read back**, up to positions and the marks of explicit blocks, if the
bound on nested readings is twice the number of its tokens. -/
theorem readWithin_reads (stop : Token) : ∀ (s : Stmt), s.WellFormed → ∀ {depth n : Nat},
    2 * n ≤ depth → ReadsBack stop n (readWithin depth) s
  | .forLoop _ _ _ _ _ _ body, hs, _, _, hdepth, ts, rest, hts, hn, h => by
      obtain ⟨d, m, rfl, rfl, hd⟩ := depth_of_words hts hn hdepth
      rw [readWithin]
      exact reads_for (readsBackList_readList (readWithin_reads_block stop body hs hd)) hts
        (by omega)
  | .whileLoop _ _ _ body, ⟨hcontrol, hs⟩, _, _, hdepth, ts, rest, hts, hn, h => by
      obtain ⟨d, m, rfl, rfl, hd⟩ := depth_of_words hts hn hdepth
      rw [readWithin, hcontrol]
      exact reads_while (readsBackList_readList (readWithin_reads_block stop body hs hd)) hts
        (by omega)
  | .repeatLoop _ _ body _, ⟨hcontrol, hs⟩, _, _, hdepth, ts, rest, hts, hn, h => by
      obtain ⟨d, m, rfl, rfl, hd⟩ := depth_of_words hts hn hdepth
      rw [readWithin, hcontrol]
      have hlength : 2 ≤ ts.length := by
        simp only [← hts.length_eq, words, List.length_cons, List.length_append]
        omega
      obtain ⟨d, rfl⟩ : ∃ k, d = k + 1 := ⟨d - 1, by omega⟩
      exact reads_repeat (readsBackNested_readList (n := m - 1)
        (readsBackList_readList (readWithin_reads_block stop body hs (by omega)))) hts (by omega) h
  | .conditional _ _ thenBlock (some elseBlock), ⟨hthen, helse⟩, _, _, hdepth, ts, rest, hts, hn,
      h => by
      obtain ⟨d, m, rfl, rfl, hd⟩ := depth_of_words hts hn hdepth
      rw [readWithin]
      exact reads_ifElse (readsBackList_readList (readWithin_reads_block stop thenBlock hthen hd))
        (readsBackList_readList (readWithin_reads_block stop elseBlock helse hd)) hts (by omega)
  | .conditional _ _ thenBlock none, hs, _, _, hdepth, ts, rest, hts, hn, h => by
      obtain ⟨d, m, rfl, rfl, hd⟩ := depth_of_words hts hn hdepth
      rw [readWithin]
      exact reads_if (readsBackList_readList (readWithin_reads_block stop thenBlock hs hd)) hts
        (by omega) h
  | .assign .., hs, _, _, hdepth, ts, rest, hts, hn, h => by
      obtain ⟨d, m, rfl, rfl, hd⟩ := depth_of_words hts hn hdepth
      rw [readWithin]
      exact reads_assign hs hts h
  | .call _ _ true _, _, _, _, hdepth, ts, rest, hts, hn, h => by
      obtain ⟨d, m, rfl, rfl, hd⟩ := depth_of_words hts hn hdepth
      rw [readWithin]
      exact reads_call hts
  | .call _ _ false _, _, _, _, hdepth, ts, rest, hts, hn, h => by
      obtain ⟨d, m, rfl, rfl, hd⟩ := depth_of_words hts hn hdepth
      rw [readWithin]
      exact reads_callWords hts h
  | .give .., _, _, _, hdepth, ts, rest, hts, hn, h => by
      obtain ⟨d, m, rfl, rfl, hd⟩ := depth_of_words hts hn hdepth
      rw [readWithin]
      exact reads_return hts h

theorem readWithin_reads_block (stop : Token) : ∀ (b : Block), b.WellFormed → ∀ {depth n : Nat},
    2 * n ≤ depth → ∀ s ∈ b.stmts, ReadsBack stop n (readWithin depth) s
  | .mk _ _ _ stmts, h, _, _, hdepth => readWithin_reads_all stop stmts h hdepth

theorem readWithin_reads_all (stop : Token) : ∀ (ss : List Stmt), AllWellFormed ss →
    ∀ {depth n : Nat}, 2 * n ≤ depth → ∀ s ∈ ss, ReadsBack stop n (readWithin depth) s
  | [], _, _, _, _, _, hs => absurd hs List.not_mem_nil
  | s :: ss, ⟨hs, hss⟩, _, _, hdepth, t, ht =>
      List.forall_mem_cons.mpr
        ⟨readWithin_reads stop s hs hdepth, readWithin_reads_all stop ss hss hdepth⟩ t ht

end

/-- The statements of a block in words are read back, whatever their length. -/
theorem listReading_reads {b : Block} (hb : b.WellFormed) (n : Nat) :
    ReadsBackList stop n listReading b.stmts := by
  intro k ts rest hk hts _ hrest
  rw [listReading, reads_remaining_bind]
  exact readsBackList_readList (readWithin_reads_block stop b hb (n := ts.length)
    (by simp only [List.length_append]; omega)) k ts rest hk hts (le_refl _) hrest

end Stmt

end PseudoCost
