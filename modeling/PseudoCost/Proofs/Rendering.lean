import Mathlib
import PseudoCost.Program.Reading

/-!
# Programs as words

The dialect with explicit blocks. Every block is written as `begin … end`, every statement ends in
a semicolon, and every operand stands in parentheses, so that nothing is left to precedence or
layout. `Program.words` writes a program down in this way.

A `Word` says what a token has to be, and not more: a keyword or sign has a kind, an identifier has
a spelling, and a number may be spelled in any way that has its value. Where the dialect leaves a
choice of tokens, so does the word: either sign may assign, and the keywords `swap` and `length`
may name what they also abbreviate. `Spelled` relates words to tokens. It asks one thing of the
layout, that the value of a return starts on the line of its `return`.

What a reader finds can differ from what was written only in positions and in whether blocks were
opened with `begin`. `erased` forgets these.
-/

namespace PseudoCost

/-! ## Forgetting positions -/

/-- The position that takes the place of all others. -/
def Pos.nowhere : Pos := ⟨0, 0⟩

namespace Expr

mutual

/-- The expression without its positions. -/
def erased : Expr → Expr
  | .number _ value => .number .nowhere value
  | .string _ value => .string .nowhere value
  | .bool _ value => .bool .nowhere value
  | .null _ => .null .nowhere
  | .name _ n => .name .nowhere n
  | .call _ callee explicit args => .call .nowhere callee explicit (erasedList args)
  | .index _ base subscript => .index .nowhere base.erased subscript.erased
  | .field _ base f => .field .nowhere base.erased f
  | .range _ low high => .range .nowhere low.erased high.erased
  | .binary _ op lhs rhs => .binary .nowhere op lhs.erased rhs.erased
  | .unary _ op operand => .unary .nowhere op operand.erased

def erasedList : List Expr → List Expr
  | [] => []
  | e :: es => e.erased :: erasedList es

end

end Expr

def Control.erased (c : Control) : Control := { c with bound := c.bound.map Expr.erased }

mutual

/-- The statement without positions and without the marks of explicit blocks. -/
def Stmt.erased : Stmt → Stmt
  | .forLoop _ control descending start stop step body =>
    .forLoop .nowhere control descending start.erased stop.erased (step.map Expr.erased) body.erased
  | .whileLoop _ control cond body => .whileLoop .nowhere control.erased cond.erased body.erased
  | .repeatLoop _ control body cond => .repeatLoop .nowhere control.erased body.erased cond.erased
  | .conditional _ cond thenBlock (some elseBlock) =>
    .conditional .nowhere cond.erased thenBlock.erased (some elseBlock.erased)
  | .conditional _ cond thenBlock none => .conditional .nowhere cond.erased thenBlock.erased none
  | .assign _ target value => .assign .nowhere target.erased value.erased
  | .call _ callee explicit args => .call .nowhere callee explicit (Expr.erasedList args)
  | .give _ value => .give .nowhere (value.map Expr.erased)

def Block.erased : Block → Block
  | .mk _ _ _ stmts => .mk .nowhere true .nowhere (Stmt.erasedList stmts)

def Stmt.erasedList : List Stmt → List Stmt
  | [] => []
  | s :: ss => s.erased :: Stmt.erasedList ss

end

def Procedure.erased (p : Procedure) : Procedure :=
  { p with pos := .nowhere, body := p.body.erased }

def Program.erased (p : Program) : Program :=
  ⟨.nowhere, p.procedures.map Procedure.erased, p.main.map Block.erased⟩

/-! ## Words -/

/-- What a token has to be. -/
inductive Word where
  /-- A keyword, an operator or a punctuation mark. -/
  | mark (kind : Token.Kind)
  | ident (n : Name)
  | number (value : Exact)
  | string (value : Text)
  /-- The sign of an assignment. -/
  | assignment
  /-- The name of a procedure after `call`. -/
  | procedure (n : Name)
  /-- The name of a procedure where it is declared, with its spelling in the source. -/
  | declaration (n : Name) (display : Text)
  /-- The name of a function before its arguments. -/
  | function (n : Name)
  /-- The name of a field. -/
  | member (n : Name)

/-- Whether a token is what a word says. The end of the input is never one. -/
def Word.SpelledBy (w : Word) (t : Token) : Prop :=
  t.kind ≠ .eof ∧
    match w with
    | .mark kind => t.kind = kind
    | .ident n => t.kind = .ident ∧ t.text = n
    | .number value => t.kind = .number ∧ Numeral.read t.text = .ok value
    | .string value => t.kind = .string ∧ t.text = value
    | .assignment => t.kind = .assign ∨ t.kind = .equal
    | .procedure n => (t.kind = .ident ∨ t.kind = .swapWord) ∧ t.text = n
    | .declaration n display =>
      (t.kind = .ident ∨ t.kind = .swapWord) ∧ t.text = n ∧ t.lexeme = display
    | .function n => t.kind = .ident ∧ t.text = n ∨ t.kind = .lengthWord ∧ n = "length"
    | .member n => (t.kind = .ident ∨ t.kind = .lengthWord) ∧ t.text = n

/-- What the layout has to keep together: a return and its value start on one line. -/
def Token.Adjoins (t u : Token) : Prop :=
  t.kind = .returnWord → u.kind ≠ .semicolon → u.pos.line = t.pos.line

structure Spelled (words : List Word) (tokens : List Token) : Prop where
  each : List.Forall₂ Word.SpelledBy words tokens
  layout : tokens.IsChain Token.Adjoins

instance : ∀ (w : Word) (t : Token), Decidable (w.SpelledBy t)
  | .mark _, _ | .ident _, _ | .number _, _ | .string _, _ | .assignment, _ | .procedure _, _
  | .declaration _ _, _ | .function _, _ | .member _, _ => inferInstanceAs (Decidable (_ ∧ _))

instance (t u : Token) : Decidable (t.Adjoins u) :=
  inferInstanceAs (Decidable (t.kind = .returnWord → u.kind ≠ .semicolon → u.pos.line = t.pos.line))

instance (words : List Word) (tokens : List Token) : Decidable (Spelled words tokens) :=
  decidable_of_iff (List.Forall₂ Word.SpelledBy words tokens ∧ tokens.IsChain Token.Adjoins)
    ⟨fun h => ⟨h.1, h.2⟩, fun h => ⟨h.each, h.layout⟩⟩

/-! ## Expressions in words -/

def inParens (words : List Word) : List Word :=
  .mark .lparen :: (words ++ [.mark .rparen])

def BinaryOp.mark : BinaryOp → Token.Kind
  | .add => .plus
  | .sub => .minus
  | .mul => .star
  | .div => .slash
  | .intDiv => .divWord
  | .mod => .modWord
  | .pow => .caret
  | .eq => .equal
  | .ne => .notEqual
  | .lt => .less
  | .le => .lessEqual
  | .gt => .greater
  | .ge => .greaterEqual
  | .and => .andWord
  | .or => .orWord

/-- An operator with one operand around the words of the operand. -/
def UnaryOp.around (words : List Word) : UnaryOp → List Word
  | .neg => .mark .minus :: inParens words
  | .plus => .mark .plus :: inParens words
  | .not => .mark .notWord :: inParens words
  | .ceil => .mark .lceil :: (words ++ [.mark .rceil])
  | .floor => .mark .lfloor :: (words ++ [.mark .rfloor])

namespace Expr

mutual

/-- The words of an expression, every operand in parentheses. -/
def words : Expr → List Word
  | .number _ value => [.number value]
  | .string _ value => [.string value]
  | .bool _ value => [.mark (if value then .trueWord else .falseWord)]
  | .null _ => [.mark .nullWord]
  | .name _ n => [.ident n]
  | .call _ callee true args =>
    .mark .callWord :: .procedure callee :: inParens (wordsOf args)
  | .call _ callee false args => .function callee :: inParens (wordsOf args)
  | .index _ base subscript =>
    inParens base.words ++ .mark .lbracket :: (subscript.words ++ [.mark .rbracket])
  | .field _ base f => inParens base.words ++ [.mark .dot, .member f]
  | .range _ low high => inParens low.words ++ .mark .dotDot :: inParens high.words
  | .binary _ op lhs rhs => inParens lhs.words ++ .mark op.mark :: inParens rhs.words
  | .unary _ op operand => op.around operand.words

/-- The words of some expressions, separated by commas. -/
def wordsOf : List Expr → List Word
  | [] => []
  | e :: es => e.words ++ moreWords es

def moreWords : List Expr → List Word
  | [] => []
  | e :: es => .mark .comma :: (e.words ++ moreWords es)

end

/-- Whether an expression is a place: a name with subscripts and fields after it. -/
def isPlace : Expr → Bool
  | .name .. => true
  | .index _ base _ => base.isPlace
  | .field _ base _ => base.isPlace
  | _ => false

def root : Expr → Name
  | .name _ n => n
  | .index _ base _ => base.root
  | .field _ base _ => base.root
  | _ => []

def accessWords : Expr → List Word
  | .index _ base subscript =>
    base.accessWords ++ .mark .lbracket :: (subscript.words ++ [.mark .rbracket])
  | .field _ base f => base.accessWords ++ [.mark .dot, .member f]
  | _ => []

def placeWords (e : Expr) : List Word := .ident e.root :: e.accessWords

end Expr

/-! ## Statements in words -/

/-- The words of a call that is a statement of its own. The operations `print` and `swap` have
their own forms, and two places are swapped by `swap … with …`. -/
def Stmt.callWords (callee : Name) (args : List Expr) : List Word :=
  if callee = "print" then .mark .printWord :: Expr.wordsOf args
  else if callee = "swap" then
    match args with
    | [a, b] =>
      if a.isPlace && b.isPlace then
        .mark .swapWord :: (a.placeWords ++ .mark .withWord :: b.placeWords)
      else .mark .swapWord :: inParens (Expr.wordsOf [a, b])
    | _ => .mark .swapWord :: inParens (Expr.wordsOf args)
  else .ident callee :: inParens (Expr.wordsOf args)

mutual

/-- The words of a statement, without the semicolon that ends it. -/
def Stmt.words : Stmt → List Word
  | .forLoop _ control descending start stop step body =>
    .mark .forWord :: .ident control :: .assignment :: (start.words
      ++ .mark (if descending then .downtoWord else .toWord) :: (stop.words
      ++ ((step.toList.flatMap fun e => .mark .stepWord :: e.words)
      ++ .mark .doWord :: body.words)))
  | .whileLoop _ _ cond body =>
    .mark .whileWord :: (cond.words ++ .mark .doWord :: body.words)
  | .repeatLoop _ _ body cond =>
    .mark .repeatWord :: (body.words ++ .mark .untilWord :: cond.words)
  | .conditional _ cond thenBlock (some elseBlock) =>
    .mark .ifWord :: (cond.words ++ .mark .thenWord :: (thenBlock.words
      ++ .mark .elseWord :: elseBlock.words))
  | .conditional _ cond thenBlock none =>
    .mark .ifWord :: (cond.words ++ .mark .thenWord :: thenBlock.words)
  | .assign _ target value => target.placeWords ++ .assignment :: value.words
  | .call _ callee true args =>
    .mark .callWord :: .procedure callee :: inParens (Expr.wordsOf args)
  | .call _ callee false args => Stmt.callWords callee args
  | .give _ value => .mark .returnWord :: value.toList.flatMap Expr.words

def Block.words : Block → List Word
  | .mk _ _ _ stmts => .mark .beginWord :: (Stmt.wordsOf stmts ++ [.mark .endWord])

/-- The words of some statements, a semicolon after each. -/
def Stmt.wordsOf : List Stmt → List Word
  | [] => []
  | s :: ss => s.words ++ .mark .semicolon :: Stmt.wordsOf ss

end

/-! ## Procedures and programs in words -/

def Param.moreWords (params : List Param) : List Word :=
  params.flatMap fun p => [.mark .comma, .ident p.name]

def Param.wordsOf : List Param → List Word
  | [] => []
  | p :: ps => .ident p.name :: Param.moreWords ps

def Procedure.words (p : Procedure) : List Word :=
  .mark .procedureWord :: .declaration p.name p.display ::
    (inParens (Param.wordsOf p.params) ++ p.body.words)

/-- The words of a program: its procedures, and the main body after them if there is one. -/
def Program.words (p : Program) : List Word :=
  p.procedures.flatMap Procedure.words ++ p.main.toList.flatMap Block.words

/-! ## Programs that can be written down -/

mutual

/-- Values are assigned to places, and loops are controlled by what their conditions say. -/
def Stmt.WellFormed : Stmt → Prop
  | .forLoop _ _ _ _ _ _ body => body.WellFormed
  | .whileLoop _ control cond body => control = Control.ofCondition cond ∧ body.WellFormed
  | .repeatLoop _ control body cond => control = Control.ofCondition cond ∧ body.WellFormed
  | .conditional _ _ thenBlock (some elseBlock) => thenBlock.WellFormed ∧ elseBlock.WellFormed
  | .conditional _ _ thenBlock none => thenBlock.WellFormed
  | .assign _ target _ => target.isPlace = true
  | .call .. => True
  | .give .. => True

def Block.WellFormed : Block → Prop
  | .mk _ _ _ stmts => Stmt.AllWellFormed stmts

def Stmt.AllWellFormed : List Stmt → Prop
  | [] => True
  | s :: ss => s.WellFormed ∧ Stmt.AllWellFormed ss

end

/-- The body is well-formed, and no parameter has a shape. -/
def Procedure.WellFormed (p : Procedure) : Prop :=
  (∀ q ∈ p.params, q.shape = []) ∧ p.body.WellFormed

def Program.WellFormed (p : Program) : Prop :=
  (∀ q ∈ p.procedures, q.WellFormed) ∧ ∀ b ∈ p.main, b.WellFormed

/-! ## Taking spelled words apart -/

namespace Spelled

theorem cons {w : Word} {ws : List Word} {ts : List Token} (h : Spelled (w :: ws) ts) :
    ∃ t us, ts = t :: us ∧ w.SpelledBy t ∧ Spelled ws us
      ∧ ∀ u vs, us = u :: vs → t.Adjoins u := by
  obtain ⟨t, us, ht, hus, rfl⟩ := List.forall₂_cons_left_iff.mp h.each
  refine ⟨t, us, rfl, ht, ⟨hus, List.isChain_of_isChain_cons h.layout⟩, ?_⟩
  rintro u vs rfl
  exact List.rel_of_isChain_cons_cons h.layout

theorem append {ws ws' : List Word} {ts : List Token} (h : Spelled (ws ++ ws') ts) :
    ∃ us us', ts = us ++ us' ∧ Spelled ws us ∧ Spelled ws' us' := by
  have hlayout := h.layout
  rw [← List.take_append_drop ws.length ts] at hlayout
  refine ⟨ts.take ws.length, ts.drop ws.length, (List.take_append_drop ..).symm, ?_, ?_⟩
  · exact ⟨by simpa using List.forall₂_take ws.length h.each, hlayout.left_of_append⟩
  · exact ⟨by simpa using List.forall₂_drop ws.length h.each, hlayout.right_of_append⟩

theorem nil {ts : List Token} (h : Spelled [] ts) : ts = [] := List.forall₂_nil_left_iff.mp h.each

theorem length_eq {ws : List Word} {ts : List Token} (h : Spelled ws ts) :
    ws.length = ts.length := h.each.length_eq

theorem kind_ne_eof {ws : List Word} {ts : List Token} (h : Spelled ws ts) :
    ∀ t ∈ ts, t.kind ≠ .eof := by
  have heach := h.each
  clear h
  induction heach with
  | nil => simp
  | cons hw _ ih =>
      intro t ht
      rcases List.mem_cons.mp ht with rfl | ht
      · exact hw.1
      · exact ih t ht

theorem mark {k : Token.Kind} {ws : List Word} {ts : List Token} (h : Spelled (.mark k :: ws) ts) :
    ∃ t us, ts = t :: us ∧ t.kind = k ∧ Spelled ws us := by
  obtain ⟨t, us, rfl, ht, hus, -⟩ := h.cons
  exact ⟨t, us, rfl, ht.2, hus⟩

theorem ident {n : Name} {ws : List Word} {ts : List Token} (h : Spelled (.ident n :: ws) ts) :
    ∃ t us, ts = t :: us ∧ t.kind = .ident ∧ t.text = n ∧ Spelled ws us := by
  obtain ⟨t, us, rfl, ht, hus, -⟩ := h.cons
  exact ⟨t, us, rfl, ht.2.1, ht.2.2, hus⟩

theorem assignment {ws : List Word} {ts : List Token} (h : Spelled (.assignment :: ws) ts) :
    ∃ t us, ts = t :: us ∧ (t.kind = .assign ∨ t.kind = .equal) ∧ Spelled ws us := by
  obtain ⟨t, us, rfl, ht, hus, -⟩ := h.cons
  exact ⟨t, us, rfl, ht.2, hus⟩

theorem closed {k : Token.Kind} {ws : List Word} {ts : List Token}
    (h : Spelled (ws ++ [.mark k]) ts) :
    ∃ us t, ts = us ++ [t] ∧ Spelled ws us ∧ t.kind = k := by
  obtain ⟨us, us', rfl, hus, hus'⟩ := h.append
  obtain ⟨t, vs, rfl, ht, hvs⟩ := hus'.mark
  exact ⟨us, t, by rw [hvs.nil], hus, ht⟩

theorem inParens {ws : List Word} {ts : List Token}
    (h : Spelled (PseudoCost.inParens ws) ts) :
    ∃ t us t', ts = t :: (us ++ [t']) ∧ t.kind = .lparen ∧ Spelled ws us ∧ t'.kind = .rparen := by
  obtain ⟨t, us, rfl, ht, hus⟩ := h.mark
  obtain ⟨us, t', rfl, hus, ht'⟩ := hus.closed
  exact ⟨t, us, t', rfl, ht, hus, ht'⟩

end Spelled

/-! ## Every program can be spelled -/

/-- A word has a token, on the first line of the source, unless it is a number without a numeral. -/
theorem Word.exists_spelledBy {w : Word} (hmark : w ≠ .mark .eof)
    (hnumber : ∀ value, w = .number value → ∃ text, Numeral.read text = .ok value) :
    ∃ t : Token, t.pos = .nowhere ∧ w.SpelledBy t := by
  let token (kind : Token.Kind) (text : Text) : Token := { kind, text, pos := .nowhere }
  cases w with
  | mark kind =>
      refine ⟨token kind [], rfl, ?_, rfl⟩
      rintro rfl
      exact hmark rfl
  | number value =>
      obtain ⟨text, htext⟩ := hnumber value rfl
      exact ⟨token .number text, rfl, by simp [token], rfl, htext⟩
  | string value => exact ⟨token .string value, rfl, by simp [token], rfl, rfl⟩
  | assignment => exact ⟨token .assign [], rfl, by simp [token], Or.inl rfl⟩
  | declaration n display =>
      exact ⟨{ token .ident n with lexeme := display }, rfl, by simp [token], Or.inl rfl, rfl, rfl⟩
  | function n => exact ⟨token .ident n, rfl, by simp [token], Or.inl ⟨rfl, rfl⟩⟩
  | ident n => exact ⟨token .ident n, rfl, by simp [token], rfl, rfl⟩
  | procedure n | member n => exact ⟨token .ident n, rfl, by simp [token], Or.inl rfl, rfl⟩

theorem Spelled.exists_of_forall {ws : List Word}
    (h : ∀ w ∈ ws, ∃ t : Token, t.pos = .nowhere ∧ w.SpelledBy t) : ∃ ts, Spelled ws ts := by
  have : Nonempty Token := ⟨{}⟩
  choose! token hpos hspelled using h
  refine ⟨ws.map token, ?_, ?_⟩
  · rw [List.forall₂_map_right_iff, List.forall₂_same]
    exact hspelled
  · refine List.Pairwise.isChain (List.pairwise_of_forall_mem_list ?_)
    simp only [List.mem_map]
    rintro _ ⟨w, hw, rfl⟩ _ ⟨w', hw', rfl⟩ - -
    rw [hpos w hw, hpos w' hw']

theorem UnaryOp.eof_not_mem_around {op : UnaryOp} {ws : List Word} (h : .mark .eof ∉ ws) :
    .mark .eof ∉ op.around ws := by
  cases op <;> simpa [around, inParens]

theorem BinaryOp.mark_ne_eof (op : BinaryOp) : op.mark ≠ .eof := by
  cases op <;> simp [mark]

mutual
theorem Expr.eof_not_mem_words : ∀ e : Expr, .mark .eof ∉ e.words
  | .number .. | .string .. | .null _ | .name .. => by simp [words]
  | .bool _ value => by cases value <;> simp [words]
  | .call _ _ true args | .call _ _ false args => by
      simp [words, inParens, eof_not_mem_wordsOf args]
  | .index _ base subscript => by
      simp [words, inParens, eof_not_mem_words base, eof_not_mem_words subscript]
  | .field _ base _ => by simp [words, inParens, eof_not_mem_words base]
  | .range _ low high => by
      simp [words, inParens, eof_not_mem_words low, eof_not_mem_words high]
  | .binary _ op lhs rhs => by
      simp [words, inParens, eof_not_mem_words lhs, eof_not_mem_words rhs,
        op.mark_ne_eof.symm]
  | .unary _ op operand => UnaryOp.eof_not_mem_around (eof_not_mem_words operand)

theorem Expr.eof_not_mem_wordsOf : ∀ es : List Expr, .mark .eof ∉ wordsOf es
  | [] => by simp [wordsOf]
  | e :: es => by simp [wordsOf, eof_not_mem_words e, eof_not_mem_moreWords es]

theorem Expr.eof_not_mem_moreWords : ∀ es : List Expr, .mark .eof ∉ moreWords es
  | [] => by simp [moreWords]
  | e :: es => by simp [moreWords, eof_not_mem_words e, eof_not_mem_moreWords es]
end

theorem Expr.eof_not_mem_accessWords : ∀ e : Expr, .mark .eof ∉ e.accessWords
  | .index _ base subscript => by
      simp [accessWords, eof_not_mem_words subscript, eof_not_mem_accessWords base]
  | .field _ base _ => by simp [accessWords, eof_not_mem_accessWords base]
  | .number .. | .string .. | .bool .. | .null _ | .name .. | .call .. | .range .. | .binary ..
  | .unary .. => by simp [accessWords]

theorem Expr.eof_not_mem_placeWords (e : Expr) : .mark .eof ∉ e.placeWords := by
  simp [placeWords, eof_not_mem_accessWords e]

theorem Stmt.eof_not_mem_callWords (callee : Name) (args : List Expr) :
    .mark .eof ∉ callWords callee args := by
  fun_cases callWords callee args <;>
    simp [inParens, Expr.eof_not_mem_wordsOf, Expr.eof_not_mem_placeWords]

mutual

theorem Stmt.eof_not_mem_words : ∀ s : Stmt, .mark .eof ∉ s.words
  | .forLoop _ _ descending start stop step body => by
      cases descending <;> cases step <;>
        simp [Stmt.words, Expr.eof_not_mem_words, Block.eof_not_mem_words body]
  | .whileLoop _ _ cond body => by
      simp [Stmt.words, Expr.eof_not_mem_words, Block.eof_not_mem_words body]
  | .repeatLoop _ _ body cond => by
      simp [Stmt.words, Expr.eof_not_mem_words, Block.eof_not_mem_words body]
  | .conditional _ cond thenBlock (some elseBlock) => by
      simp [Stmt.words, Expr.eof_not_mem_words, Block.eof_not_mem_words thenBlock,
        Block.eof_not_mem_words elseBlock]
  | .conditional _ cond thenBlock none => by
      simp [Stmt.words, Expr.eof_not_mem_words, Block.eof_not_mem_words thenBlock]
  | .assign _ target value => by
      simp [Stmt.words, Expr.eof_not_mem_words, Expr.eof_not_mem_placeWords]
  | .call _ callee true args => by simp [Stmt.words, inParens, Expr.eof_not_mem_wordsOf]
  | .call _ callee false args => Stmt.eof_not_mem_callWords callee args
  | .give _ value => by cases value <;> simp [Stmt.words, Expr.eof_not_mem_words]

theorem Block.eof_not_mem_words : ∀ b : Block, .mark .eof ∉ b.words
  | .mk _ _ _ stmts => by simp [Block.words, Stmt.eof_not_mem_wordsOf stmts]

theorem Stmt.eof_not_mem_wordsOf : ∀ ss : List Stmt, .mark .eof ∉ Stmt.wordsOf ss
  | [] => by simp [Stmt.wordsOf]
  | s :: ss => by simp [Stmt.wordsOf, Stmt.eof_not_mem_words s, Stmt.eof_not_mem_wordsOf ss]
end

theorem Procedure.eof_not_mem_words (p : Procedure) : .mark .eof ∉ p.words := by
  cases h : p.params <;>
    simp [words, inParens, h, Param.wordsOf, Param.moreWords, Block.eof_not_mem_words]

/-- Every program can be spelled, if its numbers can. -/
theorem Program.exists_spelled (p : Program)
    (hnumber : ∀ value, .number value ∈ p.words → ∃ text, Numeral.read text = .ok value) :
    ∃ ts, Spelled p.words ts := by
  refine Spelled.exists_of_forall fun w hw => Word.exists_spelledBy ?_ ?_
  · rintro rfl
    simp [words, Procedure.eof_not_mem_words, Block.eof_not_mem_words] at hw
  · rintro value rfl
    exact hnumber value hw

end PseudoCost
