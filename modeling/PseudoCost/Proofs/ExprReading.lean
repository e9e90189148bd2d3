import PseudoCost.Proofs.ReadingRules
import PseudoCost.Proofs.Rendering

/-!
# Reading expressions back

An expression in words is read back up to positions (`readWithin_reads`). Each reader of the
grammar has its own lemma, stated over any reader of nested expressions that does its work on short
enough tokens (`ReadsBack`); the recursion over expressions only puts them together. Since operands
stand in parentheses, every level of the grammar sees a parenthesis, an operator of its own, or a
token at which it stops: `isClosing` for a whole expression, `isOpen` for the tokens that would
carry a parenthesized operand on.
-/

namespace PseudoCost

open Reading

namespace Expr

variable {stop : Token} {rest : List Token}

/-! ## Where expressions stop -/

/-- The kinds of tokens that end every expression. -/
def isClosing : Token.Kind → Bool
  | .rparen | .rbracket | .rceil | .rfloor | .comma | .semicolon | .toWord | .downtoWord | .stepWord
  | .doWord | .thenWord | .withWord => true
  | _ => false

/-- The kinds of tokens that go on with an operand: a subscript, a field or a power. -/
def isOpen : Token.Kind → Bool
  | .lbracket | .dot | .caret => true
  | _ => false

theorem levels_of_closing {k : Token.Kind} (h : isClosing k = true) :
    ∀ op? ∈ levels, op? k = none := by
  cases k <;> simp_all [isClosing, levels]

theorem isOpen_of_closing {k : Token.Kind} (h : isClosing k = true) : isOpen k = false := by
  cases k <;> simp_all [isClosing, isOpen]

/-! ## Binary levels -/

section Levels

variable {operand : Reading Expr} {c c' : Token.Cursor} {Q : Expr → Prop}

theorem chain_stops {op? : Token.Kind → Option BinaryOp} (h : op? c.kind = none) (fuel : Nat)
    {lhs : Expr} (hlhs : Q lhs) : Reads (chain op? operand (fuel + 1) lhs) c c Q := by
  simpa [chain, h] using hlhs

/-- A level that does not know the token after an operand reads the operand alone. -/
theorem level_stops {op? : Token.Kind → Option BinaryOp} (hoperand : Reads operand c c' Q)
    (h : op? c'.kind = none) : Reads (level op? operand) c c' Q := by
  refine hoperand.bind fun lhs hlhs => ?_
  rw [reads_remaining_bind]
  exact chain_stops h _ hlhs

theorem levels_stop : ∀ {ls : List (Token.Kind → Option BinaryOp)},
    (∀ op? ∈ ls, op? c'.kind = none) → Reads operand c c' Q →
    Reads (ls.foldr level operand) c c' Q
  | [], _, h => h
  | op? :: _, hnone, h =>
      level_stops (levels_stop (fun o ho => hnone o (List.mem_cons_of_mem _ ho)) h)
        (hnone op? List.mem_cons_self)

/-- A level reads an operator of its own and the operand after it. -/
theorem level_applies {op? : Token.Kind → Option BinaryOp} {op : BinaryOp} {t : Token}
    {ts : List Token} {P : Expr → Prop} (hlhs : Reads operand c ⟨t :: ts, stop⟩ Q)
    (hop : op? t.kind = some op) (hrhs : Reads operand ⟨ts, stop⟩ c' P)
    (hnone : op? c'.kind = none) :
    Reads (level op? operand) c c' fun e =>
      ∃ lhs rhs, e = .binary t.pos op lhs rhs ∧ Q lhs ∧ P rhs := by
  refine hlhs.bind fun lhs hl => ?_
  simp only [reads_remaining_bind, List.length_cons, chain, reads_kind_bind,
    Token.Cursor.kind_cons, hop, reads_take_bind, Token.Cursor.peek_cons,
    Token.Cursor.advance_cons]
  refine hrhs.bind fun rhs hr => ?_
  exact chain_stops hnone _ ⟨lhs, rhs, rfl, hl, hr⟩

/-- The operator of a token is read on its level, the tighter levels and the looser ones stepping
aside. -/
theorem levels_apply {ls ls' : List (Token.Kind → Option BinaryOp)}
    {op? : Token.Kind → Option BinaryOp} {op : BinaryOp} {t : Token} {ts : List Token}
    {P : Expr → Prop} (hlhs : Reads operand c ⟨t :: ts, stop⟩ Q)
    (hop : op? t.kind = some op) (htight : ∀ o ∈ ls', o t.kind = none)
    (hrhs : Reads operand ⟨ts, stop⟩ c' P) (hnone : ∀ o ∈ ls ++ op? :: ls', o c'.kind = none) :
    Reads ((ls ++ op? :: ls').foldr level operand) c c' fun e =>
      ∃ lhs rhs, e = .binary t.pos op lhs rhs ∧ Q lhs ∧ P rhs := by
  rw [List.foldr_append, List.foldr_cons]
  refine levels_stop (fun o ho => hnone o (List.mem_append_left _ ho)) ?_
  refine level_applies (levels_stop htight hlhs) hop (levels_stop (fun o ho => ?_) hrhs) ?_
  · exact hnone o (List.mem_append_right _ (List.mem_cons_of_mem _ ho))
  · exact hnone op? (List.mem_append_right _ List.mem_cons_self)

/-- Every operator but the power stands on one of the levels. -/
theorem level_of_op {op : BinaryOp} (h : op ≠ .pow) :
    ∃ ls op? ls', levels = ls ++ op? :: ls' ∧ op? op.mark = some op
      ∧ ∀ o ∈ ls', o op.mark = none := by
  cases op with
  | or => exact ⟨[], _, _, rfl, rfl, by simp [BinaryOp.mark]⟩
  | and => exact ⟨levels.take 1, _, _, rfl, rfl, by simp [BinaryOp.mark]⟩
  | eq | ne => exact ⟨levels.take 2, _, _, rfl, rfl, by simp [BinaryOp.mark]⟩
  | lt | le | gt | ge => exact ⟨levels.take 3, _, _, rfl, rfl, by simp [BinaryOp.mark]⟩
  | add | sub => exact ⟨levels.take 4, _, _, rfl, rfl, by simp [BinaryOp.mark]⟩
  | mul | div | intDiv | mod => exact ⟨levels.take 5, _, _, rfl, rfl, by simp [BinaryOp.mark]⟩
  | pow => exact absurd rfl h

end Levels

/-- The first token of an expression in words is one that an expression can start with. -/
theorem starts {e : Expr} {ts : List Token} (h : Spelled e.words ts) :
    ∃ t us, ts = t :: us ∧ canStart t.kind = true := by
  cases e with
  | number | string | null | name | index | field | range | binary =>
      obtain ⟨t, us, rfl, ht, -⟩ := h.cons
      exact ⟨t, us, rfl, by simp_all [Word.SpelledBy, canStart]⟩
  | bool pos value =>
      obtain ⟨t, us, rfl, ht, -⟩ := h.cons
      refine ⟨t, us, rfl, ?_⟩
      cases value <;> simp_all [Word.SpelledBy, canStart]
  | call pos callee explicit args =>
      cases explicit with
      | true =>
          obtain ⟨t, us, rfl, ht, -⟩ := h.cons
          exact ⟨t, us, rfl, by simp_all [Word.SpelledBy, canStart]⟩
      | false =>
          obtain ⟨t, us, rfl, ht, -⟩ := h.cons
          refine ⟨t, us, rfl, ?_⟩
          rcases ht.2 with ht | ht <;> simp [ht.1, canStart]
  | unary pos op operand =>
      cases op <;>
        · obtain ⟨t, us, rfl, ht, -⟩ := h.cons
          exact ⟨t, us, rfl, by simp_all [Word.SpelledBy, canStart]⟩

/-! ## Lists of expressions -/

/-- The reader gives an expression back from its words, up to positions, provided that there are at
most `n` of them and a closing token follows. -/
def ReadsBack (stop : Token) (n : Nat) (r : Reading Expr) (e : Expr) : Prop :=
  ∀ ts rest, Spelled e.words ts → ts.length ≤ n →
    isClosing (Token.Cursor.kind ⟨rest, stop⟩) = true →
    Reads r ⟨ts ++ rest, stop⟩ ⟨rest, stop⟩ fun e' => e'.erased = e.erased

section Nested

variable {expr : Reading Expr} {n : Nat}

theorem closing_more {es : List Expr} {ts : List Token} (h : Spelled (moreWords es) ts)
    (hrest : isClosing (Token.Cursor.kind ⟨rest, stop⟩) = true) :
    isClosing (Token.Cursor.kind ⟨ts ++ rest, stop⟩) = true := by
  cases es with
  | nil =>
      rw [moreWords] at h
      rw [h.nil]
      exact hrest
  | cons e es =>
      rw [moreWords] at h
      obtain ⟨t, us, rfl, ht, -⟩ := h.mark
      simp [ht, isClosing]

theorem reads_moreItems : ∀ {es : List Expr}, (∀ e ∈ es, ReadsBack stop n expr e) →
    ∀ {ts : List Token} {fuel : Nat}, Spelled (moreWords es) ts → ts.length ≤ n →
    ts.length < fuel → isClosing (Token.Cursor.kind ⟨rest, stop⟩) = true →
    Token.Cursor.kind ⟨rest, stop⟩ ≠ .comma →
    Reads (moreItems expr fuel) ⟨ts ++ rest, stop⟩ ⟨rest, stop⟩ fun es' =>
      erasedList es' = erasedList es
  | [], _, ts, fuel, hts, _, hfuel, _, hcomma => by
      rw [moreWords] at hts
      obtain ⟨fuel, rfl⟩ : ∃ k, fuel = k + 1 := ⟨fuel - 1, by omega⟩
      rw [hts.nil, List.nil_append]
      simp [moreItems, reads_reject_bind hcomma]
  | e :: es, hes, ts, fuel, hts, hn, hfuel, hclosing, hcomma => by
      rw [moreWords] at hts
      obtain ⟨t, us, rfl, ht, hus⟩ := hts.mark
      obtain ⟨us, us', rfl, hus, hus'⟩ := hus.append
      obtain ⟨fuel, rfl⟩ : ∃ k, fuel = k + 1 := ⟨fuel - 1, by omega⟩
      simp only [List.length_cons, List.length_append] at hn hfuel
      simp only [moreItems, List.cons_append, List.append_assoc, reads_accept_bind,
        Token.Cursor.kind_cons, ht, Token.Cursor.advance_cons, if_true]
      refine (hes e List.mem_cons_self us _ hus (by omega) (closing_more hus' hclosing)).bind
        fun e' he' => ?_
      refine (reads_moreItems (fun d hd => hes d (List.mem_cons_of_mem _ hd)) hus' (by omega)
        (by omega) hclosing hcomma).bind fun es' hes' => ?_
      simp [erasedList, he', hes']

/-- One or more expressions separated by commas are read back. -/
theorem reads_items {e : Expr} {es : List Expr} (hes : ∀ d ∈ e :: es, ReadsBack stop n expr d)
    {ts : List Token} (hts : Spelled (wordsOf (e :: es)) ts) (hn : ts.length ≤ n)
    (hclosing : isClosing (Token.Cursor.kind ⟨rest, stop⟩) = true)
    (hcomma : Token.Cursor.kind ⟨rest, stop⟩ ≠ .comma) :
    Reads (items expr) ⟨ts ++ rest, stop⟩ ⟨rest, stop⟩ fun es' =>
      erasedList es' = erasedList (e :: es) := by
  rw [wordsOf] at hts
  obtain ⟨us, us', rfl, hus, hus'⟩ := hts.append
  simp only [List.length_append] at hn
  rw [items, List.append_assoc]
  refine (hes e List.mem_cons_self us _ hus (by omega) (closing_more hus' hclosing)).bind
    fun e' he' => ?_
  rw [reads_remaining_bind]
  refine (reads_moreItems (fun d hd => hes d (List.mem_cons_of_mem _ hd)) hus' (by omega)
    (by simp) hclosing hcomma).bind fun es' hes' => ?_
  simp [erasedList, he', hes']

/-- Arguments in parentheses are read back. -/
theorem reads_arguments {es : List Expr} (hes : ∀ e ∈ es, ReadsBack stop n expr e)
    {ts : List Token} (hts : Spelled (inParens (wordsOf es)) ts) (hn : ts.length ≤ n + 2)
    (explicit : Bool) :
    Reads (arguments expr explicit) ⟨ts ++ rest, stop⟩ ⟨rest, stop⟩ fun es' =>
      erasedList es' = erasedList es := by
  obtain ⟨t, us, t', rfl, ht, hus, ht'⟩ := hts.inParens
  simp only [List.length_cons, List.length_append, List.length_nil] at hn
  simp only [arguments, List.cons_append, List.append_assoc, List.nil_append, reads_kind_bind,
    Token.Cursor.kind_cons, ht, bne_self_eq_false, Bool.and_false, Bool.false_eq_true, if_false,
    reads_expect_bind, Token.Cursor.advance_cons]
  cases es with
  | nil =>
      rw [wordsOf] at hus
      rw [hus.nil]
      simp [ht', erasedList]
  | cons e es =>
      have hfirst : Token.Cursor.kind ⟨us ++ t' :: rest, stop⟩ ≠ .rparen := by
        rw [wordsOf] at hus
        obtain ⟨vs, vs', rfl, hvs, -⟩ := hus.append
        obtain ⟨u, vs, rfl, hu⟩ := starts hvs
        intro h
        simp [show u.kind = .rparen from h, canStart] at hu
      rw [if_neg hfirst]
      refine (reads_items hes hus (by omega) (by simp [ht', isClosing]) (by simp [ht'])).bind
        fun es' hes' => ?_
      simp [ht', hes']

/-! ## Brackets and literals -/

/-- An expression up to its closing bracket is read back. -/
theorem reads_enclosed {e : Expr} (he : ReadsBack stop n expr e) {k : Token.Kind}
    (hk : isClosing k = true) {ts : List Token} (hts : Spelled (e.words ++ [.mark k]) ts)
    (hn : ts.length ≤ n + 1) {β : Type} (g : Expr → β) (expected : Text) :
    Reads (do
      let inner ← expr
      let _ ← expect k expected
      return g inner) ⟨ts ++ rest, stop⟩ ⟨rest, stop⟩ fun b =>
        ∃ e', b = g e' ∧ e'.erased = e.erased := by
  obtain ⟨us, t, rfl, hus, ht⟩ := hts.closed
  simp only [List.length_append, List.length_cons, List.length_nil] at hn
  rw [List.append_assoc]
  refine (he us _ hus (by omega) (by simp [ht, hk])).bind fun e' he' => ?_
  simp only [List.cons_append, List.nil_append, reads_expect_bind, Token.Cursor.kind_cons, ht,
    Token.Cursor.advance_cons, reads_pure_iff, true_and]
  exact ⟨e', rfl, he'⟩

theorem primary_inParens {e : Expr} (he : ReadsBack stop n expr e) {ts : List Token}
    (hts : Spelled (inParens e.words) ts) (hn : ts.length ≤ n + 2) :
    Reads (primary expr) ⟨ts ++ rest, stop⟩ ⟨rest, stop⟩ fun e' => e'.erased = e.erased := by
  obtain ⟨t, us, rfl, ht, hus⟩ := hts.mark
  simp only [primary, List.cons_append, reads_peek_bind, Token.Cursor.peek_cons, ht,
    reads_take_bind, Token.Cursor.advance_cons]
  refine (reads_enclosed he rfl hus (by simpa using hn) (fun e => e) _).imp ?_
  rintro _ ⟨e', rfl, he'⟩
  exact he'

theorem rounded_reads {e : Expr} (he : ReadsBack stop n expr e) {k : Token.Kind}
    (hk : isClosing k = true) {ts : List Token} (hts : Spelled (e.words ++ [.mark k]) ts)
    (hn : ts.length ≤ n + 1) (pos : Pos) (op : UnaryOp) (expected : Text) :
    Reads (rounded expr pos op k expected) ⟨ts ++ rest, stop⟩ ⟨rest, stop⟩ fun e' =>
      e'.erased = (Expr.unary pos op e).erased := by
  refine (reads_enclosed he hk hts hn (Expr.unary pos op) expected).imp ?_
  rintro _ ⟨e', rfl, he'⟩
  rw [erased, erased, he']

theorem reads_procedureName_bind {β : Type} {t : Token} {ts : List Token}
    (h : t.kind = .ident ∨ t.kind = .swapWord) {f : Token → Reading β} {c : Token.Cursor}
    {P : β → Prop} :
    Reads (procedureName >>= f) ⟨t :: ts, stop⟩ c P ↔ Reads (f t) ⟨ts, stop⟩ c P := by
  refine reads_bind_iff ?_
  rw [procedureName, run_bind_ok (rfl : kind.run _ = .ok (Token.Cursor.kind _, _)),
    Token.Cursor.kind_cons]
  rcases h with h | h
  · rw [if_neg (by simp [h])]
    exact run_expect h
  · rw [if_pos h]
    rfl

/-- What is read without operators, signs and accesses outside of brackets. -/
def isPrimary : Expr → Bool
  | .number .. | .string .. | .bool .. | .null _ | .name .. | .call .. => true
  | .unary _ op _ => op.isRounding
  | _ => false

theorem primary_reads {e : Expr} (hprimary : e.isPrimary = true) {ts : List Token}
    (hts : Spelled e.words ts) (hn : ts.length ≤ n + 1)
    (hoperand : ∀ pos op operand, e = .unary pos op operand → ReadsBack stop n expr operand)
    (hargs : ∀ pos callee explicit args, e = .call pos callee explicit args →
      ∀ a ∈ args, ReadsBack stop n expr a)
    (hclosing : isClosing (Token.Cursor.kind ⟨rest, stop⟩) = true) :
    Reads (primary expr) ⟨ts ++ rest, stop⟩ ⟨rest, stop⟩ fun e' => e'.erased = e.erased := by
  cases e with
  | number pos value =>
      obtain ⟨t, us, rfl, ⟨-, ht, hvalue⟩, hus, -⟩ := hts.cons
      rw [hus.nil]
      simp [primary, ht, hvalue, erased]
  | string pos value =>
      obtain ⟨t, us, rfl, ⟨-, ht, rfl⟩, hus, -⟩ := hts.cons
      rw [hus.nil]
      simp [primary, ht, erased]
  | bool pos value =>
      obtain ⟨t, us, rfl, ht, hus⟩ := hts.mark
      rw [hus.nil]
      cases value <;> simp_all [primary, erased]
  | null pos =>
      obtain ⟨t, us, rfl, ht, hus⟩ := hts.mark
      rw [hus.nil]
      simp [primary, ht, erased]
  | name pos name =>
      obtain ⟨t, us, rfl, ⟨-, ht, rfl⟩, hus, -⟩ := hts.cons
      have hparen : Token.Cursor.kind ⟨rest, stop⟩ ≠ .lparen := by
        intro h
        simp [h, isClosing] at hclosing
      rw [hus.nil]
      simp [primary, ht, hparen, erased]
  | call pos callee explicit args =>
      have hreads := hargs pos callee explicit args rfl
      cases explicit with
      | true =>
          obtain ⟨t, us, rfl, ht, hus⟩ := hts.mark
          obtain ⟨u, us, rfl, ⟨-, hu, rfl⟩, hus, -⟩ := hus.cons
          simp only [List.length_cons] at hn
          simp only [primary, List.cons_append, reads_peek_bind, Token.Cursor.peek_cons, ht,
            reads_take_bind, Token.Cursor.advance_cons, explicitCall,
            reads_procedureName_bind hu]
          refine (reads_arguments hreads hus (by omega) true).bind fun args' h => ?_
          simp [erased, h]
      | false =>
          obtain ⟨t, us, rfl, ht, hus, -⟩ := hts.cons
          simp only [List.length_cons] at hn
          have harguments : Reads (arguments expr false) ⟨us ++ rest, stop⟩ ⟨rest, stop⟩
              fun es' => erasedList es' = erasedList args :=
            reads_arguments hreads hus (by omega) false
          have hfunction : t.kind = .ident ∧ t.text = callee
              ∨ t.kind = .lengthWord ∧ callee = "length" := ht.2
          rcases hfunction with ⟨hkind, rfl⟩ | ⟨hkind, rfl⟩
          · obtain ⟨u, vs, v, rfl, hu, -, -⟩ := hus.inParens
            simp only [primary, List.cons_append, reads_peek_bind, Token.Cursor.peek_cons, hkind,
              reads_take_bind, Token.Cursor.advance_cons, reads_kind_bind,
              Token.Cursor.kind_cons, hu, if_true]
            refine harguments.bind fun args' h => ?_
            simp [erased, h]
          · simp only [primary, List.cons_append, reads_peek_bind, Token.Cursor.peek_cons, hkind,
              reads_take_bind, Token.Cursor.advance_cons]
            refine harguments.bind fun args' h => ?_
            simp [erased, h]
  | unary pos op operand =>
      have hreads := hoperand pos op operand rfl
      cases op with
      | ceil | floor =>
          obtain ⟨t, us, rfl, ht, hus⟩ := hts.mark
          simp only [primary, List.cons_append, reads_peek_bind, Token.Cursor.peek_cons, ht,
            reads_take_bind, Token.Cursor.advance_cons]
          refine (rounded_reads hreads rfl hus ?_ _ _ _).imp fun e' he' => ?_
          · simp only [List.length_cons] at hn
            omega
          · rw [he', erased, erased]
      | neg | plus | not => simp [isPrimary, UnaryOp.isRounding] at hprimary
  | index | field | range | binary => simp [isPrimary] at hprimary

/-! ## Subscripts and fields -/

theorem accesses_stop {c : Token.Cursor} (h : isOpen c.kind = false) (fuel : Nat) {base : Expr}
    {Q : Expr → Prop} (hbase : Q base) : Reads (accesses expr (fuel + 1) base) c c Q := by
  rw [accesses, reads_kind_bind]
  split
  · simp_all [isOpen]
  · simp_all [isOpen]
  · exact Reads.pure hbase

section Access

variable {c : Token.Cursor} {Q : Expr → Prop} {fuel : Nat} {base : Expr} {ts : List Token}

/-- A subscript is read and the accesses go on after it. -/
theorem accesses_index {subscript : Expr} (hreads : ReadsBack stop n expr subscript)
    (hts : Spelled (.mark .lbracket :: (subscript.words ++ [.mark .rbracket])) ts)
    (hn : ts.length ≤ n + 2)
    (hnext : ∀ pos subscript', subscript'.erased = subscript.erased →
      Reads (accesses expr fuel (.index pos base subscript')) ⟨rest, stop⟩ c Q) :
    Reads (accesses expr (fuel + 1) base) ⟨ts ++ rest, stop⟩ c Q := by
  obtain ⟨t, us, rfl, ht, hus⟩ := hts.mark
  obtain ⟨us, t', rfl, hus, ht'⟩ := hus.closed
  simp only [List.length_cons, List.length_append, List.length_nil] at hn
  simp only [accesses, List.cons_append, List.append_assoc, List.nil_append, reads_kind_bind,
    Token.Cursor.kind_cons, ht, reads_take_bind, Token.Cursor.peek_cons,
    Token.Cursor.advance_cons]
  have hitems : Reads (items expr) ⟨us ++ t' :: rest, stop⟩ ⟨t' :: rest, stop⟩ fun es' =>
      erasedList es' = erasedList [subscript] :=
    reads_items (by simpa using hreads) (by simpa [wordsOf, moreWords] using hus) (by omega)
      (by simp [ht', isClosing]) (by simp [ht'])
  refine hitems.bind fun es' hes' => ?_
  obtain ⟨e', rfl, he'⟩ : ∃ e', es' = [e'] ∧ e'.erased = subscript.erased := by
    rcases es' with _ | ⟨e', _ | ⟨d, es'⟩⟩
    · simp [erasedList] at hes'
    · exact ⟨e', rfl, by simpa [erasedList] using hes'⟩
    · simp [erasedList] at hes'
  simpa only [reads_expect_bind, Token.Cursor.kind_cons, ht', Token.Cursor.advance_cons,
    List.foldl_cons, List.foldl_nil] using hnext t.pos e' he'

/-- A field is read and the accesses go on after it. -/
theorem accesses_field {f : Name} (hts : Spelled [.mark .dot, .member f] ts)
    (hnext : ∀ pos, Reads (accesses expr fuel (.field pos base f)) ⟨rest, stop⟩ c Q) :
    Reads (accesses expr (fuel + 1) base) ⟨ts ++ rest, stop⟩ c Q := by
  obtain ⟨t, us, rfl, ht, hus⟩ := hts.mark
  obtain ⟨u, us, rfl, ⟨-, hu, rfl⟩, hus, -⟩ := hus.cons
  rw [hus.nil]
  simpa only [accesses, List.cons_append, List.nil_append, reads_kind_bind,
    Token.Cursor.kind_cons, ht, reads_nextKind_bind, Token.Cursor.nextKind_cons, hu, if_true,
    reads_take_bind, Token.Cursor.peek_cons, Token.Cursor.advance_cons] using hnext t.pos

end Access

/-! ## Powers and signs -/

section Power

variable {sign : Reading Expr} {c c₁ c' : Token.Cursor} {P Q : Expr → Prop}

/-- What stands before a power sign, or alone: something in brackets with its accesses. -/
theorem powerLevel_reads (hprimary : Reads (primary expr) c c₁ P)
    (haccess : ∀ base, P base → Reads (accesses expr (c.rest.length + 1) base) c₁ c' Q)
    (h : isOpen c'.kind = false) : Reads (powerLevel expr sign) c c' Q := by
  have hcaret : c'.kind ≠ .caret := by
    intro hk
    simp [hk, isOpen] at h
  rw [powerLevel, reads_remaining_bind]
  refine hprimary.bind fun base hbase => ?_
  refine (haccess base hbase).bind fun e he => ?_
  simp [hcaret, he]

theorem powerLevel_stops (hprimary : Reads (primary expr) c c' Q) (h : isOpen c'.kind = false) :
    Reads (powerLevel expr sign) c c' Q :=
  powerLevel_reads hprimary (fun _ hbase => accesses_stop h _ hbase) h

theorem powerLevel_applies {t : Token} {ts : List Token}
    (hprimary : Reads (primary expr) c ⟨t :: ts, stop⟩ P) (ht : t.kind = .caret)
    (hsign : Reads sign ⟨ts, stop⟩ c' Q) :
    Reads (powerLevel expr sign) c c' fun e =>
      ∃ base exponent, e = .binary t.pos .pow base exponent ∧ P base ∧ Q exponent := by
  rw [powerLevel, reads_remaining_bind]
  refine hprimary.bind fun base hbase => ?_
  have hstop :
      Reads (accesses expr (c.rest.length + 1) base) ⟨t :: ts, stop⟩ ⟨t :: ts, stop⟩ P := by
    simpa [accesses, ht] using hbase
  refine hstop.bind fun base hbase => ?_
  simp only [reads_kind_bind, Token.Cursor.kind_cons, ht, if_true, reads_take_bind,
    Token.Cursor.peek_cons, Token.Cursor.advance_cons]
  refine hsign.bind fun exponent hexponent => ?_
  exact Reads.pure ⟨base, exponent, rfl, hbase, hexponent⟩

end Power

end Nested

/-! ## All levels -/

variable {depth n : Nat}

theorem readSign_of_power {c c' : Token.Cursor} {Q : Expr → Prop}
    (hpower : Reads (powerLevel (readWithin depth) (readSign depth)) c c' Q)
    (hsign : signOp? c.kind = none) : Reads (readSign (depth + 1)) c c' Q := by
  rw [readSign, reads_kind_bind, hsign]
  exact hpower

/-- Words in parentheses do not start with a sign. -/
theorem signOp?_inParens {ws : List Word} {ts : List Token}
    (hts : Spelled (inParens ws) ts) :
    signOp? (Token.Cursor.kind ⟨ts ++ rest, stop⟩) = none := by
  obtain ⟨t, us, rfl, ht, -⟩ := hts.mark
  simp [ht, signOp?]

theorem readWithin_of_sign {c c' : Token.Cursor} {Q : Expr → Prop}
    (hsign : Reads (readSign depth) c c' Q) (h : isClosing c'.kind = true) :
    Reads (readWithin (depth + 1)) c c' Q := by
  have hdots : c'.kind ≠ .dotDot := by
    intro hk
    simp [hk, isClosing] at h
  rw [readWithin, rangeLevel]
  refine (levels_stop (levels_of_closing h) hsign).bind fun e he => ?_
  simp [hdots, he]

/-- An operand in parentheses is read back at the level of signs. -/
theorem readSign_operand {e : Expr} (he : ReadsBack stop n (readWithin depth) e)
    {ts : List Token} (hts : Spelled (inParens e.words) ts) (hn : ts.length ≤ n + 2)
    (h : isOpen (Token.Cursor.kind ⟨rest, stop⟩) = false) :
    Reads (readSign (depth + 1)) ⟨ts ++ rest, stop⟩ ⟨rest, stop⟩ fun e' =>
      e'.erased = e.erased := by
  exact readSign_of_power (powerLevel_stops (primary_inParens he hts hn) h)
    (signOp?_inParens hts)

/-! ## One lemma for each kind of expression -/

section Kinds

variable {e e₁ e₂ : Expr} {ts : List Token} (pos : Pos)

theorem readSign_unary (he : ReadsBack stop n (readWithin depth) e) {op : UnaryOp}
    (hop : op.isRounding = false) (hts : Spelled (op.around e.words) ts)
    (hn : ts.length ≤ n + 3) (h : isOpen (Token.Cursor.kind ⟨rest, stop⟩) = false) :
    Reads (readSign (depth + 2)) ⟨ts ++ rest, stop⟩ ⟨rest, stop⟩ fun e' =>
      e'.erased = (Expr.unary pos op e).erased := by
  obtain ⟨k, hk, haround⟩ : ∃ k, signOp? k = some op
      ∧ op.around e.words = .mark k :: inParens e.words := by
    cases op with
    | neg => exact ⟨.minus, rfl, rfl⟩
    | plus => exact ⟨.plus, rfl, rfl⟩
    | not => exact ⟨.notWord, rfl, rfl⟩
    | ceil | floor => simp [UnaryOp.isRounding] at hop
  rw [haround] at hts
  obtain ⟨t, us, rfl, ht, hus⟩ := hts.mark
  simp only [List.length_cons] at hn
  simp only [readSign, List.cons_append, reads_kind_bind, Token.Cursor.kind_cons, ht, hk,
    reads_take_bind, Token.Cursor.peek_cons, Token.Cursor.advance_cons]
  refine (readSign_operand he hus (by omega) h).bind fun e' he' => ?_
  simp [erased, he']

theorem readSign_index (he₁ : ReadsBack stop n (readWithin depth) e₁)
    (he₂ : ReadsBack stop n (readWithin depth) e₂)
    (hts : Spelled (Expr.index pos e₁ e₂).words ts) (hn : ts.length ≤ n + 2)
    (h : isOpen (Token.Cursor.kind ⟨rest, stop⟩) = false) :
    Reads (readSign (depth + 1)) ⟨ts ++ rest, stop⟩ ⟨rest, stop⟩ fun e' =>
      e'.erased = (Expr.index pos e₁ e₂).erased := by
  rw [words] at hts
  obtain ⟨us, us', rfl, hus, hus'⟩ := hts.append
  obtain ⟨t, vs, rfl, -⟩ := hus.mark
  simp only [List.length_append] at hn
  rw [List.append_assoc]
  refine readSign_of_power (powerLevel_reads (primary_inParens he₁ hus (by omega))
    (fun base hbase => ?_) h) (signOp?_inParens hus)
  refine accesses_index he₂ hus' (by omega) fun _ e' he' => accesses_stop h _ ?_
  rw [erased, erased, hbase, he']

theorem readSign_field (he : ReadsBack stop n (readWithin depth) e) {f : Name}
    (hts : Spelled (Expr.field pos e f).words ts) (hn : ts.length ≤ n + 2)
    (h : isOpen (Token.Cursor.kind ⟨rest, stop⟩) = false) :
    Reads (readSign (depth + 1)) ⟨ts ++ rest, stop⟩ ⟨rest, stop⟩ fun e' =>
      e'.erased = (Expr.field pos e f).erased := by
  rw [words] at hts
  obtain ⟨us, us', rfl, hus, hus'⟩ := hts.append
  obtain ⟨t, vs, rfl, -⟩ := hus.mark
  simp only [List.length_append] at hn
  rw [List.append_assoc]
  refine readSign_of_power (powerLevel_reads (primary_inParens he hus (by omega))
    (fun base hbase => ?_) h) (signOp?_inParens hus)
  refine accesses_field hus' fun _ => accesses_stop h _ ?_
  rw [erased, erased, hbase]

theorem readSign_power (he₁ : ReadsBack stop n (readWithin (depth + 1)) e₁)
    (he₂ : ReadsBack stop n (readWithin depth) e₂)
    (hts : Spelled (Expr.binary pos .pow e₁ e₂).words ts) (hn : ts.length ≤ n + 2)
    (h : isOpen (Token.Cursor.kind ⟨rest, stop⟩) = false) :
    Reads (readSign (depth + 2)) ⟨ts ++ rest, stop⟩ ⟨rest, stop⟩ fun e' =>
      e'.erased = (Expr.binary pos .pow e₁ e₂).erased := by
  rw [words] at hts
  obtain ⟨us, us', rfl, hus, hus'⟩ := hts.append
  obtain ⟨t, us', rfl, ht, hus'⟩ := hus'.mark
  simp only [List.length_append, List.length_cons] at hn
  rw [List.append_assoc, List.cons_append]
  refine (readSign_of_power (powerLevel_applies (primary_inParens he₁ hus (by omega)) ht
    (readSign_operand he₂ hus' (by omega) h)) (signOp?_inParens hus)).imp ?_
  rintro _ ⟨base, exponent, rfl, hbase, hexponent⟩
  rw [erased, erased, hbase, hexponent]

theorem readWithin_binary (he₁ : ReadsBack stop n (readWithin depth) e₁)
    (he₂ : ReadsBack stop n (readWithin depth) e₂) {op : BinaryOp} (hop : op ≠ .pow)
    (hts : Spelled (Expr.binary pos op e₁ e₂).words ts) (hn : ts.length ≤ n + 2)
    (h : isClosing (Token.Cursor.kind ⟨rest, stop⟩) = true) :
    Reads (readWithin (depth + 2)) ⟨ts ++ rest, stop⟩ ⟨rest, stop⟩ fun e' =>
      e'.erased = (Expr.binary pos op e₁ e₂).erased := by
  rw [words] at hts
  obtain ⟨us, us', rfl, hus, hus'⟩ := hts.append
  obtain ⟨t, us', rfl, ht, hus'⟩ := hus'.mark
  simp only [List.length_append, List.length_cons] at hn
  obtain ⟨ls, op?, ls', hlevels, happly, htight⟩ := level_of_op hop
  have hopen : isOpen t.kind = false := by
    rw [ht]
    cases op <;> first | rfl | exact absurd rfl hop
  have hdots : Token.Cursor.kind ⟨rest, stop⟩ ≠ .dotDot := by
    intro hk
    simp [hk, isClosing] at h
  have hlhs : Reads (readSign (depth + 1)) ⟨us ++ t :: (us' ++ rest), stop⟩
      ⟨t :: (us' ++ rest), stop⟩ fun e' => e'.erased = e₁.erased :=
    readSign_operand he₁ hus (by omega) (by simpa using hopen)
  have hrhs : Reads (readSign (depth + 1)) ⟨us' ++ rest, stop⟩ ⟨rest, stop⟩ fun e' =>
      e'.erased = e₂.erased :=
    readSign_operand he₂ hus' (by omega) (isOpen_of_closing h)
  rw [readWithin, rangeLevel, binaryLevels, hlevels, List.append_assoc, List.cons_append]
  refine (levels_apply hlhs (by rw [ht]; exact happly) (by rw [ht]; exact htight) hrhs
    (hlevels ▸ levels_of_closing h)).bind ?_
  rintro _ ⟨lhs, rhs, rfl, hl, hr⟩
  simp [hdots, erased, hl, hr]

theorem readWithin_range (he₁ : ReadsBack stop n (readWithin depth) e₁)
    (he₂ : ReadsBack stop n (readWithin depth) e₂)
    (hts : Spelled (Expr.range pos e₁ e₂).words ts) (hn : ts.length ≤ n + 2)
    (h : isClosing (Token.Cursor.kind ⟨rest, stop⟩) = true) :
    Reads (readWithin (depth + 2)) ⟨ts ++ rest, stop⟩ ⟨rest, stop⟩ fun e' =>
      e'.erased = (Expr.range pos e₁ e₂).erased := by
  rw [words] at hts
  obtain ⟨us, us', rfl, hus, hus'⟩ := hts.append
  obtain ⟨t, us', rfl, ht, hus'⟩ := hus'.mark
  simp only [List.length_append, List.length_cons] at hn
  have hlow : Reads (readSign (depth + 1)) ⟨us ++ t :: (us' ++ rest), stop⟩
      ⟨t :: (us' ++ rest), stop⟩ fun e' => e'.erased = e₁.erased :=
    readSign_operand he₁ hus (by omega) (by simp [ht, isOpen])
  have hhigh : Reads (readSign (depth + 1)) ⟨us' ++ rest, stop⟩ ⟨rest, stop⟩ fun e' =>
      e'.erased = e₂.erased :=
    readSign_operand he₂ hus' (by omega) (isOpen_of_closing h)
  rw [readWithin, rangeLevel, binaryLevels, List.append_assoc, List.cons_append]
  refine (levels_stop (by simp [ht, levels]) hlow).bind fun low hl => ?_
  simp only [reads_kind_bind, Token.Cursor.kind_cons, ht, if_true, reads_take_bind,
    Token.Cursor.peek_cons, Token.Cursor.advance_cons]
  refine (levels_stop (levels_of_closing h) hhigh).bind fun high hh => ?_
  simp [erased, hl, hh]

theorem signOp?_primary (hprimary : e.isPrimary = true) (hts : Spelled e.words ts) :
    signOp? (Token.Cursor.kind ⟨ts ++ rest, stop⟩) = none := by
  cases e with
  | number | string | null | name =>
      obtain ⟨t, us, rfl, ht, -⟩ := hts.cons
      simp_all [Word.SpelledBy, signOp?]
  | bool pos value =>
      obtain ⟨t, us, rfl, ht, -⟩ := hts.mark
      cases value <;> simp_all [signOp?]
  | call pos callee explicit args =>
      cases explicit with
      | true =>
          obtain ⟨t, us, rfl, ht, -⟩ := hts.mark
          simp [ht, signOp?]
      | false =>
          obtain ⟨t, us, rfl, ht, -⟩ := hts.cons
          rcases ht.2 with ht | ht <;> simp [ht.1, signOp?]
  | unary pos op operand =>
      cases op with
      | ceil | floor =>
          obtain ⟨t, us, rfl, ht, -⟩ := hts.mark
          simp [ht, signOp?]
      | neg | plus | not => simp [isPrimary, UnaryOp.isRounding] at hprimary
  | index | field | range | binary => simp [isPrimary] at hprimary

theorem readWithin_primary (hprimary : e.isPrimary = true)
    (hoperand : ∀ pos op operand, e = .unary pos op operand →
      ReadsBack stop n (readWithin depth) operand)
    (hargs : ∀ pos callee explicit args, e = .call pos callee explicit args →
      ∀ a ∈ args, ReadsBack stop n (readWithin depth) a)
    (hts : Spelled e.words ts) (hn : ts.length ≤ n + 1)
    (h : isClosing (Token.Cursor.kind ⟨rest, stop⟩) = true) :
    Reads (readWithin (depth + 2)) ⟨ts ++ rest, stop⟩ ⟨rest, stop⟩ fun e' =>
      e'.erased = e.erased := by
  have hreads : Reads (primary (readWithin depth)) ⟨ts ++ rest, stop⟩ ⟨rest, stop⟩ fun e' =>
      e'.erased = e.erased := primary_reads hprimary hts hn hoperand hargs h
  exact readWithin_of_sign (readSign_of_power (powerLevel_stops hreads (isOpen_of_closing h))
    (signOp?_primary hprimary hts)) h

end Kinds

/-! ## The recursion -/

theorem depth_of_words {e : Expr} {ts : List Token} (hts : Spelled e.words ts) {depth n : Nat}
    (hn : ts.length ≤ n) (hdepth : 2 * n ≤ depth) :
    ∃ d m, depth = d + 2 ∧ n = m + 1 ∧ 2 * m ≤ d := by
  obtain ⟨t, us, rfl, -⟩ := starts hts
  simp only [List.length_cons] at hn
  exact ⟨depth - 2, n - 1, by omega, by omega, by omega⟩

mutual

/-- **An expression in words is read back**, up to positions, if the bound on nested readings is
twice the number of its tokens. -/
theorem readWithin_reads (stop : Token) : ∀ (e : Expr) {depth n : Nat}, 2 * n ≤ depth →
    ReadsBack stop n (readWithin depth) e
  | .number .., _, _, hdepth, ts, rest, hts, hn, h
  | .string .., _, _, hdepth, ts, rest, hts, hn, h
  | .bool .., _, _, hdepth, ts, rest, hts, hn, h
  | .null _, _, _, hdepth, ts, rest, hts, hn, h
  | .name .., _, _, hdepth, ts, rest, hts, hn, h => by
      obtain ⟨d, m, rfl, rfl, hd⟩ := depth_of_words hts hn hdepth
      exact readWithin_primary (n := m) rfl (by simp) (by simp) hts hn h
  | .call pos callee explicit args, _, _, hdepth, ts, rest, hts, hn, h => by
      obtain ⟨d, m, rfl, rfl, hd⟩ := depth_of_words hts hn hdepth
      refine readWithin_primary (n := m) rfl (by simp) ?_ hts hn h
      rintro _ _ _ _ ⟨⟩
      exact readWithin_reads_all stop args hd
  | .index pos base subscript, _, _, hdepth, ts, rest, hts, hn, h => by
      obtain ⟨d, m, rfl, rfl, hd⟩ := depth_of_words hts hn hdepth
      exact readWithin_of_sign (readSign_index pos (readWithin_reads stop base hd)
        (readWithin_reads stop subscript hd) hts (by omega) (isOpen_of_closing h)) h
  | .field pos base f, _, _, hdepth, ts, rest, hts, hn, h => by
      obtain ⟨d, m, rfl, rfl, hd⟩ := depth_of_words hts hn hdepth
      exact readWithin_of_sign (readSign_field pos (readWithin_reads stop base hd) hts (by omega)
        (isOpen_of_closing h)) h
  | .range pos low high, _, _, hdepth, ts, rest, hts, hn, h => by
      obtain ⟨d, m, rfl, rfl, hd⟩ := depth_of_words hts hn hdepth
      exact readWithin_range pos (readWithin_reads stop low hd) (readWithin_reads stop high hd) hts
        (by omega) h
  | .binary pos op lhs rhs, _, _, hdepth, ts, rest, hts, hn, h => by
      obtain ⟨d, m, rfl, rfl, hd⟩ := depth_of_words hts hn hdepth
      by_cases hop : op = .pow
      · -- A power is read one level further in than the other operators.
        subst hop
        have hlength : 2 ≤ ts.length := by
          simp only [← hts.length_eq, words, inParens, List.length_append, List.length_cons]
          omega
        obtain ⟨d, rfl⟩ : ∃ k, d = k + 1 := ⟨d - 1, by omega⟩
        exact readWithin_of_sign (readSign_power pos
          (readWithin_reads stop lhs (n := m - 1) (by omega))
          (readWithin_reads stop rhs (n := m - 1) (by omega)) hts (by omega)
          (isOpen_of_closing h)) h
      · exact readWithin_binary pos (readWithin_reads stop lhs hd) (readWithin_reads stop rhs hd)
          hop hts (by omega) h
  | .unary pos op operand, _, _, hdepth, ts, rest, hts, hn, h => by
      obtain ⟨d, m, rfl, rfl, hd⟩ := depth_of_words hts hn hdepth
      cases hop : op.isRounding with
      | true =>
          refine readWithin_primary (n := m) hop ?_ (by simp) hts hn h
          rintro _ _ _ ⟨⟩
          exact readWithin_reads stop operand hd
      | false =>
          rw [words] at hts
          have hlength : 2 ≤ ts.length := by
            rw [← hts.length_eq]
            cases op <;> simp [UnaryOp.around, inParens]
          obtain ⟨d, rfl⟩ : ∃ k, d = k + 1 := ⟨d - 1, by omega⟩
          exact readWithin_of_sign (readSign_unary pos
            (readWithin_reads stop operand (n := m - 1) (by omega)) hop hts (by omega)
            (isOpen_of_closing h)) h

theorem readWithin_reads_all (stop : Token) : ∀ (es : List Expr) {depth n : Nat}, 2 * n ≤ depth →
    ∀ e ∈ es, ReadsBack stop n (readWithin depth) e
  | [], _, _, _, _, he => absurd he List.not_mem_nil
  | e :: es, _, _, hdepth, d, hd =>
      List.forall_mem_cons.mpr
        ⟨readWithin_reads stop e hdepth, readWithin_reads_all stop es hdepth⟩ d hd

end

/-- An expression in words is read back, whatever its length. -/
theorem read_reads {e : Expr} {ts : List Token} (hts : Spelled e.words ts)
    (h : isClosing (Token.Cursor.kind ⟨rest, stop⟩) = true) :
    Reads read ⟨ts ++ rest, stop⟩ ⟨rest, stop⟩ fun e' => e'.erased = e.erased := by
  rw [read, reads_remaining_bind]
  refine readWithin_reads stop e (n := ts.length) ?_ ts rest hts (le_refl _) h
  simp only [List.length_append]
  omega

theorem read_readsBack (e : Expr) (n : Nat) : ReadsBack stop n read e :=
  fun _ _ hts _ h => read_reads hts h

/-! ## Places -/

/-- The subscripts and fields of a place are read one by one, from the innermost to the last. What
the reader goes on with has room for `m` more of them. -/
theorem accesses_place {c : Token.Cursor} {Q : Expr → Prop} : ∀ (e : Expr), e.isPlace = true →
    ∀ {ts rest : List Token} {m fuel : Nat} {base : Expr}, Spelled e.accessWords ts →
    m + ts.length ≤ fuel → base.erased = .name .nowhere e.root →
    (∀ fuel' e', m ≤ fuel' → e'.erased = e.erased →
      Reads (accesses read fuel' e') ⟨rest, stop⟩ c Q) →
    Reads (accesses read fuel base) ⟨ts ++ rest, stop⟩ c Q
  | .name _ n, _, ts, rest, m, fuel, base, hts, hfuel, hbase, hnext => by
      have hnil : Spelled [] ts := hts
      rw [hnil.nil, List.nil_append]
      exact hnext fuel base (by omega) hbase
  | .index pos b subscript, hplace, ts, rest, m, fuel, base, hts, hfuel, hbase, hnext => by
      rw [accessWords] at hts
      obtain ⟨us, us', rfl, hus, hus'⟩ := hts.append
      have hlength : 1 ≤ us'.length := by simp [← hus'.length_eq]
      simp only [List.length_append] at hfuel
      rw [List.append_assoc]
      refine accesses_place b hplace (m := m + 1) hus (by omega) hbase fun fuel' b' hm hb' => ?_
      obtain ⟨k, rfl⟩ : ∃ k, fuel' = k + 1 := ⟨fuel' - 1, by omega⟩
      refine accesses_index (read_readsBack subscript us'.length) hus' (by omega)
        fun _ e' he' => hnext k _ (by omega) ?_
      rw [erased, erased, hb', he']
  | .field pos b f, hplace, ts, rest, m, fuel, base, hts, hfuel, hbase, hnext => by
      rw [accessWords] at hts
      obtain ⟨us, us', rfl, hus, hus'⟩ := hts.append
      have hlength : 1 ≤ us'.length := by simp [← hus'.length_eq]
      simp only [List.length_append] at hfuel
      rw [List.append_assoc]
      refine accesses_place b hplace (m := m + 1) hus (by omega) hbase fun fuel' b' hm hb' => ?_
      obtain ⟨k, rfl⟩ : ∃ k, fuel' = k + 1 := ⟨fuel' - 1, by omega⟩
      refine accesses_field hus' fun _ => hnext k _ (by omega) ?_
      rw [erased, erased, hb']

/-- What follows the name of a place: a bracket, a dot, or what follows the place. -/
theorem accessWords_first : ∀ (e : Expr) {ts : List Token}, Spelled e.accessWords ts →
    ts = [] ∨ ∃ t us, ts = t :: us ∧ isOpen t.kind = true
  | .index _ base _, ts, hts => by
      rw [accessWords] at hts
      obtain ⟨us, us', rfl, hus, hus'⟩ := hts.append
      rcases accessWords_first base hus with rfl | ⟨t, us, rfl, ht⟩
      · obtain ⟨t, vs, rfl, ht, -⟩ := hus'.mark
        exact Or.inr ⟨t, vs, rfl, by rw [ht]; rfl⟩
      · exact Or.inr ⟨t, us ++ us', rfl, ht⟩
  | .field _ base _, ts, hts => by
      rw [accessWords] at hts
      obtain ⟨us, us', rfl, hus, hus'⟩ := hts.append
      rcases accessWords_first base hus with rfl | ⟨t, us, rfl, ht⟩
      · obtain ⟨t, vs, rfl, ht, -⟩ := hus'.mark
        exact Or.inr ⟨t, vs, rfl, by rw [ht]; rfl⟩
      · exact Or.inr ⟨t, us ++ us', rfl, ht⟩
  | .number .., _, hts | .string .., _, hts | .bool .., _, hts | .null _, _, hts
  | .name .., _, hts | .call .., _, hts | .range .., _, hts | .binary .., _, hts
  | .unary .., _, hts => Or.inl hts.nil

/-- A place is read back after the name it starts with. -/
theorem reads_place {e : Expr} (hplace : e.isPlace = true) {t : Token} (ht : t.text = e.root)
    {ts : List Token} (hts : Spelled e.accessWords ts)
    (h : isOpen (Token.Cursor.kind ⟨rest, stop⟩) = false) :
    Reads (Stmt.designator t) ⟨ts ++ rest, stop⟩ ⟨rest, stop⟩ fun e' => e'.erased = e.erased := by
  rw [Stmt.designator, reads_remaining_bind]
  refine accesses_place e hplace (m := 1) hts ?_ (by simp [erased, ht]) fun fuel e' hfuel he' => ?_
  · simp only [List.length_append]
    omega
  · obtain ⟨fuel, rfl⟩ : ∃ k, fuel = k + 1 := ⟨fuel - 1, by omega⟩
    exact accesses_stop h fuel he'

end Expr

end PseudoCost
