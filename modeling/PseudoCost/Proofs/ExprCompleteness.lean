import PseudoCost.Proofs.ExprGrammar
import PseudoCost.Proofs.ExprReading
import PseudoCost.Proofs.ReadingBounds

/-!
# Every phrase is read

The converse of the grammar: tokens that write an expression down are read as that expression,
provided that the tokens after them cannot carry the expression on (`Phrase.run_read`).

What may follow depends on the level. `Cursor.joint?` is the level on which the tokens in front
would carry on an expression before them, and `Ends k` says that they do so on levels looser than
`k` only. A reader of level `k` is complete before any tokens that end a phrase of level `k`. That
is too weak for an induction where a level repeats, as the operands of the binary operators and the
bases of subscripts do: there the first part of a phrase is followed by a token of the same level.
So a reader of such a level is described together with what it still does once a first part of the
phrase is read (`more`), and what follows need only end phrases of the next level (`limit`).
-/

namespace PseudoCost

open Reading

/-! ## What carries an expression on -/

namespace Token.Cursor

/-- The level on which the tokens in front would carry on an expression before them. A parenthesis
would make a call of a name and is past all levels. -/
def joint? (c : Cursor) : Option Nat :=
  match c.kind with
  | .dotDot => some 0
  | .orWord => some 1
  | .andWord => some 2
  | .equal | .notEqual => some 3
  | .less | .lessEqual | .greater | .greaterEqual => some 4
  | .plus | .minus => some 5
  | .star | .slash | .divWord | .modWord => some 6
  | .caret => some 8
  | .lbracket => some 9
  | .dot => if c.nextKind = .ident ∨ c.nextKind = .lengthWord then some 9 else none
  | .lparen => some 11
  | _ => none

/-- The tokens in front end every phrase of the level. -/
def Ends (k : Nat) (c : Cursor) : Prop := ∀ j ∈ c.joint?, j < k

theorem Ends.mono {j k : Nat} {c : Cursor} (h : c.Ends j) (hjk : j ≤ k) : c.Ends k :=
  fun i hi => Nat.lt_of_lt_of_le (h i hi) hjk

theorem ends_of_some {j k : Nat} {c : Cursor} (h : c.joint? = some j) (hjk : j < k) :
    c.Ends k := by
  intro i hi
  rw [h] at hi
  cases hi
  exact hjk

theorem ends_of_none {k : Nat} {c : Cursor} (h : c.joint? = none) : c.Ends k := by
  intro i hi
  rw [h] at hi
  cases hi

theorem Ends.ne {j k : Nat} {c : Cursor} (h : c.Ends k) (hjk : k ≤ j) : c.joint? ≠ some j :=
  fun hj => absurd (h j hj) (Nat.not_lt.mpr hjk)

theorem joint?_of_mark {c : Cursor} (op : BinaryOp) (h : c.kind = op.mark) :
    c.joint? = some op.precedence := by
  rw [joint?, h]
  cases op <;> rfl

theorem Ends.ne_mark {c : Cursor} (op : BinaryOp) (h : c.Ends op.precedence) :
    c.kind ≠ op.mark := fun hkind => h.ne (Nat.le_refl _) (joint?_of_mark op hkind)

end Token.Cursor

namespace Expr

open Token (Cursor)

/-! ## First tokens -/

theorem precedence_bounds {op : BinaryOp} (hop : op ≠ .pow) :
    1 ≤ op.precedence ∧ op.precedence ≤ 6 := by
  cases op <;> first | exact absurd rfl hop | decide

theorem canStart_of_signOp? {k : Token.Kind} {op : UnaryOp} (h : signOp? k = some op) :
    canStart k = true := by
  cases k <;> simp_all [signOp?, canStart]

/-- A phrase starts with a token an expression can start with, and not with a sign unless it is on
the level of signs or looser. -/
theorem Phrase.exists_head : ∀ {k : Nat} {ts : List Token} {e : Expr}, Phrase k ts e →
    ∃ t us, ts = t :: us ∧ canStart t.kind = true ∧ (8 ≤ k → signOp? t.kind = none)
  | k, _, _, .looser h => by
      obtain ⟨t, us, rfl, ht, hsign⟩ := h.exists_head
      exact ⟨t, us, rfl, ht, fun hk => hsign (Nat.le_succ_of_le hk)⟩
  | _, _, _, .range h _ _ => by
      obtain ⟨t, us, rfl, ht, -⟩ := h.exists_head
      exact ⟨t, _, rfl, ht, fun hk => absurd hk (by decide)⟩
  | _, _, _, .binary hop h _ _ => by
      obtain ⟨t, us, rfl, ht, -⟩ := h.exists_head
      exact ⟨t, _, rfl, ht, fun hk =>
        absurd (hk.trans (precedence_bounds hop).2) (by decide)⟩
  | _, _, _, .sign ht _ =>
      ⟨_, _, rfl, canStart_of_signOp? ht, fun hk => absurd hk (by decide)⟩
  | _, _, _, .power h _ _ | _, _, _, .index h _ _ _ | _, _, _, .field h _ _ => by
      obtain ⟨t, us, rfl, ht, hsign⟩ := h.exists_head
      exact ⟨t, _, rfl, ht, fun _ => hsign (by decide)⟩
  | _, _, _, .number ht _ | _, _, _, .string ht | _, _, _, .trueWord ht | _, _, _, .falseWord ht
  | _, _, _, .null ht | _, _, _, .name ht | _, _, _, .call ht _ | _, _, _, .length ht _
  | _, _, _, .explicitCall ht _ _ | _, _, _, .bareCall ht _ | _, _, _, .parens ht _ _
  | _, _, _, .ceil ht _ _ | _, _, _, .floor ht _ _ =>
      ⟨_, _, rfl, by rw [ht]; rfl, fun _ => by rw [ht]; rfl⟩

theorem Phrase.length_pos {k : Nat} {ts : List Token} {e : Expr} (h : Phrase k ts e) :
    0 < ts.length := by
  obtain ⟨t, us, rfl, -⟩ := h.exists_head
  exact Nat.succ_pos _

theorem Items.exists_head {ts : List Token} {es : List Expr} (h : Items ts es) :
    ∃ t us, ts = t :: us ∧ canStart t.kind = true := by
  cases h with
  | last he =>
      obtain ⟨t, us, rfl, ht, -⟩ := he.exists_head
      exact ⟨t, us, rfl, ht⟩
  | cons he _ _ =>
      obtain ⟨t, us, rfl, ht, -⟩ := he.exists_head
      exact ⟨t, _, rfl, ht⟩

/-! ## Readers by level -/

/-- All the operators of one level that follow, with their right operands. -/
def chained (op? : Token.Kind → Option BinaryOp) (operand : Reading Expr) (lhs : Expr) :
    Reading Expr := do chain op? operand ((← remaining) + 1) lhs

/-- All the subscripts and fields that follow. -/
def accessed (expr : Reading Expr) (base : Expr) : Reading Expr := do
  accesses expr ((← remaining) + 1) base

/-- The reader of a level, with a bound on the nested readings below it. -/
def readAt (depth : Nat) : Nat → Reading Expr
  | 0 => readWithin (depth + 2)
  | 8 => powerLevel (readWithin depth) (readSign depth)
  | 9 => primary (readWithin depth) >>= accessed (readWithin depth)
  | 10 => primary (readWithin depth)
  | k => (levels.drop (k - 1)).foldr level (readSign (depth + 1))

/-- What the reader of a level does after a first part of the phrase, where the level repeats. -/
def more (depth : Nat) : Nat → Expr → Reading Expr
  | 0 => pure
  | 9 => accessed (readWithin depth)
  | k + 1 =>
    match levels[k]? with
    | some op? => chained op? (readAt depth (k + 2))
    | none => pure

/-- Where the tokens after a phrase have to end it: one level tighter where the level repeats. -/
def limit (k : Nat) : Nat := if 1 ≤ k ∧ k ≤ 6 ∨ k = 9 then k + 1 else k

theorem le_limit (k : Nat) : k ≤ limit k := by
  rw [limit]
  split <;> omega

theorem limit_le (k : Nat) : limit k ≤ k + 1 := by
  rw [limit]
  split <;> omega

/-- The other levels do not repeat. -/
theorem more_eq_pure {depth k : Nat} (hbinary : ¬ (1 ≤ k ∧ k ≤ 6)) (hnine : k ≠ 9) :
    more depth k = pure := by
  unfold more
  split
  case h_1 => rfl
  case h_2 => exact absurd rfl hnine
  case h_3 j _ =>
    have hj : levels.length ≤ j := by
      change 6 ≤ j
      omega
    rw [List.getElem?_eq_none hj]

/-- A binary level knows the operators of its precedence, and repeats. -/
theorem exists_level {k : Nat} (hk : 1 ≤ k ∧ k ≤ 6) :
    ∃ op?, OnLevel k op? ∧ (∀ op : BinaryOp, op.precedence = k → op? op.mark = some op)
      ∧ ∀ depth, readAt depth k = level op? (readAt depth (k + 1))
        ∧ more depth k = chained op? (readAt depth (k + 1)) := by
  obtain ⟨hlow, hhigh⟩ := hk
  obtain ⟨k, rfl⟩ : ∃ j, k = j + 1 := ⟨k - 1, by omega⟩
  have hlength : k < levels.length := Nat.lt_of_succ_le hhigh
  refine ⟨levels[k], onLevel_levels k hlength, ?_, ?_⟩
  · intro op hop
    cases op <;> cases hop <;> first | rfl | exact absurd hhigh (by decide)
  · intro depth
    clear hlow
    have hk : k < 6 := hhigh
    clear hhigh
    interval_cases k <;> exact ⟨rfl, rfl⟩

section Steps

variable {c : Cursor} {stop : Token} {ts : List Token} {expr operand : Reading Expr}

instance forward_accessed [Forward expr] (base : Expr) : Forward (accessed expr base) := by
  unfold accessed
  infer_instance

instance forward_readAt (depth k : Nat) : Forward (readAt depth k) := by
  unfold readAt
  split <;> infer_instance

theorem run_chained_stops {op? : Token.Kind → Option BinaryOp} (h : op? c.kind = none)
    (lhs : Expr) : (chained op? operand lhs).run c = .ok (lhs, c) := by
  rw [chained, run_remaining_bind, run_chain_of_none _ lhs h]

theorem run_chained_cons [Forward operand] {k : Nat} {op? : Token.Kind → Option BinaryOp}
    (hlevel : OnLevel k op?) {op : BinaryOp} (hstop : stop.kind = .eof) {t : Token}
    (h : op? t.kind = some op) (lhs : Expr) :
    (chained op? operand lhs).run ⟨t :: ts, stop⟩
      = (operand >>= fun rhs => chained op? operand (.binary t.pos op lhs rhs)).run ⟨ts, stop⟩ := by
  have heof : op? .eof = none := by
    cases heof : op? .eof with
    | none => rfl
    | some op =>
        have hmark := (hlevel _ _ heof).2.1
        cases op <;> cases hmark
  rw [chained, run_remaining_bind, List.length_cons, chain, run_kind_bind, Cursor.kind_cons, h]
  change (operand >>= fun rhs => chain op? operand (ts.length + 1) (.binary t.pos op lhs rhs)).run
    ⟨ts, stop⟩ = _
  refine run_bind_congr fun rhs d hrhs => ?_
  have hd := Forward.length_le hrhs
  rw [chained, run_remaining_bind]
  exact run_chain heof (by rw [Forward.stop_eq hrhs]; exact hstop) (Nat.lt_succ_of_le hd)
    (Nat.lt_succ_self _) _

theorem run_accessed_stops (h : c.Ends 9) (base : Expr) :
    (accessed expr base).run c = .ok (base, c) := by
  have hbracket : c.kind ≠ .lbracket := by
    intro hkind
    exact h.ne (Nat.le_refl _) (by rw [Cursor.joint?, hkind])
  rw [accessed, run_remaining_bind, accesses, run_kind_bind]
  split
  case h_1 hkind => exact absurd hkind hbracket
  case h_2 hkind =>
    rw [run_nextKind_bind, if_neg]
    · rfl
    · intro hnext
      exact h.ne (Nat.le_refl _) (by rw [Cursor.joint?, hkind]; exact if_pos hnext)
  case h_3 => rfl

theorem run_accessed_index [Forward expr] (hstop : stop.kind = .eof) {t : Token}
    (h : t.kind = .lbracket) (base : Expr) :
    (accessed expr base).run ⟨t :: ts, stop⟩
      = (do
          let subscripts ← items expr
          let _ ← expect .rbracket "']'"
          accessed expr (subscripts.foldl (fun b i => .index t.pos b i) base)).run ⟨ts, stop⟩ := by
  rw [accessed, run_remaining_bind, List.length_cons, accesses, run_kind_bind, Cursor.kind_cons, h]
  change (items expr >>= fun subscripts => expect .rbracket "']'" >>= fun _ =>
    accesses expr (ts.length + 1)
      (subscripts.foldl (fun b i => .index t.pos b i) base)).run ⟨ts, stop⟩ = _
  refine run_bind_congr fun subscripts d hitems => run_bind_congr fun _ e hclose => ?_
  have hd := Forward.length_le hitems
  have he := Forward.length_le hclose
  rw [accessed, run_remaining_bind]
  refine run_accesses ?_ (Nat.lt_succ_of_le (he.trans hd)) (Nat.lt_succ_self _) _
  rw [Forward.stop_eq hclose, Forward.stop_eq hitems]
  exact hstop

theorem run_accessed_field [Forward expr] (hstop : stop.kind = .eof) {t f : Token}
    (h : t.kind = .dot) (hf : f.kind = .ident ∨ f.kind = .lengthWord) (base : Expr) :
    (accessed expr base).run ⟨t :: f :: ts, stop⟩
      = (accessed expr (.field t.pos base f.text)).run ⟨ts, stop⟩ := by
  rw [accessed, run_remaining_bind, List.length_cons, accesses, run_kind_bind, Cursor.kind_cons, h]
  dsimp only
  rw [run_nextKind_bind, Cursor.nextKind_cons, if_pos hf]
  have hbound : ts.length < (f :: ts).length + 1 := by
    rw [List.length_cons]
    omega
  rw [accessed, run_remaining_bind]
  exact run_accesses (c := ⟨ts, stop⟩) hstop hbound (Nat.lt_succ_self _) _

/-- The base of a power is read like any other expression on the level below. -/
theorem run_powerLevel [Forward expr] {sign : Reading Expr} (hstop : c.stop.kind = .eof) :
    (powerLevel expr sign).run c = ((primary expr >>= accessed expr) >>= fun base => do
      if (← kind) = .caret then
        let t ← take
        let exponent ← sign
        return .binary t.pos .pow base exponent
      else return base).run c := by
  rw [powerLevel, run_remaining_bind, bind_assoc]
  refine run_bind_congr fun base d hbase => ?_
  have hd := Forward.length_le hbase
  rw [StateT.run_bind, StateT.run_bind, accessed, run_remaining_bind,
    run_accesses (by rw [Forward.stop_eq hbase]; exact hstop) (Nat.lt_succ_of_le hd)
      (Nat.lt_succ_self _) base]

theorem run_procedureName_bind {β : Type} {t : Token} (h : t.kind = .ident ∨ t.kind = .swapWord)
    {f : Token → Reading β} :
    (procedureName >>= f).run ⟨t :: ts, stop⟩ = (f t).run ⟨ts, stop⟩ := by
  refine run_bind_ok ?_
  rw [procedureName, run_kind_bind, Cursor.kind_cons]
  rcases h with h | h
  · rw [if_neg (by rw [h]; decide)]
    exact run_expect h
  · rw [if_pos h]
    rfl

theorem run_arguments_bare (h : c.kind ≠ .lparen) :
    (arguments expr true).run c = .ok ([], c) := by
  simp only [arguments, Bool.true_and, run_kind_bind]
  rw [if_pos (by simpa using h)]
  rfl

theorem run_arguments_cons {t : Token} (h : t.kind = .lparen) (explicit : Bool) :
    (arguments expr explicit).run ⟨t :: ts, stop⟩
      = ((do if (← kind) = Token.Kind.rparen then pure [] else items expr) >>= fun args => do
          let _ ← expect .rparen "')'"
          return args).run ⟨ts, stop⟩ := by
  have hexpect := @run_expect ⟨t :: ts, stop⟩ _ "'('" h
  cases explicit with
  | false =>
      simp only [arguments, Bool.false_and, Bool.false_eq_true, if_false, run_bind_ok hexpect,
        run_kind_bind, Cursor.advance_cons, bind_assoc]
      split <;> rfl
  | true =>
      have hparen : (t.kind != .lparen) = false := by rw [h]; rfl
      simp only [arguments, Bool.true_and, run_kind_bind, Cursor.kind_cons, hparen,
        Bool.false_eq_true, if_false, run_bind_ok hexpect, Cursor.advance_cons, bind_assoc]
      split <;> rfl

/-- After a comma the further items are read like the items of a list. -/
theorem run_moreItems_cons {α : Type} {item : Reading α} [Forward item] (hstop : stop.kind = .eof)
    {t : Token} (h : t.kind = .comma) :
    (do moreItems item ((← remaining) + 1)).run ⟨t :: ts, stop⟩ = (items item).run ⟨ts, stop⟩ := by
  rw [run_remaining_bind, List.length_cons, moreItems,
    run_bind_ok (run_accept (c := ⟨t :: ts, stop⟩) h), if_pos rfl, items]
  refine run_bind_congr (c := ⟨ts, stop⟩) fun x d hx => ?_
  have hd := Forward.length_le hx
  rw [run_remaining_bind, StateT.run_bind, StateT.run_bind,
    run_moreItems (by rw [Forward.stop_eq hx]; exact hstop) (Nat.lt_succ_of_le hd)
      (Nat.lt_succ_self _)]

end Steps

/-! ## Phrases are read -/

variable {stop : Token} {depth k : Nat} {ts rest : List Token} {e : Expr}

/-- The reader of a level takes the tokens for a first part of a phrase, the expression `e`, and
goes on from there. -/
def Hands (stop : Token) (depth k : Nat) (ts : List Token) (e : Expr) : Prop :=
  ∀ rest, Cursor.Ends (limit k) ⟨rest, stop⟩ →
    (readAt depth k).run ⟨ts ++ rest, stop⟩ = (more depth k e).run ⟨rest, stop⟩

theorem more_stops {c : Cursor} (h : c.Ends k) : (more depth k e).run c = .ok (e, c) := by
  by_cases hk : 1 ≤ k ∧ k ≤ 6
  · obtain ⟨op?, hlevel, -, hmore⟩ := exists_level hk
    rw [(hmore depth).2]
    refine run_chained_stops ?_ e
    cases hop : op? c.kind with
    | none => rfl
    | some op =>
        obtain ⟨-, hmark, rfl⟩ := hlevel _ _ hop
        exact absurd hmark (h.ne_mark op)
  · by_cases hnine : k = 9
    · rw [hnine] at h ⊢
      exact run_accessed_stops h e
    · rw [more_eq_pure hk hnine]
      rfl

theorem Hands.complete (h : Hands stop depth k ts e) (hends : Cursor.Ends k ⟨rest, stop⟩) :
    (readAt depth k).run ⟨ts ++ rest, stop⟩ = .ok (e, ⟨rest, stop⟩) := by
  rw [h rest (hends.mono (le_limit k)), more_stops hends]

theorem Phrase.le_ten : ∀ {k : Nat} {ts : List Token} {e : Expr}, Phrase k ts e → k ≤ 10
  | _, _, _, .looser h => Nat.le_of_succ_le h.le_ten
  | _, _, _, .binary _ h _ _ => h.le_ten
  | _, _, _, .range .. | _, _, _, .sign .. | _, _, _, .power .. | _, _, _, .index ..
  | _, _, _, .field .. | _, _, _, .number .. | _, _, _, .string _ | _, _, _, .trueWord _
  | _, _, _, .falseWord _ | _, _, _, .null _ | _, _, _, .name _ | _, _, _, .call ..
  | _, _, _, .length .. | _, _, _, .explicitCall .. | _, _, _, .bareCall .. | _, _, _, .parens ..
  | _, _, _, .ceil .. | _, _, _, .floor .. => by decide

/-- A first part of a phrase of one level is a first part on the next looser level. -/
theorem Hands.looser (hstop : stop.kind = .eof) (hphrase : Phrase (k + 1) ts e)
    (h : Hands stop depth (k + 1) ts e) : Hands stop depth k ts e := by
  intro rest hends
  have hrun := h.complete (hends.mono (limit_le k))
  have hten := hphrase.le_ten
  by_cases hk : 1 ≤ k ∧ k ≤ 6
  · obtain ⟨op?, -, -, hlevel⟩ := exists_level hk
    obtain ⟨hread, hmore⟩ := hlevel depth
    rw [hread, hmore, level, run_bind_ok hrun]
    rfl
  obtain rfl | rfl | rfl | rfl : k = 0 ∨ k = 7 ∨ k = 8 ∨ k = 9 := by omega
  · change (rangeLevel (readAt depth 1)).run _ = _
    have hdots : Cursor.kind ⟨rest, stop⟩ ≠ .dotDot := fun hkind =>
      Cursor.Ends.ne hends (Nat.le_refl 0) (by rw [Cursor.joint?, hkind])
    rw [rangeLevel, run_bind_ok hrun, run_kind_bind, if_neg hdots]
    rfl
  · change (readSign (depth + 1)).run _ = _
    obtain ⟨t, us, rfl, -, hsign⟩ := hphrase.exists_head
    rw [readSign, run_kind_bind, List.cons_append, Cursor.kind_cons, hsign (by decide)]
    exact hrun
  · change (powerLevel (readWithin depth) (readSign depth)).run _ = _
    have hcaret : Cursor.kind ⟨rest, stop⟩ ≠ .caret := fun hkind =>
      Cursor.Ends.ne_mark .pow hends hkind
    rw [run_powerLevel hstop]
    change (readAt depth 9 >>= _).run _ = _
    rw [run_bind_ok hrun, run_kind_bind, if_neg hcaret]
    rfl
  · change (readAt depth 10 >>= accessed (readWithin depth)).run _ = _
    rw [run_bind_ok hrun]
    rfl

/-- A nested expression is read within a bound that counts its tokens. -/
theorem Hands.run_readWithin {n : Nat} (hpos : 0 < ts.length) (hdepth : ts.length + 1 ≤ n)
    (h : ∀ depth, ts.length ≤ depth + 1 → Hands stop depth 0 ts e)
    (hends : Cursor.joint? ⟨rest, stop⟩ = none) :
    (readWithin n).run ⟨ts ++ rest, stop⟩ = .ok (e, ⟨rest, stop⟩) := by
  obtain ⟨depth, rfl⟩ : ∃ depth, n = depth + 2 := ⟨n - 2, by omega⟩
  exact (h depth (by omega)).complete (Cursor.ends_of_none hends)

/-- A nested expression is read up to the bracket that closes it. -/
theorem Hands.run_enclosed {n : Nat} (hpos : 0 < ts.length) (hdepth : ts.length + 1 ≤ n)
    (h : ∀ depth, ts.length ≤ depth + 1 → Hands stop depth 0 ts e) {t : Token} {k : Token.Kind}
    (ht : t.kind = k) (hclosing : isClosing k = true) (expected : Text) (rest : List Token)
    (g : Expr → Expr) :
    (do
      let inner ← readWithin n
      let _ ← expect k expected
      return g inner).run ⟨ts ++ [t] ++ rest, stop⟩ = .ok (g e, ⟨rest, stop⟩) := by
  have hjoint : Cursor.joint? ⟨t :: rest, stop⟩ = none := by
    rw [Cursor.joint?, Cursor.kind_cons, ht]
    cases k <;> first | rfl | cases hclosing
  rw [List.append_assoc, List.cons_append, List.nil_append,
    run_bind_ok (run_readWithin hpos hdepth h hjoint),
    run_bind_ok (run_expect (c := ⟨t :: rest, stop⟩) ht)]
  rfl

/-- What is on the tightest level is read without looking at the tokens after it, but for a
parenthesis. -/
theorem Hands.of_primary (h : ∀ rest, Cursor.kind ⟨rest, stop⟩ ≠ .lparen →
    (primary (readWithin depth)).run ⟨ts ++ rest, stop⟩ = .ok (e, ⟨rest, stop⟩)) :
    Hands stop depth 10 ts e := by
  intro rest hends
  refine h rest fun hkind => ?_
  exact Cursor.Ends.ne (j := 11) hends (by decide) (by rw [Cursor.joint?, hkind])

section Constructs

variable {us vs : List Token} {t t' : Token} {low high lhs rhs operand base exponent : Expr}

theorem Hands.range (hlow : Hands stop depth 1 us low) (ht : t.kind = .dotDot)
    (hhigh : Hands stop depth 1 vs high) :
    Hands stop depth 0 (us ++ t :: vs) (.range t.pos low high) := by
  intro rest hends
  have hdots : Cursor.Ends 1 ⟨t :: (vs ++ rest), stop⟩ :=
    Cursor.ends_of_some (j := 0) (by rw [Cursor.joint?, Cursor.kind_cons, ht]) (by decide)
  change (rangeLevel (readAt depth 1)).run _ = _
  rw [rangeLevel, List.append_assoc, List.cons_append, run_bind_ok (hlow.complete hdots),
    run_kind_bind, Cursor.kind_cons, if_pos ht, run_take_bind, Cursor.advance_cons,
    run_bind_ok (hhigh.complete (hends.mono (Nat.zero_le 1)))]
  rfl

theorem Hands.binary {op : BinaryOp} (hstop : stop.kind = .eof) (hop : op ≠ .pow)
    (hlhs : Hands stop depth op.precedence us lhs) (ht : t.kind = op.mark)
    (hrhs : Hands stop depth (op.precedence + 1) vs rhs) :
    Hands stop depth op.precedence (us ++ t :: vs) (.binary t.pos op lhs rhs) := by
  have hk := precedence_bounds hop
  obtain ⟨op?, hlevel, hmark, hread⟩ := exists_level hk
  obtain ⟨-, hmore⟩ := hread depth
  have hlimit : limit op.precedence = op.precedence + 1 := if_pos (.inl hk)
  intro rest hends
  have hsign : Cursor.Ends (limit op.precedence) ⟨t :: (vs ++ rest), stop⟩ :=
    Cursor.ends_of_some (Cursor.joint?_of_mark op ht) (by omega)
  rw [List.append_assoc, List.cons_append, hlhs _ hsign, hmore,
    run_chained_cons hlevel hstop (by rw [ht, hmark op rfl]),
    run_bind_ok (hrhs.complete (hlimit ▸ hends))]

theorem Hands.sign {op : UnaryOp} (ht : signOp? t.kind = some op)
    (h : Hands stop depth 7 us operand) :
    Hands stop (depth + 1) 7 (t :: us) (.unary t.pos op operand) := by
  intro rest hends
  change (readSign (depth + 2)).run _ = _
  rw [readSign, run_kind_bind, List.cons_append, Cursor.kind_cons, ht]
  change (readAt depth 7 >>= fun operand => pure (unary t.pos op operand)).run ⟨us ++ rest, stop⟩
    = _
  rw [run_bind_ok (h.complete hends)]
  rfl

theorem Hands.power (hstop : stop.kind = .eof) (hbase : Hands stop (depth + 1) 9 us base)
    (ht : t.kind = .caret) (hexponent : Hands stop depth 7 vs exponent) :
    Hands stop (depth + 1) 8 (us ++ t :: vs) (.binary t.pos .pow base exponent) := by
  intro rest hends
  have hcaret : Cursor.Ends 9 ⟨t :: (vs ++ rest), stop⟩ :=
    Cursor.ends_of_some (Cursor.joint?_of_mark .pow ht) (by decide)
  have hrest : Cursor.Ends 7 ⟨rest, stop⟩ := by
    intro j hj
    have hlt : j < 8 := hends j hj
    have hne : j ≠ 7 := by
      rintro rfl
      rw [Option.mem_def, Cursor.joint?] at hj
      split at hj <;> simp_all
    omega
  change (powerLevel (readWithin (depth + 1)) (readSign (depth + 1))).run _ = _
  rw [run_powerLevel hstop]
  change (readAt (depth + 1) 9 >>= _).run _ = _
  rw [List.append_assoc, List.cons_append, run_bind_ok (hbase.complete hcaret), run_kind_bind,
    Cursor.kind_cons, if_pos ht, run_take_bind, Cursor.advance_cons]
  change (readAt depth 7 >>= _).run _ = _
  rw [run_bind_ok (hexponent.complete hrest)]
  rfl

theorem Hands.index (hstop : stop.kind = .eof) (hbase : Hands stop depth 9 us base)
    (ht : t.kind = .lbracket) {subscripts : List Expr}
    (hitems : ∀ rest, (items (readWithin depth)).run ⟨vs ++ t' :: rest, stop⟩
      = .ok (subscripts, ⟨t' :: rest, stop⟩)) (ht' : t'.kind = .rbracket) :
    Hands stop depth 9 (us ++ t :: (vs ++ [t']))
      (subscripts.foldl (fun b i => .index t.pos b i) base) := by
  intro rest hends
  have hbracket : Cursor.Ends 10 ⟨t :: (vs ++ t' :: rest), stop⟩ :=
    Cursor.ends_of_some (j := 9) (by rw [Cursor.joint?, Cursor.kind_cons, ht]) (by decide)
  have happend : us ++ t :: (vs ++ [t']) ++ rest = us ++ t :: (vs ++ t' :: rest) := by simp
  rw [happend, hbase _ hbracket]
  change (accessed (readWithin depth) base).run _ = _
  rw [run_accessed_index hstop ht, run_bind_ok (hitems rest),
    run_bind_ok (run_expect (c := ⟨t' :: rest, stop⟩) ht')]
  rfl

theorem Hands.field {f : Token} (hstop : stop.kind = .eof) (hbase : Hands stop depth 9 us base)
    (ht : t.kind = .dot) (hf : f.kind = .ident ∨ f.kind = .lengthWord) :
    Hands stop depth 9 (us ++ [t, f]) (.field t.pos base f.text) := by
  intro rest hends
  have hdot : Cursor.Ends 10 ⟨t :: f :: rest, stop⟩ := by
    refine Cursor.ends_of_some (j := 9) ?_ (by decide)
    rw [Cursor.joint?, Cursor.kind_cons, ht]
    exact if_pos hf
  rw [List.append_assoc, List.cons_append, List.cons_append, List.nil_append, hbase _ hdot]
  change (accessed (readWithin depth) base).run _ = _
  rw [run_accessed_field hstop ht hf]
  rfl

end Constructs

mutual

/-- Every phrase is read on its level, within a bound that counts its tokens. -/
theorem Phrase.hands (hstop : stop.kind = .eof) : ∀ {k : Nat} {ts : List Token} {e : Expr},
    Phrase k ts e → ∀ depth, ts.length ≤ depth + 1 → Hands stop depth k ts e
  | _, _, _, .looser h, depth, hdepth => (h.hands hstop depth hdepth).looser hstop h
  | _, _, _, .range hlow ht hhigh, depth, hdepth => by
      rw [List.length_append, List.length_cons] at hdepth
      exact .range (hlow.hands hstop depth (by omega)) ht (hhigh.hands hstop depth (by omega))
  | _, _, _, .binary hop hlhs ht hrhs, depth, hdepth => by
      rw [List.length_append, List.length_cons] at hdepth
      exact .binary hstop hop (hlhs.hands hstop depth (by omega)) ht
        (hrhs.hands hstop depth (by omega))
  | _, _, _, .sign ht h, depth, hdepth => by
      have hpos := h.length_pos
      rw [List.length_cons] at hdepth
      obtain ⟨depth, rfl⟩ : ∃ d, depth = d + 1 := ⟨depth - 1, by omega⟩
      exact .sign ht (h.hands hstop depth (by omega))
  | _, _, _, .power hbase ht hexponent, depth, hdepth => by
      have hpos := hbase.length_pos
      have hpos' := hexponent.length_pos
      rw [List.length_append, List.length_cons] at hdepth
      obtain ⟨depth, rfl⟩ : ∃ d, depth = d + 1 := ⟨depth - 1, by omega⟩
      exact .power hstop (hbase.hands hstop _ (by omega)) ht
        (hexponent.hands hstop depth (by omega))
  | _, _, _, .index hbase ht hitems ht', depth, hdepth => by
      have hpos := hbase.length_pos
      simp only [List.length_append, List.length_cons, List.length_nil] at hdepth
      refine .index hstop (hbase.hands hstop depth (by omega)) ht (fun rest => ?_) ht'
      refine hitems.run_items hstop depth (by omega) ?_ ?_
      · rw [Cursor.joint?, Cursor.kind_cons, ht']
      · rw [Cursor.kind_cons, ht']
        decide
  | _, _, _, .field hbase ht hf, depth, hdepth => by
      rw [List.length_append] at hdepth
      exact .field hstop (hbase.hands hstop depth (by omega)) ht hf
  | _, _, _, .number ht hvalue, depth, hdepth => .of_primary fun rest _ => by
      rw [primary, run_peek_bind, List.cons_append, Cursor.peek_cons, ht]
      dsimp only
      rw [run_take_bind, hvalue]
      rfl
  | _, _, _, .string ht, depth, hdepth => .of_primary fun rest _ => by
      rw [primary, run_peek_bind, List.cons_append, Cursor.peek_cons, ht]
      rfl
  | _, _, _, .trueWord ht, depth, hdepth => .of_primary fun rest _ => by
      rw [primary, run_peek_bind, List.cons_append, Cursor.peek_cons, ht]
      rfl
  | _, _, _, .falseWord ht, depth, hdepth => .of_primary fun rest _ => by
      rw [primary, run_peek_bind, List.cons_append, Cursor.peek_cons, ht]
      rfl
  | _, _, _, .null ht, depth, hdepth => .of_primary fun rest _ => by
      rw [primary, run_peek_bind, List.cons_append, Cursor.peek_cons, ht]
      rfl
  | _, _, _, .name ht, depth, hdepth => .of_primary fun rest hparen => by
      rw [primary, run_peek_bind, List.cons_append, Cursor.peek_cons, ht]
      dsimp only
      rw [run_take_bind, run_kind_bind, Cursor.advance_cons, List.nil_append, if_neg hparen]
      rfl
  | _, _, _, @Phrase.call us _ _ ht hargs, depth, hdepth => .of_primary fun rest _ => by
      have hparen : Cursor.kind ⟨us ++ rest, stop⟩ = .lparen := by cases hargs <;> assumption
      rw [List.length_cons] at hdepth
      rw [primary, run_peek_bind, List.cons_append, Cursor.peek_cons, ht]
      dsimp only
      rw [run_take_bind, run_kind_bind, Cursor.advance_cons, if_pos hparen,
        run_bind_ok (hargs.run_arguments hstop depth (by omega) false rest)]
      rfl
  | _, _, _, .length ht hargs, depth, hdepth => .of_primary fun rest _ => by
      rw [List.length_cons] at hdepth
      rw [primary, run_peek_bind, List.cons_append, Cursor.peek_cons, ht]
      dsimp only
      rw [run_take_bind, Cursor.advance_cons,
        run_bind_ok (hargs.run_arguments hstop depth (by omega) false rest)]
      rfl
  | _, _, _, .explicitCall ht hu hargs, depth, hdepth => .of_primary fun rest _ => by
      simp only [List.length_cons] at hdepth
      rw [primary, run_peek_bind, List.cons_append, Cursor.peek_cons, ht]
      dsimp only
      rw [run_take_bind, Cursor.advance_cons, explicitCall, List.cons_append,
        run_procedureName_bind hu,
        run_bind_ok (hargs.run_arguments hstop depth (by omega) true rest)]
      rfl
  | _, _, _, .bareCall ht hu, depth, hdepth => .of_primary fun rest hparen => by
      rw [primary, run_peek_bind, List.cons_append, Cursor.peek_cons, ht]
      dsimp only
      rw [run_take_bind, Cursor.advance_cons, explicitCall, List.cons_append,
        run_procedureName_bind hu, List.nil_append, run_bind_ok (run_arguments_bare hparen)]
      rfl
  | _, _, _, .parens ht h ht', depth, hdepth => .of_primary fun rest _ => by
      simp only [List.length_append, List.length_cons, List.length_nil] at hdepth
      have hrun := Hands.run_enclosed h.length_pos (Nat.le_of_succ_le_succ hdepth)
        (h.hands hstop) ht' rfl "')'" rest
      rw [primary, run_peek_bind, List.cons_append, Cursor.peek_cons, ht]
      exact hrun fun inner => inner
  | _, _, _, .ceil ht h ht', depth, hdepth => .of_primary fun rest _ => by
      simp only [List.length_append, List.length_cons, List.length_nil] at hdepth
      have hrun := Hands.run_enclosed h.length_pos (Nat.le_of_succ_le_succ hdepth)
        (h.hands hstop) ht' rfl "'⌉'" rest
      rw [primary, run_peek_bind, List.cons_append, Cursor.peek_cons, ht]
      exact hrun _
  | _, _, _, .floor ht h ht', depth, hdepth => .of_primary fun rest _ => by
      simp only [List.length_append, List.length_cons, List.length_nil] at hdepth
      have hrun := Hands.run_enclosed h.length_pos (Nat.le_of_succ_le_succ hdepth)
        (h.hands hstop) ht' rfl "'⌋'" rest
      rw [primary, run_peek_bind, List.cons_append, Cursor.peek_cons, ht]
      exact hrun _

theorem Items.run_items (hstop : stop.kind = .eof) : ∀ {ts : List Token} {es : List Expr},
    Items ts es → ∀ depth, ts.length + 1 ≤ depth → ∀ {rest : List Token},
      Cursor.joint? ⟨rest, stop⟩ = none → Cursor.kind ⟨rest, stop⟩ ≠ .comma →
      (items (readWithin depth)).run ⟨ts ++ rest, stop⟩ = .ok (es, ⟨rest, stop⟩)
  | _, _, .last he, depth, hdepth, rest, hends, hcomma => by
      have hrun := Hands.run_readWithin he.length_pos hdepth (fun d hd => he.hands hstop d hd) hends
      rw [items, run_bind_ok hrun, run_remaining_bind, run_bind_ok (run_moreItems_of_ne _ hcomma)]
      rfl
  | _, _, @Items.cons us vs t e es he ht hes, depth, hdepth, rest, hends, hcomma => by
      rw [List.length_append, List.length_cons] at hdepth
      have hjoint : Cursor.joint? ⟨t :: (vs ++ rest), stop⟩ = none := by
        rw [Cursor.joint?, Cursor.kind_cons, ht]
      have hlength : us.length + 1 ≤ depth := by omega
      have hrun := Hands.run_readWithin he.length_pos hlength (he.hands hstop) hjoint
      have hmore := hes.run_items hstop depth (by omega) hends hcomma
      rw [← run_moreItems_cons hstop ht] at hmore
      rw [items, List.append_assoc, List.cons_append, run_bind_ok hrun, ← bind_assoc,
        run_bind_ok hmore]
      rfl

theorem Arguments.run_arguments (hstop : stop.kind = .eof) : ∀ {ts : List Token} {args : List Expr},
    Arguments ts args → ∀ depth, ts.length ≤ depth + 1 → ∀ explicit rest,
      (arguments (readWithin depth) explicit).run ⟨ts ++ rest, stop⟩ = .ok (args, ⟨rest, stop⟩)
  | _, _, @Arguments.none t t' ht ht', depth, hdepth, explicit, rest => by
      have hargs : (do
          if (← kind) = Token.Kind.rparen then pure [] else items (readWithin depth)).run
            ⟨t' :: rest, stop⟩ = .ok ([], ⟨t' :: rest, stop⟩) := by
        rw [run_kind_bind, Cursor.kind_cons, if_pos ht']
        rfl
      rw [List.cons_append, run_arguments_cons ht, List.cons_append, List.nil_append,
        run_bind_ok hargs, run_bind_ok (run_expect (c := ⟨t' :: rest, stop⟩) ht')]
      rfl
  | _, _, @Arguments.some us t t' args ht hes ht', depth, hdepth, explicit, rest => by
      simp only [List.length_append, List.length_cons, List.length_nil] at hdepth
      have hjoint : Cursor.joint? ⟨t' :: rest, stop⟩ = none := by
        rw [Cursor.joint?, Cursor.kind_cons, ht']
      have hcomma : Cursor.kind ⟨t' :: rest, stop⟩ ≠ .comma := by
        rw [Cursor.kind_cons, ht']
        decide
      have hitems := hes.run_items hstop depth (Nat.le_of_succ_le_succ hdepth) hjoint hcomma
      have hparen : Cursor.kind ⟨us ++ t' :: rest, stop⟩ ≠ .rparen := by
        obtain ⟨u, us, rfl, hu⟩ := hes.exists_head
        intro hkind
        rw [show u.kind = .rparen from hkind] at hu
        cases hu
      have hargs : (do
          if (← kind) = Token.Kind.rparen then pure [] else items (readWithin depth)).run
            ⟨us ++ t' :: rest, stop⟩ = .ok (args, ⟨t' :: rest, stop⟩) := by
        rw [run_kind_bind, if_neg hparen, hitems]
      rw [List.cons_append, run_arguments_cons ht, List.append_assoc, List.cons_append,
        List.nil_append, run_bind_ok hargs, run_bind_ok (run_expect (c := ⟨t' :: rest, stop⟩) ht')]
      rfl

end

/-! ## Expressions -/

/-- Tokens that write an expression down are read as that expression, if the tokens after them
cannot carry it on. -/
theorem Phrase.run_read (hstop : stop.kind = .eof) (h : Phrase 0 ts e)
    (hends : Cursor.joint? ⟨rest, stop⟩ = none) :
    read.run ⟨ts ++ rest, stop⟩ = .ok (e, ⟨rest, stop⟩) := by
  rw [read, run_remaining_bind, List.length_append]
  exact Hands.run_readWithin h.length_pos (by omega) (h.hands hstop) hends

end Expr

end PseudoCost
