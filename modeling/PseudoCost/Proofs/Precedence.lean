import PseudoCost.Proofs.ExprCompleteness

/-!
# Precedence

An expression is written down with the fewest parentheses: `Expr.wordsAt k` are its words where the
grammar asks for level `k`, and it stands in parentheses only if its own level is looser. The levels
are those of `Expr.Phrase`: `..` is on level 0, `or` on 1, `and` on 2, `=` and `<>` on 3, the other
comparisons on 4, sums on 5, products on 6, signs and `not` on 7, `^` on 8, subscripts and fields on
9, everything else on 10.

Whatever tokens spell these words, they are read back as the expression, up to positions, and
exactly these tokens are taken (`reads_wordsAt`).
-/

namespace PseudoCost

open Reading

/-! ## Words by level -/

/-- The words of something on level `own` where the grammar asks for level `k`. -/
def bracketed (k own : Nat) (words : List Word) : List Word :=
  if k ≤ own then words else inParens words

namespace BinaryOp

/-- The level of a left operand: the operator's own, except that the base of a power has to be on
the level of subscripts. -/
def leftLevel (op : BinaryOp) : Nat := if op = .pow then 9 else op.precedence

/-- The level of a right operand: the next one, except that an exponent may have a sign. -/
def rightLevel (op : BinaryOp) : Nat := if op = .pow then 7 else op.precedence + 1

end BinaryOp

namespace Expr

mutual

/-- The words of an expression where the grammar asks for level `k`. -/
def wordsAt (k : Nat) : Expr → List Word
  | .number _ value => [.number value]
  | .string _ value => [.string value]
  | .bool _ value => [.mark (if value then .trueWord else .falseWord)]
  | .null _ => [.mark .nullWord]
  | .name _ n => [.ident n]
  | .call _ callee true args => .mark .callWord :: .procedure callee :: inParens (itemWords args)
  | .call _ callee false args => .function callee :: inParens (itemWords args)
  | .index _ base subscript =>
    bracketed k 9 (base.wordsAt 9 ++ .mark .lbracket :: (subscript.wordsAt 0 ++ [.mark .rbracket]))
  | .field _ base f => bracketed k 9 (base.wordsAt 9 ++ [.mark .dot, .member f])
  | .range _ low high => bracketed k 0 (low.wordsAt 1 ++ .mark .dotDot :: high.wordsAt 1)
  | .binary _ op lhs rhs =>
    bracketed k op.precedence
      (lhs.wordsAt op.leftLevel ++ .mark op.mark :: rhs.wordsAt op.rightLevel)
  | .unary _ .neg operand => bracketed k 7 (.mark .minus :: operand.wordsAt 7)
  | .unary _ .plus operand => bracketed k 7 (.mark .plus :: operand.wordsAt 7)
  | .unary _ .not operand => bracketed k 7 (.mark .notWord :: operand.wordsAt 7)
  | .unary _ .ceil operand => .mark .lceil :: (operand.wordsAt 0 ++ [.mark .rceil])
  | .unary _ .floor operand => .mark .lfloor :: (operand.wordsAt 0 ++ [.mark .rfloor])

/-- The words of some expressions, separated by commas. -/
def itemWords : List Expr → List Word
  | [] => []
  | e :: es => e.wordsAt 0 ++ laterWords es

/-- The words of the expressions after the first one, a comma before each. -/
def laterWords : List Expr → List Word
  | [] => []
  | e :: es => .mark .comma :: (e.wordsAt 0 ++ laterWords es)

end

/-! ## Tokens of words -/

/-- Each token is what its word says. -/
abbrev Spells (words : List Word) (tokens : List Token) : Prop :=
  List.Forall₂ Word.SpelledBy words tokens

namespace Spells

variable {ws ws' : List Word} {ts : List Token}

theorem append (h : Spells (ws ++ ws') ts) :
    ∃ us vs, ts = us ++ vs ∧ Spells ws us ∧ Spells ws' vs := by
  refine ⟨ts.take ws.length, ts.drop ws.length, (List.take_append_drop ..).symm, ?_, ?_⟩
  · simpa using List.forall₂_take ws.length h
  · simpa using List.forall₂_drop ws.length h

theorem mark {k : Token.Kind} (h : Spells (.mark k :: ws) ts) :
    ∃ t us, ts = t :: us ∧ t.kind = k ∧ Spells ws us := by
  obtain ⟨t, us, ht, hus, rfl⟩ := List.forall₂_cons_left_iff.mp h
  exact ⟨t, us, rfl, ht.2, hus⟩

theorem closed {k : Token.Kind} (h : Spells (ws ++ [.mark k]) ts) :
    ∃ us t, ts = us ++ [t] ∧ Spells ws us ∧ t.kind = k := by
  obtain ⟨us, vs, rfl, hus, hvs⟩ := append h
  obtain ⟨t, vs, rfl, ht, hvs⟩ := mark hvs
  rw [List.forall₂_nil_left_iff.mp hvs]
  exact ⟨us, t, rfl, hus, ht⟩

theorem inParens (h : Spells (PseudoCost.inParens ws) ts) :
    ∃ t us t', ts = t :: (us ++ [t']) ∧ t.kind = .lparen ∧ Spells ws us ∧ t'.kind = .rparen := by
  obtain ⟨t, us, rfl, ht, hus⟩ := mark h
  obtain ⟨us, t', rfl, hus, ht'⟩ := closed hus
  exact ⟨t, us, t', rfl, ht, hus, ht'⟩

end Spells

/-! ## Words are phrases -/

/-- The tokens are a phrase for the expression, up to positions. -/
def Writes (k : Nat) (ts : List Token) (e : Expr) : Prop :=
  ∃ e', Phrase k ts e' ∧ e'.erased = e.erased

theorem Writes.mono {j k : Nat} {ts : List Token} {e : Expr} (h : Writes k ts e) (hjk : j ≤ k) :
    Writes j ts e := by
  obtain ⟨e', hphrase, he'⟩ := h
  exact ⟨e', hphrase.mono hjk, he'⟩

theorem writes_bracketed {k own : Nat} {ws : List Word} {ts : List Token} {e : Expr} (hk : k ≤ 10)
    (h : Spells (bracketed k own ws) ts) (hws : ∀ us, Spells ws us → Writes own us e) :
    Writes k ts e := by
  rw [bracketed] at h
  split at h
  case isTrue hown => exact (hws ts h).mono hown
  case isFalse =>
    obtain ⟨t, us, t', rfl, ht, hus, ht'⟩ := Spells.inParens h
    obtain ⟨e', hphrase, he'⟩ := (hws us hus).mono (Nat.zero_le own)
    exact ⟨e', (Phrase.parens ht hphrase ht').mono hk, he'⟩

theorem writes_sign {k : Nat} {op : UnaryOp} {sign : Token.Kind} {ws : List Word} {ts : List Token}
    {operand : Expr} (pos : Pos) (hk : k ≤ 10) (hsign : signOp? sign = some op)
    (h : Spells (bracketed k 7 (.mark sign :: ws)) ts)
    (hws : ∀ us, Spells ws us → Writes 7 us operand) : Writes k ts (.unary pos op operand) := by
  refine writes_bracketed hk h fun us hus => ?_
  obtain ⟨t, us, rfl, ht, hus⟩ := Spells.mark hus
  obtain ⟨e', hphrase, he'⟩ := hws us hus
  exact ⟨_, .sign (ht ▸ hsign) hphrase, by rw [erased, erased, he']⟩

mutual

theorem writes_wordsAt : ∀ (e : Expr) {k : Nat} {ts : List Token}, k ≤ 10 →
    Spells (e.wordsAt k) ts → Writes k ts e
  | .number pos value, k, ts, hk, h => by
      obtain ⟨t, us, ⟨-, ht, hvalue⟩, hus, rfl⟩ := List.forall₂_cons_left_iff.mp h
      rw [List.forall₂_nil_left_iff.mp hus]
      exact Writes.mono ⟨_, .number ht hvalue, rfl⟩ hk
  | .string pos value, k, ts, hk, h => by
      obtain ⟨t, us, ⟨-, ht, rfl⟩, hus, rfl⟩ := List.forall₂_cons_left_iff.mp h
      rw [List.forall₂_nil_left_iff.mp hus]
      exact Writes.mono ⟨_, .string ht, rfl⟩ hk
  | .bool pos value, k, ts, hk, h => by
      obtain ⟨t, us, rfl, ht, hus⟩ := Spells.mark h
      rw [List.forall₂_nil_left_iff.mp hus]
      cases value with
      | true => exact Writes.mono ⟨_, .trueWord ht, rfl⟩ hk
      | false => exact Writes.mono ⟨_, .falseWord ht, rfl⟩ hk
  | .null pos, k, ts, hk, h => by
      obtain ⟨t, us, rfl, ht, hus⟩ := Spells.mark h
      rw [List.forall₂_nil_left_iff.mp hus]
      exact Writes.mono ⟨_, .null ht, rfl⟩ hk
  | .name pos n, k, ts, hk, h => by
      obtain ⟨t, us, ⟨-, ht, rfl⟩, hus, rfl⟩ := List.forall₂_cons_left_iff.mp h
      rw [List.forall₂_nil_left_iff.mp hus]
      exact Writes.mono ⟨_, .name ht, rfl⟩ hk
  | .call pos callee true args, k, ts, hk, h => by
      obtain ⟨t, us, rfl, ht, hcall⟩ := Spells.mark h
      obtain ⟨u, us, ⟨-, hu, rfl⟩, hus, rfl⟩ := List.forall₂_cons_left_iff.mp hcall
      obtain ⟨args', hargs, heq⟩ := arguments_itemWords args hus
      exact Writes.mono ⟨_, .explicitCall ht hu hargs, by rw [erased, erased, heq]⟩ hk
  | .call pos callee false args, k, ts, hk, h => by
      obtain ⟨t, us, ⟨-, ht⟩, hus, rfl⟩ := List.forall₂_cons_left_iff.mp h
      obtain ⟨args', hargs, heq⟩ := arguments_itemWords args hus
      rcases ht with ⟨ht, rfl⟩ | ⟨ht, rfl⟩
      · exact Writes.mono ⟨_, .call ht hargs, by rw [erased, erased, heq]⟩ hk
      · exact Writes.mono ⟨_, .length ht hargs, by rw [erased, erased, heq]⟩ hk
  | .index pos base subscript, k, ts, hk, h => by
      refine writes_bracketed hk h fun us hwords => ?_
      obtain ⟨us, vs, rfl, hus, hrest⟩ := Spells.append hwords
      obtain ⟨t, vs, rfl, ht, hvs⟩ := Spells.mark hrest
      obtain ⟨vs, t', rfl, hsub, ht'⟩ := Spells.closed hvs
      obtain ⟨base', hbase, hbase'⟩ := writes_wordsAt base (by decide) hus
      obtain ⟨subscript', hsubscript, hsubscript'⟩ := writes_wordsAt subscript (by decide) hsub
      exact ⟨_, .index hbase ht (.last hsubscript) ht', by
        simp [erased, hbase', hsubscript']⟩
  | .field pos base f, k, ts, hk, h => by
      refine writes_bracketed hk h fun us hwords => ?_
      obtain ⟨us, vs, rfl, hus, hrest⟩ := Spells.append hwords
      obtain ⟨t, vs, rfl, ht, hvs⟩ := Spells.mark hrest
      obtain ⟨u, vs, ⟨-, hu, rfl⟩, hnil, rfl⟩ := List.forall₂_cons_left_iff.mp hvs
      rw [List.forall₂_nil_left_iff.mp hnil]
      obtain ⟨base', hbase, hbase'⟩ := writes_wordsAt base (by decide) hus
      exact ⟨_, .field hbase ht hu, by rw [erased, erased, hbase']⟩
  | .range pos low high, k, ts, hk, h => by
      refine writes_bracketed hk h fun us hwords => ?_
      obtain ⟨us, vs, rfl, hus, hrest⟩ := Spells.append hwords
      obtain ⟨t, vs, rfl, ht, hvs⟩ := Spells.mark hrest
      obtain ⟨low', hlow, hlow'⟩ := writes_wordsAt low (by decide) hus
      obtain ⟨high', hhigh, hhigh'⟩ := writes_wordsAt high (by decide) hvs
      exact ⟨_, .range hlow ht hhigh, by rw [erased, erased, hlow', hhigh']⟩
  | .binary pos op lhs rhs, k, ts, hk, h => by
      refine writes_bracketed hk h fun us hwords => ?_
      obtain ⟨us, vs, rfl, hus, hrest⟩ := Spells.append hwords
      obtain ⟨t, vs, rfl, ht, hvs⟩ := Spells.mark hrest
      have hleft : op.leftLevel ≤ 10 := by cases op <;> decide
      have hright : op.rightLevel ≤ 10 := by cases op <;> decide
      obtain ⟨lhs', hlhs, hlhs'⟩ := writes_wordsAt lhs hleft hus
      obtain ⟨rhs', hrhs, hrhs'⟩ := writes_wordsAt rhs hright hvs
      refine ⟨.binary t.pos op lhs' rhs', ?_, by rw [erased, erased, hlhs', hrhs']⟩
      by_cases hop : op = .pow
      · subst hop
        exact .power hlhs ht hrhs
      · rw [BinaryOp.leftLevel, if_neg hop] at hlhs
        rw [BinaryOp.rightLevel, if_neg hop] at hrhs
        exact .binary hop hlhs ht hrhs
  | .unary pos .neg operand, k, ts, hk, h =>
      writes_sign pos hk rfl h fun _ => writes_wordsAt operand (by decide)
  | .unary pos .plus operand, k, ts, hk, h =>
      writes_sign pos hk rfl h fun _ => writes_wordsAt operand (by decide)
  | .unary pos .not operand, k, ts, hk, h =>
      writes_sign pos hk rfl h fun _ => writes_wordsAt operand (by decide)
  | .unary pos .ceil operand, k, ts, hk, h => by
      obtain ⟨t, us, rfl, ht, hus⟩ := Spells.mark h
      obtain ⟨us, t', rfl, hus, ht'⟩ := Spells.closed hus
      obtain ⟨operand', hoperand, heq⟩ := writes_wordsAt operand (by decide) hus
      exact Writes.mono ⟨_, .ceil ht hoperand ht', by rw [erased, erased, heq]⟩ hk
  | .unary pos .floor operand, k, ts, hk, h => by
      obtain ⟨t, us, rfl, ht, hus⟩ := Spells.mark h
      obtain ⟨us, t', rfl, hus, ht'⟩ := Spells.closed hus
      obtain ⟨operand', hoperand, heq⟩ := writes_wordsAt operand (by decide) hus
      exact Writes.mono ⟨_, .floor ht hoperand ht', by rw [erased, erased, heq]⟩ hk

theorem items_laterWords : ∀ (es : List Expr) {us vs : List Token} {d : Expr}, Phrase 0 us d →
    Spells (laterWords es) vs → ∃ es', Items (us ++ vs) (d :: es') ∧ erasedList es' = erasedList es
  | [], us, vs, d, hd, h => by
      rw [laterWords] at h
      rw [List.forall₂_nil_left_iff.mp h, List.append_nil]
      exact ⟨[], .last hd, rfl⟩
  | e :: es, us, vs, d, hd, h => by
      rw [laterWords] at h
      obtain ⟨t, vs, rfl, ht, hvs⟩ := Spells.mark h
      obtain ⟨vs, ws, rfl, hvs, hws⟩ := Spells.append hvs
      obtain ⟨e', he, he'⟩ := writes_wordsAt e (Nat.zero_le 10) hvs
      obtain ⟨es', hes, hes'⟩ := items_laterWords es he hws
      exact ⟨e' :: es', .cons hd ht hes, by rw [erasedList, erasedList, he', hes']⟩

theorem arguments_itemWords : ∀ (args : List Expr) {ts : List Token},
    Spells (inParens (itemWords args)) ts →
    ∃ args', Arguments ts args' ∧ erasedList args' = erasedList args
  | [], ts, h => by
      obtain ⟨t, us, t', rfl, ht, hus, ht'⟩ := Spells.inParens h
      rw [itemWords] at hus
      rw [List.forall₂_nil_left_iff.mp hus]
      exact ⟨[], .none ht ht', rfl⟩
  | e :: es, ts, h => by
      obtain ⟨t, us, t', rfl, ht, hwords, ht'⟩ := Spells.inParens h
      rw [itemWords] at hwords
      obtain ⟨us, vs, rfl, hus, hvs⟩ := Spells.append hwords
      obtain ⟨e', he, he'⟩ := writes_wordsAt e (Nat.zero_le 10) hus
      obtain ⟨es', hes, hes'⟩ := items_laterWords es he hvs
      exact ⟨e' :: es', .some ht hes ht', by rw [erasedList, erasedList, he', hes']⟩

end

/-! ## Words are read back -/

/-- An expression written down with the fewest parentheses is read back, up to positions, if the
tokens after it cannot carry an expression on. Its own tokens are taken and no others. -/
theorem reads_wordsAt {e : Expr} {ts rest : List Token} {stop : Token} (hstop : stop.kind = .eof)
    (hts : List.Forall₂ Word.SpelledBy (e.wordsAt 0) ts)
    (hrest : Token.Cursor.joint? ⟨rest, stop⟩ = none) :
    Reads read ⟨ts ++ rest, stop⟩ ⟨rest, stop⟩ fun e' => e'.erased = e.erased := by
  obtain ⟨e', hphrase, he'⟩ := writes_wordsAt e (Nat.zero_le 10) hts
  exact ⟨e', hphrase.run_read hstop hrest, he'⟩

/-- The expression `-(a + 2) ^ -c * l[i] - (x - y)`. -/
def mixed : Expr :=
  let name (c : UInt8) : Expr := .name .nowhere [c]
  let base : Expr := .binary .nowhere .add (name 97) (.number .nowhere (.ofInt 2))
  let power : Expr := .binary .nowhere .pow base (.unary .nowhere .neg (name 99))
  let product : Expr :=
    .binary .nowhere .mul (.unary .nowhere .neg power) (.index .nowhere (name 108) (name 105))
  .binary .nowhere .sub product (.binary .nowhere .sub (name 120) (name 121))

def mixedTokens : List Token :=
  let mark (k : Token.Kind) : Token := { kind := k }
  let name (c : UInt8) : Token := { kind := .ident, text := [c] }
  [mark .minus, mark .lparen, name 97, mark .plus, { kind := .number, text := [50] }, mark .rparen,
    mark .caret, mark .minus, name 99, mark .star, name 108, mark .lbracket, name 105,
    mark .rbracket, mark .minus, mark .lparen, name 120, mark .minus, name 121, mark .rparen]

theorem reads_wordsAt_mixed :
    Reads read ⟨mixedTokens ++ [{ kind := .doWord }], { kind := .eof }⟩
      ⟨[{ kind := .doWord }], { kind := .eof }⟩ fun e' => e'.erased = mixed.erased :=
  reads_wordsAt rfl (by decide +kernel) rfl

end Expr

end PseudoCost
