import PseudoCost.Expr.Printer
import PseudoCost.Proofs.Rendering
import PseudoCost.Proofs.TakenTokens

/-!
# The grammar of expressions

`Expr.Phrase k ts e` says that the tokens `ts` write the expression `e` down at level `k` of the
grammar. The levels are the documented ones, counted from the loosest: a range is on level 0, the
binary operators are on levels 1 to 6 as `BinaryOp.precedence` numbers them, signs and `not` on
level 7, powers on level 8, subscripts and fields on level 9, and what stands by itself on level 10.
A phrase of one level is also one of every looser level. The left operand of a binary operator is
on the operator's own level and the right one on the next, so that operators group to the left; the
exponent of a power is on the level of signs, so that powers group to the right.

Every reader of expressions takes a phrase of its level (`takes_read`). The recursion of the readers
over each other is taken apart first: one lemma for each reader says what it takes if the readers
it is made of take phrases of theirs.
-/

namespace PseudoCost

open Reading

namespace Expr

/-! ## Phrases -/

mutual

/-- The tokens write the expression down at a level of the grammar. -/
inductive Phrase : Nat → List Token → Expr → Prop
  | looser {k ts e} : Phrase (k + 1) ts e → Phrase k ts e
  | range {us vs t low high} : Phrase 1 us low → t.kind = .dotDot → Phrase 1 vs high →
      Phrase 0 (us ++ t :: vs) (.range t.pos low high)
  | binary {us vs t op lhs rhs} : op ≠ .pow → Phrase op.precedence us lhs → t.kind = op.mark →
      Phrase (op.precedence + 1) vs rhs →
      Phrase op.precedence (us ++ t :: vs) (.binary t.pos op lhs rhs)
  | sign {us t op operand} : signOp? t.kind = some op → Phrase 7 us operand →
      Phrase 7 (t :: us) (.unary t.pos op operand)
  | power {us vs t base exponent} : Phrase 9 us base → t.kind = .caret → Phrase 7 vs exponent →
      Phrase 8 (us ++ t :: vs) (.binary t.pos .pow base exponent)
  | index {us vs t t' base subscripts} : Phrase 9 us base → t.kind = .lbracket →
      Items vs subscripts → t'.kind = .rbracket →
      Phrase 9 (us ++ t :: (vs ++ [t'])) (subscripts.foldl (fun b i => .index t.pos b i) base)
  | field {us t f base} : Phrase 9 us base → t.kind = .dot →
      f.kind = .ident ∨ f.kind = .lengthWord → Phrase 9 (us ++ [t, f]) (.field t.pos base f.text)
  | number {t value} : t.kind = .number → Numeral.read t.text = .ok value →
      Phrase 10 [t] (.number t.pos value)
  | string {t} : t.kind = .string → Phrase 10 [t] (.string t.pos t.text)
  | trueWord {t} : t.kind = .trueWord → Phrase 10 [t] (.bool t.pos true)
  | falseWord {t} : t.kind = .falseWord → Phrase 10 [t] (.bool t.pos false)
  | null {t} : t.kind = .nullWord → Phrase 10 [t] (.null t.pos)
  | name {t} : t.kind = .ident → Phrase 10 [t] (.name t.pos t.text)
  | call {us t args} : t.kind = .ident → Arguments us args →
      Phrase 10 (t :: us) (.call t.pos t.text false args)
  | length {us t args} : t.kind = .lengthWord → Arguments us args →
      Phrase 10 (t :: us) (.call t.pos "length" false args)
  | explicitCall {us t u args} : t.kind = .callWord → u.kind = .ident ∨ u.kind = .swapWord →
      Arguments us args → Phrase 10 (t :: u :: us) (.call t.pos u.text true args)
  | bareCall {t u} : t.kind = .callWord → u.kind = .ident ∨ u.kind = .swapWord →
      Phrase 10 [t, u] (.call t.pos u.text true [])
  | parens {us t t' e} : t.kind = .lparen → Phrase 0 us e → t'.kind = .rparen →
      Phrase 10 (t :: (us ++ [t'])) e
  | ceil {us t t' operand} : t.kind = .lceil → Phrase 0 us operand → t'.kind = .rceil →
      Phrase 10 (t :: (us ++ [t'])) (.unary t.pos .ceil operand)
  | floor {us t t' operand} : t.kind = .lfloor → Phrase 0 us operand → t'.kind = .rfloor →
      Phrase 10 (t :: (us ++ [t'])) (.unary t.pos .floor operand)

/-- The tokens write one or more expressions down, separated by commas. -/
inductive Items : List Token → List Expr → Prop
  | last {us e} : Phrase 0 us e → Items us [e]
  | cons {us vs t e es} : Phrase 0 us e → t.kind = .comma → Items vs es →
      Items (us ++ t :: vs) (e :: es)

/-- The tokens write arguments down in parentheses. -/
inductive Arguments : List Token → List Expr → Prop
  | none {t t'} : t.kind = .lparen → t'.kind = .rparen → Arguments [t, t'] []
  | some {us t t' args} : t.kind = .lparen → Items us args → t'.kind = .rparen →
      Arguments (t :: (us ++ [t'])) args

end

namespace Phrase

theorem mono {j k : Nat} {ts : List Token} {e : Expr} (h : Phrase k ts e) (hjk : j ≤ k) :
    Phrase j ts e := by
  induction hjk with
  | refl => exact h
  | step _ ih => exact ih h.looser

end Phrase

/-! ## Readers take phrases -/

variable {stop : Token}

/-- The reader takes the tokens of an expression on a level of the grammar. -/
def TakesPhrase (stop : Token) (k : Nat) (r : Reading Expr) : Prop :=
  Takes stop r fun us _ e => Phrase k us e

section Nested

variable {expr sign operand : Reading Expr} (hstop : stop.kind = .eof)
include hstop

/-! ### Items and arguments -/

theorem takes_moreItems (hexpr : TakesPhrase stop 0 expr) {us : List Token} {e : Expr}
    (he : Phrase 0 us e) (fuel : Nat) :
    Takes stop (moreItems expr fuel) fun vs _ es => Items (us ++ vs) (e :: es) := by
  induction fuel generalizing us e with
  | zero => exact .exhausted
  | succ fuel ih =>
      refine ⟨fun {ts es c} h => ?_⟩
      rw [moreItems] at h
      rcases exists_of_run_accept hstop (by decide) h with ⟨t, ts, rfl, ht, h⟩ | ⟨-, h⟩
      · rw [if_pos rfl] at h
        obtain ⟨vs, ts, d, rfl, hd, h⟩ := hexpr.of_bind h
        obtain ⟨ws, ts, ds, rfl, hds, h⟩ := (ih hd).of_bind h
        obtain ⟨rfl, rfl⟩ := run_pure_ok.mp h
        exact ⟨t :: (vs ++ ws), ts, by simp, rfl, .cons he ht hds⟩
      · obtain ⟨rfl, rfl⟩ := run_pure_ok.mp h
        exact ⟨[], ts, rfl, rfl, by simpa using .last he⟩

theorem takes_items (hexpr : TakesPhrase stop 0 expr) :
    Takes stop (items expr) fun us _ es => Items us es := by
  refine ⟨fun {ts es c} h => ?_⟩
  rw [items] at h
  obtain ⟨us, ts, e, rfl, he, h⟩ := hexpr.of_bind h
  rw [run_remaining_bind] at h
  obtain ⟨vs, ts, ds, rfl, hds, h⟩ := (takes_moreItems hstop hexpr he _).of_bind h
  obtain ⟨rfl, rfl⟩ := run_pure_ok.mp h
  exact ⟨us ++ vs, ts, by simp, rfl, hds⟩

/-- Arguments in parentheses; after the word `call` there may be none. -/
theorem takes_arguments (hexpr : TakesPhrase stop 0 expr) (explicit : Bool) :
    Takes stop (arguments expr explicit) fun us _ args =>
      Arguments us args ∨ explicit = true ∧ us = [] ∧ args = [] := by
  have hparens : Takes stop (do
      let _ ← expect .lparen "'('"
      let args ← if (← kind) = .rparen then pure [] else items expr
      let _ ← expect .rparen "')'"
      return args) fun us _ args => Arguments us args := by
    refine ⟨fun {ts args c} h => ?_⟩
    obtain ⟨t, ts, rfl, ht, h⟩ := exists_of_run_expect hstop (by decide) h
    rw [run_kind_bind] at h
    split at h
    · rw [pure_bind] at h
      obtain ⟨t', ts, rfl, ht', h⟩ := exists_of_run_expect hstop (by decide) h
      obtain ⟨rfl, rfl⟩ := run_pure_ok.mp h
      exact ⟨[t, t'], ts, rfl, rfl, .none ht ht'⟩
    · obtain ⟨us, ts, es, rfl, hes, h⟩ := (takes_items hstop hexpr).of_bind h
      obtain ⟨t', ts, rfl, ht', h⟩ := exists_of_run_expect hstop (by decide) h
      obtain ⟨rfl, rfl⟩ := run_pure_ok.mp h
      exact ⟨t :: (us ++ [t']), ts, by simp, rfl, .some ht hes ht'⟩
  refine ⟨fun {ts args c} h => ?_⟩
  cases explicit with
  | false =>
      obtain ⟨us, ts, rfl, rfl, hargs⟩ := hparens.of_run h
      exact ⟨us, ts, rfl, rfl, .inl hargs⟩
  | true =>
      simp only [arguments, Bool.true_and, run_kind_bind] at h
      split at h
      · obtain ⟨rfl, rfl⟩ := run_pure_ok.mp h
        exact ⟨[], ts, rfl, rfl, .inr ⟨rfl, rfl, rfl⟩⟩
      · obtain ⟨us, ts, rfl, rfl, hargs⟩ := hparens.of_run h
        exact ⟨us, ts, rfl, rfl, .inl hargs⟩

/-- Arguments that have to stand in parentheses. -/
theorem takes_parentheses (hexpr : TakesPhrase stop 0 expr) :
    Takes stop (arguments expr false) fun us _ args => Arguments us args := by
  refine (takes_arguments hstop hexpr false).imp ?_
  rintro us _ args (hargs | ⟨hfalse, -⟩)
  · exact hargs
  · cases hfalse

/-! ### What stands by itself -/

theorem takes_procedureName :
    Takes stop procedureName fun us _ u => us = [u] ∧ (u.kind = .ident ∨ u.kind = .swapWord) := by
  refine ⟨fun {ts u c} h => ?_⟩
  rw [procedureName, run_kind_bind] at h
  split at h
  case isTrue hkind =>
    obtain ⟨t, ts, rfl, ht⟩ := Token.Cursor.exists_cons hstop hkind (by decide)
    cases h
    exact ⟨[t], ts, rfl, rfl, rfl, .inr ht⟩
  case isFalse =>
    rw [← bind_pure (expect _ _)] at h
    obtain ⟨t, ts, rfl, ht, h⟩ := exists_of_run_expect hstop (by decide) h
    obtain ⟨rfl, rfl⟩ := run_pure_ok.mp h
    exact ⟨[u], ts, rfl, rfl, rfl, .inl ht⟩

theorem takes_rounded (hexpr : TakesPhrase stop 0 expr) {k : Token.Kind} (hk : k ≠ .eof)
    (pos : Pos) (op : UnaryOp) (expected : Text) :
    Takes stop (rounded expr pos op k expected) fun us _ e => ∃ vs t operand,
      us = vs ++ [t] ∧ e = .unary pos op operand ∧ Phrase 0 vs operand ∧ t.kind = k := by
  refine ⟨fun {ts e c} h => ?_⟩
  rw [rounded] at h
  obtain ⟨us, ts, operand, rfl, hoperand, h⟩ := hexpr.of_bind h
  obtain ⟨t, ts, rfl, ht, h⟩ := exists_of_run_expect hstop hk h
  obtain ⟨rfl, rfl⟩ := run_pure_ok.mp h
  exact ⟨us ++ [t], ts, by simp, rfl, us, t, operand, rfl, rfl, hoperand, ht⟩

omit hstop in
/-- What is read off the token in front is written down by this token. -/
theorem exists_of_run_take {t : Token} {ts : List Token} {atom e : Expr} {c : Token.Cursor}
    (h : (take >>= fun _ => pure atom).run ⟨t :: ts, stop⟩ = .ok (e, c))
    (ht : Phrase 10 [t] atom) :
    ∃ us rest, t :: ts = us ++ rest ∧ c = ⟨rest, stop⟩ ∧ Phrase 10 us e := by
  rw [run_take_bind] at h
  obtain ⟨rfl, rfl⟩ := run_pure_ok.mp h
  exact ⟨[t], ts, rfl, rfl, ht⟩

theorem takes_primary (hexpr : TakesPhrase stop 0 expr) : TakesPhrase stop 10 (primary expr) := by
  refine ⟨fun {ts e c} h => ?_⟩
  rw [primary, run_peek_bind] at h
  by_cases heof : Token.Cursor.kind ⟨ts, stop⟩ = .eof
  · rw [Token.Cursor.kind] at heof
    rw [heof] at h
    exact absurd h run_fail_ne
  obtain ⟨t, ts, rfl, -⟩ := Token.Cursor.exists_cons hstop rfl heof
  rw [Token.Cursor.peek_cons] at h
  split at h
  case h_1 ht =>
    rw [run_take_bind] at h
    split at h
    case h_1 value hvalue =>
      obtain ⟨rfl, rfl⟩ := run_pure_ok.mp h
      exact ⟨[t], ts, rfl, rfl, .number ht hvalue⟩
    case h_2 => cases h
  case h_2 ht => exact exists_of_run_take h (.string ht)
  case h_3 ht => exact exists_of_run_take h (.trueWord ht)
  case h_4 ht => exact exists_of_run_take h (.falseWord ht)
  case h_5 ht => exact exists_of_run_take h (.null ht)
  case h_6 ht =>
    rw [run_take_bind] at h
    obtain ⟨us, ts, args, rfl, hus, h⟩ := (takes_parentheses hstop hexpr).of_bind h
    obtain ⟨rfl, rfl⟩ := run_pure_ok.mp h
    exact ⟨t :: us, ts, rfl, rfl, .length ht hus⟩
  case h_7 ht =>
    rw [run_take_bind] at h
    rw [explicitCall] at h
    obtain ⟨_, ts, u, rfl, ⟨rfl, hu⟩, hrun⟩ := (takes_procedureName hstop).of_bind h
    obtain ⟨us, ts, args, rfl, hus | ⟨-, rfl, rfl⟩, h⟩ :=
      (takes_arguments hstop hexpr true).of_bind hrun
    · obtain ⟨rfl, rfl⟩ := run_pure_ok.mp h
      exact ⟨t :: u :: us, ts, rfl, rfl, .explicitCall ht hu hus⟩
    · obtain ⟨rfl, rfl⟩ := run_pure_ok.mp h
      exact ⟨[t, u], ts, rfl, rfl, .bareCall ht hu⟩
  case h_8 ht =>
    rw [run_take_bind, run_kind_bind] at h
    split at h
    · obtain ⟨us, ts, args, rfl, hus, h⟩ := (takes_parentheses hstop hexpr).of_bind h
      obtain ⟨rfl, rfl⟩ := run_pure_ok.mp h
      exact ⟨t :: us, ts, rfl, rfl, .call ht hus⟩
    · obtain ⟨rfl, rfl⟩ := run_pure_ok.mp h
      exact ⟨[t], ts, rfl, rfl, .name ht⟩
  case h_9 ht =>
    rw [run_take_bind] at h
    obtain ⟨us, ts, inner, rfl, hinner, h⟩ := hexpr.of_bind h
    obtain ⟨t', ts, rfl, ht', h⟩ := exists_of_run_expect hstop (by decide) h
    obtain ⟨rfl, rfl⟩ := run_pure_ok.mp h
    exact ⟨t :: (us ++ [t']), ts, by simp, rfl, .parens ht hinner ht'⟩
  case h_10 ht =>
    rw [run_take_bind] at h
    obtain ⟨_, ts, rfl, rfl, us, t', operand, rfl, rfl, hoperand, ht'⟩ :=
      (takes_rounded hstop hexpr (by decide) t.pos .ceil _).of_run h
    exact ⟨t :: (us ++ [t']), ts, rfl, rfl, .ceil ht hoperand ht'⟩
  case h_11 ht =>
    rw [run_take_bind] at h
    obtain ⟨_, ts, rfl, rfl, us, t', operand, rfl, rfl, hoperand, ht'⟩ :=
      (takes_rounded hstop hexpr (by decide) t.pos .floor _).of_run h
    exact ⟨t :: (us ++ [t']), ts, rfl, rfl, .floor ht hoperand ht'⟩
  case h_12 => exact absurd h run_fail_ne

/-! ### Subscripts, fields and powers -/

theorem takes_accesses (hexpr : TakesPhrase stop 0 expr) {us : List Token} {base : Expr}
    (hbase : Phrase 9 us base) (fuel : Nat) :
    Takes stop (accesses expr fuel base) fun vs _ e => Phrase 9 (us ++ vs) e := by
  induction fuel generalizing us base with
  | zero => exact .exhausted
  | succ fuel ih =>
      refine ⟨fun {ts e c} h => ?_⟩
      rw [accesses, run_kind_bind] at h
      split at h
      case h_1 hkind =>
        obtain ⟨t, ts, rfl, ht⟩ := Token.Cursor.exists_cons hstop hkind (by decide)
        rw [run_take_bind] at h
        obtain ⟨vs, ts, subscripts, rfl, hvs, h⟩ := (takes_items hstop hexpr).of_bind h
        obtain ⟨t', ts, rfl, ht', h⟩ := exists_of_run_expect hstop (by decide) h
        obtain ⟨ws, ts, rfl, rfl, he⟩ := (ih (.index hbase ht hvs ht')).of_run h
        exact ⟨t :: (vs ++ t' :: ws), ts, by simp, rfl, by simpa using he⟩
      case h_2 hkind =>
        obtain ⟨t, ts, rfl, ht⟩ := Token.Cursor.exists_cons hstop hkind (by decide)
        rw [run_nextKind_bind] at h
        split at h
        case isTrue hnext =>
          simp only [run_take_bind, Token.Cursor.peek_cons, Token.Cursor.advance_cons] at h
          have hkind : Token.Cursor.kind ⟨ts, stop⟩ = .ident
              ∨ Token.Cursor.kind ⟨ts, stop⟩ = .lengthWord := hnext
          have hne : Token.Cursor.kind ⟨ts, stop⟩ ≠ .eof := by
            intro heof
            simp [heof] at hkind
          obtain ⟨f, ts, rfl, -⟩ := Token.Cursor.exists_cons hstop rfl hne
          rw [Token.Cursor.kind_cons] at hkind
          obtain ⟨ws, ts, rfl, rfl, he⟩ := (ih (.field hbase ht hkind)).of_run h
          exact ⟨t :: f :: ws, ts, by simp, rfl, by simpa using he⟩
        case isFalse =>
          obtain ⟨rfl, rfl⟩ := run_pure_ok.mp h
          exact ⟨[], _, rfl, rfl, by simpa using hbase⟩
      case h_3 =>
        obtain ⟨rfl, rfl⟩ := run_pure_ok.mp h
        exact ⟨[], ts, rfl, rfl, by simpa using hbase⟩

theorem takes_powerLevel (hexpr : TakesPhrase stop 0 expr) (hsign : TakesPhrase stop 7 sign) :
    TakesPhrase stop 8 (powerLevel expr sign) := by
  refine ⟨fun {ts e c} h => ?_⟩
  rw [powerLevel, run_remaining_bind] at h
  obtain ⟨us, ts, base, rfl, hbase, h⟩ := (takes_primary hstop hexpr).of_bind h
  obtain ⟨vs, ts, base, rfl, hbase, h⟩ :=
    (takes_accesses hstop hexpr hbase.looser _).of_bind h
  rw [run_kind_bind] at h
  split at h
  case isTrue hkind =>
    obtain ⟨t, ts, rfl, ht⟩ := Token.Cursor.exists_cons hstop hkind (by decide)
    rw [run_take_bind] at h
    obtain ⟨ws, ts, exponent, rfl, hexponent, h⟩ := hsign.of_bind h
    obtain ⟨rfl, rfl⟩ := run_pure_ok.mp h
    exact ⟨us ++ vs ++ t :: ws, ts, by simp, rfl, .power hbase ht hexponent⟩
  case isFalse =>
    obtain ⟨rfl, rfl⟩ := run_pure_ok.mp h
    exact ⟨us ++ vs, ts, by simp, rfl, hbase.looser⟩

/-! ### Binary levels -/

/-- The operators a level knows are the ones on it. -/
def OnLevel (k : Nat) (op? : Token.Kind → Option BinaryOp) : Prop :=
  ∀ t op, op? t = some op → op ≠ .pow ∧ t = op.mark ∧ op.precedence = k

theorem takes_chain {k : Nat} {op? : Token.Kind → Option BinaryOp} (hop : OnLevel k op?)
    (hoperand : TakesPhrase stop (k + 1) operand) {us : List Token} {lhs : Expr}
    (hlhs : Phrase k us lhs) (fuel : Nat) :
    Takes stop (chain op? operand fuel lhs) fun vs _ e => Phrase k (us ++ vs) e := by
  induction fuel generalizing us lhs with
  | zero => exact .exhausted
  | succ fuel ih =>
      refine ⟨fun {ts e c} h => ?_⟩
      rw [chain, run_kind_bind] at h
      split at h
      case h_1 op hsome =>
        obtain ⟨hpow, hmark, rfl⟩ := hop _ _ hsome
        have hne : Token.Cursor.kind ⟨ts, stop⟩ ≠ .eof := by
          rw [hmark]
          cases op <;> decide
        obtain ⟨t, ts, rfl, -⟩ := Token.Cursor.exists_cons hstop rfl hne
        rw [run_take_bind] at h
        obtain ⟨vs, ts, rhs, rfl, hrhs, h⟩ := hoperand.of_bind h
        obtain ⟨ws, ts, rfl, rfl, he⟩ := (ih (.binary hpow hlhs hmark hrhs)).of_run h
        exact ⟨t :: (vs ++ ws), ts, by simp, rfl, by simpa using he⟩
      case h_2 =>
        obtain ⟨rfl, rfl⟩ := run_pure_ok.mp h
        exact ⟨[], ts, rfl, rfl, by simpa using hlhs⟩

theorem takes_level {k : Nat} {op? : Token.Kind → Option BinaryOp} (hop : OnLevel k op?)
    (hoperand : TakesPhrase stop (k + 1) operand) :
    TakesPhrase stop k (level op? operand) := by
  refine ⟨fun {ts e c} h => ?_⟩
  rw [level] at h
  obtain ⟨us, ts, lhs, rfl, hlhs, h⟩ := hoperand.of_bind h
  rw [run_remaining_bind] at h
  obtain ⟨vs, ts, rfl, rfl, he⟩ := (takes_chain hstop hop hoperand hlhs.looser _).of_run h
  exact ⟨us ++ vs, ts, by simp, rfl, he⟩

omit hstop in
/-- The six levels hold the operators of precedence 1 to 6. -/
theorem onLevel_levels : ∀ k (hk : k < levels.length), OnLevel (k + 1) levels[k] := by
  intro k hk t op h
  change k < 6 at hk
  interval_cases k <;> cases t <;> first | (cases h; exact ⟨nofun, rfl, rfl⟩) | cases h

theorem takes_binaryLevels (hoperand : TakesPhrase stop 7 operand) :
    TakesPhrase stop 1 (binaryLevels operand) := by
  have hlevel : ∀ k (hk : k < levels.length),
      TakesPhrase stop (k + 2) ((levels.drop (k + 1)).foldr level operand) →
      TakesPhrase stop (k + 1) ((levels.drop k).foldr level operand) := by
    intro k hk h
    rw [List.drop_eq_getElem_cons hk]
    exact takes_level hstop (onLevel_levels k hk) h
  exact hlevel 0 (by decide) <| hlevel 1 (by decide) <| hlevel 2 (by decide) <|
    hlevel 3 (by decide) <| hlevel 4 (by decide) <| hlevel 5 (by decide) hoperand

theorem takes_rangeLevel (hoperand : TakesPhrase stop 1 operand) :
    TakesPhrase stop 0 (rangeLevel operand) := by
  refine ⟨fun {ts e c} h => ?_⟩
  rw [rangeLevel] at h
  obtain ⟨us, ts, low, rfl, hlow, h⟩ := hoperand.of_bind h
  rw [run_kind_bind] at h
  split at h
  case isTrue hkind =>
    obtain ⟨t, ts, rfl, ht⟩ := Token.Cursor.exists_cons hstop hkind (by decide)
    rw [run_take_bind] at h
    obtain ⟨vs, ts, high, rfl, hhigh, h⟩ := hoperand.of_bind h
    obtain ⟨rfl, rfl⟩ := run_pure_ok.mp h
    exact ⟨us ++ t :: vs, ts, by simp, rfl, .range hlow ht hhigh⟩
  case isFalse =>
    obtain ⟨rfl, rfl⟩ := run_pure_ok.mp h
    exact ⟨us, ts, rfl, rfl, hlow.looser⟩

end Nested

/-! ### Expressions -/

/-- Expressions and what stands on the level of signs, read over each other. -/
theorem takes_expressions (hstop : stop.kind = .eof) (depth : Nat) :
    TakesPhrase stop 0 (readWithin depth) ∧ TakesPhrase stop 7 (readSign depth) := by
  induction depth with
  | zero =>
      rw [readWithin, readSign]
      exact ⟨.exhausted, .exhausted⟩
  | succ depth ih =>
      obtain ⟨hwithin, hsign⟩ := ih
      constructor
      · rw [readWithin]
        exact takes_rangeLevel hstop (takes_binaryLevels hstop hsign)
      · refine ⟨fun {ts e c} h => ?_⟩
        rw [readSign, run_kind_bind] at h
        split at h
        case h_1 op hop =>
          have hne : Token.Cursor.kind ⟨ts, stop⟩ ≠ .eof := by
            intro heof
            rw [heof] at hop
            cases hop
          obtain ⟨t, ts, rfl, -⟩ := Token.Cursor.exists_cons hstop rfl hne
          rw [run_take_bind] at h
          obtain ⟨us, ts, operand, rfl, hoperand, h⟩ := hsign.of_bind h
          obtain ⟨rfl, rfl⟩ := run_pure_ok.mp h
          exact ⟨t :: us, ts, rfl, rfl, .sign hop hoperand⟩
        case h_2 =>
          obtain ⟨us, ts, rfl, rfl, he⟩ := (takes_powerLevel hstop hwithin hsign).of_run h
          exact ⟨us, ts, rfl, rfl, he.looser⟩

/-- An expression that is read is written down by the tokens taken. -/
theorem takes_read (hstop : stop.kind = .eof) : TakesPhrase stop 0 read := by
  refine ⟨fun {ts e c} h => ?_⟩
  rw [read, run_remaining_bind] at h
  exact (takes_expressions hstop _).1.of_run h

end Expr

end PseudoCost
