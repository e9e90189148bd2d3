import PseudoCost.Program.Reading
import PseudoCost.Proofs.ExprGrammar

/-!
# The grammar of statements

`Stmt.Phrase ts next s` says that the tokens `ts`, with the token `next` after them, write the
statement `s` down. The tokens of a phrase are the tokens of its parts, put together in order, so
that none is lost and none is used twice. The token after a phrase has a part in it: a branch of a
conditional that is not a block ends where the next token stands.

The relation keeps what the tokens of a statement have to be, and where its blocks start and end. It
leaves out the conditions on the lines of the source, which decide between one phrase and another.

As for expressions, every reader takes a phrase of its kind (`takes_listReading`), and one lemma for
each reader says so over the readers of nested statements.
-/

namespace PseudoCost

open Reading

theorem Token.Cursor.peek_eq_headD (ts : List Token) (stop : Token) :
    Token.Cursor.peek ⟨ts, stop⟩ = ts.headD stop := by
  cases ts <;> rfl

namespace Stmt

/-! ## Phrases -/

/-- The sign of an assignment, which may be a plain equals sign. -/
def IsAssignSign (t : Token) : Prop := t.kind = .assign ∨ t.kind = .equal

/-- The step of a `for` loop, if there is one. -/
inductive StepPhrase : List Token → Option Expr → Prop
  | none : StepPhrase [] none
  | some {t us e} : t.kind = .stepWord → Expr.Phrase 0 us e → StepPhrase (t :: us) (some e)

/-- The arguments of a call after the word `call`, which may be left out. -/
inductive CallPhrase : List Token → List Expr → Prop
  | bare : CallPhrase [] []
  | arguments {us args} : Expr.Arguments us args → CallPhrase us args

/-- The arguments of `print`, which may be left out. -/
inductive PrintPhrase : List Token → List Expr → Prop
  | bare : PrintPhrase [] []
  | items {us args} : Expr.Items us args → PrintPhrase us args

/-- The closing `end` of a conditional, unless its last branch is complete in itself. The last
branch is followed by `follow`, the conditional by `next`. -/
inductive Closing (next : Token) : Bool → List Token → Token → Prop
  | complete : Closing next true [] next
  | ended {t} : t.kind = .endWord → Closing next false [t] t

mutual

/-- The tokens, before the token `next`, write the statement down. -/
inductive Phrase : List Token → Token → Stmt → Prop
  | forLoop {t v a us d vs ws o bs next start descending limit step body} :
      t.kind = .forWord → v.kind = .ident → IsAssignSign a → Expr.Phrase 0 us start →
      d.kind = (if descending then .downtoWord else .toWord) → Expr.Phrase 0 vs limit →
      StepPhrase ws step → o.kind = .doWord → BodyPhrase bs body →
      Phrase (t :: v :: a :: (us ++ d :: (vs ++ (ws ++ o :: bs)))) next
        (.forLoop t.pos v.text descending start limit step body)
  | whileLoop {t us o bs next cond body} : t.kind = .whileWord → Expr.Phrase 0 us cond →
      o.kind = .doWord → BodyPhrase bs body →
      Phrase (t :: (us ++ o :: bs)) next (.whileLoop t.pos (Control.ofCondition cond) cond body)
  | repeatLoop {t us u vs next stmts cond} : t.kind = .repeatWord → Phrases us u stmts →
      u.kind = .untilWord → Expr.Phrase 0 vs cond →
      Phrase (t :: (us ++ u :: vs)) next
        (.repeatLoop t.pos (Control.ofCondition cond) (.mk t.pos false u.pos stmts) cond)
  | ifThen {t us o bs es next follow cond thenBlock complete} : t.kind = .ifWord →
      Expr.Phrase 0 us cond → o.kind = .thenWord → BranchPhrase o bs follow thenBlock complete →
      Closing next complete es follow →
      Phrase (t :: (us ++ o :: (bs ++ es))) next (.conditional t.pos cond thenBlock none)
  | ifElse {t us o bs u vs es next follow cond thenBlock thenComplete elseBlock complete} :
      t.kind = .ifWord → Expr.Phrase 0 us cond → o.kind = .thenWord →
      BranchPhrase o bs u thenBlock thenComplete → u.kind = .elseWord →
      BranchPhrase u vs follow elseBlock complete → Closing next complete es follow →
      Phrase (t :: (us ++ o :: (bs ++ u :: (vs ++ es)))) next
        (.conditional t.pos cond thenBlock (some elseBlock))
  | assign {t us a vs next target value} : t.kind = .ident → Expr.Phrase 9 (t :: us) target →
      IsAssignSign a → Expr.Phrase 0 vs value →
      Phrase (t :: (us ++ a :: vs)) next (.assign t.pos target value)
  | call {t us next args} : t.kind = .ident → Expr.Arguments us args →
      Phrase (t :: us) next (.call t.pos t.text false args)
  | explicitCall {t u us next args} : t.kind = .callWord → u.kind = .ident ∨ u.kind = .swapWord →
      CallPhrase us args → Phrase (t :: u :: us) next (.call t.pos u.text true args)
  | print {t us next args} : t.kind = .printWord → PrintPhrase us args →
      Phrase (t :: us) next (.call t.pos "print" false args)
  | swapCall {t us next args} : t.kind = .swapWord → Expr.Arguments us args →
      Phrase (t :: us) next (.call t.pos "swap" false args)
  | swapWith {t us w vs next first second} : t.kind = .swapWord → Expr.Phrase 9 us first →
      w.kind = .withWord → Expr.Phrase 9 vs second →
      Phrase (t :: (us ++ w :: vs)) next (.call t.pos "swap" false [first, second])
  | bareReturn {t next} : t.kind = .returnWord → Phrase [t] next (.give t.pos none)
  | valueReturn {t us next value} : t.kind = .returnWord → Expr.Phrase 0 us value →
      Phrase (t :: us) next (.give t.pos (some value))

/-- The tokens, before the token `next`, write the statements down, a nested block as the statements
in it. -/
inductive Phrases : List Token → Token → List Stmt → Prop
  | nil {next} : Phrases [] next []
  | semicolon {t us next stmts} : t.kind = .semicolon → Phrases us next stmts →
      Phrases (t :: us) next stmts
  | cons {us vs next s stmts} : Phrase us (vs.headD next) s → Phrases vs next stmts →
      Phrases (us ++ vs) next (s :: stmts)
  | group {us vs next b stmts} : GroupPhrase us b → Phrases vs next stmts →
      Phrases (us ++ vs) next (b.stmts ++ stmts)

/-- The tokens write a block down between `begin` and `end`. -/
inductive GroupPhrase : List Token → Block → Prop
  | mk {t us u stmts} : t.kind = .beginWord → Phrases us u stmts → u.kind = .endWord →
      GroupPhrase (t :: (us ++ [u])) (.mk t.pos true u.pos stmts)

/-- The tokens write the body of a loop or procedure down, with or without its `begin`. -/
inductive BodyPhrase : List Token → Block → Prop
  | group {us b} : GroupPhrase us b → BodyPhrase us b
  | bare {us u stmts} : Phrases us u stmts → u.kind = .endWord →
      BodyPhrase (us ++ [u]) (.mk (us.headD u).pos false u.pos stmts)

/-- The tokens between `opener`, a `then` or `else`, and the token `next` write a branch of a
conditional down, which may be complete in itself. -/
inductive BranchPhrase : Token → List Token → Token → Block → Bool → Prop
  | group {opener us next b} : GroupPhrase us b → BranchPhrase opener us next b true
  | single {opener us next s} : Phrase us next s →
      BranchPhrase opener us next (.mk opener.pos false next.pos [s]) true
  | unclosed {opener us next stmts} : Phrases us next stmts →
      BranchPhrase opener us next (.mk opener.pos false next.pos stmts) false

end

theorem Phrases.of_semicolons {us vs : List Token} {next : Token} {stmts : List Stmt}
    (hus : ∀ t ∈ us, t.kind = .semicolon) (h : Phrases vs next stmts) :
    Phrases (us ++ vs) next stmts := by
  induction us with
  | nil => exact h
  | cons t us ih =>
      exact .semicolon (hus t List.mem_cons_self) (ih fun u hu => hus u (List.mem_cons_of_mem t hu))

/-! ## Readers take phrases -/

variable {stop : Token}

/-- The reader takes the tokens of a statement. -/
def TakesStmt (stop : Token) (r : Reading Stmt) : Prop :=
  Takes stop r fun us rest s => Phrase us (rest.headD stop) s

/-- The reader takes the tokens of some statements, whatever the kinds it stops at. -/
def TakesList (stop : Token) (list : ListReading) : Prop :=
  ∀ stops, Takes stop (list stops) fun us rest stmts => Phrases us (rest.headD stop) stmts

@[simp] theorem run_here_bind {β : Type} {c : Token.Cursor} {f : Pos → Reading β} :
    (here >>= f).run c = (f c.peek.pos).run c := rfl

theorem headD_append (us vs : List Token) (stop : Token) :
    (us ++ vs).headD stop = us.headD (vs.headD stop) := by
  cases us <;> rfl

section Nested

variable {stmt : Reading Stmt} {nested : Reading Block} {list : ListReading}
  (hstop : stop.kind = .eof)
include hstop

/-! ### Blocks -/

theorem takes_block (hlist : TakesList stop list) :
    Takes stop (block list) fun us _ b => GroupPhrase us b := by
  refine ⟨fun {ts b c} h => ?_⟩
  rw [block] at h
  obtain ⟨t, ts, rfl, ht, h⟩ := exists_of_run_expect hstop (by decide) h
  obtain ⟨us, ts, stmts, rfl, hstmts, h⟩ := (hlist _).of_bind h
  rw [run_here_bind] at h
  obtain ⟨u, ts, rfl, hu, h⟩ := exists_of_run_expect hstop (by decide) h
  obtain ⟨rfl, rfl⟩ := run_pure_ok.mp h
  exact ⟨t :: (us ++ [u]), ts, by simp, rfl, .mk ht hstmts hu⟩

theorem takes_body (hlist : TakesList stop list) :
    Takes stop (body list) fun us _ b => BodyPhrase us b := by
  refine ⟨fun {ts b c} h => ?_⟩
  rw [body, run_kind_bind] at h
  split at h
  case isTrue =>
    obtain ⟨us, ts, rfl, rfl, hb⟩ := (takes_block hstop hlist).of_run h
    exact ⟨us, ts, rfl, rfl, .group hb⟩
  case isFalse =>
    rw [run_here_bind, Token.Cursor.peek_eq_headD] at h
    obtain ⟨us, ts, stmts, rfl, hstmts, h⟩ := (hlist _).of_bind h
    rw [run_here_bind] at h
    obtain ⟨u, ts, rfl, hu, h⟩ := exists_of_run_expect hstop (by decide) h
    obtain ⟨rfl, rfl⟩ := run_pure_ok.mp h
    refine ⟨us ++ [u], ts, by simp, rfl, ?_⟩
    rw [headD_append]
    exact .bare hstmts hu

theorem takes_branch (hstmt : TakesStmt stop stmt) (hlist : TakesList stop list) (opener : Token)
    (stops : List Token.Kind) :
    Takes stop (branch stmt list opener stops) fun us rest b =>
      BranchPhrase opener us (rest.headD stop) b.1 b.2 := by
  refine ⟨fun {ts b c} h => ?_⟩
  rw [branch, run_kind_bind] at h
  split at h
  case isTrue =>
    obtain ⟨us, ts, b, rfl, hb, h⟩ := (takes_block hstop hlist).of_bind h
    obtain ⟨rfl, rfl⟩ := run_pure_ok.mp h
    exact ⟨us, ts, rfl, rfl, .group hb⟩
  case isFalse =>
    rw [run_peek_bind] at h
    split at h
    case isTrue =>
      obtain ⟨us, ts, s, rfl, hs, h⟩ := hstmt.of_bind h
      rw [run_here_bind, Token.Cursor.peek_eq_headD] at h
      obtain ⟨rfl, rfl⟩ := run_pure_ok.mp h
      exact ⟨us, ts, rfl, rfl, .single hs⟩
    case isFalse =>
      obtain ⟨us, ts, stmts, rfl, hstmts, h⟩ := (hlist _).of_bind h
      rw [run_here_bind, Token.Cursor.peek_eq_headD] at h
      obtain ⟨rfl, rfl⟩ := run_pure_ok.mp h
      exact ⟨us, ts, rfl, rfl, .unclosed hstmts⟩

omit hstop in
theorem exists_of_skipAll (stop : Token) (kinds : List Token.Kind) (ts : List Token) :
    ∃ us rest, ts = us ++ rest ∧ (∀ t ∈ us, t.kind ∈ kinds)
      ∧ Token.Cursor.skipAll ⟨ts, stop⟩ kinds = ⟨rest, stop⟩ := by
  refine ⟨ts.takeWhile (kinds.contains ·.kind), ts.dropWhile (kinds.contains ·.kind),
    (List.takeWhile_append_dropWhile ..).symm, ?_, rfl⟩
  intro t ht
  simpa using List.mem_takeWhile_imp ht

theorem takes_upTo (hstmt : TakesStmt stop stmt)
    (hnested : Takes stop nested fun us _ b => GroupPhrase us b) (stops : List Token.Kind)
    (fuel : Nat) :
    Takes stop (upTo stmt nested stops fuel) fun us rest stmts =>
      Phrases us (rest.headD stop) stmts := by
  induction fuel with
  | zero => exact .exhausted
  | succ fuel ih =>
      refine ⟨fun {ts stmts c} h => ?_⟩
      obtain ⟨us, ts, rfl, hus, hskip⟩ := exists_of_skipAll stop [.semicolon] ts
      have hsemicolons : ∀ t ∈ us, t.kind = .semicolon := by simpa using hus
      rw [upTo, run_skipAll_bind (by decide) hstop, hskip, run_kind_bind] at h
      split at h
      case isTrue =>
        obtain ⟨rfl, rfl⟩ := run_pure_ok.mp h
        refine ⟨us, ts, rfl, rfl, ?_⟩
        simpa using Phrases.of_semicolons hsemicolons (.nil)
      split at h
      case isTrue =>
        obtain ⟨vs, ts, b, rfl, hb, h⟩ := hnested.of_bind h
        obtain ⟨ws, ts, rest, rfl, hrest, h⟩ := ih.of_bind h
        obtain ⟨rfl, rfl⟩ := run_pure_ok.mp h
        exact ⟨us ++ (vs ++ ws), ts, by simp, rfl, .of_semicolons hsemicolons (.group hb hrest)⟩
      case isFalse =>
        obtain ⟨vs, ts, s, rfl, hs, h⟩ := hstmt.of_bind h
        obtain ⟨ws, ts, rest, rfl, hrest, h⟩ := ih.of_bind h
        obtain ⟨rfl, rfl⟩ := run_pure_ok.mp h
        rw [headD_append] at hs
        exact ⟨us ++ (vs ++ ws), ts, by simp, rfl, .of_semicolons hsemicolons (.cons hs hrest)⟩

/-! ### Loops and conditionals -/

theorem takes_assignSign :
    Takes stop assignSign fun us _ _ => ∃ a, us = [a] ∧ IsAssignSign a := by
  refine ⟨fun {ts _ c} h => ?_⟩
  rw [assignSign] at h
  rcases exists_of_run_accept hstop (by decide) h with ⟨a, ts, rfl, ha, h⟩ | ⟨-, h⟩
  · cases h
    exact ⟨[a], ts, rfl, rfl, a, rfl, .inl ha⟩
  · rcases exists_of_run_accept hstop (by decide) h with ⟨a, ts, rfl, ha, h⟩ | ⟨-, h⟩
    · cases h
      exact ⟨[a], ts, rfl, rfl, a, rfl, .inr ha⟩
    · exact absurd h run_fail_ne

/-- What follows the word that gives the direction of a `for` loop. -/
theorem takes_forLimit (hlist : TakesList stop list) (pos : Pos) (v : Name) (descending : Bool)
    (start : Expr) :
    Takes stop (do
      let limit ← Expr.read
      let step ← if ← accept .stepWord then some <$> Expr.read else pure none
      let _ ← expect .doWord "'do'"
      return Stmt.forLoop pos v descending start limit step (← body list)) fun us _ s =>
        ∃ vs ws o bs limit step body, us = vs ++ (ws ++ o :: bs)
          ∧ s = .forLoop pos v descending start limit step body ∧ Expr.Phrase 0 vs limit
          ∧ StepPhrase ws step ∧ o.kind = .doWord ∧ BodyPhrase bs body := by
  refine ⟨fun {ts s c} h => ?_⟩
  have hread := Expr.takes_read hstop
  obtain ⟨vs, ts, limit, rfl, hlimit, h⟩ := hread.of_bind h
  have hstep : ∃ ws rest step, ts = ws ++ rest ∧ StepPhrase ws step
      ∧ (expect .doWord "'do'" >>= fun _ => body list >>= fun b =>
        pure (Stmt.forLoop pos v descending start limit step b)).run ⟨rest, stop⟩ = .ok (s, c) := by
    rcases exists_of_run_accept hstop (by decide) h with ⟨t, ts, rfl, ht, h⟩ | ⟨-, h⟩
    · rw [if_pos rfl, map_eq_pure_bind, bind_assoc] at h
      obtain ⟨ws, ts, e, rfl, he, h⟩ := hread.of_bind h
      exact ⟨t :: ws, ts, some e, rfl, .some ht he, h⟩
    · exact ⟨[], ts, none, rfl, .none, h⟩
  obtain ⟨ws, ts, step, rfl, hstep, h⟩ := hstep
  obtain ⟨o, ts, rfl, ho, h⟩ := exists_of_run_expect hstop (by decide) h
  obtain ⟨bs, ts, b, rfl, hb, h⟩ := (takes_body hstop hlist).of_bind h
  obtain ⟨rfl, rfl⟩ := run_pure_ok.mp h
  exact ⟨vs ++ (ws ++ o :: bs), ts, by simp, rfl, vs, ws, o, bs, limit, step, b, rfl, rfl, hlimit,
    hstep, ho, hb⟩

theorem takes_forStmt (hlist : TakesList stop list) {t : Token} (ht : t.kind = .forWord) :
    Takes stop (forStmt list t.pos) fun us rest s => Phrase (t :: us) (rest.headD stop) s := by
  refine ⟨fun {ts s c} h => ?_⟩
  rw [forStmt] at h
  obtain ⟨v, ts, rfl, hv, h⟩ := exists_of_run_expect hstop (by decide) h
  obtain ⟨_, ts, _, rfl, ⟨a, rfl, ha⟩, hrun⟩ := (takes_assignSign hstop).of_bind h
  obtain ⟨us, ts, start, rfl, hstart, h⟩ := (Expr.takes_read hstop).of_bind hrun
  have hlimit := takes_forLimit hstop hlist t.pos v.text
  rcases exists_of_run_accept hstop (by decide) h with ⟨d, ts, rfl, hd, h⟩ | ⟨-, h⟩
  · obtain ⟨_, ts, rfl, rfl, vs, ws, o, bs, limit, step, b, rfl, rfl, hvs, hws, ho, hb⟩ :=
      (hlimit true start).of_run h
    exact ⟨v :: a :: (us ++ d :: (vs ++ (ws ++ o :: bs))), ts, by simp, rfl,
      .forLoop ht hv ha hstart hd hvs hws ho hb⟩
  · obtain ⟨d, ts, rfl, hd, h⟩ := exists_of_run_expect hstop (by decide) h
    obtain ⟨_, ts, rfl, rfl, vs, ws, o, bs, limit, step, b, rfl, rfl, hvs, hws, ho, hb⟩ :=
      (hlimit false start).of_run h
    exact ⟨v :: a :: (us ++ d :: (vs ++ (ws ++ o :: bs))), ts, by simp, rfl,
      .forLoop ht hv ha hstart hd hvs hws ho hb⟩

theorem takes_whileStmt (hlist : TakesList stop list) {t : Token} (ht : t.kind = .whileWord) :
    Takes stop (whileStmt list t.pos) fun us rest s => Phrase (t :: us) (rest.headD stop) s := by
  refine ⟨fun {ts s c} h => ?_⟩
  rw [whileStmt] at h
  obtain ⟨us, ts, cond, rfl, hcond, h⟩ := (Expr.takes_read hstop).of_bind h
  obtain ⟨o, ts, rfl, ho, h⟩ := exists_of_run_expect hstop (by decide) h
  obtain ⟨bs, ts, b, rfl, hb, h⟩ := (takes_body hstop hlist).of_bind h
  obtain ⟨rfl, rfl⟩ := run_pure_ok.mp h
  exact ⟨us ++ o :: bs, ts, by simp, rfl, .whileLoop ht hcond ho hb⟩

theorem takes_repeatStmt (hlist : TakesList stop list) {t : Token} (ht : t.kind = .repeatWord) :
    Takes stop (repeatStmt list t.pos) fun us rest s => Phrase (t :: us) (rest.headD stop) s := by
  refine ⟨fun {ts s c} h => ?_⟩
  rw [repeatStmt] at h
  obtain ⟨us, ts, stmts, rfl, hstmts, h⟩ := (hlist _).of_bind h
  rw [run_here_bind] at h
  obtain ⟨u, ts, rfl, hu, h⟩ := exists_of_run_expect hstop (by decide) h
  obtain ⟨vs, ts, cond, rfl, hcond, h⟩ := (Expr.takes_read hstop).of_bind h
  obtain ⟨rfl, rfl⟩ := run_pure_ok.mp h
  exact ⟨us ++ u :: vs, ts, by simp, rfl, .repeatLoop ht hstmts hu hcond⟩

/-- The closing `end` of a conditional is read where the last branch asks for it. -/
theorem takes_closing (complete : Bool) {s : Stmt} :
    Takes stop (do
      if !complete then
        let _ ← expect .endWord "'end'"
      return s) fun es rest s' =>
        s' = s ∧ Closing (rest.headD stop) complete es ((es ++ rest).headD stop) := by
  refine ⟨fun {ts s' c} h => ?_⟩
  cases complete with
  | true =>
      obtain ⟨rfl, rfl⟩ := run_pure_ok.mp h
      exact ⟨[], ts, rfl, rfl, rfl, .complete⟩
  | false =>
      obtain ⟨e, ts, rfl, he, h⟩ := exists_of_run_expect hstop (by decide) h
      obtain ⟨rfl, rfl⟩ := run_pure_ok.mp h
      exact ⟨[e], ts, rfl, rfl, rfl, .ended he⟩

theorem takes_ifStmt (hstmt : TakesStmt stop stmt) (hlist : TakesList stop list) {t : Token}
    (ht : t.kind = .ifWord) :
    Takes stop (ifStmt stmt list t.pos) fun us rest s => Phrase (t :: us) (rest.headD stop) s := by
  refine ⟨fun {ts s c} h => ?_⟩
  rw [ifStmt] at h
  obtain ⟨us, ts, cond, rfl, hcond, h⟩ := (Expr.takes_read hstop).of_bind h
  obtain ⟨o, ts, rfl, ho, h⟩ := exists_of_run_expect hstop (by decide) h
  obtain ⟨bs, ts, ⟨thenBlock, thenComplete⟩, rfl, hthen, h⟩ :=
    (takes_branch hstop hstmt hlist o _).of_bind h
  dsimp only at h hthen
  rw [run_kind_bind] at h
  split at h
  case isFalse =>
    obtain ⟨es, ts, rfl, rfl, rfl, hes⟩ := (takes_closing hstop thenComplete).of_run h
    exact ⟨us ++ o :: (bs ++ es), ts, by simp, rfl, .ifThen ht hcond ho hthen hes⟩
  case isTrue helse =>
    obtain ⟨u, ts, rfl, hu⟩ := Token.Cursor.exists_cons hstop helse (by decide)
    rw [run_take_bind, run_kind_bind] at h
    split at h
    case isTrue =>
      obtain ⟨vs, ts, inner, rfl, hinner, h⟩ := hstmt.of_bind h
      rw [run_here_bind, Token.Cursor.peek_cons, Token.Cursor.peek_eq_headD] at h
      obtain ⟨rfl, rfl⟩ := run_pure_ok.mp h
      exact ⟨us ++ o :: (bs ++ u :: (vs ++ [])), ts, by simp, rfl,
        .ifElse ht hcond ho hthen hu (.single hinner) .complete⟩
    case isFalse =>
      obtain ⟨vs, ts, ⟨elseBlock, complete⟩, rfl, hbranch, h⟩ :=
        (takes_branch hstop hstmt hlist u _).of_bind h
      dsimp only at h hbranch
      obtain ⟨es, ts, rfl, rfl, rfl, hes⟩ := (takes_closing hstop complete).of_run h
      exact ⟨us ++ o :: (bs ++ u :: (vs ++ es)), ts, by simp, rfl,
        .ifElse ht hcond ho hthen hu hbranch hes⟩

/-! ### Calls, returns and assignments -/

theorem takes_callStmt {t : Token} (ht : t.kind = .callWord) :
    Takes stop (callStmt t.pos) fun us rest s => Phrase (t :: us) (rest.headD stop) s := by
  refine ⟨fun {ts s c} h => ?_⟩
  rw [callStmt] at h
  obtain ⟨_, ts, u, rfl, ⟨rfl, hu⟩, hrun⟩ := (Expr.takes_procedureName hstop).of_bind h
  obtain ⟨us, ts, args, rfl, hargs, h⟩ :=
    (Expr.takes_arguments hstop (Expr.takes_read hstop) true).of_bind hrun
  obtain ⟨rfl, rfl⟩ := run_pure_ok.mp h
  have hcall : CallPhrase us args := by
    rcases hargs with hargs | ⟨-, rfl, rfl⟩
    · exact .arguments hargs
    · exact .bare
  exact ⟨u :: us, ts, rfl, rfl, .explicitCall ht hu hcall⟩

theorem takes_returnStmt {t : Token} (ht : t.kind = .returnWord) :
    Takes stop (returnStmt t.pos) fun us rest s => Phrase (t :: us) (rest.headD stop) s := by
  refine ⟨fun {ts s c} h => ?_⟩
  rw [returnStmt, run_peek_bind] at h
  split at h
  case isTrue =>
    obtain ⟨us, ts, value, rfl, hvalue, h⟩ := (Expr.takes_read hstop).of_bind h
    obtain ⟨rfl, rfl⟩ := run_pure_ok.mp h
    exact ⟨us, ts, rfl, rfl, .valueReturn ht hvalue⟩
  case isFalse =>
    obtain ⟨rfl, rfl⟩ := run_pure_ok.mp h
    exact ⟨[], ts, rfl, rfl, .bareReturn ht⟩

theorem takes_printStmt {t : Token} (ht : t.kind = .printWord) :
    Takes stop (printStmt t.pos) fun us rest s => Phrase (t :: us) (rest.headD stop) s := by
  refine ⟨fun {ts s c} h => ?_⟩
  rw [printStmt, run_kind_bind] at h
  split at h
  case isTrue =>
    obtain ⟨us, ts, args, rfl, hargs, h⟩ :=
      (Expr.takes_items hstop (Expr.takes_read hstop)).of_bind h
    obtain ⟨rfl, rfl⟩ := run_pure_ok.mp h
    exact ⟨us, ts, rfl, rfl, .print ht (.items hargs)⟩
  case isFalse =>
    obtain ⟨rfl, rfl⟩ := run_pure_ok.mp h
    exact ⟨[], ts, rfl, rfl, .print ht .bare⟩

/-- A name with what is read after it is a phrase on the level of subscripts. -/
theorem takes_designator {t : Token} (ht : t.kind = .ident) :
    Takes stop (designator t) fun us _ e => Expr.Phrase 9 (t :: us) e := by
  refine ⟨fun {ts e c} h => ?_⟩
  rw [designator, run_remaining_bind] at h
  exact (Expr.takes_accesses hstop (Expr.takes_read hstop) (Expr.Phrase.name ht).looser _).of_run h

theorem takes_swapStmt {t : Token} (ht : t.kind = .swapWord) :
    Takes stop (swapStmt t.pos) fun us rest s => Phrase (t :: us) (rest.headD stop) s := by
  refine ⟨fun {ts s c} h => ?_⟩
  rw [swapStmt, run_kind_bind] at h
  split at h
  case isTrue =>
    obtain ⟨us, ts, args, rfl, hargs, h⟩ :=
      (Expr.takes_parentheses hstop (Expr.takes_read hstop)).of_bind h
    obtain ⟨rfl, rfl⟩ := run_pure_ok.mp h
    exact ⟨us, ts, rfl, rfl, .swapCall ht hargs⟩
  case isFalse =>
    obtain ⟨a, ts, rfl, ha, h⟩ := exists_of_run_expect hstop (by decide) h
    obtain ⟨us, ts, first, rfl, hfirst, h⟩ := (takes_designator hstop ha).of_bind h
    obtain ⟨w, ts, rfl, hw, h⟩ := exists_of_run_expect hstop (by decide) h
    obtain ⟨b, ts, rfl, hb, h⟩ := exists_of_run_expect hstop (by decide) h
    obtain ⟨vs, ts, second, rfl, hsecond, h⟩ := (takes_designator hstop hb).of_bind h
    obtain ⟨rfl, rfl⟩ := run_pure_ok.mp h
    exact ⟨a :: us ++ w :: (b :: vs), ts, by simp, rfl, .swapWith ht hfirst hw hsecond⟩

theorem takes_nameStmt {t : Token} (ht : t.kind = .ident) :
    Takes stop (nameStmt t) fun us rest s => Phrase (t :: us) (rest.headD stop) s := by
  refine ⟨fun {ts s c} h => ?_⟩
  rw [nameStmt, run_kind_bind] at h
  split at h
  case isTrue =>
    obtain ⟨us, ts, args, rfl, hargs, h⟩ :=
      (Expr.takes_parentheses hstop (Expr.takes_read hstop)).of_bind h
    obtain ⟨rfl, rfl⟩ := run_pure_ok.mp h
    exact ⟨us, ts, rfl, rfl, .call ht hargs⟩
  case isFalse =>
    obtain ⟨us, ts, target, rfl, htarget, h⟩ := (takes_designator hstop ht).of_bind h
    obtain ⟨_, ts, _, rfl, ⟨a, rfl, ha⟩, hrun⟩ := (takes_assignSign hstop).of_bind h
    obtain ⟨vs, ts, value, rfl, hvalue, h⟩ := (Expr.takes_read hstop).of_bind hrun
    obtain ⟨rfl, rfl⟩ := run_pure_ok.mp h
    exact ⟨us ++ a :: vs, ts, by simp, rfl, .assign ht htarget ha hvalue⟩

/-! ### Statements -/

theorem takes_stmtOver (hstmt : TakesStmt stop stmt) (hlist : TakesList stop list) :
    TakesStmt stop (stmtOver stmt list) := by
  refine ⟨fun {ts s c} h => ?_⟩
  rw [stmtOver, run_peek_bind] at h
  by_cases heof : Token.Cursor.kind ⟨ts, stop⟩ = .eof
  · rw [Token.Cursor.kind] at heof
    rw [heof] at h
    exact absurd h run_fail_ne
  obtain ⟨t, ts, rfl, -⟩ := Token.Cursor.exists_cons hstop rfl heof
  rw [Token.Cursor.peek_cons] at h
  have hfirst : ∀ r : Reading Stmt, (Takes stop r fun us rest s =>
      Phrase (t :: us) (rest.headD stop) s) → r.run ⟨ts, stop⟩ = .ok (s, c) →
      ∃ us rest, t :: ts = us ++ rest ∧ c = ⟨rest, stop⟩ ∧ Phrase us (rest.headD stop) s := by
    intro r hr hrun
    obtain ⟨us, rest, rfl, rfl, hs⟩ := hr.of_run hrun
    exact ⟨t :: us, rest, rfl, rfl, hs⟩
  split at h
  case h_1 ht => exact hfirst _ (takes_forStmt hstop hlist ht) h
  case h_2 ht => exact hfirst _ (takes_whileStmt hstop hlist ht) h
  case h_3 ht => exact hfirst _ (takes_repeatStmt hstop hlist ht) h
  case h_4 ht => exact hfirst _ (takes_ifStmt hstop hstmt hlist ht) h
  case h_5 ht => exact hfirst _ (takes_callStmt hstop ht) h
  case h_6 ht => exact hfirst _ (takes_returnStmt hstop ht) h
  case h_7 ht => exact hfirst _ (takes_printStmt hstop ht) h
  case h_8 ht => exact hfirst _ (takes_swapStmt hstop ht) h
  case h_9 ht => exact hfirst _ (takes_nameStmt hstop ht) h
  case h_10 => exact absurd h run_fail_ne

end Nested

/-- Statements and lists of statements, read over each other. -/
theorem takes_statements (hstop : stop.kind = .eof) (depth : Nat) :
    TakesStmt stop (readWithin depth) ∧ TakesList stop (readList depth) := by
  induction depth with
  | zero =>
      refine ⟨?_, fun stops => ?_⟩
      · rw [readWithin]
        exact .exhausted
      · rw [readList]
        exact .exhausted
  | succ depth ih =>
      obtain ⟨hwithin, hlist⟩ := ih
      refine ⟨?_, fun stops => ⟨fun {ts stmts c} h => ?_⟩⟩
      · rw [readWithin]
        exact takes_stmtOver hstop hwithin hlist
      · rw [readList, run_remaining_bind] at h
        exact (takes_upTo hstop hwithin (takes_block hstop hlist) stops _).of_run h

/-- Statements that are read are written down by the tokens taken. -/
theorem takes_listReading (hstop : stop.kind = .eof) : TakesList stop listReading := by
  intro stops
  refine ⟨fun {ts stmts c} h => ?_⟩
  rw [listReading, run_remaining_bind] at h
  exact ((takes_statements hstop _).2 stops).of_run h

end Stmt

end PseudoCost
