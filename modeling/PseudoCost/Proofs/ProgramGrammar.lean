import PseudoCost.Proofs.Concatenation
import PseudoCost.Proofs.StmtGrammar

/-!
# The grammar of programs

`Program.Phrase kept ts stop p` says that the tokens `ts`, before the end token `stop`, write the
program `p` down. A program is read as a whole: a token list that is read as a program is a phrase
for it, from its first token to its last (`phrase_of_ofTokens`).

The shape after an array parameter is kept as text, whatever its tokens are. So a phrase has two
lists of tokens: `ts` are all of them, and `kept` are those outside of the shapes.
-/

namespace PseudoCost

open Reading

namespace Procedure

/-! ## Shapes and parameters -/

/-- How many brackets are open after a token, if `depth` are before it. -/
def openAfter (t : Token) (depth : Nat) : Nat :=
  match t.kind with
  | .lbracket => depth + 1
  | .rbracket => depth - 1
  | _ => depth

/-- The tokens up to the bracket that closes `depth` open ones, and their lexemes. -/
inductive BracketPhrase : Nat → List Token → Text → Prop
  | last {depth t} : openAfter t depth = 0 → BracketPhrase depth [t] t.lexeme
  | cons {depth t us text} : openAfter t depth ≠ 0 → BracketPhrase (openAfter t depth) us text →
      BracketPhrase depth (t :: us) (t.lexeme ++ text)

/-- The dots that may join an index range in brackets to the one before. -/
inductive DotsPhrase : List Token → Text → Prop
  | none : DotsPhrase [] []
  | some {t} : t.kind = .dotDot → DotsPhrase [t] ".."

/-- The tokens of an array shape, and its text. -/
inductive ShapePhrase : List Token → Text → Prop
  | nil : ShapePhrase [] []
  | cons {ds dots o us inner vs text} : DotsPhrase ds dots → o.kind = .lbracket →
      BracketPhrase 1 us inner → ShapePhrase vs text →
      ShapePhrase (ds ++ o :: (us ++ vs)) (dots ++ "[" ++ inner ++ text)

/-- The tokens of one or more parameters, separated by commas. -/
inductive ParamsPhrase : List Token → List Token → List Param → Prop
  | last {t us shape} : t.kind = .ident → ShapePhrase us shape →
      ParamsPhrase [t] (t :: us) [⟨t.text, shape⟩]
  | cons {t us shape u kept vs params} : t.kind = .ident → ShapePhrase us shape → u.kind = .comma →
      ParamsPhrase kept vs params →
      ParamsPhrase (t :: u :: kept) (t :: (us ++ u :: vs)) (⟨t.text, shape⟩ :: params)

/-- The tokens of a parameter list, which may be empty. -/
inductive ParamListPhrase : List Token → List Token → List Param → Prop
  | none : ParamListPhrase [] [] []
  | some {kept us params} : ParamsPhrase kept us params → ParamListPhrase kept us params

/-! ## Procedures -/

/-- The word that may stand before a procedure. -/
inductive LeadPhrase : List Token → Prop
  | none : LeadPhrase []
  | some {t} : t.kind = .procedureWord → LeadPhrase [t]

/-- The tokens write the procedure down; `kept` are those outside of the shapes of parameters. -/
inductive Phrase : List Token → List Token → Procedure → Prop
  | mk {ws n o kept ps c bs params body} : LeadPhrase ws → n.kind = .ident ∨ n.kind = .swapWord →
      o.kind = .lparen → ParamListPhrase kept ps params → c.kind = .rparen →
      Stmt.BodyPhrase bs body →
      Phrase (ws ++ n :: o :: (kept ++ c :: bs)) (ws ++ n :: o :: (ps ++ c :: bs))
        ⟨(ws.headD n).pos, n.text, n.lexeme, params, body⟩

/-- The tokens of some procedures, one after the other. -/
inductive Phrases : List Token → List Token → List Procedure → Prop
  | nil : Phrases [] [] []
  | cons {kept us kept' vs p procedures} : Phrase kept us p → Phrases kept' vs procedures →
      Phrases (kept ++ kept') (us ++ vs) (p :: procedures)

/-! ## Readers take phrases -/

variable {stop : Token} (hstop : stop.kind = .eof)
include hstop

theorem takes_bracketText (fuel depth : Nat) :
    Takes stop (bracketText fuel depth) fun us _ text => BracketPhrase depth us text := by
  induction fuel generalizing depth with
  | zero => exact .exhausted
  | succ fuel ih =>
      refine ⟨fun {ts text c} h => ?_⟩
      rw [bracketText, run_kind_bind] at h
      split at h
      case isTrue => exact absurd h run_fail_ne
      case isFalse hne =>
        obtain ⟨t, ts, rfl, -⟩ := Token.Cursor.exists_cons hstop rfl hne
        rw [run_take_bind] at h
        change (if openAfter t depth = 0 then pure t.lexeme
          else do return t.lexeme ++ (← bracketText fuel (openAfter t depth)) : Reading Text).run
            ⟨ts, stop⟩ = _ at h
        split at h
        case isTrue hzero =>
          obtain ⟨rfl, rfl⟩ := run_pure_ok.mp h
          exact ⟨[t], ts, rfl, rfl, .last hzero⟩
        case isFalse hpos =>
          obtain ⟨us, ts, text, rfl, htext, h⟩ := (ih _).of_bind h
          obtain ⟨rfl, rfl⟩ := run_pure_ok.mp h
          exact ⟨t :: us, ts, rfl, rfl, .cons hpos htext⟩

theorem takes_shapeText (fuel : Nat) :
    Takes stop (shapeText fuel) fun us _ text => ShapePhrase us text := by
  induction fuel with
  | zero => exact .exhausted
  | succ fuel ih =>
      refine ⟨fun {ts text c} h => ?_⟩
      simp only [shapeText, run_kind_bind, run_nextKind_bind] at h
      split at h
      case isFalse =>
        obtain ⟨rfl, rfl⟩ := run_pure_ok.mp h
        exact ⟨[], ts, rfl, rfl, .nil⟩
      case isTrue =>
        have hdots : ∃ ds dots rest, ts = ds ++ rest ∧ DotsPhrase ds dots
            ∧ (do
              let _ ← expect .lbracket "'['"
              let inner ← bracketText ((← remaining) + 1) 1
              return dots ++ "[" ++ inner ++ (← shapeText fuel)).run ⟨rest, stop⟩
                = .ok (text, c) := by
          rcases exists_of_run_accept hstop (by decide) h with ⟨d, ts, rfl, hd, h⟩ | ⟨-, h⟩
          · exact ⟨[d], "..", ts, rfl, .some hd, h⟩
          · exact ⟨[], [], ts, rfl, .none, h⟩
        obtain ⟨ds, dots, ts, rfl, hds, hrun⟩ := hdots
        obtain ⟨o, ts, rfl, ho, h⟩ := exists_of_run_expect hstop (by decide) hrun
        rw [run_remaining_bind] at h
        obtain ⟨us, ts, inner, rfl, hinner, h⟩ := (takes_bracketText hstop _ _).of_bind h
        obtain ⟨vs, ts, text, rfl, htext, h⟩ := ih.of_bind h
        obtain ⟨rfl, rfl⟩ := run_pure_ok.mp h
        exact ⟨ds ++ o :: (us ++ vs), ts, by simp, rfl, .cons hds ho hinner htext⟩

theorem takes_param : Takes stop param fun us _ p =>
    ∃ t vs shape, us = t :: vs ∧ p = ⟨t.text, shape⟩ ∧ t.kind = .ident ∧ ShapePhrase vs shape := by
  refine ⟨fun {ts p c} h => ?_⟩
  rw [param] at h
  obtain ⟨t, ts, rfl, ht, h⟩ := exists_of_run_expect hstop (by decide) h
  rw [run_remaining_bind] at h
  obtain ⟨vs, ts, shape, rfl, hshape, h⟩ := (takes_shapeText hstop _).of_bind h
  obtain ⟨rfl, rfl⟩ := run_pure_ok.mp h
  exact ⟨t :: vs, ts, rfl, rfl, t, vs, shape, rfl, rfl, ht, hshape⟩

theorem takes_moreParams {t : Token} {us : List Token} {shape : Text} (ht : t.kind = .ident)
    (hshape : ShapePhrase us shape) (fuel : Nat) :
    Takes stop (moreItems param fuel) fun vs _ params =>
      ∃ kept, ParamsPhrase kept (t :: (us ++ vs)) (⟨t.text, shape⟩ :: params) := by
  induction fuel generalizing t us shape with
  | zero => exact .exhausted
  | succ fuel ih =>
      refine ⟨fun {ts params c} h => ?_⟩
      rw [moreItems] at h
      rcases exists_of_run_accept hstop (by decide) h with ⟨u, ts, rfl, hu, h⟩ | ⟨-, h⟩
      · rw [if_pos rfl] at h
        obtain ⟨_, ts, _, rfl, ⟨v, vs, shape', rfl, rfl, hv, hshape'⟩, hrun⟩ :=
          (takes_param hstop).of_bind h
        obtain ⟨ws, ts, params, rfl, ⟨kept, hkept⟩, h⟩ := (ih hv hshape').of_bind hrun
        obtain ⟨rfl, rfl⟩ := run_pure_ok.mp h
        exact ⟨u :: v :: (vs ++ ws), ts, by simp, rfl, t :: u :: kept, .cons ht hshape hu hkept⟩
      · obtain ⟨rfl, rfl⟩ := run_pure_ok.mp h
        exact ⟨[], ts, rfl, rfl, [t], by simpa using .last ht hshape⟩

theorem takes_params : Takes stop (items param) fun us _ params =>
    ∃ kept, ParamsPhrase kept us params := by
  refine ⟨fun {ts params c} h => ?_⟩
  rw [items] at h
  obtain ⟨_, ts, _, rfl, ⟨t, us, shape, rfl, rfl, ht, hshape⟩, hrun⟩ :=
    (takes_param hstop).of_bind h
  rw [run_remaining_bind] at hrun
  obtain ⟨vs, ts, params, rfl, hparams, h⟩ := (takes_moreParams hstop ht hshape _).of_bind hrun
  obtain ⟨rfl, rfl⟩ := run_pure_ok.mp h
  exact ⟨t :: (us ++ vs), ts, by simp, rfl, hparams⟩

theorem takes_read : Takes stop read fun us _ p => ∃ kept, Phrase kept us p := by
  refine ⟨fun {ts p c} h => ?_⟩
  rw [read, run_peek_bind] at h
  have hlead : ∃ ws n rest, ts = ws ++ n :: rest ∧ LeadPhrase ws
      ∧ (n.kind = .ident ∨ n.kind = .swapWord)
      ∧ (do
        let _ ← expect .lparen "'('"
        let params ← if (← kind) = .rparen then pure [] else items param
        let _ ← expect .rparen "')'"
        return ⟨Token.Cursor.peek ⟨ts, stop⟩ |>.pos, n.text, n.lexeme, params,
          ← Stmt.body Stmt.listReading⟩ : Reading Procedure).run ⟨rest, stop⟩ = .ok (p, c) := by
    rcases exists_of_run_accept hstop (by decide) h with ⟨w, ts, rfl, hw, h⟩ | ⟨-, h⟩
    · obtain ⟨_, ts, n, rfl, ⟨rfl, hn⟩, hrun⟩ := (Expr.takes_procedureName hstop).of_bind h
      exact ⟨[w], n, ts, rfl, .some hw, hn, hrun⟩
    · obtain ⟨_, ts, n, rfl, ⟨rfl, hn⟩, hrun⟩ := (Expr.takes_procedureName hstop).of_bind h
      exact ⟨[], n, ts, rfl, .none, hn, hrun⟩
  obtain ⟨ws, n, ts, rfl, hws, hn, hrun⟩ := hlead
  obtain ⟨o, ts, rfl, ho, h⟩ := exists_of_run_expect hstop (by decide) hrun
  rw [run_kind_bind] at h
  have hparams : ∃ ps kept params rest, ts = ps ++ rest ∧ ParamListPhrase kept ps params
      ∧ (do
        let _ ← expect .rparen "')'"
        return ⟨(ws.headD n).pos, n.text, n.lexeme, params,
          ← Stmt.body Stmt.listReading⟩ : Reading Procedure).run ⟨rest, stop⟩ = .ok (p, c) := by
    have hpos : Token.Cursor.peek ⟨ws ++ n :: o :: ts, stop⟩ = ws.headD n := by
      rw [Token.Cursor.peek_eq_headD, Stmt.headD_append, List.headD_cons]
    rw [hpos] at h
    split at h
    case isTrue => exact ⟨[], [], [], ts, rfl, .none, h⟩
    case isFalse =>
      obtain ⟨ps, ts, params, rfl, ⟨kept, hkept⟩, h⟩ := (takes_params hstop).of_bind h
      exact ⟨ps, kept, params, ts, rfl, .some hkept, h⟩
  obtain ⟨ps, kept, params, ts, rfl, hps, hrun⟩ := hparams
  obtain ⟨cl, ts, rfl, hcl, h⟩ := exists_of_run_expect hstop (by decide) hrun
  obtain ⟨bs, ts, b, rfl, hb, h⟩ :=
    (Stmt.takes_body hstop (Stmt.takes_listReading hstop)).of_bind h
  obtain ⟨rfl, rfl⟩ := run_pure_ok.mp h
  exact ⟨ws ++ n :: o :: (ps ++ cl :: bs), ts, by simp, rfl, _, .mk hws hn ho hps hcl hb⟩

theorem takes_readAll (fuel : Nat) : Takes stop (readAll fuel) fun us _ procedures =>
    ∃ kept, Phrases kept us procedures := by
  induction fuel with
  | zero => exact .exhausted
  | succ fuel ih =>
      refine ⟨fun {ts procedures c} h => ?_⟩
      by_cases hstart : Lockstep.AtProcedure ⟨ts, stop⟩
      · rw [readAll, run_bind_ok (Lockstep.run_atStart hstart), if_pos rfl] at h
        obtain ⟨us, ts, p, rfl, ⟨kept, hp⟩, h⟩ := (takes_read hstop).of_bind h
        obtain ⟨vs, ts, rest, rfl, ⟨kept', hrest⟩, h⟩ := ih.of_bind h
        obtain ⟨rfl, rfl⟩ := run_pure_ok.mp h
        exact ⟨us ++ vs, ts, by simp, rfl, kept ++ kept', .cons hp hrest⟩
      · rw [Lockstep.run_readAll_of_not hstart] at h
        cases h
        exact ⟨[], ts, rfl, rfl, [], .nil⟩

end Procedure

namespace Program

/-! ## Programs -/

/-- The tokens, before the end token `stop`, write the program down; `kept` are those outside of the
shapes of parameters. -/
inductive Phrase : List Token → List Token → Token → Program → Prop
  | withMain {ss kept us before bs main gs kept' vs after stop} : (∀ t ∈ ss, t.kind = .semicolon) →
      Procedure.Phrases kept us before → Stmt.GroupPhrase bs main →
      (∀ t ∈ gs, t.kind = .semicolon ∨ t.kind = .dot) → Procedure.Phrases kept' vs after →
      Phrase (ss ++ (kept ++ (bs ++ (gs ++ kept')))) (ss ++ (us ++ (bs ++ (gs ++ vs)))) stop
        ⟨((ss ++ (us ++ (bs ++ (gs ++ vs)))).headD stop).pos, before ++ after, some main⟩
  | withoutMain {ss kept us procedures stop} : (∀ t ∈ ss, t.kind = .semicolon) →
      Procedure.Phrases kept us procedures →
      Phrase (ss ++ kept) (ss ++ us) stop ⟨((ss ++ us).headD stop).pos, procedures, none⟩

/-- A program is read up to the end of the input. -/
theorem takes_read {stop : Token} (hstop : stop.kind = .eof) :
    Takes stop read fun us rest p => Token.Cursor.kind ⟨rest, stop⟩ = .eof
      ∧ ∃ kept, Phrase kept us (rest.headD stop) p := by
  refine ⟨fun {ts p c} h => ?_⟩
  have hprocedures := Procedure.takes_readAll hstop
  obtain ⟨ss, ts, rfl, hss, hskip⟩ := Stmt.exists_of_skipAll stop [.semicolon] ts
  have hsemicolons : ∀ t ∈ ss, t.kind = .semicolon := by simpa using hss
  rw [run_read hstop, hskip, Token.Cursor.peek_eq_headD] at h
  obtain ⟨us, ts, before, rfl, ⟨kept, hbefore⟩, h⟩ := (hprocedures _).of_bind h
  rw [afterProcedures, run_kind_bind] at h
  split at h
  case isTrue =>
    obtain ⟨bs, ts, main, rfl, hmain, h⟩ :=
      (Stmt.takes_block hstop (Stmt.takes_listReading hstop)).of_bind h
    obtain ⟨gs, ts, rfl, hgs, hskip⟩ := Stmt.exists_of_skipAll stop [.semicolon, .dot] ts
    rw [run_skipAll_bind (by decide) hstop, hskip, run_remaining_bind] at h
    obtain ⟨vs, ts, after, rfl, ⟨kept', hafter⟩, h⟩ := (hprocedures _).of_bind h
    rw [run_kind_bind] at h
    obtain ⟨hend, rfl, rfl⟩ := eq_of_run_atEnd h
    have hphrase : Phrase _ _ (ts.headD stop) _ :=
      .withMain hsemicolons hbefore hmain (by simpa using hgs) hafter
    rw [← Stmt.headD_append] at hphrase
    exact ⟨ss ++ (us ++ (bs ++ (gs ++ vs))), ts, by simp, rfl, hend, _, by simpa using hphrase⟩
  case isFalse =>
    rw [run_kind_bind] at h
    obtain ⟨hend, rfl, rfl⟩ := eq_of_run_atEnd h
    have hphrase : Phrase _ _ (ts.headD stop) _ := .withoutMain hsemicolons hbefore
    rw [← Stmt.headD_append] at hphrase
    exact ⟨ss ++ us, ts, by simp, rfl, hend, _, by simpa using hphrase⟩

/-- A token list that is read as a program writes it down. -/
theorem phrase_of_ofTokens {body : List Token} {last : Token} (hbody : ∀ t ∈ body, t.kind ≠ .eof)
    (hlast : last.kind = .eof) {p : Program} (h : ofTokens (body ++ [last]) = .ok p) :
    ∃ kept, Phrase kept body last p ∧ read.run ⟨body, last⟩ = .ok (p, ⟨[], last⟩) := by
  rw [ofTokens_eq_ok_iff, Token.Cursor.ofTokens_append hbody hlast] at h
  obtain ⟨c, h⟩ := h
  obtain ⟨us, rest, rfl, rfl, hend, kept, hphrase⟩ := (takes_read hlast).of_run h
  have hrest : rest = [] := by
    cases rest with
    | nil => rfl
    | cons t rest => exact absurd hend (hbody t (by simp))
  subst hrest
  rw [List.append_nil] at h ⊢
  exact ⟨kept, hphrase, h⟩

end Program

end PseudoCost
