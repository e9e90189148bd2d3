import PseudoCost.Proofs.StatementReading

/-!
# Reading programs back

The reader accepts every well-formed program in words and finds the program again: whatever tokens
spell the words, wherever they stand, the result differs from the program only in positions and in
the marks of explicit blocks. A procedure is told from the main body by its first word, so the
procedures end where `begin` or the end of the input stands.
-/

namespace PseudoCost

open Reading

variable {stop : Token} {rest : List Token}

namespace Procedure

/-! ## Parameters -/

theorem reads_shapeText {c : Token.Cursor} (h : c.kind = .comma ∨ c.kind = .rparen) (fuel : Nat) :
    Reads (shapeText (fuel + 1)) c c fun shape => shape = [] := by
  rcases h with h | h <;> simp [shapeText, h]

theorem reads_param {t : Token} (ht : t.kind = .ident) {p : Param} (hname : t.text = p.name)
    (hshape : p.shape = [])
    (hrest : Token.Cursor.kind ⟨rest, stop⟩ = .comma ∨ Token.Cursor.kind ⟨rest, stop⟩ = .rparen) :
    Reads param ⟨t :: rest, stop⟩ ⟨rest, stop⟩ fun q => q = p := by
  simp only [param, reads_expect_bind, Token.Cursor.kind_cons, ht, Token.Cursor.peek_cons,
    Token.Cursor.advance_cons, reads_remaining_bind]
  refine (reads_shapeText hrest _).bind fun shape hshape' => Reads.pure ?_
  rw [hname, hshape', ← hshape]

theorem reads_moreParams (hrest : Token.Cursor.kind ⟨rest, stop⟩ = .rparen) :
    ∀ {ps : List Param}, (∀ p ∈ ps, p.shape = []) → ∀ {ts : List Token} {f : Nat},
    Spelled (Param.moreWords ps) ts → ts.length < f →
    (Token.Cursor.kind ⟨ts ++ rest, stop⟩ = .comma
        ∨ Token.Cursor.kind ⟨ts ++ rest, stop⟩ = .rparen)
      ∧ Reads (moreItems param f) ⟨ts ++ rest, stop⟩ ⟨rest, stop⟩ fun qs => qs = ps
  | [], _, ts, fuel, hts, hfuel => by
      have hnil : Spelled [] ts := hts
      obtain ⟨fuel, rfl⟩ : ∃ f, fuel = f + 1 := ⟨fuel - 1, by omega⟩
      rw [hnil.nil, List.nil_append]
      exact ⟨Or.inr hrest, by simp [moreItems, hrest]⟩
  | p :: ps, hps, ts, fuel, hts, hfuel => by
      obtain ⟨t, ts, rfl, ht, hts⟩ := hts.mark
      obtain ⟨u, ts, rfl, hu, hname, hts⟩ := hts.ident
      obtain ⟨fuel, rfl⟩ : ∃ f, fuel = f + 1 := ⟨fuel - 1, by omega⟩
      simp only [List.length_cons] at hfuel
      obtain ⟨hkind, hmore⟩ := reads_moreParams hrest
        (fun q hq => hps q (List.mem_cons_of_mem _ hq)) hts (f := fuel) (by omega)
      refine ⟨Or.inl ht, ?_⟩
      simp only [moreItems, List.cons_append, reads_accept_bind, Token.Cursor.kind_cons, ht,
        Token.Cursor.advance_cons, if_true]
      refine (reads_param hu hname (hps p List.mem_cons_self) hkind).bind fun q hq => ?_
      refine hmore.bind fun qs hqs => Reads.pure ?_
      rw [hq, hqs]

/-- A list of parameters up to its closing parenthesis, with what the reader does after it. -/
theorem reads_params {β : Type} {ps : List Param} (hps : ∀ p ∈ ps, p.shape = [])
    {ts : List Token} (hts : Spelled (Param.wordsOf ps) ts) {r : Token} (hr : r.kind = .rparen)
    {f : List Param → Reading β} {c : Token.Cursor} {P : β → Prop}
    (hf : Reads (f ps) ⟨r :: rest, stop⟩ c P) :
    Reads (do f (← if (← kind) = .rparen then pure [] else items param)) ⟨ts ++ r :: rest, stop⟩
      c P := by
  rw [reads_kind_bind]
  cases ps with
  | nil =>
      have hnil : Spelled [] ts := hts
      simpa [hnil.nil, hr] using hf
  | cons p ps =>
      obtain ⟨t, ts, rfl, ht, hname, hts⟩ := hts.ident
      have hclose : Token.Cursor.kind ⟨r :: rest, stop⟩ = .rparen := hr
      obtain ⟨hkind, hmore⟩ := reads_moreParams hclose
        (fun q hq => hps q (List.mem_cons_of_mem _ hq)) hts (f := (ts ++ r :: rest).length + 1)
        (by simp)
      have hitems : Reads (items param) ⟨t :: (ts ++ r :: rest), stop⟩ ⟨r :: rest, stop⟩
          fun qs => qs = p :: ps := by
        refine (reads_param ht hname (hps p List.mem_cons_self) hkind).bind fun q hq => ?_
        rw [reads_remaining_bind]
        refine hmore.bind fun qs hqs => Reads.pure ?_
        rw [hq, hqs]
      rw [List.cons_append, Token.Cursor.kind_cons, ht, if_neg (by decide)]
      refine hitems.bind fun qs hqs => ?_
      rwa [hqs]

/-! ## Procedures -/

theorem reads_procedure {p : Procedure} (hp : p.WellFormed) {ts : List Token}
    (hts : Spelled p.words ts) :
    Reads read ⟨ts ++ rest, stop⟩ ⟨rest, stop⟩ fun q => q.erased = p.erased := by
  rw [words] at hts
  obtain ⟨t, ts, rfl, ht, hts⟩ := hts.mark
  obtain ⟨u, ts, rfl, ⟨-, hu, hname, hdisplay⟩, hts, -⟩ := hts.cons
  obtain ⟨params, body, rfl, hparams, hbody⟩ := hts.append
  obtain ⟨l, params, r, rfl, hl, hparams, hr⟩ := hparams.inParens
  simp only [read, List.cons_append, List.append_assoc, List.nil_append, reads_peek_bind,
    Token.Cursor.peek_cons, reads_accept_bind, Token.Cursor.kind_cons, ht,
    Token.Cursor.advance_cons, Expr.reads_procedureName_bind hu, reads_expect_bind, hl]
  refine reads_params hp.1 hparams hr ?_
  rw [reads_expect_bind (by exact hr), Token.Cursor.advance_cons]
  refine (Stmt.reads_body (Stmt.listReading_reads hp.2 body.length) hbody (by omega)).bind
    fun b hb => Reads.pure ?_
  rw [erased, erased, hb, hname, hdisplay]

theorem words_first {p : Procedure} {ts : List Token} (h : Spelled p.words ts) :
    ∃ t us, ts = t :: us ∧ t.kind = .procedureWord := by
  rw [words] at h
  obtain ⟨t, us, rfl, ht, -⟩ := h.mark
  exact ⟨t, us, rfl, ht⟩

theorem reads_atStart_bind {β : Type} {c c' : Token.Cursor} {f : Bool → Reading β}
    {P : β → Prop} : Reads (atStart >>= f) c c' P ↔
      Reads (f (decide (c.kind = .procedureWord
        ∨ ((c.kind = .ident ∨ c.kind = .swapWord) ∧ c.nextKind = .lparen)))) c c' P :=
  reads_bind_iff rfl

/-- Procedures are read back up to a token that starts none. -/
theorem reads_readAll
    (hrest : Token.Cursor.kind ⟨rest, stop⟩ = .beginWord ∨ Token.Cursor.kind ⟨rest, stop⟩ = .eof) :
    ∀ {ps : List Procedure}, (∀ p ∈ ps, p.WellFormed) → ∀ {ts : List Token} {f : Nat},
    Spelled (ps.flatMap words) ts → ts.length < f →
    Reads (readAll f) ⟨ts ++ rest, stop⟩ ⟨rest, stop⟩ fun qs => qs.map erased = ps.map erased
  | [], _, ts, f, hts, hf => by
      have hnil : Spelled [] ts := hts
      obtain ⟨f, rfl⟩ : ∃ g, f = g + 1 := ⟨f - 1, by omega⟩
      rw [hnil.nil, List.nil_append]
      rcases hrest with h | h <;> simp [readAll, reads_atStart_bind, h]
  | p :: ps, hps, ts, f, hts, hf => by
      rw [List.flatMap_cons] at hts
      obtain ⟨us, vs, rfl, hus, hvs⟩ := hts.append
      obtain ⟨t, us, rfl, ht⟩ := words_first hus
      obtain ⟨f, rfl⟩ : ∃ g, f = g + 1 := ⟨f - 1, by omega⟩
      simp only [List.cons_append, List.length_cons, List.length_append] at hf
      rw [List.append_assoc, readAll, reads_atStart_bind]
      simp only [List.cons_append, Token.Cursor.kind_cons, ht, true_or, decide_true, if_true]
      refine (reads_procedure (hps p List.mem_cons_self) hus).bind fun q hq => ?_
      refine (reads_readAll hrest (fun d hd => hps d (List.mem_cons_of_mem _ hd)) hvs
        (by omega)).bind fun qs hqs => Reads.pure ?_
      rw [List.map_cons, List.map_cons, hq, hqs]

end Procedure

namespace Program

/-! ## Programs -/

/-- The tokens of a program start with the word of a procedure or of a block. -/
theorem words_first (hstop : stop.kind = .eof) {p : Program} {ts : List Token}
    (hts : Spelled p.words ts) : Token.Cursor.kind ⟨ts, stop⟩ ≠ .semicolon := by
  obtain ⟨pos, procedures, main⟩ := p
  rw [words] at hts
  cases procedures with
  | cons q qs =>
      rw [List.flatMap_cons, List.append_assoc] at hts
      obtain ⟨us, vs, rfl, hus, -⟩ := hts.append
      obtain ⟨t, us, rfl, ht⟩ := Procedure.words_first hus
      simp [ht]
  | nil =>
      cases main with
      | some b =>
          obtain ⟨us, vs, rfl, hus, -⟩ := (show Spelled (b.words ++ []) ts from hts).append
          obtain ⟨_, _, _, stmts⟩ := b
          obtain ⟨t, us, rfl, ht, -⟩ := hus.mark
          simp [ht]
      | none =>
          have hnil : Spelled [] ts := hts
          simp [hnil.nil, hstop]

theorem read_reads (hstop : stop.kind = .eof) {p : Program} (hp : p.WellFormed) {ts : List Token}
    (hts : Spelled p.words ts) :
    Reads read ⟨ts, stop⟩ ⟨[], stop⟩ fun q => q.erased = p.erased := by
  have hfirst := words_first hstop hts
  have hend : Token.Cursor.kind ⟨[], stop⟩ = .eof := hstop
  obtain ⟨us, vs, rfl, hus, hvs⟩ := hts.append
  rw [read, reads_peek_bind, reads_skipAll_bind (Token.Cursor.kind_skipAll (by decide) hstop),
    Token.Cursor.skipAll_of_not_mem (by simpa using hfirst), reads_remaining_bind]
  obtain ⟨pos, procedures, main⟩ := p
  cases main with
  | none =>
      have hnil : Spelled [] vs := hvs
      rw [hnil.nil]
      refine (Procedure.reads_readAll (Or.inr hend) hp.1 hus (by simp)).bind fun qs hqs => ?_
      simp [hstop, erased, hqs]
  | some b =>
      have hb : Spelled b.words vs := by simpa using hvs
      have hblock : Reads (Stmt.block Stmt.listReading) ⟨vs ++ [], stop⟩ ⟨[], stop⟩ fun b' =>
          b'.erased = b.erased :=
        Stmt.reads_block (Stmt.listReading_reads (hp.2 b rfl) vs.length) hb (by omega)
      have hkind : Token.Cursor.kind ⟨vs, stop⟩ = .beginWord := by
        obtain ⟨_, _, _, stmts⟩ := b
        obtain ⟨t, vs, rfl, ht, -⟩ := hb.mark
        exact ht
      refine (Procedure.reads_readAll (Or.inl hkind) hp.1 hus (by simp)).bind fun qs hqs => ?_
      rw [reads_kind_bind, if_pos hkind]
      rw [List.append_nil] at hblock
      refine hblock.bind fun b' hb' => ?_
      rw [reads_skipAll_bind (Token.Cursor.kind_skipAll (by decide) hstop),
        Token.Cursor.skipAll_of_not_mem (by simp [hstop]), reads_remaining_bind]
      -- No procedures follow the main body.
      have hnone : Spelled (([] : List Procedure).flatMap Procedure.words) [] := ⟨.nil, .nil⟩
      have hafter := Procedure.reads_readAll (Or.inr hend) (List.forall_mem_nil _) hnone
        (Nat.lt_succ_self 0)
      refine hafter.bind fun qs' hqs' => ?_
      obtain rfl : qs' = [] := by simpa using hqs'
      simp [hstop, erased, hqs, hb']

/-- Every well-formed program, however it is spelled, is accepted and read back. -/
theorem ofTokens_words (p : Program) (hp : p.WellFormed) (ts : List Token)
    (hts : Spelled p.words ts) (stop : Token) (hstop : stop.kind = .eof) :
    ∃ q, ofTokens (ts ++ [stop]) = .ok q ∧ q.erased = p.erased := by
  obtain ⟨q, hrun, hq⟩ := read_reads hstop hp hts
  refine ⟨q, ?_, hq⟩
  rw [ofTokens, Token.Cursor.ofTokens_append hts.kind_ne_eof hstop, hrun]
  rfl

/-- A procedure that counts down to zero, and a main body that calls it. -/
def countdown : Program :=
  let n : Expr := .name .nowhere [110]
  let cond : Expr := .binary .nowhere .gt n (.number .nowhere (.ofInt 0))
  let next : Expr := .binary .nowhere .sub n (.number .nowhere (.ofInt 1))
  let loop : Stmt := .whileLoop .nowhere (Control.ofCondition cond) cond
    (.mk .nowhere true .nowhere [.assign .nowhere n next])
  let body : Block := .mk .nowhere true .nowhere [loop, .give .nowhere (some n)]
  let call : Stmt := .call .nowhere [102] true [.number .nowhere (.ofInt 9)]
  ⟨.nowhere, [⟨.nowhere, [102], [70], [⟨[110], []⟩], body⟩],
    some (.mk .nowhere true .nowhere [call])⟩

/-- Tokens that spell `countdown`, on one line. -/
def countdownTokens : List Token :=
  let mark (k : Token.Kind) : Token := { kind := k }
  let n : Token := { kind := .ident, text := [110] }
  let numeral (text : Text) : Token := { kind := .number, text }
  let f : Token := { kind := .ident, text := [102], lexeme := [70] }
  [mark .procedureWord, f, mark .lparen, n, mark .rparen, mark .beginWord,
    mark .whileWord, mark .lparen, n, mark .rparen, mark .greater,
    mark .lparen, numeral [48], mark .rparen, mark .doWord, mark .beginWord,
    n, mark .assign, mark .lparen, n, mark .rparen, mark .minus,
    mark .lparen, numeral [49], mark .rparen, mark .semicolon, mark .endWord, mark .semicolon,
    mark .returnWord, n, mark .semicolon, mark .endWord,
    mark .beginWord, mark .callWord, f, mark .lparen, numeral [57], mark .rparen,
    mark .semicolon, mark .endWord]

theorem ofTokens_countdown :
    ∃ q, ofTokens (countdownTokens ++ [{ kind := .eof }]) = .ok q
      ∧ q.erased = countdown.erased := by
  have hwf : countdown.WellFormed := by
    simp [countdown, WellFormed, Procedure.WellFormed, Block.WellFormed, Stmt.AllWellFormed,
      Stmt.WellFormed, Expr.isPlace]
  exact ofTokens_words countdown hwf countdownTokens (by decide +kernel) { kind := .eof } rfl

end Program

end PseudoCost
