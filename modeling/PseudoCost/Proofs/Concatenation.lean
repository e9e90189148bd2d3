import PseudoCost.Proofs.ScriptedReading

/-!
# Programs compose by concatenation

Procedures followed by a program are a program: what each of them is read as does not depend on
what stands after it (`Program.ofTokens_compose`).

A procedure is read by a script up to its last token, and the last token is an `end`, behind which
nothing shows. So the script cannot have seen what comes next, and gives the same procedure before
other tokens. `Closed` says this of a reader; it holds of a block and of a loop's body too. The
loop over procedures goes through the first list in this way and then does on the second one what it
does there alone.
-/

namespace PseudoCost

open Reading

-- The longest definitions are sequences of some twenty readers.
set_option synthInstance.maxSize 1000

/-! ## Readers that close -/

/-- With fewer than `n` tokens left, a successful reading takes tokens behind which nothing shows,
and gives the same where others come after them. -/
class Closed {α : Type} (n : Nat) (r : Reading α) : Prop where
  exists_taken : ∀ {c d : Token.Cursor} {a : α}, c.rest.length < n → c.stop.kind = .eof →
    r.run c = .ok (a, d) → ∃ ts, c = ⟨ts ++ d.rest, d.stop⟩ ∧ Shown ts
      ∧ ∀ (B : List Token) (stop : Token), (ts ++ B).length < n → stop.kind = .eof →
        r.run ⟨ts ++ B, stop⟩ = .ok (a, ⟨B, stop⟩)

namespace Closed

variable {α β : Type} {n : Nat}

/-- A closing word is taken as it stands. -/
theorem expect {k : Token.Kind} (hk : opensPair k = false) (heof : k ≠ .eof) (expected : Text) :
    Closed n (expect k expected) where
  exists_taken {c d t} _ hstop h := by
    have hkind : c.kind = k := by
      by_contra hne
      rw [Reading.expect, run_bind_ok (rfl : kind.run c = .ok (c.kind, c)), if_neg hne] at h
      cases h
    rw [run_expect hkind] at h
    cases h
    obtain ⟨ts, hrest, hadvance⟩ := Token.Cursor.exists_rest hstop (hkind ▸ heof)
    refine ⟨[c.peek], ?_, ?_, fun B stop' _ _ => ?_⟩
    · rw [hadvance, List.singleton_append, ← hrest]
    · exact (congrArg opensPair hkind).trans hk
    · exact run_expect (c := ⟨c.peek :: B, stop'⟩) hkind

instance expectEnd (expected : Text) : Closed n (Reading.expect .endWord expected) :=
  expect rfl (by decide) expected

/-- What is put together from a closing reader's value closes as well. -/
instance map {r : Reading α} [hr : Closed n r] (f : α → β) :
    Closed n (r >>= fun a => Pure.pure (f a)) where
  exists_taken {c d b} hlt hstop h := by
    obtain ⟨a, e, hrun, hpure⟩ := exists_of_run_bind h
    cases hpure
    obtain ⟨ts, hc, hshown, hother⟩ := hr.exists_taken hlt hstop hrun
    refine ⟨ts, hc, hshown, fun B stop' hB hstop' => ?_⟩
    rw [run_bind_ok (hother B stop' hB hstop')]
    rfl

/-- Before a closing reader, a script sees no more than what that one takes. -/
instance bind {r : Reading α} [hr : Scripted n r] {f : α → Reading β}
    [hf : ∀ a, Closed n (f a)] : Closed n (r >>= f) where
  exists_taken {c d b} hlt hstop h := by
    obtain ⟨a, e, hrun, hrest⟩ := exists_of_run_bind h
    obtain ⟨s, hs⟩ := hr.exists_script
    have hwalk : s.walk c = (.value a, e) := by
      rw [hs c hlt hstop] at hrun
      exact Script.walk_of_run_ok hrun
    obtain ⟨hsuffix, hstops⟩ : c.After e := Scripted.after hlt hstop hrun
    obtain ⟨us, rfl, hshown, hother⟩ := (hf a).exists_taken
      (Nat.lt_of_le_of_lt hsuffix.length_le hlt) (hstops ▸ hstop) hrest
    obtain ⟨rest, stop⟩ := c
    obtain ⟨⟨ts, rfl⟩, rfl⟩ := And.intro hsuffix hstops
    simp only [← List.append_assoc] at hwalk ⊢
    refine ⟨ts ++ us, rfl, hshown.of_suffix (List.suffix_append ..), fun B stop' hB hstop' => ?_⟩
    have hfirst : r.run ⟨ts ++ us ++ B, stop'⟩ = .ok (a, ⟨us ++ B, stop'⟩) := by
      rw [hs _ hB hstop']
      exact Script.run_of_walk (Script.walk_append hwalk hshown)
    rw [run_bind_ok hfirst]
    refine hother B stop' (Nat.lt_of_le_of_lt ?_ hB) hstop'
    simp

instance ite {p : Prop} [Decidable p] {r s : Reading α} [Closed n r] [Closed n s] :
    Closed n (if p then r else s) := by
  split <;> assumption

section Bodies

variable {list : Stmt.ListReading} [∀ stops, Scripted n (list stops)]

instance block : Closed n (Stmt.block list) := by
  unfold Stmt.block
  infer_instance

instance body : Closed n (Stmt.body list) := by
  unfold Stmt.body
  infer_instance

instance procedureRead : Closed n Procedure.read := by
  unfold Procedure.read
  dsimp only
  infer_instance

end Bodies

end Closed

/-! ## Procedures -/

section Procedures

variable {ts us : List Token} {stop stop' : Token}

/-- Whether a procedure starts is seen from tokens of the first list. -/
theorem atProcedure_append (hstop : stop.kind = .eof) (h : Lockstep.AtProcedure ⟨ts, stop⟩) :
    Lockstep.AtProcedure ⟨ts ++ us, stop'⟩ := by
  rcases ts with _ | ⟨t, _ | ⟨u, ts⟩⟩
  · rcases h with hkind | ⟨hkind | hkind, -⟩ <;> cases hstop.symm.trans hkind
  · rcases h with hkind | ⟨-, hnext⟩
    · exact .inl hkind
    · cases hstop.symm.trans hnext
  · exact h

/-- Procedures up to the end of a list, and then those of another one. -/
theorem readAll_append {k m : Nat} {ps qs : List Procedure} {d : Token.Cursor}
    (hstop : stop.kind = .eof) (hstop' : stop'.kind = .eof)
    (hps : (Procedure.readAll k).run ⟨ts, stop⟩ = .ok (ps, ⟨[], stop⟩))
    (hqs : (Procedure.readAll (us.length + 1)).run ⟨us, stop'⟩ = .ok (qs, d))
    (hm : (ts ++ us).length < m) :
    (Procedure.readAll m).run ⟨ts ++ us, stop'⟩ = .ok (ps ++ qs, d) := by
  induction k generalizing ts ps m with
  | zero => cases hps
  | succ k ih =>
      by_cases hstart : Lockstep.AtProcedure ⟨ts, stop⟩
      · rw [Procedure.readAll, run_bind_ok (Lockstep.run_atStart hstart)] at hps
        obtain ⟨p, e, hp, hrest⟩ := exists_of_run_bind hps
        obtain ⟨ps', e', hps', hpure⟩ := exists_of_run_bind hrest
        cases hpure
        obtain ⟨taken, hc, hshown, hother⟩ := (Closed.procedureRead
          (n := (ts ++ us).length + 1)).exists_taken (by simp) hstop hp
        obtain ⟨rest, _⟩ := e
        dsimp only at hc hother
        cases hc
        have hlength : 0 < taken.length :=
          List.length_pos_of_ne_nil fun h => (h ▸ hshown : Shown [])
        rw [List.append_assoc] at hm ⊢
        rw [List.length_append] at hm
        obtain ⟨m, rfl⟩ : ∃ m', m = m' + 1 := ⟨m - 1, by omega⟩
        have hstart' : Lockstep.AtProcedure ⟨taken ++ (rest ++ us), stop'⟩ := by
          rw [← List.append_assoc]
          exact atProcedure_append hstop hstart
        have hp' := hother (rest ++ us) stop' (by simp) hstop'
        rw [Procedure.readAll, run_bind_ok (Lockstep.run_atStart hstart')]
        simp only [if_true]
        rw [run_bind_ok hp', run_bind_ok (ih hps' (by omega))]
        rfl
      · rw [Lockstep.run_readAll_of_not hstart] at hps
        cases hps
        rwa [List.nil_append, List.nil_append, run_readAll hstop' hm (Nat.lt_succ_self _)]

end Procedures

/-! ## Programs -/

namespace Token.Cursor

variable {ts us : List Token}

theorem kind_stop_ofTokens (us : List Token) : (ofTokens us).stop.kind = .eof := by
  cases hfind : us.find? (·.kind == .eof) with
  | none => rw [ofTokens, hfind]; rfl
  | some t => rw [ofTokens, hfind]; simpa using List.find?_some hfind

theorem ofTokens_append_left (hts : ∀ t ∈ ts, t.kind ≠ .eof) :
    ofTokens (ts ++ us) = ⟨ts ++ (ofTokens us).rest, (ofTokens us).stop⟩ := by
  rw [ofTokens, List.takeWhile_append_of_pos (by simpa using hts), List.find?_append,
    List.find?_eq_none.mpr (by simpa using hts)]
  rfl

theorem skipAll_ofTokens (hus : ∀ t ∈ us.head?, t.kind ≠ .semicolon) :
    (ofTokens us).skipAll [.semicolon] = ofTokens us := by
  cases us with
  | nil => rfl
  | cons t us =>
      have ht : t.kind ≠ .semicolon := hus t rfl
      rw [ofTokens, List.takeWhile_cons]
      split
      · simp [skipAll, ht]
      · rfl

/-- In front of tokens that are not skipped, others are skipped as they are alone. -/
theorem skipAll_append {c : Cursor} {kinds : List Kind} {ts₁ : List Token} {stop : Token}
    (hts : (⟨ts, stop⟩ : Cursor).skipAll kinds = ⟨ts₁, stop⟩) (hc : c.skipAll kinds = c) :
    (⟨ts ++ c.rest, c.stop⟩ : Cursor).skipAll kinds = ⟨ts₁ ++ c.rest, c.stop⟩ := by
  have hrest : c.rest.dropWhile (kinds.contains ·.kind) = c.rest := congrArg Cursor.rest hc
  have hrest₁ : ts.dropWhile (kinds.contains ·.kind) = ts₁ := congrArg Cursor.rest hts
  rw [skipAll, List.dropWhile_append, hrest, hrest₁]
  split
  next hempty => rw [List.isEmpty_iff.mp hempty, List.nil_append]
  next => rfl

/-- The input ends behind the tokens that are left. -/
theorem eq_of_after_of_kind {stop : Token} {c : Cursor} (hts : ∀ t ∈ ts, t.kind ≠ .eof)
    (hafter : (⟨ts, stop⟩ : Cursor).After c) (hkind : c.kind = .eof) : c = ⟨[], stop⟩ := by
  obtain ⟨rest, stop'⟩ := c
  obtain ⟨hrest, rfl⟩ := hafter
  cases rest with
  | nil => rfl
  | cons t rest => exact absurd hkind (hts t (hrest.subset List.mem_cons_self))

end Token.Cursor

namespace Program

/-- What follows the procedures before the main body. -/
def afterProcedures (pos : Pos) (before : List Procedure) : Reading Program := do
  if (← kind) = .beginWord then
    let main ← Stmt.block Stmt.listReading
    skipAll [.semicolon, .dot]
    let after ← Procedure.readAll ((← remaining) + 1)
    if (← kind) ≠ .eof then fail "end of input"
    return ⟨pos, before ++ after, some main⟩
  else
    if (← kind) ≠ .eof then
      fail (if before.isEmpty then "'begin' or procedure declaration" else "end of input")
    return ⟨pos, before, none⟩

theorem run_read {c : Token.Cursor} (hstop : c.stop.kind = .eof) :
    read.run c = (Procedure.readAll ((c.skipAll [.semicolon]).rest.length + 1)
      >>= afterProcedures c.peek.pos).run (c.skipAll [.semicolon]) := by
  rw [read, run_bind_ok (rfl : peek.run c = .ok (c.peek, c)),
    run_bind_ok (run_skipAll (by decide) hstop)]
  rfl

theorem eq_of_run_atEnd {c d : Token.Cursor} {expected : Text} {p q : Program}
    (h : (if c.kind ≠ .eof then do fail expected; return p else return p : Reading Program).run c
      = .ok (q, d)) : c.kind = .eof ∧ q = p ∧ d = c := by
  split at h
  next => cases h
  next hend =>
    cases h
    exact ⟨not_not.mp hend, rfl, rfl⟩

/-- The procedures before the main body have no part in reading what follows them. -/
theorem exists_of_run_afterProcedures {c d : Token.Cursor} {pos : Pos} {before : List Procedure}
    {p : Program} (h : (afterProcedures pos before).run c = .ok (p, d)) :
    ∃ after main, p = ⟨pos, before ++ after, main⟩ ∧ (main = none → c.kind = .eof ∧ after = [])
      ∧ ∀ pos' before', (afterProcedures pos' before').run c
        = .ok (⟨pos', before' ++ after, main⟩, d) := by
  simp only [afterProcedures, run_bind_ok (rfl : kind.run c = .ok (c.kind, c))] at h ⊢
  by_cases hbegin : c.kind = .beginWord
  · simp only [if_pos hbegin] at h ⊢
    obtain ⟨main, e, hmain, h⟩ := exists_of_run_bind h
    obtain ⟨_, e', hskip, h⟩ := exists_of_run_bind h
    obtain ⟨count, e'', hcount, h⟩ := exists_of_run_bind h
    obtain ⟨after, f, hafter, h⟩ := exists_of_run_bind h
    rw [run_bind_ok (rfl : kind.run f = .ok (f.kind, f))] at h
    obtain ⟨hend, rfl, rfl⟩ := eq_of_run_atEnd h
    refine ⟨after, some main, rfl, fun hnone => absurd hnone (Option.some_ne_none main),
      fun pos' before' => ?_⟩
    rw [run_bind_ok hmain, run_bind_ok hskip, run_bind_ok hcount, run_bind_ok hafter,
      run_bind_ok (rfl : kind.run d = .ok (d.kind, d)), if_neg (not_not_intro hend)]
    rfl
  · simp only [if_neg hbegin] at h ⊢
    rw [run_bind_ok (rfl : kind.run c = .ok (c.kind, c))] at h
    obtain ⟨hend, rfl, rfl⟩ := eq_of_run_atEnd h
    refine ⟨[], none, by rw [List.append_nil], fun _ => ⟨hend, rfl⟩, fun pos' before' => ?_⟩
    rw [run_bind_ok (rfl : kind.run d = .ok (d.kind, d)), if_neg (not_not_intro hend),
      List.append_nil]
    rfl

theorem ofTokens_eq_ok_iff {tokens : List Token} {p : Program} :
    ofTokens tokens = .ok p ↔ ∃ d, read.run (Token.Cursor.ofTokens tokens) = .ok (p, d) := by
  rw [ofTokens]
  cases read.run (Token.Cursor.ofTokens tokens) with
  | error e =>
      constructor
      · intro h
        cases h
      · rintro ⟨d, h⟩
        cases h
  | ok pd =>
      constructor
      · intro h
        cases h
        exact ⟨pd.2, rfl⟩
      · rintro ⟨d, h⟩
        cases h
        rfl

/-- **Programs compose by concatenation.** If one list of tokens spells procedures without a main
body and another one a program, the first without its end and then the second spell the program that
has the procedures of both and the main body of the second. -/
theorem ofTokens_compose {ts us : List Token} {stop : Token} {p q : Program}
    (hts : ∀ t ∈ ts, t.kind ≠ .eof) (hstop : stop.kind = .eof)
    (hp : ofTokens (ts ++ [stop]) = .ok p) (hmain : p.main = none) (hq : ofTokens us = .ok q)
    (hus : ∀ t ∈ us.head?, t.kind ≠ .semicolon) :
    ofTokens (ts ++ us)
      = .ok { pos := if ts = [] then q.pos else p.pos
              procedures := p.procedures ++ q.procedures
              main := q.main } := by
  obtain ⟨d', hp⟩ := ofTokens_eq_ok_iff.mp hp
  obtain ⟨e', hq⟩ := ofTokens_eq_ok_iff.mp hq
  have hstop' := Token.Cursor.kind_stop_ofTokens us
  have hskip' := Token.Cursor.skipAll_ofTokens hus
  obtain ⟨ts₁, hskip⟩ : ∃ ts₁, (⟨ts, stop⟩ : Token.Cursor).skipAll [.semicolon] = ⟨ts₁, stop⟩ :=
    ⟨_, rfl⟩
  have hafter : (⟨ts, stop⟩ : Token.Cursor).After ⟨ts₁, stop⟩ := hskip ▸ .skipAll _ _
  rw [Token.Cursor.ofTokens_append hts hstop, run_read hstop, hskip] at hp
  rw [run_read hstop', hskip'] at hq
  rw [ofTokens_eq_ok_iff, Token.Cursor.ofTokens_append_left hts,
    run_read (c := ⟨ts ++ _, _⟩) hstop', Token.Cursor.skipAll_append hskip hskip']
  generalize Token.Cursor.ofTokens us = c at *
  obtain ⟨ps, d, hps, hrest⟩ := exists_of_run_bind hp
  obtain ⟨qs, e, hqs, hrest'⟩ := exists_of_run_bind hq
  obtain ⟨_, _, rfl, hnone, -⟩ := exists_of_run_afterProcedures hrest
  obtain ⟨hend, rfl⟩ := hnone hmain
  have hd := hafter.trans (Scripted.after (Nat.lt_succ_self _) hstop hps)
  obtain rfl := Token.Cursor.eq_of_after_of_kind hts hd hend
  obtain ⟨after, main, rfl, -, hother⟩ := exists_of_run_afterProcedures hrest'
  refine ⟨e', ?_⟩
  rw [run_bind_ok (readAll_append hstop hstop' hps hqs (Nat.lt_succ_self _)), hother,
    List.append_assoc, List.append_nil]
  cases ts <;> rfl

/-- A procedure that prints its parameter: `procedure show(n) print n end`. -/
def showing : List Token :=
  [{ kind := .procedureWord, text := "procedure", lexeme := "procedure" },
    { kind := .ident, text := "show", lexeme := "show", pos := ⟨1, 11⟩, offset := 10 },
    { kind := .lparen, text := "(", lexeme := "(", pos := ⟨1, 15⟩, offset := 14 },
    { kind := .ident, text := "n", lexeme := "n", pos := ⟨1, 16⟩, offset := 15 },
    { kind := .rparen, text := ")", lexeme := ")", pos := ⟨1, 17⟩, offset := 16 },
    { kind := .printWord, text := "print", lexeme := "print", pos := ⟨1, 19⟩, offset := 18 },
    { kind := .ident, text := "n", lexeme := "n", pos := ⟨1, 25⟩, offset := 24 },
    { kind := .endWord, text := "end", lexeme := "end", pos := ⟨1, 27⟩, offset := 26 }]

/-- A main body that calls it: `begin show(x) end`. -/
def calling : List Token :=
  [{ kind := .beginWord, text := "begin", lexeme := "begin" },
    { kind := .ident, text := "show", lexeme := "show", pos := ⟨1, 7⟩, offset := 6 },
    { kind := .lparen, text := "(", lexeme := "(", pos := ⟨1, 11⟩, offset := 10 },
    { kind := .ident, text := "x", lexeme := "x", pos := ⟨1, 12⟩, offset := 11 },
    { kind := .rparen, text := ")", lexeme := ")", pos := ⟨1, 13⟩, offset := 12 },
    { kind := .endWord, text := "end", lexeme := "end", pos := ⟨1, 15⟩, offset := 14 },
    { kind := .eof, pos := ⟨1, 18⟩, offset := 17 }]

theorem ofTokens_showing_calling :
    ∃ p main, ofTokens (showing ++ [Token.mk .eof [] [] ⟨1, 30⟩ 29]) = .ok ⟨⟨1, 1⟩, [p], none⟩
      ∧ ofTokens calling = .ok ⟨⟨1, 1⟩, [], some main⟩
      ∧ ofTokens (showing ++ calling) = .ok ⟨⟨1, 1⟩, [p], some main⟩ := by
  obtain ⟨p, hp⟩ : ∃ p, ofTokens (showing ++ [Token.mk .eof [] [] ⟨1, 30⟩ 29])
    = .ok ⟨⟨1, 1⟩, [p], none⟩ := ⟨_, rfl⟩
  obtain ⟨main, hmain⟩ : ∃ main, ofTokens calling = .ok ⟨⟨1, 1⟩, [], some main⟩ := ⟨_, rfl⟩
  have hkinds : ∀ t ∈ showing, t.kind ≠ .eof := by decide
  exact ⟨p, main, hp, hmain, ofTokens_compose hkinds rfl hp rfl hmain (by decide)⟩

end Program

end PseudoCost
