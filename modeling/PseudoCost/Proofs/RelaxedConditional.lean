import PseudoCost.Proofs.LockstepProgram

/-!
# Conditionals without `begin` and `end`

A conditional may leave out the `begin` and `end` of its branches and close with a single `end` of
its own. A program with the shorter spelling is read as the same program, with three exceptions that
come from how the reader assigns each `end` and `else`: a second branch that starts with `if` is
taken for an else-if chain, whose inner conditional owns the `end`; a first branch that ends in a
conditional without `else` takes the `else` for that one; and a branch that starts with a nested
group ends with the group, which leaves what follows it, if only the `end`, to the statements
around the conditional. A first branch that is one group and nothing else is none of these.

The parts of the conditional are compared across fences: what they are read as on their own, they
are read as before whatever follows the word that ends them. The conditional as a whole is a hole in
the program around it.
-/

namespace PseudoCost

open Reading
open Stmt (ListReading)

variable {F : Frame} {c d : Token.Cursor}

/-! ## Readings that end at the fence -/

theorem Twins.rest_eq_right (h : Twins F c d) (hfence : ¬ F.hole) (hc : c.rest = F.left) :
    d.rest = F.right := by
  cases h with
  | before hstop halike hleft hright _ =>
      obtain rfl := List.self_eq_append_left.mp (hc.symm.trans hleft)
      cases halike
      exact hright
  | past _ hhole _ => exact absurd hhole hfence

/-- What a reading up to the fence has on the other side. -/
theorem reads_of_edge {α β : Type} {V : α → β → Prop} {r' : Reading β} [hr' : Forward r'] {a : α}
    {c' : Token.Cursor} (hfence : ¬ F.hole) (hc' : c'.rest = F.left)
    (h : F.Dead c' ∨ ∃ a' d', r'.run d = .ok (a', d') ∧ V a a' ∧ Twins F c' d') :
    Reads r' d ⟨F.right, d.stop⟩ (V a) := by
  obtain hdead | ⟨a', d', hrun, hV, htwins⟩ := h
  · exact absurd (hc' ▸ hdead.2) (Nat.lt_irrefl _)
  · have hd' : d' = ⟨F.right, d.stop⟩ := by
      rw [← htwins.rest_eq_right hfence hc', ← hr'.stop_eq hrun]
    exact ⟨a', hd' ▸ hrun, hV⟩

section Fences

variable {lines : Int → Int → Prop} {t u : Token} {ts ts' us : List Token} {stop stop' : Token}

/-- A closing word as a fence. -/
def Frame.closing (hlines : Relator.BiUnique lines) (halike : t.Alike lines u)
    (hkind : t.kind = .thenWord ∨ t.kind = .elseWord ∨ t.kind = .endWord) (us : List Token) :
    Frame :=
  ⟨lines, hlines, [t], u :: us, False, .closing id halike hkind⟩

theorem Token.Alike.refl (t : Token) : t.Alike Eq t := ⟨rfl, rfl, rfl, rfl⟩

theorem biUnique_eq : Relator.BiUnique (@Eq Int) :=
  ⟨fun _ _ _ h h' => h.trans h'.symm, fun _ _ _ h h' => h.symm.trans h'⟩

/-- A fence with `else` on the left and `end` on the right. -/
def Frame.elseEnd (ht : t.kind = .elseWord) (hu : u.kind = .endWord) (us : List Token) : Frame :=
  ⟨Eq, biUnique_eq, [t], u :: us, False, .elseEnd id ht hu⟩

theorem crosses_of_fence (hfence : ¬ F.hole) : Lockstep.Crosses F :=
  fun hhole => absurd hhole.1 hfence

theorem reads_expr (hlines : Relator.BiUnique lines) (hts : List.Forall₂ (Token.Alike lines) ts ts')
    (halike : t.Alike lines u)
    (hkind : t.kind = .thenWord ∨ t.kind = .elseWord ∨ t.kind = .endWord)
    (hstop : stop.kind = .eof) (hstop' : stop'.kind = .eof) {e : Expr}
    (hrun : Expr.read.run ⟨ts ++ [t], stop⟩ = .ok (e, ⟨[t], stop⟩)) :
    Reads Expr.read ⟨ts' ++ u :: us, stop'⟩ ⟨u :: us, stop'⟩ e.Same := by
  let F := Frame.closing hlines halike hkind us
  have htwins : Twins F ⟨ts ++ [t], stop⟩ ⟨ts' ++ u :: us, stop'⟩ :=
    .before ⟨hstop, hstop'⟩ hts rfl rfl False.elim
  exact reads_of_edge (F := F) id rfl (Lockstep.exprRead htwins e _ hrun)

theorem reads_list (hlines : Relator.BiUnique lines) (hts : List.Forall₂ (Token.Alike lines) ts ts')
    (halike : t.Alike lines u)
    (hkind : t.kind = .thenWord ∨ t.kind = .elseWord ∨ t.kind = .endWord)
    (hstop : stop.kind = .eof) (hstop' : stop'.kind = .eof) {stops : List Token.Kind}
    (hstops : stops ∈ [[.endWord], [.untilWord], [.elseWord, .endWord]]) {ss : List Stmt}
    (hrun : (Stmt.listReading stops).run ⟨ts ++ [t], stop⟩ = .ok (ss, ⟨[t], stop⟩)) {n : Nat}
    (hn : 2 * (ts' ++ u :: us).length + 2 ≤ n) :
    Reads (Stmt.readList n stops) ⟨ts' ++ u :: us, stop'⟩ ⟨u :: us, stop'⟩ (Stmt.SameList ss) := by
  let F := Frame.closing hlines halike hkind us
  have htwins : Twins F ⟨ts ++ [t], stop⟩ ⟨ts' ++ u :: us, stop'⟩ :=
    .before ⟨hstop, hstop'⟩ hts rfl rfl False.elim
  rw [Stmt.listReading, run_bind_ok (rfl : remaining.run _ = .ok (_, _))] at hrun
  have hlists := (Lockstep.nestedStmts (crosses_of_fence (F := F) id)
    (2 * (ts ++ [t]).length + 2) n ((ts ++ [t]).length + 1) ((ts' ++ u :: us).length + 1)).2
    (by omega) (by omega)
  exact reads_of_edge (F := F) id rfl
    (hlists stops hstops _ _ htwins (Nat.lt_succ_self _) (Nat.lt_succ_self _) ss _ hrun)

/-- What is read up to `else` in a first branch is read up to `end` in a block. -/
theorem reads_list_elseEnd (ht : t.kind = .elseWord) (hu : u.kind = .endWord)
    (hstop : stop.kind = .eof) (hstop' : stop'.kind = .eof) {ss : List Stmt}
    (hrun : (Stmt.listReading [.elseWord, .endWord]).run ⟨ts ++ [t], stop⟩ = .ok (ss, ⟨[t], stop⟩))
    {n : Nat} (hn : 2 * (ts ++ u :: us).length + 2 ≤ n) :
    Reads (Stmt.readList n [.endWord]) ⟨ts ++ u :: us, stop'⟩ ⟨u :: us, stop'⟩
      (Stmt.SameList ss) := by
  let F := Frame.elseEnd ht hu us
  have htwins : Twins F ⟨ts ++ [t], stop⟩ ⟨ts ++ u :: us, stop'⟩ :=
    .before ⟨hstop, hstop'⟩ (List.forall₂_same.mpr fun t _ => .refl t) rfl rfl False.elim
  rw [Stmt.listReading, run_bind_ok (rfl : remaining.run _ = .ok (_, _))] at hrun
  obtain ⟨n, rfl⟩ : ∃ n', n = n' + 1 := ⟨n - 1, by omega⟩
  have hnested := Lockstep.nestedStmts (crosses_of_fence (F := F) id) (2 * (ts ++ [t]).length + 1) n
  have hstmts := (hnested ((ts ++ [t]).length + 1) ((ts ++ u :: us).length + 1)).1 (by omega)
    (by omega)
  have hlists := (hnested (ts ++ [t]).length (ts ++ u :: us).length).2 (by omega) (by omega)
  have hend : ∀ {c d}, Twins F c d → c.rest = F.left → c.kind ∈ [.elseWord, .endWord] →
      d.kind ∈ [Token.Kind.endWord] := by
    intro c d h hc _
    obtain ⟨dtokens, dstop⟩ := d
    obtain rfl : dtokens = u :: us := h.rest_eq_right id hc
    simpa using hu
  exact reads_of_edge (F := F) id rfl (Lockstep.readList_succ hstmts hlists (by decide) hend htwins
    (Nat.lt_succ_self _) (Nat.lt_succ_self _) hrun rfl)

end Fences

/-! ## Reading a conditional -/

/-- A conditional with the given parts. -/
def Stmt.ifElse (cond : Expr) (first second : List Stmt) : Stmt :=
  .conditional .nowhere cond (.mk .nowhere true .nowhere first)
    (some (.mk .nowhere true .nowhere second))

section Conditional

variable {stmt : Reading Stmt} {list : ListReading} {t u v w : Token}
  {ts₁ ts₂ ts₃ post : List Token} {stop : Token} {e : Expr} {ss₁ ss₂ : List Stmt}

theorem Stmt.same_ifElse {p : Pos} {e' : Expr} {b₁ b₂ : Block} (he : e.Same e')
    (h₁ : Stmt.SameList ss₁ b₁.stmts) (h₂ : Stmt.SameList ss₂ b₂.stmts) :
    (Stmt.ifElse e ss₁ ss₂).Same (.conditional p e' b₁ (some b₂)) := by
  have hb₁ : b₁.erased = (Block.mk .nowhere true .nowhere ss₁).erased := Block.same_iff.mpr h₁
  have hb₂ : b₂.erased = (Block.mk .nowhere true .nowhere ss₂).erased := Block.same_iff.mpr h₂
  rw [Stmt.Same, Stmt.ifElse, Stmt.erased, Stmt.erased, he, hb₁, hb₂]

/-- Statements between `begin` and `end`. -/
theorem reads_group {b b' : Token} {ts rest : List Token} {ss : List Stmt}
    (hb : b.kind = .beginWord) (hb' : b'.kind = .endWord)
    (hlist : Reads (list [.endWord]) ⟨ts ++ b' :: rest, stop⟩ ⟨b' :: rest, stop⟩
      (Stmt.SameList ss)) :
    Reads (Stmt.block list) ⟨b :: (ts ++ b' :: rest), stop⟩ ⟨rest, stop⟩
      fun block => Stmt.SameList ss block.stmts := by
  simp only [Stmt.block, reads_expect_bind, Token.Cursor.kind_cons, hb, Token.Cursor.peek_cons,
    Token.Cursor.advance_cons]
  refine hlist.bind fun ss' hss' => ?_
  simpa [Stmt.here, hb', Block.stmts] using hss'

/-- A group where statements may stand is its statements, if `else` follows. -/
theorem reads_upTo_group {b b' v : Token} {ts rest : List Token} {ss : List Stmt}
    (hb : b.kind = .beginWord) (hb' : b'.kind = .endWord) (hv : v.kind = .elseWord)
    (hlist : Reads (list [.endWord]) ⟨ts ++ b' :: v :: rest, stop⟩ ⟨b' :: v :: rest, stop⟩
      (Stmt.SameList ss)) {fuel : Nat} (hfuel : 1 < fuel) :
    Reads (Stmt.upTo stmt (Stmt.block list) [.elseWord, .endWord] fuel)
      ⟨b :: (ts ++ b' :: v :: rest), stop⟩ ⟨v :: rest, stop⟩ (Stmt.SameList ss) := by
  obtain ⟨fuel, rfl⟩ : ∃ f, fuel = f + 2 := ⟨fuel - 2, by omega⟩
  have hstay {t : Token} (ts : List Token) (ht : t.kind ≠ .semicolon) :
      Token.Cursor.skipAll ⟨t :: ts, stop⟩ [.semicolon] = ⟨t :: ts, stop⟩ :=
    Token.Cursor.skipAll_of_not_mem (by simpa using ht)
  have hbegin := hstay (ts ++ b' :: v :: rest) (t := b) (by simp [hb])
  have helse := hstay rest (t := v) (by simp [hv])
  rw [Stmt.upTo, reads_skipAll_bind (by simp [hbegin, hb]), hbegin]
  simp only [reads_kind_bind, Token.Cursor.kind_cons, hb, reduceCtorEq, List.mem_cons,
    List.not_mem_nil, or_self, if_false, if_true]
  refine (reads_group hb hb' hlist).bind fun block hblock => ?_
  have hdone : Reads (Stmt.upTo stmt (Stmt.block list) [.elseWord, .endWord] (fuel + 1))
      ⟨v :: rest, stop⟩ ⟨v :: rest, stop⟩ (· = []) := by
    rw [Stmt.upTo, reads_skipAll_bind (by simp [helse, hv]), helse]
    simp [hv]
  refine hdone.bind fun ss' hss' => .pure ?_
  rwa [hss', List.append_nil]

/-- A branch between `begin` and `end`. -/
theorem reads_closedBranch {opener b b' : Token} {stops : List Token.Kind} {ts rest : List Token}
    {ss : List Stmt} (hb : b.kind = .beginWord) (hb' : b'.kind = .endWord)
    (hlist : Reads (list [.endWord]) ⟨ts ++ b' :: rest, stop⟩ ⟨b' :: rest, stop⟩
      (Stmt.SameList ss)) :
    Reads (Stmt.branch stmt list opener stops) ⟨b :: (ts ++ b' :: rest), stop⟩ ⟨rest, stop⟩
      fun r => Stmt.SameList ss r.1.stmts ∧ r.2 = true := by
  simp only [Stmt.branch, reads_kind_bind, Token.Cursor.kind_cons, hb, if_true]
  exact (reads_group hb hb' hlist).bind fun block hblock => .pure ⟨hblock, rfl⟩

/-- A branch that starts on a line of its own and runs up to a word that ends it. -/
theorem reads_openBranch {opener b : Token} {stops : List Token.Kind} {ts rest : List Token}
    {ss : List Stmt} (hb : b.kind = .elseWord ∨ b.kind = .endWord)
    (hstart : ∀ x ∈ ts.head?, x.pos.line ≠ opener.pos.line ∧ x.kind ≠ .beginWord)
    (hlist : Reads (list stops) ⟨ts ++ b :: rest, stop⟩ ⟨b :: rest, stop⟩ (Stmt.SameList ss)) :
    Reads (Stmt.branch stmt list opener stops) ⟨ts ++ b :: rest, stop⟩ ⟨b :: rest, stop⟩
      fun r => Stmt.SameList ss r.1.stmts ∧ r.2 = false := by
  have hbegin : Token.Cursor.kind ⟨ts ++ b :: rest, stop⟩ ≠ .beginWord := by
    cases ts with
    | nil => rcases hb with hb | hb <;> simp [hb]
    | cons x ts => exact (hstart x rfl).2
  have hline : ¬ ((Token.Cursor.peek ⟨ts ++ b :: rest, stop⟩).pos.line = opener.pos.line ∧
      (Token.Cursor.peek ⟨ts ++ b :: rest, stop⟩).kind ∉ [.eof, .endWord, .elseWord]) := by
    cases ts with
    | nil => rcases hb with hb | hb <;> simp [hb]
    | cons x ts => exact fun h => (hstart x rfl).1 h.1
  simp only [Stmt.branch, reads_kind_bind, if_neg hbegin, reads_peek_bind, if_neg hline]
  refine hlist.bind fun ss' hss' => ?_
  rw [reads_bind_iff (rfl : Stmt.here.run _ = .ok (_, _))]
  exact .pure ⟨hss', rfl⟩

/-- With `begin` and `end` around both branches. -/
theorem reads_ifElse_explicit {b₁ b₂ w₁ : Token} (ht : t.kind = .ifWord) (hu : u.kind = .thenWord)
    (hv : v.kind = .elseWord) (hb₁ : b₁.kind = .beginWord) (hw₁ : w₁.kind = .endWord)
    (hb₂ : b₂.kind = .beginWord) (hw : w.kind = .endWord)
    (hcond : ∀ rest, Reads Expr.read ⟨ts₁ ++ u :: rest, stop⟩ ⟨u :: rest, stop⟩ e.Same)
    (hfirst : Reads (list [.endWord]) ⟨ts₂ ++ w₁ :: v :: b₂ :: (ts₃ ++ w :: post), stop⟩
      ⟨w₁ :: v :: b₂ :: (ts₃ ++ w :: post), stop⟩ (Stmt.SameList ss₁))
    (hsecond : Reads (list [.endWord]) ⟨ts₃ ++ w :: post, stop⟩ ⟨w :: post, stop⟩
      (Stmt.SameList ss₂)) :
    Reads (Stmt.stmtOver stmt list)
      ⟨t :: (ts₁ ++ u :: b₁ :: (ts₂ ++ w₁ :: v :: b₂ :: (ts₃ ++ w :: post))), stop⟩ ⟨post, stop⟩
      (Stmt.ifElse e ss₁ ss₂).Same := by
  simp only [Stmt.stmtOver, Stmt.ifStmt, reads_peek_bind, Token.Cursor.peek_cons, ht,
    reads_take_bind, Token.Cursor.advance_cons]
  refine (hcond _).bind fun e' he => ?_
  simp only [reads_expect_bind, Token.Cursor.kind_cons, hu, Token.Cursor.peek_cons,
    Token.Cursor.advance_cons]
  refine (reads_closedBranch hb₁ hw₁ hfirst).bind ?_
  rintro ⟨block₁, _⟩ ⟨h₁, rfl⟩
  simp only [reads_kind_bind, Token.Cursor.kind_cons, hv, if_true, reads_take_bind,
    Token.Cursor.peek_cons, Token.Cursor.advance_cons, hb₂, reduceCtorEq, if_false]
  refine (reads_closedBranch hb₂ hw hsecond).bind ?_
  rintro ⟨block₂, _⟩ ⟨h₂, rfl⟩
  exact .pure (Stmt.same_ifElse he h₁ h₂)

/-- With one `end` for the conditional. Since `else` follows the first branch, it does not matter
whether that is complete in itself. -/
theorem reads_ifElse_relaxed (ht : t.kind = .ifWord) (hu : u.kind = .thenWord)
    (hv : v.kind = .elseWord) (hw : w.kind = .endWord)
    (hcond : ∀ rest, Reads Expr.read ⟨ts₁ ++ u :: rest, stop⟩ ⟨u :: rest, stop⟩ e.Same)
    (hfirst : Reads (Stmt.branch stmt list u [.elseWord, .endWord])
      ⟨ts₂ ++ v :: (ts₃ ++ w :: post), stop⟩ ⟨v :: (ts₃ ++ w :: post), stop⟩
      fun r => Stmt.SameList ss₁ r.1.stmts)
    (hsecond : Reads (list [.endWord]) ⟨ts₃ ++ w :: post, stop⟩ ⟨w :: post, stop⟩
      (Stmt.SameList ss₂))
    (hstart₂ : ∀ x ∈ ts₃.head?, x.pos.line ≠ v.pos.line ∧ x.kind ≠ .beginWord)
    (hchain : ∀ x ∈ ts₃.head?, x.kind ≠ .ifWord) :
    Reads (Stmt.stmtOver stmt list)
      ⟨t :: (ts₁ ++ u :: (ts₂ ++ v :: (ts₃ ++ w :: post))), stop⟩ ⟨post, stop⟩
      (Stmt.ifElse e ss₁ ss₂).Same := by
  have hif : Token.Cursor.kind ⟨ts₃ ++ w :: post, stop⟩ ≠ .ifWord := by
    cases ts₃ with
    | nil => simp [hw]
    | cons x ts => exact hchain x rfl
  simp only [Stmt.stmtOver, Stmt.ifStmt, reads_peek_bind, Token.Cursor.peek_cons, ht,
    reads_take_bind, Token.Cursor.advance_cons]
  refine (hcond _).bind fun e' he => ?_
  simp only [reads_expect_bind, Token.Cursor.kind_cons, hu, Token.Cursor.peek_cons,
    Token.Cursor.advance_cons]
  refine hfirst.bind ?_
  rintro ⟨block₁, _⟩ h₁
  simp only [reads_kind_bind, Token.Cursor.kind_cons, hv, if_true, reads_take_bind,
    Token.Cursor.peek_cons, Token.Cursor.advance_cons, if_neg hif]
  refine (reads_openBranch (.inr hw) hstart₂ hsecond).bind ?_
  rintro ⟨block₂, _⟩ ⟨h₂, rfl⟩
  simp only [Bool.not_false, if_true, reads_expect_bind, Token.Cursor.kind_cons, hw,
    Token.Cursor.advance_cons]
  exact .pure (Stmt.same_ifElse he h₁ h₂)

end Conditional

/-! ## The two spellings -/

/-- The tokens of a conditional with both branches between `begin` and `end`. -/
structure IfElse where
  ifToken : Token
  cond : List Token
  thenToken : Token
  firstBegin : Token
  first : List Token
  firstEnd : Token
  elseToken : Token
  secondBegin : Token
  second : List Token
  secondEnd : Token
  ifToken_kind : ifToken.kind = .ifWord
  thenToken_kind : thenToken.kind = .thenWord
  firstBegin_kind : firstBegin.kind = .beginWord
  firstEnd_kind : firstEnd.kind = .endWord
  elseToken_kind : elseToken.kind = .elseWord
  secondBegin_kind : secondBegin.kind = .beginWord
  secondEnd_kind : secondEnd.kind = .endWord

namespace IfElse

/-- With `begin` and `end` around the branches. -/
def explicit (x : IfElse) : List Token :=
  x.ifToken :: (x.cond ++ x.thenToken :: x.firstBegin :: (x.first ++ x.firstEnd :: x.elseToken ::
    x.secondBegin :: (x.second ++ [x.secondEnd])))

/-- With the last `end` only. -/
def relaxed (x : IfElse) : List Token :=
  x.ifToken :: (x.cond ++ x.thenToken :: (x.first ++ x.elseToken :: (x.second ++ [x.secondEnd])))

/-- A reader takes all of the tokens and stops before the word that follows them. -/
def ReadsAll {α : Type} (r : Reading α) (ts : List Token) (next : Token) : Prop :=
  ∃ a, r.run ⟨ts ++ [next], {}⟩ = .ok (a, ⟨[next], {}⟩)

/-- The condition is an expression, and the branches are lists of statements that start on lines of
their own. -/
structure Proper (x : IfElse) : Prop where
  cond : ReadsAll Expr.read x.cond x.thenToken
  first : ReadsAll (Stmt.listReading [.endWord]) x.first x.firstEnd
  second : ReadsAll (Stmt.listReading [.endWord]) x.second x.secondEnd
  first_ne_nil : x.first ≠ []
  second_ne_nil : x.second ≠ []
  first_line : ∀ t ∈ x.first.head?, t.pos.line ≠ x.thenToken.pos.line
  second_line : ∀ t ∈ x.second.head?, t.pos.line ≠ x.elseToken.pos.line

/-- A list of statements between one `begin` and its `end`, with nothing before or after. -/
def IsGroup (ts : List Token) : Prop :=
  ∃ b inner w, ts = b :: (inner ++ [w]) ∧ b.kind = .beginWord ∧ w.kind = .endWord
    ∧ ReadsAll (Stmt.listReading [.endWord]) inner w

/-- Without `begin` and `end` every word still belongs to what it belonged to: the first branch
leaves the `else` to the conditional and has nothing behind a nested group that it starts with, and
the second starts neither with a nested group nor with `if`. -/
structure Relaxable (x : IfElse) : Prop extends Proper x where
  first_closed : ReadsAll (Stmt.listReading [.elseWord, .endWord]) x.first x.elseToken
  first_group : ∀ t ∈ x.first.head?, t.kind = .beginWord → IsGroup x.first
  second_ne_begin : ∀ t ∈ x.second.head?, t.kind ≠ .beginWord
  second_ne_if : ∀ t ∈ x.second.head?, t.kind ≠ .ifWord

end IfElse

/-- Lists that are alike are split alike. -/
theorem exists_append_of_forall₂ {R : Token → Token → Prop} {ts us vs : List Token}
    (h : List.Forall₂ R (ts ++ us) vs) :
    ∃ ts' us', vs = ts' ++ us' ∧ List.Forall₂ R ts ts' ∧ List.Forall₂ R us us' := by
  induction ts generalizing vs with
  | nil => exact ⟨[], vs, rfl, .nil, h⟩
  | cons t ts ih =>
      obtain ⟨v, vs, ht, hvs, rfl⟩ := List.forall₂_cons_left_iff.mp h
      obtain ⟨ts', us', rfl, hts, hus⟩ := ih hvs
      exact ⟨v :: ts', us', rfl, .cons ht hts, hus⟩

theorem kind_ne_of_alike {lines : Int → Int → Prop} {k : Token.Kind} {ts us : List Token}
    (h : List.Forall₂ (Token.Alike lines) ts us) (hts : ∀ t ∈ ts, t.kind ≠ k) :
    ∀ u ∈ us, u.kind ≠ k := by
  induction h with
  | nil => exact fun u hu => absurd hu List.not_mem_nil
  | cons hfirst _ ih =>
      obtain ⟨ht, hts⟩ := List.forall_mem_cons.mp hts
      exact List.forall_mem_cons.mpr ⟨by rwa [hfirst.kind], ih hts⟩

theorem Matches.of_reads {α α' : Type} {V : α → α' → Prop} {r : Reading α} {r' : Reading α'}
    {c₁ d₁ : Token.Cursor} {P : α → Prop} {Q : α' → Prop} (hleft : Reads r c c₁ P)
    (hright : Reads r' d d₁ Q) (h : Twins F c₁ d₁) (hV : ∀ a a', P a → Q a' → V a a') :
    Matches F V r r' c d := by
  obtain ⟨a, hrun, ha⟩ := hleft
  obtain ⟨a', hrun', ha'⟩ := hright
  exact .of_ok hrun hrun' h (hV a a' ha ha')

namespace IfElse

variable {x : IfElse} {lines : Int → Int → Prop} {post : List Token} {stop : Token}

theorem reads_explicit {e : Expr} {ss₁ ss₂ : List Stmt}
    (hcond : Expr.read.run ⟨x.cond ++ [x.thenToken], {}⟩ = .ok (e, ⟨[x.thenToken], {}⟩))
    (hfirst : (Stmt.listReading [.elseWord, .endWord]).run ⟨x.first ++ [x.elseToken], {}⟩ =
      .ok (ss₁, ⟨[x.elseToken], {}⟩))
    (hsecond : (Stmt.listReading [.endWord]).run ⟨x.second ++ [x.secondEnd], {}⟩ =
      .ok (ss₂, ⟨[x.secondEnd], {}⟩)) (hstop : stop.kind = .eof) {n : Nat}
    (hn : 2 * (x.explicit ++ post).length + 1 ≤ n) :
    Reads (Stmt.readWithin n) ⟨x.explicit ++ post, stop⟩ ⟨post, stop⟩
      (Stmt.ifElse e ss₁ ss₂).Same := by
  have hsame (ts : List Token) : List.Forall₂ (Token.Alike Eq) ts ts :=
    List.forall₂_same.mpr fun t _ => .refl t
  obtain ⟨n, rfl⟩ : ∃ n', n = n' + 1 := ⟨n - 1, by omega⟩
  simp only [explicit, List.cons_append, List.append_assoc, List.nil_append, List.length_cons,
    List.length_append] at hn ⊢
  rw [Stmt.readWithin]
  refine reads_ifElse_explicit x.ifToken_kind x.thenToken_kind x.elseToken_kind x.firstBegin_kind
    x.firstEnd_kind x.secondBegin_kind x.secondEnd_kind (fun rest => ?_) ?_ ?_
  · exact reads_expr biUnique_eq (hsame _) (.refl _) (.inl x.thenToken_kind) rfl hstop hcond
  · refine reads_list_elseEnd x.elseToken_kind x.firstEnd_kind rfl hstop hfirst ?_
    simp only [List.length_cons, List.length_append]
    omega
  · refine reads_list biUnique_eq (hsame _) (.refl _) (.inr (.inr x.secondEnd_kind)) rfl hstop
      (by decide) hsecond ?_
    simp only [List.length_cons, List.length_append]
    omega

theorem head_line_ne (hlines : Relator.BiUnique lines) {ts ts' : List Token} {t t' : Token}
    (hts : List.Forall₂ (Token.Alike lines) ts ts') (ht : t.Alike lines t')
    (h : ∀ u ∈ ts.head?, u.pos.line ≠ t.pos.line) : ∀ u ∈ ts'.head?, u.pos.line ≠ t'.pos.line := by
  cases hts with
  | nil => exact fun u hu => absurd hu (by simp)
  | cons hfirst _ =>
      rintro u ⟨⟩ hline
      exact h _ rfl (hlines.1 (hline ▸ hfirst.line) ht.line)

theorem head_kind_ne {k : Token.Kind} {ts ts' : List Token}
    (hts : List.Forall₂ (Token.Alike lines) ts ts') (h : ∀ u ∈ ts.head?, u.kind ≠ k) :
    ∀ u ∈ ts'.head?, u.kind ≠ k := by
  cases hts with
  | nil => exact fun u hu => absurd hu (by simp)
  | cons hfirst _ =>
      rintro u ⟨⟩
      rw [hfirst.kind]
      exact h _ rfl

/-- What is read of a group in front of `else` is what is read between its words. -/
theorem sameList_of_group {b w t : Token} {inner : List Token} {ss ss₁ : List Stmt}
    (hb : b.kind = .beginWord) (hw : w.kind = .endWord) (ht : t.kind = .elseWord)
    (hinner : (Stmt.listReading [.endWord]).run ⟨inner ++ [w], {}⟩ = .ok (ss, ⟨[w], {}⟩))
    (hgroup : (Stmt.listReading [.elseWord, .endWord]).run ⟨b :: (inner ++ [w]) ++ [t], {}⟩ =
      .ok (ss₁, ⟨[t], {}⟩)) : Stmt.SameList ss ss₁ := by
  have hgroup' : (Stmt.listReading [.elseWord, .endWord]).run ⟨b :: (inner ++ [w, t]), {}⟩ =
      .ok (ss₁, ⟨[t], {}⟩) := by simpa using hgroup
  have hlist : Reads (Stmt.readList (2 * (b :: (inner ++ [w, t])).length + 1) [.endWord])
      ⟨inner ++ [w, t], {}⟩ ⟨[w, t], {}⟩ (Stmt.SameList ss) := by
    refine reads_list biUnique_eq (List.forall₂_same.mpr fun t _ => .refl t) (.refl w)
      (.inr (.inr hw)) rfl rfl (by decide) hinner ?_
    simp only [List.length_cons]
    omega
  have hread : Reads (Stmt.listReading [.elseWord, .endWord]) ⟨b :: (inner ++ [w, t]), {}⟩
      ⟨[t], {}⟩ (Stmt.SameList ss) := by
    simp only [Stmt.listReading, reads_remaining_bind, Stmt.readList]
    exact reads_upTo_group hb hw ht hlist (by simp)
  obtain ⟨ss', hrun, hss⟩ := hread
  rw [hgroup'] at hrun
  cases hrun
  exact hss

/-- The first branch without the `begin` and `end` around it: a list up to `else`, or the group
that it is. -/
theorem reads_firstBranch (hx : x.Relaxable) (hlines : Relator.BiUnique lines)
    {ts rest : List Token} {u v : Token} (hts : List.Forall₂ (Token.Alike lines) x.first ts)
    (hu : x.thenToken.Alike lines u) (hv : x.elseToken.Alike lines v) {ss₁ : List Stmt}
    (hfirst : (Stmt.listReading [.elseWord, .endWord]).run ⟨x.first ++ [x.elseToken], {}⟩ =
      .ok (ss₁, ⟨[x.elseToken], {}⟩)) (hstop : stop.kind = .eof) {n : Nat}
    (hn : 2 * (ts ++ v :: rest).length + 2 ≤ n) :
    Reads (Stmt.branch (Stmt.readWithin n) (Stmt.readList n) u [.elseWord, .endWord])
      ⟨ts ++ v :: rest, stop⟩ ⟨v :: rest, stop⟩ fun r => Stmt.SameList ss₁ r.1.stmts := by
  by_cases hbegin : ∀ t ∈ x.first.head?, t.kind ≠ .beginWord
  case pos =>
    have hlist := reads_list hlines hts hv (.inr (.inl x.elseToken_kind)) rfl hstop (by decide)
      hfirst hn
    refine (reads_openBranch (.inl (hv.kind.trans x.elseToken_kind)) (fun y hy => ?_) hlist).imp
      fun r hr => hr.1
    exact ⟨head_line_ne hlines hts hu hx.first_line y hy, head_kind_ne hts hbegin y hy⟩
  case neg =>
    push Not at hbegin
    obtain ⟨y, hy, hkind⟩ := hbegin
    obtain ⟨b, inner, w, hgroup, hb, hw, ss, hinner⟩ := hx.first_group y hy hkind
    rw [hgroup] at hts hfirst
    have hss : Stmt.SameList ss ss₁ := sameList_of_group hb hw x.elseToken_kind hinner hfirst
    obtain ⟨b', _, hb', htail, rfl⟩ := List.forall₂_cons_left_iff.mp hts
    obtain ⟨inner', _, rfl, hinner', hend⟩ := exists_append_of_forall₂ htail
    obtain ⟨w', _, hw', hnil, rfl⟩ := List.forall₂_cons_left_iff.mp hend
    obtain rfl := List.forall₂_nil_left_iff.mp hnil
    have hlist : Reads (Stmt.readList n [.endWord]) ⟨inner' ++ w' :: v :: rest, stop⟩
        ⟨w' :: v :: rest, stop⟩ (Stmt.SameList ss) := by
      refine reads_list hlines hinner' hw' (.inr (.inr hw)) rfl hstop (by decide) hinner ?_
      simp only [List.length_append, List.length_cons] at hn ⊢
      omega
    simp only [List.cons_append, List.append_assoc, List.nil_append]
    exact (reads_closedBranch (hb'.kind.trans hb) (hw'.kind.trans hw) hlist).imp
      fun r hr => hr.1.trans hss.symm

theorem reads_relaxed (hx : x.Relaxable) (hlines : Relator.BiUnique lines) {ts : List Token}
    (hts : List.Forall₂ (Token.Alike lines) x.relaxed ts) {e : Expr} {ss₁ ss₂ : List Stmt}
    (hcond : Expr.read.run ⟨x.cond ++ [x.thenToken], {}⟩ = .ok (e, ⟨[x.thenToken], {}⟩))
    (hfirst : (Stmt.listReading [.elseWord, .endWord]).run ⟨x.first ++ [x.elseToken], {}⟩ =
      .ok (ss₁, ⟨[x.elseToken], {}⟩))
    (hsecond : (Stmt.listReading [.endWord]).run ⟨x.second ++ [x.secondEnd], {}⟩ =
      .ok (ss₂, ⟨[x.secondEnd], {}⟩)) (hstop : stop.kind = .eof) {n : Nat}
    (hn : 2 * (ts ++ post).length + 1 ≤ n) :
    Reads (Stmt.readWithin n) ⟨ts ++ post, stop⟩ ⟨post, stop⟩ (Stmt.ifElse e ss₁ ss₂).Same := by
  obtain ⟨t, _, ht, htail, rfl⟩ := List.forall₂_cons_left_iff.mp hts
  obtain ⟨ts₁, _, rfl, hts₁, hthen⟩ := exists_append_of_forall₂ htail
  obtain ⟨u, _, hu, hbranches, rfl⟩ := List.forall₂_cons_left_iff.mp hthen
  obtain ⟨ts₂, _, rfl, hts₂, helse⟩ := exists_append_of_forall₂ hbranches
  obtain ⟨v, _, hv, hbranch, rfl⟩ := List.forall₂_cons_left_iff.mp helse
  obtain ⟨ts₃, _, rfl, hts₃, hend⟩ := exists_append_of_forall₂ hbranch
  obtain ⟨w, _, hw, hnil, rfl⟩ := List.forall₂_cons_left_iff.mp hend
  obtain rfl := List.forall₂_nil_left_iff.mp hnil
  obtain ⟨n, rfl⟩ : ∃ n', n = n' + 1 := ⟨n - 1, by omega⟩
  simp only [List.cons_append, List.append_assoc, List.nil_append, List.length_cons,
    List.length_append] at hn ⊢
  rw [Stmt.readWithin]
  refine reads_ifElse_relaxed (ht.kind.trans x.ifToken_kind) (hu.kind.trans x.thenToken_kind)
    (hv.kind.trans x.elseToken_kind) (hw.kind.trans x.secondEnd_kind) (fun rest => ?_) ?_ ?_ ?_ ?_
  · exact reads_expr hlines hts₁ hu (.inl x.thenToken_kind) rfl hstop hcond
  · refine reads_firstBranch hx hlines hts₂ hu hv hfirst hstop ?_
    simp only [List.length_cons, List.length_append]
    omega
  · refine reads_list hlines hts₃ hw (.inr (.inr x.secondEnd_kind)) rfl hstop (by decide) hsecond ?_
    simp only [List.length_cons, List.length_append]
    omega
  · intro y hy
    exact ⟨head_line_ne hlines hts₃ hv hx.second_line y hy,
      head_kind_ne hts₃ hx.second_ne_begin y hy⟩
  · exact head_kind_ne hts₃ hx.second_ne_if

/-! ## Programs -/

/-- A conditional as a hole: with `begin` and `end` on the left, without them on the right. -/
def hole (x : IfElse) (hlines : Relator.BiUnique lines) {t : Token} (ht : x.ifToken.Alike lines t)
    (post ts : List Token) : Frame :=
  ⟨lines, hlines, x.explicit ++ post, t :: ts, True, .conditional trivial ht x.ifToken_kind⟩

theorem crosses_hole (hx : x.Relaxable) (hlines : Relator.BiUnique lines) {t : Token}
    {ts post' : List Token} (ht : x.ifToken.Alike lines t)
    (hts : List.Forall₂ (Token.Alike lines) x.relaxed (t :: ts))
    (hpost : List.Forall₂ (Token.Alike lines) post post') :
    Lockstep.Crosses (x.hole hlines ht post (ts ++ post')) := by
  intro n m c d hhole htwins hn hm
  obtain ⟨e, hcond⟩ := hx.cond
  obtain ⟨ss₁, hfirst⟩ := hx.first_closed
  obtain ⟨ss₂, hsecond⟩ := hx.second
  obtain ⟨hstop, hstop'⟩ := htwins.stops
  obtain ⟨-, hc, hd⟩ := hhole
  obtain ⟨ctokens, cstop⟩ := c
  obtain ⟨dtokens, dstop⟩ := d
  cases hc
  cases hd
  have hleft := reads_explicit hcond hfirst hsecond hstop hn
  have hright : Reads (Stmt.readWithin m) ⟨t :: ts ++ post', dstop⟩ ⟨post', dstop⟩
      (Stmt.ifElse e ss₁ ss₂).Same := reads_relaxed hx hlines hts hcond hfirst hsecond hstop' hm
  refine .of_reads hleft hright (.past ⟨hstop, hstop'⟩ trivial hpost) ?_
  intro s s' hs hs'
  exact hs'.trans hs.symm

theorem mem_explicit_of_mem_relaxed {t : Token} (h : t ∈ x.relaxed) : t ∈ x.explicit := by
  simp only [relaxed, explicit, List.mem_cons, List.mem_append] at h ⊢
  tauto

end IfElse

/-- A program is read as the same program when a conditional in it leaves out the `begin` and `end`
of its branches. The other tokens stay the same words; they may move, if lines are kept apart. -/
theorem Program.ofTokens_relaxed {lines : Int → Int → Prop} (hlines : Relator.BiUnique lines)
    {x : IfElse} (hx : x.Relaxable) {pre post : List Token} (hpre : Token.Balanced pre)
    {stop : Token} (hstop : stop.kind = .eof)
    (htokens : ∀ t ∈ pre ++ x.explicit ++ post, t.kind ≠ .eof) {p : Program}
    (hp : Program.ofTokens (pre ++ x.explicit ++ post ++ [stop]) = .ok p) {ts : List Token}
    (hts : List.Forall₂ (Token.Alike lines) (pre ++ x.relaxed ++ post ++ [stop]) ts) :
    ∃ q, Program.ofTokens ts = .ok q ∧ q.erased = p.erased := by
  obtain ⟨ts, _, rfl, hbody, hlast⟩ := exists_append_of_forall₂ hts
  obtain ⟨stop', _, hs, hnil, rfl⟩ := List.forall₂_cons_left_iff.mp hlast
  obtain rfl := List.forall₂_nil_left_iff.mp hnil
  have hstop' : stop'.kind = .eof := hs.kind.trans hstop
  have htokens' : ∀ t ∈ ts, t.kind ≠ .eof := by
    refine kind_ne_of_alike hbody fun t ht => htokens t ?_
    simp only [List.mem_append] at ht ⊢
    exact ht.imp (Or.imp id IfElse.mem_explicit_of_mem_relaxed) id
  obtain ⟨_, post', rfl, hfront, hpost⟩ := exists_append_of_forall₂ hbody
  obtain ⟨pre', us, rfl, hpre', hrelaxed⟩ := exists_append_of_forall₂ hfront
  obtain ⟨t, us, ht, _, rfl⟩ := List.forall₂_cons_left_iff.mp hrelaxed
  let F := x.hole hlines ht post (us ++ post')
  have htwins : Twins F ⟨pre ++ x.explicit ++ post, stop⟩ ⟨pre' ++ t :: us ++ post', stop'⟩ :=
    .before ⟨hstop, hstop'⟩ hpre' (List.append_assoc _ _ _) (List.append_assoc _ _ _) fun _ => hpre
  have hcross : Lockstep.Crosses F := IfElse.crosses_hole hx hlines ht hrelaxed hpost
  rw [Program.ofTokens, Token.Cursor.ofTokens_append htokens hstop] at hp
  rw [Program.ofTokens, Token.Cursor.ofTokens_append htokens' hstop']
  cases hrun : Program.read.run ⟨pre ++ x.explicit ++ post, stop⟩ with
  | error e =>
      rw [hrun] at hp
      cases hp
  | ok pc =>
      obtain ⟨p₀, c'⟩ := pc
      rw [hrun] at hp
      cases hp
      obtain hdead | ⟨q, d', hright, hsame, -⟩ :=
        Lockstep.programRead (F := F) trivial hcross htwins _ _ hrun
      · exact absurd trivial hdead.1
      · exact ⟨q, by rw [hright]; rfl, hsame⟩

namespace IfElse

/-- The words `begin` on line 1 and `end` on line 7 around a statement. -/
def within (ts : List Token) : List Token :=
  [{ kind := .beginWord, pos := ⟨1, 1⟩ }] ++ ts ++ [{ kind := .endWord, pos := ⟨7, 1⟩ }] ++
    [{ kind := .eof, pos := ⟨8, 1⟩ }]

/-- The assignment `x <- a`, on a line. -/
def assignment (line : Int) : List Token :=
  [{ kind := .ident, text := [120], pos := ⟨line, 5⟩ }, { kind := .assign, pos := ⟨line, 7⟩ },
    { kind := .ident, text := [97], pos := ⟨line, 10⟩ }]

/-- A conditional on `a` over lines 2 to 6, its branches on lines 3 and 5. -/
def ofBranches (first second : List Token) : IfElse where
  ifToken := { kind := .ifWord, pos := ⟨2, 3⟩ }
  cond := [{ kind := .ident, text := [97], pos := ⟨2, 6⟩ }]
  thenToken := { kind := .thenWord, pos := ⟨2, 8⟩ }
  firstBegin := { kind := .beginWord, pos := ⟨2, 13⟩ }
  first := first
  firstEnd := { kind := .endWord, pos := ⟨4, 3⟩ }
  elseToken := { kind := .elseWord, pos := ⟨4, 7⟩ }
  secondBegin := { kind := .beginWord, pos := ⟨4, 12⟩ }
  second := second
  secondEnd := { kind := .endWord, pos := ⟨6, 3⟩ }
  ifToken_kind := rfl
  thenToken_kind := rfl
  firstBegin_kind := rfl
  firstEnd_kind := rfl
  elseToken_kind := rfl
  secondBegin_kind := rfl
  secondEnd_kind := rfl

/-- The assignment between `begin` and `end`, on a line. -/
def group (line : Int) : List Token :=
  [{ kind := .beginWord, pos := ⟨line, 1⟩ }] ++ assignment line ++
    [{ kind := .endWord, pos := ⟨line, 20⟩ }]

theorem proper_ofBranches {first second : List Token}
    (hfirst : ReadsAll (Stmt.listReading [.endWord]) first { kind := .endWord, pos := ⟨4, 3⟩ })
    (hsecond : ReadsAll (Stmt.listReading [.endWord]) second { kind := .endWord, pos := ⟨6, 3⟩ })
    (hfirst' : first ≠ [] ∧ ∀ t ∈ first.head?, t.pos.line ≠ 2)
    (hsecond' : second ≠ [] ∧ ∀ t ∈ second.head?, t.pos.line ≠ 4) :
    (ofBranches first second).Proper :=
  ⟨⟨_, rfl⟩, hfirst, hsecond, hfirst'.1, hsecond'.1, hfirst'.2, hsecond'.2⟩

/-- Read with and without `begin` and `end` around the branches, as the same program. -/
def ReadsAlike (x : IfElse) : Prop :=
  ∃ p q, Program.ofTokens (within x.explicit) = .ok p
    ∧ Program.ofTokens (within x.relaxed) = .ok q ∧ q.erased = p.erased

/-- One assignment in each branch, the first of them bare or in a group. -/
theorem ofTokens_relaxed_assignments :
    (ofBranches (assignment 3) (assignment 5)).ReadsAlike
      ∧ (ofBranches (group 3) (assignment 5)).ReadsAlike := by
  have hpre : Token.Balanced [{ kind := .beginWord, pos := ⟨1, 1⟩ }] := ⟨by decide, trivial⟩
  have hreads {x : IfElse} (hx : x.Relaxable)
      (htokens : ∀ t ∈ [{ kind := .beginWord, pos := ⟨1, 1⟩ }] ++ x.explicit ++
        [{ kind := .endWord, pos := ⟨7, 1⟩ }], t.kind ≠ .eof)
      (hexplicit : ∃ p, Program.ofTokens (within x.explicit) = .ok p) : x.ReadsAlike := by
    obtain ⟨p, hp⟩ := hexplicit
    have hsame : List.Forall₂ (Token.Alike Eq) (within x.relaxed) (within x.relaxed) :=
      List.forall₂_same.mpr fun t _ => .refl t
    obtain ⟨q, hq, herased⟩ :=
      Program.ofTokens_relaxed biUnique_eq hx hpre rfl htokens hp hsame
    exact ⟨p, q, hp, hq, herased⟩
  have hbare : (ofBranches (assignment 3) (assignment 5)).Relaxable := by
    have hbegin : ∀ t ∈ (assignment 3).head?, t.kind ≠ .beginWord := by decide
    exact ⟨proper_ofBranches ⟨_, rfl⟩ ⟨_, rfl⟩ (by decide) (by decide), ⟨_, rfl⟩,
      fun t ht h => absurd h (hbegin t ht), by decide, by decide⟩
  have hgroup : (ofBranches (group 3) (assignment 5)).Relaxable :=
    ⟨proper_ofBranches ⟨_, rfl⟩ ⟨_, rfl⟩ (by decide) (by decide), ⟨_, rfl⟩,
      fun _ _ _ => ⟨_, assignment 3, _, rfl, rfl, rfl, _, rfl⟩, by decide, by decide⟩
  exact ⟨hreads hbare (by decide) ⟨_, rfl⟩, hreads hgroup (by decide) ⟨_, rfl⟩⟩

/-! ## Spellings that differ -/

/-- The words `if a then` on a line. -/
def condition (line : Int) : List Token :=
  [{ kind := .ifWord, pos := ⟨line, 1⟩ }, { kind := .ident, text := [97], pos := ⟨line, 2⟩ },
    { kind := .thenWord, pos := ⟨line, 3⟩ }]

/-- Read with `begin` and `end` around the branches, but refused without. -/
def OnlyExplicit (x : IfElse) : Prop :=
  x.Proper ∧ (∃ p, Program.ofTokens (within x.explicit) = .ok p)
    ∧ ∃ f, Program.ofTokens (within x.relaxed) = .error f

/-- A second branch that is a conditional, a first branch that is one without `else`, a first branch
with a statement or a semicolon behind the group it starts with, and a second branch that is a
group. -/
theorem relaxed_rejected :
    (ofBranches (assignment 3) (condition 5 ++ assignment 5)).OnlyExplicit
      ∧ (ofBranches (condition 3 ++ assignment 3) (assignment 5)).OnlyExplicit
      ∧ (ofBranches (group 3 ++ assignment 3) (assignment 5)).OnlyExplicit
      ∧ (ofBranches (group 3 ++ [{ kind := .semicolon, pos := ⟨3, 21⟩ }])
        (assignment 5)).OnlyExplicit
      ∧ (ofBranches (assignment 3) (group 5)).OnlyExplicit := by
  refine ⟨?_, ?_, ?_, ?_, ?_⟩
  all_goals
    exact ⟨proper_ofBranches ⟨_, rfl⟩ ⟨_, rfl⟩ (by decide) (by decide), ⟨_, rfl⟩, ⟨_, rfl⟩⟩

end IfElse

end PseudoCost
