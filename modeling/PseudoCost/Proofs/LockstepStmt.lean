import PseudoCost.Proofs.LockstepExpr
import PseudoCost.Proofs.StatementReading

/-!
# Statements in lockstep

Twins are read as the same statements up to positions and the marks of explicit blocks. Lines matter
in two places only, after `return` and at the start of a branch, and there they are compared with
the line of a token before; as lines correspond one to one, both sides decide the same.

A statement at a hole is not followed token by token: `Crosses` says that the two spellings there
are read as the same statement.
-/

namespace PseudoCost

open Reading
open Stmt (ListReading)

-- A loop is read by a sequence of some ten readers.
set_option synthInstance.maxSize 1000

/-- Statements that are the same up to positions and the marks of explicit blocks. -/
def Stmt.Same (s s' : Stmt) : Prop := s'.erased = s.erased

/-- Blocks that are the same up to positions and the marks of explicit blocks. -/
def Block.Same (b b' : Block) : Prop := b'.erased = b.erased

/-- Lists of statements that are the same up to positions and the marks of explicit blocks. -/
def Stmt.SameList (ss ss' : List Stmt) : Prop := Stmt.erasedList ss' = Stmt.erasedList ss

theorem Stmt.Same.call {p p' : Pos} {callee : Name} {explicit : Bool} {es es' : List Expr}
    (h : List.Forall₂ Expr.Same es es') :
    (Stmt.call p callee explicit es).Same (.call p' callee explicit es') := by
  rw [Stmt.Same, Stmt.erased, Stmt.erased, Expr.Same.erasedList h]

theorem Stmt.erasedList_eq_map (ss : List Stmt) : Stmt.erasedList ss = ss.map Stmt.erased := by
  induction ss with
  | nil => rfl
  | cons s ss ih => rw [Stmt.erasedList, ih, List.map_cons]

theorem Stmt.SameList.append {ss ss' tt tt' : List Stmt} (h : Stmt.SameList ss ss')
    (h' : Stmt.SameList tt tt') : Stmt.SameList (ss ++ tt) (ss' ++ tt') := by
  simp only [Stmt.SameList, Stmt.erasedList_eq_map] at h h'
  rw [Stmt.SameList, Stmt.erasedList_eq_map, Stmt.erasedList_eq_map, List.map_append,
    List.map_append, h, h']

theorem Stmt.SameList.cons {s s' : Stmt} {ss ss' : List Stmt} (h : s.Same s')
    (h' : Stmt.SameList ss ss') : Stmt.SameList (s :: ss) (s' :: ss') := by
  rw [Stmt.SameList, Stmt.erasedList, Stmt.erasedList, h, h']

theorem Block.same_iff {b b' : Block} : b.Same b' ↔ Stmt.SameList b.stmts b'.stmts := by
  obtain ⟨p, e, q, ss⟩ := b
  obtain ⟨p', e', q', ss'⟩ := b'
  simp [Block.Same, Block.erased, Stmt.SameList, Block.stmts]

variable {F : Frame} {K L : Nat}

theorem Frame.line_iff (F : Frame) {i i' j j' : Int} (hi : F.lines i i') (hj : F.lines j j') :
    i' = j' ↔ i = j := (Relator.rel_eq F.lines_unique hi hj).symm

namespace Lockstep

/-! ## Blocks -/

section Blocks

variable {list list' : ListReading} [∀ stops, Forward (list stops)]
  [∀ stops, Forward (list' stops)]

/-- Lists of statements, up to any of the words that end one. -/
def Lists (F : Frame) (K L : Nat) (list list' : ListReading) : Prop :=
  ∀ stops ∈ [[.endWord], [.untilWord], [.elseWord, .endWord]],
    Lockstep F Stmt.SameList K L (list stops) (list' stops)

theorem block (hlist : Lists F K L list list') :
    Lockstep F Block.Same (K + 1) (L + 1) (Stmt.block list) (Stmt.block list') := by
  intro c d h hc hd
  rw [Stmt.block, Stmt.block]
  refine .expect h (by decide) fun _ htaken => ?_
  have hleft := htaken.left_lt
  have hright := htaken.right_lt
  refine (hlist [.endWord] (by decide) _ _ htaken.twins (by omega) (by omega)).bind
    fun ss ss' c₁ d₁ hss h₁ _ _ => ?_
  rw [matches_here]
  refine .expect h₁ (by decide) fun _ htaken₁ => ?_
  exact .pure htaken₁.twins (Block.same_iff.mpr hss)

theorem body (hlist : Lists F K L list list') :
    Lockstep F Block.Same K L (Stmt.body list) (Stmt.body list') := by
  intro c d h hc hd
  rw [Stmt.body, Stmt.body, matches_kind]
  simp only [h.kind_iff (k := .beginWord) rfl]
  split
  · exact block hlist c d h (by omega) (by omega)
  · rw [matches_here]
    refine (hlist [.endWord] (by decide) c d h hc hd).bind fun ss ss' c₁ d₁ hss h₁ _ _ => ?_
    rw [matches_here]
    refine .expect h₁ (by decide) fun _ htaken₁ => ?_
    exact .pure htaken₁.twins (Block.same_iff.mpr hss)

/-- Branches that are the same, and complete in themselves or not on both sides. -/
def SameBranch (r r' : Block × Bool) : Prop := r.1.Same r'.1 ∧ r'.2 = r.2

theorem branch {stmt stmt' : Reading Stmt} [Forward stmt] [Forward stmt']
    (hstmt : Lockstep F Stmt.Same K L stmt stmt') (hlist : Lists F K L list list')
    {opener opener' : Token} (hopener : opener.Alike F.lines opener') {stops : List Token.Kind}
    (hstops : stops = [.endWord] ∨ stops = [.elseWord, .endWord]) :
    Lockstep F SameBranch K L (Stmt.branch stmt list opener stops)
      (Stmt.branch stmt' list' opener' stops) := by
  intro c d h hc hd
  rw [Stmt.branch, Stmt.branch, matches_kind]
  simp only [h.kind_iff (k := .beginWord) rfl]
  split
  · refine (block hlist c d h (by omega) (by omega)).bind fun b b' c₁ d₁ hb h₁ _ _ => ?_
    exact .pure h₁ ⟨hb, rfl⟩
  · -- On the opener's line on both sides, or on neither.
    have hline : (d.peek.pos.line = opener'.pos.line ∧ d.peek.kind ∉ [.eof, .endWord, .elseWord])
        ↔ (c.peek.pos.line = opener.pos.line ∧ c.peek.kind ∉ [.eof, .endWord, .elseWord]) := by
      obtain halike | ⟨hc, hd⟩ | ⟨hc, hd, -⟩ := h.look
      · rw [F.line_iff halike.line hopener.line, halike.kind]
      · simp [show c.peek.kind = _ from hc, show d.peek.kind = _ from hd]
      · simp [show c.peek.kind = _ from hc, show d.peek.kind = _ from hd]
    rw [matches_peek]
    simp only [hline]
    split
    · refine (hstmt c d h hc hd).bind fun s s' c₁ d₁ hs h₁ _ _ => ?_
      rw [matches_here]
      exact .pure h₁ ⟨Block.same_iff.mpr (.cons hs rfl), rfl⟩
    · have hmem : stops ∈ [[.endWord], [.untilWord], [.elseWord, .endWord]] := by
        rcases hstops with rfl | rfl <;> decide
      refine (hlist stops hmem c d h hc hd).bind fun ss ss' c₁ d₁ hss h₁ _ _ => ?_
      rw [matches_here]
      exact .pure h₁ ⟨Block.same_iff.mpr hss, rfl⟩

end Blocks

/-! ## Statements without nested ones -/

theorem assignSign {β β' : Type} {W : β → β' → Prop} {f : Unit → Reading β}
    {f' : Unit → Reading β'} {c d : Token.Cursor} (h : Twins F c d)
    (hnext : Taken F c d → Matches F W (f ()) (f' ()) c.advance d.advance) :
    Matches F W (Stmt.assignSign >>= f) (Stmt.assignSign >>= f') c d := by
  simp only [Stmt.assignSign, bind_assoc]
  refine .accept h rfl (fun _ htaken => hnext htaken) fun _ => ?_
  simp only [Bool.not_false, if_true, bind_assoc]
  refine .accept h rfl (fun _ htaken => hnext htaken) fun _ => ?_
  exact .of_error rfl

section Simple

variable {c d : Token.Cursor}

theorem callStmt (p p' : Pos) (h : Twins F c d) :
    Matches F Stmt.Same (Stmt.callStmt p) (Stmt.callStmt p') c d := by
  rw [Stmt.callStmt, Stmt.callStmt]
  refine (procedureName h).bind fun t t' c₁ d₁ ht h₁ _ _ => ?_
  refine (callArguments h₁ true).bind fun args args' c₂ d₂ hargs h₂ _ _ => ?_
  rw [ht.text]
  exact .pure h₂ (.call hargs)

theorem returnStmt {p p' : Pos} (hline : F.lines p.line p'.line) (h : Twins F c d) :
    Matches F Stmt.Same (Stmt.returnStmt p) (Stmt.returnStmt p') c d := by
  -- The value starts on the line of the word on both sides, or on neither.
  have hvalue : (d.peek.pos.line = p'.line ∧ Expr.canStart d.peek.kind = true)
      ↔ (c.peek.pos.line = p.line ∧ Expr.canStart c.peek.kind = true) := by
    obtain halike | ⟨hc, hd⟩ | ⟨hc, hd, -⟩ := h.look
    · rw [F.line_iff halike.line hline, halike.kind]
    · simp [show c.peek.kind = _ from hc, show d.peek.kind = _ from hd, Expr.canStart]
    · simp [show c.peek.kind = _ from hc, show d.peek.kind = _ from hd, Expr.canStart]
  rw [Stmt.returnStmt, Stmt.returnStmt, matches_peek]
  simp only [hvalue]
  split
  · refine (exprRead h).bind fun e e' c₁ d₁ he h₁ _ _ => ?_
    exact .pure h₁ (by rw [Stmt.Same, Stmt.erased, Stmt.erased, Option.map, Option.map, he])
  · exact .pure h rfl

theorem printStmt (p p' : Pos) (h : Twins F c d) :
    Matches F Stmt.Same (Stmt.printStmt p) (Stmt.printStmt p') c d := by
  rw [Stmt.printStmt, Stmt.printStmt, matches_kind, h.lookup (f := Expr.canStart) rfl]
  dsimp only
  split
  · refine (exprItems h).bind fun args args' c₁ d₁ hargs h₁ _ _ => ?_
    exact .pure h₁ (.call hargs)
  · exact .pure h rfl

theorem designator {t t' : Token} (htext : t'.text = t.text) (h : Twins F c d) :
    Matches F Expr.Same (Stmt.designator t) (Stmt.designator t') c d := by
  rw [Stmt.designator, Stmt.designator, matches_remaining]
  refine (exprLockstep c.rest.length d.rest.length).accesses ?_ h (Nat.lt_succ_self _)
    (Nat.lt_succ_self _) (Nat.lt_succ_self _) (Nat.lt_succ_self _)
  rw [Expr.Same, Expr.erased, Expr.erased, htext]

theorem swapStmt (p p' : Pos) (h : Twins F c d) :
    Matches F Stmt.Same (Stmt.swapStmt p) (Stmt.swapStmt p') c d := by
  rw [Stmt.swapStmt, Stmt.swapStmt, matches_kind]
  simp only [h.kind_iff (k := .lparen) rfl]
  split
  · refine (callArguments h false).bind fun args args' c₁ d₁ hargs h₁ _ _ => ?_
    exact .pure h₁ (.call hargs)
  · refine .expect h (by decide) fun _ htaken => ?_
    refine (designator htaken.alike.text htaken.twins).bind fun e e' c₁ d₁ he h₁ _ _ => ?_
    refine .expect h₁ (by decide) fun _ htaken₁ => ?_
    refine .expect htaken₁.twins (by decide) fun _ htaken₂ => ?_
    refine (designator htaken₂.alike.text htaken₂.twins).bind fun e₂ e₂' c₂ d₂ he₂ h₂ _ _ => ?_
    exact .pure h₂ (.call (.cons he (.cons he₂ .nil)))

theorem nameStmt {t t' : Token} (ht : t.Alike F.lines t') (h : Twins F c d) :
    Matches F Stmt.Same (Stmt.nameStmt t) (Stmt.nameStmt t') c d := by
  rw [Stmt.nameStmt, Stmt.nameStmt, matches_kind]
  simp only [h.kind_iff (k := .lparen) rfl]
  split
  · refine (callArguments h false).bind fun args args' c₁ d₁ hargs h₁ _ _ => ?_
    rw [ht.text]
    exact .pure h₁ (.call hargs)
  · refine (designator ht.text h).bind fun e e' c₁ d₁ he h₁ _ _ => ?_
    refine assignSign h₁ fun htaken => ?_
    refine (exprRead htaken.twins).bind fun e₂ e₂' c₂ d₂ he₂ h₂ _ _ => ?_
    exact .pure h₂ (by rw [Stmt.Same, Stmt.erased, Stmt.erased, he, he₂])

end Simple

/-! ## Loops -/

section Loops

variable {list list' : ListReading} [∀ stops, Forward (list stops)]
  [∀ stops, Forward (list' stops)]

theorem doBody (hlist : Lists F K L list list') {f f' : Block → Stmt}
    (hf : ∀ b b', b.Same b' → (f b).Same (f' b')) :
    Lockstep F Stmt.Same K L
      (expect .doWord "'do'" >>= fun _ => Stmt.body list >>= fun b => pure (f b))
      (expect .doWord "'do'" >>= fun _ => Stmt.body list' >>= fun b => pure (f' b)) := by
  intro c d h hc hd
  refine .expect h (by decide) fun _ htaken => ?_
  have hleft := htaken.left_lt
  have hright := htaken.right_lt
  refine (body hlist _ _ htaken.twins (by omega) (by omega)).bind fun b b' c₁ d₁ hb h₁ _ _ => ?_
  exact .pure h₁ (hf b b' hb)

/-- The step of a loop, if there is one. -/
theorem stepClause {k k' : Option Expr → Reading Stmt} [∀ step, Forward (k step)]
    (hk : ∀ step step', step'.map Expr.erased = step.map Expr.erased →
      Lockstep F Stmt.Same K L (k step) (k' step')) :
    Lockstep F Stmt.Same K L
      (accept .stepWord >>= fun given =>
        if given = true then some <$> Expr.read >>= fun step => k step
        else pure none >>= fun step => k step)
      (accept .stepWord >>= fun given =>
        if given = true then some <$> Expr.read >>= fun step => k' step
        else pure none >>= fun step => k' step) := by
  intro c d h hc hd
  refine .accept h rfl (fun _ htaken => ?_) fun _ => ?_
  · have hleft := htaken.left_lt
    have hright := htaken.right_lt
    simp only [if_true, bind_map_left]
    refine (exprRead htaken.twins).bind fun e e' c₁ d₁ he h₁ _ _ => ?_
    exact hk (some e) (some e') (congrArg some he) _ _ h₁ (by omega) (by omega)
  · simp only [Bool.false_eq_true, if_false, matches_pure_bind]
    exact hk none none rfl c d h hc hd

/-- The direction of a loop. -/
theorem direction {k k' : Bool → Reading Stmt} [∀ descending, Forward (k descending)]
    (hk : ∀ descending, Lockstep F Stmt.Same K L (k descending) (k' descending)) :
    Lockstep F Stmt.Same K L
      (accept .downtoWord >>= fun descending =>
        if (!descending) = true then expect .toWord "'to'" >>= fun _ => k descending
        else k descending)
      (accept .downtoWord >>= fun descending =>
        if (!descending) = true then expect .toWord "'to'" >>= fun _ => k' descending
        else k' descending) := by
  intro c d h hc hd
  refine .accept h rfl (fun _ htaken => ?_) fun _ => ?_
  · have hleft := htaken.left_lt
    have hright := htaken.right_lt
    exact hk true _ _ htaken.twins (by omega) (by omega)
  · refine .expect h (by decide) fun _ htaken => ?_
    have hleft := htaken.left_lt
    have hright := htaken.right_lt
    exact hk false _ _ htaken.twins (by omega) (by omega)

theorem forStmt (hlist : Lists F K L list list') (p p' : Pos) :
    Lockstep F Stmt.Same K L (Stmt.forStmt list p) (Stmt.forStmt list' p') := by
  intro c d h hc hd
  rw [Stmt.forStmt, Stmt.forStmt]
  dsimp only
  refine .expect h (by decide) fun _ htaken => ?_
  have hleft := htaken.left_lt
  have hright := htaken.right_lt
  refine assignSign htaken.twins fun htaken₁ => ?_
  have hleft₁ := htaken₁.left_lt
  have hright₁ := htaken₁.right_lt
  refine (exprRead htaken₁.twins).bind fun start start' c₁ d₁ hstart h₁ hc₁ hd₁ => ?_
  refine direction (K := K) (L := L) (fun descending c₂ d₂ h₂ hc₂ hd₂ => ?_) _ _ h₁ (by omega)
    (by omega)
  refine (exprRead h₂).bind fun stop stop' c₃ d₃ hstop h₃ hc₃ hd₃ => ?_
  refine stepClause (fun step step' hstep => doBody hlist fun b b' hb => ?_) _ _ h₃ (by omega)
    (by omega)
  rw [Stmt.Same, Stmt.erased, Stmt.erased, htaken.alike.text, hstart, hstop, hstep, hb]

theorem whileStmt (hlist : Lists F K L list list') (p p' : Pos) :
    Lockstep F Stmt.Same K L (Stmt.whileStmt list p) (Stmt.whileStmt list' p') := by
  intro c d h hc hd
  rw [Stmt.whileStmt, Stmt.whileStmt]
  refine (exprRead h).bind fun cond cond' c₁ d₁ hcond h₁ hc₁ hd₁ => ?_
  refine doBody hlist (fun b b' hb => ?_) _ _ h₁ (by omega) (by omega)
  rw [Stmt.Same, Stmt.erased, Stmt.erased, Control.ofCondition_erased hcond, hcond, hb]

theorem repeatStmt (hlist : Lists F K L list list') (p p' : Pos) :
    Lockstep F Stmt.Same K L (Stmt.repeatStmt list p) (Stmt.repeatStmt list' p') := by
  intro c d h hc hd
  rw [Stmt.repeatStmt, Stmt.repeatStmt]
  refine (hlist [.untilWord] (by decide) c d h hc hd).bind fun ss ss' c₁ d₁ hss h₁ hc₁ hd₁ => ?_
  rw [matches_here]
  refine .expect h₁ (by decide) fun _ htaken => ?_
  refine (exprRead htaken.twins).bind fun cond cond' c₂ d₂ hcond h₂ _ _ => ?_
  refine .pure h₂ ?_
  rw [Stmt.Same, Stmt.erased, Stmt.erased, Control.ofCondition_erased hcond, hcond, Block.erased,
    Block.erased, hss]

end Loops

/-! ## Conditionals -/

/-- Only some words start a statement. -/
theorem run_stmtOver_of_not_canStart {stmt : Reading Stmt} {list : ListReading}
    {c : Token.Cursor} (h : ¬ Stmt.canStart c.kind = true) :
    (Stmt.stmtOver stmt list).run c = .error (.mismatch "statement" c) := by
  have hk : ¬ Stmt.canStart c.peek.kind = true := h
  rw [Stmt.stmtOver, run_bind_ok (rfl : peek.run c = .ok (c.peek, c))]
  revert hk
  cases c.peek.kind <;> intro hk <;> first | rfl | exact absurd rfl hk

section Nested

variable {stmt stmt' : Reading Stmt} {list list' : ListReading} [Forward stmt] [Forward stmt']
  [∀ stops, Forward (list stops)] [∀ stops, Forward (list' stops)]

/-- The `end` of a conditional whose last branch is not complete in itself. -/
theorem ownEnd {s s' : Stmt} (hs : s.Same s') (closed : Bool) {c d : Token.Cursor}
    (h : Twins F c d) :
    Matches F Stmt.Same
      (if (!closed) = true then expect .endWord "'end'" >>= fun _ => pure s else pure s)
      (if (!closed) = true then expect .endWord "'end'" >>= fun _ => pure s' else pure s') c d := by
  split
  · refine .expect h (by decide) fun _ htaken => ?_
    exact .pure htaken.twins hs
  · exact .pure h hs

theorem ifStmt (hstmt : Lockstep F Stmt.Same K L stmt stmt') (hlist : Lists F K L list list')
    (p p' : Pos) :
    Lockstep F Stmt.Same K L (Stmt.ifStmt stmt list p) (Stmt.ifStmt stmt' list' p') := by
  intro c d h hc hd
  rw [Stmt.ifStmt, Stmt.ifStmt]
  dsimp only
  refine (exprRead h).bind fun cond cond' c₁ d₁ hcond h₁ hc₁ hd₁ => ?_
  refine .expect h₁ (by decide) fun _ htaken => ?_
  have hleft := htaken.left_lt
  have hright := htaken.right_lt
  refine (branch hstmt hlist htaken.alike (.inr rfl) _ _ htaken.twins (by omega) (by omega)).bind
    fun then₁ then₂ c₂ d₂ hthen h₂ hc₂ hd₂ => ?_
  obtain ⟨hblock, hclosed⟩ := hthen
  rw [matches_kind]
  by_cases helse : c₂.kind = .elseWord
  · rw [if_pos helse]
    have hne : c₂.kind ≠ .eof := by rw [helse]; decide
    obtain ⟨halike, htwins⟩ | ⟨hdead, -⟩ | ⟨-, hif, -⟩ := h₂.step hne
    · have htaken₂ := h₂.taken_of_alike hne halike htwins
      have hleft₂ := htaken₂.left_lt
      have hright₂ := htaken₂.right_lt
      have helse' : d₂.kind = .elseWord := halike.kind.trans helse
      rw [if_pos helse', matches_take, matches_kind]
      simp only [htwins.kind_iff_of_ne (k := .ifWord) (by decide)]
      split
      · refine (hstmt _ _ htwins (by omega) (by omega)).bind fun s s' c₃ d₃ hs h₃ _ _ => ?_
        rw [matches_here]
        refine .pure h₃ ?_
        have hinner : Stmt.SameList [s] [s'] := .cons hs rfl
        rw [Stmt.Same, Stmt.erased, Stmt.erased, hcond, hblock, Block.erased, Block.erased, hinner]
      · refine (branch hstmt hlist halike (.inl rfl) _ _ htwins (by omega) (by omega)).bind
          fun else₁ else₂ c₃ d₃ helse h₃ hc₃ hd₃ => ?_
        obtain ⟨hblock', hclosed'⟩ := helse
        rw [hclosed']
        refine ownEnd ?_ _ h₃
        rw [Stmt.Same, Stmt.erased, Stmt.erased, hcond, hblock, hblock']
    · exact .take_of_dead hdead
    · rw [helse] at hif
      cases hif
  · have helse' : d₂.kind ≠ .elseWord := by rwa [h₂.kind_eq_of_ne helse]
    rw [if_neg helse, if_neg helse', hclosed]
    refine ownEnd ?_ _ h₂
    rw [Stmt.Same, Stmt.erased, Stmt.erased, hcond, hblock]

/-! ## Statements -/

/-- Whether the cursors stand where the two sides spell a conditional differently. -/
def AtHole (F : Frame) (c d : Token.Cursor) : Prop :=
  F.hole ∧ c.rest = F.left ∧ d.rest = F.right

theorem taken_of_canStart {c d : Token.Cursor} (h : Twins F c d) (hhole : ¬ AtHole F c d)
    (hstart : Stmt.canStart c.kind = true) : Taken F c d := by
  have hne : c.kind ≠ .eof := by
    intro heq
    rw [heq] at hstart
    cases hstart
  obtain ⟨halike, htwins⟩ | ⟨-, heq | heq | heq⟩ | ⟨hF, -, hc, hd⟩ := h.step hne
  · exact h.taken_of_alike hne halike htwins
  · rw [heq] at hstart
    cases hstart
  · rw [heq] at hstart
    cases hstart
  · rw [heq] at hstart
    cases hstart
  · exact absurd ⟨hF, hc, hd⟩ hhole

theorem stmtOver (hstmt : Lockstep F Stmt.Same K L stmt stmt') (hlist : Lists F K L list list')
    {c d : Token.Cursor} (h : Twins F c d) (hhole : ¬ AtHole F c d) (hc : c.rest.length < K + 1)
    (hd : d.rest.length < L + 1) :
    Matches F Stmt.Same (Stmt.stmtOver stmt list) (Stmt.stmtOver stmt' list') c d := by
  by_cases hstart : Stmt.canStart c.kind = true
  · have htaken := taken_of_canStart h hhole hstart
    have hleft := htaken.left_lt
    have hright := htaken.right_lt
    rw [Stmt.stmtOver, Stmt.stmtOver, matches_peek, htaken.alike.kind]
    split
    all_goals try rw [matches_take]
    · exact forStmt hlist _ _ _ _ htaken.twins (by omega) (by omega)
    · exact whileStmt hlist _ _ _ _ htaken.twins (by omega) (by omega)
    · exact repeatStmt hlist _ _ _ _ htaken.twins (by omega) (by omega)
    · exact ifStmt hstmt hlist _ _ _ _ htaken.twins (by omega) (by omega)
    · exact callStmt _ _ htaken.twins
    · exact returnStmt htaken.alike.line htaken.twins
    · exact printStmt _ _ htaken.twins
    · exact swapStmt _ _ htaken.twins
    · exact nameStmt htaken.alike htaken.twins
    · exact .fail
  · exact .of_error (run_stmtOver_of_not_canStart hstart)

end Nested

/-! ## Lists of statements -/

section Lists

theorem run_upTo_succ {stmt : Reading Stmt} {nested : Reading Block} {stops : List Token.Kind}
    {c : Token.Cursor} (hstop : c.stop.kind = .eof) (n : Nat) :
    (Stmt.upTo stmt nested stops (n + 1)).run c =
      (if (c.skipAll [.semicolon]).kind = .eof ∨ (c.skipAll [.semicolon]).kind ∈ stops then pure []
        else if (c.skipAll [.semicolon]).kind = .beginWord then do
          let inner ← nested
          return inner.stmts ++ (← Stmt.upTo stmt nested stops n)
        else do
          let s ← stmt
          return s :: (← Stmt.upTo stmt nested stops n) :
        Reading (List Stmt)).run (c.skipAll [.semicolon]) := by
  rw [Stmt.upTo, run_bind_ok (run_skipAll (by decide) hstop)]
  rfl

variable {stmt stmt' : Reading Stmt} {nested nested' : Reading Block} [Forward stmt]
  [Forward nested] [hcs : Consumes stmt] [hcs' : Consumes stmt'] [hcn : Consumes nested]
  [hcn' : Consumes nested'] {stops stops' : List Token.Kind} {Exit : Token.Cursor → Prop}

/-- Lists of statements up to the same place. The words that end the list on the right end it on the
left too; at places where the first reading is allowed to stop, so does the second. -/
theorem upTo (hstmt : Lockstep F Stmt.Same K L stmt stmt')
    (hnested : Lockstep F Block.Same K L nested nested')
    (helse : ∀ {c c' s}, stmt.run c = .ok (s, c') → c.kind ≠ .elseWord)
    (hsub : ∀ k ∈ stops', k ∈ stops)
    (hexit : ∀ {c d}, Twins F c d → Exit c → c.kind ∈ stops → d.kind ∈ stops')
    {c d c' : Token.Cursor} {n m : Nat} {ss : List Stmt} (h : Twins F c d) (hK : c.rest.length < K)
    (hL : d.rest.length < L) (hn : c.rest.length < n) (hm : d.rest.length < m)
    (hrun : (Stmt.upTo stmt nested stops n).run c = .ok (ss, c')) (hc' : Exit c') :
    F.Dead c' ∨ ∃ ss' d', (Stmt.upTo stmt' nested' stops' m).run d = .ok (ss', d') ∧
      Stmt.SameList ss ss' ∧ Twins F c' d' := by
  induction hlength : c.rest.length using Nat.strongRecOn generalizing n m c d ss with
  | _ length ih =>
      obtain ⟨n, rfl⟩ : ∃ n', n = n' + 1 := ⟨n - 1, by omega⟩
      obtain ⟨m, rfl⟩ : ∃ m', m = m' + 1 := ⟨m - 1, by omega⟩
      rw [run_upTo_succ h.stops.1] at hrun
      rw [run_upTo_succ h.stops.2]
      have hskip : Twins F (c.skipAll [.semicolon]) (d.skipAll [.semicolon]) :=
        h.skipAll (by decide)
      have hcle := c.length_skipAll [.semicolon]
      have hdle := d.length_skipAll [.semicolon]
      generalize c.skipAll [.semicolon] = c₀ at *
      generalize d.skipAll [.semicolon] = d₀ at *
      by_cases hstop : c₀.kind = .eof ∨ c₀.kind ∈ stops
      · rw [if_pos hstop] at hrun
        cases hrun
        have hstop' : d₀.kind = .eof ∨ d₀.kind ∈ stops' :=
          hstop.imp (hskip.kind_iff_of_ne (by decide)).mpr (hexit hskip hc')
        rw [if_pos hstop']
        exact .inr ⟨[], d₀, rfl, rfl, hskip⟩
      rw [if_neg hstop] at hrun
      by_cases hbegin : c₀.kind = .beginWord
      · rw [if_pos hbegin] at hrun
        have hbegin' : d₀.kind = .beginWord := (hskip.kind_iff rfl).mpr hbegin
        have hstop' : ¬ (d₀.kind = .eof ∨ d₀.kind ∈ stops') := by
          rw [hbegin']
          rintro (heq | hmem)
          · cases heq
          · exact hstop (.inr (hbegin ▸ hsub _ hmem))
        rw [if_neg hstop', if_pos hbegin']
        obtain ⟨b, c₁, hb, hrest⟩ := exists_of_run_bind hrun
        obtain ⟨tt, c₂, htt, hpure⟩ := exists_of_run_bind hrest
        cases hpure
        obtain hdead | ⟨b', d₁, hb', hsame, h₁⟩ := hnested c₀ d₀ hskip (by omega) (by omega) b c₁ hb
        · exact .inl (hdead.of_le (Forward.length_le htt))
        have hlt := hcn.length_lt hskip.stops.1 hb
        have hlt' := hcn'.length_lt hskip.stops.2 hb'
        obtain hdead | ⟨tt', d', htt', hsame', h'⟩ :=
          ih _ (by omega) h₁ (by omega) (by omega) (by omega) (show _ < m by omega) htt rfl
        · exact .inl hdead
        · refine .inr ⟨_, d', ?_, (Block.same_iff.mp hsame).append hsame', h'⟩
          rw [run_bind_ok hb', run_bind_ok htt']
          rfl
      · rw [if_neg hbegin] at hrun
        obtain ⟨s, c₁, hs, hrest⟩ := exists_of_run_bind hrun
        obtain ⟨tt, c₂, htt, hpure⟩ := exists_of_run_bind hrest
        cases hpure
        have hkind : d₀.kind = c₀.kind := hskip.kind_eq_of_ne (helse hs)
        rw [hkind, if_neg fun hstop' => hstop (hstop'.imp id (hsub _)), if_neg hbegin]
        obtain hdead | ⟨s', d₁, hs', hsame, h₁⟩ := hstmt c₀ d₀ hskip (by omega) (by omega) s c₁ hs
        · exact .inl (hdead.of_le (Forward.length_le htt))
        have hlt := hcs.length_lt hskip.stops.1 hs
        have hlt' := hcs'.length_lt hskip.stops.2 hs'
        obtain hdead | ⟨tt', d', htt', hsame', h'⟩ :=
          ih _ (by omega) h₁ (by omega) (by omega) (by omega) (show _ < m by omega) htt rfl
        · exact .inl hdead
        · refine .inr ⟨_, d', ?_, .cons hsame hsame', h'⟩
          rw [run_bind_ok hs', run_bind_ok htt']
          rfl

end Lists

/-! ## Nested statements -/

theorem kind_ne_else {n : Nat} {c c' : Token.Cursor} {s : Stmt}
    (hrun : (Stmt.readWithin n).run c = .ok (s, c')) : c.kind ≠ .elseWord := by
  intro hkind
  cases n with
  | zero =>
      rw [Stmt.readWithin] at hrun
      cases hrun
  | succ n =>
      rw [Stmt.readWithin, run_stmtOver_of_not_canStart (by rw [hkind]; decide)] at hrun
      cases hrun

/-- Lists of statements to the same place, from what is known of one nesting less. -/
theorem readList_succ {n m : Nat}
    (hstmt : Lockstep F Stmt.Same (K + 1) (L + 1) (Stmt.readWithin n) (Stmt.readWithin m))
    (hlist : Lists F K L (Stmt.readList n) (Stmt.readList m)) {stops stops' : List Token.Kind}
    {Exit : Token.Cursor → Prop} (hsub : ∀ k ∈ stops', k ∈ stops)
    (hexit : ∀ {c d}, Twins F c d → Exit c → c.kind ∈ stops → d.kind ∈ stops')
    {c d c' : Token.Cursor} {ss : List Stmt} (h : Twins F c d) (hc : c.rest.length < K + 1)
    (hd : d.rest.length < L + 1)
    (hrun : (Stmt.readList (n + 1) stops).run c = .ok (ss, c')) (hc' : Exit c') :
    F.Dead c' ∨ ∃ ss' d', (Stmt.readList (m + 1) stops').run d = .ok (ss', d') ∧
      Stmt.SameList ss ss' ∧ Twins F c' d' := by
  rw [Stmt.readList, run_bind_ok (rfl : remaining.run _ = .ok (_, _))] at hrun ⊢
  exact upTo hstmt (block hlist) kind_ne_else hsub hexit h hc hd (Nat.lt_succ_self _)
    (Nat.lt_succ_self _) hrun hc'

/-- Where the same words end a list on both sides, both readings stop. -/
theorem mem_stops {stops : List Token.Kind}
    (hstops : stops ∈ [[.endWord], [.untilWord], [.elseWord, .endWord]]) {c d : Token.Cursor}
    (h : Twins F c d) (hmem : c.kind ∈ stops) : d.kind ∈ stops := by
  by_cases helse : c.kind = .elseWord
  · have hd : d.kind = .elseWord ∨ d.kind = .endWord := by
      obtain halike | ⟨hc, -⟩ | ⟨-, hd, -⟩ := h.look
      · exact .inl (halike.kind.trans helse)
      · rw [hc] at helse
        cases helse
      · exact .inr hd
    rw [helse] at hmem
    simp only [List.mem_cons, List.not_mem_nil, or_false] at hstops
    rcases hstops with rfl | rfl | rfl
    · simp at hmem
    · simp at hmem
    · simpa using hd
  · rwa [h.kind_eq_of_ne helse]

/-- The two spellings at a hole are read as the same statement, given enough nested readings. -/
def Crosses (F : Frame) : Prop :=
  ∀ {n m : Nat} {c d : Token.Cursor}, AtHole F c d → Twins F c d → 2 * F.left.length + 1 ≤ n →
    2 * F.right.length + 1 ≤ m → Matches F Stmt.Same (Stmt.readWithin n) (Stmt.readWithin m) c d

/-- Every nesting takes a token, except that a list first reads its first statement. -/
theorem nestedStmts (hcross : Crosses F) (n m : Nat) : ∀ K L,
    (2 * K ≤ n + 1 → 2 * L ≤ m + 1 →
      Lockstep F Stmt.Same K L (Stmt.readWithin n) (Stmt.readWithin m)) ∧
    (2 * K ≤ n → 2 * L ≤ m → Lists F K L (Stmt.readList n) (Stmt.readList m)) := by
  induction n generalizing m with
  | zero =>
      intro K L
      exact ⟨fun _ _ => .of_eq_zero (by omega), fun _ _ _ _ => .of_eq_zero (by omega)⟩
  | succ n ih =>
      rcases m with _ | m
      · intro K L
        exact ⟨fun _ _ => .of_eq_zero (by omega), fun _ _ _ _ => .of_eq_zero (by omega)⟩
      rintro (_ | K) (_ | L)
      · exact ⟨fun _ _ => .of_eq_zero (.inl rfl), fun _ _ _ _ => .of_eq_zero (.inl rfl)⟩
      · exact ⟨fun _ _ => .of_eq_zero (.inl rfl), fun _ _ _ _ => .of_eq_zero (.inl rfl)⟩
      · exact ⟨fun _ _ => .of_eq_zero (.inr rfl), fun _ _ _ _ => .of_eq_zero (.inr rfl)⟩
      constructor
      · intro hK hL c d h hc hd
        by_cases hhole : AtHole F c d
        · rw [hhole.2.1] at hc
          rw [hhole.2.2] at hd
          exact hcross hhole h (by omega) (by omega)
        · rw [Stmt.readWithin, Stmt.readWithin]
          exact stmtOver ((ih m K L).1 (by omega) (by omega)) ((ih m K L).2 (by omega) (by omega)) h
            hhole hc hd
      · intro hK hL stops hstops c d h hc hd ss c' hrun
        have hstmts := (ih m (K + 1) (L + 1)).1 (by omega) (by omega)
        have hlists := (ih m K L).2 (by omega) (by omega)
        exact readList_succ hstmts hlists (fun _ hk => hk)
          (fun h (_ : True) => mem_stops hstops h) h hc hd hrun trivial

/-- Lists of statements are read the same from all twins. -/
theorem listReading (hcross : Crosses F) (K L : Nat) :
    Lists F K L Stmt.listReading Stmt.listReading := by
  intro stops hstops c d h _ _
  rw [Stmt.listReading, matches_remaining]
  exact (nestedStmts hcross _ _ (c.rest.length + 1) (d.rest.length + 1)).2 (by omega) (by omega)
    stops hstops c d h (Nat.lt_succ_self _) (Nat.lt_succ_self _)

end Lockstep

end PseudoCost
