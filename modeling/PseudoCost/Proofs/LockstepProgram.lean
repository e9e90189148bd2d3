import PseudoCost.Proofs.LockstepStmt

/-!
# Programs in lockstep

Twins over a hole are read as the same procedures and the same program. The array shape of a
parameter is the one place where tokens are taken whatever they are, up to the bracket that closes
the shape. So the brackets before a hole have to be closed before it: then the hole is never inside
a shape.
-/

namespace PseudoCost

open Reading

-- A procedure is read by a sequence of some ten readers.
set_option synthInstance.maxSize 1000

/-- Procedures that are the same up to positions and the marks of explicit blocks. -/
def Procedure.Same (p p' : Procedure) : Prop := p'.erased = p.erased

/-- Programs that are the same up to positions and the marks of explicit blocks. -/
def Program.Same (p p' : Program) : Prop := p'.erased = p.erased

theorem Procedure.Same.map_erased {ps ps' : List Procedure}
    (h : List.Forall₂ Procedure.Same ps ps') :
    ps'.map Procedure.erased = ps.map Procedure.erased := by
  induction h with
  | nil => rfl
  | cons hfirst _ ih => rw [List.map_cons, List.map_cons, hfirst, ih]

variable {F : Frame} {c d : Token.Cursor}

/-! ## Inside brackets -/

/-- Cursors at corresponding places inside the given number of open brackets. -/
inductive Inside (F : Frame) (depth : Nat) (c d : Token.Cursor) : Prop
  | before {ts us : List Token} (hstop : c.stop.kind = .eof ∧ d.stop.kind = .eof)
      (halike : List.Forall₂ (Token.Alike F.lines) ts us) (hleft : c.rest = ts ++ F.left)
      (hright : d.rest = us ++ F.right) (hbalanced : Token.Balanced ts)
      (hcloses : Token.closes depth ts = true)
  | past (hstop : c.stop.kind = .eof ∧ d.stop.kind = .eof) (hhole : F.hole)
      (halike : List.Forall₂ (Token.Alike F.lines) c.rest d.rest)

namespace Inside

theorem twins {depth : Nat} (h : Inside F depth c d) : Twins F c d := by
  cases h with
  | before hstop halike hleft hright hbalanced _ =>
      exact .before hstop halike hleft hright fun _ => hbalanced
  | past hstop hhole halike => exact .past hstop hhole halike

/-- The number of open brackets after a token. -/
def next (depth : Nat) : Token.Kind → Nat
  | .lbracket => depth + 1
  | .rbracket => depth - 1
  | _ => depth

theorem closes_next {depth : Nat} {t : Token} {ts : List Token}
    (h : Token.closes (depth + 1) (t :: ts) = true) :
    Token.closes (next (depth + 1) t.kind) ts = true := by
  rw [Token.closes] at h
  revert h
  cases t.kind <;> exact id

theorem step {depth : Nat} (h : Inside F (depth + 1) c d) (hne : c.kind ≠ .eof) :
    c.peek.Alike F.lines d.peek ∧ Inside F (next (depth + 1) c.kind) c.advance d.advance := by
  obtain ⟨ctokens, cstop⟩ := c
  obtain ⟨dtokens, dstop⟩ := d
  cases h with
  | before hstop halike hleft hright hbalanced hcloses =>
      cases halike with
      | nil => cases hcloses
      | cons hfirst hrest =>
          cases hleft
          cases hright
          exact ⟨hfirst, .before hstop hrest rfl rfl hbalanced.2 (closes_next hcloses)⟩
  | past hstop hhole halike =>
      cases halike with
      | nil => exact absurd hstop.1 hne
      | cons hfirst hrest => exact ⟨hfirst, .past hstop hhole hrest⟩

/-- Behind an opening bracket. -/
theorem of_lbracket (hF : F.hole) (h : Twins F c d) (hkind : c.kind = .lbracket) :
    Inside F 1 c.advance d.advance := by
  obtain ⟨ctokens, cstop⟩ := c
  obtain ⟨dtokens, dstop⟩ := d
  cases h with
  | before hstop halike hleft hright hbalanced =>
      cases halike with
      | nil =>
          obtain ⟨lines, unique, left, right, hole, edge⟩ := F
          cases hleft
          cases edge with
          | conditional _ _ hif =>
              rw [Token.Cursor.kind_cons, hif] at hkind
              cases hkind
          | closing hfence => exact absurd hF hfence
          | elseEnd hfence => exact absurd hF hfence
      | cons hfirst hrest =>
          cases hleft
          cases hright
          obtain ⟨hopen, hbalanced⟩ := hbalanced hF
          exact .before hstop hrest rfl rfl hbalanced (hopen hkind)
  | past hstop hhole halike =>
      cases halike with
      | nil =>
          rw [show Token.Cursor.kind ⟨[], cstop⟩ = .eof from hstop.1] at hkind
          cases hkind
      | cons hfirst hrest => exact .past hstop hhole hrest

end Inside

namespace Lockstep

theorem bracketText {depth n m : Nat} (h : Inside F (depth + 1) c d) (hm : d.rest.length < m) :
    Matches F Eq (Procedure.bracketText n (depth + 1))
      (Procedure.bracketText m (depth + 1)) c d := by
  induction n generalizing depth m c d with
  | zero => exact .of_error rfl
  | succ n ih =>
      obtain ⟨m, rfl⟩ : ∃ m', m = m' + 1 := ⟨m - 1, by omega⟩
      rw [Procedure.bracketText, Procedure.bracketText, matches_kind]
      by_cases hne : c.kind = .eof
      · rw [if_pos hne]
        exact .fail
      · obtain ⟨halike, hnext⟩ := h.step hne
        have htaken := h.twins.taken_of_alike hne halike hnext.twins
        have hright := htaken.right_lt
        have hne' : d.kind ≠ .eof := by rwa [show d.kind = c.kind from halike.kind]
        rw [if_neg hne, if_neg hne', matches_take, halike.kind, halike.lexeme]
        change Inside F (Inside.next (depth + 1) c.peek.kind) c.advance d.advance at hnext
        change Matches F _
          (if Inside.next (depth + 1) c.peek.kind = 0 then pure c.peek.lexeme
            else do
              return c.peek.lexeme ++
                (← Procedure.bracketText n (Inside.next (depth + 1) c.peek.kind)))
          (if Inside.next (depth + 1) c.peek.kind = 0 then pure c.peek.lexeme
            else do
              return c.peek.lexeme ++
                (← Procedure.bracketText m (Inside.next (depth + 1) c.peek.kind))) _ _
        cases hdepth : Inside.next (depth + 1) c.peek.kind with
        | zero => exact .pure hnext.twins rfl
        | succ left =>
            rw [hdepth] at hnext
            refine (ih hnext (by omega)).bind fun text text' c₁ d₁ htext h₁ _ _ => ?_
            exact .pure h₁ (by rw [htext])

/-- Whether an array shape goes on. -/
def AtShape (c : Token.Cursor) : Prop :=
  c.kind = .lbracket ∨ (c.kind = .dotDot ∧ c.nextKind = .lbracket)

theorem atShape_iff (h : Twins F c d) : AtShape d ↔ AtShape c := by
  rw [AtShape, AtShape, h.kind_iff rfl, h.kind_iff rfl]
  refine or_congr Iff.rfl (and_congr_right fun hdots => ?_)
  have htaken := h.taken (by rw [hdots]; rfl)
  rw [Token.Cursor.nextKind_eq, Token.Cursor.nextKind_eq, htaken.twins.kind_iff rfl]

theorem run_shapeText_of_not {n : Nat} (h : ¬ AtShape c) :
    (Procedure.shapeText (n + 1)).run c = .ok ([], c) := by
  rw [AtShape] at h
  rw [Procedure.shapeText, run_bind_ok (rfl : kind.run c = .ok (c.kind, c)),
    run_bind_ok (rfl : nextKind.run c = .ok (c.nextKind, c))]
  dsimp only
  rw [run_bind_ok (rfl : kind.run c = .ok (c.kind, c)), if_neg h]
  rfl

/-- A pair of brackets with what stands between them. -/
theorem brackets {β β' : Type} {W : β → β' → Prop} {f : Text → Reading β} {f' : Text → Reading β'}
    [∀ text, Forward (f text)] (hF : F.hole) (h : Twins F c d)
    (hnext : ∀ text c₁ d₁, Twins F c₁ d₁ → c₁.rest.length < c.rest.length →
      d₁.rest.length < d.rest.length → Matches F W (f text) (f' text) c₁ d₁) :
    Matches F W
      (do
        let _ ← expect .lbracket "'['"
        let inner ← Procedure.bracketText ((← remaining) + 1) 1
        f inner)
      (do
        let _ ← expect .lbracket "'['"
        let inner ← Procedure.bracketText ((← remaining) + 1) 1
        f' inner) c d := by
  refine .expect h (by decide) fun hkind htaken => ?_
  have hleft := htaken.left_lt
  have hright := htaken.right_lt
  rw [matches_remaining]
  refine (bracketText (Inside.of_lbracket hF h hkind) (Nat.lt_succ_self _)).bind
    fun text text' c₁ d₁ htext h₁ hc₁ hd₁ => ?_
  rw [← htext]
  exact hnext text c₁ d₁ h₁ (by omega) (by omega)

theorem shapeText (hF : F.hole) {n m : Nat} (h : Twins F c d) (hn : c.rest.length < n)
    (hm : d.rest.length < m) :
    Matches F Eq (Procedure.shapeText n) (Procedure.shapeText m) c d := by
  induction hlength : c.rest.length using Nat.strongRecOn generalizing n m c d with
  | _ length ih =>
      obtain ⟨n, rfl⟩ : ∃ n', n = n' + 1 := ⟨n - 1, by omega⟩
      obtain ⟨m, rfl⟩ : ∃ m', m = m' + 1 := ⟨m - 1, by omega⟩
      by_cases hshape : AtShape c
      · have htaken := h.taken (by rcases hshape with hk | ⟨hk, -⟩ <;> rw [hk] <;> rfl)
        have hleft := htaken.left_lt
        have hright := htaken.right_lt
        have hshape' := (atShape_iff h).mpr hshape
        rw [AtShape] at hshape hshape'
        rw [Procedure.shapeText, Procedure.shapeText, matches_kind, matches_nextKind]
        dsimp only
        rw [matches_kind, if_pos hshape, if_pos hshape']
        refine .accept h rfl (fun _ _ => ?_) fun _ => ?_
        · refine brackets hF htaken.twins fun text c₁ d₁ h₁ hc₁ hd₁ => ?_
          refine (ih _ (by omega) h₁ (by omega) (by omega) rfl).bind
            fun rest rest' c₂ d₂ hrest h₂ _ _ => ?_
          exact .pure h₂ (by rw [hrest])
        · refine brackets hF h fun text c₁ d₁ h₁ hc₁ hd₁ => ?_
          refine (ih _ (by omega) h₁ (by omega) (by omega) rfl).bind
            fun rest rest' c₂ d₂ hrest h₂ _ _ => ?_
          exact .pure h₂ (by rw [hrest])
      · have hshape' := mt (atShape_iff h).mp hshape
        exact .of_ok (run_shapeText_of_not hshape) (run_shapeText_of_not hshape') h rfl

/-! ## Procedures -/

theorem param (hF : F.hole) (K L : Nat) :
    Lockstep F Eq K L Procedure.param Procedure.param := by
  intro c d h _ _
  rw [Procedure.param]
  refine .expect h (by decide) fun _ htaken => ?_
  rw [matches_remaining]
  refine (shapeText hF htaken.twins (Nat.lt_succ_self _) (Nat.lt_succ_self _)).bind
    fun shape shape' c₁ d₁ hshape h₁ _ _ => ?_
  exact .pure h₁ (by rw [hshape, htaken.alike.text])

/-- Whether a procedure starts. -/
def AtProcedure (c : Token.Cursor) : Prop :=
  c.kind = .procedureWord ∨ ((c.kind = .ident ∨ c.kind = .swapWord) ∧ c.nextKind = .lparen)

theorem atProcedure_iff (h : Twins F c d) : AtProcedure d ↔ AtProcedure c := by
  rw [AtProcedure, AtProcedure, h.kind_iff rfl, h.kind_iff rfl, h.kind_iff rfl]
  refine or_congr Iff.rfl (and_congr_right fun hk => ?_)
  have htaken := h.taken (by rcases hk with hk | hk <;> rw [hk] <;> rfl)
  rw [Token.Cursor.nextKind_eq, Token.Cursor.nextKind_eq, htaken.twins.kind_iff rfl]

theorem run_atStart (h : AtProcedure c) : Procedure.atStart.run c = .ok (true, c) :=
  congrArg (fun b => Except.ok (b, c)) (decide_eq_true h)

theorem run_atStart_of_not (h : ¬ AtProcedure c) : Procedure.atStart.run c = .ok (false, c) :=
  congrArg (fun b => Except.ok (b, c)) (decide_eq_false h)

theorem run_readAll_of_not {n : Nat} (h : ¬ AtProcedure c) :
    (Procedure.readAll (n + 1)).run c = .ok ([], c) := by
  rw [Procedure.readAll, run_bind_ok (run_atStart_of_not h)]
  rfl

/-- Everything of a procedure after its parameters. -/
theorem procedureRest (hcross : Crosses F) (h : Twins F c d) {p p' : Pos} {t t' : Token}
    (ht : t.Alike F.lines t') (params : List Param) :
    Matches F Procedure.Same
      (do
        let _ ← expect .rparen "')'"
        return ⟨p, t.text, t.lexeme, params, ← Stmt.body Stmt.listReading⟩)
      (do
        let _ ← expect .rparen "')'"
        return ⟨p', t'.text, t'.lexeme, params, ← Stmt.body Stmt.listReading⟩) c d := by
  refine .expect h (by decide) fun _ htaken => ?_
  refine (body (listReading hcross _ _) _ _ htaken.twins (Nat.lt_succ_self _)
    (Nat.lt_succ_self _)).bind fun b b' c₁ d₁ hb h₁ _ _ => ?_
  refine .pure h₁ ?_
  rw [Procedure.Same, Procedure.erased, Procedure.erased, ht.text, ht.lexeme, hb]

theorem procedureRead (hF : F.hole) (hcross : Crosses F) (h : Twins F c d) :
    Matches F Procedure.Same Procedure.read Procedure.read c d := by
  have hword : Matches F (fun _ _ => True) (accept .procedureWord) (accept .procedureWord) c d := by
    rw [← bind_pure (accept _)]
    exact .accept h rfl (fun _ htaken => .pure htaken.twins trivial) fun _ => .pure h trivial
  rw [Procedure.read, matches_peek]
  dsimp only
  refine hword.bind fun _ _ c₁ d₁ _ h₁ _ _ => ?_
  refine (procedureName h₁).bind fun t t' c₂ d₂ ht h₂ _ _ => ?_
  refine .expect h₂ (by decide) fun _ htaken => ?_
  rw [matches_kind]
  simp only [htaken.twins.kind_iff (k := .rparen) rfl]
  split
  · rw [matches_pure_bind]
    exact procedureRest hcross htaken.twins ht []
  · refine ((param hF _ _).items _ _ htaken.twins (Nat.lt_succ_self _) (Nat.lt_succ_self _)).bind
      fun ps ps' c₃ d₃ hps h₃ _ _ => ?_
    rw [List.forall₂_eq_eq_eq] at hps
    subst hps
    exact procedureRest hcross h₃ ht ps

theorem readAll (hF : F.hole) (hcross : Crosses F) {n m : Nat} (h : Twins F c d)
    (hn : c.rest.length < n) (hm : d.rest.length < m) :
    Matches F (List.Forall₂ Procedure.Same) (Procedure.readAll n) (Procedure.readAll m) c d := by
  induction hlength : c.rest.length using Nat.strongRecOn generalizing n m c d with
  | _ length ih =>
      obtain ⟨n, rfl⟩ : ∃ n', n = n' + 1 := ⟨n - 1, by omega⟩
      obtain ⟨m, rfl⟩ : ∃ m', m = m' + 1 := ⟨m - 1, by omega⟩
      by_cases hstart : AtProcedure c
      · have hstart' := (atProcedure_iff h).mpr hstart
        have htaken := h.taken (by rcases hstart with hk | ⟨hk | hk, -⟩ <;> rw [hk] <;> rfl)
        have hleft := htaken.left_lt
        have hright := htaken.right_lt
        rw [Procedure.readAll, Procedure.readAll, matches_congr (run_bind_ok (run_atStart hstart))
          (run_bind_ok (run_atStart hstart'))]
        simp only [if_true]
        refine (procedureRead hF hcross h).bind_lt h fun p p' c₁ d₁ hp h₁ hc₁ hd₁ => ?_
        refine (ih _ (by omega) h₁ (by omega) (by omega) rfl).bind
          fun ps ps' c₂ d₂ hps h₂ _ _ => ?_
        exact .pure h₂ (.cons hp hps)
      · have hstart' := mt (atProcedure_iff h).mp hstart
        exact .of_ok (run_readAll_of_not hstart) (run_readAll_of_not hstart') h .nil

/-! ## Programs -/

/-- Programs that are alike but for the spelling of one conditional are read as the same program. -/
theorem programRead (hF : F.hole) (hcross : Crosses F) (h : Twins F c d) :
    Matches F Program.Same Program.read Program.read c d := by
  rw [Program.read, matches_peek, matches_skipAll (by decide) h, matches_remaining]
  dsimp only
  have hskip : Twins F (c.skipAll [.semicolon]) (d.skipAll [.semicolon]) := h.skipAll (by decide)
  refine (readAll hF hcross hskip (Nat.lt_succ_self _) (Nat.lt_succ_self _)).bind
    fun ps ps' c₁ d₁ hps h₁ _ _ => ?_
  rw [matches_kind]
  simp only [h₁.kind_iff (k := .beginWord) rfl]
  split
  · refine (block (listReading hcross _ _) _ _ h₁ (Nat.lt_succ_self _) (Nat.lt_succ_self _)).bind
      fun b b' c₂ d₂ hb h₂ _ _ => ?_
    rw [matches_skipAll (by decide) h₂, matches_remaining]
    have hskip₂ : Twins F (c₂.skipAll [.semicolon, .dot]) (d₂.skipAll [.semicolon, .dot]) :=
      h₂.skipAll (by decide)
    refine (readAll hF hcross hskip₂ (Nat.lt_succ_self _) (Nat.lt_succ_self _)).bind
      fun qs qs' c₃ d₃ hqs h₃ _ _ => ?_
    rw [matches_kind]
    simp only [ne_eq, h₃.kind_iff_of_ne (k := .eof) (by decide)]
    split
    · exact .of_error rfl
    · refine .pure h₃ ?_
      rw [Program.Same, Program.erased, Program.erased, List.map_append, List.map_append,
        Procedure.Same.map_erased hps, Procedure.Same.map_erased hqs, Option.map, Option.map, hb]
  · rw [matches_kind]
    simp only [ne_eq, h₁.kind_iff_of_ne (k := .eof) (by decide)]
    split
    · exact .of_error rfl
    · refine .pure h₁ ?_
      rw [Program.Same, Program.erased, Program.erased, Procedure.Same.map_erased hps]

end Lockstep

end PseudoCost
