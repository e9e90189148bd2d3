import PseudoCost.Proofs.Lockstep
import PseudoCost.Proofs.Rendering

/-!
# Expressions in lockstep

Twins are read as the same expression up to positions, level by level. An expression never takes a
token at an edge, so inside one the two readings take the same tokens; the edges show only as tokens
at which every level stops.
-/

namespace PseudoCost

open Reading

/-- Expressions that are the same up to positions. -/
def Expr.Same (e e' : Expr) : Prop := e'.erased = e.erased

theorem Expr.Same.erasedList {es es' : List Expr} (h : List.Forall₂ Expr.Same es es') :
    Expr.erasedList es' = Expr.erasedList es := by
  induction h with
  | nil => rfl
  | cons hfirst _ ih => rw [Expr.erasedList, Expr.erasedList, hfirst, ih]

theorem Expr.Same.call {p p' : Pos} {callee : Name} {explicit : Bool} {es es' : List Expr}
    (h : List.Forall₂ Expr.Same es es') :
    (Expr.call p callee explicit es).Same (.call p' callee explicit es') := by
  rw [Expr.Same, Expr.erased, Expr.erased, Expr.Same.erasedList h]

theorem Expr.Same.indices {p p' : Pos} {base base' : Expr} {is is' : List Expr}
    (hbase : base.Same base') (h : List.Forall₂ Expr.Same is is') :
    (is.foldl (fun b i => .index p b i) base).Same
      (is'.foldl (fun b i => .index p' b i) base') := by
  induction h generalizing base base' with
  | nil => exact hbase
  | cons hfirst _ ih =>
      refine ih ?_
      rw [Expr.Same, Expr.erased, Expr.erased, hbase, hfirst]

/-! ## Where the loops stop -/

theorem Token.Cursor.nextKind_eq (c : Token.Cursor) : c.nextKind = c.advance.kind := by
  obtain ⟨ts, stop⟩ := c
  rcases ts with _ | ⟨t, _ | ⟨u, us⟩⟩ <;> rfl

theorem run_accesses_of_ne {expr : Reading Expr} {c : Token.Cursor} (n : Nat) (base : Expr)
    (hbracket : c.kind ≠ .lbracket) (hdot : c.kind ≠ .dot) :
    (Expr.accesses expr (n + 1) base).run c = .ok (base, c) := by
  rw [Expr.accesses, run_bind_ok (rfl : kind.run c = .ok (c.kind, c))]
  split
  · exact absurd ‹_› hbracket
  · exact absurd ‹_› hdot
  · rfl

/-- No expression starts at an edge. -/
theorem run_primary_of_isEdge {expr : Reading Expr} {c : Token.Cursor} (h : isEdge c.kind = true) :
    (Expr.primary expr).run c = .error (.mismatch "expression" c) := by
  have hk : isEdge c.peek.kind = true := h
  rw [Expr.primary, run_bind_ok (rfl : peek.run c = .ok (c.peek, c))]
  revert hk
  cases c.peek.kind <;> intro hk <;> first | rfl | cases hk

theorem run_chain_of_none {op? : Token.Kind → Option BinaryOp} {operand : Reading Expr}
    {c : Token.Cursor} (n : Nat) (lhs : Expr) (h : op? c.kind = none) :
    (Expr.chain op? operand (n + 1) lhs).run c = .ok (lhs, c) := by
  rw [Expr.chain, run_bind_ok (rfl : kind.run c = .ok (c.kind, c)), h]
  rfl

/-- No operator stands at an edge. -/
theorem level_of_isEdge : ∀ op? ∈ Expr.levels, ∀ k, isEdge k = true → op? k = none := by
  intro op? hop k hk
  simp only [Expr.levels, List.mem_cons, List.not_mem_nil, or_false] at hop
  rcases hop with rfl | rfl | rfl | rfl | rfl | rfl <;> cases k <;> first | rfl | cases hk

theorem signOp?_of_isEdge (k : Token.Kind) (hk : isEdge k = true) : Expr.signOp? k = none := by
  cases k <;> first | rfl | cases hk

theorem not_isEdge_of_some {α : Type} {f? : Token.Kind → Option α}
    (hf : ∀ k, isEdge k = true → f? k = none) {k : Token.Kind} {a : α} (h : f? k = some a) :
    isEdge k = false := by
  by_contra hedge
  rw [hf k (by simpa using hedge)] at h
  cases h

namespace Lockstep

variable {F : Frame} {K L : Nat}

/-! ## Levels -/

section Levels

variable {operand operand' : Reading Expr} [Forward operand] [Forward operand']

theorem chain {op? : Token.Kind → Option BinaryOp} (hop : ∀ k, isEdge k = true → op? k = none)
    (hoperand : Lockstep F Expr.Same K L operand operand') {c d : Token.Cursor} {n m : Nat}
    {lhs lhs' : Expr} (hlhs : lhs.Same lhs') (h : Twins F c d) (hK : c.rest.length < K)
    (hL : d.rest.length < L) (hn : c.rest.length < n) (hm : d.rest.length < m) :
    Matches F Expr.Same (Expr.chain op? operand n lhs) (Expr.chain op? operand' m lhs') c d := by
  have hedges : op? .elseWord = op? .endWord := by rw [hop _ rfl, hop _ rfl]
  induction hlength : c.rest.length using Nat.strongRecOn generalizing n m c d lhs lhs' with
  | _ length ih =>
      obtain ⟨n, rfl⟩ : ∃ n', n = n' + 1 := ⟨n - 1, by omega⟩
      obtain ⟨m, rfl⟩ : ∃ m', m = m' + 1 := ⟨m - 1, by omega⟩
      cases hc : op? c.kind with
      | none =>
          have hd : op? d.kind = none := (h.lookup hedges).trans hc
          exact .of_ok (run_chain_of_none n lhs hc) (run_chain_of_none m lhs' hd) h hlhs
      | some op =>
          have htaken := h.taken (not_isEdge_of_some hop hc)
          have hleft := htaken.left_lt
          have hright := htaken.right_lt
          rw [Expr.chain, Expr.chain, matches_kind, h.lookup hedges, hc]
          simp only [matches_take]
          refine (hoperand _ _ htaken.twins (by omega) (by omega)).bind
            fun rhs rhs' c₁ d₁ hrhs h₁ hc₁ hd₁ => ?_
          refine ih _ (by omega) ?_ h₁ (by omega) (by omega) (by omega) (by omega) rfl
          rw [Expr.Same, Expr.erased, Expr.erased, hlhs, hrhs]

theorem level {op? : Token.Kind → Option BinaryOp} (hop : ∀ k, isEdge k = true → op? k = none)
    (hoperand : Lockstep F Expr.Same K L operand operand') :
    Lockstep F Expr.Same K L (Expr.level op? operand) (Expr.level op? operand') := by
  intro c d h hK hL
  rw [Expr.level, Expr.level]
  refine (hoperand c d h hK hL).bind fun lhs lhs' c₁ d₁ hlhs h₁ hc₁ hd₁ => ?_
  rw [matches_remaining]
  exact hoperand.chain hop hlhs h₁ (by omega) (by omega) (Nat.lt_succ_self _) (Nat.lt_succ_self _)

theorem binaryLevels (hoperand : Lockstep F Expr.Same K L operand operand') :
    Lockstep F Expr.Same K L (Expr.binaryLevels operand) (Expr.binaryLevels operand') := by
  have hfold : ∀ ops : List (Token.Kind → Option BinaryOp),
      (∀ op? ∈ ops, ∀ k, isEdge k = true → op? k = none) →
      Lockstep F Expr.Same K L (ops.foldr Expr.level operand) (ops.foldr Expr.level operand') := by
    intro ops hops
    induction ops with
    | nil => exact hoperand
    | cons op? ops ih =>
        obtain ⟨hop, hops⟩ := List.forall_mem_cons.mp hops
        exact (ih hops).level hop
  exact hfold Expr.levels level_of_isEdge

theorem rangeLevel (hoperand : Lockstep F Expr.Same K L operand operand') :
    Lockstep F Expr.Same K L (Expr.rangeLevel operand) (Expr.rangeLevel operand') := by
  intro c d h hK hL
  rw [Expr.rangeLevel, Expr.rangeLevel]
  refine (hoperand c d h hK hL).bind fun low low' c₁ d₁ hlow h₁ hc₁ hd₁ => ?_
  rw [matches_kind]
  by_cases hc : c₁.kind = .dotDot
  · have htaken := h₁.taken (by rw [hc]; rfl)
    have hleft := htaken.left_lt
    have hright := htaken.right_lt
    rw [if_pos hc, if_pos ((h₁.kind_iff rfl).mpr hc), matches_take]
    refine (hoperand _ _ htaken.twins (by omega) (by omega)).bind
      fun high high' c₂ d₂ hhigh h₂ _ _ => ?_
    exact .pure h₂ (by rw [Expr.Same, Expr.erased, Expr.erased, hlow, hhigh])
  · rw [if_neg hc, if_neg (mt (h₁.kind_iff rfl).mp hc)]
    exact .pure h₁ hlow

end Levels

/-! ## Subscripts and fields -/

section Primaries

variable {expr expr' : Reading Expr} [Forward expr] [Forward expr']

theorem accesses (hexpr : Lockstep F Expr.Same K L expr expr') {c d : Token.Cursor} {n m : Nat}
    {base base' : Expr} (hbase : base.Same base') (h : Twins F c d) (hK : c.rest.length < K + 1)
    (hL : d.rest.length < L + 1) (hn : c.rest.length < n) (hm : d.rest.length < m) :
    Matches F Expr.Same (Expr.accesses expr n base) (Expr.accesses expr' m base') c d := by
  induction hlength : c.rest.length using Nat.strongRecOn generalizing n m c d base base' with
  | _ length ih =>
      obtain ⟨n, rfl⟩ : ∃ n', n = n' + 1 := ⟨n - 1, by omega⟩
      obtain ⟨m, rfl⟩ : ∃ m', m = m' + 1 := ⟨m - 1, by omega⟩
      by_cases hbracket : c.kind = .lbracket
      · have htaken := h.taken (by rw [hbracket]; rfl)
        have hleft := htaken.left_lt
        have hright := htaken.right_lt
        rw [Expr.accesses, Expr.accesses, matches_kind, hbracket, (h.kind_iff rfl).mpr hbracket]
        simp only [matches_take]
        refine (hexpr.items _ _ htaken.twins (by omega) (by omega)).bind
          fun is is' c₁ d₁ his h₁ hc₁ hd₁ => ?_
        refine .expect h₁ (by decide) fun _ htaken₁ => ?_
        have hleft₁ := htaken₁.left_lt
        have hright₁ := htaken₁.right_lt
        exact ih _ (by omega) (hbase.indices his) htaken₁.twins (by omega) (by omega) (by omega)
          (by omega) rfl
      · by_cases hdot : c.kind = .dot
        · have htaken := h.taken (by rw [hdot]; rfl)
          have hleft := htaken.left_lt
          have hright := htaken.right_lt
          rw [Expr.accesses, Expr.accesses, matches_kind, hdot, (h.kind_iff rfl).mpr hdot]
          simp only [matches_nextKind, Token.Cursor.nextKind_eq,
            htaken.twins.kind_iff (k := .ident) rfl, htaken.twins.kind_iff (k := .lengthWord) rfl]
          split
          next hfield =>
            have htaken₁ := htaken.twins.taken (by rcases hfield with hk | hk <;> rw [hk] <;> rfl)
            have hleft₁ := htaken₁.left_lt
            have hright₁ := htaken₁.right_lt
            rw [matches_take, matches_take]
            refine ih _ (by omega) ?_ htaken₁.twins (by omega) (by omega) (by omega) (by omega) rfl
            rw [Expr.Same, Expr.erased, Expr.erased, hbase, htaken₁.alike.text]
          next => exact .pure h hbase
        · have hbracket' := mt (h.kind_iff rfl).mp hbracket
          have hdot' := mt (h.kind_iff rfl).mp hdot
          exact .of_ok (run_accesses_of_ne n base hbracket hdot)
            (run_accesses_of_ne m base' hbracket' hdot') h hbase

/-! ## Calls -/

theorem arguments (hexpr : Lockstep F Expr.Same K L expr expr') (explicit : Bool) :
    Lockstep F (List.Forall₂ Expr.Same) (K + 1) (L + 1) (Expr.arguments expr explicit)
      (Expr.arguments expr' explicit) := by
  intro c d h hK hL
  have hparen : (d.kind != .lparen) = (c.kind != .lparen) := by
    rw [Bool.eq_iff_iff]
    simp only [bne_iff_ne, ne_eq, h.kind_iff (k := .lparen) rfl]
  rw [Expr.arguments, Expr.arguments, matches_kind, hparen]
  split
  · exact .pure h .nil
  · dsimp only
    refine .expect h (by decide) fun _ htaken => ?_
    have hleft := htaken.left_lt
    have hright := htaken.right_lt
    rw [matches_kind]
    simp only [htaken.twins.kind_iff (k := .rparen) rfl]
    split
    · rw [matches_pure_bind]
      refine .expect htaken.twins (by decide) fun _ htaken₁ => ?_
      exact .pure htaken₁.twins .nil
    · refine (hexpr.items _ _ htaken.twins (by omega) (by omega)).bind
        fun args args' c₁ d₁ hargs h₁ _ _ => ?_
      refine .expect h₁ (by decide) fun _ htaken₁ => ?_
      exact .pure htaken₁.twins hargs

/-- The name of a procedure, and where it stands. -/
theorem procedureName {c d : Token.Cursor} (h : Twins F c d) :
    Matches F (Token.Alike F.lines) Expr.procedureName Expr.procedureName c d := by
  rw [Expr.procedureName, matches_kind]
  simp only [h.kind_iff (k := .swapWord) rfl]
  split
  next hk =>
    have htaken := h.taken (by rw [hk]; rfl)
    exact .of_ok rfl rfl htaken.twins htaken.alike
  next =>
    rw [← bind_pure (expect _ _)]
    refine .expect h (by decide) fun _ htaken => ?_
    exact .pure htaken.twins htaken.alike

theorem explicitCall (hexpr : Lockstep F Expr.Same K L expr expr') (p p' : Pos) :
    Lockstep F Expr.Same (K + 1) (L + 1) (Expr.explicitCall expr p)
      (Expr.explicitCall expr' p') := by
  intro c d h hK hL
  rw [Expr.explicitCall, Expr.explicitCall]
  refine (procedureName h).bind fun t t' c₁ d₁ ht h₁ hc₁ hd₁ => ?_
  refine (hexpr.arguments true _ _ h₁ (by omega) (by omega)).bind
    fun args args' c₂ d₂ hargs h₂ _ _ => ?_
  rw [ht.text]
  exact .pure h₂ (.call hargs)

theorem rounded (hexpr : Lockstep F Expr.Same K L expr expr') (p p' : Pos) (op : UnaryOp)
    {closing : Token.Kind} (expected : Text) (hclosing : closing ≠ .eof ∧ closing ≠ .ifWord) :
    Lockstep F Expr.Same K L (Expr.rounded expr p op closing expected)
      (Expr.rounded expr' p' op closing expected) := by
  intro c d h hK hL
  rw [Expr.rounded, Expr.rounded]
  refine (hexpr c d h hK hL).bind fun e e' c₁ d₁ he h₁ _ _ => ?_
  refine .expect h₁ hclosing fun _ htaken => ?_
  exact .pure htaken.twins (by rw [Expr.Same, Expr.erased, Expr.erased, he])

theorem primary (hexpr : Lockstep F Expr.Same K L expr expr') :
    Lockstep F Expr.Same (K + 1) (L + 1) (Expr.primary expr) (Expr.primary expr') := by
  intro c d h hK hL
  by_cases hedge : isEdge c.kind = true
  · exact .of_error (run_primary_of_isEdge hedge)
  · rw [Expr.primary, Expr.primary, matches_peek]
    have htaken := h.taken (by simpa using hedge)
    have hleft := htaken.left_lt
    have hright := htaken.right_lt
    rw [htaken.alike.kind]
    split
    -- Literals
    · simp only [matches_take, htaken.alike.text]
      split
      · exact .pure htaken.twins rfl
      · exact .of_error rfl
    · simp only [matches_take, htaken.alike.text]
      exact .pure htaken.twins rfl
    · exact .pure htaken.twins rfl
    · exact .pure htaken.twins rfl
    · exact .pure htaken.twins rfl
    -- Calls and names
    · rw [matches_take]
      refine (hexpr.arguments false _ _ htaken.twins (by omega) (by omega)).bind
        fun args args' c₁ d₁ hargs h₁ _ _ => ?_
      exact .pure h₁ (.call hargs)
    · rw [matches_take]
      exact hexpr.explicitCall _ _ _ _ htaken.twins (by omega) (by omega)
    · rw [matches_take, matches_kind, htaken.alike.text]
      simp only [htaken.twins.kind_iff (k := .lparen) rfl]
      split
      · refine (hexpr.arguments false _ _ htaken.twins (by omega) (by omega)).bind
          fun args args' c₁ d₁ hargs h₁ _ _ => ?_
        exact .pure h₁ (.call hargs)
      · exact .pure htaken.twins rfl
    -- Brackets
    · rw [matches_take]
      refine (hexpr _ _ htaken.twins (by omega) (by omega)).bind fun e e' c₁ d₁ he h₁ _ _ => ?_
      refine .expect h₁ (by decide) fun _ htaken₁ => ?_
      exact .pure htaken₁.twins he
    · rw [matches_take]
      exact hexpr.rounded _ _ _ _ (by decide) _ _ htaken.twins (by omega) (by omega)
    · rw [matches_take]
      exact hexpr.rounded _ _ _ _ (by decide) _ _ htaken.twins (by omega) (by omega)
    · exact .fail

theorem powerLevel {sign sign' : Reading Expr} [Forward sign] [Forward sign']
    (hexpr : Lockstep F Expr.Same K L expr expr') (hsign : Lockstep F Expr.Same K L sign sign') :
    Lockstep F Expr.Same (K + 1) (L + 1) (Expr.powerLevel expr sign)
      (Expr.powerLevel expr' sign') := by
  intro c d h hK hL
  rw [Expr.powerLevel, Expr.powerLevel, matches_remaining]
  refine (hexpr.primary c d h hK hL).bind fun base base' c₁ d₁ hbase h₁ hc₁ hd₁ => ?_
  refine (hexpr.accesses hbase h₁ (by omega) (by omega) (by omega) (by omega)).bind
    fun base base' c₂ d₂ hbase h₂ hc₂ hd₂ => ?_
  rw [matches_kind]
  simp only [h₂.kind_iff (k := .caret) rfl]
  split
  next hk =>
    have htaken := h₂.taken (by rw [hk]; rfl)
    have hleft := htaken.left_lt
    have hright := htaken.right_lt
    rw [matches_take]
    refine (hsign _ _ htaken.twins (by omega) (by omega)).bind fun e e' c₃ d₃ he h₃ _ _ => ?_
    exact .pure h₃ (by rw [Expr.Same, Expr.erased, Expr.erased, hbase, he])
  next => exact .pure h₂ hbase

end Primaries

/-! ## Expressions -/

/-- Every nesting takes a token, except that an expression is first read as one at the level of
signs. -/
theorem nestedExprs (n m : Nat) : ∀ K L,
    (2 * K ≤ n → 2 * L ≤ m →
      Lockstep F Expr.Same K L (Expr.readWithin n) (Expr.readWithin m)) ∧
    (2 * K ≤ n + 1 → 2 * L ≤ m + 1 →
      Lockstep F Expr.Same K L (Expr.readSign n) (Expr.readSign m)) := by
  induction n generalizing m with
  | zero =>
      intro K L
      exact ⟨fun _ _ => .of_eq_zero (by omega), fun _ _ => .of_eq_zero (by omega)⟩
  | succ n ih =>
      rcases m with _ | m
      · intro K L
        exact ⟨fun _ _ => .of_eq_zero (by omega), fun _ _ => .of_eq_zero (by omega)⟩
      intro K L
      constructor
      · intro hK hL
        rw [Expr.readWithin, Expr.readWithin]
        exact ((ih m K L).2 (by omega) (by omega)).binaryLevels.rangeLevel
      · intro hK hL
        rcases K with _ | K
        · exact .of_eq_zero (.inl rfl)
        rcases L with _ | L
        · exact .of_eq_zero (.inr rfl)
        have hwithin := (ih m K L).1 (by omega) (by omega)
        have hsign := (ih m K L).2 (by omega) (by omega)
        intro c d h hc hd
        rw [Expr.readSign, Expr.readSign, matches_kind, h.lookup (f := Expr.signOp?) rfl]
        cases hop : Expr.signOp? c.kind with
        | none => exact hwithin.powerLevel hsign c d h hc hd
        | some op =>
            have htaken := h.taken (not_isEdge_of_some signOp?_of_isEdge hop)
            have hleft := htaken.left_lt
            have hright := htaken.right_lt
            simp only [matches_take]
            refine (hsign _ _ htaken.twins (by omega) (by omega)).bind
              fun e e' c₁ d₁ he h₁ _ _ => ?_
            exact .pure h₁ (by rw [Expr.Same, Expr.erased, Expr.erased, he])

/-- An expression is read the same from all twins. -/
theorem exprRead {c d : Token.Cursor} (h : Twins F c d) :
    Matches F Expr.Same Expr.read Expr.read c d := by
  rw [Expr.read, matches_remaining]
  exact (nestedExprs _ _ (c.rest.length + 1) (d.rest.length + 1)).1 (by omega) (by omega) c d h
    (Nat.lt_succ_self _) (Nat.lt_succ_self _)

theorem exprLockstep (K L : Nat) : Lockstep F Expr.Same K L Expr.read Expr.read :=
  fun _ _ h _ _ => exprRead h

theorem exprItems {c d : Token.Cursor} (h : Twins F c d) :
    Matches F (List.Forall₂ Expr.Same) (Reading.items Expr.read) (Reading.items Expr.read) c d :=
  (exprLockstep _ _).items c d h (Nat.lt_succ_self _) (Nat.lt_succ_self _)

theorem callArguments {c d : Token.Cursor} (h : Twins F c d) (explicit : Bool) :
    Matches F (List.Forall₂ Expr.Same) (Expr.arguments Expr.read explicit)
      (Expr.arguments Expr.read explicit) c d :=
  (exprLockstep _ _).arguments explicit c d h (Nat.lt_succ_self _) (Nat.lt_succ_self _)

end Lockstep

end PseudoCost
