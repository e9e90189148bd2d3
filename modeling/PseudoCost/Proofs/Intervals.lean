import PseudoCost.Proofs.ProgramGrammar

/-!
# Blocks and their places in the source

If the tokens of a program stand one behind the other, so do its blocks and statements: the
statements of a block are in order between the start of the block and where it is closed, and a
block in a statement lies between this statement and the next one, or where the block around it is
closed (`Program.ofTokens_wellPlaced`).

Where a block starts and closes is settled in several ways: at its `begin` or `repeat`, at its first
token, at the `then` or `else` before it; at its `end` or `until`, or at the next token, whatever it
is. The statements of a nested block between `begin` and `end` also move to the block around it. The
induction over the grammar therefore follows lists of statements by the place at which they have to
be closed (`Stmt.InOrder`), and two such lists are put together where the first one closes before
the second one starts.
-/

namespace PseudoCost

/-! ## The order of places -/

/-- The line counts first, then the column. -/
def Pos.key (p : Pos) : ℤ ×ₗ ℤ := toLex (p.line, p.col)

theorem Pos.key_injective : Function.Injective Pos.key := by
  rintro ⟨l, c⟩ ⟨l', c'⟩ h
  obtain ⟨rfl, rfl⟩ := Prod.mk.inj (toLex.injective h)
  rfl

noncomputable instance : PartialOrder Pos := PartialOrder.lift Pos.key Pos.key_injective

theorem Pos.lt_iff {p q : Pos} : p < q ↔ p.line < q.line ∨ p.line = q.line ∧ p.col < q.col := by
  change p.key < q.key ↔ _
  rw [Pos.key, Pos.key, Prod.Lex.toLex_lt_toLex]

instance : DecidableLT Pos := fun _ _ => decidable_of_iff _ Pos.lt_iff.symm

/-- The tokens stand one behind the other. -/
abbrev Token.Ordered (ts : List Token) : Prop := ts.Pairwise fun t u => t.pos < u.pos

/-- A segment of ordered tokens is ordered, between the first and the last of the tokens. -/
theorem Token.Ordered.segment {front : List Token} {next : Token}
    (h : Token.Ordered (front ++ [next])) (t : Token) (pre us post : List Token)
    (heq : front ++ [next] = t :: (pre ++ (us ++ post))) :
    Token.Ordered us ∧ ∀ u ∈ us, t.pos ≤ u.pos ∧ u.pos ≤ next.pos := by
  have hlast := (List.pairwise_append.mp h).2.2
  rw [heq] at h
  obtain ⟨hfirst, htail⟩ := List.pairwise_cons.mp h
  refine ⟨(List.pairwise_append.mp (List.pairwise_append.mp htail).2.1).1, fun u hu => ⟨?_, ?_⟩⟩
  · exact (hfirst u (by simp [hu])).le
  · have hmem : u ∈ front ++ [next] := by
      rw [heq]
      simp [hu]
    rcases List.mem_append.mp hmem with hmem | hmem
    · exact (hlast u hmem next (List.mem_singleton_self next)).le
    · exact le_of_eq (by rw [List.mem_singleton.mp hmem])

/-- Where ordered tokens are parted, the first part is before the token it is followed by, and this
is not behind any token of the second part. -/
theorem Token.Ordered.part {us vs : List Token} {next : Token}
    (h : Token.Ordered (us ++ vs ++ [next])) :
    Token.Ordered (us ++ [vs.headD next]) ∧ Token.Ordered (vs ++ [next])
      ∧ ∀ v ∈ vs ++ [next], (vs.headD next).pos ≤ v.pos := by
  rw [List.append_assoc] at h
  have hvs : Token.Ordered (vs ++ [next]) := (List.pairwise_append.mp h).2.1
  cases vs with
  | nil => exact ⟨h, hvs, fun v hv => le_of_eq (by rw [List.mem_singleton.mp hv]; rfl)⟩
  | cons w vs =>
      refine ⟨h.sublist ?_, hvs, fun v hv => ?_⟩
      · exact List.Sublist.append_left (List.singleton_sublist.mpr List.mem_cons_self) us
      · rcases List.mem_cons.mp hv with rfl | hv
        · exact le_refl _
        · exact ((List.pairwise_cons.mp hvs).1 v hv).le

/-! ## Well-placed blocks -/

mutual

/-- The blocks in a statement, at any depth. -/
def Stmt.blocks : Stmt → List Block
  | .forLoop _ _ _ _ _ _ body => body.blocks
  | .whileLoop _ _ _ body => body.blocks
  | .repeatLoop _ _ body _ => body.blocks
  | .conditional _ _ thenBlock (some elseBlock) => thenBlock.blocks ++ elseBlock.blocks
  | .conditional _ _ thenBlock none => thenBlock.blocks
  | .assign .. | .call .. | .give .. => []

/-- The block itself and the blocks in it, at any depth. -/
def Block.blocks : Block → List Block
  | .mk pos explicit close stmts => .mk pos explicit close stmts :: Stmt.blocksOf stmts

/-- The blocks in a list of statements, at any depth. -/
def Stmt.blocksOf : List Stmt → List Block
  | [] => []
  | s :: ss => s.blocks ++ Stmt.blocksOf ss

end

/-- The place after a statement: that of the first of the statements after it, or else where the
statements are closed. -/
def Stmt.placeAfter (close : Pos) (rest : List Stmt) : Pos := (rest.head?.map Stmt.pos).getD close

/-- The statements of the block are in order between its start and where it is closed, and the
blocks in each of them lie between it and the next place. -/
structure Block.WellPlaced (b : Block) : Prop where
  increasing : b.stmts.Pairwise fun s s' => s.pos < s'.pos
  after_start : ∀ s ∈ b.stmts, b.pos ≤ s.pos
  before_close : ∀ s ∈ b.stmts, s.pos < b.close
  nested : ∀ pre s post, b.stmts = pre ++ s :: post → ∀ n ∈ s.blocks,
    s.pos ≤ n.pos ∧ n.pos ≤ n.close ∧ n.close ≤ Stmt.placeAfter b.close post

/-- All blocks of a program, at any depth. -/
def Program.allBlocks (p : Program) : List Block := p.blocks.flatMap Block.blocks

/-! ## Lists of statements in order -/

/-- The blocks are well-placed and lie between two places. -/
def Block.Between (low high : Pos) (bs : List Block) : Prop :=
  ∀ n ∈ bs, n.WellPlaced ∧ low ≤ n.pos ∧ n.pos ≤ n.close ∧ n.close ≤ high

theorem Block.Between.mono {low low' high high' : Pos} {bs : List Block}
    (h : Block.Between low high bs) (hlow : low' ≤ low) (hhigh : high ≤ high') :
    Block.Between low' high' bs := by
  intro n hn
  obtain ⟨hplaced, hl, hn, hh⟩ := h n hn
  exact ⟨hplaced, hlow.trans hl, hn, hh.trans hhigh⟩

theorem Block.Between.append {low high : Pos} {bs bs' : List Block}
    (h : Block.Between low high bs) (h' : Block.Between low high bs') :
    Block.Between low high (bs ++ bs') := by
  intro n hn
  rcases List.mem_append.mp hn with hn | hn
  · exact h n hn
  · exact h' n hn

namespace Stmt

/-- The statements are in order, with the blocks in them, up to the place where they are closed. -/
def InOrder (close : Pos) : List Stmt → Prop
  | [] => True
  | s :: rest => s.pos < placeAfter close rest
      ∧ Block.Between s.pos (placeAfter close rest) s.blocks ∧ InOrder close rest

namespace InOrder

variable {close : Pos} {ss : List Stmt}

theorem placeAfter_le : ∀ {ss : List Stmt}, InOrder close ss → placeAfter close ss ≤ close
  | [], _ => le_refl close
  | _ :: _, h => h.1.le.trans h.2.2.placeAfter_le

theorem le_pos : ∀ {ss : List Stmt}, InOrder close ss → ∀ s ∈ ss, placeAfter close ss ≤ s.pos
  | _ :: _, h, s', hs' => by
      rcases List.mem_cons.mp hs' with rfl | hs'
      · exact le_refl _
      · exact h.1.le.trans (h.2.2.le_pos s' hs')

theorem pos_lt : ∀ {ss : List Stmt}, InOrder close ss → ∀ s ∈ ss, s.pos < close
  | _ :: _, h, s', hs' => by
      rcases List.mem_cons.mp hs' with rfl | hs'
      · exact h.1.trans_le h.2.2.placeAfter_le
      · exact h.2.2.pos_lt s' hs'

theorem increasing : ∀ {ss : List Stmt}, InOrder close ss → ss.Pairwise fun s s' => s.pos < s'.pos
  | [], _ => .nil
  | _ :: _, h =>
      .cons (fun s' hs' => h.1.trans_le (h.2.2.le_pos s' hs')) h.2.2.increasing

theorem between_of_append : ∀ (pre : List Stmt) {s : Stmt} {post : List Stmt},
    InOrder close (pre ++ s :: post) → Block.Between s.pos (placeAfter close post) s.blocks
  | [], _, _, h => h.2.1
  | _ :: pre, _, _, h => between_of_append pre h.2.2

theorem between_blocksOf : ∀ {ss : List Stmt}, InOrder close ss →
    Block.Between (placeAfter close ss) close (blocksOf ss)
  | [], _ => nofun
  | _ :: _, h => by
      refine Block.Between.append (h.2.1.mono (le_refl _) h.2.2.placeAfter_le) ?_
      exact h.2.2.between_blocksOf.mono h.1.le (le_refl _)

/-- The statements of two lists are in order if the first list is closed before the second one
starts. -/
theorem append {close' : Pos} : ∀ {ss ss' : List Stmt}, InOrder close ss → InOrder close' ss' →
    close ≤ placeAfter close' ss' → InOrder close' (ss ++ ss')
  | [], ss', _, h', _ => h'
  | s :: rest, ss', h, h', hle => by
      have hafter : placeAfter close rest ≤ placeAfter close' (rest ++ ss') := by
        cases rest with
        | nil => exact hle
        | cons r rest => exact le_refl _
      exact ⟨h.1.trans_le hafter, h.2.1.mono (le_refl _) hafter, h.2.2.append h' hle⟩

/-- A block of statements in order, and the blocks in it. -/
theorem between_blocks {low high pos : Pos} (h : InOrder close ss)
    (hpos : pos ≤ placeAfter close ss) (explicit : Bool) (hlow : low ≤ pos) (hhigh : close ≤ high) :
    Block.Between low high (Block.mk pos explicit close ss).blocks := by
  intro n hn
  rcases List.mem_cons.mp hn with rfl | hn
  · refine ⟨⟨h.increasing, fun s hs => hpos.trans (h.le_pos s hs), h.pos_lt, ?_⟩, hlow,
      hpos.trans h.placeAfter_le, hhigh⟩
    intro pre s post heq m hm
    rw [Block.stmts] at heq
    subst heq
    exact (between_of_append pre h m hm).2
  · exact h.between_blocksOf.mono (hlow.trans hpos) hhigh n hn

end InOrder

/-! ## Phrases in order -/

open Token (Ordered)

theorem Phrase.exists_head {ts : List Token} {next : Token} {s : Stmt} (h : Phrase ts next s) :
    ∃ t us, ts = t :: us ∧ s.pos = t.pos := by
  cases h <;> exact ⟨_, _, rfl, rfl⟩

/-- The first statement stands at one of the tokens, or there is none before the token after
them. -/
theorem Phrases.exists_placeAfter : ∀ {ts : List Token} {next : Token} {ss : List Stmt},
    Phrases ts next ss → ∃ t ∈ ts ++ [next], placeAfter next.pos ss = t.pos
  | _, next, _, .nil => ⟨next, List.mem_singleton_self next, rfl⟩
  | _, _, _, .semicolon _ h => by
      obtain ⟨t, ht, hpos⟩ := h.exists_placeAfter
      exact ⟨t, List.mem_cons_of_mem _ ht, hpos⟩
  | _, _, _, .cons hs _ => by
      obtain ⟨t, us, rfl, hpos⟩ := hs.exists_head
      exact ⟨t, List.mem_cons_self, hpos⟩
  | _, _, _, .group (@GroupPhrase.mk _ us u [] _ _ _) hss => by
      obtain ⟨t, ht, hpos⟩ := hss.exists_placeAfter
      exact ⟨t, by simp_all, hpos⟩
  | _, _, _, .group (@GroupPhrase.mk _ us u (_ :: _) _ hstmts _) _ => by
      obtain ⟨t, ht, hpos⟩ := hstmts.exists_placeAfter
      refine ⟨t, ?_, hpos⟩
      rcases List.mem_append.mp ht with ht | ht <;> simp_all

end Stmt

/-! ### Blocks -/

/-- After the last branch of a conditional its closing `end` follows, or what is after it. -/
theorem Stmt.Closing.exists_eq {next follow : Token} {complete : Bool} {es : List Token}
    (h : Stmt.Closing next complete es follow) : ∃ post, es ++ [next] = follow :: post := by
  cases h with
  | complete => exact ⟨[], rfl⟩
  | ended => exact ⟨[next], rfl⟩

/-- The block stands at the tokens: it starts and closes at one of them, with its statements in
order in between. -/
structure Block.StandsAt (ts : List Token) (b : Block) : Prop where
  inOrder : Stmt.InOrder b.close b.stmts
  start_le : b.pos ≤ Stmt.placeAfter b.close b.stmts
  start_mem : ∃ t ∈ ts, b.pos = t.pos
  close_mem : ∃ t ∈ ts, b.close = t.pos

theorem Block.StandsAt.mono {us ts : List Token} {b : Block} (h : b.StandsAt us) (hsub : us ⊆ ts) :
    b.StandsAt ts := by
  obtain ⟨horder, hle, ⟨t, ht, hpos⟩, u, hu, hclose⟩ := h
  exact ⟨horder, hle, ⟨t, hsub ht, hpos⟩, u, hsub hu, hclose⟩

theorem Block.StandsAt.between {ts : List Token} {b : Block} (h : b.StandsAt ts) {low high : Pos}
    (hts : ∀ t ∈ ts, low ≤ t.pos ∧ t.pos ≤ high) : Block.Between low high b.blocks := by
  obtain ⟨horder, hle, ⟨t, ht, hpos⟩, u, hu, hclose⟩ := h
  cases b with
  | mk pos explicit close stmts =>
      refine horder.between_blocks hle explicit ?_ ?_
      · exact (hts t ht).1.trans (le_of_eq hpos.symm)
      · exact (le_of_eq hclose).trans (hts u hu).2

theorem Block.StandsAt.wellPlaced {ts : List Token} {b : Block} (h : b.StandsAt ts) :
    ∀ n ∈ b.blocks, n.WellPlaced := by
  cases b with
  | mk pos explicit close stmts =>
      exact fun n hn =>
        (h.inOrder.between_blocks h.start_le explicit (le_refl _) (le_refl _) n hn).1

namespace Stmt

open Token (Ordered)

mutual

/-- The blocks of a statement lie between the statement and the token after it. -/
theorem Phrase.between : ∀ {ts : List Token} {next : Token} {s : Stmt}, Phrase ts next s →
    Ordered (ts ++ [next]) → Block.Between s.pos next.pos s.blocks
  | _, next, _, @Phrase.forLoop t v a us d vs ws o bs _ _ _ _ _ _ _ _ _ _ _ _ _ _ hbody, h => by
      obtain ⟨hbs, hbounds⟩ :=
        h.segment t (v :: a :: (us ++ d :: (vs ++ (ws ++ [o])))) bs [next] (by simp)
      exact (hbody.standsAt hbs).between hbounds
  | _, next, _, @Phrase.whileLoop t us o bs _ _ _ _ _ _ hbody, h => by
      obtain ⟨hbs, hbounds⟩ := h.segment t (us ++ [o]) bs [next] (by simp)
      exact (hbody.standsAt hbs).between hbounds
  | _, next, _, @Phrase.repeatLoop t us u vs _ _ _ _ hstmts _ _, h => by
      obtain ⟨hus, hbounds⟩ := h.segment t [] (us ++ [u]) (vs ++ [next]) (by simp)
      obtain ⟨v, hv, hafter⟩ := hstmts.exists_placeAfter
      have hstart : t.pos ≤ placeAfter u.pos _ := (hbounds v hv).1.trans (le_of_eq hafter.symm)
      exact (hstmts.inOrder hus).between_blocks hstart false (le_refl _) (hbounds u (by simp)).2
  | _, next, _, @Phrase.ifThen t us o bs es _ follow _ _ _ _ _ _ hthen hes, h => by
      obtain ⟨post, hpost⟩ := hes.exists_eq
      obtain ⟨hbs, hbounds⟩ := h.segment t us (o :: (bs ++ [follow])) post (by simp [hpost])
      exact (hthen.standsAt hbs).between hbounds
  | _, next, _, @Phrase.ifElse t us o bs u vs es _ follow _ _ _ _ _ _ _ _ hthen _ helse hes, h => by
      obtain ⟨post, hpost⟩ := hes.exists_eq
      obtain ⟨hbs, hbounds⟩ := h.segment t us (o :: (bs ++ [u])) (vs ++ es ++ [next]) (by simp)
      obtain ⟨hvs, hbounds'⟩ := h.segment t (us ++ o :: bs) (u :: (vs ++ [follow])) post
        (by simp [hpost])
      exact ((hthen.standsAt hbs).between hbounds).append ((helse.standsAt hvs).between hbounds')
  | _, _, _, .assign .., _ | _, _, _, .call .., _ | _, _, _, .explicitCall .., _
  | _, _, _, .print .., _ | _, _, _, .swapCall .., _ | _, _, _, .swapWith .., _
  | _, _, _, .bareReturn .., _ | _, _, _, .valueReturn .., _ => nofun

/-- The statements of a list are in order up to the token after them. -/
theorem Phrases.inOrder : ∀ {ts : List Token} {next : Token} {ss : List Stmt}, Phrases ts next ss →
    Ordered (ts ++ [next]) → InOrder next.pos ss
  | _, _, _, .nil, _ => trivial
  | _, _, _, .semicolon _ hss, h => hss.inOrder h.of_cons
  | _, next, _, @Phrases.cons _ vs _ s _ hs hss, h => by
      obtain ⟨hus, hvs, hle⟩ := h.part
      have hbetween := hs.between hus
      obtain ⟨t, us, rfl, hpos⟩ := hs.exists_head
      obtain ⟨v, hv, hafter⟩ := hss.exists_placeAfter
      have hnext := (hle v hv).trans (le_of_eq hafter.symm)
      have hlt : t.pos < (vs.headD next).pos := (List.pairwise_cons.mp hus).1 _ (by simp)
      exact ⟨hpos ▸ hlt.trans_le hnext, hbetween.mono (le_refl _) hnext, hss.inOrder hvs⟩
  | _, _, _, .group hb hss, h => by
      obtain ⟨hus, hvs, hle⟩ := h.part
      obtain ⟨v, hv, hafter⟩ := hss.exists_placeAfter
      have hblock := hb.standsAt (List.pairwise_append.mp hus).1
      obtain ⟨u, hu, hclose⟩ := hblock.close_mem
      have hlt := (List.pairwise_append.mp hus).2.2 u hu _ (List.mem_singleton_self _)
      refine hblock.inOrder.append (hss.inOrder hvs) ?_
      rw [hclose, hafter]
      exact hlt.le.trans (hle v hv)

theorem GroupPhrase.standsAt : ∀ {ts : List Token} {b : Block}, GroupPhrase ts b → Ordered ts →
    b.StandsAt ts
  | _, _, @GroupPhrase.mk t us u _ _ hstmts _, h => by
      obtain ⟨hfirst, hus⟩ := List.pairwise_cons.mp h
      obtain ⟨v, hv, hafter⟩ := hstmts.exists_placeAfter
      refine ⟨hstmts.inOrder hus, ?_, ⟨t, by simp, rfl⟩, ⟨u, by simp, rfl⟩⟩
      exact (hfirst v hv).le.trans (le_of_eq hafter.symm)

theorem BodyPhrase.standsAt : ∀ {ts : List Token} {b : Block}, BodyPhrase ts b → Ordered ts →
    b.StandsAt ts
  | _, _, .group hb, h => hb.standsAt h
  | _, _, @BodyPhrase.bare us u _ hstmts _, h => by
      obtain ⟨-, -, hle⟩ := @Token.Ordered.part [] us u h
      obtain ⟨v, hv, hafter⟩ := hstmts.exists_placeAfter
      refine ⟨hstmts.inOrder h, (hle v hv).trans (le_of_eq hafter.symm), ?_, ⟨u, by simp, rfl⟩⟩
      cases us with
      | nil => exact ⟨u, by simp, rfl⟩
      | cons t us => exact ⟨t, by simp, rfl⟩

theorem BranchPhrase.standsAt : ∀ {opener : Token} {ts : List Token} {next : Token} {b : Block}
    {complete : Bool}, BranchPhrase opener ts next b complete → Ordered (opener :: (ts ++ [next])) →
    b.StandsAt (opener :: (ts ++ [next]))
  | _, _, _, _, _, .group hb, h =>
      (hb.standsAt (List.pairwise_append.mp h.of_cons).1).mono (by simp_all)
  | _, _, _, _, _, @BranchPhrase.single _ _ next _ hs, h => by
      obtain ⟨hfirst, hts⟩ := List.pairwise_cons.mp h
      have hbetween := hs.between hts
      obtain ⟨t, us, rfl, hpos⟩ := hs.exists_head
      have hlt : t.pos < next.pos := (List.pairwise_cons.mp hts).1 _ (by simp)
      refine ⟨⟨hpos ▸ hlt, hbetween, trivial⟩, ?_, ⟨_, by simp, rfl⟩, ⟨_, by simp, rfl⟩⟩
      exact (hfirst t (by simp)).le.trans (le_of_eq hpos.symm)
  | _, _, _, _, _, .unclosed hstmts, h => by
      obtain ⟨hfirst, hts⟩ := List.pairwise_cons.mp h
      obtain ⟨v, hv, hafter⟩ := hstmts.exists_placeAfter
      refine ⟨hstmts.inOrder hts, ?_, ⟨_, by simp, rfl⟩, ⟨_, by simp, rfl⟩⟩
      exact (hfirst v hv).le.trans (le_of_eq hafter.symm)

end

end Stmt

/-! ### Programs -/

theorem Procedure.Phrase.standsAt {kept ts : List Token} {p : Procedure}
    (h : Procedure.Phrase kept ts p) (hts : Token.Ordered ts) : p.body.StandsAt ts := by
  cases h with
  | @mk ws n o kept ps c bs params body _ _ _ _ _ hbody =>
      have hsub : bs.Sublist (ws ++ n :: o :: (ps ++ c :: bs)) :=
        .trans (.trans (List.sublist_cons_self c bs) (List.sublist_append_right ps _))
          (.trans (.cons _ (List.sublist_cons_self o _)) (List.sublist_append_right ws _))
      exact (hbody.standsAt (hts.sublist hsub)).mono hsub.subset

theorem Procedure.Phrases.standsAt {kept ts : List Token} {procedures : List Procedure}
    (h : Procedure.Phrases kept ts procedures) (hts : Token.Ordered ts) :
    ∀ p ∈ procedures, p.body.StandsAt ts := by
  induction h with
  | nil => exact nofun
  | @cons kept us kept' vs p procedures hp _ ih =>
      obtain ⟨hus, hvs, -⟩ := List.pairwise_append.mp hts
      intro q hq
      rcases List.mem_cons.mp hq with rfl | hq
      · exact (hp.standsAt hus).mono (List.subset_append_left us vs)
      · exact (ih hvs q hq).mono (List.subset_append_right us vs)

namespace Program

theorem Phrase.standsAt {kept ts : List Token} {stop : Token} {p : Program}
    (h : Phrase kept ts stop p) (hts : Token.Ordered ts) : ∀ b ∈ p.blocks, b.StandsAt ts := by
  cases h with
  | @withMain ss kept us before bs main gs kept' vs after stop _ hbefore hmain _ hafter =>
      obtain ⟨-, hts, -⟩ := List.pairwise_append.mp hts
      obtain ⟨hus, hts, -⟩ := List.pairwise_append.mp hts
      obtain ⟨hbs, hts, -⟩ := List.pairwise_append.mp hts
      obtain ⟨-, hvs, -⟩ := List.pairwise_append.mp hts
      simp only [blocks, List.mem_append, List.mem_map, Option.mem_toList,
        Option.some.injEq]
      rintro b (⟨q, hq | hq, rfl⟩ | rfl)
      · exact (hbefore.standsAt hus q hq).mono fun t ht => by simp [ht]
      · exact (hafter.standsAt hvs q hq).mono fun t ht => by simp [ht]
      · exact (hmain.standsAt hbs).mono fun t ht => by simp [ht]
  | withoutMain _ hprocedures =>
      obtain ⟨-, hus, -⟩ := List.pairwise_append.mp hts
      simp only [blocks, List.mem_append, List.mem_map, Option.toList_none, List.not_mem_nil]
      rintro b (⟨q, hq, rfl⟩ | hb)
      · exact (hprocedures.standsAt hus q hq).mono fun t ht => by simp [ht]
      · exact hb.elim

/-- **Blocks are nested intervals of the source.** -/
theorem ofTokens_wellPlaced {tokens : List Token} (hordered : Token.Ordered tokens) {p : Program}
    (h : ofTokens tokens = .ok p) : ∀ b ∈ p.allBlocks, b.WellPlaced := by
  obtain ⟨c, hrun⟩ := ofTokens_eq_ok_iff.mp h
  have hstop := Token.Cursor.kind_stop_ofTokens tokens
  obtain ⟨ts, rest, heq, -, -, kept, hphrase⟩ := (takes_read hstop).of_run hrun
  have hsub : ts.Sublist tokens :=
    .trans (heq ▸ List.sublist_append_left ts rest) (List.takeWhile_sublist _)
  intro n hn
  obtain ⟨b, hb, hn⟩ := List.mem_flatMap.mp hn
  exact (hphrase.standsAt (hordered.sublist hsub) b hb).wellPlaced n hn

/-- The tokens of a conditional with a loop in its second branch, in a nested group: `begin begin if
a then x <- 1 else if b then repeat until c end end y <- 2 end`, each in a line of its own. -/
def nestedTokens : List Token :=
  let mark (k : Token.Kind) : Token := { kind := k }
  let name (c : UInt8) : Token := { kind := .ident, text := [c], lexeme := [c] }
  let numeral (c : UInt8) : Token := { kind := .number, text := [c], lexeme := [c] }
  let tokens := [mark .beginWord, mark .beginWord, mark .ifWord, name 97, mark .thenWord, name 120,
    mark .assign, numeral 49, mark .elseWord, mark .ifWord, name 98, mark .thenWord,
    mark .repeatWord, mark .untilWord, name 99, mark .endWord, mark .endWord, name 121,
    mark .assign, numeral 50, mark .endWord, mark .eof]
  tokens.zipIdx.map fun (t, i) => { t with pos := ⟨i + 1, 1⟩ }

theorem ofTokens_wellPlaced_nested :
    Token.Ordered nestedTokens ∧ ∃ p, ofTokens nestedTokens = .ok p
      ∧ p.allBlocks.map (fun b => (b.pos.line, b.close.line))
          = [(1, 21), (5, 9), (9, 17), (12, 16), (13, 14)]
      ∧ ∀ b ∈ p.allBlocks, b.WellPlaced := by
  have hordered : Token.Ordered nestedTokens := by decide
  have hblocks : (ofTokens nestedTokens).toOption.map
      (fun p => p.allBlocks.map fun b => (b.pos.line, b.close.line))
        = some [(1, 21), (5, 9), (9, 17), (12, 16), (13, 14)] := by decide +kernel
  cases hrun : ofTokens nestedTokens with
  | error e =>
      rw [hrun] at hblocks
      cases hblocks
  | ok p =>
      rw [hrun] at hblocks
      exact ⟨hordered, p, rfl, Option.some.inj hblocks, ofTokens_wellPlaced hordered hrun⟩

end Program

end PseudoCost
