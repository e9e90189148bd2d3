import PseudoCost.Proofs.LoopControl
import PseudoCost.Proofs.RepeatedNames

/-!
# Built-in statements in the call graph

A `print` or `swap` statement is itself a call in the program, to a name that is meant to stand for
nothing declared. The other calls of a program are the *written* ones (`Block.writtenCalls`): those
that a name or the word `call` introduces, and all calls in the operands of a statement. The
statements `swap x with y` and `swap(x, y)` are the same, and neither is a written call.

Of the names that the built-in statements call, `print` is never declared: the name of a procedure
is an identifier or the word `swap`, and an identifier is no keyword (`ofWord_of_scan`). But `swap`
may be declared. So the graph of a source has the edges of the written calls, and if `swap` is
declared, one from every procedure that holds a `swap` statement (`edges_of_source`). A procedure
`swap` that swaps is then taken to call itself (`swappingSource`).
-/

namespace PseudoCost

open Relation (TransGen)

/-! ## The calls of single statements -/

namespace Stmt

/-- The call that a statement is. -/
def ownCall? : Stmt → Option Call
  | .call pos callee _ args => some ⟨pos, callee, args⟩
  | _ => none

/-- The expressions that a statement has outside of its blocks. -/
def operands : Stmt → List Expr
  | .forLoop _ _ _ start stop step _ => start :: stop :: step.toList
  | .whileLoop _ _ cond _ => [cond]
  | .repeatLoop _ _ _ cond => [cond]
  | .conditional _ cond _ _ => [cond]
  | .assign _ target value => [target, value]
  | .call _ _ _ args => args
  | .give _ value => value.toList

/-- Whether a statement is one that a word, `print` or `swap`, introduces. -/
def isIntroducedBy (word : Name) : Stmt → Bool
  | .call _ callee explicit _ => !explicit && callee == word
  | _ => false

/-- Whether a statement is a built-in one. -/
def isBuiltin (s : Stmt) : Bool := s.isIntroducedBy "print" || s.isIntroducedBy "swap"

/-- The calls of a statement outside of its blocks, without the one that a built-in statement is. -/
def writtenCalls (s : Stmt) : List Call :=
  (if s.isBuiltin then [] else s.ownCall?.toList) ++ s.operands.flatMap Expr.calls

/-- A call that stands in a statement outside of its blocks. -/
def Makes (s : Stmt) (c : Call) : Prop := s.ownCall? = some c ∨ ∃ e ∈ s.operands, c ∈ e.calls

theorem makes_iff {s : Stmt} {c : Call} :
    s.Makes c ↔ c ∈ s.writtenCalls ∨ s.isBuiltin = true ∧ s.ownCall? = some c := by
  rw [Makes, writtenCalls, List.mem_append, List.mem_flatMap]
  cases s.isBuiltin <;> simp [or_comm]

/-- What a built-in statement calls is the word that introduces it. -/
theorem builtin_callee_iff {s : Stmt} {n : Name} :
    (s.isBuiltin = true ∧ ∃ c, s.ownCall? = some c ∧ c.callee = n)
      ↔ (n = "print" ∨ n = "swap") ∧ s.isIntroducedBy n = true := by
  cases s with
  | call pos callee explicit args =>
      simp only [isBuiltin, isIntroducedBy, ownCall?, Bool.or_eq_true, Bool.and_eq_true,
        beq_iff_eq, Option.some.injEq, exists_eq_left']
      constructor
      · rintro ⟨⟨himplicit, hword⟩ | ⟨himplicit, hword⟩, rfl⟩
        · exact ⟨.inl hword, himplicit, rfl⟩
        · exact ⟨.inr hword, himplicit, rfl⟩
      · rintro ⟨rfl | rfl, himplicit, rfl⟩
        · exact ⟨.inl ⟨himplicit, rfl⟩, rfl⟩
        · exact ⟨.inr ⟨himplicit, rfl⟩, rfl⟩
  | _ => simp [isBuiltin, isIntroducedBy]

end Stmt

/-! ## The calls of blocks -/

theorem Expr.calls_subtermsOf (es : List Expr) :
    (subtermsOf es).filterMap call? = es.flatMap calls := by
  induction es with
  | nil => rfl
  | cons e es ih => rw [subtermsOf, List.filterMap_append, ih, List.flatMap_cons, calls]

theorem Stmt.makes_iff_of_none {s : Stmt} {c : Call} (h : s.ownCall? = none) :
    s.Makes c ↔ ∃ e ∈ s.operands, c ∈ e.calls := by
  rw [Stmt.Makes, h]
  exact or_iff_right (Option.some_ne_none c).symm

mutual

theorem Stmt.mem_calls_iff_makes {c : Call} : ∀ (s : Stmt) (d : Nat),
    c ∈ s.calls ↔ ∃ x ∈ s.nested d, x.2.Makes c
  | .forLoop _ _ _ _ _ _ body, d => by
      simp only [Stmt.calls_forLoop, Stmt.nested, List.mem_append, body.mem_calls_iff_makes d,
        List.exists_mem_cons_iff]
      rw [Stmt.makes_iff_of_none (by rfl), Stmt.operands]
      simp only [List.exists_mem_cons_iff, List.mem_flatMap, or_assoc]
  | .whileLoop _ _ _ body, d => by
      simp only [Stmt.calls_whileLoop, Stmt.nested, List.mem_append, body.mem_calls_iff_makes d,
        List.exists_mem_cons_iff]
      rw [Stmt.makes_iff_of_none (by rfl), Stmt.operands]
      simp only [List.mem_singleton, exists_eq_left]
  | .repeatLoop _ _ body _, d => by
      simp only [Stmt.calls_repeatLoop, Stmt.nested, List.mem_append, body.mem_calls_iff_makes d,
        List.exists_mem_cons_iff]
      rw [Stmt.makes_iff_of_none (by rfl), Stmt.operands]
      simp only [List.mem_singleton, exists_eq_left, or_comm]
  | .conditional _ _ thenBlock (some elseBlock), d => by
      simp only [Stmt.calls_conditional, Stmt.nested, List.mem_append, Option.toList_some,
        List.flatMap_singleton, thenBlock.mem_calls_iff_makes (d + 1),
        elseBlock.mem_calls_iff_makes (d + 1), List.exists_mem_cons_iff]
      rw [Stmt.makes_iff_of_none (by rfl), Stmt.operands]
      simp only [List.mem_singleton, exists_eq_left, or_assoc, or_and_right, exists_or]
  | .conditional _ _ thenBlock none, d => by
      simp only [Stmt.calls_conditional, Stmt.nested, List.mem_append, Option.toList_none,
        List.flatMap_nil, List.append_nil, thenBlock.mem_calls_iff_makes (d + 1),
        List.exists_mem_cons_iff]
      rw [Stmt.makes_iff_of_none (by rfl), Stmt.operands]
      simp only [List.mem_singleton, exists_eq_left]
  | .assign .., _ => by
      simp [Stmt.calls, Stmt.terms, Stmt.nested, Stmt.Makes, Stmt.ownCall?, Stmt.operands,
        Expr.calls]
  | .call .., _ => by
      simp [Stmt.calls, Stmt.terms, Stmt.nested, Stmt.Makes, Stmt.ownCall?, Stmt.operands,
        Expr.subterms, Expr.call?, Expr.calls_subtermsOf, eq_comm]
  | .give .., _ => by
      simp [Stmt.calls, Stmt.terms, Stmt.nested, Stmt.Makes, Stmt.ownCall?, Stmt.operands,
        Expr.calls_subtermsOf]

/-- The calls of a block are those that stand in its statements. -/
theorem Block.mem_calls_iff_makes {c : Call} : ∀ (b : Block) (d : Nat),
    c ∈ b.calls ↔ ∃ x ∈ b.nested d, x.2.Makes c
  | .mk _ _ _ stmts, d => by
      rw [Block.calls_mk, Block.nested]
      exact Stmt.mem_flatMap_calls_iff_makes stmts d

theorem Stmt.mem_flatMap_calls_iff_makes {c : Call} : ∀ (ss : List Stmt) (d : Nat),
    c ∈ ss.flatMap Stmt.calls ↔ ∃ x ∈ Stmt.nestedOf d ss, x.2.Makes c
  | [], _ => by simp [Stmt.nestedOf]
  | s :: ss, d => by
      simp only [List.flatMap_cons, Stmt.nestedOf, List.mem_append, s.mem_calls_iff_makes d,
        Stmt.mem_flatMap_calls_iff_makes ss d, or_and_right, exists_or]

end

namespace Block

/-- The calls of a block without those that its built-in statements are. -/
def writtenCalls (b : Block) : List Call := b.within.flatMap Stmt.writtenCalls

/-- Whether some statement in a block is one that a word, `print` or `swap`, introduces. -/
def holds (b : Block) (word : Name) : Bool := b.within.any (Stmt.isIntroducedBy word)

/-- A block calls what its written calls call, and the words of its built-in statements. -/
theorem calls_callee_iff {b : Block} {n : Name} :
    (∃ c ∈ b.calls, c.callee = n)
      ↔ (∃ c ∈ b.writtenCalls, c.callee = n) ∨ (n = "print" ∨ n = "swap") ∧ b.holds n = true := by
  have hmakes : ∀ c, c ∈ b.calls ↔ ∃ s ∈ b.within, s.Makes c := by
    intro c
    rw [b.mem_calls_iff_makes 0, within]
    simp only [List.mem_map, exists_exists_and_eq_and]
  have hholds : (n = "print" ∨ n = "swap") ∧ b.holds n = true
      ↔ ∃ s ∈ b.within, s.isBuiltin = true ∧ ∃ c, s.ownCall? = some c ∧ c.callee = n := by
    rw [holds, List.any_eq_true]
    simp only [Stmt.builtin_callee_iff]
    constructor
    · rintro ⟨hword, s, hs, h⟩
      exact ⟨s, hs, hword, h⟩
    · rintro ⟨s, hs, hword, h⟩
      exact ⟨hword, s, hs, h⟩
  rw [hholds]
  constructor
  · rintro ⟨c, hc, hname⟩
    obtain ⟨s, hs, hc⟩ := (hmakes c).mp hc
    rcases Stmt.makes_iff.mp hc with hc | ⟨hbuiltin, hc⟩
    · exact .inl ⟨c, List.mem_flatMap.mpr ⟨s, hs, hc⟩, hname⟩
    · exact .inr ⟨s, hs, hbuiltin, c, hc, hname⟩
  · rintro (⟨c, hc, hname⟩ | ⟨s, hs, hbuiltin, c, hc, hname⟩)
    · obtain ⟨s, hs, hc⟩ := List.mem_flatMap.mp hc
      exact ⟨c, (hmakes c).mpr ⟨s, hs, Stmt.makes_iff.mpr (.inl hc)⟩, hname⟩
    · exact ⟨c, (hmakes c).mpr ⟨s, hs, Stmt.makes_iff.mpr (.inr ⟨hbuiltin, hc⟩)⟩, hname⟩

end Block

namespace Program

variable {p : Program}

/-- A written call in the block names a declared procedure. -/
def WrittenFrom (p : Program) (b : Block) (n : Name) : Prop :=
  (∃ c ∈ b.writtenCalls, c.callee = n) ∧ p.declares n = true

/-- A procedure of the first name has a written call to the second name, which is declared. -/
def WrittenCalls (p : Program) (a b : Name) : Prop :=
  ∃ q ∈ p.procedures, q.name = a ∧ p.WrittenFrom q.body b

theorem calledFrom_iff_declares {b : Block} {n : Name} :
    p.CalledFrom b n ↔ (∃ c ∈ b.calls, c.callee = n) ∧ p.declares n = true := by
  rw [CalledFrom, CallGraph.declares_iff, CallGraph.ofProgram, List.mem_map]

/-- Where `print` is not declared, only `swap` can be called without a written call. -/
theorem calledFrom_iff_written (hprint : p.declares "print" = false) {b : Block} {n : Name} :
    p.CalledFrom b n ↔ p.WrittenFrom b n
      ∨ n = "swap" ∧ p.declares "swap" = true ∧ b.holds "swap" = true := by
  rw [calledFrom_iff_declares, Block.calls_callee_iff, WrittenFrom]
  constructor
  · rintro ⟨hc | ⟨rfl | rfl, hholds⟩, hdeclared⟩
    · exact .inl ⟨hc, hdeclared⟩
    · rw [hprint] at hdeclared
      cases hdeclared
    · exact .inr ⟨rfl, hdeclared, hholds⟩
  · rintro (⟨hc, hdeclared⟩ | ⟨rfl, hdeclared, hholds⟩)
    · exact ⟨.inl hc, hdeclared⟩
    · exact ⟨.inr ⟨.inr rfl, hholds⟩, hdeclared⟩

end Program

/-! ## Words in a source -/

namespace Token

theorem ofWord_of_piece {pos : Pos} {g : Glyph} {gs : List Glyph} {p : Piece} {kind : Kind}
    {text : Text} (hp : piece .standard pos g gs = .ok p) (h : p.token? = some (kind, text))
    (hkind : kind ∈ Kind.ident :: keywords.map Prod.snd) : Kind.ofWord text = kind := by
  obtain ⟨c, -, ⟨-, rfl⟩ | ⟨-, rfl⟩ | ⟨-, hstring⟩ | hsign⟩ := token_cases hp h
  · cases h
    rfl
  · rw [number_token] at h
    cases h
    exact absurd hkind (by decide)
  · obtain ⟨body, htoken⟩ := string_token hstring
    cases htoken.symm.trans h
    exact absurd hkind (by decide)
  · -- One sign is a word, the one for infinity.
    have hsigns : ∀ e ∈ singles.map Prod.snd ++ doubles.map Prod.snd,
        e.1 ∈ Kind.ident :: keywords.map Prod.snd → Kind.ofWord e.2 = e.1 := by decide
    exact hsigns _ hsign hkind

/-- The text of every word in a source is spelt as its kind says: an identifier is no keyword. -/
theorem ofWord_of_scan {source : Text} {tokens : List Token} (hscan : scan source = .ok tokens)
    {t : Token} (ht : t ∈ tokens) (hkind : t.kind ∈ Kind.ident :: keywords.map Prod.snd) :
    Kind.ofWord t.text = t.kind := by
  have heof : t.kind ≠ .eof := by
    intro h
    rw [h] at hkind
    exact absurd hkind (by decide)
  obtain ⟨pos, g, rest, p, -, hpiece, htoken⟩ := exists_piece_of_mem hscan ht heof
  exact ofWord_of_piece hpiece htoken hkind

end Token

/-- The name of a procedure is the text of an identifier or of the word `swap`. -/
theorem Procedure.Phrases.exists_name {kept ts : List Token} {procedures : List Procedure}
    (h : Procedure.Phrases kept ts procedures) :
    ∀ q ∈ procedures, ∃ t ∈ ts, (t.kind = .ident ∨ t.kind = .swapWord) ∧ t.text = q.name := by
  induction h with
  | nil => exact fun q hq => absurd hq List.not_mem_nil
  | cons hp _ ih =>
      intro q hq
      rcases List.mem_cons.mp hq with rfl | hq
      · cases hp with
        | mk _ hname _ _ _ _ => exact ⟨_, by simp, hname, rfl⟩
      · obtain ⟨t, ht, hname⟩ := ih q hq
        exact ⟨t, List.mem_append_right _ ht, hname⟩

theorem Program.Phrase.exists_name {kept ts : List Token} {stop : Token} {p : Program}
    (h : Program.Phrase kept ts stop p) :
    ∀ q ∈ p.procedures, ∃ t ∈ ts, (t.kind = .ident ∨ t.kind = .swapWord) ∧ t.text = q.name := by
  intro q hq
  cases h with
  | withMain _ hbefore _ _ hafter =>
      rcases List.mem_append.mp hq with hq | hq
      · obtain ⟨t, ht, hname⟩ := hbefore.exists_name q hq
        exact ⟨t, by simp [ht], hname⟩
      · obtain ⟨t, ht, hname⟩ := hafter.exists_name q hq
        exact ⟨t, by simp [ht], hname⟩
  | withoutMain _ hprocedures =>
      obtain ⟨t, ht, hname⟩ := hprocedures.exists_name q hq
      exact ⟨t, List.mem_append_right _ ht, hname⟩

/-- The first token of a statement tells whether `print` or `swap` introduces it, if identifiers
are no keywords. -/
theorem Stmt.Phrase.isIntroducedBy_iff {ts : List Token} {next : Token} {s : Stmt}
    (h : Phrase ts next s)
    (hwords : ∀ t ∈ ts, t.kind = .ident → Token.Kind.ofWord t.text = .ident) :
    ∃ t us, ts = t :: us
      ∧ (s.isIntroducedBy "print" = true ↔ t.kind = .printWord)
      ∧ (s.isIntroducedBy "swap" = true ↔ t.kind = .swapWord) := by
  cases h with
  | @call t us _ _ ht _ =>
      have hword := hwords t List.mem_cons_self ht
      have hprint : t.text ≠ "print" := fun h => absurd (h ▸ hword) (by decide)
      have hswap : t.text ≠ "swap" := fun h => absurd (h ▸ hword) (by decide)
      refine ⟨t, us, rfl, ?_, ?_⟩ <;> simp [isIntroducedBy, hprint, hswap, ht]
  | print ht =>
      exact ⟨_, _, rfl, iff_of_true rfl ht,
        iff_of_false (by rw [isIntroducedBy]; decide) (by rw [ht]; decide)⟩
  | swapCall ht | swapWith ht =>
      exact ⟨_, _, rfl,
        iff_of_false (by rw [isIntroducedBy]; decide) (by rw [ht]; decide), iff_of_true rfl ht⟩
  | forLoop ht | whileLoop ht | repeatLoop ht | ifThen ht | ifElse ht | assign ht
  | explicitCall ht | bareReturn ht | valueReturn ht =>
      refine ⟨_, _, rfl, ?_, ?_⟩ <;> simp [isIntroducedBy, ht]

/-! ## The graph of a source -/

namespace CallGraph

variable {source : Text} {tokens : List Token} {p : Program}

/-- No source declares `print`. -/
theorem declares_print_of_read (hscan : Token.scan source = .ok tokens)
    (hnames : ∀ q ∈ p.procedures, ∃ t ∈ tokens,
      (t.kind = .ident ∨ t.kind = .swapWord) ∧ t.text = q.name) : p.declares "print" = false := by
  rw [Bool.eq_false_iff, Ne, declares_iff, ofProgram, List.mem_map]
  rintro ⟨q, hq, hname⟩
  obtain ⟨t, ht, hkind, htext⟩ := hnames q hq
  have hword : Token.Kind.ofWord t.text = t.kind := by
    refine Token.ofWord_of_scan hscan ht ?_
    rcases hkind with hkind | hkind <;> rw [hkind] <;> decide
  have hprint : Token.Kind.ofWord t.text = .printWord := by
    rw [htext, hname]
    decide
  rcases hkind with hkind | hkind <;> rw [hword, hkind] at hprint <;> cases hprint

/-- Where `print` is not declared, the edges are the written calls, and those of `swap` statements
to a declared `swap`. -/
theorem edge_iff_written (hprint : p.declares "print" = false) {a b : Name} :
    (ofProgram p).Edge a b ↔ p.WrittenCalls a b
      ∨ b = "swap" ∧ p.declares "swap" = true
        ∧ ∃ q ∈ p.procedures, q.name = a ∧ q.body.holds "swap" = true := by
  rw [edge_ofProgram, Program.calls_iff, Program.WrittenCalls]
  simp only [Program.calledFrom_iff_written hprint]
  constructor
  · rintro ⟨q, hq, hname, hwritten | ⟨hb, hdeclared, hholds⟩⟩
    · exact .inl ⟨q, hq, hname, hwritten⟩
    · exact .inr ⟨hb, hdeclared, q, hq, hname, hholds⟩
  · rintro (⟨q, hq, hname, hwritten⟩ | ⟨hb, hdeclared, q, hq, hname, hholds⟩)
    · exact ⟨q, hq, hname, .inl hwritten⟩
    · exact ⟨q, hq, hname, .inr ⟨hb, hdeclared, hholds⟩⟩

theorem mem_mainCalls_iff_written (hprint : p.declares "print" = false) {n : Name} :
    n ∈ (ofProgram p).mainCalls ↔ ∃ b, p.main = some b ∧ (p.WrittenFrom b n
      ∨ n = "swap" ∧ p.declares "swap" = true ∧ b.holds "swap" = true) := by
  simp only [Program.mem_mainCalls_iff, Program.calledFrom_iff_written hprint]

/-- **Built-in statements and the graph.** In a source the first token of a statement tells whether
`print` or `swap` introduces it. No source declares `print`. The edges of its graph, and what its
main body calls, are those of the written calls, and besides, if `swap` is declared, one to `swap`
from where a statement is introduced by it. So if `swap` is not declared, no built-in statement
gives an edge, makes a procedure recursive, or adds to what the main body calls. -/
theorem edges_of_source (hscan : Token.scan source = .ok tokens)
    (hread : Program.ofTokens tokens = .ok p) :
    (∀ s ∈ p.blocks.flatMap Block.within, ∃ t us next,
      t :: us ⊆ tokens ∧ Stmt.Phrase (t :: us) next s
        ∧ (s.isIntroducedBy "print" = true ↔ t.kind = .printWord)
        ∧ (s.isIntroducedBy "swap" = true ↔ t.kind = .swapWord))
    ∧ p.declares "print" = false
    ∧ (∀ a b, (ofProgram p).Edge a b ↔ p.WrittenCalls a b
      ∨ b = "swap" ∧ p.declares "swap" = true
        ∧ ∃ q ∈ p.procedures, q.name = a ∧ q.body.holds "swap" = true)
    ∧ (∀ n, n ∈ (ofProgram p).mainCalls ↔ ∃ b, p.main = some b ∧ (p.WrittenFrom b n
      ∨ n = "swap" ∧ p.declares "swap" = true ∧ b.holds "swap" = true))
    ∧ (p.declares "swap" = false →
      (∀ a b, (ofProgram p).Edge a b ↔ p.WrittenCalls a b)
      ∧ (∀ n, (ofProgram p).isRecursive n = true ↔ TransGen p.WrittenCalls n n)
      ∧ ∀ n, n ∈ (ofProgram p).mainCalls ↔ ∃ b, p.main = some b ∧ p.WrittenFrom b n) := by
  obtain ⟨body, last, rfl, htiles⟩ :=
    Token.scanFrom_tilesFrom (Nat.le_refl _) (List.nil_append _).symm hscan
  obtain ⟨kept, hphrase, -⟩ :=
    Program.phrase_of_ofTokens htiles.body_kind htiles.last_kind hread
  have hprint : p.declares "print" = false := by
    refine declares_print_of_read hscan fun q hq => ?_
    obtain ⟨t, ht, hname⟩ := hphrase.exists_name q hq
    exact ⟨t, List.mem_append_left _ ht, hname⟩
  refine ⟨fun s hs => ?_, hprint, fun a b => edge_iff_written hprint,
    fun n => mem_mainCalls_iff_written hprint, fun hswap => ?_⟩
  · obtain ⟨us, next, hus, hs⟩ := hphrase.phraseIn s hs
    have hus : us ⊆ body ++ [last] := List.subset_append_of_subset_left _ hus
    have hwords : ∀ t ∈ us, t.kind = .ident → Token.Kind.ofWord t.text = .ident := by
      intro t ht hkind
      rw [Token.ofWord_of_scan hscan (hus ht) (hkind ▸ List.mem_cons_self), hkind]
    obtain ⟨t, us, rfl, hfirst⟩ := hs.isIntroducedBy_iff hwords
    exact ⟨t, us, next, hus, hs, hfirst⟩
  · have hedge : (ofProgram p).Edge = p.WrittenCalls := by
      funext a b
      rw [eq_iff_iff, edge_iff_written hprint, hswap]
      simp
    refine ⟨fun a b => by rw [hedge], fun n => ?_, fun n => ?_⟩
    · rw [isRecursive, reaches_iff (ofProgram_declared p), hedge]
    · rw [mem_mainCalls_iff_written hprint, hswap]
      simp

/-- A procedure `swap` that swaps two elements, and a main body that swaps two variables. -/
def swappingSource : Text :=
  "procedure Swap(A, i, j) swap A[i] with A[j] end begin swap x with y end"

/-- How many written calls a program has, and what its graph says of `swap`. -/
def viewOfSwap (p : Program) : Nat × List Name × List Name :=
  ((p.blocks.flatMap Block.writtenCalls).length, (ofProgram p).callees "swap",
    (ofProgram p).mainCalls)

/-- Nothing is called in the source, but in the graph `swap` calls itself, is recursive, and is
called by the main body. -/
theorem edges_of_swapping :
    ∃ tokens p, Token.scan swappingSource = .ok tokens ∧ Program.ofTokens tokens = .ok p
      ∧ p.blocks.flatMap Block.writtenCalls = []
      ∧ (ofProgram p).Edge "swap" "swap" ∧ (ofProgram p).isRecursive "swap" = true
      ∧ ("swap" : Name) ∈ (ofProgram p).mainCalls
      ∧ ∃ q ∈ p.procedures, q.name = "swap" ∧ q.body.holds "swap" = true := by
  obtain ⟨tokens, p, hscan, hread, hview⟩ := exists_program_of_view viewOfSwap
    (0, [("swap" : Name)], [("swap" : Name)]) swappingSource (by decide +kernel)
  obtain ⟨hwritten, hcallees, hmain⟩ : (p.blocks.flatMap Block.writtenCalls).length = 0
      ∧ (ofProgram p).callees "swap" = [("swap" : Name)]
      ∧ (ofProgram p).mainCalls = [("swap" : Name)] := by
    simpa only [viewOfSwap, Prod.mk.injEq] using hview
  have hnone : p.blocks.flatMap Block.writtenCalls = [] := List.eq_nil_of_length_eq_zero hwritten
  have hedge : (ofProgram p).Edge "swap" "swap" := by
    rw [Edge, hcallees]
    exact List.mem_singleton_self _
  obtain ⟨-, -, hedges, -⟩ := edges_of_source hscan hread
  refine ⟨tokens, p, hscan, hread, hnone, hedge, ?_, ?_, ?_⟩
  · rw [isRecursive, reaches_iff (ofProgram_declared p)]
    exact .single hedge
  · rw [hmain]
    exact List.mem_singleton_self _
  · rcases (hedges _ _).mp hedge with ⟨q, hq, -, ⟨c, hc, -⟩, -⟩ | ⟨-, -, hholds⟩
    · have hblock : q.body ∈ p.blocks := List.mem_append_left _ (List.mem_map_of_mem hq)
      have hmem : c ∈ p.blocks.flatMap Block.writtenCalls := List.mem_flatMap.mpr ⟨_, hblock, hc⟩
      rw [hnone] at hmem
      cases hmem
    · exact hholds

end CallGraph

end PseudoCost
