import PseudoCost.Proofs.Folding
import PseudoCost.Proofs.SourceErrors
import PseudoCost.Proofs.TokenCounts

/-!
# What controls a loop

The variable and the bound of a `while` or `repeat` loop are found by a walk over its condition that
changes both on its way. What the walk finds is said here without it. The *clauses* of a condition
are what stands below its signs and connectives, in reading order. The first clause that compares a
bare name gives variable and bound; without one there is no bound, and the first clause that is a
bare name gives the variable (`Control.Leads`).

The walk takes an empty name for no name at all. So what it finds is right if no bare name among the
clauses is empty (`ofCondition_leads`), and that is so for all conditions in a source: an identifier
token has a text (`text_ne_nil_of_scan`), and every loop of a program that is read is written down
by a phrase among the tokens (`Stmt.Phrase.phraseIn`).
-/

namespace PseudoCost

/-! ## Clauses -/

namespace Expr

/-- What stands below the signs and connectives of a condition, in reading order. -/
def clauses : Expr → List Expr
  | .unary _ _ operand => operand.clauses
  | .binary pos op lhs rhs =>
    if op = .and ∨ op = .or then lhs.clauses ++ rhs.clauses else [.binary pos op lhs rhs]
  | e => [e]

/-- The bare names among the clauses. -/
def flags (e : Expr) : List Name := e.clauses.filterMap name?

/-- The clause compares the bare name `n` with `other`. If both sides are names, the left one is
compared with the right one. -/
inductive Compares : Expr → Name → Expr → Prop
  | left {pos op npos n other} : op.isRelational = true →
      Compares (.binary pos op (.name npos n) other) n other
  | right {pos op npos n other} : op.isRelational = true → other.name? = none →
      Compares (.binary pos op other (.name npos n)) n other

/-- The control that a clause gives as a comparison with a bare name. -/
def comparison? : Expr → Option Control
  | .binary _ op lhs rhs =>
    if op.isRelational then
      match lhs.name?, rhs.name? with
      | some n, _ => some ⟨n, some rhs⟩
      | none, some n => some ⟨n, some lhs⟩
      | none, none => none
    else none
  | _ => none

theorem exists_name_of_name? {e : Expr} {n : Name} (h : e.name? = some n) :
    ∃ pos, e = .name pos n := by
  cases e <;> cases h
  exact ⟨_, rfl⟩

theorem comparison?_eq_some_iff {e : Expr} {c : Control} :
    e.comparison? = some c ↔ ∃ n other, e.Compares n other ∧ c = ⟨n, some other⟩ := by
  constructor
  · intro h
    cases e with
    | binary pos op lhs rhs =>
        rw [comparison?] at h
        split at h
        case isFalse => cases h
        case isTrue hop =>
          split at h
          next n hn =>
            obtain ⟨npos, rfl⟩ := exists_name_of_name? hn
            cases h
            exact ⟨n, rhs, .left hop, rfl⟩
          next n hl hn =>
            obtain ⟨npos, rfl⟩ := exists_name_of_name? hn
            cases h
            exact ⟨n, lhs, .right hop hl, rfl⟩
          next => cases h
    | _ => cases h
  · rintro ⟨n, other, h, rfl⟩
    cases h with
    | left hop => rw [comparison?, if_pos hop]; rfl
    | right hop hother => rw [comparison?, if_pos hop, hother]; rfl

theorem comparison?_eq_none_iff {e : Expr} :
    e.comparison? = none ↔ ∀ n other, ¬e.Compares n other := by
  rw [Option.eq_none_iff_forall_ne_some]
  constructor
  · intro h n other hcompares
    exact h _ (comparison?_eq_some_iff.mpr ⟨n, other, hcompares, rfl⟩)
  · intro h c hc
    obtain ⟨n, other, hcompares, -⟩ := comparison?_eq_some_iff.mp hc
    exact h n other hcompares

end Expr

/-! ## The walk -/

namespace Control

/-- What has to hold of the control of a loop with the given condition. -/
structure Leads (cond : Expr) (c : Control) : Prop where
  /-- There is a bound exactly if some clause compares a name. -/
  bound_isSome : c.bound.isSome = true ↔ ∃ e ∈ cond.clauses, ∃ n other, e.Compares n other
  /-- The first such clause gives variable and bound. -/
  comparison : ∀ {before e after n other}, cond.clauses = before ++ e :: after →
    (∀ d ∈ before, ∀ m o, ¬d.Compares m o) → e.Compares n other → c = ⟨n, some other⟩
  /-- Without one, the first clause that is a name gives the variable. -/
  flag : (∀ e ∈ cond.clauses, ∀ n other, ¬e.Compares n other) → c = ⟨cond.flags.headD [], none⟩

/-- A name takes the place of an empty one. -/
def fill (v n : Name) : Name := if v.isEmpty then n else v

theorem isSome_bound_of_comparison {es : List Expr} {c : Control}
    (h : es.findSome? Expr.comparison? = some c) : c.bound.isSome = true := by
  obtain ⟨e, -, he⟩ := List.exists_of_findSome?_eq_some h
  obtain ⟨n, other, -, rfl⟩ := Expr.comparison?_eq_some_iff.mp he
  rfl

/-- As long as there is no bound, the walk over a condition looks for the first comparison among the
clauses, and fills in the bare names it meets. -/
theorem extend_eq : ∀ (cond : Expr) (c : Control), c.bound = none →
    c.extend cond = (cond.clauses.findSome? Expr.comparison?).getD
      ⟨cond.flags.foldl fill c.variableName, none⟩
  | .unary _ _ operand, c, hc => by
      rw [extend, extend_eq operand c hc]
      rfl
  | .binary pos op lhs rhs, c, hc => by
      rw [extend, Expr.flags, Expr.clauses]
      split
      · rw [List.findSome?_append, List.filterMap_append, List.foldl_append]
        dsimp only
        rw [extend_eq lhs c hc]
        cases hleft : lhs.clauses.findSome? Expr.comparison? with
        | some d =>
            have hbound : d.bound.isNone = false := by
              rw [← Option.not_isSome, isSome_bound_of_comparison hleft]
              rfl
            simp [hbound]
        | none =>
            -- Nothing was compared on the left, so the walk goes on with the names met there.
            simp only [Option.getD_none, Option.isNone_none, if_true, Option.none_or]
            exact extend_eq rhs ⟨_, none⟩ rfl
      · have hflags : [Expr.binary pos op lhs rhs].filterMap Expr.name? = [] := rfl
        have hkept : (⟨c.variableName, none⟩ : Control) = c := by rw [← hc]
        rw [hflags, List.foldl_nil, hkept, List.findSome?_singleton, Expr.comparison?, hc]
        cases op.isRelational with
        | false => rfl
        | true => cases lhs.name? <;> cases rhs.name? <;> rfl
  | .name _ n, ⟨v, _⟩, hc => by
      cases hc
      rw [extend]
      cases hv : v.isEmpty <;>
        simp [Expr.flags, Expr.clauses, Expr.comparison?, Expr.name?, fill, hv]
  | .number .., ⟨_, _⟩, hc | .string .., ⟨_, _⟩, hc | .bool .., ⟨_, _⟩, hc | .null _, ⟨_, _⟩, hc
  | .call .., ⟨_, _⟩, hc | .index .., ⟨_, _⟩, hc | .field .., ⟨_, _⟩, hc
  | .range .., ⟨_, _⟩, hc => by
      cases hc
      rfl

theorem foldl_fill {v : Name} (hv : v ≠ []) (ns : List Name) : ns.foldl fill v = v := by
  induction ns with
  | nil => rfl
  | cons n ns ih =>
      have hfill : fill v n = v := if_neg (by simpa using hv)
      rw [List.foldl_cons, hfill, ih]

/-- The first of some names stays, if it is not empty. -/
theorem foldl_fill_nil {ns : List Name} (hns : [] ∉ ns) : ns.foldl fill [] = ns.headD [] := by
  cases ns with
  | nil => rfl
  | cons n ns =>
      have hn : n ≠ [] := fun h => hns (h ▸ List.mem_cons_self)
      exact foldl_fill hn ns

/-- The control that is found for a condition is the right one, unless an empty name stands among
its clauses. -/
theorem ofCondition_leads {cond : Expr} (h : [] ∉ cond.flags) : (ofCondition cond).Leads cond := by
  have hwalk : ofCondition cond = (cond.clauses.findSome? Expr.comparison?).getD
      ⟨cond.flags.headD [], none⟩ := by
    rw [ofCondition, extend_eq cond {} rfl, foldl_fill_nil h]
  refine ⟨?_, ?_, ?_⟩
  · rw [hwalk]
    cases hfind : cond.clauses.findSome? Expr.comparison? with
    | some c =>
        obtain ⟨e, he, hc⟩ := List.exists_of_findSome?_eq_some hfind
        obtain ⟨n, other, hcompares, -⟩ := Expr.comparison?_eq_some_iff.mp hc
        exact iff_of_true (isSome_bound_of_comparison hfind) ⟨e, he, n, other, hcompares⟩
    | none =>
        rw [List.findSome?_eq_none_iff] at hfind
        refine iff_of_false Bool.false_ne_true ?_
        rintro ⟨e, he, n, other, hcompares⟩
        exact Expr.comparison?_eq_none_iff.mp (hfind e he) n other hcompares
  · intro before e after n other hclauses hbefore hcompares
    have hnone : before.findSome? Expr.comparison? = none := by
      rw [List.findSome?_eq_none_iff]
      exact fun d hd => Expr.comparison?_eq_none_iff.mpr (hbefore d hd)
    have hsome := Expr.comparison?_eq_some_iff.mpr ⟨n, other, hcompares, rfl⟩
    rw [hwalk, hclauses, List.findSome?_append, hnone, Option.none_or, List.findSome?_cons, hsome]
    rfl
  · intro hnever
    have hnone : cond.clauses.findSome? Expr.comparison? = none := by
      rw [List.findSome?_eq_none_iff]
      exact fun e he => Expr.comparison?_eq_none_iff.mpr (hnever e he)
    rw [hwalk, hnone]
    rfl

end Control

/-! ## Identifiers have a text -/

namespace Token

theorem foldText_ne_nil {g : Glyph} {gs : List Glyph} {c : Char} (hchar : g.char? = some c)
    (hc : Letter.isStart c = true) : foldText .standard (g :: gs) ≠ [] := by
  have hfold : Letter.fold c ≠ [] := by
    intro hnil
    have hstart := Letter.start_of_fold hc
    rw [hnil] at hstart
    cases hstart
  obtain ⟨d, ds, hd⟩ := List.exists_cons_of_ne_nil hfold
  have hencoded : String.utf8EncodeChar d ≠ [] := by
    rw [← List.length_pos_iff, String.length_utf8EncodeChar]
    exact d.utf8Size_pos
  have hlead : foldText .standard (g :: gs)
      = (Letter.fold c).flatMap String.utf8EncodeChar ++ foldText .standard gs := by
    simp only [foldText, List.flatMap_cons, hchar]
    rfl
  rw [hlead, hd, List.flatMap_cons]
  simp [hencoded]

theorem text_ne_nil_of_piece {pos : Pos} {g : Glyph} {gs : List Glyph} {p : Piece} {text : Text}
    (hp : piece .standard pos g gs = .ok p) (h : p.token? = some (.ident, text)) : text ≠ [] := by
  obtain ⟨c, hchar, ⟨hstart, rfl⟩ | ⟨-, rfl⟩ | ⟨-, hstring⟩ | hsign⟩ := token_cases hp h
  · have hpart : g.holds Letter.isPart = true := by
      rw [Glyph.holds, hchar]
      exact Alphabet.standard.isPart_of_isStart c hstart
    have htaken : (g :: gs).takeWhile (Glyph.holds Letter.isPart)
        = g :: gs.takeWhile (Glyph.holds Letter.isPart) := List.takeWhile_cons_of_pos hpart
    have htext := congrArg Prod.snd (Option.some.inj h)
    rw [← show foldText .standard ((g :: gs).takeWhile (Glyph.holds Letter.isPart)) = text
      from htext, htaken]
    exact foldText_ne_nil hchar hstart
  · rw [number_token] at h
    cases h
  · obtain ⟨body, htoken⟩ := string_token hstring
    cases htoken.symm.trans h
  · have hsigns : ∀ e ∈ singles.map Prod.snd ++ doubles.map Prod.snd, e.2 ≠ [] := by decide
    exact hsigns _ hsign

/-- Every identifier in a source has a text. -/
theorem text_ne_nil_of_scan {source : Text} {tokens : List Token} (hscan : scan source = .ok tokens)
    {t : Token} (ht : t ∈ tokens) (hkind : t.kind = .ident) : t.text ≠ [] := by
  obtain ⟨pos, g, rest, p, -, hpiece, htoken⟩ :=
    exists_piece_of_mem hscan ht (by rw [hkind]; decide)
  rw [hkind] at htoken
  exact text_ne_nil_of_piece hpiece htoken

end Token

/-! ## Loops in a program -/

namespace Expr

theorem mem_flags_binary {pos : Pos} {op : BinaryOp} {lhs rhs : Expr} {n : Name}
    (h : n ∈ (Expr.binary pos op lhs rhs).flags) : n ∈ lhs.flags ∨ n ∈ rhs.flags := by
  rw [flags, clauses] at h
  split at h
  · rw [List.filterMap_append, List.mem_append] at h
    exact h
  · cases h

theorem flags_foldl_index {subscripts : List Expr} (h : subscripts ≠ []) (pos : Pos) (base : Expr) :
    (subscripts.foldl (fun b i => .index pos b i) base).flags = [] := by
  obtain rfl | ⟨es, e, rfl⟩ := List.eq_nil_or_concat subscripts
  · exact absurd rfl h
  · rw [List.concat_eq_append, List.foldl_append]
    rfl

theorem Items.subscripts_ne_nil {ts : List Token} {es : List Expr} (h : Items ts es) : es ≠ [] := by
  cases h <;> exact List.cons_ne_nil _ _

/-- A bare name among the clauses is the text of an identifier. -/
theorem Phrase.exists_ident : ∀ {k : Nat} {ts : List Token} {e : Expr}, Phrase k ts e →
    ∀ n ∈ e.flags, ∃ t ∈ ts, t.kind = .ident ∧ t.text = n
  | _, _, _, .looser h, n, hn => h.exists_ident n hn
  | _, _, _, .binary _ hlhs _ hrhs, n, hn => by
      rcases mem_flags_binary hn with hn | hn
      · obtain ⟨t, ht, hident⟩ := hlhs.exists_ident n hn
        exact ⟨t, List.mem_append_left _ ht, hident⟩
      · obtain ⟨t, ht, hident⟩ := hrhs.exists_ident n hn
        exact ⟨t, List.mem_append_right _ (List.mem_cons_of_mem _ ht), hident⟩
  | _, _, _, .power _ _ _, n, hn => by cases hn
  | _, _, _, .sign _ hoperand, n, hn => by
      obtain ⟨t, ht, hident⟩ := hoperand.exists_ident n hn
      exact ⟨t, List.mem_cons_of_mem _ ht, hident⟩
  | _, _, _, .index _ _ hitems _, n, hn => by
      rw [flags_foldl_index hitems.subscripts_ne_nil] at hn
      cases hn
  | _, _, _, .name ht, n, hn => by
      cases List.mem_singleton.mp hn
      exact ⟨_, List.mem_singleton_self _, ht, rfl⟩
  | _, _, _, .parens _ h _, n, hn | _, _, _, .ceil _ h _, n, hn | _, _, _, .floor _ h _, n, hn => by
      obtain ⟨t, ht, hident⟩ := h.exists_ident n hn
      exact ⟨t, List.mem_cons_of_mem _ (List.mem_append_left _ ht), hident⟩
  | _, _, _, .range _ _ _, _, hn | _, _, _, .field _ _ _, _, hn | _, _, _, .number _ _, _, hn
  | _, _, _, .string _, _, hn | _, _, _, .trueWord _, _, hn | _, _, _, .falseWord _, _, hn
  | _, _, _, .null _, _, hn | _, _, _, .call _ _, _, hn | _, _, _, .length _ _, _, hn
  | _, _, _, .explicitCall _ _ _, _, hn | _, _, _, .bareCall _ _, _, hn => by cases hn

end Expr

namespace Stmt

/-- Some of the tokens write the statement down. -/
def PhraseIn (ts : List Token) (s : Stmt) : Prop := ∃ us next, us ⊆ ts ∧ Phrase us next s

theorem PhraseIn.mono {us ts : List Token} {s : Stmt} (h : PhraseIn us s) (hsub : us ⊆ ts) :
    PhraseIn ts s := by
  obtain ⟨vs, next, hvs, hs⟩ := h
  exact ⟨vs, next, List.Subset.trans hvs hsub, hs⟩

mutual

/-- Every statement inside a statement is written down by some of its tokens. -/
theorem Phrase.phraseIn : ∀ {ts : List Token} {next : Token} {s : Stmt}, Phrase ts next s →
    ∀ (d : Nat), ∀ x ∈ s.nested d, x.2 = s ∨ PhraseIn ts x.2
  | _, _, _, .forLoop _ _ _ _ _ _ _ _ hbody, d, x, hx
  | _, _, _, .whileLoop _ _ _ hbody, d, x, hx => by
      rw [nested] at hx
      rcases List.mem_cons.mp hx with rfl | hx
      · exact .inl rfl
      · exact .inr ((hbody.phraseIn d x hx).mono fun t ht => by simp [ht])
  | _, _, _, .repeatLoop _ hstmts _ _, d, x, hx => by
      rw [nested] at hx
      rcases List.mem_cons.mp hx with rfl | hx
      · exact .inl rfl
      · exact .inr ((hstmts.phraseIn d x hx).mono fun t ht => by simp [ht])
  | _, _, _, .ifThen _ _ _ hthen _, d, x, hx => by
      rw [nested] at hx
      rcases List.mem_cons.mp hx with rfl | hx
      · exact .inl rfl
      · exact .inr ((hthen.phraseIn (d + 1) x hx).mono fun t ht => by simp [ht])
  | _, _, _, .ifElse _ _ _ hthen _ helse _, d, x, hx => by
      rw [nested] at hx
      rcases List.mem_cons.mp hx with rfl | hx
      · exact .inl rfl
      rcases List.mem_append.mp hx with hx | hx
      · exact .inr ((hthen.phraseIn (d + 1) x hx).mono fun t ht => by simp [ht])
      · exact .inr ((helse.phraseIn (d + 1) x hx).mono fun t ht => by simp [ht])
  | _, _, _, .assign _ _ _ _, _, x, hx | _, _, _, .call _ _, _, x, hx
  | _, _, _, .explicitCall _ _ _, _, x, hx | _, _, _, .print _ _, _, x, hx
  | _, _, _, .swapCall _ _, _, x, hx | _, _, _, .swapWith _ _ _ _, _, x, hx
  | _, _, _, .bareReturn _, _, x, hx | _, _, _, .valueReturn _ _, _, x, hx => by
      rw [nested, List.mem_singleton] at hx
      exact .inl (congrArg Prod.snd hx)

theorem Phrases.phraseIn : ∀ {ts : List Token} {next : Token} {ss : List Stmt}, Phrases ts next ss →
    ∀ (d : Nat), ∀ x ∈ nestedOf d ss, PhraseIn ts x.2
  | _, _, _, .nil, _, x, hx => by cases hx
  | _, _, _, .semicolon _ h, d, x, hx => (h.phraseIn d x hx).mono (List.subset_cons_self _ _)
  | _, _, _, @Phrases.cons us _ _ _ _ hs hss, d, x, hx => by
      rw [nestedOf] at hx
      rcases List.mem_append.mp hx with hx | hx
      · have hpart : PhraseIn us x.2 := by
          rcases hs.phraseIn d x hx with hself | hpart
          · exact ⟨us, _, List.Subset.refl us, hself ▸ hs⟩
          · exact hpart
        exact hpart.mono (List.subset_append_left _ _)
      · exact (hss.phraseIn d x hx).mono (List.subset_append_right _ _)
  | _, _, _, .group hb hss, d, x, hx => by
      rw [nestedOf_append] at hx
      rcases List.mem_append.mp hx with hx | hx
      · exact (hb.phraseIn d x hx).mono (List.subset_append_left _ _)
      · exact (hss.phraseIn d x hx).mono (List.subset_append_right _ _)

theorem GroupPhrase.phraseIn : ∀ {ts : List Token} {b : Block}, GroupPhrase ts b →
    ∀ (d : Nat), ∀ x ∈ nestedOf d b.stmts, PhraseIn ts x.2
  | _, _, .mk _ hstmts _, d, x, hx => (hstmts.phraseIn d x hx).mono fun t ht => by simp [ht]

theorem BodyPhrase.phraseIn : ∀ {ts : List Token} {b : Block}, BodyPhrase ts b →
    ∀ (d : Nat), ∀ x ∈ b.nested d, PhraseIn ts x.2
  | _, .mk .., .group hb, d, x, hx => hb.phraseIn d x hx
  | _, _, .bare hstmts _, d, x, hx => (hstmts.phraseIn d x hx).mono (List.subset_append_left _ _)

theorem BranchPhrase.phraseIn :
    ∀ {opener : Token} {ts : List Token} {next : Token} {b : Block} {complete : Bool},
      BranchPhrase opener ts next b complete → ∀ (d : Nat), ∀ x ∈ b.nested d, PhraseIn ts x.2
  | _, _, _, .mk .., _, .group hb, d, x, hx => hb.phraseIn d x hx
  | _, _, _, _, _, @BranchPhrase.single _ us _ _ hs, d, x, hx => by
      rw [Block.nested, nestedOf, nestedOf, List.append_nil] at hx
      rcases hs.phraseIn d x hx with hself | hpart
      · exact ⟨us, _, List.Subset.refl us, hself ▸ hs⟩
      · exact hpart
  | _, _, _, _, _, .unclosed hstmts, d, x, hx => hstmts.phraseIn d x hx

end

end Stmt

theorem Procedure.Phrases.phraseIn {kept ts : List Token} {procedures : List Procedure}
    (h : Procedure.Phrases kept ts procedures) :
    ∀ q ∈ procedures, ∀ s ∈ q.body.within, Stmt.PhraseIn ts s := by
  induction h with
  | nil => exact fun q hq => absurd hq List.not_mem_nil
  | cons hp _ ih =>
      intro q hq s hs
      rcases List.mem_cons.mp hq with rfl | hq
      · cases hp with
        | mk _ _ _ _ _ hbody =>
            obtain ⟨x, hx, rfl⟩ := List.mem_map.mp hs
            exact (hbody.phraseIn 0 x hx).mono fun t ht => by simp [ht]
      · exact (ih q hq s hs).mono (List.subset_append_right _ _)

/-- Every statement of a program is written down by some of its tokens. -/
theorem Program.Phrase.phraseIn {kept ts : List Token} {stop : Token} {p : Program}
    (h : Program.Phrase kept ts stop p) :
    ∀ s ∈ p.blocks.flatMap Block.within, Stmt.PhraseIn ts s := by
  intro s hmem
  obtain ⟨b, hb, hs⟩ := List.mem_flatMap.mp hmem
  cases h with
  | @withMain ss _ us _ bs main gs _ vs _ _ _ hbefore hmain _ hafter =>
      rcases List.mem_append.mp hb with hb | hb
      · obtain ⟨q, hq, rfl⟩ := List.mem_map.mp hb
        rcases List.mem_append.mp hq with hq | hq
        · exact (hbefore.phraseIn q hq s hs).mono fun t ht => by simp [ht]
        · exact (hafter.phraseIn q hq s hs).mono fun t ht => by simp [ht]
      · have hb : b = main := by simpa using hb
        obtain ⟨x, hx, rfl⟩ := List.mem_map.mp hs
        rw [hb] at hx
        exact ((Stmt.BodyPhrase.group hmain).phraseIn 0 x hx).mono fun t ht => by simp [ht]
  | withoutMain _ hprocedures =>
      rw [Program.blocks, Option.toList_none, List.append_nil] at hb
      obtain ⟨q, hq, rfl⟩ := List.mem_map.mp hb
      exact (hprocedures.phraseIn q hq s hs).mono (List.subset_append_right _ _)

/-- The control and the condition of a `while` or `repeat` loop. -/
def Stmt.condition? : Stmt → Option (Control × Expr)
  | .whileLoop _ control cond _ => some (control, cond)
  | .repeatLoop _ control _ cond => some (control, cond)
  | _ => none

/-- The control of a loop is found in its condition, which stands among the tokens. -/
theorem Stmt.PhraseIn.condition {ts : List Token} {s : Stmt} (h : s.PhraseIn ts) {control : Control}
    {cond : Expr} (hs : s.condition? = some (control, cond)) :
    control = Control.ofCondition cond ∧ ∃ us ⊆ ts, Expr.Phrase 0 us cond := by
  obtain ⟨us, next, hus, hphrase⟩ := h
  cases hphrase with
  | whileLoop _ hcond _ _ =>
      cases hs
      exact ⟨rfl, _, fun t ht => hus (by simp [ht]), hcond⟩
  | repeatLoop _ _ _ hcond =>
      cases hs
      exact ⟨rfl, _, fun t ht => hus (by simp [ht]), hcond⟩
  | _ => cases hs

/-- **The first comparison controls a loop.** For a condition none of whose bare names is empty, the
control that is found is the one that its clauses lead to. In a source all conditions are such, and
every `while` and `repeat` loop of the program, however deep it stands, has the control that its
condition leads to. -/
theorem Control.leads_of_read :
    (∀ cond : Expr, [] ∉ cond.flags → (Control.ofCondition cond).Leads cond)
    ∧ ∀ (source : Text) (tokens : List Token) (p : Program),
        Token.scan source = .ok tokens → Program.ofTokens tokens = .ok p →
        ∀ s ∈ p.blocks.flatMap Block.within, ∀ control cond,
          s.condition? = some (control, cond) → [] ∉ cond.flags ∧ control.Leads cond := by
  refine ⟨fun cond h => ofCondition_leads h, ?_⟩
  intro source tokens p hscan hread s hs control cond hcond
  obtain ⟨body, last, rfl, htiles⟩ :=
    Token.scanFrom_tilesFrom (Nat.le_refl _) (List.nil_append _).symm hscan
  obtain ⟨kept, hphrase, -⟩ :=
    Program.phrase_of_ofTokens htiles.body_kind htiles.last_kind hread
  obtain ⟨rfl, us, hus, hus'⟩ := (hphrase.phraseIn s hs).condition hcond
  have hflags : [] ∉ cond.flags := by
    intro hnil
    obtain ⟨t, ht, hkind, htext⟩ := hus'.exists_ident _ hnil
    exact Token.text_ne_nil_of_scan hscan (List.mem_append_left _ (hus ht)) hkind htext
  exact ⟨hflags, ofCondition_leads hflags⟩

/-- The condition `not done and 0 < i or j < n`. -/
def guardedCondition : Expr :=
  .binary ⟨1, 20⟩ .or
    (.binary ⟨1, 10⟩ .and (.unary ⟨1, 1⟩ .not (.name ⟨1, 5⟩ "done"))
      (.binary ⟨1, 16⟩ .lt (.number ⟨1, 14⟩ (.finite false 0 1)) (.name ⟨1, 18⟩ "i")))
    (.binary ⟨1, 25⟩ .lt (.name ⟨1, 23⟩ "j") (.name ⟨1, 27⟩ "n"))

/-- A program with a loop under that condition. -/
def guardedSource : Text := "begin while not done and 0 < i or j < n do x <- 1 end end"

/-- The variables of the loops in a program. -/
def Program.loopVariables (p : Program) : List Name :=
  (p.blocks.flatMap Block.within).filterMap fun s => s.condition?.map fun c => c.1.variableName

/-- A flag in front of the first comparison and a comparison behind it do not count. -/
theorem leads_guarded :
    Control.ofCondition guardedCondition
      = ⟨"i", some (.number ⟨1, 14⟩ (.finite false 0 1))⟩
    ∧ ∃ tokens p, Token.scan guardedSource = .ok tokens ∧ Program.ofTokens tokens = .ok p
      ∧ ∃ s ∈ p.blocks.flatMap Block.within, ∃ control cond,
        s.condition? = some (control, cond) ∧ control.variableName = "i" ∧ control.Leads cond := by
  obtain ⟨hconditions, hloops⟩ := Control.leads_of_read
  constructor
  · refine (hconditions guardedCondition (by decide)).comparison
      (rfl : _ = [Expr.name ⟨1, 5⟩ "done"] ++ _ :: [_]) ?_ (.right rfl rfl)
    intro d hd m o hcompares
    cases List.mem_singleton.mp hd
    cases hcompares
  · have hvariables : (Token.scan guardedSource).toOption.map (fun tokens =>
        (Program.ofTokens tokens).toOption.map Program.loopVariables)
          = some (some [("i" : Name)]) := by
      decide +kernel
    cases hscan : Token.scan guardedSource with
    | error e =>
        rw [hscan] at hvariables
        cases hvariables
    | ok tokens =>
        rw [hscan] at hvariables
        cases hread : Program.ofTokens tokens with
        | error e =>
            rw [Except.toOption, Option.map_some, hread] at hvariables
            cases hvariables
        | ok p =>
            rw [Except.toOption, Option.map_some, hread] at hvariables
            have hvariables : p.loopVariables = [("i" : Name)] :=
              Option.some.inj (Option.some.inj hvariables)
            have hmem : ("i" : Name) ∈ p.loopVariables := by
              rw [hvariables]
              exact List.mem_singleton_self _
            obtain ⟨s, hs, hvariable⟩ := List.mem_filterMap.mp hmem
            obtain ⟨⟨control, cond⟩, hcond, hname⟩ := Option.map_eq_some_iff.mp hvariable
            exact ⟨tokens, p, rfl, hread, s, hs, control, cond, hcond, hname,
              (hloops _ tokens p hscan hread s hs control cond hcond).2⟩

end PseudoCost
