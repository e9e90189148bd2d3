import PseudoCost.Proofs.ExprGrammar
import PseudoCost.Proofs.NumberText

/-!
# The tokens of printed expressions

The text of an expression is written without most of the spaces, so each token has to end where the
next one begins. `Cuts next t P` says that a text is cut into tokens with the property `P`, whatever
comes next of what may; two such texts can be put together if what the second one starts with may
come after the first one (`Cuts.append`).

After the text of an expression a space may come, a bracket, a comma, or a point that is not taken
for a part of a number (`Breaks`). The tokens of this text are then those the printer had in mind
(`Expr.Printed`), with one exception: a number in the scientific layout falls apart.

Names, strings and numbers come from tokens that were cut from a source, and that is what makes
their texts words of the dialect (`Expr.Legible`).
-/

namespace PseudoCost

open PseudoCost.Composition (Settled)

namespace Token

/-! ## Texts of tokens -/

/-- The text is one that a reader can give to a token of the kind, as far as it depends on it. -/
def Kind.Legible : Kind → Text → Prop
  | .number, text => Text.Decimal text
  | .string, text => ∃ body : List Char,
      (∀ c ∈ body, Settled c ∧ inString (.ofChar c) = true) ∧ Text.ofChars body = text
  | .ident, text => FoldedWord text ∧ Kind.ofWord text = .ident
  | .lengthWord, text => FoldedWord text ∧ Kind.ofWord text = .lengthWord
  | .swapWord, text => FoldedWord text ∧ Kind.ofWord text = .swapWord
  | _, _ => True

theorem legible_ofWord {text : Text} (h : FoldedWord text) : (Kind.ofWord text).Legible text := by
  have hnumber : Kind.ofWord text ≠ .number := Kind.ofWord_ne (by decide) (by decide) text
  have hstring : Kind.ofWord text ≠ .string := Kind.ofWord_ne (by decide) (by decide) text
  cases hkind : Kind.ofWord text with
  | number => exact absurd hkind hnumber
  | string => exact absurd hkind hstring
  | ident | lengthWord | swapWord => exact ⟨h, hkind⟩
  | _ => trivial

theorem word_of_legible {k : Kind} {text : Text}
    (hk : k ∈ [Kind.ident, .lengthWord, .swapWord]) (h : k.Legible text) :
    FoldedWord text ∧ Kind.ofWord text = k := by
  simp only [List.mem_cons, List.not_mem_nil, or_false] at hk
  rcases hk with rfl | rfl | rfl <;> exact h

theorem encode_of_isDigit {c : Char} (hc : c.isDigit = true) :
    ∃ b, String.utf8EncodeChar c = [b] ∧ Text.isDigit b = true := by
  have hall : ∀ n < 58, 48 ≤ n → String.utf8EncodeChar (Char.ofNat n) = [UInt8.ofNat n]
      ∧ Text.isDigit (UInt8.ofNat n) = true := by decide
  have hrange : 48 ≤ c.toNat ∧ c.toNat ≤ 57 := by
    simpa [Char.isDigit, UInt32.le_iff_toNat_le] using hc
  have hdigit := hall c.toNat (by omega) hrange.1
  rw [Char.ofNat_toNat] at hdigit
  exact ⟨_, hdigit⟩

theorem digits_of_glyphs {gs : List Glyph} (hgs : ∀ g ∈ gs, isDigit g = true) (hne : gs ≠ [])
    (hwritten : ∀ g ∈ gs, Written g) : Text.Digits (Glyph.text gs) := by
  have hbytes : ∀ g ∈ gs, ∃ b, g.bytes = [b] ∧ Text.isDigit b = true := by
    intro g hg
    obtain ⟨c, -, rfl⟩ := hwritten g hg
    exact encode_of_isDigit (hgs _ hg)
  constructor
  · obtain ⟨g, gs, rfl⟩ := List.exists_cons_of_ne_nil hne
    obtain ⟨b, hb, -⟩ := hbytes g List.mem_cons_self
    rw [Glyph.text, List.flatMap_cons, hb]
    exact List.cons_ne_nil b _
  · intro b hb
    obtain ⟨g, hg, hb⟩ := List.mem_flatMap.mp hb
    obtain ⟨d, hd, hdigit⟩ := hbytes g hg
    rw [hd, List.mem_singleton] at hb
    exact hb ▸ hdigit

theorem NumberGlyphs.decimal {gs : List Glyph} (h : NumberGlyphs gs)
    (hhead : gs.head?.any isDigit = true) (hwritten : ∀ g ∈ gs, Written g) :
    Text.Decimal (Glyph.text gs) := by
  cases h with
  | whole hgs =>
      refine .whole (digits_of_glyphs hgs ?_ hwritten)
      rintro rfl
      cases hhead
  | @fraction gs point hs hgs hpoint hhs hne =>
      obtain ⟨hwhole, hpart⟩ := List.forall_mem_append.mp hwritten
      obtain ⟨⟨c, -, rfl⟩, hfraction⟩ := List.forall_mem_cons.mp hpart
      have hc : c = '.' := by simpa [Glyph.is, Glyph.ofChar] using hpoint
      have htext : Glyph.text (gs ++ Glyph.ofChar c :: hs)
          = Glyph.text gs ++ "." ++ Glyph.text hs := by
        rw [Glyph.text_append, hc, List.append_assoc]
        rfl
      rw [htext]
      refine .fraction (digits_of_glyphs hgs ?_ hwhole) (digits_of_glyphs hhs hne hfraction)
      rintro rfl
      rw [hc] at hhead
      cases hhead

/-- Every token that is cut from a text is legible. -/
theorem legible_of_piece {pos : Pos} {g : Glyph} {gs : List Glyph} {p : Piece} {kind : Kind}
    {text : Text} (hgs : ∀ h ∈ g :: gs, Written h) (hp : piece .standard pos g gs = .ok p)
    (h : p.token? = some (kind, text)) : kind.Legible text := by
  obtain ⟨⟨c, -, rfl⟩, hrest⟩ := List.forall_mem_cons.mp hgs
  obtain ⟨d, hchar, ⟨hstart, rfl⟩ | ⟨hdigit, rfl⟩ | ⟨hquote, hstring⟩ | hsign⟩ := token_cases hp h
  · cases hchar
    obtain ⟨hword, rfl⟩ := foldedWord_of_piece hstart hgs h
    exact legible_ofWord hword
  · cases hchar
    have hcut : (number (.ofChar c :: gs)).CutFrom .standard (.ofChar c :: gs) :=
      number_cutFrom hdigit
    rw [number_token] at h
    cases h
    refine (numberGlyphs_taken _).decimal ?_ fun g hg =>
      hgs g (hcut.split ▸ List.mem_append_left _ hg)
    have hne := hcut.taken_ne_nil
    have hsplit := hcut.split
    generalize (number (.ofChar c :: gs)).taken = taken at hne hsplit
    obtain ⟨g, taken, rfl⟩ := List.exists_cons_of_ne_nil hne
    obtain ⟨rfl, -⟩ := List.cons.inj hsplit
    exact hdigit
  · cases hchar
    obtain ⟨body, hbody, htoken⟩ := exists_body_of_string hrest (hquote ▸ hstring)
    cases htoken.symm.trans h
    exact ⟨body, hbody, rfl⟩
  · have hinfinity : Kind.Legible .ident "infinity" :=
      legible_ofWord (foldedWord_ofString "infinity" (by decide) (by decide))
    have hsigns : ∀ e ∈ singles.map Prod.snd ++ doubles.map Prod.snd,
        e = (Kind.ident, ("infinity" : Text))
          ∨ e.1 ∉ [Kind.number, .string, .ident, .lengthWord, .swapWord] := by decide
    rcases hsigns _ hsign with heq | hkind
    · cases heq
      exact hinfinity
    · cases kind <;> first | trivial | exact (hkind (by simp)).elim

/-- Every token of a source without combining marks is legible. -/
theorem legible_of_scan {cs : List Char} (hcs : ∀ c ∈ cs, Composition.isMark c = false)
    {ts : List Token} (h : scan (Text.ofChars cs) = .ok ts) : ∀ t ∈ ts, t.kind.Legible t.text := by
  have hglyphs : (Text.composed (Text.ofChars cs)).glyphs
      = (cs.map Composition.standsFor).map .ofChar := by
    rw [Text.composed_ofChars, Text.glyphs_ofChars, Composition.ofChars_of_isMark hcs]
  have hwritten : ∀ g ∈ (cs.map Composition.standsFor).map Glyph.ofChar, Written g := by
    intro g hg
    obtain ⟨d, hd, rfl⟩ := List.mem_map.mp hg
    obtain ⟨c, hc, rfl⟩ := List.mem_map.mp hd
    exact ⟨_, Composition.settled_standsFor (hcs c hc), rfl⟩
  have hscan : scanAll .standard {} ((cs.map Composition.standsFor).map .ofChar) = .ok ts :=
    hglyphs ▸ h
  obtain ⟨body, last, rfl, hlast, -, hbody⟩ := exists_pieces_of_scanAll hscan
  intro t ht
  rcases List.mem_append.mp ht with ht | ht
  · obtain ⟨pos, g, rest, p, hsuffix, hpiece, htoken⟩ := hbody t ht
    exact legible_of_piece (fun g hg => hwritten g (hsuffix.subset hg)) hpiece htoken
  · rw [List.mem_singleton.mp ht, hlast]
    trivial

/-! ## Texts that are cut into tokens -/

/-- The text is cut into tokens with a property, whatever comes next of what may. -/
def Cuts (next : List Glyph → Prop) (t : Text) (P : List Token → Prop) : Prop :=
  ∃ cs : List Char, (∀ c ∈ cs, Settled c) ∧ Text.ofChars cs = t ∧ ∀ place rest, next rest →
    ∃ ts, P ts ∧ scanAll .standard place (cs.map .ofChar ++ rest)
      = (scanAll .standard (place.afterAll (cs.map .ofChar)) rest).map (ts ++ ·)

/-- Anything may come next. -/
def Anything (_ : List Glyph) : Prop := True

/-- The tokens are two such lists, one after the other. -/
def Both (P Q : List Token → Prop) (ts : List Token) : Prop := ∃ us vs, ts = us ++ vs ∧ P us ∧ Q vs

/-- There is one token, of a kind and with a text. -/
def Single (kind : Kind) (text : Text) (ts : List Token) : Prop :=
  ∃ t, ts = [t] ∧ t.kind = kind ∧ t.text = text

namespace Cuts

variable {next next' : List Glyph → Prop} {t u : Text} {P Q : List Token → Prop}

theorem imp (h : Cuts next t P) (hP : ∀ ts, P ts → Q ts) : Cuts next t Q := by
  obtain ⟨cs, hcs, htext, hscan⟩ := h
  refine ⟨cs, hcs, htext, fun place rest hrest => ?_⟩
  obtain ⟨ts, hts, heq⟩ := hscan place rest hrest
  exact ⟨ts, hP ts hts, heq⟩

theorem before (h : Cuts next t P) (hnext : ∀ rest, next' rest → next rest) : Cuts next' t P := by
  obtain ⟨cs, hcs, htext, hscan⟩ := h
  exact ⟨cs, hcs, htext, fun place rest hrest => hscan place rest (hnext rest hrest)⟩

theorem append (h : Cuts next t P) (h' : Cuts next' u Q)
    (hnext : ∀ rest, next' rest → next (u.glyphs ++ rest)) : Cuts next' (t ++ u) (Both P Q) := by
  obtain ⟨cs, hcs, rfl, hscan⟩ := h
  obtain ⟨ds, hds, rfl, hscan'⟩ := h'
  refine ⟨cs ++ ds, List.forall_mem_append.mpr ⟨hcs, hds⟩, Text.ofChars_append cs ds,
    fun place rest hrest => ?_⟩
  have hmiddle := hnext rest hrest
  rw [Text.glyphs_ofChars] at hmiddle
  obtain ⟨us, hus, heq⟩ := hscan place _ hmiddle
  obtain ⟨vs, hvs, heq'⟩ := hscan' (place.afterAll (cs.map .ofChar)) rest hrest
  refine ⟨us ++ vs, ⟨us, vs, rfl, hus, hvs⟩, ?_⟩
  rw [List.map_append, List.append_assoc, heq, heq', afterAll_append]
  cases scanAll .standard ((place.afterAll (cs.map .ofChar)).afterAll (ds.map .ofChar)) rest with
  | error e => rfl
  | ok ts => exact congrArg Except.ok (List.append_assoc us vs ts).symm

end Cuts

theorem cuts_nil : Cuts Anything [] (· = []) := by
  refine ⟨[], nofun, rfl, fun place rest _ => ⟨[], rfl, ?_⟩⟩
  exact (congrFun Except.map_id _).symm

theorem cuts_space : Cuts Anything " " (· = []) := by
  refine ⟨[' '], List.forall_mem_singleton.mpr (by decide), rfl, fun place rest _ => ⟨[], rfl, ?_⟩⟩
  exact (scanAll_space place rest).trans (congrFun Except.map_id _).symm

theorem cuts_of_standsBefore {next : List Glyph → Prop} {cs : List Char} {kind : Kind} {text : Text}
    (hcs : ∀ c ∈ cs, Settled c) (h : StandsBefore next cs kind text) :
    Cuts next (Text.ofChars cs) (Single kind text) := by
  refine ⟨cs, hcs, rfl, fun place rest hrest => ?_⟩
  exact ⟨[⟨kind, text, Glyph.text (cs.map .ofChar), place.pos, place.offset⟩], ⟨_, rfl, rfl, rfl⟩,
    scanAll_stands h hrest place⟩

/-! ### What may come next -/

/-- No letter, mark or digit comes next. -/
def EndsWord (rest : List Glyph) : Prop := ∀ g ∈ rest.head?, g.holds Letter.isPart = false

/-- What comes next carries neither a word nor a number on. -/
def Breaks (rest : List Glyph) : Prop := EndsWord rest ∧ EndsNumber rest

/-- A word comes next. -/
def StartsWord (rest : List Glyph) : Prop := ∃ c more, rest = .ofChar c :: more ∧ Letter.isStart c

theorem isPart_of_isDigit {c : Char} (hc : c.isDigit = true) : Letter.isPart c = true := by
  have hrange : 48 ≤ c.toNat ∧ c.toNat ≤ 57 := by
    simpa [Char.isDigit, UInt32.le_iff_toNat_le] using hc
  rw [Letter.isPart, Bool.or_eq_true, Letter.inRanges_iff]
  exact .inr ⟨(0x30, 0x39), by decide, hrange⟩

theorem breaks_nil : Breaks [] := ⟨nofun, nofun, nofun⟩

theorem breaks_cons {c : Char} (hc : Letter.isPart c = false) (hpoint : c ≠ '.')
    (more : List Glyph) : Breaks (.ofChar c :: more) := by
  have hdigit : c.isDigit = false := by
    rw [Bool.eq_false_iff]
    intro hdigit
    rw [isPart_of_isDigit hdigit] at hc
    cases hc
  refine ⟨?_, ?_, ?_⟩
  · rintro g ⟨⟩
    exact hc
  · rintro g ⟨⟩
    exact hdigit
  · rintro g more ⟨⟩
    have hne : (Glyph.ofChar c).is '.' = false := by simpa [Glyph.is, Glyph.ofChar] using hpoint
    rw [hne, Bool.false_and]

theorem breaks_space (rest : List Glyph) : Breaks ((" " : Text).glyphs ++ rest) :=
  breaks_cons (by decide) (by decide) rest

/-- A point breaks if no digit comes after it. -/
theorem breaks_point {more : List Glyph} (hmore : ∀ g ∈ more.head?, isDigit g = false) :
    Breaks (.ofChar '.' :: more) := by
  refine ⟨?_, ?_, ?_⟩
  · rintro g ⟨⟩
    decide
  · rintro g ⟨⟩
    rfl
  · rintro g more ⟨⟩
    rw [Bool.and_eq_false_iff]
    cases hhead : more.head? with
    | none => exact .inr rfl
    | some d => exact .inr (hmore d hhead)

theorem StartsWord.not_isDigit {rest : List Glyph} (h : StartsWord rest) :
    ∀ g ∈ rest.head?, isDigit g = false := by
  obtain ⟨c, more, rfl, hc⟩ := h
  rintro g ⟨⟩
  rw [isDigit, Bool.eq_false_iff]
  intro hdigit
  rw [(Letter.of_isDigit hdigit).2] at hc
  cases hc

/-! ### Words of the dialect -/

theorem cuts_word {text : Text} (h : FoldedWord text) :
    Cuts EndsWord text (Single (Kind.ofWord text) text) := by
  obtain ⟨cs, hstart, hfolded, rfl⟩ := h
  exact cuts_of_standsBefore (fun c hc => (hfolded c hc).2.2)
    (standsBefore_word (fun _ hrest => hrest) hstart hfolded)

theorem cuts_keyword (word : String) (hstart : word.toList.head?.any Letter.isStart = true)
    (hall : (word.toList.all fun c => Letter.Folded c) = true) :
    Cuts Breaks word (Single (Kind.ofWord word) word) :=
  (cuts_word (foldedWord_ofString word hstart hall)).before fun _ hrest => hrest.1

theorem FoldedWord.startsWord {text : Text} (h : FoldedWord text) (rest : List Glyph) :
    StartsWord (text.glyphs ++ rest) := by
  obtain ⟨cs, hstart, -, rfl⟩ := h
  cases cs with
  | nil => cases hstart
  | cons c cs => exact ⟨c, cs.map .ofChar ++ rest, by rw [Text.glyphs_ofChars]; rfl, hstart⟩

theorem cuts_string {body : List Char}
    (hbody : ∀ c ∈ body, Settled c ∧ inString (.ofChar c) = true) :
    Cuts Anything ("\"" ++ Text.ofChars body ++ "\"") (Single .string (Text.ofChars body)) := by
  rw [← ofChars_quoted]
  exact cuts_of_standsBefore (settled_quoted fun c hc => (hbody c hc).1)
    (standsBefore_string _ fun c hc => (hbody c hc).2)

theorem exists_chars_of_digits {t : Text} (ht : ∀ b ∈ t, Text.isDigit b = true) :
    ∃ cs : List Char, (∀ c ∈ cs, Settled c ∧ c.isDigit = true) ∧ Text.ofChars cs = t := by
  have hall : ∀ b : UInt8, Text.isDigit b = true →
      (Settled (Char.ofNat b.toNat) ∧ (Char.ofNat b.toNat).isDigit = true)
        ∧ String.utf8EncodeChar (Char.ofNat b.toNat) = [b] := by decide +kernel
  refine ⟨t.map fun b => Char.ofNat b.toNat, ?_, ?_⟩
  · intro c hc
    obtain ⟨b, hb, rfl⟩ := List.mem_map.mp hc
    exact (hall b (ht b hb)).1
  · induction t with
    | nil => rfl
    | cons b t ih =>
        obtain ⟨hb, ht⟩ := List.forall_mem_cons.mp ht
        rw [List.map_cons, Text.ofChars, List.flatMap_cons, (hall b hb).2]
        exact congrArg _ (ih ht)

theorem exists_chars_of_decimal {t : Text} (ht : Text.Decimal t) :
    ∃ c ds, (∀ d ∈ c :: ds, Settled d) ∧ c.isDigit = true
      ∧ NumberGlyphs ((c :: ds).map .ofChar) ∧ Text.ofChars (c :: ds) = t := by
  have hglyphs : ∀ cs : List Char, (∀ c ∈ cs, Settled c ∧ c.isDigit = true) →
      ∀ g ∈ cs.map Glyph.ofChar, isDigit g = true := by
    intro cs hcs g hg
    obtain ⟨c, hc, rfl⟩ := List.mem_map.mp hg
    exact (hcs c hc).2
  cases ht with
  | whole ht =>
      obtain ⟨cs, hcs, rfl⟩ := exists_chars_of_digits ht.all
      cases cs with
      | nil => exact absurd rfl ht.ne_nil
      | cons c ds =>
          exact ⟨c, ds, fun d hd => (hcs d hd).1, (hcs c List.mem_cons_self).2,
            .whole (hglyphs _ hcs), rfl⟩
  | @fraction t u ht hu =>
      obtain ⟨cs, hcs, rfl⟩ := exists_chars_of_digits ht.all
      obtain ⟨ds, hds, rfl⟩ := exists_chars_of_digits hu.all
      cases cs with
      | nil => exact absurd rfl ht.ne_nil
      | cons c cs =>
          refine ⟨c, cs ++ '.' :: ds, ?_, (hcs c List.mem_cons_self).2, ?_, ?_⟩
          · have hpoint : Settled '.' := by decide
            rw [← List.cons_append]
            exact List.forall_mem_append.mpr ⟨fun d hd => (hcs d hd).1,
              List.forall_mem_cons.mpr ⟨hpoint, fun d hd => (hds d hd).1⟩⟩
          · have hsplit : (c :: (cs ++ '.' :: ds)).map Glyph.ofChar
                = (c :: cs).map .ofChar ++ .ofChar '.' :: ds.map .ofChar := by simp
            rw [hsplit]
            refine .fraction (hglyphs _ hcs) rfl (hglyphs _ hds) ?_
            rintro hnil
            rw [List.map_eq_nil_iff.mp hnil] at hu
            exact hu.ne_nil rfl
          · rw [← List.cons_append, Text.ofChars_append, List.append_assoc]
            rfl

theorem cuts_decimal {text : Text} (h : Text.Decimal text) :
    Cuts EndsNumber text (Single .number text) := by
  obtain ⟨c, ds, hsettled, hc, hglyphs, rfl⟩ := exists_chars_of_decimal h
  exact cuts_of_standsBefore hsettled (standsBefore_number (fun _ hrest => hrest) hc hglyphs)

/-- The brackets, signs and commas of printed expressions. -/
def brackets : List (Char × Kind × Text) :=
  [('(', .lparen, "("), (')', .rparen, ")"), ('[', .lbracket, "["), (']', .rbracket, "]"),
   ('⌈', .lceil, "⌈"), ('⌉', .rceil, "⌉"), ('⌊', .lfloor, "⌊"), ('⌋', .rfloor, "⌋"),
   (',', .comma, ","), ('+', .plus, "+"), ('-', .minus, "-")]

section Brackets

variable {c : Char} {k : Kind} {u : Text} (h : (c, k, u) ∈ brackets)
include h

theorem of_mem_brackets : (IsSign c ∧ Settled c ∧ (∀ entry ∈ doubles, entry.1.1 ≠ c)
    ∧ Letter.isPart c = false ∧ c ≠ '.') ∧ singles.lookup c = some (k, u)
    ∧ Text.ofChars [c] = u := by
  have hall : ∀ e ∈ brackets, (IsSign e.1 ∧ Settled e.1 ∧ (∀ entry ∈ doubles, entry.1.1 ≠ e.1)
      ∧ Letter.isPart e.1 = false ∧ e.1 ≠ '.') ∧ singles.lookup e.1 = some e.2
      ∧ Text.ofChars [e.1] = e.2.2 := by decide
  exact hall _ h

theorem cuts_bracket : Cuts Anything u (Single k u) := by
  obtain ⟨⟨hsign, hsettled, hdoubles, -, -⟩, hlookup, rfl⟩ := of_mem_brackets h
  refine cuts_of_standsBefore (List.forall_mem_singleton.mpr hsettled) ?_
  refine standsBefore_single (fun g more _ => ?_) hsign hlookup
  cases g.char? with
  | none => rfl
  | some d =>
      refine List.lookup_eq_none_iff.mpr fun entry hentry => ?_
      simpa using fun heq : (c, d) = entry.1 =>
        hdoubles entry hentry (congrArg Prod.fst heq).symm

theorem breaks_bracket (rest : List Glyph) : Breaks (u.glyphs ++ rest) := by
  obtain ⟨⟨-, -, -, hpart, hpoint⟩, -, rfl⟩ := of_mem_brackets h
  rw [Text.glyphs_ofChars]
  exact breaks_cons hpart hpoint rest

theorem Cuts.closed {t : Text} {P : List Token → Prop} (ht : Cuts Breaks t P) :
    Cuts Anything (t ++ u) (Both P (Single k u)) :=
  ht.append (cuts_bracket h) fun rest _ => breaks_bracket h rest

theorem Cuts.opened {next : List Glyph → Prop} {t : Text} {P : List Token → Prop}
    (ht : Cuts next t P) : Cuts next (u ++ t) (Both (Single k u) P) :=
  (cuts_bracket h).append ht fun _ _ => trivial

end Brackets

/-- A text between two brackets. -/
theorem Cuts.enclosed {t u v : Text} {P : List Token → Prop} (ht : Cuts Breaks t P) {o c : Char}
    {k l : Kind} (ho : (o, k, u) ∈ brackets) (hc : (c, l, v) ∈ brackets) :
    Cuts Anything (u ++ t ++ v)
      fun ts => ∃ a us b, ts = a :: (us ++ [b]) ∧ a.kind = k ∧ P us ∧ b.kind = l := by
  refine ((ht.opened ho).closed hc).imp ?_
  rintro _ ⟨_, _, rfl, ⟨_, us, rfl, ⟨a, rfl, ha, -⟩, hus⟩, b, rfl, hb, -⟩
  exact ⟨a, us, b, rfl, ha, hus, hb⟩

theorem cuts_dots : Cuts Anything ".." (Single .dotDot "..") := by
  have hpoint : Settled '.' := by decide
  have hstands : StandsBefore Anything ['.', '.'] .dotDot ".." :=
    standsBefore_double Anything (by decide) rfl
  exact cuts_of_standsBefore (by simpa using hpoint) hstands

/-- A point before a word is not the first of two points. -/
theorem cuts_point : Cuts StartsWord "." (Single .dot ".") := by
  have hpoint : Settled '.' := by decide
  have hstands : StandsBefore StartsWord ['.'] .dot "." := by
    refine standsBefore_single ?_ (by decide) rfl
    rintro g more ⟨c, more, ⟨⟩, hc⟩
    have hseconds : ∀ entry ∈ doubles, Letter.isStart entry.1.2 = false := by decide
    have hnone : doubles.lookup ('.', c) = none := by
      refine doubles_lookup_eq_none fun entry hentry => ?_
      rintro rfl
      rw [hseconds entry hentry] at hc
      cases hc
    exact hnone
  exact cuts_of_standsBefore (List.forall_mem_singleton.mpr hpoint) hstands

theorem cuts_respelled {kind : Kind} {text : Text} (h : Respelled kind text)
    (hkind : kind ≠ .string) : Cuts Stops text (Single kind text) := by
  obtain ⟨cs, hcs, htext, hstands⟩ := h
  rw [Kind.spelling, if_neg hkind] at htext
  have hcuts := cuts_of_standsBefore hcs hstands
  rwa [htext] at hcuts

theorem cuts_op (op : BinaryOp) : Cuts Stops op.text (Single op.mark op.text) := by
  have hwords : ∀ op ∈ [BinaryOp.intDiv, .mod, .and, .or], FoldedWord op.text
      ∧ Kind.ofWord op.text = op.mark := by
    simp only [List.forall_mem_cons]
    exact ⟨⟨foldedWord_ofString "div" (by decide) (by decide), rfl⟩,
      ⟨foldedWord_ofString "mod" (by decide) (by decide), rfl⟩,
      ⟨foldedWord_ofString "and" (by decide) (by decide), rfl⟩,
      ⟨foldedWord_ofString "or" (by decide) (by decide), rfl⟩, nofun⟩
  have hsigns : op ∈ [BinaryOp.intDiv, .mod, .and, .or]
      ∨ (op.mark, op.text) ∈ singles.map Prod.snd ++ doubles.map Prod.snd := by
    cases op <;> decide
  have hkind : op.mark ≠ .string := by cases op <;> decide
  rcases hsigns with hop | hop
  · obtain ⟨hword, hmark⟩ := hwords op hop
    exact cuts_respelled (hmark ▸ respelled_foldedWord hword) hkind
  · exact cuts_respelled (respelled_operator hop) hkind

theorem cuts_not : Cuts Stops "not" (Single .notWord "not") :=
  cuts_respelled (respelled_foldedWord (foldedWord_ofString "not" (by decide) (by decide)))
    (by decide)

end Token

/-! ## Printed expressions -/

namespace Expr

open Token (Cuts Both Single Breaks)

mutual

/-- The names, strings and numbers in the expression are texts of tokens. -/
def Legible : Expr → Prop
  | .number _ value => ∃ num den, value = .finite false num den
  | .string _ value => Token.Kind.string.Legible value
  | .bool .. | .null _ => True
  | .name _ n => Token.Kind.ident.Legible n
  | .call _ callee _ args =>
    (∃ k ∈ [Token.Kind.ident, .lengthWord, .swapWord], k.Legible callee) ∧ AllLegible args
  | .index _ base subscript => base.Legible ∧ subscript.Legible
  | .field _ base f => base.Legible ∧ ∃ k ∈ [Token.Kind.ident, .lengthWord], k.Legible f
  | .range _ low high => low.Legible ∧ high.Legible
  | .binary _ _ lhs rhs => lhs.Legible ∧ rhs.Legible
  | .unary _ _ operand => operand.Legible

def AllLegible : List Expr → Prop
  | [] => True
  | e :: es => e.Legible ∧ AllLegible es

end

section Phrases

open Token (legible_ofWord foldedWord_ofString)

theorem legible_foldl (pos : Pos) {subscripts : List Expr} (h : AllLegible subscripts) {base : Expr}
    (hbase : base.Legible) : (subscripts.foldl (fun b i => .index pos b i) base).Legible := by
  induction subscripts generalizing base with
  | nil => exact hbase
  | cons i rest ih => exact ih h.2 ⟨hbase, h.1⟩

mutual

/-- An expression is legible if its tokens are. -/
theorem Phrase.legible : ∀ {k : Nat} {ts : List Token} {e : Expr}, Phrase k ts e →
    (∀ t ∈ ts, t.kind.Legible t.text) → e.Legible
  | _, _, _, .looser h, hts => h.legible hts
  | _, _, _, .range hlow _ hhigh, hts => by
      obtain ⟨hus, hvs⟩ := List.forall_mem_append.mp hts
      exact ⟨hlow.legible hus, hhigh.legible (List.forall_mem_cons.mp hvs).2⟩
  | _, _, _, .binary _ hlhs _ hrhs, hts => by
      obtain ⟨hus, hvs⟩ := List.forall_mem_append.mp hts
      exact ⟨hlhs.legible hus, hrhs.legible (List.forall_mem_cons.mp hvs).2⟩
  | _, _, _, .sign _ hoperand, hts => hoperand.legible (List.forall_mem_cons.mp hts).2
  | _, _, _, .power hbase _ hexponent, hts => by
      obtain ⟨hus, hvs⟩ := List.forall_mem_append.mp hts
      exact ⟨hbase.legible hus, hexponent.legible (List.forall_mem_cons.mp hvs).2⟩
  | _, _, _, .index hbase _ hitems _, hts => by
      obtain ⟨hus, hvs⟩ := List.forall_mem_append.mp hts
      have hvs := (List.forall_mem_append.mp (List.forall_mem_cons.mp hvs).2).1
      exact legible_foldl _ (hitems.legible hvs) (hbase.legible hus)
  | _, _, _, @Phrase.field us t f _ hbase _ hf, hts => by
      obtain ⟨hus, hvs⟩ := List.forall_mem_append.mp hts
      have hlegible := hvs f (by simp)
      refine ⟨hbase.legible hus, f.kind, ?_, hlegible⟩
      rcases hf with hf | hf <;> rw [hf] <;> decide
  | _, _, _, @Phrase.number t _ ht hvalue, hts => by
      have hdecimal := hts t (List.mem_singleton_self t)
      rw [ht] at hdecimal
      exact Numeral.exists_finite_of_read hdecimal hvalue
  | _, _, _, @Phrase.string t ht, hts => by
      have hlegible := hts t (List.mem_singleton_self t)
      rwa [ht] at hlegible
  | _, _, _, .trueWord _, _ | _, _, _, .falseWord _, _ | _, _, _, .null _, _ => trivial
  | _, _, _, @Phrase.name t ht, hts => by
      have hlegible := hts t (List.mem_singleton_self t)
      rwa [ht] at hlegible
  | _, _, _, @Phrase.call us t _ ht hargs, hts => by
      obtain ⟨hname, hus⟩ := List.forall_mem_cons.mp hts
      exact ⟨⟨t.kind, by rw [ht]; decide, hname⟩, hargs.legible hus⟩
  | _, _, _, @Phrase.length us t _ _ hargs, hts => by
      obtain ⟨-, hus⟩ := List.forall_mem_cons.mp hts
      have hlength : (Token.Kind.ofWord "length").Legible "length" :=
        legible_ofWord (foldedWord_ofString "length" (by decide) (by decide))
      exact ⟨⟨_, by decide, hlength⟩, hargs.legible hus⟩
  | _, _, _, @Phrase.explicitCall us t u _ _ hu hargs, hts => by
      obtain ⟨hname, hus⟩ := List.forall_mem_cons.mp (List.forall_mem_cons.mp hts).2
      exact ⟨⟨u.kind, by rcases hu with hu | hu <;> rw [hu] <;> decide, hname⟩, hargs.legible hus⟩
  | _, _, _, @Phrase.bareCall t u _ hu, hts => by
      have hname := hts u (by simp)
      exact ⟨⟨u.kind, by rcases hu with hu | hu <;> rw [hu] <;> decide, hname⟩, trivial⟩
  | _, _, _, .parens _ h _, hts | _, _, _, .ceil _ h _, hts | _, _, _, .floor _ h _, hts =>
      h.legible (List.forall_mem_append.mp (List.forall_mem_cons.mp hts).2).1

theorem Items.legible : ∀ {ts : List Token} {es : List Expr}, Items ts es →
    (∀ t ∈ ts, t.kind.Legible t.text) → AllLegible es
  | _, _, .last h, hts => ⟨h.legible hts, trivial⟩
  | _, _, .cons h _ hes, hts => by
      obtain ⟨hus, hvs⟩ := List.forall_mem_append.mp hts
      exact ⟨h.legible hus, hes.legible (List.forall_mem_cons.mp hvs).2⟩

theorem Arguments.legible : ∀ {ts : List Token} {args : List Expr}, Arguments ts args →
    (∀ t ∈ ts, t.kind.Legible t.text) → AllLegible args
  | _, _, .none _ _, _ => trivial
  | _, _, .some _ h _, hts =>
      h.legible (List.forall_mem_append.mp (List.forall_mem_cons.mp hts).2).1

end

end Phrases

mutual

/-- The tokens of the text of an expression. -/
inductive Printed : List Token → Expr → Prop
  | decimal {t pos value} : Text.Decimal value.literalText → t.kind = .number →
      t.text = value.literalText → Printed [t] (.number pos value)
  | scientific {t e sign u pos value} : Text.byte 'e' ∈ value.literalText → t.kind = .number →
      e.kind = .ident → sign.kind = .plus ∨ sign.kind = .minus → u.kind = .number →
      Printed [t, e, sign, u] (.number pos value)
  | string {t pos} : t.kind = .string → Printed [t] (.string pos t.text)
  | trueWord {t pos} : t.kind = .trueWord → Printed [t] (.bool pos true)
  | falseWord {t pos} : t.kind = .falseWord → Printed [t] (.bool pos false)
  | null {t pos} : t.kind = .nullWord → Printed [t] (.null pos)
  | name {t pos} : t.kind = .ident → Printed [t] (.name pos t.text)
  | call {us t o c pos explicit args} : t.kind = Token.Kind.ofWord t.text →
      t.kind ∈ [Token.Kind.ident, .lengthWord, .swapWord] → o.kind = .lparen →
      PrintedItems us args → c.kind = .rparen →
      Printed (t :: o :: (us ++ [c])) (.call pos t.text explicit args)
  | index {us vs o c pos base subscript} : Printed us base → o.kind = .lbracket →
      Printed vs subscript → c.kind = .rbracket →
      Printed (us ++ o :: (vs ++ [c])) (.index pos base subscript)
  | field {us t f pos base} : Printed us base → t.kind = .dot →
      f.kind = .ident ∨ f.kind = .lengthWord → Printed (us ++ [t, f]) (.field pos base f.text)
  | range {us vs t pos low high} : Printed us low → t.kind = .dotDot → Printed vs high →
      Printed (us ++ t :: vs) (.range pos low high)
  | binary {us vs t pos op lhs rhs} : PrintedOperand (lhs.isLooser op.precedence false) us lhs →
      t.kind = op.mark → PrintedOperand (rhs.isLooser op.precedence true) vs rhs →
      Printed (us ++ t :: vs) (.binary pos op lhs rhs)
  | sign {us t pos op operand} : signOp? t.kind = some op →
      PrintedOperand (operand.applies fun _ => true) us operand →
      Printed (t :: us) (.unary pos op operand)
  | ceil {us o c pos operand} : o.kind = .lceil → Printed us operand → c.kind = .rceil →
      Printed (o :: (us ++ [c])) (.unary pos .ceil operand)
  | floor {us o c pos operand} : o.kind = .lfloor → Printed us operand → c.kind = .rfloor →
      Printed (o :: (us ++ [c])) (.unary pos .floor operand)

/-- The tokens of an operand, which may stand in parentheses. -/
inductive PrintedOperand : Bool → List Token → Expr → Prop
  | bare {us e} : Printed us e → PrintedOperand false us e
  | wrapped {us o c e} : o.kind = .lparen → Printed us e → c.kind = .rparen →
      PrintedOperand true (o :: (us ++ [c])) e

/-- The tokens of some expressions, separated by commas. -/
inductive PrintedItems : List Token → List Expr → Prop
  | none : PrintedItems [] []
  | last {us e} : Printed us e → PrintedItems us [e]
  | cons {us vs t d e es} : Printed us d → t.kind = .comma → PrintedItems vs (e :: es) →
      PrintedItems (us ++ t :: vs) (d :: e :: es)

end

/-! ### The text is cut into these tokens -/

open Token (Kind Anything EndsWord FoldedWord cuts_word)

theorem cuts_scientific {m ds : Text} (hm : Text.Decimal m) (hds : Text.Digits ds) {c : Char}
    {k : Kind} {u : Text} (h : (c, k, u) ∈ Token.brackets) :
    Cuts Breaks (m ++ "e" ++ u ++ ds) fun ts => ∃ t e sign v, ts = [t, e, sign, v]
      ∧ t.kind = .number ∧ e.kind = .ident ∧ sign.kind = k ∧ v.kind = .number := by
  have hword := Token.foldedWord_ofString "e" (by decide) (by decide)
  have hmark := (Token.cuts_decimal hm).append (cuts_word hword) fun rest _ =>
    (⟨by rintro g ⟨⟩; rfl, by rintro g more ⟨⟩; rfl⟩ : Token.EndsNumber (.ofChar 'e' :: rest))
  have hsign := hmark.append (Token.cuts_bracket h) fun rest _ => (Token.breaks_bracket h rest).1
  have hall := hsign.append (Token.cuts_decimal (.whole hds)) fun _ _ => trivial
  refine (hall.before fun _ hrest => hrest.2).imp ?_
  rintro _ ⟨_, _, rfl, ⟨_, _, rfl, ⟨_, _, rfl, ⟨t, rfl, ht, -⟩, e, rfl, he, -⟩, sign, rfl, hk, -⟩,
    v, rfl, hv, -⟩
  exact ⟨t, e, sign, v, rfl, ht, he, hk, hv⟩

/-- A number is one token, or four if it has an exponent. -/
theorem cuts_literal (pos : Pos) (num den : Nat) :
    Cuts Breaks (Exact.finite false num den).literalText
      (Printed · (.number pos (.finite false num den))) := by
  generalize hvalue : Exact.finite false num den = value
  rcases hvalue ▸ Exact.literalText_cases num den with hdecimal | ⟨m, x, hm, htext⟩
  · refine ((Token.cuts_decimal hdecimal).before fun _ hrest => hrest.2).imp ?_
    rintro _ ⟨t, rfl, hkind, ht⟩
    exact .decimal hdecimal hkind ht
  · obtain ⟨ds, hds, hexponent⟩ := Exact.exponentText_eq x
    have hmem : Text.byte 'e' ∈ value.literalText := by
      rw [htext]
      rcases hexponent with h | h <;> rw [h] <;>
        exact List.mem_append_right m (List.mem_append_left _ (List.mem_append_left _
          (List.mem_singleton_self _)))
    rcases hexponent with h | h
    · rw [htext, h, ← List.append_assoc, ← List.append_assoc]
      refine (cuts_scientific hm hds (c := '+') (k := .plus) (u := "+") (by decide)).imp ?_
      rintro _ ⟨t, e, sign, v, rfl, ht, he, hsign, hv⟩
      exact .scientific hmem ht he (.inl hsign) hv
    · rw [htext, h, ← List.append_assoc, ← List.append_assoc]
      refine (cuts_scientific hm hds (c := '-') (k := .minus) (u := "-") (by decide)).imp ?_
      rintro _ ⟨t, e, sign, v, rfl, ht, he, hsign, hv⟩
      exact .scientific hmem ht he (.inr hsign) hv

theorem cuts_operand {e : Expr} (h : Cuts Breaks e.text (Printed · e)) (wrapped : Bool) :
    Cuts Breaks (parenthesized wrapped e.text) (PrintedOperand wrapped · e) := by
  cases wrapped with
  | false => exact h.imp fun _ => .bare
  | true =>
      refine ((h.enclosed (o := '(') (k := .lparen) (u := "(") (c := ')') (l := .rparen) (v := ")")
        (by decide) (by decide)).before fun _ _ => trivial).imp ?_
      rintro _ ⟨o, us, c, rfl, ho, hus, hc⟩
      exact .wrapped ho hus hc

theorem cuts_sign (pos : Pos) {op : UnaryOp} {operand : Expr} {c : Char} {k : Kind} {u : Text}
    (hc : (c, k, u) ∈ Token.brackets) (hop : signOp? k = some op)
    (h : Cuts Breaks operand.text (Printed · operand)) :
    Cuts Breaks (u ++ parenthesized (operand.applies fun _ => true) operand.text)
      (Printed · (.unary pos op operand)) := by
  refine ((cuts_operand h _).opened hc).imp ?_
  rintro _ ⟨_, us, rfl, ⟨t, rfl, ht, -⟩, hus⟩
  exact .sign (ht ▸ hop) hus

mutual

/-- The text of an expression is cut into its tokens, in front of what carries neither a word nor a
number on. -/
theorem cuts_text : ∀ e : Expr, e.Legible → Cuts Breaks e.text (Printed · e)
  | .number pos _, ⟨num, den, rfl⟩ => cuts_literal pos num den
  | .string pos _, ⟨body, hbody, rfl⟩ => by
      refine ((Token.cuts_string hbody).before fun _ _ => trivial).imp ?_
      rintro _ ⟨t, rfl, hkind, ht⟩
      exact ht ▸ .string hkind
  | .bool pos true, _ => by
      refine (Token.cuts_keyword "true" (by decide) (by decide)).imp ?_
      rintro _ ⟨t, rfl, hkind, -⟩
      exact .trueWord hkind
  | .bool pos false, _ => by
      refine (Token.cuts_keyword "false" (by decide) (by decide)).imp ?_
      rintro _ ⟨t, rfl, hkind, -⟩
      exact .falseWord hkind
  | .null pos, _ => by
      refine (Token.cuts_keyword "null" (by decide) (by decide)).imp ?_
      rintro _ ⟨t, rfl, hkind, -⟩
      exact .null hkind
  | .name pos n, ⟨hword, hkind⟩ => by
      refine ((cuts_word hword).before fun _ hrest => hrest.1).imp ?_
      rintro _ ⟨t, rfl, ht, rfl⟩
      exact .name (ht.trans hkind)
  | .call pos callee explicit args, ⟨⟨k, hk, hcallee⟩, hargs⟩ => by
      obtain ⟨hword, hkind⟩ := Token.word_of_legible hk hcallee
      have hopened := (cuts_word hword).append
        (Token.cuts_bracket (c := '(') (k := .lparen) (u := "(") (by decide))
        fun rest _ => (Token.breaks_bracket (c := '(') (k := .lparen) (u := "(") (by decide) rest).1
      have hboth := hopened.append (cuts_items args hargs) fun _ _ => trivial
      refine ((hboth.closed (c := ')') (k := .rparen) (u := ")") (by decide)).before
        fun _ _ => trivial).imp ?_
      rintro _ ⟨_, _, rfl, ⟨_, us, rfl, ⟨_, _, rfl, ⟨t, rfl, ht, rfl⟩, o, rfl, ho, -⟩, hus⟩,
        c, rfl, hc, -⟩
      exact .call ht (by rwa [ht, hkind]) ho hus hc
  | .index pos base subscript, ⟨hbase, hsubscript⟩ => by
      have hopened :=
        (cuts_text base hbase).closed (c := '[') (k := .lbracket) (u := "[") (by decide)
      have hboth := hopened.append (cuts_text subscript hsubscript) fun _ _ => trivial
      refine ((hboth.closed (c := ']') (k := .rbracket) (u := "]") (by decide)).before
        fun _ _ => trivial).imp ?_
      rintro _ ⟨_, _, rfl, ⟨_, vs, rfl, ⟨us, _, rfl, hus, o, rfl, ho, -⟩, hvs⟩, c, rfl, hc, -⟩
      have hprinted : Printed _ (.index pos base subscript) := .index hus ho hvs hc
      simpa using hprinted
  | .field pos base f, ⟨hbase, k, hk, hf⟩ => by
      have hkind : k ∈ [Kind.ident, .lengthWord, .swapWord] := List.mem_of_mem_dropLast hk
      obtain ⟨hword, hf⟩ := Token.word_of_legible hkind hf
      have hpoint := (cuts_text base hbase).append Token.cuts_point fun rest hrest =>
        Token.breaks_point hrest.not_isDigit
      refine ((hpoint.append (cuts_word hword) fun rest _ => hword.startsWord rest).before
        fun _ hrest => hrest.1).imp ?_
      rintro _ ⟨_, _, rfl, ⟨us, _, rfl, hus, t, rfl, ht, -⟩, u, rfl, hu, rfl⟩
      rw [List.append_assoc]
      exact .field hus ht (by simpa [hu, hf] using hk)
  | .range pos low high, ⟨hlow, hhigh⟩ => by
      have hdots := (cuts_text low hlow).append Token.cuts_dots fun rest _ =>
        Token.breaks_point (by rintro g ⟨⟩; rfl)
      refine (hdots.append (cuts_text high hhigh) fun _ _ => trivial).imp ?_
      rintro _ ⟨_, vs, rfl, ⟨us, _, rfl, hus, t, rfl, ht, -⟩, hvs⟩
      rw [List.append_assoc]
      exact .range hus ht hvs
  | .binary pos op lhs rhs, ⟨hlhs, hrhs⟩ => by
      have hleft := (cuts_operand (cuts_text lhs hlhs) (lhs.isLooser op.precedence false)).append
        Token.cuts_space fun rest _ => Token.breaks_space rest
      have hop := (hleft.append (Token.cuts_op op) fun _ _ => trivial).append Token.cuts_space
        fun rest _ => by rintro g ⟨⟩; rfl
      refine (hop.append (cuts_operand (cuts_text rhs hrhs) (rhs.isLooser op.precedence true))
        fun _ _ => trivial).imp ?_
      rintro _ ⟨_, vs, rfl, ⟨_, _, rfl, ⟨_, _, rfl, ⟨us, _, rfl, hus, rfl⟩, t, rfl, ht, -⟩, rfl⟩,
        hvs⟩
      have hprinted : Printed _ (.binary pos op lhs rhs) := .binary hus ht hvs
      simpa using hprinted
  | .unary pos .neg operand, h =>
      cuts_sign pos (c := '-') (k := .minus) (u := "-") (by decide) rfl (cuts_text operand h)
  | .unary pos .plus operand, h =>
      cuts_sign pos (c := '+') (k := .plus) (u := "+") (by decide) rfl (cuts_text operand h)
  | .unary pos .not operand, h => by
      have hoperand := cuts_operand (cuts_text operand h) (operand.applies fun _ => true)
      have hword := Token.cuts_not.append Token.cuts_space fun rest _ => by rintro g ⟨⟩; rfl
      refine (hword.append hoperand fun _ _ => trivial).imp ?_
      rintro _ ⟨_, us, rfl, ⟨_, _, rfl, ⟨t, rfl, ht, -⟩, rfl⟩, hus⟩
      exact .sign (by rw [ht]; rfl) hus
  | .unary pos .ceil operand, h => by
      refine (((cuts_text operand h).enclosed (o := '⌈') (k := .lceil) (u := "⌈") (c := '⌉')
        (l := .rceil) (v := "⌉") (by decide) (by decide)).before fun _ _ => trivial).imp ?_
      rintro _ ⟨o, us, c, rfl, ho, hus, hc⟩
      exact .ceil ho hus hc
  | .unary pos .floor operand, h => by
      refine (((cuts_text operand h).enclosed (o := '⌊') (k := .lfloor) (u := "⌊") (c := '⌋')
        (l := .rfloor) (v := "⌋") (by decide) (by decide)).before fun _ _ => trivial).imp ?_
      rintro _ ⟨o, us, c, rfl, ho, hus, hc⟩
      exact .floor ho hus hc

theorem cuts_items : ∀ es : List Expr, AllLegible es →
    Cuts Breaks (Text.join ", " (textsOf es)) (PrintedItems · es)
  | [], _ => by
      refine (Token.cuts_nil.before fun _ _ => trivial).imp ?_
      rintro _ rfl
      exact .none
  | [e], ⟨he, _⟩ => by
      have htext : Text.join ", " (textsOf [e]) = e.text := List.intercalate_singleton ..
      rw [htext]
      exact (cuts_text e he).imp fun _ => .last
  | d :: e :: es, ⟨hd, hes⟩ => by
      have htext : Text.join ", " (textsOf (d :: e :: es))
          = d.text ++ "," ++ " " ++ Text.join ", " (textsOf (e :: es)) := by
        refine (List.intercalate_cons_cons ..).trans ?_
        rw [List.append_assoc d.text "," " "]
        rfl
      have hclosed := (cuts_text d hd).closed (c := ',') (k := .comma) (u := ",") (by decide)
      have hcomma := hclosed.append Token.cuts_space fun _ _ => trivial
      rw [htext]
      refine (hcomma.append (cuts_items (e :: es) hes) fun _ _ => trivial).imp ?_
      rintro _ ⟨_, vs, rfl, ⟨_, _, rfl, ⟨us, _, rfl, hus, t, rfl, ht, -⟩, rfl⟩, hvs⟩
      have hprinted : PrintedItems _ (d :: e :: es) := .cons hus ht hvs
      simpa using hprinted

end

/-- The tokens of a legible expression are those its text is scanned into. -/
theorem exists_scan_text {e : Expr} (h : e.Legible) : ∃ ts last,
    Token.scan e.text = .ok (ts ++ [last]) ∧ last.kind = .eof ∧ Printed ts e := by
  obtain ⟨cs, hcs, htext, hscan⟩ := cuts_text e h
  obtain ⟨ts, hts, heq⟩ := hscan {} [] Token.breaks_nil
  have hglyphs : (Text.composed e.text).glyphs = cs.map .ofChar := by
    rw [← htext, Text.composed_ofChars, Text.glyphs_ofChars, Composition.ofChars_of_settled hcs]
  rw [List.append_nil, Token.scanAll_nil] at heq
  exact ⟨ts, _, (congrArg (Token.scanAll .standard {}) hglyphs).trans heq, rfl, hts⟩

end Expr

end PseudoCost
