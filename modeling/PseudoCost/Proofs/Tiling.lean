import Mathlib.Data.List.Induction
import PseudoCost.Token.Lexer
import PseudoCost.Proofs.Glyphs

/-!
# Tokens tile the source

A source that can be cut into tokens is covered by them: the lexemes stand in the text in ascending
order, what lies between them is white space and comments, and every token says exactly where it
stands. `TilesFrom` collects these properties for the part of a text from some offset on; each kind
of piece extends it to the left (`TilesFrom.token`, `TilesFrom.gap`), and `scanIn_tilesFrom` is the
run. It holds for every alphabet, since a piece is cut out of the glyphs whatever its characters
are.

Lines and columns are counted on the bytes before a token: `Text.endPos` is where a text ends, and
the place that the reader keeps up glyph by glyph is the end of what it has read (`afterAll_eq`).
-/

namespace PseudoCost

/-! ## Where a text ends -/

namespace Text

/-- What stands after the last newline. -/
def lastLine (t : Text) : Text := (t.reverse.takeWhile (· != newline)).reverse

/-- Where a text ends: its line is one more than its newlines, its column one more than the glyphs
after the last of them. -/
def endPos (t : Text) : Pos := ⟨1 + t.count newline, 1 + t.lastLine.glyphs.length⟩

theorem lastLine_newline (t : Text) : (t ++ [newline]).lastLine = [] := by
  simp [lastLine]

theorem lastLine_append {t u : Text} (hu : newline ∉ u) : (t ++ u).lastLine = t.lastLine ++ u := by
  have hall : ∀ b ∈ u.reverse, (b != newline) = true := fun b hb => by
    rw [bne_iff_ne]
    exact fun h => hu (h ▸ List.mem_reverse.mp hb)
  simp [lastLine, List.takeWhile_append_of_pos hall]

/-- The last line begins between two glyphs. -/
theorem exists_lastLine {gs : List Glyph} (hproper : ∀ g ∈ gs, g.Proper) :
    ∃ before line, gs = before ++ line ∧ Glyph.text line = (Glyph.text gs).lastLine := by
  induction gs using List.reverseRecOn with
  | nil => exact ⟨[], [], rfl, rfl⟩
  | append_singleton gs g ih =>
      obtain ⟨before, line, hgs, hline⟩ := ih fun h hh => hproper h (List.mem_append_left _ hh)
      rcases (hproper g (by simp)).newline with ⟨-, hbytes⟩ | ⟨-, hbytes⟩
      · exact ⟨gs ++ [g], [], by simp, by rw [Glyph.text_concat, hbytes, lastLine_newline]; rfl⟩
      · refine ⟨before, line ++ [g], by rw [hgs, List.append_assoc], ?_⟩
        rw [Glyph.text_concat, Glyph.text_concat, lastLine_append hbytes, hline]

end Text

namespace Token

theorem afterAll_append (p : Place) (gs hs : List Glyph) :
    p.afterAll (gs ++ hs) = (p.afterAll gs).afterAll hs := List.foldl_append

/-- The place kept up while reading is the end of what was read. -/
theorem afterAll_eq {gs : List Glyph} (hgs : (Glyph.text gs).glyphs = gs) :
    Place.afterAll {} gs = ⟨(Glyph.text gs).endPos, (Glyph.text gs).length⟩ := by
  induction gs using List.reverseRecOn with
  | nil => rfl
  | append_singleton gs g ih =>
      have hproper : ∀ h ∈ gs ++ [g], h.Proper := fun h hh => Text.proper_of_mem_glyphs (hgs ▸ hh)
      rw [afterAll_append, ih (Text.glyphs_split hgs).1, Glyph.text_concat]
      simp only [Place.afterAll, List.foldl_cons, List.foldl_nil, Place.after, Place.mk.injEq,
        List.length_append, and_true]
      rcases (hproper g (by simp)).newline with ⟨hg, hbytes⟩ | ⟨hg, hbytes⟩
      · rw [if_pos hg, hbytes]
        simp [Text.endPos, Text.lastLine_newline, List.count_append, Int.add_assoc]
        rfl
      · -- The glyph is one more on the last line, which is read on its own as it is in the text.
        obtain ⟨before, line, rfl, hline⟩ :=
          Text.exists_lastLine fun h hh => hproper h (List.mem_append_left [g] hh)
        rw [List.append_assoc] at hgs
        have hlast := (Text.glyphs_split hgs).2
        rw [Glyph.text_concat] at hlast
        rw [if_neg (by simpa using hg), Text.endPos, Text.endPos, Text.lastLine_append hbytes,
          ← hline, hlast, (Text.glyphs_split hlast).1]
        simp [List.count_append, List.count_eq_zero_of_not_mem hbytes, Int.add_assoc]

/-! ## Pieces -/

/-- What may stand between tokens, given what follows it: a white-space character, or a comment,
which goes on to the end of its line. -/
inductive Gap (a : Alphabet) : List Glyph → List Glyph → Prop
  | blank {g : Glyph} {c : Char} {after : List Glyph} (hchar : g.char? = some c)
      (hblank : c = '\n' ∨ a.isBlank c = true) : Gap a [g] after
  | comment {sign : Glyph} {body after : List Glyph} (hsign : sign.char? = some commentSign)
      (hbody : ∀ g ∈ body, g.is '\n' = false) (hafter : ∀ g ∈ after.head?, g.is '\n' = true) :
      Gap a (sign :: body) after

/-- What a piece is cut out of some glyphs: some of them, and a token or a gap. -/
structure Piece.CutFrom (a : Alphabet) (gs : List Glyph) (p : Piece) : Prop where
  split : gs = p.taken ++ p.rest
  taken_ne_nil : p.taken ≠ []
  token_or_gap : (∃ kind text, p.token? = some (kind, text) ∧ kind ≠ .eof)
    ∨ p.token? = none ∧ Gap a p.taken p.rest

theorem mem_of_lookup {α β : Type} [BEq α] [LawfulBEq α] {table : List (α × β)} {key : α}
    {value : β} (h : table.lookup key = some value) : (key, value) ∈ table := by
  obtain ⟨before, after, rfl, -⟩ := List.lookup_eq_some_iff.mp h
  simp

/-- A word has the kind of a keyword or of an identifier. -/
theorem Kind.ofWord_ne {kind : Kind} (hident : kind ≠ .ident)
    (hkeywords : ∀ entry ∈ keywords, entry.2 ≠ kind) (word : Text) : Kind.ofWord word ≠ kind := by
  rw [Kind.ofWord]
  cases hlookup : keywords.lookup word with
  | none => exact hident.symm
  | some found => exact hkeywords _ (mem_of_lookup hlookup)

/-- No operator goes on with a character that is the second one of none. -/
theorem doubles_lookup_eq_none {c d : Char} (hd : ∀ entry ∈ doubles, entry.1.2 ≠ d) :
    doubles.lookup (c, d) = none := by
  refine List.lookup_eq_none_iff.mpr fun entry hentry => ?_
  simpa using fun heq : (c, d) = entry.1 => hd entry hentry (congrArg Prod.snd heq).symm

section Pieces

variable {a : Alphabet} {gs : List Glyph}

theorem cutFrom_of_token {kind : Kind} {text : Text} {taken rest : List Glyph}
    (hsplit : gs = taken ++ rest) (hne : taken ≠ []) (hkind : kind ≠ .eof) :
    Piece.CutFrom a gs ⟨some (kind, text), taken, rest⟩ :=
  ⟨hsplit, hne, .inl ⟨kind, text, rfl, hkind⟩⟩

theorem word_cutFrom {g : Glyph} (hg : g.holds a.isPart = true) :
    (word a (g :: gs)).CutFrom a (g :: gs) := by
  refine cutFrom_of_token List.takeWhile_append_dropWhile.symm ?_
    (Kind.ofWord_ne (by decide) (by decide) _)
  simp [hg]

theorem number_cutFrom {g : Glyph} (hg : isDigit g = true) :
    (number (g :: gs)).CutFrom a (g :: gs) := by
  have hwhole : (g :: gs).takeWhile isDigit ≠ [] := by simp [hg]
  have hsplit : g :: gs = (g :: gs).takeWhile isDigit ++ (g :: gs).dropWhile isDigit :=
    List.takeWhile_append_dropWhile.symm
  simp only [number]
  split
  · rename_i point rest hrest
    rw [hrest] at hsplit
    split
    · refine cutFrom_of_token ?_ (by simp [hg]) (by decide)
      rw [List.append_assoc, List.cons_append, List.takeWhile_append_dropWhile]
      exact hsplit
    · exact cutFrom_of_token hsplit hwhole (by decide)
  · rename_i hrest
    rw [hrest] at hsplit
    exact cutFrom_of_token hsplit hwhole (by decide)

theorem string_cutFrom {pos : Pos} {g : Glyph} {p : Piece} (h : string pos g gs = .ok p) :
    p.CutFrom a (g :: gs) := by
  have hsplit : gs = gs.takeWhile inString ++ gs.dropWhile inString :=
    List.takeWhile_append_dropWhile.symm
  rw [string] at h
  split at h
  · rename_i closing rest hrest
    rw [hrest] at hsplit
    split at h
    · cases h
      refine cutFrom_of_token ?_ (by simp) (by decide)
      rw [List.cons_append, List.cons_append, List.append_assoc, List.singleton_append, ← hsplit]
    · cases h
  · cases h

/-- Everything an operator can be. -/
theorem operator_cases {pos : Pos} {c : Char} {g : Glyph} {p : Piece}
    (h : operator pos c g gs = .ok p) :
    (∃ token, singles.lookup c = some token ∧ p = ⟨some token, [g], gs⟩)
      ∨ ∃ d token next more, doubles.lookup (c, d) = some token ∧ gs = next :: more
        ∧ p = ⟨some token, [g, next], more⟩ := by
  simp only [operator] at h
  split at h
  · rename_i next more
    split at h
    · rename_i token hlookup
      cases h
      obtain ⟨d, -, hlookup⟩ := Option.bind_eq_some_iff.mp hlookup
      exact .inr ⟨d, token, next, more, hlookup, rfl, rfl⟩
    · split at h
      · rename_i token hlookup
        cases h
        exact .inl ⟨token, hlookup, rfl⟩
      · cases h
  · split at h
    · rename_i token hlookup
      cases h
      exact .inl ⟨token, hlookup, rfl⟩
    · cases h

theorem operator_cutFrom {pos : Pos} {c : Char} {g : Glyph} {p : Piece}
    (h : operator pos c g gs = .ok p) : p.CutFrom a (g :: gs) := by
  have hdoubles : ∀ entry ∈ doubles, entry.2.1 ≠ .eof := by decide
  have hsingles : ∀ entry ∈ singles, entry.2.1 ≠ .eof := by decide
  obtain ⟨token, hlookup, rfl⟩ | ⟨d, token, next, more, hlookup, rfl, rfl⟩ := operator_cases h
  · exact cutFrom_of_token rfl (by simp) (hsingles _ (mem_of_lookup hlookup))
  · exact cutFrom_of_token rfl (by simp) (hdoubles _ (mem_of_lookup hlookup))

/-- A piece takes glyphs from the front, at least one, and is a token or a gap. -/
theorem piece_cutFrom {pos : Pos} {g : Glyph} {p : Piece} (h : piece a pos g gs = .ok p) :
    p.CutFrom a (g :: gs) := by
  rw [piece] at h
  split at h
  · cases h
  rename_i c hchar
  split at h
  · rename_i hblank
    cases h
    exact ⟨rfl, by simp, .inr ⟨rfl, .blank hchar (by simpa using hblank)⟩⟩
  split at h
  · rename_i hcomment
    cases h
    refine ⟨by simp, by simp, .inr ⟨rfl, .comment (hcomment ▸ hchar) ?_ ?_⟩⟩
    · intro g hg
      simpa using List.all_eq_true.mp List.all_takeWhile g hg
    · intro g hg
      have hhead := List.head?_dropWhile_not (fun h : Glyph => !h.is '\n') gs
      rw [hg] at hhead
      simpa using hhead
  split at h
  · rename_i hstart
    cases h
    exact word_cutFrom (by simpa [Glyph.holds, hchar] using a.isPart_of_isStart c hstart)
  split at h
  · rename_i hdigit
    cases h
    exact number_cutFrom (by simpa [isDigit, Glyph.holds, hchar] using hdigit)
  split at h
  · exact string_cutFrom h
  · exact operator_cutFrom h

end Pieces

/-! ## Tilings -/

/-- The offset after the last byte of a token. -/
def stop (t : Token) : Nat := t.offset + t.lexeme.length

/-- A byte outside the tokens: it belongs to a gap that begins at `start` or later and that no
token overlaps. -/
structure InGap (a : Alphabet) (text : Text) (start : Nat) (body : List Token) (i : Nat)
    (before gap after : List Glyph) : Prop where
  glyphs_eq : text.glyphs = before ++ gap ++ after
  isGap : Gap a gap after
  start_le : start ≤ (Glyph.text before).length
  mem : (Glyph.text before).length ≤ i ∧ i < (Glyph.text (before ++ gap)).length
  apart : ∀ t ∈ body, t.stop ≤ (Glyph.text before).length
    ∨ (Glyph.text (before ++ gap)).length ≤ t.offset

/-- The tokens of a text from an offset on: those with bytes, and the last one. -/
structure TilesFrom (a : Alphabet) (text : Text) (start : Nat) (body : List Token) (last : Token) :
    Prop where
  -- Only the last token marks the end, and it stands there.
  body_kind : ∀ t ∈ body, t.kind ≠ .eof
  last_kind : last.kind = .eof
  last_offset : last.offset = text.length
  -- The tokens stand one after another.
  start_le : ∀ t ∈ body, start ≤ t.offset
  ascending : body.Pairwise fun t u => t.stop ≤ u.offset
  -- The lexeme of a token is what the text has at its offset.
  lexeme_ne_nil : ∀ t ∈ body, t.lexeme ≠ []
  lexeme_eq : ∀ t ∈ body, (text.drop t.offset).take t.lexeme.length = t.lexeme
  -- A token begins between two glyphs, and says where the text before it ends.
  glyphs_eq : ∀ t ∈ body ++ [last],
    text.glyphs = Text.glyphs (text.take t.offset) ++ Text.glyphs (text.drop t.offset)
  pos_eq : ∀ t ∈ body ++ [last], t.pos = Text.endPos (text.take t.offset)
  -- Every byte belongs to a token or to a gap.
  covered : ∀ i, start ≤ i → i < text.length →
    (∃ t ∈ body, t.offset ≤ i ∧ i < t.stop)
      ∨ ∃ before gap after, InGap a text start body i before gap after

section Tilings

variable {a : Alphabet} {text : Text} {pre taken rest : List Glyph} {body : List Token}
  {last : Token}

theorem text_eq_of_glyphs (h : text.glyphs = pre ++ rest) :
    text = Glyph.text pre ++ Glyph.text rest := by
  rw [← Glyph.text_append, ← h, Text.text_glyphs]

/-- The place after some glyphs of a text: between two glyphs, the text before and the text after
are read on their own, and the place is the end of the text before. -/
theorem afterAll_of_glyphs (h : text.glyphs = pre ++ rest) :
    (Place.afterAll {} pre).offset = (Glyph.text pre).length
      ∧ (Place.afterAll {} pre).pos = Text.endPos (text.take (Glyph.text pre).length)
      ∧ text.glyphs = Text.glyphs (text.take (Glyph.text pre).length)
        ++ Text.glyphs (text.drop (Glyph.text pre).length) := by
  have htext := text_eq_of_glyphs h
  obtain ⟨hpre, hrest⟩ := Text.glyphs_split h
  have htake : text.take (Glyph.text pre).length = Glyph.text pre := by
    rw [htext, List.take_left]
  have hdrop : text.drop (Glyph.text pre).length = Glyph.text rest := by
    rw [htext, List.drop_left]
  rw [htake, hdrop, hpre, hrest, afterAll_eq hpre]
  exact ⟨rfl, rfl, h⟩

/-- At the end there is only the last token. -/
theorem TilesFrom.done (h : text.glyphs = pre) :
    TilesFrom a text (Glyph.text pre).length []
      ⟨.eof, [], [], (Place.afterAll {} pre).pos, (Place.afterAll {} pre).offset⟩ := by
  obtain ⟨hoffset, hpos, hglyphs⟩ := afterAll_of_glyphs (h.trans (List.append_nil pre).symm)
  have hlength : (Glyph.text pre).length = text.length := by rw [← h, Text.text_glyphs]
  refine ⟨by simp, rfl, hoffset.trans hlength, by simp, .nil, by simp, by simp, ?_, ?_, ?_⟩
  · simpa [hoffset] using hglyphs
  · simpa [hoffset] using hpos
  · intro i hstart hi
    omega

/-- A token in front of what is tiled already. -/
theorem TilesFrom.token (h : text.glyphs = pre ++ taken ++ rest) (hne : taken ≠ []) {kind : Kind}
    (hkind : kind ≠ .eof) (norm : Text)
    (hrest : TilesFrom a text (Glyph.text (pre ++ taken)).length body last) :
    TilesFrom a text (Glyph.text pre).length
      (⟨kind, norm, Glyph.text taken, (Place.afterAll {} pre).pos,
        (Place.afterAll {} pre).offset⟩ :: body) last := by
  obtain ⟨hoffset, hpos, hglyphs⟩ := afterAll_of_glyphs (h.trans (List.append_assoc ..))
  rw [hoffset]
  set t : Token :=
    ⟨kind, norm, Glyph.text taken, (Place.afterAll {} pre).pos, (Glyph.text pre).length⟩ with ht
  have hstop : t.stop = (Glyph.text (pre ++ taken)).length := by
    rw [Glyph.text_append, List.length_append]
    rfl
  have hle : (Glyph.text pre).length ≤ (Glyph.text (pre ++ taken)).length := by
    rw [Glyph.text_append, List.length_append]
    omega
  have hlexeme : t.lexeme ≠ [] := by
    obtain ⟨g, gs, rfl⟩ := List.exists_cons_of_ne_nil hne
    have hg : g ∈ text.glyphs := by rw [h]; simp
    simpa [ht] using fun hnil => absurd hnil (Text.proper_of_mem_glyphs hg).bytes_ne_nil
  have hat : (text.drop t.offset).take t.lexeme.length = t.lexeme := by
    have htext := text_eq_of_glyphs (h.trans (List.append_assoc ..))
    rw [Glyph.text_append] at htext
    rw [htext, List.drop_left, List.take_left]
  constructor
  · exact List.forall_mem_cons.mpr ⟨hkind, hrest.body_kind⟩
  · exact hrest.last_kind
  · exact hrest.last_offset
  · exact List.forall_mem_cons.mpr ⟨Nat.le_refl _, fun u hu => hle.trans (hrest.start_le u hu)⟩
  · exact List.pairwise_cons.mpr ⟨fun u hu => hstop ▸ hrest.start_le u hu, hrest.ascending⟩
  · exact List.forall_mem_cons.mpr ⟨hlexeme, hrest.lexeme_ne_nil⟩
  · exact List.forall_mem_cons.mpr ⟨hat, hrest.lexeme_eq⟩
  · exact List.forall_mem_cons.mpr ⟨hglyphs, hrest.glyphs_eq⟩
  · exact List.forall_mem_cons.mpr ⟨hpos, hrest.pos_eq⟩
  · intro i hstart hi
    by_cases hin : i < t.stop
    · exact .inl ⟨t, List.mem_cons_self, hstart, hin⟩
    · rw [not_lt, hstop] at hin
      obtain ⟨u, hu, hmem⟩ | ⟨before, gap, after, hgap⟩ := hrest.covered i hin hi
      · exact .inl ⟨u, List.mem_cons_of_mem t hu, hmem⟩
      · have hapart := List.forall_mem_cons.mpr ⟨.inl (hstop ▸ hgap.start_le), hgap.apart⟩
        refine .inr ⟨before, gap, after, ?_⟩
        exact { hgap with start_le := hle.trans hgap.start_le, apart := hapart }

/-- A gap in front of what is tiled already. -/
theorem TilesFrom.gap {gap : List Glyph} (h : text.glyphs = pre ++ gap ++ rest)
    (hgap : Gap a gap rest) (hrest : TilesFrom a text (Glyph.text (pre ++ gap)).length body last) :
    TilesFrom a text (Glyph.text pre).length body last := by
  have hle : (Glyph.text pre).length ≤ (Glyph.text (pre ++ gap)).length := by
    rw [Glyph.text_append, List.length_append]
    omega
  refine { hrest with start_le := fun u hu => hle.trans (hrest.start_le u hu), covered := ?_ }
  intro i hstart hi
  by_cases hin : i < (Glyph.text (pre ++ gap)).length
  · exact .inr ⟨pre, gap, rest, h, hgap, Nat.le_refl _, ⟨hstart, hin⟩,
      fun t ht => .inr (hrest.start_le t ht)⟩
  · refine (hrest.covered i (not_lt.mp hin) hi).imp_right ?_
    rintro ⟨before, between, after, hgap⟩
    exact ⟨before, between, after, { hgap with start_le := hle.trans hgap.start_le }⟩

/-- What one step of a run does. -/
theorem scanFrom_cons {fuel : Nat} {place : Place} {g : Glyph} {gs : List Glyph}
    {tokens : List Token} (h : scanFrom a (fuel + 1) place (g :: gs) = .ok tokens) :
    ∃ p more, piece a place.pos g gs = .ok p
      ∧ scanFrom a fuel (place.afterAll p.taken) p.rest = .ok more
      ∧ tokens = match p.token? with
        | some (kind, norm) => ⟨kind, norm, Glyph.text p.taken, place.pos, place.offset⟩ :: more
        | none => more := by
  simp only [scanFrom, bind, Except.bind] at h
  split at h
  · cases h
  rename_i p hpiece
  split at h
  · cases h
  rename_i more hmore
  refine ⟨p, more, hpiece, hmore, ?_⟩
  cases htoken : p.token? with
  | none =>
      rw [htoken] at h
      cases h
      rfl
  | some token =>
      rw [htoken] at h
      cases h
      rfl

/-- A run of the reader, piece by piece, given what it has read before. -/
theorem scanFrom_tilesFrom {fuel : Nat} {gs : List Glyph} (hfuel : gs.length ≤ fuel)
    (h : text.glyphs = pre ++ gs) {tokens : List Token}
    (hscan : scanFrom a fuel (Place.afterAll {} pre) gs = .ok tokens) :
    ∃ body last, tokens = body ++ [last]
      ∧ TilesFrom a text (Glyph.text pre).length body last := by
  induction fuel generalizing pre gs tokens with
  | zero =>
      obtain rfl : gs = [] := List.length_eq_zero_iff.mp (Nat.le_zero.mp hfuel)
      cases hscan
      exact ⟨[], _, rfl, .done (h.trans (List.append_nil pre))⟩
  | succ fuel ih =>
      cases gs with
      | nil =>
          cases hscan
          exact ⟨[], _, rfl, .done (h.trans (List.append_nil pre))⟩
      | cons g gs =>
          obtain ⟨p, more, hpiece, hmore, rfl⟩ := scanFrom_cons hscan
          have hcut := piece_cutFrom hpiece
          rw [hcut.split, ← List.append_assoc] at h
          have hshort : p.rest.length ≤ fuel := by
            have htaken := List.length_pos_iff.mpr hcut.taken_ne_nil
            have hsum := congrArg List.length hcut.split
            rw [List.length_append] at hsum
            omega
          rw [← afterAll_append] at hmore
          obtain ⟨body, last, rfl, hrest⟩ := ih hshort h hmore
          obtain ⟨kind, norm, htoken, hkind⟩ | ⟨hnone, hgap⟩ := hcut.token_or_gap
          · rw [htoken]
            exact ⟨_ :: body, last, rfl, .token h hcut.taken_ne_nil hkind norm hrest⟩
          · rw [hnone]
            exact ⟨body, last, rfl, .gap h hgap hrest⟩

end Tilings

/-- **Tokens tile the source.** Whenever a source can be cut into tokens, the tokens but the last
stand in its composed form in ascending order, each with its lexeme at its offset and with nothing
but white space and comments between them, every token says on which line and in which column it
begins, and the last one marks the end of the text. This holds whatever Unicode says of
characters. -/
theorem scanIn_tilesFrom {a : Alphabet} {source : Text} {tokens : List Token}
    (h : scanIn a source = .ok tokens) :
    ∃ body last, tokens = body ++ [last] ∧ TilesFrom a (a.composed source) 0 body last := by
  have hglyphs : (a.composed source).glyphs = [] ++ (a.composed source).glyphs := rfl
  exact scanFrom_tilesFrom (Nat.le_refl _) hglyphs h

/-- The tokens of an assignment on the second line, with a comment after it. -/
def assignmentTokens : List Token :=
  [⟨.ident, "n", "n", ⟨2, 1⟩, 1⟩, ⟨.assign, "<-", "←", ⟨2, 3⟩, 3⟩, ⟨.number, "10", "10", ⟨2, 5⟩, 7⟩,
   ⟨.eof, [], [], ⟨2, 11⟩, 16⟩]

theorem scanIn_assignment :
    scanIn .standard "\nn ← 10 ► é" = .ok assignmentTokens
      ∧ ∃ body last, assignmentTokens = body ++ [last]
        ∧ TilesFrom .standard (Text.composed "\nn ← 10 ► é") 0 body last := by
  have hscan : scanIn .standard "\nn ← 10 ► é" = .ok assignmentTokens := by decide +kernel
  exact ⟨hscan, scanIn_tilesFrom hscan⟩

end Token

end PseudoCost
