import PseudoCost.Proofs.Composing
import PseudoCost.Proofs.Scanning

/-!
# Lines are scanned on their own

No token, comment, string or second character of an operator reaches across a newline, so a text can
be cut at any newline: what is scanned before it is what is scanned of the first part alone, and
what is scanned after it is what is scanned of the second part, moved to where that stands
(`scanIn_newline`).

One step of the scan has the content (`piece_newline`). Every kind of piece looks ahead in its own
way, and a newline ends each of them as the end of the text does: it continues no word or number, it
closes no string, and it is the second character of no operator. About the alphabet this uses only
that composing a text works line by line and that a newline is no part of a word; the tables are
like that (`Alphabet.standard_lineWise`).
-/

namespace PseudoCost

/-! ## Glyphs -/

namespace Glyph

/-- The glyph of a newline. -/
def newline : Glyph := ⟨some '\n', [Text.newline]⟩

/-- A newline closes what is open. -/
theorem readFrom_newline {open? : Option Partial} (hopen : Sound open?) (u v : Text) :
    readFrom open? (u ++ Text.newline :: v) = readFrom open? u ++ newline :: readFrom none v := by
  induction u generalizing open? with
  | nil =>
      cases open? with
      | none => rfl
      | some p =>
          have hlow : ¬ p.low ≤ Text.newline := fun hle =>
            absurd (UInt8.le_trans (hopen p rfl).low_high hle) (by decide)
          rw [List.nil_append, readFrom_cons, Step.take, Option.elim, Step.next,
            if_neg fun h => hlow h.1]
          rfl
  | cons b u ih =>
      have hgood := Step.take_good hopen b
      rw [List.cons_append, readFrom_cons, readFrom_cons, ih hgood.left, List.append_assoc]

end Glyph

theorem Text.glyphs_newline (u v : Text) :
    (u ++ newline :: v).glyphs = u.glyphs ++ Glyph.newline :: v.glyphs :=
  Glyph.readFrom_newline .none u v

namespace Token

/-! ## One piece -/

section Runs

variable {p : Glyph → Bool} (hp : p Glyph.newline = false) (gs hs : List Glyph)

include hp

theorem takeWhile_newline :
    (gs ++ Glyph.newline :: hs).takeWhile p = gs.takeWhile p := by
  induction gs with
  | nil => exact List.takeWhile_cons_of_neg (by simp [hp])
  | cons g gs ih => rw [List.cons_append, List.takeWhile_cons, List.takeWhile_cons, ih]

theorem dropWhile_newline :
    (gs ++ Glyph.newline :: hs).dropWhile p = gs.dropWhile p ++ Glyph.newline :: hs := by
  induction gs with
  | nil => exact List.dropWhile_cons_of_neg (by simp [hp])
  | cons g gs ih =>
      rw [List.cons_append, List.dropWhile_cons, List.dropWhile_cons, ih]
      split <;> rfl

end Runs

/-- The piece with more glyphs behind it. -/
def Piece.before (p : Piece) (hs : List Glyph) : Piece := { p with rest := p.rest ++ hs }

section Pieces

variable {a : Alphabet} (pos : Pos) (g : Glyph) (gs hs : List Glyph)

theorem word_newline (hpart : a.isPart '\n' = false) :
    word a (gs ++ Glyph.newline :: hs) = (word a gs).before (Glyph.newline :: hs) := by
  have hp : Glyph.newline.holds a.isPart = false := hpart
  simp only [word, takeWhile_newline hp, dropWhile_newline hp]
  rfl

theorem number_newline :
    number (gs ++ Glyph.newline :: hs) = (number gs).before (Glyph.newline :: hs) := by
  have hp : isDigit Glyph.newline = false := rfl
  simp only [number, takeWhile_newline hp, dropWhile_newline hp]
  rcases gs.dropWhile isDigit with _ | ⟨point, rest⟩
  · rfl
  · have hdigit : (rest ++ Glyph.newline :: hs).head?.any isDigit = rest.head?.any isDigit := by
      cases rest <;> rfl
    simp only [List.cons_append, hdigit, takeWhile_newline hp, dropWhile_newline hp]
    split <;> rfl

theorem string_newline : string pos g (gs ++ Glyph.newline :: hs)
    = (string pos g gs).map (·.before (Glyph.newline :: hs)) := by
  have hp : inString Glyph.newline = false := rfl
  simp only [string, takeWhile_newline hp, dropWhile_newline hp]
  cases gs.dropWhile inString with
  | nil => rfl
  | cons closing rest =>
      dsimp only [List.cons_append]
      split <;> rfl

theorem operator_newline (c : Char) : operator pos c g (gs ++ Glyph.newline :: hs)
    = (operator pos c g gs).map (·.before (Glyph.newline :: hs)) := by
  have hdouble : (Glyph.newline.char?.bind fun d => doubles.lookup (c, d)) = none :=
    doubles_lookup_eq_none (by decide)
  cases gs with
  | nil =>
      simp only [operator, List.nil_append, hdouble]
      split <;> rfl
  | cons next more =>
      simp only [operator, List.cons_append]
      split
      · rfl
      · split <;> rfl

theorem piece_newline (hpart : a.isPart '\n' = false) :
    piece a pos g (gs ++ Glyph.newline :: hs)
      = (piece a pos g gs).map (·.before (Glyph.newline :: hs)) := by
  rw [piece, piece]
  split
  · rfl
  split
  · rfl
  split
  · have hp : (!Glyph.newline.is '\n') = false := rfl
    simp only [takeWhile_newline (p := fun h => !h.is '\n') hp,
      dropWhile_newline (p := fun h => !h.is '\n') hp]
    rfl
  split
  · exact congrArg Except.ok (word_newline (g :: gs) hs hpart)
  split
  · exact congrArg Except.ok (number_newline (g :: gs) hs)
  split
  · exact string_newline pos g gs hs
  · exact operator_newline pos g gs hs _

end Pieces

/-! ## A scan -/

variable {a : Alphabet}

/-- The glyphs before a newline are scanned on their own, and those after it from where they
stand. -/
theorem scanAll_newline (hpart : a.isPart '\n' = false) (place : Place) (gs hs : List Glyph) :
    scanAll a place (gs ++ Glyph.newline :: hs) = do
      let ts ← scanAll a place gs
      let us ← scanAll a ((place.afterAll gs).after Glyph.newline) hs
      return ts.dropLast ++ us := by
  induction hlength : gs.length using Nat.strongRecOn generalizing place gs with
  | _ length ih =>
      cases gs with
      | nil =>
          have hpiece : piece a place.pos Glyph.newline hs = .ok ⟨none, [Glyph.newline], hs⟩ := rfl
          rw [List.nil_append, scanAll_cons, hpiece, scanAll_nil]
          rfl
      | cons g gs =>
          rw [List.cons_append, scanAll_cons, scanAll_cons, piece_newline _ _ _ _ hpart]
          cases hpiece : piece a place.pos g gs with
          | error e => rfl
          | ok p =>
              have hlt := hlength ▸ length_rest_lt hpiece
              have hrest := ih _ hlt (place.afterAll p.taken) p.rest rfl
              rw [← afterAll_append, ← (piece_cutFrom hpiece).split] at hrest
              simp only [Except.map, Except.bind, Piece.before, hrest]
              cases hmore : scanAll a (place.afterAll p.taken) p.rest with
              | error e => rfl
              | ok more =>
                  cases scanAll a ((place.afterAll (g :: gs)).after Glyph.newline) hs with
                  | error e => rfl
                  | ok us =>
                      obtain ⟨body, last, rfl, -⟩ := exists_pieces_of_scanAll hmore
                      have hlast : (p.tokens place ++ (body ++ [last])).dropLast
                          = p.tokens place ++ (body ++ [last]).dropLast :=
                        List.dropLast_append_of_ne_nil (List.concat_ne_nil last body)
                      exact congrArg Except.ok (by rw [hlast, List.append_assoc]; rfl)

/-! ## Alphabets that work line by line -/

/-- Texts are composed line by line, without a newline more or less, and a newline is no part of a
word. -/
structure Alphabet.LineWise (a : Alphabet) : Prop where
  composed_newline : ∀ cs ds : List Char,
    a.composed (Text.ofChars cs ++ Text.newline :: Text.ofChars ds)
      = a.composed (Text.ofChars cs) ++ Text.newline :: a.composed (Text.ofChars ds)
  count_newline : ∀ cs : List Char,
    (a.composed (Text.ofChars cs)).count Text.newline = (Text.ofChars cs).count Text.newline
  isPart_newline : a.isPart '\n' = false

theorem Alphabet.standard_lineWise : Alphabet.standard.LineWise where
  composed_newline cs ds := by
    change Text.composed _ = Text.composed _ ++ Text.newline :: Text.composed _
    rw [← Text.ofChars_newline, Text.composed_ofChars, Text.composed_ofChars, Text.composed_ofChars,
      Composition.ofChars_newline, Text.ofChars_newline]
  count_newline cs := by
    change (Text.composed _).count Text.newline = _
    rw [Text.composed_ofChars, Text.count_newline_ofChars, Composition.count_newline_ofChars,
      Text.count_newline_ofChars]
  isPart_newline := by decide

/-- **Lines are scanned on their own.** A text cut at a newline is scanned as its two parts are. The
first part decides whether it fails on its own; otherwise the tokens are those of the first part
without its end, and then those of the second one as many lines further down and bytes further on as
the first one takes with its newline. An error in the second part is as many lines further down. -/
theorem scanIn_newline (ha : a.LineWise) (cs ds : List Char) :
    scanIn a (Text.ofChars cs ++ Text.newline :: Text.ofChars ds) = do
      let lines := 1 + (Text.ofChars cs).count Text.newline
      let bytes := (a.composed (Text.ofChars cs)).length + 1
      let ts ← scanIn a (Text.ofChars cs)
      let us ← (scanIn a (Text.ofChars ds)).mapError (Error.moved lines)
      return ts.dropLast ++ us.map (Token.moved lines bytes) := by
  have hplace : (Place.afterAll {} (a.composed (Text.ofChars cs)).glyphs).after Glyph.newline
      = Place.moved (1 + (Text.ofChars cs).count Text.newline)
          ((a.composed (Text.ofChars cs)).length + 1) {} := by
    rw [afterAll_eq (by rw [Text.text_glyphs]), Text.text_glyphs, ← ha.count_newline]
    generalize a.composed (Text.ofChars cs) = t
    have hline : (1 + t.count Text.newline + 1 : Int)
        = 1 + ((1 + t.count Text.newline : Nat) : Int) := by omega
    exact Place.mk.injEq .. |>.mpr ⟨congrArg (Pos.mk · 1) hline, (Nat.zero_add _).symm⟩
  rw [scanIn_eq, ha.composed_newline, Text.glyphs_newline, scanAll_newline ha.isPart_newline,
    hplace, scanAll_moved]
  rw [scanIn_eq, scanIn_eq]
  cases scanAll a {} (a.composed (Text.ofChars cs)).glyphs with
  | error e => rfl
  | ok ts =>
      cases scanAll a {} (a.composed (Text.ofChars ds)).glyphs <;> rfl

/-- The comment on the first line ends there, and the sign before it does not go with the one on the
second line. -/
theorem scanIn_two_lines :
    scanIn .standard (Text.ofChars "n< ► 1".toList ++ Text.newline :: Text.ofChars "- n".toList)
      = .ok [⟨.ident, "n", "n", ⟨1, 1⟩, 0⟩, ⟨.less, "<", "<", ⟨1, 2⟩, 1⟩,
        ⟨.minus, "-", "-", ⟨2, 1⟩, 9⟩, ⟨.ident, "n", "n", ⟨2, 3⟩, 11⟩,
        ⟨.eof, [], [], ⟨2, 4⟩, 12⟩] := by
  have hfirst : scanIn .standard (Text.ofChars "n< ► 1".toList)
      = .ok [⟨.ident, "n", "n", ⟨1, 1⟩, 0⟩, ⟨.less, "<", "<", ⟨1, 2⟩, 1⟩,
        ⟨.eof, [], [], ⟨1, 7⟩, 8⟩] := by decide +kernel
  have hsecond : scanIn .standard (Text.ofChars "- n".toList)
      = .ok [⟨.minus, "-", "-", ⟨1, 1⟩, 0⟩, ⟨.ident, "n", "n", ⟨1, 3⟩, 2⟩,
        ⟨.eof, [], [], ⟨1, 4⟩, 3⟩] := by decide +kernel
  rw [scanIn_newline Alphabet.standard_lineWise, hfirst, hsecond]
  decide +kernel

end Token

end PseudoCost
