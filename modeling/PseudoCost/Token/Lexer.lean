import PseudoCost.Token
import PseudoCost.Text.Composition
import PseudoCost.Text.Letter

/-!
# From a source to its tokens

A source is put into composed form and cut into pieces, each read from the glyphs in front: white
space and comments are dropped, words, numbers, strings and operators become tokens. Every piece
takes at least one glyph, so as many steps as there are glyphs are enough. The first glyph that
starts no piece is an error with its position; there is no recovery.

What Unicode says of characters is passed in as an `Alphabet`, so that the cutting can be told apart
from the tables. `Token.scan` is the reader of a whole source, with the tables of this library.
-/

namespace PseudoCost

namespace Token

/-! ## Errors -/

/-- Why a source cannot be cut into tokens, with the place where the piece starts. -/
inductive Error where
  | invalidByte (pos : Pos) (byte : UInt8)
  | unterminatedString (pos : Pos)
  | unrecognized (pos : Pos) (c : Char)
deriving Repr, DecidableEq

/-- Where the error is. -/
def Error.pos : Error → Pos
  | .invalidByte pos _ => pos
  | .unterminatedString pos => pos
  | .unrecognized pos _ => pos

/-- What is wrong. -/
def Error.description : Error → Text
  | .invalidByte .. => "invalid UTF-8 sequence"
  | .unterminatedString _ => "unterminated string literal"
  | .unrecognized .. => "unrecognized character"

/-- The piece of the source at fault; an invalid byte is shown by its decimal value. -/
def Error.offending : Error → Text
  | .invalidByte _ byte => "\\x" ++ Text.ofNat byte.toNat
  | .unterminatedString _ => "\""
  | .unrecognized _ c => String.utf8EncodeChar c

/-- The error without its position. -/
def Error.detail (e : Error) : Text := e.description ++ " '" ++ e.offending ++ "'"

/-! ## Places -/

/-- Where the next glyph stands. -/
structure Place where
  pos : Pos := ⟨1, 1⟩
  offset : Nat := 0
deriving Repr, DecidableEq

/-- The place after a glyph. Only a newline starts a new line. -/
def Place.after (p : Place) (g : Glyph) : Place :=
  ⟨if g.is '\n' then ⟨p.pos.line + 1, 1⟩ else ⟨p.pos.line, p.pos.col + 1⟩,
   p.offset + g.bytes.length⟩

/-- The place after some glyphs. -/
def Place.afterAll (p : Place) (gs : List Glyph) : Place := gs.foldl Place.after p

/-! ## Alphabets -/

/-- What a reader has to know of Unicode: the composed form of a text, the characters that start
and continue a word, white space, and case folding. A character that starts a word also continues
one. -/
structure Alphabet where
  composed : Text → Text
  isStart : Char → Bool
  isPart : Char → Bool
  isBlank : Char → Bool
  fold : Char → List Char
  isPart_of_isStart : ∀ c, isStart c = true → isPart c = true

/-- The alphabet of the tables. -/
def Alphabet.standard : Alphabet where
  composed := Text.composed
  isStart := Letter.isStart
  isPart := Letter.isPart
  isBlank := Letter.isBlank
  fold := Letter.fold
  isPart_of_isStart c h := by rw [Letter.isPart, h, Bool.true_or]

/-! ## Pieces -/

/-- A piece of the source: the kind and canonical text of its token, if it gives one, the glyphs
it takes and the glyphs it leaves. -/
structure Piece where
  token? : Option (Kind × Text)
  taken : List Glyph
  rest : List Glyph
deriving Repr, DecidableEq

/-- The sign that starts a comment. -/
def commentSign : Char := '►'

/-- The sign for infinity, which is read as a name. -/
def infinitySign : Char := '∞'

/-- The operators of two characters, with the kind and the canonical text of each. -/
def doubles : List ((Char × Char) × Kind × Text) :=
  [(('<', '-'), .assign, "<-"), (('<', '='), .lessEqual, "<="), (('<', '>'), .notEqual, "<>"),
   (('>', '='), .greaterEqual, ">="), ((':', '='), .assign, "<-"), (('!', '='), .notEqual, "<>"),
   (('.', '.'), .dotDot, "..")]

/-- The operators and punctuation of one character. -/
def singles : List (Char × Kind × Text) :=
  [('<', .less, "<"), ('>', .greater, ">"), (':', .colon, ":"), ('.', .dot, "."),
   ('=', .equal, "="), ('+', .plus, "+"), ('-', .minus, "-"), ('*', .star, "*"),
   (Char.ofNat 0xD7, .star, "*"), ('/', .slash, "/"), (Char.ofNat 0xF7, .slash, "/"),
   ('^', .caret, "^"), ('(', .lparen, "("), (')', .rparen, ")"), ('[', .lbracket, "["),
   (']', .rbracket, "]"), (',', .comma, ","), (';', .semicolon, ";"),
   ('←', .assign, "<-"), ('↨', .assign, "<-"), (Char.ofNat 0x1F868, .assign, "<-"),
   ('≤', .lessEqual, "<="), ('≥', .greaterEqual, ">="), ('≠', .notEqual, "<>"),
   ('⌈', .lceil, "⌈"), ('⌉', .rceil, "⌉"), ('⌊', .lfloor, "⌊"), ('⌋', .rfloor, "⌋"),
   (infinitySign, .ident, "infinity")]

/-- Whether a glyph is an ASCII digit. -/
def isDigit (g : Glyph) : Bool := g.holds Char.isDigit

section Reader

variable (a : Alphabet)

/-- The case-folded text of some glyphs. -/
def foldText (gs : List Glyph) : Text :=
  gs.flatMap fun g =>
    match g.char? with
    | some c => (a.fold c).flatMap String.utf8EncodeChar
    | none => g.bytes

/-- A word: the longest run of glyphs that may continue an identifier. -/
def word (gs : List Glyph) : Piece :=
  let taken := gs.takeWhile (Glyph.holds a.isPart)
  let text := foldText a taken
  ⟨some (Kind.ofWord text, text), taken, gs.dropWhile (Glyph.holds a.isPart)⟩

/-- A number: digits, and a point with more digits if a digit follows the point. -/
def number (gs : List Glyph) : Piece :=
  let whole := gs.takeWhile isDigit
  let make (taken rest : List Glyph) : Piece := ⟨some (.number, Glyph.text taken), taken, rest⟩
  match gs.dropWhile isDigit with
  | point :: rest =>
    if point.is '.' && rest.head?.any isDigit then
      make (whole ++ point :: rest.takeWhile isDigit) (rest.dropWhile isDigit)
    else make whole (point :: rest)
  | [] => make whole []

/-- Whether a glyph may stand inside a string. -/
def inString (g : Glyph) : Bool := !g.is '"' && !g.is '\n'

/-- A string, after its opening quote: everything up to the closing quote, on one line. -/
def string (pos : Pos) (opening : Glyph) (gs : List Glyph) : Except Error Piece :=
  let body := gs.takeWhile inString
  match gs.dropWhile inString with
  | closing :: rest =>
    if closing.is '"' then
      .ok ⟨some (.string, Glyph.text body), opening :: body ++ [closing], rest⟩
    else .error (.unterminatedString pos)
  | [] => .error (.unterminatedString pos)

/-- An operator: one of two characters if both match, otherwise one of a single character. -/
def operator (pos : Pos) (c : Char) (g : Glyph) (rest : List Glyph) : Except Error Piece :=
  let single : Except Error Piece :=
    match singles.lookup c with
    | some token => .ok ⟨some token, [g], rest⟩
    | none => .error (.unrecognized pos c)
  match rest with
  | next :: more =>
    match next.char?.bind fun d => doubles.lookup (c, d) with
    | some token => .ok ⟨some token, [g, next], more⟩
    | none => single
  | [] => single

/-- The piece that starts with a given glyph. -/
def piece (pos : Pos) (g : Glyph) (rest : List Glyph) : Except Error Piece :=
  match g.char? with
  | none => .error (.invalidByte pos (g.bytes.headD 0))
  | some c =>
    if c = '\n' || a.isBlank c then .ok ⟨none, [g], rest⟩
    else if c = commentSign then
      let inComment (h : Glyph) : Bool := !h.is '\n'
      .ok ⟨none, g :: rest.takeWhile inComment, rest.dropWhile inComment⟩
    else if a.isStart c then .ok (word a (g :: rest))
    else if c.isDigit then .ok (number (g :: rest))
    else if c = '"' then string pos g rest
    else operator pos c g rest

/-! ## Scanning -/

/-- The tokens of some glyphs that start at a place, in at most `fuel` pieces. -/
def scanFrom : Nat → Place → List Glyph → Except Error (List Token)
  | _, place, [] => .ok [⟨.eof, [], [], place.pos, place.offset⟩]
  | 0, _, _ :: _ => .ok []
  | fuel + 1, place, g :: rest => do
    let p ← piece a place.pos g rest
    let more ← scanFrom fuel (place.afterAll p.taken) p.rest
    match p.token? with
    | some (kind, text) =>
      return ⟨kind, text, Glyph.text p.taken, place.pos, place.offset⟩ :: more
    | none => return more

/-- The tokens of a source over an alphabet, the last and only the last of kind `eof`. -/
def scanIn (source : Text) : Except Error (List Token) :=
  let glyphs := (a.composed source).glyphs
  scanFrom a glyphs.length {} glyphs

end Reader

/-- The tokens of a source. -/
def scan (source : Text) : Except Error (List Token) := scanIn .standard source

end Token

end PseudoCost
