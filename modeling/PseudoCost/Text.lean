/-!
# Texts

Everything the analyser reads and writes is a sequence of bytes: a source file may hold bytes that
are not valid UTF-8, and a string literal or a source line carries them unchanged into the report.
So a `Text` is a list of bytes. String constants coerce to it through their UTF-8 encoding, and
texts are ordered bytewise, which for valid texts is the order of their code points.

The module holds the operations the rest of the library needs on whole texts: decimal numbers,
lines, trimming, padding, joining, and sorted lists of distinct texts.
-/

namespace PseudoCost

/-- A sequence of bytes, in UTF-8 wherever it is valid. -/
abbrev Text := List UInt8

namespace Text

/-- The UTF-8 encoding of a string. -/
def ofString (s : String) : Text := s.toUTF8.data.toList

instance : Coe String Text := ⟨ofString⟩

/-- The byte of an ASCII character. -/
def byte (c : Char) : UInt8 := c.toNat.toUInt8

/-- The byte that ends a line. -/
def newline : UInt8 := 10

/-! ## Numbers -/

/-- A natural number in decimal. -/
def ofNat (n : Nat) : Text := (Nat.toDigits 10 n).map byte

/-- An integer in decimal, with a minus sign when it is negative. -/
def ofInt : Int → Text
  | .ofNat n => ofNat n
  | .negSucc n => byte '-' :: ofNat (n + 1)

/-- Whether a byte is an ASCII digit. -/
def isDigit (b : UInt8) : Bool := 48 ≤ b && b ≤ 57

/-- The value of a run of decimal digits, most significant first. -/
def digitsValue (digits : Text) : Nat :=
  digits.foldl (fun n b => 10 * n + (b.toNat - 48)) 0

/-! ## Lines and layout -/

/-- The lines of a text. A newline ends a line, so a final newline opens no further line. -/
def lines : Text → List Text
  | [] => []
  | b :: rest =>
    if b = newline then [] :: lines rest
    else
      match lines rest with
      | [] => [[b]]
      | line :: more => (b :: line) :: more

/-- Space, tab and carriage return, the bytes trimmed from a source line. -/
def isMargin (b : UInt8) : Bool := b == 32 || b == 9 || b == 13

/-- The text without margin bytes at either end. -/
def trim (t : Text) : Text :=
  ((t.dropWhile isMargin).reverse.dropWhile isMargin).reverse

/-- A run of spaces. -/
def spaces (n : Nat) : Text := List.replicate n 32

/-- The text with spaces before it up to a width in bytes. -/
def padLeft (width : Nat) (t : Text) : Text := spaces (width - t.length) ++ t

/-- The text with spaces after it up to a width in bytes. -/
def padRight (width : Nat) (t : Text) : Text := t ++ spaces (width - t.length)

/-- The texts one after another, with a separator between neighbours. -/
def join (separator : Text) (parts : List Text) : Text := separator.intercalate parts

/-- The part of a text before its first NUL byte. -/
def beforeNul (t : Text) : Text := t.takeWhile (· != 0)

/-- The byte with an ASCII capital letter made small. -/
def lowerByte (b : UInt8) : UInt8 := if 65 ≤ b && b ≤ 90 then b + 32 else b

/-- The text with ASCII capital letters made small. -/
def lower (t : Text) : Text := t.map lowerByte

/-! ## Sorted lists of distinct texts -/

/-- Puts a text at its place in a sorted list, unless the list holds it already. -/
def insertDistinct (t : Text) : List Text → List Text
  | [] => [t]
  | u :: us =>
    if t < u then t :: u :: us
    else if t = u then u :: us
    else u :: insertDistinct t us

/-- The distinct members of a list, in bytewise order. -/
def sortDistinct (ts : List Text) : List Text := ts.foldr insertDistinct []

end Text

/-- A name as the analysis compares it: the case-folded spelling of an identifier. -/
abbrev Name := Text

end PseudoCost
