import PseudoCost.Text

/-!
# Glyphs

A text is read as a list of glyphs. A glyph is a Unicode scalar value, or, where the bytes are not
UTF-8, a maximal run of bytes that could still have become one; either counts as one column. Every
glyph keeps the bytes it was read from, so joining the bytes of `Text.glyphs t` gives `t` back.

The reader is a machine that takes one byte at a time. Between bytes it knows how many
continuation bytes the open character still needs, and in which range the next one must lie.
-/

namespace PseudoCost

/-- One column of a text: its character, if its bytes are well formed, and the bytes themselves. -/
structure Glyph where
  char? : Option Char
  bytes : Text
deriving Repr, DecidableEq

namespace Glyph

/-- A glyph for bytes that are not UTF-8. -/
def illFormed (bytes : Text) : Glyph := ⟨none, bytes⟩

/-- Whether the glyph is the given character. -/
def is (g : Glyph) (c : Char) : Bool := g.char? == some c

/-- Whether the glyph is a character with the given property. -/
def holds (p : Char → Bool) (g : Glyph) : Bool := g.char?.any p

/-- The bytes of a list of glyphs. -/
def text (glyphs : List Glyph) : Text := glyphs.flatMap bytes

/-! ## Reading bytes -/

/-- A character whose first bytes have been read. The next byte must lie between `low` and `high`,
and `more` continuation bytes are to follow it. -/
structure Partial where
  read : Text
  code : Nat
  more : Nat
  low : UInt8
  high : UInt8
deriving Repr, DecidableEq

/-- What reading one byte does: the glyphs that it completes, and the character it leaves open. -/
structure Step where
  done : List Glyph
  left : Option Partial
deriving Repr, DecidableEq

/-- Takes the first byte of a character. The ranges leave out overlong forms, surrogates and
everything above the last code point. -/
def Step.first (b : UInt8) : Step :=
  let opens (code more : Nat) (low high : UInt8) : Step :=
    ⟨[], some ⟨[b], code, more, low, high⟩⟩
  let stray : Step := ⟨[illFormed [b]], none⟩
  if b < 0x80 then ⟨[⟨some (Char.ofNat b.toNat), [b]⟩], none⟩
  else if b < 0xC2 then stray
  else if b < 0xE0 then opens (b.toNat - 0xC0) 0 0x80 0xBF
  else if b = 0xE0 then opens 0 1 0xA0 0xBF
  else if b = 0xED then opens 13 1 0x80 0x9F
  else if b < 0xF0 then opens (b.toNat - 0xE0) 1 0x80 0xBF
  else if b = 0xF0 then opens 0 2 0x90 0xBF
  else if b < 0xF4 then opens (b.toNat - 0xF0) 2 0x80 0xBF
  else if b = 0xF4 then opens 4 2 0x80 0x8F
  else stray

/-- Takes a byte after the open part of a character. A byte outside the range closes that part as
ill formed and is itself a first byte. -/
def Step.next (p : Partial) (b : UInt8) : Step :=
  if p.low ≤ b ∧ b ≤ p.high then
    let code := 64 * p.code + (b.toNat - 0x80)
    match p.more with
    | 0 => ⟨[⟨some (Char.ofNat code), p.read ++ [b]⟩], none⟩
    | more + 1 => ⟨[], some ⟨p.read ++ [b], code, more, 0x80, 0xBF⟩⟩
  else
    let restart := Step.first b
    ⟨illFormed p.read :: restart.done, restart.left⟩

/-- The glyphs of a list of bytes, given the character that is still open, if any. -/
def readFrom : Option Partial → Text → List Glyph
  | none, [] => []
  | some p, [] => [illFormed p.read]
  | open?, b :: rest =>
    let step := open?.elim (Step.first b) (Step.next · b)
    step.done ++ readFrom step.left rest

end Glyph

/-- The glyphs of a text. -/
def Text.glyphs (t : Text) : List Glyph := Glyph.readFrom none t

end PseudoCost
