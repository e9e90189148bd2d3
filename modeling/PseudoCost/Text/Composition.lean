import PseudoCost.Text.Glyph

/-!
# Canonical composition

A source is read in its composed form: a letter followed by a combining mark is the letter with
that mark, and a few compatibility symbols are the letters they stand for. The table holds the
compositions that give a Latin-1 letter or a negated relation. A text that is not valid UTF-8 is
left as it is.
-/

namespace PseudoCost.Composition

/-- The symbols that are another spelling of a letter: ohm, kelvin and ångström. -/
def singletons : List (Char × Char) :=
  [(Char.ofNat 0x2126, Char.ofNat 0x3A9), (Char.ofNat 0x212A, 'K'),
   (Char.ofNat 0x212B, Char.ofNat 0xC5)]

/-- For each mark, the bases it composes with and the results, in the same order. -/
def marks : List (Nat × String × String) :=
  [(0x300, "AEIOUaeiou", "ÀÈÌÒÙàèìòù"),
   (0x301, "AEIOUYaeiouy", "ÁÉÍÓÚÝáéíóúý"),
   (0x302, "AEIOUaeiou", "ÂÊÎÔÛâêîôû"),
   (0x303, "ANOano", "ÃÑÕãñõ"),
   (0x308, "AEIOUaeiouy", "ÄËÏÖÜäëïöüÿ"),
   (0x30A, "Aa", "Åå"),
   (0x327, "Cc", "Çç"),
   (0x338, "=<>", "≠≮≯")]

/-- The composition of a base and a mark, if there is one. -/
def pair? (base mark : Char) : Option Char :=
  match marks.lookup mark.toNat with
  | some (bases, results) => (bases.toList.zip results.toList).lookup base
  | none => none

/-- Composes every base with the mark that follows it, where they compose. -/
def compose : List Char → List Char
  | base :: mark :: rest =>
    match pair? base mark with
    | some c => c :: compose rest
    | none => base :: compose (mark :: rest)
  | short => short

/-- The composed form of a list of characters. -/
def ofChars (cs : List Char) : List Char :=
  compose (cs.map fun c => (singletons.lookup c).getD c)

end PseudoCost.Composition

namespace PseudoCost

/-- The composed form of a text; the text itself when it is not valid UTF-8. -/
def Text.composed (t : Text) : Text :=
  match t.glyphs.mapM Glyph.char? with
  | some cs => (Composition.ofChars cs).flatMap String.utf8EncodeChar
  | none => t

end PseudoCost
