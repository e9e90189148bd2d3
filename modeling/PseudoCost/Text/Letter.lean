/-!
# Letters

The Unicode properties an identifier depends on: which characters may start it, which may continue
it, which are white space, and how it is case-folded. The tables cover ASCII, Latin-1, the basic
Greek and Cyrillic alphabets, unified Han ideographs, the combining marks of Latin-1 letters,
Arabic digits, and the letters outside these blocks that fold into them. Composition replaces the
ohm, kelvin and ångström signs by letters, but they are letters themselves, and a source that is
not composed may hold them.
-/

namespace PseudoCost.Letter

/-- Whether the code point of a character lies in one of some closed ranges. -/
def inRanges (ranges : List (Nat × Nat)) (c : Char) : Bool :=
  ranges.any fun (low, high) => low ≤ c.toNat && c.toNat ≤ high

/-- The letters that may start an identifier. -/
def startRanges : List (Nat × Nat) :=
  [(0x41, 0x5A), (0x61, 0x7A), (0xAA, 0xAA), (0xB5, 0xB5), (0xBA, 0xBA),
   (0xC0, 0xD6), (0xD8, 0xF6), (0xF8, 0xFF), (0x130, 0x130), (0x17F, 0x17F),
   (0x391, 0x3A1), (0x3A3, 0x3A9), (0x3B1, 0x3C9), (0x410, 0x44F),
   (0x1E9E, 0x1E9E), (0x2126, 0x2126), (0x212A, 0x212B), (0x4E00, 0x9FA5),
   (0xFB01, 0xFB01), (0xFB06, 0xFB06)]

/-- The digits, marks and the middle dot that may continue an identifier but not start it. -/
def continueRanges : List (Nat × Nat) :=
  [(0x30, 0x39), (0xB7, 0xB7), (0x300, 0x303), (0x307, 0x308), (0x30A, 0x30A),
   (0x327, 0x327), (0x338, 0x338), (0x660, 0x669)]

/-- The white-space characters. -/
def blankRanges : List (Nat × Nat) :=
  [(0x09, 0x0D), (0x20, 0x20), (0x85, 0x85), (0xA0, 0xA0), (0x1680, 0x1680),
   (0x2000, 0x200A), (0x2028, 0x2029), (0x202F, 0x202F), (0x205F, 0x205F), (0x3000, 0x3000)]

/-- Whether a character may start an identifier: a letter or the underscore. -/
def isStart (c : Char) : Bool := c == '_' || inRanges startRanges c

/-- Whether a character may continue an identifier. -/
def isPart (c : Char) : Bool := isStart c || inRanges continueRanges c

/-- Whether a character is white space. -/
def isBlank (c : Char) : Bool := inRanges blankRanges c

/-! ## Case folding -/

/-- The letters whose folding is not one letter at a fixed distance. -/
def specialFolds : List (Char × List Char) :=
  [(Char.ofNat 0xB5, [Char.ofNat 0x3BC]), (Char.ofNat 0xDF, ['s', 's']),
   (Char.ofNat 0x3C2, [Char.ofNat 0x3C3]), (Char.ofNat 0x130, ['i', Char.ofNat 0x307]),
   (Char.ofNat 0x17F, ['s']), (Char.ofNat 0x1E9E, ['s', 's']),
   (Char.ofNat 0x2126, [Char.ofNat 0x3C9]), (Char.ofNat 0x212A, ['k']),
   (Char.ofNat 0x212B, [Char.ofNat 0xE5]), (Char.ofNat 0xFB01, ['f', 'i']),
   (Char.ofNat 0xFB06, ['s', 't'])]

/-- The capital letters whose small letter stands 32 places further. -/
def capitalRanges : List (Nat × Nat) :=
  [(0x41, 0x5A), (0xC0, 0xD6), (0xD8, 0xDE), (0x391, 0x3A1), (0x3A3, 0x3A9), (0x410, 0x42F)]

/-- Full case folding: a letter may fold to several. -/
def fold (c : Char) : List Char :=
  match specialFolds.lookup c with
  | some folded => folded
  | none => if inRanges capitalRanges c then [Char.ofNat (c.toNat + 32)] else [c]

end PseudoCost.Letter
