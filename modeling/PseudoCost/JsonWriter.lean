import PseudoCost.JsonValue

/-!
# Writing JSON

JSON is written piece by piece: keys, values, and the brackets around objects and arrays. The writer
remembers one bit beside the text, whether a comma belongs in front of what comes next. A value or
a closing bracket sets it, a key or an opening bracket clears it. Nothing checks that the pieces
make a value; that is up to whoever writes them.
-/

namespace PseudoCost

/-- What has been written, and whether a comma belongs in front of the next key or value. -/
structure JsonWriter where
  out : Array UInt8 := #[]
  needsComma : Bool := false

namespace JsonWriter

/-- Pieces of JSON, written one after another. -/
abbrev Writing := StateM JsonWriter Unit

/-- Adds to the text. -/
def put (t : Text) : Writing := modify fun w => { w with out := w.out ++ t }

/-- Says whether a comma belongs in front of what comes next. -/
def expectComma (needed : Bool) : Writing := modify fun w => { w with needsComma := needed }

/-- Parts what comes next from what stands before it. -/
def separate : Writing := do
  if (← get).needsComma then put ","
  expectComma true

/-! ## Keys and values -/

/-- The key of a member. -/
def key (k : Text) : Writing := do
  separate
  put (JsonValue.quoted k ++ ":")
  expectComma false

/-- A string. -/
def string (v : Text) : Writing := do
  separate
  put (JsonValue.quoted v)

/-- A whole number. -/
def number (v : Int) : Writing := do
  separate
  put (Text.ofInt v)

/-- A truth value. -/
def boolean (v : Bool) : Writing := do
  separate
  put (if v then "true" else "false")

/-- Null. -/
def null : Writing := do
  separate
  put "null"

/-! ## Brackets -/

/-- An opening bracket. -/
def opening (bracket : Char) : Writing := do
  separate
  put [Text.byte bracket]
  expectComma false

/-- A closing bracket. -/
def closing (bracket : Char) : Writing := do
  put [Text.byte bracket]
  expectComma true

/-! ## Members -/

/-- A member that is a string. -/
def field (k v : Text) : Writing := do
  key k
  string v

/-- A member that is a whole number. -/
def numberField (k : Text) (v : Int) : Writing := do
  key k
  number v

/-- A member that is an array of strings. -/
def strings (k : Text) (values : List Text) : Writing := do
  key k
  opening '['
  values.forM string
  closing ']'

/-- The text of what is written on an empty page. -/
def text (pieces : Writing) : Text := (pieces.run {}).2.out.toList

end JsonWriter

end PseudoCost
