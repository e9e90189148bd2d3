import PseudoCost.Text

/-!
# JSON values

A JSON value and its compact text. Strings are byte sequences: quotes, backslashes and control
bytes are escaped, and every other byte stands for itself, so text that is valid UTF-8 stays so.
Members of an object keep their order.
-/

namespace PseudoCost

/-- A JSON value. -/
inductive JsonValue where
  | null
  | bool (value : Bool)
  | number (value : Int)
  | string (value : Text)
  | array (items : List JsonValue)
  | object (members : List (Text × JsonValue))

namespace JsonValue

/-! ## Strings -/

/-- A digit of base sixteen, with capital letters. -/
def hexDigit (n : Nat) : UInt8 := (if n < 10 then 48 + n else 55 + n).toUInt8

/-- A byte inside a string. -/
def escapeByte (b : UInt8) : Text :=
  let backslash := Text.byte '\\'
  if b = 34 then [backslash, 34]
  else if b = backslash then [backslash, backslash]
  else if b = 8 then [backslash, Text.byte 'b']
  else if b = 12 then [backslash, Text.byte 'f']
  else if b = 10 then [backslash, Text.byte 'n']
  else if b = 13 then [backslash, Text.byte 'r']
  else if b = 9 then [backslash, Text.byte 't']
  else if b < 32 then
    backslash :: (("u00" : Text) ++ [hexDigit (b.toNat / 16), hexDigit (b.toNat % 16)])
  else [b]

/-- The bytes of a string as they stand between its quotes. -/
def escape (t : Text) : Text := t.flatMap escapeByte

/-- A string with its quotes. -/
def quoted (t : Text) : Text := 34 :: (escape t ++ [34])

/-! ## Values -/

mutual

/-- The compact text of a value. -/
def render : JsonValue → Text
  | .null => "null"
  | .bool value => if value then "true" else "false"
  | .number value => Text.ofInt value
  | .string value => quoted value
  | .array items => "[" ++ renderItems items ++ "]"
  | .object members => "\x7b" ++ renderMembers members ++ "\x7d"

/-- The items of an array, with commas between them. -/
def renderItems : List JsonValue → Text
  | [] => []
  | [v] => render v
  | v :: vs => render v ++ "," ++ renderItems vs

/-- The members of an object, with commas between them. -/
def renderMembers : List (Text × JsonValue) → Text
  | [] => []
  | [(key, v)] => quoted key ++ ":" ++ render v
  | (key, v) :: ms => quoted key ++ ":" ++ render v ++ "," ++ renderMembers ms

end

end JsonValue

end PseudoCost
