import PseudoCost.Text

/-!
# Tokens

The words of the pseudocode dialect. A token has a kind, its canonical text (identifiers
case-folded, operators in one spelling), the lexeme as it stands in the source, and where it
starts: line, column, and byte offset. A list of tokens ends in a token of kind `eof`.
-/

namespace PseudoCost

/-- A place in a source: line and column, both counted from one, columns in characters. -/
structure Pos where
  line : Int
  col : Int
deriving Repr, DecidableEq

namespace Token

/-- The kinds of tokens: the end of the input, names and literals, keywords, operators and
punctuation. -/
inductive Kind where
  | eof | ident | number | string
  | beginWord | endWord | forWord | toWord | downtoWord | stepWord | doWord | whileWord
  | repeatWord | untilWord | ifWord | thenWord | elseWord | callWord | returnWord | andWord
  | orWord | notWord | modWord | divWord | procedureWord | lengthWord | swapWord | withWord
  | printWord | trueWord | falseWord | nullWord
  | assign | plus | minus | star | slash | caret | equal | notEqual | less | lessEqual
  | greater | greaterEqual | lparen | rparen | lbracket | rbracket | comma | semicolon | colon
  | dot | dotDot | lceil | rceil | lfloor | rfloor
deriving Repr, DecidableEq

/-- The name of a kind in a token listing. -/
def Kind.label : Kind → Text
  | .eof => "Eof"
  | .ident => "Ident"
  | .number => "Number"
  | .string => "String"
  | .beginWord => "Begin"
  | .endWord => "End"
  | .forWord => "For"
  | .toWord => "To"
  | .downtoWord => "Downto"
  | .stepWord => "Step"
  | .doWord => "Do"
  | .whileWord => "While"
  | .repeatWord => "Repeat"
  | .untilWord => "Until"
  | .ifWord => "If"
  | .thenWord => "Then"
  | .elseWord => "Else"
  | .callWord => "Call"
  | .returnWord => "Return"
  | .andWord => "And"
  | .orWord => "Or"
  | .notWord => "Not"
  | .modWord => "Mod"
  | .divWord => "Div"
  | .procedureWord => "Procedure"
  | .lengthWord => "Length"
  | .swapWord => "Swap"
  | .withWord => "With"
  | .printWord => "Print"
  | .trueWord => "True"
  | .falseWord => "False"
  | .nullWord => "Null"
  | .assign => "Assign"
  | .plus => "Plus"
  | .minus => "Minus"
  | .star => "Star"
  | .slash => "Slash"
  | .caret => "Caret"
  | .equal => "Equal"
  | .notEqual => "NotEqual"
  | .less => "Less"
  | .lessEqual => "LessEqual"
  | .greater => "Greater"
  | .greaterEqual => "GreaterEqual"
  | .lparen => "LParen"
  | .rparen => "RParen"
  | .lbracket => "LBracket"
  | .rbracket => "RBracket"
  | .comma => "Comma"
  | .semicolon => "Semicolon"
  | .colon => "Colon"
  | .dot => "Dot"
  | .dotDot => "DotDot"
  | .lceil => "LCeil"
  | .rceil => "RCeil"
  | .lfloor => "LFloor"
  | .rfloor => "RFloor"

/-- Every kind, in the order of declaration. -/
def Kind.all : List Kind :=
  [.eof, .ident, .number, .string, .beginWord, .endWord, .forWord, .toWord, .downtoWord,
   .stepWord, .doWord, .whileWord, .repeatWord, .untilWord, .ifWord, .thenWord, .elseWord,
   .callWord, .returnWord, .andWord, .orWord, .notWord, .modWord, .divWord, .procedureWord,
   .lengthWord, .swapWord, .withWord, .printWord, .trueWord, .falseWord, .nullWord, .assign,
   .plus, .minus, .star, .slash, .caret, .equal, .notEqual, .less, .lessEqual, .greater,
   .greaterEqual, .lparen, .rparen, .lbracket, .rbracket, .comma, .semicolon, .colon, .dot,
   .dotDot, .lceil, .rceil, .lfloor, .rfloor]

/-- The keywords, in the case-folded spelling in which they are recognised. -/
def keywords : List (Text × Kind) :=
  [("begin", .beginWord), ("end", .endWord), ("for", .forWord), ("to", .toWord),
   ("downto", .downtoWord), ("step", .stepWord), ("do", .doWord), ("while", .whileWord),
   ("repeat", .repeatWord), ("until", .untilWord), ("if", .ifWord), ("then", .thenWord),
   ("else", .elseWord), ("call", .callWord), ("return", .returnWord), ("and", .andWord),
   ("or", .orWord), ("not", .notWord), ("mod", .modWord), ("div", .divWord),
   ("length", .lengthWord), ("swap", .swapWord), ("with", .withWord), ("print", .printWord),
   ("true", .trueWord), ("false", .falseWord), ("null", .nullWord),
   ("procedure", .procedureWord), ("function", .procedureWord), ("algorithm", .procedureWord)]

/-- The kind of a case-folded word: a keyword's own kind, otherwise an identifier. -/
def Kind.ofWord (word : Text) : Kind := (keywords.lookup word).getD .ident

end Token

/-- A token of the source. -/
structure Token where
  kind : Token.Kind := .eof
  /-- The canonical spelling. -/
  text : Text := []
  /-- The spelling in the source. -/
  lexeme : Text := []
  pos : Pos := ⟨1, 1⟩
  /-- The byte offset at which the lexeme starts. -/
  offset : Nat := 0
deriving Repr, DecidableEq

/-- How a token is named in an error message. -/
def Token.describe (t : Token) : Text :=
  match t.kind with
  | .eof => "end of input"
  | .ident => "identifier '" ++ t.lexeme ++ "'"
  | .number => "number " ++ t.lexeme
  | .string => "string " ++ t.lexeme
  | _ => "'" ++ t.lexeme ++ "'"

end PseudoCost
