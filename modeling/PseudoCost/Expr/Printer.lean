import PseudoCost.Expr

/-!
# The text of an expression

Reports show expressions in one spelling, with parentheses only around an operand whose operator
binds more loosely than its parent's, or equally on the right-hand side.
-/

namespace PseudoCost

/-- How tightly a binary operator binds; a larger number binds more tightly. -/
def BinaryOp.precedence : BinaryOp → Nat
  | .or => 1
  | .and => 2
  | .eq | .ne => 3
  | .lt | .le | .gt | .ge => 4
  | .add | .sub => 5
  | .mul | .div | .intDiv | .mod => 6
  | .pow => 8

namespace Expr

/-- A text in parentheses, if they are wanted. -/
def parenthesized (wanted : Bool) (t : Text) : Text := if wanted then "(" ++ t ++ ")" else t

/-- Whether an operand needs parentheses below an operator of the given precedence. -/
def isLooser (precedence : Nat) (right : Bool) (e : Expr) : Bool :=
  e.applies fun op => op.precedence < precedence || (right && op.precedence == precedence)

mutual

/-- The text of an expression. -/
def text : Expr → Text
  | .number _ value => value.literalText
  | .string _ value => "\"" ++ value ++ "\""
  | .bool _ value => if value then "true" else "false"
  | .null _ => "null"
  | .name _ n => n
  | .call _ callee _ args => callee ++ "(" ++ Text.join ", " (textsOf args) ++ ")"
  | .index _ base subscript => base.text ++ "[" ++ subscript.text ++ "]"
  | .field _ base f => base.text ++ "." ++ f
  | .range _ low high => low.text ++ ".." ++ high.text
  | .binary _ op lhs rhs =>
    parenthesized (lhs.isLooser op.precedence false) lhs.text ++ " " ++ op.text ++ " "
      ++ parenthesized (rhs.isLooser op.precedence true) rhs.text
  | .unary _ .ceil operand => "⌈" ++ operand.text ++ "⌉"
  | .unary _ .floor operand => "⌊" ++ operand.text ++ "⌋"
  | .unary _ .not operand => "not " ++ parenthesized (operand.applies fun _ => true) operand.text
  | .unary _ .neg operand => "-" ++ parenthesized (operand.applies fun _ => true) operand.text
  | .unary _ .plus operand => "+" ++ parenthesized (operand.applies fun _ => true) operand.text

/-- The texts of several expressions. -/
def textsOf : List Expr → List Text
  | [] => []
  | e :: es => e.text :: textsOf es

end

end Expr

end PseudoCost
