import SymbolicForms.Expression

/-!
# Text of expressions

Numbers near an integer are written as that integer. Expressions are written
with the fewest parentheses that keep their structure, and a minus sign inside
is drawn to the front of its term: `a + (-k)*b` reads `a-k*b`. Beside this form
for readers there is a key with every operation in parentheses, which orders
and groups expressions.
-/

namespace SymbolicForms

namespace Op

/-- The sign of an operator. -/
def symbol : Op → String
  | .add => "+"
  | .sub => "-"
  | .mul => "*"
  | .div => "/"
  | .pow => "^"

/-- How tightly an operator binds. -/
def precedence : Op → Nat
  | .add => 1
  | .sub => 1
  | .mul => 2
  | .div => 2
  | .pow => 3

/-- An operand with the inner operator is grouped by itself under the outer one: it binds less
tightly, or equally at a place where the two do not associate. -/
def groups (outer : Op) (isLeft : Bool) (inner : Op) : Bool :=
  decide (inner.precedence < outer.precedence) ||
    (inner.precedence == outer.precedence &&
      (outer == .pow || (!isLeft && (outer == .sub || outer == .div))))

end Op

/-- Whole numbers from this magnitude on are written by their decimal text. -/
def integerTextLimit : Int := 1000000000000000

namespace Scalar

variable {K : Type} [Scalar K]

/-- The text of a number: an integer when it is near one of moderate size, else its decimal text. -/
def text (value : K) : String :=
  if near value (round value) && lt (abs value) (ofInt integerTextLimit) then
    toString (toInt (round value))
  else decimal value

end Scalar

/-- A text that begins with a minus sign. -/
def startsNegative (text : String) : Bool := text.front? == some '-'

/-- A text in parentheses. -/
def parenthesized (text : String) : String := "(" ++ text ++ ")"

namespace Expr

variable {K : Type}

/-- The operator at the root, if there is one. -/
def op? : Expr K → Option Op
  | .binary op _ _ => some op
  | _ => none

/-- The text of an operand. It is put in parentheses when its operator asks for it, or when a minus
sign at its start would touch the outer operator or lie under a power. -/
def operandText (outer : Op) (isLeft : Bool) (operand : Expr K) (text : String) : String :=
  let grouped := match operand.op? with
    | some inner => outer.groups isLeft inner
    | none => false
  if grouped || (startsNegative text && (!isLeft || outer == .pow)) then parenthesized text
  else text

/-- The text of two operands joined by an operator. -/
def infixText (op : Op) (left : Expr K) (leftText : String) (right : Expr K) (rightText : String) :
    String :=
  operandText op true left leftText ++ op.symbol ++ operandText op false right rightText

variable [Scalar K]

/-- The text of a number times an expression: the factors one and minus one are not written. -/
def scaledText (factor : K) (e : Expr K) (text : String) : String :=
  if Scalar.near factor (Scalar.ofInt (-1)) then "-" ++ operandText .mul true e text
  else if Scalar.isUnit factor then operandText .mul true e text
  else infixText .mul (.const factor) (Scalar.text factor) e text

/-- The text of an expression. -/
def render : Expr K → String
  | .const value => Scalar.text value
  | .var name => name
  | .func name argument => name ++ "(" ++ render argument ++ ")"
  | .binary .add left (.const value) =>
    if Scalar.lt value Scalar.zero then
      infixText .sub left (render left) (.const (-value)) (Scalar.text (-value))
    else infixText .add left (render left) (.const value) (Scalar.text value)
  | .binary .add left (.binary .mul (.const factor) right) =>
    if Scalar.lt factor Scalar.zero then
      if Scalar.isUnit (-factor) then infixText .sub left (render left) right (render right)
      else infixText .sub left (render left) (.mul (.const (-factor)) right)
        (scaledText (-factor) right (render right))
    else infixText .add left (render left) (.mul (.const factor) right)
      (scaledText factor right (render right))
  | .binary .mul (.const factor) right => scaledText factor right (render right)
  | .binary op left right => infixText op left (render left) right (render right)

/-- The key of an expression, with every operation in parentheses. -/
def key : Expr K → String
  | .const value => Scalar.text value
  | .var name => name
  | .func name argument => name ++ "(" ++ key argument ++ ")"
  | .binary op left right => "(" ++ key left ++ op.symbol ++ key right ++ ")"

end Expr

end SymbolicForms
