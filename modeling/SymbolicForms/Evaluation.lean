import SymbolicForms.Expression

/-!
# Values of expressions

An expression has a value once its variables are bound. Evaluation fails at the
first variable without a value or function without a meaning, operands being
taken from left to right.
-/

namespace SymbolicForms

/-- The functions with a meaning. -/
inductive KnownFunction where
  /-- Sine. -/
  | sin
  /-- Cosine. -/
  | cos
  /-- Tangent. -/
  | tan
  /-- Cotangent. -/
  | cot
  /-- Secant. -/
  | sec
  /-- Cosecant. -/
  | csc
  /-- Exponential. -/
  | exp
  /-- Natural logarithm. -/
  | ln
  /-- Logarithm to base ten. -/
  | log
  /-- Square root. -/
  | sqrt
  /-- Magnitude. -/
  | abs
  /-- Hyperbolic sine. -/
  | sinh
  /-- Hyperbolic cosine. -/
  | cosh
  /-- Hyperbolic tangent. -/
  | tanh
  /-- Inverse sine. -/
  | arcsin
  /-- Inverse cosine. -/
  | arccos
  /-- Inverse tangent. -/
  | arctan
  deriving DecidableEq, Repr

namespace KnownFunction

/-- The names of the functions with a meaning; the inverse functions have two. -/
def names : List (String × KnownFunction) :=
  [("sin", .sin), ("cos", .cos), ("tan", .tan), ("cot", .cot), ("sec", .sec), ("csc", .csc),
    ("exp", .exp), ("ln", .ln), ("log", .log), ("sqrt", .sqrt), ("abs", .abs), ("sinh", .sinh),
    ("cosh", .cosh), ("tanh", .tanh), ("asin", .arcsin), ("arcsin", .arcsin), ("acos", .arccos),
    ("arccos", .arccos), ("atan", .arctan), ("arctan", .arctan)]

/-- The function of a name. -/
def ofName? (name : String) : Option KnownFunction := names.lookup name

/-- The value of a function. -/
def apply {K : Type} [Elementary K] : KnownFunction → K → K
  | .sin, value => Elementary.sin value
  | .cos, value => Elementary.cos value
  | .tan, value => Elementary.tan value
  | .cot, value => Scalar.one / Elementary.tan value
  | .sec, value => Scalar.one / Elementary.cos value
  | .csc, value => Scalar.one / Elementary.sin value
  | .exp, value => Elementary.exp value
  | .ln, value => Elementary.ln value
  | .log, value => Elementary.log value
  | .sqrt, value => Elementary.sqrt value
  | .abs, value => Scalar.abs value
  | .sinh, value => Elementary.sinh value
  | .cosh, value => Elementary.cosh value
  | .tanh, value => Elementary.tanh value
  | .arcsin, value => Elementary.arcsin value
  | .arccos, value => Elementary.arccos value
  | .arctan, value => Elementary.arctan value

end KnownFunction

/-- The causes for which an expression has no value. -/
inductive EvalError where
  /-- A variable without a value. -/
  | unbound (name : String)
  /-- A function without a meaning. -/
  | unknown (name : String)
  deriving DecidableEq, Repr

/-- The message of an evaluation error. -/
def EvalError.message : EvalError → String
  | .unbound name => "unbound variable '" ++ name ++ "'"
  | .unknown name => "unknown function '" ++ name ++ "'"

/-- Values of variables. -/
abbrev Bindings (K : Type) := String → Option K

/-- The bindings of a list; of two values for one name the later one holds. -/
def Bindings.ofList {K : Type} (values : List (String × K)) : Bindings K :=
  fun name => values.reverse.lookup name

variable {K : Type} [Elementary K]

/-- The value of a named function. -/
def applyFunction (name : String) (value : K) : Except EvalError K :=
  match KnownFunction.ofName? name with
  | some function => .ok (function.apply value)
  | none => .error (.unknown name)

/-- The value of an expression. -/
def Expr.evaluate (bindings : Bindings K) : Expr K → Except EvalError K
  | .const value => .ok value
  | .var name =>
    match bindings name with
    | some value => .ok value
    | none => .error (.unbound name)
  | .func name argument =>
    match evaluate bindings argument with
    | .ok value => applyFunction name value
    | .error cause => .error cause
  | .binary op left right =>
    match evaluate bindings left with
    | .error cause => .error cause
    | .ok leftValue =>
      match evaluate bindings right with
      | .error cause => .error cause
      | .ok rightValue => .ok (op.apply leftValue rightValue)

end SymbolicForms
