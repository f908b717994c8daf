/-!
# Messages of a computation

A computation may leave messages behind beside its result. It is run against a
threshold, and only messages of at least that level are kept; the text of a
message that is not kept is never put together. The result of a computation is
one thing and its messages are another.
-/

namespace SymbolicForms

/-- The levels of messages, from the most talkative one; `off` is a threshold only. -/
inductive LogLevel where
  /-- Every step. -/
  | debug
  /-- Summaries. -/
  | info
  /-- Steps that failed and were left out. -/
  | warn
  /-- Failures. -/
  | error
  /-- Nothing at all. -/
  | off
  deriving DecidableEq, Repr

namespace LogLevel

/-- All levels in increasing order. -/
def all : List LogLevel := [.debug, .info, .warn, .error, .off]

/-- The name of a level. -/
def name : LogLevel → String
  | .debug => "debug"
  | .info => "info"
  | .warn => "warn"
  | .error => "error"
  | .off => "off"

/-- The rank of a level. -/
def rank : LogLevel → Nat
  | .debug => 0
  | .info => 1
  | .warn => 2
  | .error => 3
  | .off => 4

/-- The level of a name; any other text keeps the fallback. -/
def parse (text : String) (fallback : LogLevel) : LogLevel :=
  (all.find? fun level => text == level.name).getD fallback

/-- Messages of a level are kept at a threshold. -/
def keeps (threshold level : LogLevel) : Bool :=
  level != .off && decide (threshold.rank ≤ level.rank)

/-- The name of a level is read as that level. -/
theorem parse_name (level fallback : LogLevel) : parse level.name fallback = level := by
  cases level <;> rfl

end LogLevel

/-- A message. -/
structure Message where
  /-- How important the message is. -/
  level : LogLevel
  /-- The part of the program that speaks. -/
  tag : String
  /-- What it says. -/
  text : String
  deriving DecidableEq, Repr

/-- The line of a message. -/
def Message.line (message : Message) : String :=
  "[symx:" ++ message.level.name ++ "] " ++ message.tag ++ ": " ++ message.text

/-- A computation with messages, given the threshold at which they are kept. -/
def Logged (α : Type) : Type := LogLevel → α × List Message

namespace Logged

variable {α β : Type}

/-- The result and the messages at a threshold. -/
def run (action : Logged α) (threshold : LogLevel) : α × List Message := action threshold

/-- The result at a threshold. -/
def value (action : Logged α) (threshold : LogLevel) : α := (action.run threshold).1

/-- The messages at a threshold. -/
def messages (action : Logged α) (threshold : LogLevel) : List Message := (action.run threshold).2

/-- A result without messages, and one computation after another with the messages of both. -/
instance : Monad Logged where
  pure result := fun _ => (result, [])
  bind action next := fun threshold =>
    let first := action threshold
    let second := next first.1 threshold
    (second.1, first.2 ++ second.2)

/-- Leave one message for each text. -/
def emitAll (level : LogLevel) (tag : String) (texts : Unit → List String) : Logged Unit :=
  fun threshold => ((), if threshold.keeps level then (texts ()).map (Message.mk level tag) else [])

/-- Leave a message. -/
def emit (level : LogLevel) (tag : String) (text : Unit → String) : Logged Unit :=
  emitAll level tag fun _ => [text ()]

@[simp] theorem value_pure (result : α) (threshold : LogLevel) :
    (pure result : Logged α).value threshold = result := rfl

@[simp] theorem messages_pure (result : α) (threshold : LogLevel) :
    (pure result : Logged α).messages threshold = [] := rfl

@[simp] theorem value_bind (action : Logged α) (next : α → Logged β) (threshold : LogLevel) :
    (action >>= next).value threshold = (next (action.value threshold)).value threshold := rfl

@[simp] theorem messages_bind (action : Logged α) (next : α → Logged β) (threshold : LogLevel) :
    (action >>= next).messages threshold =
      action.messages threshold ++ (next (action.value threshold)).messages threshold := rfl

@[simp] theorem messages_emitAll (level : LogLevel) (tag : String) (texts : Unit → List String)
    (threshold : LogLevel) : (emitAll level tag texts).messages threshold =
      if threshold.keeps level then (texts ()).map (Message.mk level tag) else [] := rfl

@[simp] theorem messages_emit (level : LogLevel) (tag : String) (text : Unit → String)
    (threshold : LogLevel) : (emit level tag text).messages threshold =
      if threshold.keeps level then [⟨level, tag, text ()⟩] else [] := rfl

end Logged

end SymbolicForms
