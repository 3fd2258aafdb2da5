import StackLang.Location

/-!
# Compiler events

What the compiler reports about its progress while it runs: an event for each stage that has been
completed, and one for each macro that is defined or expanded.
-/

namespace StackLang

/-- Where the body of a macro is put when the macro is invoked. -/
inductive Placement
  /-- after every token that is still waiting, so the body runs last -/
  | tail
  /-- in the place of the invocation -/
  | inPlace
deriving DecidableEq

/-- The name of a placement in event messages. -/
def Placement.text : Placement → String
  | tail => "TailAppend"
  | inPlace => "Inline"

/-- How much attention an event deserves. -/
inductive Severity
  | trace
  | debug
  | warning
deriving DecidableEq

/-- Something that the compiler has done. -/
inductive Event
  | read (path : String) (bytes : Nat)
  | scanned (file : String) (tokens : Nat)
  | defined (location : Location) (name : String) (tokens : Nat)
  | expanding (location : Location) (name : String) (tokens : Nat) (placement : Placement)
  | generated (operations macros expansions : Nat)
  /-- a program was handed on without being checked -/
  | unverified (file : String)
deriving DecidableEq

namespace Event

/-- How much attention an event deserves. -/
def severity : Event → Severity
  | defined _ _ _ | expanding _ _ _ _ => .trace
  | read _ _ | scanned _ _ | generated _ _ _ => .debug
  | unverified _ => .warning

/-- The text of an event. -/
def message : Event → String
  | read path bytes => "read " ++ path ++ " (" ++ Nat.repr bytes ++ " bytes)"
  | scanned file tokens => file ++ ": scanned " ++ Nat.repr tokens ++ " tokens"
  | defined location name tokens =>
    location.text ++ ": defined macro `" ++ name ++ "` with " ++ Nat.repr tokens ++ " tokens"
  | expanding location name tokens placement =>
    location.text ++ ": expanding `" ++ name ++ "` (" ++ Nat.repr tokens ++ " tokens, "
      ++ placement.text ++ ")"
  | generated operations macros expansions =>
    "generated " ++ Nat.repr operations ++ " operations, " ++ Nat.repr macros ++ " macros, "
      ++ Nat.repr expansions ++ " expansions"
  | unverified file => file ++ ": IR verification skipped"

end Event

end StackLang
