import StackLang.Assembly
import StackLang.Event
import StackLang.Macro.Body
import StackLang.Macro.Table
import StackLang.Queue

/-!
# One step of lowering

Tokens are taken from the front of a queue, which at first holds the tokens of the source.

- An identifier that names a macro is replaced by the body of the macro. Where the body enters
  the queue is a matter of choice (`Placement`).
- The word `macro` starts a definition, which is taken out of the queue whole. It needs a name
  and reaches to the next `end`.
- Any other builtin word or literal becomes an operation, which is appended to the program.

**Recursion.** Every token in the queue knows the macros whose expansion it came from. A macro
that is invoked inside its own expansion is an error, whatever the limit on expansions.
-/

namespace StackLang

/-- What can be chosen about a compilation. -/
structure Options where
  placement : Placement
  /-- the greatest number of expansions, if there is one -/
  limit : Option Nat
  /-- check the program before handing it on -/
  verify : Bool
deriving DecidableEq

/-- Bodies run last, there is no limit, and the program is checked. -/
def Options.default : Options :=
  ⟨.tail, none, true⟩

/-- The operation of a token that invokes no macro. -/
def Token.operation (t : Token) : Except CompileError Operation :=
  match t.word with
  | .intLiteral value => .ok (.pushInt value t.location)
  | .stringLiteral text => .ok (.pushStr text t.location)
  | .identifier name =>
    match Opcode.ofWord? name with
    | some opcode => .ok (.plain opcode t.location)
    | none => .error (.undefinedWord t.location name)

/-- The state of a lowering between two tokens. -/
structure Lowering where
  queue : Queue Pending
  macros : MacroTable MacroBody
  assembly : Assembly
  /-- the number of expansions so far -/
  expansions : Nat

namespace Lowering

/-- All tokens are waiting and nothing has been done. -/
def start (tokens : List Token) : Lowering where
  queue := .ofList (tokens.map (⟨·, []⟩))
  macros := .empty
  assembly := .empty
  expansions := 0

/-- Where the tokens of a body enter the queue. -/
def enqueue (placement : Placement) (queue : Queue Pending) (body : List Pending) :
    Queue Pending :=
  match placement with
  | .tail => queue.append body
  | .inPlace => queue.prepend body

/-- Put the body of the macro `name` into the queue for the token `i` that has just left it, if
the limit allows one more expansion. -/
def substitute (s : Lowering) (o : Options) (i : Pending) (name : String) (body : MacroBody) :
    Except CompileError (Lowering × Option Event) :=
  match o.limit.filter (· < s.expansions + 1) with
  | some limit => .error (.expansionLimit i.token.location name limit)
  | none =>
    .ok ({ s with
        queue := enqueue o.placement s.queue (body.pending name i.trail)
        expansions := s.expansions + 1 },
      some (.expanding i.token.location name body.tokens.length o.placement))

/-- Expand the macro `name`, invoked by the token `i` that has just left the queue, unless the
token came from an expansion of that macro. -/
def expand (s : Lowering) (o : Options) (i : Pending) (name : String) (body : MacroBody) :
    Except CompileError (Lowering × Option Event) :=
  if name ∈ i.trail then .error (.recursiveMacro i.token.location name)
  else s.substitute o i name body

/-- Take a definition out of the queue; its keyword, written at `location`, has just left it. -/
def define (s : Lowering) (location : Location) : Except CompileError (Lowering × Option Event) :=
  match s.queue.pop? with
  | none => .error (.malformedMacro location "end of input")
  | some (i, queue) =>
    match s.macros.checkName i.token with
    | .error e => .error e
    | .ok name =>
      match MacroBody.cut? queue.toList with
      | none => .error (.incompleteMacro i.token.location name)
      | some (body, rest) =>
        .ok ({ s with
            queue := .ofList rest
            macros := s.macros.insert name body },
          some (.defined i.token.location name body.tokens.length))

/-- Append the operation of a token. -/
def emit : Lowering → Operation → Except CompileError (Lowering × Option Event)
  | ⟨queue, macros, assembly, expansions⟩, op =>
    match assembly.place op with
    | .error e => .error e
    | .ok assembly => .ok (⟨queue, macros, assembly, expansions⟩, none)

/-- Deal with the token `i` that has just left the queue. A definition or an expansion is
reported. -/
def advance (s : Lowering) (o : Options) (i : Pending) :
    Except CompileError (Lowering × Option Event) :=
  match s.macros.invoked? i.token.word with
  | some (name, body) => s.expand o i name body
  | none =>
    match i.token.operation with
    | .error e => .error e
    | .ok op =>
      if op.opcode = .macroWord then s.define i.token.location else s.emit op

/-- What is reported about a lowering that has come to its end. -/
def summary (s : Lowering) (p : Program) : Event :=
  .generated p.size s.macros.size s.expansions

end Lowering

end StackLang
