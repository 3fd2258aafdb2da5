import StackLang.Lowering

/-!
# Lowering on a buffer

The same lowering on plain storage. The tokens of the source and of all expanded bodies are in
one buffer, and a position walks through it. What the queue of a lowering says about a token is
stored by number:

- every token has an origin, the number of the expansion it came from, or none if it is of the
  source;
- every expansion has the name of its macro and the number of the expansion that its invocation
  came from, so the trail of a token is found by following these links (`trail?`);
- an open block is the address of its word. The `do` of a loop that is still open keeps the
  address of its `while` in its own jump.

Nothing keeps these numbers in range but the way in which they come about. So every access is
checked here, and an access out of range is an outcome of its own (`Stop.outOfRange`).
-/

namespace StackLang

/-- The expansion of a macro. -/
structure Expansion where
  name : String
  /-- the number of the expansion that the invocation came from -/
  parent : Option Nat

/-- Why a lowering on a buffer ends. -/
inductive Stop
  | returned (result : Except CompileError Program)
  /-- there is nothing where an index, a slice or a link leads -/
  | outOfRange

/-- The end with an error. -/
def Stop.failed (e : CompileError) : Stop :=
  .returned (.error e)

/-- The storage of a lowering. -/
structure Buffer where
  tokens : List Token
  /-- for every token, the number of the expansion that it came from -/
  origins : List (Option Nat)
  /-- all expansions so far, in order -/
  frames : List Expansion
  /-- the index of the next token -/
  position : Nat
  program : Program
  /-- the addresses of the words that have opened blocks, innermost first -/
  blocks : List Nat
  macros : MacroTable (List Token)
  /-- the number of expansions so far -/
  expansions : Nat

namespace Buffer

/-! ## Checked access -/

/-- The elements from the index `i` on and before the index `j`. -/
def slice? {α : Type} (xs : List α) (i j : Nat) : Option (List α) :=
  if i ≤ j ∧ j ≤ xs.length then some ((xs.take j).drop i) else none

/-- The list with the elements `ys` put in at the index `i`. -/
def splice? {α : Type} (xs : List α) (i : Nat) (ys : List α) : Option (List α) :=
  if i ≤ xs.length then some (xs.take i ++ (ys ++ xs.drop i)) else none

/-- The names of the macros whose expansion something came from, innermost first. There are none if
an expansion is missing, or if a link does not lead back. -/
def trail? (frames : List Expansion) (origin : Option Nat) : Option (List String) :=
  match origin with
  | none => some []
  | some k =>
    match frames[k]? with
    | none => none
    | some ⟨name, parent⟩ =>
      if parent.all (· < k) then (trail? frames parent).map (name :: ·) else none
termination_by origin.elim 0 (· + 1)
decreasing_by cases parent <;> simp_all

/-! ## One turn -/

/-- Everything is in the buffer and nothing has been done. -/
def start (tokens : List Token) : Buffer where
  tokens := tokens
  origins := tokens.map fun _ => none
  frames := []
  position := 0
  program := .empty
  blocks := []
  macros := .empty
  expansions := 0

/-- Put a body into the buffer, for the token at the position. -/
def insertBody (b : Buffer) (placement : Placement) (name : String) (parent : Option Nat)
    (body : List Token) : Except Stop Buffer :=
  let origins := body.map fun _ => some b.frames.length
  let next : Buffer := { b with
    frames := b.frames ++ [⟨name, parent⟩]
    position := b.position + 1
    expansions := b.expansions + 1 }
  match placement with
  | .tail => .ok { next with tokens := b.tokens ++ body, origins := b.origins ++ origins }
  | .inPlace =>
    match splice? b.tokens (b.position + 1) body, splice? b.origins (b.position + 1) origins with
    | some tokens, some origins => .ok { next with tokens, origins }
    | _, _ => .error .outOfRange

/-- Expand the macro that the token at the position invokes. -/
def expand (b : Buffer) (o : Options) (t : Token) : Except Stop Buffer :=
  match b.origins[b.position]? with
  | none => .error .outOfRange
  | some parent =>
    match trail? b.frames parent with
    | none => .error .outOfRange
    | some trail =>
      if t.word.text ∈ trail then .error (.failed (.recursiveMacro t.location t.word.text))
      else
        match o.limit.filter (· < b.expansions + 1) with
        | some limit => .error (.failed (.expansionLimit t.location t.word.text limit))
        | none =>
          match b.macros.get? t.word with
          | none => .error (.failed (.internal ("expanding unknown macro `" ++ t.word.text ++ "`")))
          | some body => b.insertBody o.placement t.word.text parent body

/-- Take in the definition whose keyword is at the position. -/
def define (b : Buffer) (keyword : Token) : Except Stop Buffer :=
  let first := b.position + 2
  match b.tokens[b.position + 1]? with
  | none => .error (.failed (.malformedMacro keyword.location "end of input"))
  | some label =>
    match b.macros.checkName label with
    | .error e => .error (.failed e)
    | .ok name =>
      match slice? b.tokens first b.tokens.length with
      | none => .error .outOfRange
      | some rest =>
        match rest.findIdx? (·.isEnd) with
        | none => .error (.failed (.incompleteMacro label.location name))
        | some length =>
          match slice? b.tokens first (first + length) with
          | none => .error .outOfRange
          | some body =>
            match b.macros.define label body with
            | .error e => .error (.failed e)
            | .ok macros => .ok { b with position := first + length + 1, macros }

/-- Append an operation and set the jumps whose targets it settles. -/
def assemble (program : Program) (blocks : List Nat) (op : Operation) :
    Except Stop (Program × List Nat) :=
  let here := program.size
  let next := program.push op
  match op.opcode, blocks with
  | .ifBlock, _ | .whileLoop, _ => .ok (next, here :: blocks)
  | .elseBlock, [] | .doLoop, [] | .endBlock, [] =>
    .error (.failed (.noOpenBlock op.location op.opcode))
  | .elseBlock, addr :: outer =>
    match next.get? addr with
    | none => .error .outOfRange
    | some opening =>
      if opening.opcode = .ifBlock then .ok (next.setJump addr (some (here + 1)), here :: outer)
      else .error (.failed (.elseWithoutIf op.location))
  | .doLoop, addr :: outer =>
    match next.get? addr with
    | none => .error .outOfRange
    | some opening =>
      if opening.opcode = .whileLoop then .ok (next.setJump here (some addr), here :: outer)
      else .error (.failed (.doWithoutWhile op.location))
  | .endBlock, addr :: outer =>
    match next.get? addr with
    | none => .error .outOfRange
    | some opening =>
      match opening.opcode with
      | .ifBlock | .elseBlock =>
        .ok ((next.setJump addr (some here)).setJump here (some (here + 1)), outer)
      | .doLoop => .ok ((next.setJump here opening.jump).setJump addr (some (here + 1)), outer)
      | other => .error (.failed (.unbalancedBlock op.location
          ("`" ++ Opcode.endBlock.text ++ "` cannot close a `" ++ other.text ++ "` block")))
  | _, _ => .ok (next, blocks)

/-- Append the operation of the token at the position. -/
def emit (b : Buffer) (op : Operation) : Except Stop Buffer :=
  match assemble b.program b.blocks op with
  | .error stop => .error stop
  | .ok (program, blocks) => .ok { b with program, blocks, position := b.position + 1 }

/-- How a lowering ends whose tokens are used up. -/
def finish (b : Buffer) : Stop :=
  match b.blocks with
  | [] => .returned (.ok b.program)
  | addr :: _ =>
    match b.program.get? addr with
    | none => .outOfRange
    | some op => .failed (.neverClosed op.location op.opcode)

/-- The turn of the token at the position, or the end if there is none. -/
def step (b : Buffer) (o : Options) : Except Stop Buffer :=
  if b.position < b.tokens.length then
    match b.tokens[b.position]? with
    | none => .error .outOfRange
    | some t =>
      if b.macros.contains t.word then b.expand o t
      else
        match t.operation with
        | .error e => .error (.failed e)
        | .ok op => if op.opcode = .macroWord then b.define t else b.emit op
  else .error b.finish

/-- The storage after `n` turns, or the end that came before. -/
def after (o : Options) (ts : List Token) : Nat → Except Stop Buffer
  | 0 => .ok (start ts)
  | n + 1 =>
    match after o ts n with
    | .error stop => .error stop
    | .ok b => b.step o

end Buffer

end StackLang
