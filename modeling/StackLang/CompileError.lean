import StackLang.Opcode
import StackLang.Location

/-!
# Compile errors

Every way in which compiling can fail. An error that a token caused carries the token's location,
and its message is the location, a colon and a description. The two errors without a location are
a file that could not be read and a defect of the compiler itself.
-/

namespace StackLang

/-- A reason why no program was produced. -/
inductive CompileError
  /-- a control word without the block it needs, or a block that is never closed -/
  | unbalancedBlock (location : Location) (reason : String)
  /-- an `else` where the innermost open block is no `if` -/
  | elseWithoutIf (location : Location)
  /-- a `do` where the innermost open block is no `while` -/
  | doWithoutWhile (location : Location)
  /-- a definition that is not followed by a name -/
  | malformedMacro (location : Location) (found : String)
  /-- a definition without an `end` -/
  | incompleteMacro (location : Location) (name : String)
  /-- a macro invoked inside its own expansion -/
  | recursiveMacro (location : Location) (name : String)
  | expansionLimit (location : Location) (name : String) (limit : Nat)
  /-- an identifier that is neither a builtin word nor a macro defined so far -/
  | undefinedWord (location : Location) (word : String)
  | macroRedefinition (location : Location) (name : String)
  /-- a definition whose name is a builtin word -/
  | reservedMacroName (location : Location) (name : String)
  | unreadableFile (path : String) (reason : String)
  | internal (text : String)
deriving DecidableEq

/-- The part of the compiler's job that an error belongs to. -/
inductive ErrorCategory
  /-- the structure of blocks and definitions -/
  | structural
  /-- the meaning of a name -/
  | naming
  /-- reading the source -/
  | reading
  /-- a defect of the compiler -/
  | defect
deriving DecidableEq

/-- What to show a user about an error at a place in the source. -/
structure Diagnostic where
  file : String
  row : Nat
  message : String
deriving DecidableEq

namespace CompileError

/-! ## Causes of an unbalanced block -/

/-- A control word that needs an open block where none is open. -/
def noOpenBlock (location : Location) (opcode : Opcode) : CompileError :=
  .unbalancedBlock location ("`" ++ opcode.text ++ "` without an open block")

/-- An `end` on a loop that has no `do` yet. -/
def endOfLoopHead (location : Location) : CompileError :=
  .unbalancedBlock location
    ("`" ++ Opcode.endBlock.text ++ "` cannot close a `" ++ Opcode.whileLoop.text ++ "` block")

/-- A block that is still open at the end of the input. -/
def neverClosed (location : Location) (opcode : Opcode) : CompileError :=
  .unbalancedBlock location ("`" ++ opcode.text ++ "` block is never closed with `end`")

/-! ## Texts -/

/-- The place in the source that an error is about. -/
def location? : CompileError → Option Location
  | unbalancedBlock l _ | elseWithoutIf l | doWithoutWhile l | malformedMacro l _
  | incompleteMacro l _ | recursiveMacro l _ | expansionLimit l _ _ | undefinedWord l _
  | macroRedefinition l _ | reservedMacroName l _ => some l
  | unreadableFile _ _ | internal _ => none

/-- What went wrong, without the place. -/
def description : CompileError → String
  | unbalancedBlock _ reason => reason
  | elseWithoutIf _ => "`else` can only be used inside `if` blocks"
  | doWithoutWhile _ => "`do` can only follow a `while` condition"
  | malformedMacro _ found => "expected macro name to be a word but found " ++ found
  | incompleteMacro _ name => "macro definition `" ++ name ++ "` incomplete"
  | recursiveMacro _ name => "macro `" ++ name ++ "` expands into itself"
  | expansionLimit _ name limit =>
    "macro expansion limit of " ++ Nat.repr limit ++ " exceeded while expanding `" ++ name ++ "`"
  | undefinedWord _ word => "undefined word `" ++ word ++ "`"
  | macroRedefinition _ name => "redefinition of macro `" ++ name ++ "`"
  | reservedMacroName _ name => "redefinition of builtin word `" ++ name ++ "`"
  | unreadableFile path reason => "cannot read " ++ path ++ ": " ++ reason
  | internal text => "Internal compiler error: " ++ text

/-- The full text of an error: its place, if it has one, and its description. -/
def message (e : CompileError) : String :=
  match e.location? with
  | some l => l.text ++ ": " ++ e.description
  | none => e.description

/-- A text without another one in front of it, or the text as it is if it does not begin so. -/
def withoutPrefix (front text : String) : String :=
  if front.toList.isPrefixOf text.toList then String.ofList (text.toList.drop front.length)
  else text

/-- The place apart from the rest of the full text, for errors that have a place. -/
def diagnostic? (e : CompileError) : Option Diagnostic :=
  e.location?.map fun l => ⟨l.file, l.row, withoutPrefix (l.text ++ ": ") e.message⟩

@[simp] theorem withoutPrefix_append (front rest : String) :
    withoutPrefix front (front ++ rest) = rest := by
  simp [withoutPrefix, ← String.length_toList]

/-- What is left of the full text is the description. -/
theorem diagnostic?_of_location? {e : CompileError} {l : Location} (h : e.location? = some l) :
    e.diagnostic? = some ⟨l.file, l.row, e.description⟩ := by
  simp [diagnostic?, message, h]

/-- The part of the compiler's job that an error belongs to. -/
def category : CompileError → ErrorCategory
  | unbalancedBlock _ _ | elseWithoutIf _ | doWithoutWhile _ | malformedMacro _ _
  | incompleteMacro _ _ | recursiveMacro _ _ | expansionLimit _ _ _ => .structural
  | undefinedWord _ _ | macroRedefinition _ _ | reservedMacroName _ _ => .naming
  | unreadableFile _ _ => .reading
  | internal _ => .defect

end CompileError

end StackLang
