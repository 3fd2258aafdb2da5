import StackLang.Lowering
import StackLang.Program.Check
import StackLang.Source.Directory
import StackLang.Source.Session

/-!
# Compiling

From the text of a source file to a program: the text is read as tokens, the tokens are lowered,
and the program is checked before it is handed on, unless checking is switched off. Nothing is
remembered between two compilations.

The check is there in case lowering has a defect, so a program that fails it is reported as an
internal error, with the number of violations and the first of them.
-/

namespace StackLang

/-- The version of the language that is compiled. -/
def version : String :=
  "0.1.0"

/-- What an internal error says about a program that breaks the rules on programs. -/
def violationReport (file : String) (first : Violation) (count : Nat) : String :=
  file ++ ": " ++ Nat.repr count ++ " IR verification error(s), first: " ++ first.text

/-- Hand on a lowered program: checked, or with a warning that it is not. -/
def handOver (o : Options) (file : String) (lowered : Outcome Program) : Outcome Program :=
  match lowered.result with
  | .error _ => lowered
  | .ok p =>
    if o.verify then
      match p.violations with
      | [] => lowered
      | first :: rest =>
        { lowered with result := .error (.internal (violationReport file first (rest.length + 1))) }
    else { lowered with log := lowered.log.push (.unverified file) }

/-- Put an event in front of the log of an outcome. -/
def Outcome.after {α : Type} (out : Outcome α) (e : Event) : Outcome α :=
  { out with log := #[e] ++ out.log }

/-- Compile the text of a source file; the file's name is used in locations. -/
def compile (o : Options) (file : String) (text : String) : Outcome Program :=
  let tokens := tokenize file text
  (handOver o file (lower o tokens)).after (.scanned file tokens.length)

/-- Read a source file and compile it; the path is used in locations as it is written. -/
def compileFile (o : Options) (d : Directory) (path : String) : Outcome Program :=
  match d.read path with
  | .error e => ⟨#[], .error (.unreadableFile path e.text)⟩
  | .ok text => (compile o path text).after (.read path text.utf8ByteSize)

end StackLang
