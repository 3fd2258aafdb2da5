import StackLang.Json.Lexeme

/-!
# Reading JSON

Lexemes are read one at a time. What has been read so far is a stack of unfinished arrays and
objects around the place where the next lexeme goes (`Reading`), and each lexeme either takes
this state to the next one or is out of place. A text is a value if its lexemes lead to a state
in which one value has been read and nothing is unfinished.
-/

namespace StackLang.Json

/-- An array or an object that is being read, latest part first. -/
inductive Frame
  | array (items : List Json)
  /-- an object whose member `key` is being read -/
  | object (members : List (List Nat × Json)) (key : List Nat)

/-- A place in the text of a value, inside unfinished frames, innermost first. -/
inductive Reading
  /-- before a value, or before the end of an array if it is `empty` so far -/
  | value (empty : Bool) (frames : List Frame)
  /-- before a key, or before the end of an object if it is `empty` so far -/
  | key (empty : Bool) (members : List (List Nat × Json)) (frames : List Frame)
  /-- between a key and its value -/
  | colon (members : List (List Nat × Json)) (key : List Nat) (frames : List Frame)
  /-- after a value -/
  | done (v : Json) (frames : List Frame)

namespace Reading

/-- Read one more lexeme. -/
def next? : Reading → Lexeme → Option Reading
  | value _ fs, .leaf l => some (done (.leaf l) fs)
  | value _ fs, .openArray => some (value true (.array [] :: fs))
  | value _ fs, .openObject => some (key true [] fs)
  | value true (.array _ :: fs), .closeArray => some (done (.array []) fs)
  | key _ ms fs, .leaf (.string k) => some (colon ms k fs)
  | key true _ fs, .closeObject => some (done (.object []) fs)
  | colon ms k fs, .colon => some (value false (.object ms k :: fs))
  | done v (.array vs :: fs), .comma => some (value false (.array (v :: vs) :: fs))
  | done v (.array vs :: fs), .closeArray => some (done (.array (v :: vs).reverse) fs)
  | done v (.object ms k :: fs), .comma => some (key false ((k, v) :: ms) fs)
  | done v (.object ms k :: fs), .closeObject => some (done (.object ((k, v) :: ms).reverse) fs)
  | _, _ => none

/-- Read lexemes in order. -/
def run? (r : Reading) : List Lexeme → Option Reading
  | [] => some r
  | l :: ls => (r.next? l).bind (·.run? ls)

/-- The value that has been read, if nothing is unfinished. -/
def result? : Reading → Option Json
  | done v [] => some v
  | _ => none

end Reading

/-- The value that a text holds, if it holds exactly one. -/
def read? (text : String) : Option Json := do
  let lexemes ← scan text.toList
  let reading ← (Reading.value false []).run? lexemes
  reading.result?

end StackLang.Json
