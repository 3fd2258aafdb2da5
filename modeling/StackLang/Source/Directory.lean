/-!
# Reading files

A directory holds files, which are bytes, and empty folders; nothing is known about what lies
around it. A path is followed component by component from the directory, or from outside it if
the path is absolute, and leads to the bytes of a file or to the first reason why it does not.
The source of a program is a file whose bytes are text in UTF-8.
-/

namespace StackLang

/-- A reason why a file cannot be read. -/
inductive FileError
  | notFound
  /-- a file stands where the path needs a folder -/
  | notFolder
  /-- the path leads to a folder -/
  | isFolder
  | nameTooLong
  /-- the path holds a NUL character -/
  | nulInName
  /-- the bytes are not UTF-8 -/
  | notText
deriving DecidableEq

/-- The text of a reason. -/
def FileError.text : FileError → String
  | notFound => "No such file or directory (os error 2)"
  | notFolder => "Not a directory (os error 20)"
  | isFolder => "Is a directory (os error 21)"
  | nameTooLong => "File name too long (os error 36)"
  | nulInName => "file name contained an unexpected NUL byte"
  | notText => "stream did not contain valid UTF-8"

/-- What a name in a directory stands for. -/
inductive Entry
  | file (bytes : ByteArray)
  | folder

/-- Named files and folders. -/
structure Directory where
  entries : List (String × Entry)

/-- Where a path has led to so far. -/
inductive Place
  /-- the directory itself -/
  | top
  /-- an entry of the directory -/
  | entry (e : Entry)
  /-- a folder outside the directory -/
  | outside

namespace Directory

/-- The greatest number of bytes in one component of a path. -/
def maxName : Nat :=
  255

/-- The greatest number of bytes in a path. -/
def maxPath : Nat :=
  4095

/-- Follow one component of a path. An empty component and a dot lead nowhere else but need a
folder, and two dots lead out of it. -/
def follow (d : Directory) (place : Place) (name : String) : Except FileError Place :=
  match place with
  | .entry (.file _) => .error .notFolder
  | _ =>
    if name = "" ∨ name = "." then .ok place
    else if name = ".." then
      match place with
      | .entry _ => .ok .top
      | _ => .ok .outside
    else if maxName < name.utf8ByteSize then .error .nameTooLong
    else
      match place, d.entries.find? (·.1 = name) with
      | .top, some e => .ok (.entry e.2)
      | _, _ => .error .notFound

/-- Follow the components of a path in order. -/
def followAll (d : Directory) (place : Place) : List String → Except FileError Place
  | [] => .ok place
  | name :: names =>
    match d.follow place name with
    | .error e => .error e
    | .ok place => d.followAll place names

/-- The place that a path leads to. -/
def locate (d : Directory) (path : String) : Except FileError Place :=
  if path.toList.contains '\x00' then .error .nulInName
  else if path = "" then .error .notFound
  else if maxPath < path.utf8ByteSize then .error .nameTooLong
  else
    d.followAll (if path.toList.head? = some '/' then .outside else .top)
      ((path.toList.splitOn '/').map String.ofList)

/-- The text of the file that a path leads to. -/
def read (d : Directory) (path : String) : Except FileError String :=
  match d.locate path with
  | .error e => .error e
  | .ok (.entry (.file bytes)) =>
    match String.fromUTF8? bytes with
    | some text => .ok text
    | none => .error .notText
  | .ok _ => .error .isFolder

end Directory

end StackLang
