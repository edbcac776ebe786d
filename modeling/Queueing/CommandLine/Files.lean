/-!
# Files

Why a file cannot be read, and a tree of folders and files in which a path can be
followed. The tree stands in for the file system of a machine, so that the program can
be run on it as a function.
-/

namespace Queueing.CommandLine

/-- Why a file cannot be read. -/
inductive FileError where
  /-- A refusal of the system, with its number. -/
  | system (description : String) (number : Nat)
  /-- The bytes of the file are no text in UTF-8. -/
  | notText
deriving DecidableEq, Repr

namespace FileError

def missing : FileError := .system "No such file or directory" 2

def forbidden : FileError := .system "Permission denied" 13

def notFolder : FileError := .system "Not a directory" 20

def isFolder : FileError := .system "Is a directory" 21

/-- A name, or the whole path, has too many bytes. -/
def tooLong : FileError := .system "File name too long" 36

/-- The refusal with a number, which is described as given if it is not a common one. -/
def ofNumber (number : Nat) (description : String) : FileError :=
  match number with
  | 2 => missing
  | 13 => forbidden
  | 20 => notFolder
  | 21 => isFolder
  | 36 => tooLong
  | number => .system description number

def message : FileError → String
  | .system description number =>
    description ++ " (os error " ++ toString number ++ ")"
  | .notText => "stream did not contain valid UTF-8"

end FileError

/-- A file or a folder. -/
inductive Entry where
  | file (content : ByteArray)
  | folder (entries : List (String × Entry))

namespace Entry

def empty : Entry := .folder []

def entry? (name : String) : Entry → Option Entry
  | .file _ => none
  | .folder entries => entries.lookup name

/-- Put an entry at a path of names, making the folders on the way. -/
def put (parent : Entry) (path : List String) (e : Entry) : Entry :=
  match path with
  | [] => e
  | name :: path =>
    let child := put ((parent.entry? name).getD empty) path e
    match parent with
    | .file _ => .folder [(name, child)]
    | .folder entries => .folder ((name, child) :: entries)

def maxName : Nat := 255

/-- The least size of a path in bytes that is too long. -/
def maxPath : Nat := 4096

/-- Follow names from an entry, whose folders above it are given from the inside out.
An empty name and a single dot stay where they are, but only in a folder; two dots lead
up, and nowhere at the root. -/
def follow : List String → List Entry → Entry → Except FileError Entry
  | [], _, e => .ok e
  | _ :: _, _, .file _ => .error .notFolder
  | name :: path, above, .folder entries =>
    if name = "" ∨ name = "." then follow path above (.folder entries)
    else if name = ".." then
      match above with
      | [] => follow path [] (.folder entries)
      | parent :: above => follow path above parent
    else if maxName < name.utf8ByteSize then .error .tooLong
    else
      match entries.lookup name with
      | none => .error .missing
      | some e => follow path (.folder entries :: above) e

/-- The content of the file at a path. A path that does not start at the root starts at
the current folder. -/
def read (root : Entry) (current : List String) (path : String) : Except FileError ByteArray :=
  let names := path.splitOn "/"
  if maxPath ≤ path.utf8ByteSize then .error .tooLong
  else
    match follow (if path.startsWith "/" then names else current ++ names) [] root with
    | .error e => .error e
    | .ok (.file content) => .ok content
    | .ok (.folder _) => .error .isFolder

end Entry

end Queueing.CommandLine
