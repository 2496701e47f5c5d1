import Std.Data.ExtTreeMap
import FlowRecovery.Text.Blank

namespace FlowRecovery

/-- Why a file cannot be used. -/
inductive FileError where
  | notFound
  | isDirectory
  | notDirectory
  | nameTooLong
  | invalidText
  | other (reason : String)
deriving DecidableEq

def FileError.message : FileError → String
  | notFound => "No such file or directory (os error 2)"
  | isDirectory => "Is a directory (os error 21)"
  | notDirectory => "Not a directory (os error 20)"
  | nameTooLong => "File name too long (os error 36)"
  | invalidText => "stream did not contain valid UTF-8"
  | other reason => reason

/-- A view of files by their paths. -/
structure Files where
  read : String → Except FileError (List UInt8)
  /-- Whether a file can be created or replaced at a path. -/
  create : String → Except FileError Unit

def Files.readText (files : Files) (path : String) : Except FileError String := do
  match String.fromUTF8? ⟨(← files.read path).toArray⟩ with
  | some text => return text
  | none => .error .invalidText

/-- A path taken apart. -/
structure Path where
  /-- Whether it starts at the root, and not at the working directory. -/
  fromRoot : Bool
  /-- The names it goes through. -/
  names : List String
  /-- Whether a slash follows the last name. -/
  endsInSlash : Bool

namespace Path

/-- The number of bytes that a path may have. -/
def maxLength : Nat :=
  4095

/-- The number of bytes that a name may have. -/
def maxNameLength : Nat :=
  255

/-- The path that a text writes. Slashes may be repeated. -/
def parse (text : String) : Path where
  fromRoot := text.toList.head? = some '/'
  names := ((Text.splitAt (· == '/') text.toList).filter (!·.isEmpty)).map String.ofList
  endsInSlash := text.toList.getLast? = some '/'

/-- The path that a text writes, if a system takes it. -/
def check (text : String) : Except FileError Path :=
  if text.isEmpty then .error .notFound
  else if text.utf8ByteSize > maxLength then .error .nameTooLong
  else .ok (parse text)

/-- The last name of a path, or nothing if it does not end in one. -/
def fileName (path : Path) : String :=
  match (path.names.filter (· ≠ ".")).getLast? with
  | some name => if name = ".." then "" else name
  | none => ""

end Path

/-- Where a path leads. -/
inductive Place where
  | file (content : List UInt8)
  /-- A directory of the tree, by the names that lead to it from the working directory. -/
  | inside (names : List String)
  /-- A directory by the names that lead to it from the root. -/
  | system (names : List String)
  /-- A directory above the working directory. -/
  | above

namespace Place

def rootDirectories : List String :=
  ["bin", "boot", "dev", "etc", "home", "lib", "media", "mnt", "opt", "proc", "root",
    "run", "sbin", "srv", "sys", "tmp", "usr", "var"]

/-- What every system has under some names from the root: its directories, and the null device,
which reads as an empty file. -/
def ofSystem? : List String → Option Place
  | [name] => if rootDirectories.contains name then some (.system [name]) else none
  | names => if names = ["dev", "null"] then some (.file []) else none

end Place

/-- All files below the working directory, by their names joined with slashes. -/
structure Directory where
  files : Std.ExtTreeMap String (List UInt8) := ∅

namespace Directory

def key (names : List String) : String :=
  "/".intercalate names

/-- Whether there is a file below some names. -/
def contains (d : Directory) (names : List String) : Bool :=
  d.files.keys.any fun file => (Text.after? (key names ++ "/").toList file.toList).isSome

/-- What stands under some names. A directory stands there if it has files in it. -/
def place? (d : Directory) (names : List String) : Option Place :=
  match d.files[key names]? with
  | some content => some (.file content)
  | none => if d.contains names then some (.inside names) else none

/-- What a name stands for in a directory, other than the directory itself and the one above
it. -/
def child? (d : Directory) : Place → String → Option Place
  | .inside names, name => d.place? (names ++ [name])
  | .system names, name => Place.ofSystem? (names ++ [name])
  | .file _, _ => none
  | .above, _ => none

/-- The directory above a place. That of the root is the root. -/
def parent : Place → Place
  | .inside [] => .above
  | .inside names => .inside names.dropLast
  | .system names => .system names.dropLast
  | place => place

/-- One step of a path. Nothing leads on from a file, not even a single dot. -/
def enter (d : Directory) (place : Place) (name : String) : Except FileError Place :=
  match place with
  | .file _ => .error .notDirectory
  | place =>
    if name = "." then .ok place
    else if name = ".." then .ok (parent place)
    else if name.utf8ByteSize > Path.maxNameLength then .error .nameTooLong
    else match d.child? place name with
      | some next => .ok next
      | none => .error .notFound

/-- Where some names lead, from the root or from the working directory. -/
def walk (d : Directory) (fromRoot : Bool) (names : List String) : Except FileError Place :=
  names.foldlM d.enter (if fromRoot then .system [] else .inside [])

/-- The content of a file. A slash at the end of a path asks for a directory, as a dot behind it
does. -/
def read (d : Directory) (text : String) : Except FileError (List UInt8) := do
  let path ← Path.check text
  match ← d.walk path.fromRoot (path.names ++ if path.endsInSlash then ["."] else []) with
  | .file content => return content
  | _ => .error .isDirectory

/-- Where a file is created or replaced: its directory and its name there. The directory has to be
there, and no directory may have that name; a path that ends in a slash names a directory, whether
it is there or not. -/
def destination (d : Directory) (text : String) : Except FileError (Place × String) := do
  let path ← Path.check text
  let some name := path.names.getLast? | .error .isDirectory
  let directory ← d.walk path.fromRoot (path.names.dropLast ++ ["."])
  if path.endsInSlash then .error .isDirectory
  else match d.enter directory name with
    | .ok (.file _) => return (directory, name)
    | .ok _ => .error .isDirectory
    | .error .notFound => return (directory, name)
    | .error error => .error error

def view (d : Directory) : Files where
  read := d.read
  create := fun path => (d.destination path).map fun _ => ()

/-- The directory with a text written to a file. A file outside leaves it as it is. -/
def write (d : Directory) (path text : String) : Directory :=
  match d.destination path with
  | .ok (.inside names, name) =>
      { files := d.files.insert (key (names ++ [name])) text.toUTF8.toList }
  | _ => d

/-- The files that are new or different in a later directory. -/
def changes (d later : Directory) : List (String × List UInt8) :=
  later.files.toList.filter fun (name, bytes) => d.files[name]? ≠ some bytes

end Directory

end FlowRecovery
