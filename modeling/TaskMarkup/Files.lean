
namespace TaskMarkup

inductive FileError
  | notFound
  | denied
  | notFolder
  | isFolder
  | longName
  | notText
  deriving DecidableEq, Repr

def FileError.message : FileError → String
  | .notFound => "No such file or directory (os error 2)"
  | .denied => "Permission denied (os error 13)"
  | .notFolder => "Not a directory (os error 20)"
  | .isFolder => "Is a directory (os error 21)"
  | .longName => "File name too long (os error 36)"
  | .notText => "stream did not contain valid UTF-8"

abbrev Files := String → Except FileError (List UInt8)

namespace Files

def maxStep : Nat := 255

def maxPath : Nat := 4095

def steps (path : String) : List String :=
  (path.splitOn "/").filter fun step => step ≠ "" && step ≠ "."

def shortPath (path : String) : String :=
  (if path.startsWith "/" then "/" else "") ++ "/".intercalate (steps path)

/-- Where a path has led so far: to a folder, of which some subfolders and files are known, or to a
file. -/
inductive Place
  | folder (folders : List String) (files : List (String × List UInt8))
  | file (bytes : List UInt8)

def Place.unknown : Place := .folder [] []

def Place.root : Place :=
  .folder ["bin", "boot", "dev", "etc", "home", "lib", "media", "mnt", "opt", "proc", "root", "run",
    "sbin", "srv", "sys", "tmp", "usr", "var"] []

def step (folders : List String) (files : List (String × List UInt8)) (name : String) :
    Except FileError Place :=
  if name = "" || name = "." then .ok (.folder folders files)
  else if name = ".." || folders.contains name then .ok .unknown
  else if maxStep < name.utf8ByteSize then .error .longName
  else
    match files.lookup name with
    | none => .error .notFound
    | some bytes => .ok (.file bytes)

def walk : Place → List String → Except FileError Place
  | p, [] => .ok p
  | .file _, _ :: _ => .error .notFolder
  | .folder folders files, name :: rest => do walk (← step folders files name) rest

def ofFolder (entries : List (String × List UInt8)) : Files := fun path => do
  if path.isEmpty then throw .notFound
  if maxPath < path.utf8ByteSize then throw .longName
  let start := if path.startsWith "/" then .root else .folder [] entries
  match ← walk start (path.splitOn "/") with
  | .folder .. => throw .isFolder
  | .file bytes => return bytes

end Files

end TaskMarkup
