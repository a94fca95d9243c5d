/-! # Files

The texts that commands read, by their paths, and the reasons why a path gives none. A path is
followed part by part, from the root if it starts with a slash and from the working directory
otherwise. The first part that leads nowhere decides the error (`Place.enter`), so a part that is
too long counts only if the parts before it lead to a directory.
-/

namespace AccumulatorMachine.CommandLine
set_option autoImplicit false

/-! ## Errors -/

inductive FileError
  | notFound
  /-- Something that is no directory has a part after it. -/
  | notDirectory
  | isDirectory
  | nameTooLong
  | notText
  /-- Any other reason, in the words of the system. -/
  | other (reason : String)
deriving DecidableEq

def FileError.reason : FileError → String
  | notFound => "No such file or directory (os error 2)"
  | notDirectory => "Not a directory (os error 20)"
  | isDirectory => "Is a directory (os error 21)"
  | nameTooLong => "File name too long (os error 36)"
  | notText => "stream did not contain valid UTF-8"
  | other reason => reason

/-- The texts of the files, by their paths. -/
abbrev Files := String → Except FileError String

/-! ## Paths -/

/-- The files of a directory without further directories, by their names. -/
abbrev Folder := String → Option (Except FileError String)

/-- The most bytes in a part of a path. -/
def nameLimit : Nat := 255

/-- The first number of bytes that a path cannot have. -/
def pathLimit : Nat := 4096

/-- What a path has led to. -/
inductive Place
  | working
  | root
  | devices
  /-- Another directory, of whose contents nothing is known. -/
  | elsewhere
  | file (text : Except FileError String)

namespace Place

/-- The directories that every system has at its root, that of the devices aside. -/
def systemDirectories : List String :=
  ["bin", "boot", "etc", "home", "lib", "media", "mnt", "opt", "proc", "root", "run", "sbin",
   "srv", "sys", "tmp", "usr", "var"]

/-- What a name stands for in a place. Of the devices only the empty one is known. -/
def child? (working : Folder) (p : Place) (name : String) : Option Place :=
  match p with
  | .working => (working name).map file
  | root =>
    if name = "dev" then some devices
    else if systemDirectories.contains name then some elsewhere
    else none
  | devices => if name = "null" then some (file (.ok "")) else none
  | elsewhere | file _ => none

def parent : Place → Place
  | root | devices => root
  | .working | elsewhere | file _ => elsewhere

def enter (working : Folder) (p : Place) (part : String) : Except FileError Place :=
  match p with
  | file _ => .error .notDirectory
  | p =>
    if part = "" ∨ part = "." then .ok p
    else if part = ".." then .ok p.parent
    else if nameLimit < part.utf8ByteSize then .error .nameTooLong
    else
      match p.child? working part with
      | some next => .ok next
      | none => .error .notFound

def ofPath (working : Folder) (path : String) : Except FileError Place :=
  if path = "" then .error .notFound
  else if pathLimit ≤ path.utf8ByteSize then .error .nameTooLong
  else
    (path.splitOn "/").foldlM (enter working) (if path.startsWith "/" then root else .working)

end Place

/-- The files that can be read where the working directory holds the files of `working`. -/
def Files.ofFolder (working : Folder) : Files := fun path => do
  match ← Place.ofPath working path with
  | .file text => text
  | _ => .error .isDirectory

end AccumulatorMachine.CommandLine
