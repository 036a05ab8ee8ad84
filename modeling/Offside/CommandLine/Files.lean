/-!
# Files in memory

Files as a value, for running the program where there is no file system: `CommandLine.run` is given the
function that reads a file, and with `Files.read` for it a run depends on the files and the arguments
alone. The program itself is given a function that asks the system.

The files are a tree under a working directory, in which paths lead as they do in a file system: `.`
stays, `..` goes up, and nothing lies behind a file. Above the working directory there is nothing to
find but directories without names.
-/

namespace Offside.CommandLine

/-- Why a file could not be read. -/
inductive ReadError where
  /-- The system's words and number for the error. -/
  | system (description : String) (code : Nat)
  /-- The contents are not encoded in UTF-8. -/
  | notText
  /-- Anything else, in the words of its source. -/
  | other (description : String)
deriving DecidableEq, Repr

namespace ReadError

def notFound : ReadError := .system "No such file or directory" 2

def notDirectory : ReadError := .system "Not a directory" 20

def isDirectory : ReadError := .system "Is a directory" 21

def nameTooLong : ReadError := .system "File name too long" 36

def message : ReadError → String
  | system description code => description ++ " (os error " ++ toString code ++ ")"
  | notText => "stream did not contain valid UTF-8"
  | other description => description

end ReadError

/-- What a path can lead to. -/
inductive Entry where
  | directory
  | file (contents : ByteArray)

/-- A place in the tree, by its path from the working directory, or above that directory. -/
abbrev Place := Option (List String)

/-- The directory that holds a directory. -/
def Place.up (directory : Place) : Place :=
  directory.bind fun path => if path.isEmpty then none else path.dropLast

/-- What is in the tree by its path from the working directory. Of several entries for one path the
first counts. A run of the program reads from it in place of a file system. -/
structure Files where
  entries : List (List String × Entry) := []

namespace Files

/-- The parts of a path. -/
def parts (path : String) : List String :=
  path.splitOn "/"

/-! ## Writing -/

/-- Writes a file along a path from a directory, with the directories on the way. -/
def writeAlong (files : Files) (directory : Place) (contents : ByteArray) : List String → Files
  | [] => files
  | part :: rest =>
    if part = "" ∨ part = "." then files.writeAlong directory contents rest
    else if part = ".." then files.writeAlong directory.up contents rest
    else
      match directory with
      | none => files
      | some here =>
        let path := here ++ [part]
        if rest.isEmpty then ⟨(path, .file contents) :: files.entries⟩
        else writeAlong ⟨(path, .directory) :: files.entries⟩ (some path) contents rest

/-- Writes a file. A file that was there is replaced. -/
def write (files : Files) (path : String) (contents : ByteArray) : Files :=
  files.writeAlong (some []) contents (parts path)

/-- Files by their paths, written one after another. -/
def ofList (files : List (String × ByteArray)) : Files :=
  files.foldl (fun files (path, contents) => files.write path contents) {}

/-! ## Reading -/

/-- Follows a path from a directory. -/
def follow (files : Files) (directory : Place) : List String → Except ReadError ByteArray
  | [] => throw .isDirectory
  | part :: rest =>
    if part = "" ∨ part = "." then files.follow directory rest
    else if part = ".." then files.follow directory.up rest
    else if 255 < part.utf8ByteSize then throw .nameTooLong
    else
      match directory with
      | none => throw .notFound
      | some here =>
        let path := here ++ [part]
        match files.entries.lookup path with
        | some (.file contents) => if rest.isEmpty then return contents else throw .notDirectory
        | some .directory => files.follow (some path) rest
        | none => throw .notFound

/-- The contents of the file at a path. -/
def read (files : Files) (path : String) : Except ReadError ByteArray :=
  if 4095 < path.utf8ByteSize then throw .nameTooLong
  else
    match parts path with
    | "" :: rest => if rest.isEmpty then throw .notFound else files.follow none rest
    | parts => files.follow (some []) parts

end Files

end Offside.CommandLine
