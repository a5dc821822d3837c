import PushLisp.Bytes

/-!
# Files

What a program finds when it opens a path: the bytes of a file, or the error of the operating
system. A folder is a working directory with files below it, known by their paths.

## Main definitions

* `FileError`: an error with its number.
* `Folder`, `Folder.read`: opening a path in a working directory.
-/
namespace PushLisp

/-- An error of the operating system. -/
structure FileError where
  code : Nat
  text : String
  deriving Repr, DecidableEq

namespace FileError

/-- The wording of an error. -/
def message (e : FileError) : String := e.text ++ " (os error " ++ toString e.code ++ ")"

/-- Nothing has that path. -/
def notFound : FileError := ⟨2, "No such file or directory"⟩

/-- A file was taken for a directory. -/
def notDirectory : FileError := ⟨20, "Not a directory"⟩

/-- A directory was taken for a file. -/
def isDirectory : FileError := ⟨21, "Is a directory"⟩

/-- A name or a path is too long. -/
def nameTooLong : FileError := ⟨36, "File name too long"⟩

end FileError

/-- A working directory: its files, by the names that lead to them. -/
structure Folder where
  files : List (List String × Bytes)

namespace Folder

/-- The names in a path. -/
def names (path : String) : List String := path.splitOn "/"

/-- The file with a given sequence of names. -/
def file? (folder : Folder) (place : List String) : Option Bytes :=
  (folder.files.find? (·.1 = place)).map (·.2)

/-- Whether a sequence of names leads to the working directory or a directory below it. -/
def isDirectory (folder : Folder) (place : List String) : Bool :=
  place.isEmpty || folder.files.any fun (names, _) => names ≠ place && place.isPrefixOf names

/-- The greatest number of bytes in a name. -/
def maxName : Nat := 255

/-- Follows the names of a path from a place. A name can only be followed from a directory. -/
def follow (folder : Folder) (place : List String) : List String → Except FileError (List String)
  | [] => .ok place
  | name :: rest =>
    if !folder.isDirectory place then .error .notDirectory
    else if name = "" ∨ name = "." then follow folder place rest
    else if name = ".." then follow folder place.dropLast rest
    else if maxName < name.utf8ByteSize then .error .nameTooLong
    else
      let next := place ++ [name]
      if folder.isDirectory next || (folder.file? next).isSome then follow folder next rest
      else .error .notFound

/-- What is found at a path. -/
def read (folder : Folder) (path : String) : Except FileError Bytes :=
  if path = "" then .error .notFound
  else
    match follow folder [] (names path) with
    | .error e => .error e
    | .ok place =>
      match folder.file? place with
      | some bytes => .ok bytes
      | none => .error .isDirectory

end Folder

end PushLisp
