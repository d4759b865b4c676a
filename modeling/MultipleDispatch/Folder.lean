/-!
Files by their paths. A folder with known files is read the way the working folder of a program is:
a path is followed part by part, and the first part that leads nowhere says why reading fails.
-/

namespace MultipleDispatch

/-- Why a file could not be read. -/
inductive ReadFailure where
  | notFound
  | notDirectory
  | isDirectory
  | nameTooLong
  | other (reason : String)

/-- The wording of a failure to read. -/
def ReadFailure.message : ReadFailure → String
  | notFound => "No such file or directory (os error 2)"
  | notDirectory => "Not a directory (os error 20)"
  | isDirectory => "Is a directory (os error 21)"
  | nameTooLong => "File name too long (os error 36)"
  | other reason => reason

/-- A working folder: its files, by their paths from there. -/
structure Folder where
  files : List (String × ByteArray)

namespace Folder

/-- The length of one name, in bytes, goes up to this. -/
def maxName : Nat := 255

/-- The length of a path, in bytes, stays below this. -/
def maxPath : Nat := 4096

/-- Where a path has led so far. -/
inductive Place where
  /-- A folder inside, by the names that lead to it, innermost first. -/
  | folder (names : List String)
  /-- A folder around the working folder, in which nothing is known. -/
  | around
  | file (content : ByteArray)

/-- What a name stands for in a folder inside. -/
def find (f : Folder) (names : List String) (name : String) : Except ReadFailure Place :=
  let path := "/".intercalate (name :: names).reverse
  match f.files.lookup path with
  | some content => .ok (.file content)
  | none =>
    if f.files.any fun file => file.1.startsWith (path ++ "/") then .ok (.folder (name :: names))
    else .error .notFound

/-- Follows one part of a path. A file has no parts, not even an empty one. -/
def follow (f : Folder) (place : Place) (part : String) : Except ReadFailure Place :=
  match place, part with
  | .file _, _ => .error .notDirectory
  | place, "" => .ok place
  | place, "." => .ok place
  | .folder (_ :: outer), ".." => .ok (.folder outer)
  | _, ".." => .ok .around
  | place, name =>
    if name.utf8ByteSize > maxName then .error .nameTooLong
    else match place with
      | .folder names => f.find names name
      | _ => .error .notFound

/-- Reads the file at a path. -/
def read (f : Folder) (path : String) : Except ReadFailure ByteArray := do
  if path.isEmpty then throw .notFound
  if path.utf8ByteSize ≥ maxPath then throw .nameTooLong
  let start : Place := if path.startsWith "/" then .around else .folder []
  match ← (path.splitOn "/").foldlM f.follow start with
  | .file content => return content
  | _ => throw .isDirectory

end Folder

end MultipleDispatch
