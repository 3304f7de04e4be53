import Federation.Files.Path
/-!
# Files — trees

The files below one directory, the root of the tree. A directory is
there because a file is below it. `FileTree.read` follows a path from
name to name, so that a dot leads nowhere, two dots lead back, and
nothing is below a file. Outside the tree there are directories on the
way to its root, and nothing else is known.
-/

namespace Federation

/-- Why a file cannot be read. -/
inductive ReadFault
  | notFound
  | notADirectory
  | isADirectory
  | nameTooLong
  | nameWithNull
  deriving DecidableEq, Inhabited, Repr

namespace ReadFault

/-- The wording of a fault. -/
def message : ReadFault → String
  | notFound => "No such file or directory (os error 2)"
  | notADirectory => "Not a directory (os error 20)"
  | isADirectory => "Is a directory (os error 21)"
  | nameTooLong => "File name too long (os error 36)"
  | nameWithNull => "file name contained an unexpected NUL byte"

end ReadFault

/-- The files below a root, each by the names that lead to it. -/
structure FileTree where
  root : String
  files : List (List String × String) := []
  deriving DecidableEq, Inhabited, Repr

namespace FileTree

/-- The tree of files that are given by their paths from the root. -/
def ofFiles (root : String) (files : List (String × String)) : FileTree :=
  { root
    files := files.map fun (path, contents) =>
      ((Path.names path).filter fun name => !Path.isIdle name, contents) }

/-- Where a path may lead. -/
inductive Place
  | outside
  | directory (path : List String)
  | file (contents : String)
  deriving DecidableEq, Inhabited, Repr

/-- The most bytes that a name may have. -/
def maxNameSize : Nat := 255

/-- What is in a directory of the tree under a name. -/
def child (t : FileTree) (path : List String) (name : String) : Except ReadFault Place :=
  let below := path ++ [name]
  if name.utf8ByteSize > maxNameSize then .error .nameTooLong
  else match t.files.find? (·.1 == below) with
    | some (_, contents) => .ok (.file contents)
    | none =>
      if t.files.any fun (other, _) => below.isPrefixOf other then .ok (.directory below)
      else .error .notFound

/-- Follows one name. -/
def step (t : FileTree) (place : Place) (name : String) : Except ReadFault Place :=
  match place with
  | .file _ => .error .notADirectory
  | .outside =>
    if Path.isIdle name || name == ".." then .ok .outside
    else if name.utf8ByteSize > maxNameSize then .error .nameTooLong
    else .error .notFound
  | .directory path =>
    if Path.isIdle name then .ok place
    else if name == ".." then .ok (if path.isEmpty then .outside else .directory path.dropLast)
    else t.child path name

/-- Where a path starts, and the names to follow from there. -/
def start (t : FileTree) (path : String) : Place × List String :=
  let names := Path.names path
  let root := Path.names t.root
  if root.isPrefixOf names then (.directory [], names.drop root.length) else (.outside, names)

/-- The contents of a file. -/
def read (t : FileTree) (path : String) : Except ReadFault String := do
  if path.toList.contains '\x00' then throw .nameWithNull
  let (place, names) := t.start path
  match ← names.foldlM t.step place with
  | .file contents => return contents
  | .outside | .directory _ => throw .isADirectory

end FileTree

end Federation
