/-!
# Files — paths

A path is a text of names with slashes between them. Paths are joined
and cut as texts: dots and doubled slashes stay as they were written.
-/

namespace Federation

namespace Path

/-- The names of a path. Nothing and a dot are names too. -/
def names (path : String) : List String :=
  (path.toList.splitOn '/').map String.ofList

/-- Whether a path starts at the root of all files. -/
def isAbsolute (path : String) : Bool :=
  path.startsWith "/"

/-- A path as it is seen from a directory. An absolute path is the same from everywhere. -/
def join (directory path : String) : String :=
  if isAbsolute path || directory.isEmpty then path
  else if directory.endsWith "/" then directory ++ path
  else directory ++ "/" ++ path

/-- Whether a name leads nowhere else. -/
def isIdle (name : String) : Bool :=
  name.isEmpty || name == "."

/-- The directory of a file: its path without the last name, and without the idle names before
that. -/
def directory (path : String) : String :=
  match (names path).dropLast with
  | [] => ""
  | [""] => "/"
  | first :: rest => String.intercalate "/" (first :: (rest.reverse.dropWhile isIdle).reverse)

end Path

end Federation
