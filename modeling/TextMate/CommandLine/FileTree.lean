/-!
# Files under a working directory

A tree of directories and text files in which a path is resolved the usual way: component by component,
where `.` stays and `..` goes up. Nothing is known of what lies outside the tree: a path may lead there,
but finds nothing there by name.
-/

namespace TextMate.CommandLine

/-- Names from the working directory down. -/
abbrev Location := List String

/-- A working directory and all that is in it. -/
structure FileTree where
  directories : List Location := []
  files : List (Location × String) := []
  deriving DecidableEq, Repr

/-- Why a file cannot be written. -/
inductive WriteError where
  /-- A directory on the way does not exist. -/
  | notFound
  /-- What is on the way is a file. -/
  | notDirectory
  /-- The path leads to a directory. -/
  | isDirectory
  /-- A name has more bytes than a directory can hold, or a path more than can be followed. -/
  | nameTooLong
  deriving DecidableEq, Repr

/-- The wording of an error, with its number. -/
def WriteError.message : WriteError → String
  | .notFound => "No such file or directory (os error 2)"
  | .notDirectory => "Not a directory (os error 20)"
  | .isDirectory => "Is a directory (os error 21)"
  | .nameTooLong => "File name too long (os error 36)"

/-- The components of a path. Slashes in a row count as one. -/
def components (path : String) : List String :=
  (path.splitOn "/").filter (!·.isEmpty)

/-- The most bytes in a name. -/
def maxNameBytes : Nat := 255

/-- The most bytes in a path. -/
def maxPathBytes : Nat := 4095

namespace FileTree

/-- Whether there is a directory at the location. Directories above known ones exist too. -/
def isDirectory (tree : FileTree) (location : Location) : Bool :=
  location.isEmpty || tree.directories.any location.isPrefixOf
    || tree.files.any fun (file, _) => location.isPrefixOf file && location != file

/-- Whether there is a file at the location. -/
def isFile (tree : FileTree) (location : Location) : Bool :=
  tree.files.any fun (file, _) => location == file

/-- Go from one directory to the next. A place is a location in the tree, or `none` outside it. -/
def enter (tree : FileTree) (place : Option Location) (name : String) :
    Except WriteError (Option Location) :=
  if name = "." then
    .ok place
  else if name = ".." then
    .ok (match place with
      | none | some [] => none
      | some location => some location.dropLast)
  else if maxNameBytes < name.utf8ByteSize then
    .error .nameTooLong
  else
    match place with
    | none => .error .notFound
    | some location =>
      let next := location ++ [name]
      if tree.isDirectory next then
        .ok (some next)
      else if tree.isFile next then
        .error .notDirectory
      else
        .error .notFound

/-- Go from one directory to the next, which is made if it does not exist. -/
def enterNew (visit : FileTree × Option Location) (name : String) :
    Except WriteError (FileTree × Option Location) :=
  let (tree, place) := visit
  match tree.enter place name, place with
  | .error .notFound, some location =>
    let next := location ++ [name]
    .ok ({ tree with directories := tree.directories ++ [next] }, some next)
  | .error e, _ => .error e
  | .ok next, _ => .ok (tree, next)

/-- Make the directory at a path under the working directory, and those on the way to it. -/
def makeDirectory (tree : FileTree) (path : String) : Except WriteError FileTree := do
  let (tree, _) ← (components path).foldlM enterNew (tree, some [])
  return tree

/-- The content of the file at the location is replaced, or the file is new. -/
def put (tree : FileTree) (location : Location) (content : String) : FileTree :=
  { tree with
    files := tree.files.filter (fun (file, _) => file != location) ++ [(location, content)] }

/-- Write a file at a path. The length of the path is looked at first. A file outside the tree leaves the
tree as it is. -/
def write (tree : FileTree) (path content : String) : Except WriteError FileTree := do
  if maxPathBytes < path.utf8ByteSize then
    throw .nameTooLong
  let start : Option Location := if path.startsWith "/" then none else some []
  let names := components path
  match names.getLast? with
  | none => throw .isDirectory
  | some name =>
    let place ← names.dropLast.foldlM tree.enter start
    if name = "." || name = ".." || path.endsWith "/" then
      throw .isDirectory
    if maxNameBytes < name.utf8ByteSize then
      throw .nameTooLong
    match place with
    | none => return tree
    | some directory =>
      let location := directory ++ [name]
      if tree.isDirectory location then
        throw .isDirectory
      return tree.put location content

end FileTree

end TextMate.CommandLine
