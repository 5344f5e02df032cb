import DocSearch.Text

/-!
# Files

A file tree lists the files below the working directory; what they are in is a directory.  A path is walked
component by component, and every component but the last must be a directory.  Directories open, and read as
empty.  Above the working directory nothing is known but that there are directories.  A path or a component that is
too long leads nowhere, not even to a missing file.
-/

namespace DocSearch

inductive File where
  | contents (s : Text)
  /-- A file that exists but cannot be opened for reading. -/
  | unopenable
  deriving DecidableEq

/-- What a path leads to. -/
inductive Lookup where
  | missing
  /-- Whether there is a file cannot be told, for the given reason. -/
  | inaccessible (reason : Text)
  | unopenable
  | contents (s : Text)
  deriving DecidableEq

/-- The files of a working directory by their paths. -/
structure FileTree where
  files : List (Text × File)

/-- The parts of a path between its slashes. -/
def splitPath : Text → List Text
  | [] => [[]]
  | b :: s =>
    if b = '/'.toUInt8 then [] :: splitPath s
    else
      match splitPath s with
      | [] => [[b]]
      | p :: ps => (b :: p) :: ps

/-- Whether a part of a path names the directory that it stands in. -/
def isSelf (part : Text) : Bool := part.isEmpty || part == ascii "."

/-- A path below the working directory as the names on the way, the working directory itself as the empty
list. -/
def pathNames (path : Text) : List Text := (splitPath path).filter fun p => !isSelf p

/-- `left` and `right` with one slash between them, unless `left` ends in one. -/
def joinPath (left right : Text) : Text :=
  if left.getLast? = some '/'.toUInt8 then left ++ right else left ++ '/'.toUInt8 :: right

namespace FileTree

/-- A place on the way along a path. -/
inductive Place where
  /-- The directory or file with these names below the working directory. -/
  | inside (names : List Text)
  /-- A directory above the working directory. -/
  | outside

def file? (t : FileTree) (names : List Text) : Option File :=
  (t.files.find? fun f => pathNames f.1 == names).map Prod.snd

/-- The working directory and everything that a file lies in are directories. -/
def isDirectory (t : FileTree) (names : List Text) : Bool :=
  names.isEmpty || t.files.any fun f => (pathNames f.1 != names) && names.isPrefixOf (pathNames f.1)

/-- The most bytes of a name, and of a path. -/
def maxName : Nat := 255

def maxPath : Nat := 4095

def tooLong : Lookup := .inaccessible (ascii "File name too long")

/-- One part further along a path, or what the path leads to if there is no directory to go on from. -/
def walk (t : FileTree) (place : Place) (part : Text) : Except Lookup Place :=
  match place with
  | .outside =>
    if isSelf part || part == ascii ".." then .ok .outside
    else .error (if maxName < part.length then tooLong else .missing)
  | .inside names =>
    if !t.isDirectory names then .error .missing
    else if isSelf part then .ok (.inside names)
    else if part == ascii ".." then .ok (if names.isEmpty then .outside else .inside names.dropLast)
    else if maxName < part.length then .error tooLong
    else .ok (.inside (names ++ [part]))

/-- What a path leads to; a path ends before its first zero byte. -/
def lookup (t : FileTree) (path : Text) : Lookup :=
  match path.beforeZero with
  | [] => .missing
  | b :: s =>
    if maxPath < (b :: s).length then tooLong
    else
      let start := if b = '/'.toUInt8 then Place.outside else .inside []
      match (splitPath (b :: s)).foldlM t.walk start with
      | .error found => found
      | .ok .outside => .contents []
      | .ok (.inside names) =>
        match t.file? names with
        | some (.contents s) => .contents s
        | some .unopenable => .unopenable
        | none => if t.isDirectory names then .contents [] else .missing

end FileTree

end DocSearch
