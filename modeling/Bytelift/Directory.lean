import Bytelift.Assoc
import Bytelift.Text

/-!
# Directories

The files below the working directory, by their paths, and what the paths that a command is given lead
to. A path is a row of names with slashes between them. It is followed from name to name: an empty name
and a point stay in the folder, two points leave it, and any other name has to exist in it. A folder
exists if a file is below it. Of the folders around the working directory nothing is known but that
they exist.
-/

namespace Bytelift

/-- Files by path. -/
abbrev Directory := List (Text × Text)

/-- Why a file cannot be used. -/
inductive OpenError
  | notFound (path : Text)
  /-- A file stands where the path needs a folder. -/
  | notFolder (path : Text)
  /-- A folder stands where a file is to be written. -/
  | isFolder (path : Text)
  /-- A folder is read as if it were a file. -/
  | unreadable (path : Text)
  | nameTooLong (path : Text)
  /-- A zero byte stands in the path. -/
  | badPath (path : Text)
  deriving DecidableEq, Repr

def OpenError.message : OpenError → Text
  | .notFound path => List.flatten ["open ", path, ": no such file or directory"]
  | .notFolder path => List.flatten ["open ", path, ": not a directory"]
  | .isFolder path => List.flatten ["open ", path, ": is a directory"]
  | .unreadable path => List.flatten ["read ", path, ": is a directory"]
  | .nameTooLong path => List.flatten ["open ", path, ": file name too long"]
  | .badPath path => List.flatten ["open ", path, ": invalid argument"]

/-- Where a path leads. -/
inductive Place
  /-- A folder by its names from the working directory on. -/
  | folder (names : List Text)
  /-- A folder outside of the working directory. -/
  | outside
  | file (content : Text)
  deriving DecidableEq, Repr

namespace Directory

def names (path : Text) : List Text := Text.partsAt 47 path

def staysHere (name : Text) : Bool := name.isEmpty || name = Text.ofString "."

/-- Whether a name leaves its folder. -/
def goesUp (name : Text) : Bool := name = Text.ofString ".."

/-- The longest path and the longest name in it, in bytes. -/
def longestPath : Nat := 4095
def longestName : Nat := 255

/-- Whether files are below a folder. -/
def hasFolder (d : Directory) (folder : List Text) : Bool :=
  d.any fun (path, _) => folder.isPrefixOf (names path).dropLast

/-- What a name stands for in the folder with these names. -/
def placeIn (d : Directory) (folder : List Text) (name : Text) : Option Place :=
  let full := folder ++ [name]
  match d.lookup (Text.join "/" full) with
  | some content => some (.file content)
  | none => if d.hasFolder full then some (.folder full) else none

def step (d : Directory) (path : Text) (p : Place) (name : Text) : Except OpenError Place :=
  match p with
  | .file _ => .error (.notFolder path)
  | .outside =>
    if staysHere name || goesUp name then .ok .outside
    else if longestName < name.length then .error (.nameTooLong path)
    else .error (.notFound path)
  | .folder folder =>
    if staysHere name then .ok p
    else if goesUp name then .ok (if folder.isEmpty then .outside else .folder folder.dropLast)
    else if longestName < name.length then .error (.nameTooLong path)
    else
      match d.placeIn folder name with
      | some q => .ok q
      | none => .error (.notFound path)

def startOf (path : Text) : Place := if path.head? = some 47 then .outside else .folder []

/-- Refuses a path that leads nowhere whatever the files are. -/
def checkPath (path : Text) : Except OpenError Unit :=
  if path.contains 0 then .error (.badPath path)
  else if path.isEmpty then .error (.notFound path)
  else if longestPath < path.length then .error (.nameTooLong path)
  else .ok ()

/-- The content of a file. -/
def read (d : Directory) (path : Text) : Except OpenError Text := do
  checkPath path
  match ← (names path).foldlM (d.step path) (startOf path) with
  | .file content => return content
  | .folder _ | .outside => throw (.unreadable path)

/-- The directory with a file written; its folder has to exist. A file outside of the working directory
is not kept. -/
def write (d : Directory) (path t : Text) : Except OpenError Directory := do
  checkPath path
  let parts := names path
  let trimmed := (parts.reverse.dropWhile List.isEmpty).reverse
  let name := (trimmed.getLast?).getD []
  match ← trimmed.dropLast.foldlM (d.step path) (startOf path) with
  | .file _ => throw (.notFolder path)
  | place =>
    if staysHere name || goesUp name || trimmed.length < parts.length then throw (.isFolder path)
    else if longestName < name.length then throw (.nameTooLong path)
    else
      match place with
      | .folder folder =>
        match d.placeIn folder name with
        | some (.folder _) => throw (.isFolder path)
        | _ => return assign (Text.join "/" (folder ++ [name])) t d
      | _ => return d

/-- The part of a path from its last point on, if no slash follows it. -/
def extension (path : Text) : Text :=
  let name := ((Text.cutAtLast 47 path).map (·.2)).getD path
  match Text.cutAtLast 46 name with
  | some (_, suffix) => 46 :: suffix
  | none => []

end Directory
end Bytelift
