/-
Paths and folders. A path is a text of names between slashes, read as the steps it takes: an empty
name and a single dot take none, and two dots lead out of a folder. A folder is known by the files
and folders below it; nothing outside it is known, and no step leads through a file or through nothing.
-/
import Kettle.Text.Rune

namespace Kettle

/-- A step of a path. -/
inductive Path.Step where
  | up
  | into (name : Text)
  deriving DecidableEq, Repr

/-- A path: whether it starts at the root, and its steps. -/
structure Path where
  rooted : Bool
  steps : List Path.Step
  deriving DecidableEq, Repr

namespace Path

/-- The step that a name takes. -/
def Step.ofName? (name : Text) : Option Step :=
  if name = "" || name = "." then none
  else if name = ".." then some .up
  else some (.into name)

/-- The name of a step. -/
def Step.name : Step → Text
  | .up => ".."
  | .into name => name

/-- The path that a text writes. -/
def ofText (t : Text) : Path := ⟨t.head? = some '/', (t.pieces '/').filterMap Step.ofName?⟩

/-- The shortest text that writes a path; a path of no steps is a single dot. -/
def toText (p : Path) : Text :=
  let names := Text.join "/" (p.steps.map Step.name)
  if p.rooted then "/" ++ names else if names.isEmpty then "." else names

end Path

/-- A folder: the files below it and the folders below it, each with the names that lead to it. -/
structure Folder where
  files : List (List Text × List UInt8)
  folders : List (List Text)

namespace Folder

/-- Whether names lead to a folder. Whatever lies below a folder makes it known. -/
def isFolder (f : Folder) (names : List Text) : Bool :=
  names.isEmpty || f.folders.any names.isPrefixOf || f.files.any fun (n, _) => names.isPrefixOf n.dropLast

/-- The contents of the file that steps lead to, from the folder `here` on. -/
def find? (f : Folder) (here : List Text) : List Path.Step → Option (List UInt8)
  | [] => none
  | .up :: rest => if here.isEmpty then none else f.find? here.dropLast rest
  | .into name :: rest =>
    if rest.isEmpty then f.files.lookup (here ++ [name])
    else if f.isFolder (here ++ [name]) then f.find? (here ++ [name]) rest
    else none

/-- The contents of the file at a path. -/
def read? (f : Folder) (p : Path) : Option (List UInt8) :=
  if p.rooted then none else f.find? [] p.steps

end Folder

end Kettle
