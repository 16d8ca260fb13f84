import HostSheet.Text

set_option autoImplicit false

/-!
# Files

A command reads and writes texts at paths in a directory.  A path leads from the directory,
component by component, to a file or a folder; two paths that lead to the same place name
the same file.
-/

namespace HostSheet

/-- Why a file cannot be read or written. -/
inductive FileFault where
  | notFound
  | isFolder
  /-- The path goes on behind a file. -/
  | notFolder
  /-- The path, or a component of it, has too many bytes. -/
  | nameTooLong
  /-- The file holds bytes that are no UTF-8. -/
  | notText
  deriving DecidableEq, Repr

namespace FileFault

def message : FileFault → Text
  | notFound => "No such file or directory (os error 2)".toList
  | isFolder => "Is a directory (os error 21)".toList
  | notFolder => "Not a directory (os error 20)".toList
  | nameTooLong => "File name too long (os error 36)".toList
  | notText => "stream did not contain valid UTF-8".toList

end FileFault

/-! ## Paths -/

/-- A place: its components from the directory on, or from the root if the first one is
`/`.  Leading components `..` lead out of the directory. -/
abbrev Place := List Text

namespace Place

/-- The components of a path, empty ones included. -/
def components : Text → List Text
  | [] => [[]]
  | c :: r =>
    if c = '/' then [] :: components r
    else
      match components r with
      | [] => [[c]]
      | p :: ps => (c :: p) :: ps

/-- The root of all paths that start with a slash. -/
def root : Text := ['/']

def up : Text := ['.', '.']

/-- The component that stays where it is. -/
def here : Text := ['.']

/-- The place one component further. -/
def step (p : Place) (component : Text) : Place :=
  if component = here then p
  else if component = up then
    if p = [root] then p
    else if p.all (· == up) then p ++ [up]
    else p.dropLast
  else p ++ [component]

/-- Where a path starts. -/
def start : Text → Place
  | '/' :: _ => [root]
  | _ => []

/-- The components of a path that are not empty. -/
def steps (path : Text) : List Text := (components path).filter (· ≠ [])

/-- Whether a path ends in a slash, and so asks for a folder. -/
def endsInSlash (path : Text) : Bool := path.getLast? == some '/'

/-- The place that a path names, whatever is there. -/
def ofPath (path : Text) : Place := (steps path).foldl step (start path)

/-- Whether a place lies in the directory. -/
def isInside (p : Place) : Bool := p.head? != some root && p.head? != some up

/-- The path to a place. -/
def path : Place → Text
  | [] => ['.']
  | first :: rest =>
    if first = root then '/' :: ['/'].intercalate rest else ['/'].intercalate (first :: rest)

end Place

/-! ## Directories -/

/-- What a file holds. -/
inductive Content where
  | text (s : Text)
  /-- Bytes that are no UTF-8. -/
  | bytes
  deriving DecidableEq, Repr

/-- The files of a directory, and folders that may be empty. -/
structure Directory where
  files : List (Place × Content) := []
  folders : List Place := []
  deriving DecidableEq, Repr

namespace Directory

/-- The file at a place. -/
def file? (d : Directory) (p : Place) : Option Content := d.files.lookup p

/-- Whether a place is a folder: the directory itself, one that leads out of it, a listed
one, or one that a file or a listed folder lies in. -/
def isFolder (d : Directory) (p : Place) : Bool :=
  p.all (· == Place.up) || p == [Place.root] || d.folders.any p.isPrefixOf ||
    d.files.any fun f => p.isPrefixOf f.1 && p != f.1

/-- How many bytes a component may have. -/
def componentLimit : Nat := 255

/-- How many bytes a path may have. -/
def pathLimit : Nat := 4095

/-- Refuse a place that is no folder. -/
def requireFolder (d : Directory) (p : Place) : Except FileFault Unit :=
  if d.isFolder p then .ok ()
  else if (d.file? p).isSome then .error .notFolder
  else .error .notFound

/-- Follow one component from a place.  Only a folder can be gone through, and `.` and `..`
go through it, too. -/
def follow (d : Directory) (p : Place) (component : Text) : Except FileFault Place := do
  d.requireFolder p
  if componentLimit < (Text.utf8 component).length then throw .nameTooLong
  return p.step component

/-- The folder in which the last component of a path is looked up. -/
def locateFolder (d : Directory) (path : Text) : Except FileFault Place := do
  if path = [] then throw .notFound
  if pathLimit < (Text.utf8 path).length then throw .nameTooLong
  let p ← (Place.steps path).dropLast.foldlM d.follow (Place.start path)
  d.requireFolder p
  return p

/-- The place of a path. -/
def locate (d : Directory) (path : Text) : Except FileFault Place := do
  let p ← d.locateFolder path
  match (Place.steps path).getLast? with
  | some component => d.follow p component
  | none => return p

/-- The text at a path. -/
def read (d : Directory) (path : Text) : Except FileFault Text := do
  let p ← d.locate path
  if d.isFolder p then throw .isFolder
  match d.file? p with
  | none => throw .notFound
  | some content =>
    if Place.endsInSlash path then throw .notFolder
    match content with
    | .text s => return s
    | .bytes => throw .notText

/-- Whether there is anything at a path. -/
def exists? (d : Directory) (path : Text) : Bool :=
  match d.read path with
  | .error .notFound | .error .notFolder | .error .nameTooLong => false
  | _ => true

/-- The directory with a text at a place. -/
def put (d : Directory) (p : Place) (s : Text) : Directory :=
  { d with files := (p, .text s) :: d.files.filter fun f => f.1 != p }

/-- Write a text to a path, over a file that may be there.  The folder must be there.  A
path that ends in a slash names a folder, whether or not there is anything at it. -/
def write (d : Directory) (path : Text) (s : Text) : Except FileFault Directory := do
  discard <| d.locateFolder path
  if Place.endsInSlash path then throw .isFolder
  let p ← d.locate path
  if d.isFolder p then throw .isFolder
  return d.put p s

/-- The files that are in `after` and not, with the same content, in `before`. -/
def changed (before after : Directory) : List (Place × Content) :=
  after.files.filter fun f => before.file? f.1 != some f.2

end Directory

end HostSheet
