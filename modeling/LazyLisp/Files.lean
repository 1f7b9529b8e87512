import LazyLisp.Text.Quoted
import LazyLisp.Text.Split

/-!
# Files

What a program finds at a path, and the trees of files that answer this. In a tree the files are
known by their paths from the working directory, and a directory exists if a file lies in it.
-/

set_option autoImplicit false

namespace LazyLisp

/-- A path in its plain form: the slashes it begins with, if it is absolute, and the names on it.
Empty names and dots are left out; two dots stay. -/
structure Path where
  root : Text
  names : List Text
  deriving DecidableEq, Repr

namespace Path

/-- The path that a text writes. Exactly two slashes at the beginning are kept as they are. -/
def ofText (text : Text) : Path :=
  let slashes := (text.takeWhile (· == '/')).length
  let root := if slashes = 0 then [] else if slashes = 2 then ['/', '/'] else ['/']
  ⟨root, (Text.split '/' text).filter fun name => !(name.isEmpty || name == ['.'])⟩

/-- The text of a path. A path without root and names is a dot. -/
def render (path : Path) : Text :=
  if path.root.isEmpty && path.names.isEmpty then ['.']
  else path.root ++ ['/'].intercalate path.names

def parent (path : Path) : Path := { path with names := path.names.dropLast }

def child (path : Path) (name : Text) : Path := { path with names := path.names ++ [name] }

end Path

inductive Entry where
  | missing
  | directory
  | file (content : Text)
  | insideFile
  | nameTooLong
  deriving DecidableEq, Repr

/-- What every path leads to. -/
abbrev Files := Text → Entry

/-- The message for a file that cannot be read, if what its path leads to is not a file. -/
def Entry.refusal? (entry : Entry) (path : Text) : Option String :=
  let refusal (number : Nat) (reason : String) :=
    some ("[Errno " ++ toString number ++ "] " ++ reason ++ ": " ++
      String.ofList (Text.quoted path))
  match entry with
  | .missing => refusal 2 "No such file or directory"
  | .directory => refusal 21 "Is a directory"
  | .insideFile => refusal 20 "Not a directory"
  | .nameTooLong => refusal 36 "File name too long"
  | .file _ => none

/-- The length of a text in the encoding of file names. -/
def encodedLength (text : Text) : Nat :=
  text.foldl (fun length char => length + char.utf8Size) 0

/-- The length of the longest file name. -/
def nameLimit : Nat := 255

/-- The length of the longest path. -/
def pathLimit : Nat := 4095

/-- The files below the working directory. -/
structure FileTree where
  files : List (Text × Text) := []

namespace FileTree

/-- A place among the directories: below the working directory or below the root at the end of a row
of names, in some directory that holds the working directory, or at an unknown name in one. -/
inductive Location where
  | below (names : List Text)
  | system (names : List Text)
  | above
  | beside

/-- The directory that holds a place. Nothing holds the root but itself. -/
def Location.parent : Location → Location
  | .below names => if names.isEmpty then .above else .below names.dropLast
  | .system names => .system names.dropLast
  | .above | .beside => .above

def Location.child (name : Text) : Location → Location
  | .below names => .below (names ++ [name])
  | .system names => .system (names ++ [name])
  | .above | .beside => .beside

/-- The directories that every system has in its root. -/
def systemDirectories : List String :=
  ["bin", "boot", "dev", "etc", "home", "lib", "media", "mnt", "opt", "proc", "root", "run", "sbin",
    "srv", "sys", "tmp", "usr", "var"]

/-- What lies at the end of a row of names from the root, as far as all systems agree. -/
def systemEntry : List Text → Entry
  | [] => .directory
  | [name] => if systemDirectories.contains (String.ofList name) then .directory else .missing
  | names => if names = ["dev".toList, "null".toList] then .file [] else .missing

/-- What lies at the end of a row of names from the working directory. -/
def entryAt (tree : FileTree) (names : List Text) : Entry :=
  if names.isEmpty then .directory
  else
    match tree.files.find? fun file => (Path.ofText file.1).names == names with
    | some (_, content) => .file content
    | none =>
      if tree.files.any fun file => names.isPrefixOf (Path.ofText file.1).names then .directory
      else .missing

def entryOf (tree : FileTree) : Location → Entry
  | .below names => tree.entryAt names
  | .system names => systemEntry names
  | .above => .directory
  | .beside => .missing

/-- Follows pieces of a path from a place. A name is only looked for in a directory. -/
def follow (tree : FileTree) (location : Location) : List Text → Entry
  | [] => tree.entryOf location
  | piece :: pieces =>
    match tree.entryOf location with
    | .directory =>
      if piece.isEmpty || piece == ['.'] then follow tree location pieces
      else if piece == ['.', '.'] then follow tree location.parent pieces
      else if nameLimit < encodedLength piece then .nameTooLong
      else follow tree (location.child piece) pieces
    | .file _ | .insideFile => .insideFile
    | .missing => .missing
    | .nameTooLong => .nameTooLong

/-- What the path that a text writes leads to. -/
def find (tree : FileTree) (path : Text) : Entry :=
  if pathLimit < encodedLength path then .nameTooLong
  else
    match path with
    | [] => .missing
    | '/' :: rest => tree.follow (.system []) (Text.split '/' rest)
    | path => tree.follow (.below []) (Text.split '/' path)

end FileTree

end LazyLisp
