import TapeLang.FileName

/-!
A model of a file system: directories, regular files, some of which may be written but not read,
symbolic links, and two devices of which one swallows everything and the other has no room for
anything. A file may have several names. Paths are resolved piece by piece, and a symbolic link
stands for the path that it holds.
-/
namespace TapeLang

inductive Entry where
  | directory
  | file (content : Array UInt8)
  | locked (content : Array UInt8)
  | link (target : String)
  | nullDevice
  | fullDevice
  deriving DecidableEq, Repr, Inhabited

inductive FileError where
  | notFound
  | notDirectory
  | isDirectory
  | noSpace
  | nameTooLong
  | nulInName
  | permissionDenied
  | tooManyLinks
  deriving DecidableEq, Repr, Inhabited

namespace FileError

def message : FileError → String
  | notFound => "No such file or directory (os error 2)"
  | notDirectory => "Not a directory (os error 20)"
  | isDirectory => "Is a directory (os error 21)"
  | noSpace => "No space left on device (os error 28)"
  | nameTooLong => "File name too long (os error 36)"
  | nulInName => "file name contained an unexpected NUL byte"
  | permissionDenied => "Permission denied (os error 13)"
  | tooManyLinks => "Too many levels of symbolic links (os error 40)"

end FileError

/-- Entries by their names from the root down. The root itself is always there. A second name of a
file is listed with the first. -/
structure FileSystem where
  entries : List (List String × Entry) := []
  secondNames : List (List String × List String) := []
  workingDirectory : List String := []
  deriving DecidableEq, Repr, Inhabited

namespace FileSystem

/-- The first name of the file at a place. Places are of one file if these are equal. -/
def firstName (fs : FileSystem) (names : List String) : List String :=
  (fs.secondNames.lookup names).getD names

def get? (fs : FileSystem) (names : List String) : Option Entry :=
  if names = [] then some .directory else fs.entries.lookup (fs.firstName names)

def replace (names : List String) (entry : Entry) :
    List (List String × Entry) → List (List String × Entry)
  | [] => [(names, entry)]
  | e :: rest => if e.1 = names then (names, entry) :: rest else e :: replace names entry rest

def set (fs : FileSystem) (names : List String) (entry : Entry) : FileSystem :=
  { fs with entries := replace (fs.firstName names) entry fs.entries }

def add (fs : FileSystem) (names : List String) (entry : Entry) : FileSystem :=
  let parents := (List.range names.length).map fun n => names.take n
  let missing := parents.filter fun p => (fs.get? p).isNone
  (missing.foldl (fun fs p => fs.set p .directory) fs).set names entry

def isDirectory (fs : FileSystem) (names : List String) : Bool := fs.get? names = some .directory

def pieces (path : String) : List String := (FileName.pieces path.toList).map String.ofList

/-- Where a path starts: at the root if it begins with a slash, else where it is met. -/
def startFrom (place : List String) (path : String) : List String :=
  if path.toList.head? = some '/' then [] else place

def start (fs : FileSystem) (path : String) : List String := startFrom fs.workingDirectory path

/-- Follow pieces of a path from a place. Every piece but the first needs a directory before it,
so a trailing slash asks for one. At a symbolic link `jump` takes over, with the pieces of its path
put before the rest. -/
def walk (fs : FileSystem) (jump : List String → List String → Except FileError (List String))
    (place : List String) : List String → Except FileError (List String)
  | [] => .ok place
  | piece :: rest =>
    if ¬ fs.isDirectory place then .error .notDirectory
    else if piece = "" ∨ piece = "." then fs.walk jump place rest
    else if piece = ".." then fs.walk jump place.dropLast rest
    else if 255 < piece.utf8ByteSize then .error .nameTooLong
    else
      match fs.get? (place ++ [piece]) with
      | none => .error .notFound
      | some (.link target) => jump (startFrom place target) (pieces target ++ rest)
      | some _ => fs.walk jump (place ++ [piece]) rest

/-- Follow pieces of a path through at most so many symbolic links. -/
def follow (fs : FileSystem) : Nat → List String → List String → Except FileError (List String)
  | 0 => fs.walk fun _ _ => .error .tooManyLinks
  | links + 1 => fs.walk (fs.follow links)

def maxLinks : Nat := 40

/-- Paths that no file can have. -/
def checkPath (path : String) : Except FileError Unit :=
  if path.toList.contains (Char.ofNat 0) then .error .nulInName
  else if path = "" then .error .notFound
  else if 4096 ≤ path.utf8ByteSize then .error .nameTooLong
  else .ok ()

def place (fs : FileSystem) (path : String) : Except FileError (List String) := do
  checkPath path
  fs.follow maxLinks (fs.start path) (pieces path)

/-- The entry that a path leads to. -/
def find (fs : FileSystem) (path : String) : Except FileError Entry := do
  let names ← fs.place path
  match fs.get? names with
  | some entry => .ok entry
  | none => .error .notFound

/-- The place at which a file is to be created. The last piece of its path need not exist yet, but
must be a name. If it is the name of a symbolic link, `jump` goes on with the path of that. -/
def makeAt (fs : FileSystem) (jump : List String → List String → Except FileError (List String))
    (links : Nat) (place pieces : List String) : Except FileError (List String) := do
  let slashed := pieces.reverse
  let named := slashed.dropWhile (· = "")
  match named with
  | [] => .error .isDirectory
  | last :: before =>
    let directory ← fs.follow links place before.reverse
    if ¬ fs.isDirectory directory then .error .notDirectory
    else if last = "." ∨ last = ".." ∨ named.length < slashed.length then .error .isDirectory
    else if 255 < last.utf8ByteSize then .error .nameTooLong
    else
      match fs.get? (directory ++ [last]) with
      | some (.link target) => jump (startFrom directory target) (FileSystem.pieces target)
      | _ => .ok (directory ++ [last])

def make (fs : FileSystem) : Nat → List String → List String → Except FileError (List String)
  | 0 => fs.makeAt (fun _ _ => .error .tooManyLinks) 0
  | links + 1 => fs.makeAt (fs.make links) (links + 1)

def creationPlace (fs : FileSystem) (path : String) : Except FileError (List String) := do
  checkPath path
  fs.make maxLinks (fs.start path) (pieces path)

/-- Open a file for writing from its start, and give its place and what was there. -/
def openForWriting (fs : FileSystem) (path : String) :
    Except FileError (List String × Option Entry) := do
  let names ← fs.creationPlace path
  match fs.get? names with
  | some .directory => .error .isDirectory
  | entry => .ok (names, entry)

end FileSystem

end TapeLang
