/-!
Names of files. A path's file name is its last piece, if that is a name at all. A name is cut at
its last dot into stem and extension, unless that dot is its first character.
-/
namespace TapeLang.FileName

/-- The pieces of a path between its slashes, empty ones included. -/
def pieces : List Char → List (List Char)
  | [] => [[]]
  | c :: rest =>
    if c = '/' then [] :: pieces rest
    else
      match pieces rest with
      | [] => [[c]]
      | piece :: others => (c :: piece) :: others

/-- The file name of a path. Trailing slashes and single dots do not count; a path that has
nothing else, or ends in a double dot, has none. -/
def ofPath? (path : String) : Option String :=
  let named := (pieces path.toList).filter fun piece => piece ≠ [] ∧ piece ≠ ['.']
  match named.getLast? with
  | none => none
  | some name => if name = ['.', '.'] then none else some (String.ofList name)

def cutLastDot? : List Char → Option (List Char × List Char)
  | [] => none
  | c :: rest =>
    match cutLastDot? rest with
    | some (before, after) => some (c :: before, after)
    | none => if c = '.' then some ([], rest) else none

def split (name : String) : String × Option String :=
  if name = ".." then (name, none)
  else
    match cutLastDot? name.toList with
    | none => (name, none)
    | some ([], _) => (name, none)
    | some (before, after) => (String.ofList before, some (String.ofList after))

def stem (name : String) : String := (split name).1

def extension? (name : String) : Option String := (split name).2

/-- The name up to its extension, of which the dot stays. -/
def upToDot (name : String) : String :=
  match split name with
  | (_, none) => name
  | (before, some _) => before ++ "."

/-- Give a name another extension. What is left of the name without its old extension is cut at
its last dot once more; if no name is left but one or two dots, those are the answer. -/
def withExtension (name ext : String) : String :=
  let base := upToDot name
  if base = "." ∨ base = ".." then base else stem base ++ "." ++ ext

end TapeLang.FileName
