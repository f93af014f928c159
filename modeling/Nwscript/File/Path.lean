/-! # Paths

Texts that name files. Slashes divide the parts of a path; empty parts and single dots name the place
where they stand, and two dots the directory above. -/

namespace Nwscript.Path

def splitSlash : List Char → List (List Char)
  | [] => [[]]
  | '/' :: rest => [] :: splitSlash rest
  | c :: rest =>
    match splitSlash rest with
    | [] => [[c]]
    | part :: parts => (c :: part) :: parts

def parts (path : String) : List String := (splitSlash path.toList).map String.ofList

def moves (path : String) : List String := (parts path).filter fun p => p != "" && p != "."

def isAbsolute (path : String) : Bool := path.toList.head? == some '/'

def fileName? (path : String) : Option String :=
  match (moves path).getLast? with
  | some name => if name == ".." then none else some name
  | none => none

def directory (path : String) : String :=
  let above := String.intercalate "/" (moves path).dropLast
  if isAbsolute path && !(moves path).isEmpty then "/" ++ above
  else if above.isEmpty then "."
  else above

def join (dir path : String) : String :=
  if isAbsolute path || dir.isEmpty then path
  else if dir.toList.getLast? == some '/' then dir ++ path
  else dir ++ "/" ++ path

/-- A file name without its ending. A dot in front does not start an ending. -/
def stem (name : String) : String :=
  let ending := name.toList.reverse.takeWhile (· != '.')
  let before := (name.toList.reverse.drop (ending.length + 1)).reverse
  if before.isEmpty then name else String.ofList before

def withEnding (path ending : String) : String :=
  match fileName? path with
  | some name => join (directory path) (stem name ++ "." ++ ending)
  | none => path

end Nwscript.Path
