/-!
File paths as text, with `/` between components. Nothing is normalised when paths are joined; the
last component is found past trailing `/` and `/.`.
-/

namespace LetModules.Path

/-- The pieces of a path between its `/`. -/
def cutAtSlashes : List Char → List (List Char)
  | [] => [[]]
  | c :: cs =>
    match cutAtSlashes cs with
    | [] => [[c]]
    | piece :: pieces => if c = '/' then [] :: piece :: pieces else (c :: piece) :: pieces

/-- The texts of a path between its `/`. -/
def pieces (path : String) : List String := (cutAtSlashes path.toList).map String.ofList

/-- A path that starts at the root of the file system. -/
def isAbsolute (path : String) : Bool := path.toList.head? = some '/'

/-- The components of a path. Empty ones and `.` say nothing and are left out. -/
def components (path : String) : List String :=
  (pieces path).filter fun piece => piece ≠ "" && piece ≠ "."

/-- `path` as seen from the directory `base`. -/
def join (base path : String) : String :=
  if isAbsolute path then path
  else if base = "" || base.toList.getLast? = some '/' then base ++ path
  else base ++ "/" ++ path

/-- The last component, unless the path leads upwards or names no entry at all. -/
def fileName? (path : String) : Option String :=
  match (components path).getLast? with
  | some ".." | none => none
  | some name => some name

/-- A file name before and after its last dot. A dot at the front belongs to the name. -/
def cutAtDot (name : String) : String × Option String :=
  let backwards := name.toList.reverse
  let after := backwards.takeWhile (· ≠ '.')
  match backwards.dropWhile (· ≠ '.') with
  | '.' :: before =>
    if before.isEmpty then (name, none)
    else (String.ofList before.reverse, some (String.ofList after.reverse))
  | _ => (name, none)

/-- A file name without its extension. -/
def stem (name : String) : String := (cutAtDot name).1

/-- What follows the last dot of a file name. -/
def extension? (name : String) : Option String := (cutAtDot name).2

/-- The last component without its extension. -/
def fileStem? (path : String) : Option String := (fileName? path).map stem

end LetModules.Path
