import LetModules.Files.Path

/-!
Files and folders held in memory. The names in a folder differ from one another. A path is followed
from a working folder piece by piece; only folders can be passed through.
-/

namespace LetModules

/-- A file or a folder under its name. -/
inductive Entry where
  /-- A regular file. It has no text if its bytes are not UTF-8. -/
  | file (name : String) (text : Option String)
  | folder (name : String) (entries : List Entry)
  deriving Repr

namespace Entry

def name : Entry → String
  | .file name _ => name
  | .folder name _ => name

/-- The entries of a folder. -/
def entries? : Entry → Option (List Entry)
  | .file .. => none
  | .folder _ entries => some entries

/-- Hidden entries have a name with a dot in front. -/
def isHidden (entry : Entry) : Bool := entry.name.toList.head? = some '.'

/-! ### Paths -/

/-- The entry that the pieces of a path lead to from `here`. The folders around `here` stand
innermost first. -/
def follow? (around : List Entry) (here : Entry) : List String → Option Entry
  | [] => some here
  | piece :: pieces =>
    match here.entries? with
    | none => none
    | some entries =>
      if piece = "" || piece = "." then follow? around here pieces
      else if piece = ".." then
        match around with
        | [] => none
        | outer :: around => follow? around outer pieces
      else
        match entries.find? (·.name = piece) with
        | some entry => follow? (here :: around) entry pieces
        | none => none

/-- The entry at a path, as seen from a working folder. Nothing outside of this folder can be
reached, and the empty path names nothing. -/
def find? (working : List Entry) (path : String) : Option Entry :=
  if path = "" || Path.isAbsolute path then none
  else follow? [] (.folder "" working) (Path.pieces path)

/-- Puts an entry where the names lead, and makes the folders on the way. What is there already
stays. -/
def place (entry : String → Entry) : List String → List Entry → List Entry
  | [], entries => entries
  | [name], entries =>
    if entries.any (·.name = name) then entries else entries ++ [entry name]
  | name :: names, entries =>
    if entries.any (·.name = name) then
      entries.map fun found =>
        match found with
        | .folder n inner => if n = name then .folder n (place entry names inner) else found
        | .file .. => found
    else entries ++ [.folder name (place entry names [])]

/-- The working folder with the given files. A path that ends in `/` stands for a folder. -/
def ofFiles (files : List (String × Option String)) : List Entry :=
  files.foldl
    (fun entries (path, text) =>
      if path.toList.getLast? = some '/' then place (.folder · []) (Path.components path) entries
      else place (.file · text) (Path.components path) entries)
    []

/-! ### Order -/

/-- Puts an entry before those with a greater name. -/
def insert (entry : Entry) : List Entry → List Entry
  | [] => [entry]
  | first :: rest =>
    if entry.name ≤ first.name then entry :: first :: rest else first :: insert entry rest

mutual

/-- An entry with the contents of all its folders in order of their names. -/
def sorted : Entry → Entry
  | .file name text => .file name text
  | .folder name entries => .folder name (sortedAll entries)

/-- Entries in order of their names, and so on inside of them. -/
def sortedAll : List Entry → List Entry
  | [] => []
  | entry :: entries => insert (sorted entry) (sortedAll entries)

end

end Entry

/-- What stands at each path. -/
abbrev Disk := String → Option Entry

namespace Disk

/-- The entries of the folder at a path. -/
def folder? (disk : Disk) (path : String) : Option (List Entry) := (disk path).bind Entry.entries?

end Disk

end LetModules
