import LetModules.Layout
import LetModules.Problem

/-!
Layouts that have no module tree. A file in a directory of its own name folds the directory and owns
the directory's path; every other file owns the path of its directory and its own name. A package in
which two files would own one path, or two directories would, is refused.

A name that a file declares twice is no conflict of this kind: the first declaration counts and the
later ones are reported.
-/

namespace LetModules

/-- The entries whose key belongs to an earlier entry, or to `seen`. -/
def repeatsBy (key : α → String) (seen : List String) : List α → List α
  | [] => []
  | a :: rest =>
    if key a ∈ seen then a :: repeatsBy key seen rest else repeatsBy key (key a :: seen) rest

/-- The entries whose key belongs neither to an earlier entry nor to `seen`. -/
def firstsBy (key : α → String) (seen : List String) : List α → List α
  | [] => []
  | a :: rest =>
    if key a ∈ seen then firstsBy key seen rest else a :: firstsBy key (key a :: seen) rest

namespace ModuleSource

/-- The declarations that count: the first of each name. -/
def kept (file : ModuleSource) : List DeclarationHeader := firstsBy (·.name) [] file.declarations

/-- The problem of each declaration whose name the file has declared before. -/
def redeclarations (file : ModuleSource) (path : List String) : List Problem :=
  (repeatsBy (·.name) [] file.declarations).map fun header =>
    ⟨.duplicateDeclaration header.name (Text.joined path), header.span, file.file⟩

end ModuleSource

namespace DirectorySource

/-- Some file is named like the directory. -/
def isFolded (directory : DirectorySource) : Bool :=
  directory.files.any (·.name = directory.name)

/-- A file of the directory `name` folds it, unless the directory is a root. -/
def foldsInto (isRoot : Bool) (name : String) (file : ModuleSource) : Bool :=
  !isRoot && file.name = name

/-- The path that a file of a directory owns. -/
def ownedPath (isRoot : Bool) (name : String) (path : List String) (file : ModuleSource) :
    List String :=
  if foldsInto isRoot name file then path else path ++ [file.name]

/-- The problem of several files that fold one directory, reported at the second. -/
def foldConflicts (path : List String) (folding : List ModuleSource) : List Problem :=
  match folding with
  | _ :: second :: _ =>
    [⟨.ambiguousFold (Text.joined path) folding.length, none, second.file⟩]
  | _ => []

/-- The problem of each plain file whose name an earlier one has. -/
def fileConflicts (path : List String) (plain : List ModuleSource) : List Problem :=
  (repeatsBy (·.name) [] plain).map fun file =>
    ⟨.duplicateModule (Text.joined (path ++ [file.name])), none, file.file⟩

mutual

/-- The conflicts in and below a directory, which has the path `path`. -/
def conflicts (isRoot : Bool) (path : List String) : DirectorySource → List Problem
  | ⟨name, files, directories⟩ =>
    let plain := files.filter (!foldsInto isRoot name ·)
    foldConflicts path (files.filter (foldsInto isRoot name)) ++ fileConflicts path plain ++
      childConflicts path (plain.map (·.name)) [] directories

/-- The conflicts of the sub-directories of `path`: one has the name of an earlier one, or is folded
and has the name of a plain file beside it. -/
def childConflicts (path plain seen : List String) : List DirectorySource → List Problem
  | [] => []
  | child :: rest =>
    let childPath := path ++ [child.name]
    let clash := seen.contains child.name || (child.isFolded && plain.contains child.name)
    (if clash then [.of (.duplicateModule (Text.joined childPath))] else []) ++
      conflicts false childPath child ++ childConflicts path plain (child.name :: seen) rest

end

mutual

/-- The repeated declarations in and below a directory, which has the path `path`. -/
def redeclarations (isRoot : Bool) (path : List String) : DirectorySource → List Problem
  | ⟨name, files, directories⟩ =>
    files.flatMap (fun file => file.redeclarations (ownedPath isRoot name path file)) ++
      childRedeclarations path directories

/-- The repeated declarations below the sub-directories of `path`. -/
def childRedeclarations (path : List String) : List DirectorySource → List Problem
  | [] => []
  | child :: rest =>
    redeclarations false (path ++ [child.name]) child ++ childRedeclarations path rest

end

end DirectorySource

namespace PackageSource

/-- The source root, and the test root if there is one. -/
def roots (package : PackageSource) : List DirectorySource :=
  package.source :: package.test.toList

/-- The reasons for which the package has no place in a tree. -/
def conflicts (package : PackageSource) : List Problem :=
  package.roots.flatMap (DirectorySource.conflicts true [])

/-- The repeated declarations of the package. -/
def redeclarations (package : PackageSource) : List Problem :=
  package.roots.flatMap (DirectorySource.redeclarations true [])

end PackageSource

end LetModules
