import LetModules.Tree

/-!
What a package may import from: which package a name stands for, and which packages depend on which.
-/

namespace LetModules

/-- The packages by name, and the dependencies between them. -/
structure Registry where
  /-- Names and the packages they stand for. A later entry for a name overrides an earlier one. -/
  names : List (String × PackageId)
  /-- Packages, each with one that it depends on. -/
  edges : List (PackageId × PackageId)
  deriving DecidableEq, Repr

namespace Registry

/-- The package that a name stands for. -/
def lookup (registry : Registry) (name : String) : Option PackageId :=
  (registry.names.reverse.find? (·.1 = name)).map (·.2)

/-- `dependent` has declared a dependency on `dependency`. -/
def dependsOn (registry : Registry) (dependent dependency : PackageId) : Bool :=
  registry.edges.contains (dependent, dependency)

/-- The packages that `dependent` depends on. -/
def dependencies (registry : Registry) (dependent : PackageId) : List PackageId :=
  (registry.edges.filter (·.1 = dependent)).map (·.2)

/-- The dependencies of a package that are packages of the tree, each once. -/
def edgesOf (tree : ModuleTree) (package : Package) : List (PackageId × PackageId) :=
  let known := package.dependencies.filterMap fun name => (tree.packageNamed? name).map (·.id)
  known.eraseDups.map fun dependency => (package.id, dependency)

/-- The registry of the packages of a tree, by the names and dependencies they declare. -/
def ofTree (tree : ModuleTree) : Registry where
  names := tree.packages.map fun package => (package.name, package.id)
  edges := tree.packages.flatMap (edgesOf tree)

end Registry

end LetModules
