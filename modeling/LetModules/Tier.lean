/-!
The four visibility tiers of a declaration. Tiers say who may see a declaration by its place in the
module tree; the rule itself is in `LetModules.Visibility`.
-/

namespace LetModules

/-- Who may see a declaration. -/
inductive Tier where
  /-- Only the module that owns it. -/
  | «private»
  /-- The owner's directory and everything below it. -/
  | «protected»
  /-- The package of the owner. -/
  | internal
  /-- Everyone, other packages included. -/
  | «public»
  deriving DecidableEq, Repr

namespace Tier

/-- All tiers, from the narrowest to the widest. -/
def all : List Tier := [.private, .protected, .internal, .public]

/-- The keyword of a tier. -/
def keyword : Tier → String
  | .private => "private"
  | .protected => "protected"
  | .internal => "internal"
  | .public => "public"

/-- The tier that a name stands for. -/
def ofName? (word : String) : Option Tier := all.find? (·.keyword = word)

/-- The tier that a keyword of the language stands for: its name, or `export` for public. -/
def ofKeyword? (word : String) : Option Tier :=
  if word = "export" then some .public else ofName? word

/-- Hidden from every module but its owner. -/
def isPrivate (tier : Tier) : Bool := tier = .private

end Tier

end LetModules
