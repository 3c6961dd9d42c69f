import Unknowns.Comm.Rounds

/-!
# Tags of the rounds

The rounds of a build have one tag each, nine in a row from a base.  Tags wrap
around at the end of their range.  One tag of its own is reserved for gathering.
-/

namespace Unknowns

/-- The tags of the rounds of a build. -/
structure Tags where
  sizes : Tag
  claims : Tag
  owners : Tag
  gidsUp : Tag
  gidsDown : Tag
  graphSizes : Tag
  graphRows : Tag
  ghostSizes : Tag
  ghostGids : Tag
deriving DecidableEq

namespace Tags

/-- Consecutive tags from a base. -/
def ofBase (base : Tag) : Tags :=
  ⟨base, base + 1, base + 2, base + 3, base + 4, base + 5, base + 6, base + 7, base + 8⟩

/-- The tags in use where no base is given. -/
def standard : Tags := ofBase 0xD0F0

instance : Inhabited Tags := ⟨standard⟩

/-- The tags in the order of their rounds. -/
def toList (t : Tags) : List Tag :=
  [t.sizes, t.claims, t.owners, t.gidsUp, t.gidsDown, t.graphSizes, t.graphRows, t.ghostSizes,
    t.ghostGids]

/-- The names of the rounds. -/
def names : List String :=
  ["sizes", "claims", "owners", "gids_up", "gids_down", "graph_sizes", "graph_rows", "ghost_sizes",
    "ghost_gids"]

/-- The tags in words. -/
def text (t : Tags) : String :=
  "DofCommTags \x7b " ++
    ", ".intercalate ((names.zip t.toList).map fun p => s!"{p.1}: CommTag({p.2.toNat})") ++ " \x7d"

end Tags

/-- The tag of messages that are gathered from all ranks. -/
def gatherTag : Tag := 0xFFF0

end Unknowns
