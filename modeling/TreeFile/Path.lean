import TreeFile.Page.Basic

/-!
Paths down a tree, as the pages passed, the last one first.
-/

namespace TreeFile

/-- A page on a path. On an interior page `index` is the position of the child that the path goes
on to or, in an index, of the cell that it ends at. -/
structure Frame where
  page : Page
  index : Nat
deriving DecidableEq, Inhabited

abbrev Path := List Frame

namespace Path

def setIndex : Path → Nat → Path
  | [], _ => []
  | top :: rest, index => { top with index } :: rest

def ascend (stop : Frame → Bool) : Path → Option Path
  | _ :: parent :: rest =>
    if stop parent then some (parent :: rest) else ascend stop (parent :: rest)
  | _ => none

end Path

end TreeFile
