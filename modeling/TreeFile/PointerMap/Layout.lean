import TreeFile.Geometry

/-!
The layout of the pointer map. In an auto-vacuum file page 2 and, at even distances, further
pages say of each page that follows them what it is used for and which page refers to it.
-/

namespace TreeFile

inductive PageRole where
  | root
  | free
  /-- First page of an overflow chain; its parent is the tree page with the cell. -/
  | overflowHead
  /-- A later page of an overflow chain; its parent is the page before it. -/
  | overflowNext
  /-- Any other page of a tree; its parent is the tree page above it. -/
  | treeNode
deriving DecidableEq, Repr, Inhabited

namespace PageRole

def name : PageRole → String
  | root => "RootPage"
  | free => "FreePage"
  | overflowHead => "Overflow1"
  | overflowNext => "Overflow2"
  | treeNode => "Btree"

def number : PageRole → UInt8
  | root => 1
  | free => 2
  | overflowHead => 3
  | overflowNext => 4
  | treeNode => 5

def ofNumber? (n : UInt8) : Option PageRole :=
  if n = 1 then some root
  else if n = 2 then some free
  else if n = 3 then some overflowHead
  else if n = 4 then some overflowNext
  else if n = 5 then some treeNode
  else none

end PageRole

/-- The use and the parent of a page, as the pointer map states them. -/
structure PointerEntry where
  role : PageRole
  parent : PageNo
deriving DecidableEq, Repr, Inhabited

namespace PointerMap

def entrySize : Nat := 5

def groupSize (usableSize : Nat) : Nat := usableSize / entrySize + 1

/-- The map page of the group that `page` is in, or zero for page 1. One that would fall on the
pending page comes one later. -/
def mapPage (usableSize pageSize : Nat) (page : PageNo) : PageNo :=
  if page < 2 then 0
  else
    let map := (page - 2) / groupSize usableSize * groupSize usableSize + 2
    if map = pendingPage pageSize then map + 1 else map

def isMapPage (usableSize pageSize : Nat) (page : PageNo) : Bool :=
  2 ≤ page && mapPage usableSize pageSize page == page

def entryStart (map page : PageNo) : Nat := entrySize * (page - map - 1)

end PointerMap

end TreeFile
