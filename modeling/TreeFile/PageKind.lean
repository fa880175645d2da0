/-!
The two kinds of tree and the four kinds of page they are made of.
-/

namespace TreeFile

inductive TreeKind where
  | table
  | index
deriving DecidableEq, Repr, Inhabited

inductive PageKind where
  | tableLeaf
  | tableInterior
  | indexLeaf
  | indexInterior
deriving DecidableEq, Repr, Inhabited

def TreeKind.name : TreeKind → String
  | table => "Table"
  | index => "Index"

namespace PageKind

def name : PageKind → String
  | tableLeaf => "TableLeaf"
  | tableInterior => "TableInterior"
  | indexLeaf => "IndexLeaf"
  | indexInterior => "IndexInterior"

def flags : PageKind → UInt8
  | tableLeaf => 0x0d
  | tableInterior => 0x05
  | indexLeaf => 0x0a
  | indexInterior => 0x02

def ofFlags? (flags : UInt8) : Option PageKind :=
  if flags = 0x0d then some tableLeaf
  else if flags = 0x05 then some tableInterior
  else if flags = 0x0a then some indexLeaf
  else if flags = 0x02 then some indexInterior
  else none

def leaf : TreeKind → PageKind
  | .table => tableLeaf
  | .index => indexLeaf

def interior : TreeKind → PageKind
  | .table => tableInterior
  | .index => indexInterior

def tree : PageKind → TreeKind
  | tableLeaf | tableInterior => .table
  | indexLeaf | indexInterior => .index

def isLeaf : PageKind → Bool
  | tableLeaf | indexLeaf => true
  | tableInterior | indexInterior => false

def hasRowIds (kind : PageKind) : Bool := kind.tree == .table

def headerSize (kind : PageKind) : Nat := if kind.isLeaf then 8 else 12

end PageKind

end TreeFile
