import TreeFile.Config

/-!
Where things lie on a page, and the one page of a large file that is never used.
-/

namespace TreeFile

def fileHeaderSize : Nat := 100

def pointerSize : Nat := 2

def minCellSize : Nat := 4

def maxFragments : Nat := 60

def maxDepth : Nat := 20

/-- The page that holds this byte of the file stays unused: it is where file locks are taken. -/
def pendingByte : Nat := 0x40000000

def pendingPage (pageSize : Nat) : PageNo := pendingByte / pageSize + 1

structure Geometry where
  pageSize : Nat
  usableSize : Nat
  headerStart : Nat
deriving DecidableEq, Repr, Inhabited

namespace Geometry

def ofPage (page : PageNo) (pageSize usableSize : Nat) : Geometry :=
  ⟨pageSize, usableSize, if page = 1 then fileHeaderSize else 0⟩

def maxCells (g : Geometry) : Nat := (g.pageSize - 8) / 6

end Geometry

end TreeFile
