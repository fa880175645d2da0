import TreeFile.Cell
import TreeFile.Page.Header
import TreeFile.Total

/-!
Tree pages. After the header come pointers to the cells, in key order; the cells themselves lie
at the end of the page, in any order, and between the two is a gap. Space that cells gave back is
kept on a chain of free blocks in ascending order.

A page also holds parked cells: those that found no room and wait to be moved to a sibling.
-/

namespace TreeFile

structure Page where
  number : PageNo
  data : Bytes
  geometry : Geometry
  limits : PayloadLimits
  header : PageHeader
  freeBytes : Nat
  /-- Cells without a place, each with its position at the time it came, in order of coming. -/
  parked : List (Nat × Bytes)
deriving DecidableEq, Inhabited

namespace Error

def onPage (page : PageNo) (what : String) : Error := corrupt s!"page {page}: {what}"

def cellIndex (i count : Nat) (page : PageNo) : Error :=
  range s!"cell {i} of {count} on page {page}"

def cellPointer (page : PageNo) (pointer : Nat) : Error :=
  onPage page s!"cell pointer {pointer} out of bounds"

def cellPastUsable (page : PageNo) (i : Nat) : Error :=
  onPage page s!"cell {i} extends past usable area"

def leafHasNoChildren : Error := internal "leaf page has no children"
def leafHasNoRightChild : Error := internal "leaf page has no right child"
def zeroChild (page : PageNo) (i : Nat) : Error := onPage page s!"child {i} is page 0"

def freeBlockOrder (page : PageNo) (start : Nat) : Error :=
  onPage page s!"freeblock at {start} out of order"

def freeBlockSize (page : PageNo) (start size : Nat) : Error :=
  onPage page s!"freeblock at {start} has size {size}"

def cellPosition (i count : Nat) : Error :=
  internal s!"overflow cell index {i} past {count}"

end Error

namespace Page

def kind (p : Page) : PageKind := p.header.kind

def isLeaf (p : Page) : Bool := p.kind.isLeaf

def cellCount (p : Page) : Nat := p.header.cellCount

def hasParked (p : Page) : Bool := !p.parked.isEmpty

def logicalCount (p : Page) : Nat := p.cellCount + p.parked.length

def headerStart (p : Page) : Nat := p.geometry.headerStart

def usable (p : Page) : Nat := p.geometry.usableSize

def pointersStart (p : Page) : Nat := p.headerStart + p.kind.headerSize

def pointersEnd (p : Page) : Nat := p.pointersStart + p.cellCount * pointerSize

def capacity (p : Page) : Nat := p.usable - p.pointersStart

def isUnderfull (p : Page) : Bool := p.freeBytes > p.usable / 2

def window (p : Page) : Window := ⟨p.data, p.usable⟩

def storedPointer (p : Page) (i : Nat) : Except Error Nat :=
  match p.data.u16? (p.pointersStart + i * pointerSize) with
  | some pointer => .ok pointer
  | none => .error (.onPage p.number "cell pointer array truncated")

def pointer (p : Page) (i : Nat) : Except Error Nat := do
  if i ≥ p.cellCount then throw (.cellIndex i p.cellCount p.number)
  let pointer ← p.storedPointer i
  if pointer < p.pointersEnd || pointer + minCellSize > p.usable then
    throw (.cellPointer p.number pointer)
  return pointer

def pointers (p : Page) : Except Error (List Nat) :=
  (List.range p.cellCount).mapM p.pointer

def cellInfo (p : Page) (i : Nat) : Except Error CellInfo := do
  Cell.decode p.window (← p.pointer i) p.kind p.limits

def cellBytes (p : Page) (i : Nat) : Except Error Bytes := do
  let start ← p.pointer i
  let info ← p.cellInfo i
  if start + info.size ≤ p.data.size then return p.data.extract start (start + info.size)
  else throw (.onPage p.number "cell extends past page")

def placedCells (p : Page) : Except Error (List Bytes) :=
  (List.range p.cellCount).mapM p.cellBytes

def unpark : List Bytes → List (Nat × Bytes) → Except Error (List Bytes)
  | cells, [] => .ok cells
  | cells, (i, cell) :: rest =>
    if i ≤ cells.length then unpark (cells.insertIdx i cell) rest
    else .error (.cellPosition i cells.length)

def logicalCells (p : Page) : Except Error (List Bytes) := do
  unpark (← p.placedCells) p.parked

def child (p : Page) (i : Nat) : Except Error PageNo := do
  if p.isLeaf then throw .leafHasNoChildren
  let child ←
    if i < p.cellCount then
      match p.data.u32? (← p.pointer i) with
      | some child => pure child
      | none => throw (.onPage p.number "child pointer truncated")
    else if i = p.cellCount then pure (p.header.rightChild.getD 0)
    else throw ⟨.range, none⟩
  if child = 0 then throw (.zeroChild p.number i)
  return child

def children (p : Page) : Except Error (List PageNo) :=
  (List.range (p.cellCount + 1)).mapM p.child

def findChild (p : Page) (child : PageNo) : Except Error (Option Nat) :=
  go (p.cellCount + 1) 0
where
  go : Nat → Nat → Except Error (Option Nat)
    | 0, _ => .ok none
    | left + 1, i => do
      if (← p.child i) = child then return some i else go left (i + 1)

/-- The free blocks from the one at `start` on, each with its size. Each must lie behind the one
before it, so no more than `left` of them fit on a page. -/
def freeBlocksFrom (p : Page) : (left lastEnd start : Nat) → Except Error (List (Nat × Nat))
  | left, lastEnd, start => do
    if start = 0 then return []
    if start < lastEnd || start + 4 > p.usable then throw (.freeBlockOrder p.number start)
    let next := (p.data.u16? start).getD 0
    let size := (p.data.u16? (start + 2)).getD 0
    if size < 4 || start + size > p.usable then throw (.freeBlockSize p.number start size)
    match left with
    | 0 => throw (.onPage p.number "freeblock chain loops")
    | left + 1 => return (start, size) :: (← p.freeBlocksFrom left (start + size) next)

def freeBlocks (p : Page) : Except Error (List (Nat × Nat)) :=
  p.freeBlocksFrom (p.usable / minCellSize) p.header.contentStart p.header.firstFree

def countFreeBytes (p : Page) : Except Error Nat := do
  let blocks ← p.freeBlocks
  let free := (p.header.contentStart - p.pointersEnd) + total (blocks.map Prod.snd) +
    p.header.fragments
  if free > p.capacity then throw (.onPage p.number "free space exceeds page")
  return free

def checkCell (p : Page) (i : Nat) : Except Error Unit := do
  let pointer ← p.storedPointer i
  if pointer < p.header.contentStart || pointer ≥ p.usable then
    throw (.cellPointer p.number pointer)
  let info ← p.cellInfo i
  if pointer + info.size > p.usable then throw (.cellPastUsable p.number i)

/-- Reads the header and checks that pointers, cells and free blocks lie where they may. Cells
are not checked against each other. -/
def parse (number : PageNo) (data : Bytes) (geometry : Geometry) (limits : PayloadLimits) :
    Except Error Page := do
  let bad what : Error := .onPage number what
  if data.size < geometry.pageSize || geometry.headerStart + 8 > geometry.usableSize then
    throw (bad "page image too short")
  let header ←
    match PageHeader.parse data geometry.headerStart with
    | .ok header => pure header
    | .error e => throw (bad (e.detail.getD "bad page header"))
  let page : Page := { number, data, geometry, limits, header, freeBytes := 0, parked := [] }
  if page.cellCount > geometry.maxCells then throw (bad "cell count exceeds page capacity")
  if page.pointersEnd > page.usable then throw (bad "cell pointer array overruns page")
  if header.contentStart < page.pointersEnd || header.contentStart > page.usable then
    throw (bad "content area overlaps pointer array")
  (List.range page.cellCount).forM page.checkCell
  return { page with freeBytes := ← page.countFreeBytes }

end Page

end TreeFile
