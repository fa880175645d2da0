import TreeFile.Page.Space

/-!
Changing the cells of a page: inserting and dropping one, and laying out a whole list anew.
-/

namespace TreeFile

namespace Error

def insertPosition (i count : Nat) : Error := range s!"insert at {i} past {count} cells"

def cellsDoNotFit (count : Nat) (page : PageNo) : Error :=
  internal s!"{count} cells do not fit on page {page}"

end Error

namespace Page

def reset (kind : PageKind) : Action Page Unit := do
  let p ← get
  edit (Bytes.clear p.headerStart p.usable)
  modify fun p =>
    let p := { p with header := .empty kind p.usable, parked := [] }
    { p with freeBytes := p.usable - p.pointersStart }
  writeHeader

def blank (number : PageNo) (kind : PageKind) (geometry : Geometry) (limits : PayloadLimits) :
    Page where
  number := number
  data := Bytes.zeros geometry.pageSize
  geometry := geometry
  limits := limits
  header := .empty kind geometry.usableSize
  freeBytes := 0
  parked := []

def empty (number : PageNo) (kind : PageKind) (geometry : Geometry) (limits : PayloadLimits) :
    Except Error Page :=
  Action.applied (reset kind) (blank number kind geometry limits)

def setRightChild (child : PageNo) : Action Page Unit := do
  if (← get).isLeaf then throw .leafHasNoRightChild
  setHeader fun h => { h with rightChild := some child }
  writeHeader

def setChild (i : Nat) (child : PageNo) : Action Page Unit := do
  let p ← get
  if p.isLeaf then throw .leafHasNoChildren
  if i < p.cellCount then
    let start ← p.pointer i
    edit (Bytes.putU32 start child)
  else if i = p.cellCount then setRightChild child
  else throw ⟨.range, none⟩

def park (i : Nat) (cell : Bytes) : Action Page Unit :=
  modify fun p => { p with parked := p.parked ++ [(i, cell)] }

def place (i : Nat) (cell : Bytes) : Action Page Unit := do
  let start ← allocate cell.size
  edit (Bytes.put start cell)
  let p ← get
  let slot := p.pointersStart + i * pointerSize
  let pointersEnd := p.pointersEnd
  edit (Bytes.move slot pointersEnd (slot + pointerSize))
  edit (Bytes.putU16 slot start)
  setHeader fun h => { h with cellCount := h.cellCount + 1 }
  loseFree pointerSize
  writeHeader

/-- Inserts a cell at position `i`. It is parked if there is no room for it or another cell is
already parked. -/
def insert (i : Nat) (cell : Bytes) : Action Page Unit := do
  let p ← get
  if i > p.logicalCount then throw (.insertPosition i p.logicalCount)
  if p.hasParked || cell.size + pointerSize > p.freeBytes ||
      p.cellCount + 1 > p.geometry.maxCells then
    park i cell
  else place i cell

def clearContent : Action Page Unit := do
  let p ← get
  edit (Bytes.clear p.pointersStart p.usable)
  setHeader fun h => { h with firstFree := 0, fragments := 0, contentStart := p.usable }
  modify fun p => { p with freeBytes := p.usable - p.pointersStart }

def drop (i : Nat) : Action Page Unit := do
  let p ← get
  let start ← p.pointer i
  let info ← p.cellInfo i
  let slot := p.pointersStart + i * pointerSize
  let pointersEnd := p.pointersEnd
  free start info.size
  edit (Bytes.move (slot + pointerSize) pointersEnd slot)
  edit (Bytes.clear (pointersEnd - pointerSize) pointersEnd)
  setHeader fun h => { h with cellCount := h.cellCount - 1 }
  gainFree pointerSize
  if (← get).cellCount = 0 then clearContent
  writeHeader

def fits (p : Page) (cells : List Bytes) (kind : PageKind) : Bool :=
  let room := p.usable - p.headerStart - kind.headerSize
  total (cells.map fun cell => cell.size + pointerSize) ≤ room &&
    cells.length ≤ p.geometry.maxCells

/-- Lays cells out downwards from `top` and points at them from position `i` on. Answers where
the last one starts. -/
def layOut : List Bytes → (i top : Nat) → Action Page Nat
  | [], _, top => return top
  | cell :: rest, i, top => do
    if cell.size > top then throw .outOfBounds
    let top := top - cell.size
    edit (Bytes.put top cell)
    setPointer i top
    layOut rest (i + 1) top

def rebuild (kind : PageKind) (cells : List Bytes) (rightChild : Option PageNo) :
    Action Page Unit := do
  let p ← get
  if !p.fits cells kind then throw (.cellsDoNotFit cells.length p.number)
  reset kind
  let top ← layOut cells 0 p.usable
  setHeader fun h => { h with
    cellCount := cells.length
    contentStart := top
    rightChild := if kind.isLeaf then h.rightChild else some (rightChild.getD 0) }
  modify fun p => { p with freeBytes := top - p.pointersEnd }
  writeHeader

end Page

end TreeFile
