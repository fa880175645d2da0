import TreeFile.FileHeader
import TreeFile.Page.Edit
import TreeFile.Pager.Transaction
import TreeFile.PointerMap.Layout

/-!
The store: a file of trees, open for work. It reads and writes whole pages through the pager and
keeps the file header, which shares page 1 with a tree, apart from that tree.
-/

namespace TreeFile

structure Store where
  pager : Pager
  pageSize : Nat
  usableSize : Nat
  limits : PayloadLimits
  vacuum : VacuumMode
  /-- Counts changes of structure. A cursor that has seen an earlier number looks for its place
  anew. -/
  generation : Nat := 0
  isOpen : Bool := true
deriving Inhabited

abbrev StoreM := Action Store

namespace Error

def outsideFile (page count : PageNo) : Error :=
  corrupt s!"page {page} outside file of {count} pages"

def unplacedCells (page : PageNo) (count : Nat) : Error :=
  internal s!"page {page} written with {count} unplaced cells"

end Error

namespace Store

def ofConfig (pager : Pager) (c : Config) : Store where
  pager := pager
  pageSize := c.pageSize
  usableSize := c.usableSize
  limits := .ofConfig c
  vacuum := c.vacuum

def onPager {α : Type} (act : Action Pager α) : StoreM α :=
  Action.zoom Store.pager (fun s pager => { s with pager }) act

def pageCount (s : Store) : Nat := s.pager.pageCount

def geometry (s : Store) (page : PageNo) : Geometry := .ofPage page s.pageSize s.usableSize

def isMapPage (s : Store) (page : PageNo) : Bool :=
  s.vacuum.isEnabled && PointerMap.isMapPage s.usableSize s.pageSize page

def isReserved (s : Store) (page : PageNo) : Bool :=
  s.isMapPage page || page == pendingPage s.pageSize

def firstUnreserved (s : Store) (page : PageNo) : PageNo :=
  if !s.isReserved page then page
  else if !s.isReserved (page + 1) then page + 1
  else page + 2

def lastUnreserved (s : Store) : (page : PageNo) → PageNo
  | 0 => 0
  | n + 1 => if n + 1 > 1 && s.isReserved (n + 1) then lastUnreserved s n else n + 1

def bumpGeneration : StoreM Unit := modify fun s => { s with generation := s.generation + 1 }

def readPage (page : PageNo) : StoreM Bytes := do
  let count := (← get).pageCount
  if page = 0 || page > count then throw (.outsideFile page count)
  return (← onPager (Pager.fetch page)).data

def putPage (page : PageNo) (data : Bytes) : StoreM Unit := onPager (Pager.write page data)

def putFresh (page : PageNo) (data : Bytes) : StoreM Unit := do
  putPage page (data.resize (← get).pageSize)

def loadPage (page : PageNo) : StoreM Page := do
  let data ← readPage page
  let s ← get
  Page.parse page data (s.geometry page) s.limits

/-- Writes a tree page without parked cells. On page 1 the file header stays as it is now, which
may differ from what it was when the page was read. -/
def writePage (page : Page) : StoreM Unit := do
  if page.hasParked then throw (.unplacedCells page.number page.parked.length)
  if page.number = 1 then
    let header := (← readPage 1).extract 0 fileHeaderSize
    putPage 1 (page.data.overwrite 0 header)
  else putPage page.number page.data

def emptyPage (page : PageNo) (kind : PageKind) : StoreM Page := do
  let s ← get
  Page.empty page kind (s.geometry page) s.limits

def headerWord (offset : Nat) : StoreM Nat := do
  (← readPage 1).u32 offset

def setHeaderWord (offset value : Nat) : StoreM Unit := do
  let data ← readPage 1
  if (← data.u32 offset) ≠ value then
    putPage 1 (← Action.applied (Bytes.putU32 offset value) data)

def atomically {α : Type} (act : StoreM α) : StoreM α := do
  let _ ← onPager Pager.openSavepoint
  match ← Action.attempt act with
  | .ok a =>
    onPager Pager.releaseSavepoint
    return a
  | .error e =>
    onPager Pager.rollbackSavepoint
    bumpGeneration
    throw e

end Store

end TreeFile
