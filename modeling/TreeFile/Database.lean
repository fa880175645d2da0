import TreeFile.Tree
import TreeFile.Integrity

/-!
Databases: what a user of the engine does with a file, apart from what cursors do. Each call that
changes trees or pages is a statement: if it fails, the file is as it was before.
-/

namespace TreeFile

namespace Error

def shorterThanHeader : Error := notADb "file shorter than its header"

def rootOutsideFile (root count : PageNo) : Error :=
  misuse s!"root page {root} outside file of {count} pages"

def cannotDropFirst : Error := misuse "page 1 cannot be dropped"
def cannotFree (page : PageNo) : Error := misuse s!"page {page} cannot be freed"
def metaIndex (i : Nat) : Error := range s!"meta index {i}"
def metaMaintained (i : Nat) : Error := misuse s!"meta value {i} is maintained by the engine"

def vacuumModeFixed : Error := misuse "vacuum mode can only change in an auto-vacuum database"

end Error

namespace Database

open Store FileHeader

def format (c : Config) : StoreM Unit := do
  let page ← emptyPage 1 (.leaf .table)
  let data ← Action.applied (FileHeader.ofConfig c).write page.data
  onPager Pager.begin
  putPage 1 data
  onPager Pager.commit

def headerConfig (h : FileHeader) (c : Config) : Config := { c with
  pageSize := h.pageSize
  reserved := h.reserved
  vacuum := h.vacuum
  maxFraction := h.maxFraction
  minFraction := h.minFraction
  leafFraction := h.leafFraction }

def validateHeader (c : Config) : Except Error Unit :=
  match c.validate with
  | .ok () => .ok ()
  | .error e => .error (.notADb e.message)

/-- The settings to open a file with, and whether it is new. What the header says comes before
what the caller asks for. -/
def findConfig (c : Config) : Action Pager (Config × Bool) := do
  let (present, start) ← Pager.readStart fileHeaderSize
  if present = 0 then return (c, true)
  if present < fileHeaderSize then throw .shorterThanHeader
  let c := headerConfig (← FileHeader.parse start) c
  validateHeader c
  Pager.setPageSize c.pageSize
  return (c, false)

/-- A store over a pager. A new file is formatted; of another one page 1 must be readable. -/
def ofPager (pager : Pager) (c : Config) (isNew : Bool) : Except Error Store :=
  let pager := { pager with maxPages := max c.maxPages.toNat pager.pageCount }
  Action.applied (if isNew then format c else do let _ ← loadPage 1) (Store.ofConfig pager c)

def openFile (file : File) (c : Config) : Except Error Store := do
  c.validate
  let ((c, isNew), pager) ← Action.apply (findConfig c) (← Pager.ofFile file c.pageSize)
  ofPager pager c isNew

def inMemory (c : Config) : Except Error Store := do
  c.validate
  ofPager (← Pager.ownFile c.pageSize) c true

def close : StoreM Unit := do
  onPager Pager.rollback
  bumpGeneration
  modify fun s => { s with isOpen := false }

def begin : StoreM Unit := onPager Pager.begin

def inTransaction : StoreM Bool := return (← get).pager.state = .writing

def stampHeader : StoreM Unit := do
  let counter := ((← headerWord changeCounterOffset) + 1) % UInt32.size
  setHeaderWord changeCounterOffset counter
  setHeaderWord databaseSizeOffset (← get).pageCount
  setHeaderWord versionValidForOffset counter
  setHeaderWord libraryVersionOffset currentLibraryVersion.toNat

def commit : StoreM Unit := do
  if ← inTransaction then
    if (← get).vacuum = .full then Vacuum.run (← get).pageCount
    stampHeader
    onPager Pager.commit

def rollback : StoreM Unit := do
  onPager Pager.rollback
  bumpGeneration

def checkRoot (root : PageNo) : StoreM Unit := do
  let count := (← get).pageCount
  if root = 0 || root > count then throw (.rootOutsideFile root count)

def createTree (kind : TreeKind) : StoreM PageNo := atomically (Tree.create kind)

/-- Removes a tree. If the root of another one moved to its place, its old number is answered. -/
def dropTree (root : PageNo) : StoreM (Option PageNo) := do
  checkRoot root
  if root = 1 then throw .cannotDropFirst
  atomically (Tree.remove root)

def clearTree (root : PageNo) : StoreM Nat := do
  checkRoot root
  atomically (Tree.clear root)

def findTree (root : PageNo) (order : KeyOrder) : StoreM TreeRef := do
  checkRoot root
  return { root, kind := (← loadPage root).kind.tree, order }

def metaCount : Nat := 15

def metaOffset (i : Nat) : Nat := freeCountOffset + 4 * i

def metaValue (i : Nat) : StoreM Nat := do
  if i ≥ metaCount then throw (.metaIndex i)
  headerWord (metaOffset i)

def setMetaValue (i value : Nat) : StoreM Unit := do
  if i ≥ metaCount then throw (.metaIndex i)
  let offset := metaOffset i
  if offset = freeCountOffset || offset = largestRootOffset then throw (.metaMaintained i)
  if offset = incrementalVacuumOffset then
    if !(← get).vacuum.isEnabled then throw .vacuumModeFixed
    modify fun s => { s with vacuum := if value ≠ 0 then .incremental else .full }
  setHeaderWord offset value

def header : StoreM FileHeader := do
  FileHeader.parse (← readPage 1)

def freeCount : StoreM Nat := Freelist.count

def allocatePage : StoreM PageNo := atomically Freelist.allocate

def freePage (page : PageNo) : StoreM Unit := do
  if page ≤ 1 then throw (.cannotFree page)
  atomically (Freelist.free page)
  bumpGeneration

def pageData (page : PageNo) : StoreM Bytes := readPage page

def pointerEntry (page : PageNo) : StoreM PointerEntry := PointerMap.lookUp page

def vacuumStep : StoreM Bool := do
  if (← get).vacuum.isEnabled then atomically Vacuum.step else return false

def vacuumSteps : (limit : Nat) → StoreM Nat
  | 0 => return 0
  | limit + 1 => do if ← vacuumStep then return (← vacuumSteps limit) + 1 else return 0

def checkIntegrity (roots : List PageNo) (maxErrors : Nat) : StoreM IntegrityReport :=
  Integrity.check roots maxErrors

end Database

end TreeFile
