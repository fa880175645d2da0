import TreeFile.Balance
import TreeFile.Cursor.Basic

/-!
Inserting and deleting entries through a cursor. Both are statements: if one fails, the file is as
it was before.
-/

namespace TreeFile

/-- An entry to be inserted. A table takes the row number and the data, an index the key. -/
structure NewEntry where
  key : Option Bytes := none
  row : RowId := 0
  data : Option Bytes := none
deriving DecidableEq, Inhabited

namespace NewEntry

def ofRow (row : RowId) (data : Bytes) : NewEntry := { row, data := some data }

def ofKey (key : Bytes) : NewEntry :=
  { key := some key, row := Int64.ofNat key.size }

end NewEntry

namespace Error

def readOnlyCursor : Error := ⟨.readOnly, some "cursor opened read-only"⟩
def insertWithoutKey : Error := misuse "index insert without a key"
def interiorWithoutChild : Error := corrupt "interior cell without child"
def emptyLeafBelowCell : Error := corrupt "empty leaf under interior cell"

def promotedKeyLost : Error := corrupt "promoted index key not found on an interior page"

end Error

namespace Edit

open Store

def keyAndBody (kind : TreeKind) (new : NewEntry) : Except Error (Key × Bytes) :=
  match kind with
  | .table => .ok (.row new.row, new.data.getD .empty)
  | .index =>
    match new.key with
    | some key => .ok (.bytes key, key)
    | none => .error .insertWithoutKey

def rowOf : Key → RowId
  | .row row => row
  | .bytes key => Int64.ofNat key.size

/-- Where a new cell goes, what stands on its left, and the page without the cell it replaces,
whose chain is freed. -/
def makeWay (frame : Frame) : Landing → StoreM (Nat × Option PageNo × Page)
  | .equal => do
    let info ← frame.page.cellInfo frame.index
    Overflow.freeOf info
    let page ← Action.applied (Page.drop frame.index) frame.page
    return (frame.index, info.leftChild, page)
  | .less => return (frame.index + 1, none, frame.page)
  | .greater | .empty => return (frame.index, none, frame.page)

def insert (t : TreeRef) (key : Key) (body : Bytes) : StoreM Unit := do
  let (landing, path) ← Walk.startAt [] (Walk.toKey t key)
  match path with
  | [] => throw .notOnEntry
  | frame :: above =>
    let (index, leftChild, page) ← makeWay frame landing
    let cell ← Cell.encode page.kind (← get).limits leftChild (rowOf key) body
    let cell ← Overflow.spill cell body page.number
    let page ← Action.applied (Page.insert index cell.bytes) page
    balance (⟨page, index⟩ :: above) false
    bumpGeneration

def deleteOnLeaf (frame : Frame) (above : Path) : StoreM Unit := do
  let info ← frame.page.cellInfo frame.index
  Overflow.freeOf info
  let page ← Action.applied (Page.drop frame.index) frame.page
  balance (⟨page, frame.index⟩ :: above) true
  bumpGeneration

/-- Takes the last cell off the last leaf below `child`. Answers the cell and its key. Its chain
stays with it. -/
def takePredecessor (t : TreeRef) (path : Path) (child : PageNo) : StoreM (Bytes × Bytes) := do
  let (leaf, _) ← Walk.startAt path do
    Walk.toChild t child
    Walk.toLast t
    Walk.top
  if leaf.page.cellCount = 0 then throw .emptyLeafBelowCell
  let last := leaf.page.cellCount - 1
  let cell ← leaf.page.cellBytes last
  let key ← Overflow.payload leaf.page last
  writePage (← Action.applied (Page.drop last) leaf.page)
  return (cell, key)

def balanceBelow (t : TreeRef) (key : Bytes) : StoreM Unit := do
  let (_, path) ← Walk.startAt [] do
    let landing ← Walk.toKey t (.bytes key)
    let top ← Walk.top
    if landing ≠ .equal || top.page.isLeaf then throw .promotedKeyLost
    Walk.toChild t (← top.page.child top.index)
    Walk.descendLast t maxDepth
  balance path true

/-- Deletes an entry of an index on an interior page. The entry before it comes in its place. -/
def deleteOnInterior (t : TreeRef) (frame : Frame) (above : Path) : StoreM Unit := do
  let info ← frame.page.cellInfo frame.index
  let some left := info.leftChild | throw .interiorWithoutChild
  let (predecessor, key) ← takePredecessor t (frame :: above) left
  Overflow.freeOf info
  let page ← Action.applied (Page.drop frame.index) frame.page
  let limits := (← get).limits
  let cell ← Cell.leafToInterior predecessor limits left
  match (← Cell.decode cell.window 0 .indexInterior limits).overflowPage with
  | some head => PointerMap.put head ⟨.overflowHead, page.number⟩
  | none => pure ()
  let page ← Action.applied (Page.insert frame.index cell) page
  balance (⟨page, frame.index⟩ :: above) false
  balanceBelow t key
  bumpGeneration

def delete (t : TreeRef) (path : Path) : StoreM Unit :=
  match path with
  | [] => throw .notOnEntry
  | frame :: above =>
    if frame.page.isLeaf then deleteOnLeaf frame above else deleteOnInterior t frame above

end Edit

namespace Cursor

def checkWritable : CursorM Unit := do
  if !(← current).writable then throw .readOnlyCursor

def statement (act : StoreM Unit) (saved : Option Key → Option Key) : CursorM Unit := do
  let result ← Action.attempt (onStore (Store.atomically act))
  let generation ← storeGeneration
  update fun c =>
    let c := match result with
      | .ok () => { c with savedKey := saved c.savedKey }
      | .error _ => c
    { c with generation }.forgetPath
  result

/-- Inserts an entry, in place of one with an equal key. The cursor is on the new entry then. -/
def insert (new : NewEntry) : CursorM Unit := do
  checkWritable
  let tree ← target
  let (key, body) ← Edit.keyAndBody tree.kind new
  checkOpen
  statement (Edit.insert tree key body) fun _ => some key

def delete : CursorM Unit := do
  checkWritable
  checkOpen
  restore
  let c ← current
  if c.state ≠ .valid then throw .notOnEntry
  statement (Edit.delete c.tree c.path) id

end Cursor

end TreeFile
