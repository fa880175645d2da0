import TreeFile.Store

/-!
Reading and writing entries of the pointer map, and keeping them right for all that a tree page
refers to.
-/

namespace TreeFile

namespace Error

def noMapEntry (page : PageNo) : Error := corrupt s!"page {page} has no pointer-map entry"

def noPointerMap : Error := misuse "database has no pointer map"

def mapPastEnd (map : PageNo) : Error := corrupt s!"pointer-map page {map} beyond end of file"

def badMapRole (page : PageNo) (number : UInt8) : Error :=
  corrupt s!"page {page} has pointer-map type {number}"

end Error

namespace PointerMap

open Store

def locate (s : Store) (page : PageNo) : Except Error (PageNo × Nat) :=
  let map := mapPage s.usableSize s.pageSize page
  if map = 0 || page ≤ map then .error (.noMapEntry page) else .ok (map, entryStart map page)

def encode (e : PointerEntry) : Bytes :=
  Bytes.ofList [e.role.number] ++ Bytes.ofNat32 e.parent

def put (page : PageNo) (e : PointerEntry) : StoreM Unit := do
  let s ← get
  if s.vacuum.isEnabled then
    let (map, start) ← locate s page
    let data ← readPage map
    let entry := encode e
    if (← data.slice start (start + entrySize)) ≠ entry then
      putPage map (data.overwrite start entry)

def lookUp (page : PageNo) : StoreM PointerEntry := do
  let s ← get
  if !s.vacuum.isEnabled then throw .noPointerMap
  let (map, start) ← locate s page
  if map > s.pageCount then throw (.mapPastEnd map)
  let data ← readPage map
  let number := data.get! start
  match PageRole.ofNumber? number with
  | some role => return ⟨role, (data.u32? (start + 1)).getD 0⟩
  | none => throw (.badMapRole page number)

def putForCell (page : Page) (i : Nat) : StoreM Unit := do
  let info ← page.cellInfo i
  match info.overflowPage with
  | some head => put head ⟨.overflowHead, page.number⟩
  | none => pure ()
  if !page.isLeaf then put (← page.child i) ⟨.treeNode, page.number⟩

def putForPage (page : Page) : StoreM Unit := do
  if (← get).vacuum.isEnabled then
    (List.range page.cellCount).forM (putForCell page)
    if !page.isLeaf then put (← page.child page.cellCount) ⟨.treeNode, page.number⟩

end PointerMap

end TreeFile
