import TreeFile.Overflow

/-!
Vacuum: moving the last page of an auto-vacuum file into a free place nearer to the start, with
all references to it, so that the file can be made shorter.
-/

namespace TreeFile

namespace Error

def brokenLink (page next : PageNo) : Error :=
  corrupt s!"overflow page {page} does not link to {next}"

def noReference (parent page : PageNo) : Error :=
  corrupt s!"page {parent} holds no pointer to {page}"

def cannotMove (source target : PageNo) : Error :=
  internal s!"cannot relocate page {source} to {target}"

def cannotMoveFree (page : PageNo) : Error := internal s!"free page {page} cannot be relocated"

def freeButUnlisted (page : PageNo) : Error :=
  corrupt s!"page {page} is mapped free but not on the freelist"

def rootAmongFree (page : PageNo) : Error := corrupt s!"root page {page} follows free pages"

end Error

namespace Vacuum

open Store

def repointChain (page : Page) (source target : PageNo) : (left i : Nat) →
    Except Error (Option Page)
  | 0, _ => .ok none
  | left + 1, i => do
    let info ← page.cellInfo i
    if info.overflowPage = some source then
      let slot := info.payloadStart + info.kept
      return some (← Action.applied (Page.edit (Bytes.putU32 slot target)) page)
    else repointChain page source target left (i + 1)

def repointChild (page : Page) (source target : PageNo) : (left i : Nat) →
    Except Error (Option Page)
  | 0, _ =>
    if page.header.rightChild = some source then
      some <$> Action.applied (Page.setRightChild target) page
    else .ok none
  | left + 1, i => do
    if (← page.child i) = source then
      return some (← Action.applied (Page.setChild i target) page)
    else repointChild page source target left (i + 1)

def repoint (page : Page) (role : PageRole) (source target : PageNo) :
    Except Error (Option Page) :=
  if role = .overflowHead then repointChain page source target page.cellCount 0
  else if page.isLeaf then .ok none
  else repointChild page source target page.cellCount 0

def moveReference (entry : PointerEntry) (source target : PageNo) : StoreM Unit := do
  let parent := entry.parent
  if entry.role = .overflowNext then
    let data ← readPage parent
    if data.u32? 0 ≠ some source then throw (.brokenLink parent source)
    putPage parent (← Action.applied (Bytes.putU32 0 target) data)
  else
    let page ← loadPage parent
    match ← repoint page entry.role source target with
    | some page => writePage page
    | none => throw (.noReference parent source)

def adopt (role : PageRole) (source page : PageNo) (next : PageNo) : StoreM Unit :=
  match role with
  | .treeNode | .root => do PointerMap.putForPage (← loadPage page)
  | .overflowHead | .overflowNext =>
    if next ≠ 0 then PointerMap.put next ⟨.overflowNext, page⟩ else pure ()
  | .free => throw (.cannotMoveFree source)

def relocate (source : PageNo) (entry : PointerEntry) (target : PageNo) : StoreM Unit := do
  if source = target || source < 2 || target < 2 then throw (.cannotMove source target)
  let data ← readPage source
  putPage target data
  adopt entry.role source target (Overflow.next data)
  if entry.role ≠ .root then moveReference entry source target
  PointerMap.put target entry
  bumpGeneration

/-- Ends the file at page `count`, or before it if that page and those before it are reserved. -/
def truncate (count : Nat) : StoreM Unit := do
  onPager (Pager.truncate ((← get).lastUnreserved count))

def lowestFree (last : PageNo) : StoreM (Option PageNo) := do
  return ((← Freelist.walk).pages.filter (· < last)).min?

def emptyLast (last : PageNo) (entry : PointerEntry) : StoreM Bool := do
  match entry.role with
  | .free =>
    if ← Freelist.remove last then return true else throw (.freeButUnlisted last)
  | .root => throw (.rootAmongFree last)
  | .treeNode | .overflowHead | .overflowNext =>
    match ← lowestFree last with
    | none => return false
    | some target =>
      let _ ← Freelist.remove target
      relocate last entry target
      return true

def step : StoreM Bool := do
  if !(← get).vacuum.isEnabled then return false
  if (← Freelist.count) = 0 then return false
  let last := (← get).pageCount
  if last ≤ 2 then return false
  if (← get).isReserved last then
    truncate (last - 1)
    return true
  if ← emptyLast last (← PointerMap.lookUp last) then
    truncate (last - 1)
    bumpGeneration
    return true
  else return false

/-- Steps until there is nothing to gain. Each step takes a page away, so `left` are enough for a
file of as many pages. -/
def run : (left : Nat) → StoreM Unit
  | 0 => pure ()
  | left + 1 => do if ← step then run left

end Vacuum

end TreeFile
