import TreeFile.Vacuum

/-!
Whole trees: making, emptying and removing one. In an auto-vacuum file the roots are kept together
at the start of the file, so that no root has to move when the file is made shorter.
-/

namespace TreeFile

namespace Error

def noRoomForRoot (page : PageNo) : Error :=
  corrupt s!"page {page} cannot make room for a new root"

def tooManyPages (root : PageNo) : Error :=
  corrupt s!"tree {root} has more pages than the file"

def foreignPage (page root : PageNo) : Error :=
  corrupt s!"page {page} does not belong to tree {root}"

end Error

namespace Tree

open Store FileHeader

def largestRoot : StoreM PageNo := headerWord largestRootOffset

def nextRoot : StoreM PageNo := do
  let largest ← largestRoot
  return (← get).firstUnreserved (max largest 1 + 1)

def extendTo (root : PageNo) : (left : Nat) → StoreM Unit
  | 0 => pure ()
  | left + 1 => do
    let page ← Freelist.extendFile
    if page < root then
      Freelist.free page
      extendTo root left

def vacate (root : PageNo) : StoreM Unit := do
  if !(← Freelist.remove root) then
    let entry ← PointerMap.lookUp root
    if entry.role = .root || entry.role = .free then throw (.noRoomForRoot root)
    let target ← Freelist.allocate
    Vacuum.relocate root entry target

def allocateRoot : StoreM PageNo := do
  if (← get).vacuum.isEnabled then
    let root ← nextRoot
    let count := (← get).pageCount
    if root > count then extendTo root (root - count) else vacate root
    PointerMap.put root ⟨.root, 0⟩
    setHeaderWord largestRootOffset root
    return root
  else Freelist.allocate

def create (kind : TreeKind) : StoreM PageNo := do
  let root ← allocateRoot
  writePage (← emptyPage root (.leaf kind))
  bumpGeneration
  return root

/-- Frees the chains of the cells of a page from cell `i` on, and collects the children left of
them, the last one first. -/
def clearCells (page : Page) : (left i : Nat) → List PageNo → StoreM (List PageNo)
  | 0, _, children => return children
  | left + 1, i, children => do
    Overflow.freeOf (← page.cellInfo i)
    let children ← if page.isLeaf then pure children else (· :: children) <$> page.child i
    clearCells page left (i + 1) children

def entryCount (page : Page) : Nat :=
  if page.kind = .tableInterior then 0 else page.cellCount

/-- Frees the pages of a tree that are still to be visited, and what is below them, but not the
root, and counts the entries. A tree has no more pages than the file, which has `left` more. -/
def clearPages (root : PageNo) (kind : TreeKind) : (left : Nat) → (pending : List PageNo) →
    (removed : Nat) → StoreM Nat
  | _, [], removed => return removed
  | 0, _ :: _, _ => throw (.tooManyPages root)
  | left + 1, number :: pending, removed => do
    let page ← loadPage number
    if page.kind.tree ≠ kind then throw (.foreignPage number root)
    let pending ← clearCells page page.cellCount 0 pending
    let pending ←
      if page.isLeaf then pure pending else (· :: pending) <$> page.child page.cellCount
    if number ≠ root then Freelist.free number
    clearPages root kind left pending (removed + entryCount page)

/-- Removes all entries of a tree and answers how many there were. Its root becomes an empty
leaf. -/
def clear (root : PageNo) : StoreM Nat := do
  let kind := (← loadPage root).kind.tree
  let removed ← clearPages root kind (← get).pageCount [root] 0
  writePage (← Action.applied (Page.reset (.leaf kind)) (← loadPage root))
  bumpGeneration
  return removed

/-- Frees the root of an empty tree. The last root moves to its place, and its old number is
answered. -/
def releaseRoot (root : PageNo) : StoreM (Option PageNo) := do
  let largest ← largestRoot
  let moved ←
    if root = largest then do
      Freelist.free root
      pure none
    else do
      Vacuum.relocate largest ⟨.root, 0⟩ root
      Freelist.free largest
      pure (some largest)
  setHeaderWord largestRootOffset ((← get).lastUnreserved (largest - 1))
  bumpGeneration
  return moved

/-- Removes a tree. If another root had to move to its place, the number that root had is
answered. -/
def remove (root : PageNo) : StoreM (Option PageNo) := do
  let _ ← clear root
  if (← get).vacuum.isEnabled then releaseRoot root
  else
    Freelist.free root
    return none

end Tree

end TreeFile
