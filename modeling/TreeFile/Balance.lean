import TreeFile.Balance.Siblings
import TreeFile.Path

/-!
Balancing a tree after a change. It goes up from the changed page: one that has parked cells, or
has become too empty after a deletion, is balanced with its siblings, and then its parent is
looked at. The root stays where it is. It grows a level when it overflows, and takes in its only
child when it has no cells.
-/

namespace TreeFile

namespace Error

def emptyPath : Error := internal "balance on an empty path"

def rootStillOverflows (page : PageNo) : Error := internal s!"root {page} does not stop growing"

end Error

namespace Balance

open Store

/-- Moves the content of an overflowing root to a new child. Answers the child, which takes the
parked cells, and the root, of which nothing is left but the pointer to the child. -/
def deepen (root : Page) : StoreM (Page × Page) := do
  let number ← Freelist.allocate
  let cells ← root.placedCells
  let child ← Siblings.build number root.kind cells root.header.rightChild
  let child := { child with parked := root.parked }
  let root ← Action.applied (do
    Page.reset (.interior root.kind.tree)
    Page.setRightChild number) root
  PointerMap.put number ⟨.treeNode, root.number⟩
  PointerMap.putForPage child
  return (child, root)

/-- The root with the content of its only child, which is freed; `none` if it has no room. -/
def absorbChild (root : Page) : StoreM (Option Page) := do
  let child ← loadPage (← root.child 0)
  let cells ← child.logicalCells
  if root.fits cells child.kind then
    let root ← Action.applied (Page.rebuild child.kind cells child.header.rightChild) root
    PointerMap.putForPage root
    Freelist.free child.number
    return some root
  else return none

/-- Takes in only children as long as there are any and the root has room. Each one is freed, and
without a cycle of pages none comes up twice, so `left` rounds are enough if the file has fewer pages. -/
def collapse : (left : Nat) → Page → StoreM Page
  | 0, root => return root
  | left + 1, root => do
    if root.isLeaf || root.cellCount ≠ 0 then return root
    match ← absorbChild root with
    | some root => collapse left root
    | none => return root

/-- Writes the root, after it has grown as many levels as it takes. Every level leaves it with
fewer cells, so `left` levels are enough for a root with as many cells. -/
def settleRoot : (left : Nat) → Page → StoreM Unit
  | left, root => do
    if root.hasParked then
      match left with
      | 0 => throw (.rootStillOverflows root.number)
      | left + 1 =>
        let (child, root) ← deepen root
        settleRoot left (← Siblings.balance root 0 child)
    else
      let s ← get
      writePage (← collapse (s.usableSize + s.pageCount) root)

def needsBalance (page : Page) (afterDelete : Bool) : Bool :=
  page.hasParked || (afterDelete && (page.cellCount == 0 || page.isUnderfull))

/-- Balances a page that was changed in memory, below the given frames from its parent up to the
root, and writes all that changes. -/
def climb (afterDelete : Bool) : Page → List Frame → StoreM Unit
  | page, [] => settleRoot page.logicalCount page
  | page, parent :: above => do
    if needsBalance page afterDelete then
      climb afterDelete (← Siblings.balance parent.page parent.index page) above
    else writePage page

end Balance

def balance (path : Path) (afterDelete : Bool) : StoreM Unit :=
  match path with
  | [] => throw .emptyPath
  | frame :: above => Balance.climb afterDelete frame.page above

end TreeFile
