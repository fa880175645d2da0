import TreeFile.Balance.Distribution
import TreeFile.Freelist

/-!
Balancing a page with its siblings: the cells of up to five pages, with the dividers between
them, are gathered and laid out anew, and the parent gets new dividers.
-/

namespace TreeFile

namespace Error

def parentNotBalanced (page parent : PageNo) : Error :=
  internal s!"page {page} is not balanced below parent {parent}"

def notAChild (page parent : PageNo) : Error :=
  corrupt s!"parent {parent} does not point at page {page}"

def siblingKind (page : PageNo) (found expected : PageKind) : Error :=
  let found := found.name
  let expected := expected.name
  corrupt s!"sibling {page} is {found}, expected {expected}"

end Error

namespace Siblings

open Store

/-- A page before a page, and the divider between them. -/
structure Laid where
  page : Page
  /-- The divider right of the page, in the form of a parent's cell. The last page has none. -/
  divider : Option Bytes
deriving Inhabited

def sibling (parent : Page) (index : Nat) (page : Page) (i : Nat) : StoreM Page := do
  let number ← parent.child i
  let found ←
    if i = index then do
      if number ≠ page.number then throw (.notAChild page.number parent.number)
      pure page
    else loadPage number
  if found.kind ≠ page.kind then throw (.siblingKind number found.kind page.kind)
  return found

def siblings (parent : Page) (index : Nat) (page : Page) : (count i : Nat) → StoreM (List Page)
  | 0, _ => return []
  | count + 1, i => do
    let found ← sibling parent index page i
    return found :: (← siblings parent index page count (i + 1))

/-- The parent's cell `i` as a cell between those of `left` and its right neighbour. Between table
leaves there is none, as it only repeats the last row number on its left. -/
def lowered (limits : PayloadLimits) (parent : Page) (i : Nat) (left : Page) :
    Except Error (List Bytes) := do
  let divider ← parent.cellBytes i
  match left.kind with
  | .tableLeaf => return []
  | .indexLeaf => return [← Cell.interiorToLeaf divider limits]
  | .tableInterior | .indexInterior =>
    let child ← left.child left.cellCount
    return [← Action.applied (Cell.setLeftChild child) divider]

/-- All cells of the pages and between them, in key order. `i` is the position of the first
divider. -/
def gather (limits : PayloadLimits) (parent : Page) : (i : Nat) → List Page →
    Except Error (List Bytes)
  | _, [] => .ok []
  | _, [last] => last.logicalCells
  | i, page :: rest => do
    let cells ← page.logicalCells
    let between ← lowered limits parent i page
    return cells ++ between ++ (← gather limits parent (i + 1) rest)

def finalChild (kind : PageKind) (pages : List Page) : Except Error (Option PageNo) :=
  if kind.isLeaf then .ok none
  else
    match pages.getLast? with
    | some last => some <$> last.child last.cellCount
    | none => .ok none

def cellsOf (cells : List Bytes) (span : Span) : List Bytes :=
  (cells.drop span.start).take span.length

def cellAt (cells : List Bytes) (i : Nat) : Except Error Bytes :=
  match cells[i]? with
  | some cell => .ok cell
  | none => .error .outOfBounds

/-- The rightmost child of an interior page that is not the last: the left child of the cell that
is promoted behind it. -/
def rightChild (kind : PageKind) (cells : List Bytes) (span : Span) :
    Except Error (Option PageNo) := do
  if kind.isLeaf then return none
  else return some (← Cell.leftChild (← cellAt cells span.stop))

def raised (limits : PayloadLimits) (kind : PageKind) (cells : List Bytes) (span : Span)
    (number : PageNo) : Except Error Bytes := do
  match kind with
  | .tableLeaf =>
    let last ← cellAt cells (span.stop - 1)
    let row := (← Cell.decode last.window 0 kind limits).key
    return (← Cell.encode .tableInterior limits (some number) row .empty).bytes
  | .indexLeaf => Cell.leafToInterior (← cellAt cells span.stop) limits number
  | .tableInterior | .indexInterior =>
    Action.applied (Cell.setLeftChild number) (← cellAt cells span.stop)

def build (number : PageNo) (kind : PageKind) (cells : List Bytes) (child : Option PageNo) :
    StoreM Page := do
  Action.applied (Page.rebuild kind cells child) (← emptyPage number kind)

def layOut (kind : PageKind) (cells : List Bytes) (last : Option PageNo) :
    List (PageNo × Span) → StoreM (List Laid)
  | [] => return []
  | [(number, span)] => return [⟨← build number kind (cellsOf cells span) last, none⟩]
  | (number, span) :: rest => do
    let limits := (← get).limits
    let child ← rightChild kind cells span
    let page ← build number kind (cellsOf cells span) child
    let divider ← raised limits kind cells span number
    return ⟨page, some divider⟩ :: (← layOut kind cells last rest)

def writeLaid (parent : PageNo) (page : Page) : StoreM Unit := do
  writePage page
  PointerMap.put page.number ⟨.treeNode, parent⟩
  PointerMap.putForPage page

def dropDividers (first : Nat) : Nat → Action Page Unit
  | 0 => pure ()
  | count + 1 => do
    Page.drop first
    dropDividers first count

def insertDividers (kind : PageKind) : (i : Nat) → List Bytes → Page → StoreM Page
  | _, [], parent => return parent
  | i, divider :: rest, parent => do
    let info ← Cell.decode divider.window 0 kind (← get).limits
    match info.overflowPage with
    | some head => PointerMap.put head ⟨.overflowHead, parent.number⟩
    | none => pure ()
    let parent ← Action.applied (Page.insert i divider) parent
    insertDividers kind (i + 1) rest parent

/-- The numbers for `count` pages, in ascending order: those of the old pages as far as they go,
then new ones. -/
def numbers (olds : List PageNo) (count : Nat) : StoreM (List PageNo) := do
  let kept := olds.take count
  let more ← Freelist.allocateMany (count - kept.length)
  return (kept ++ more).mergeSort (· ≤ ·)

/-- Balances `page`, the child of `parent` at position `index`, with up to two siblings on either
side. All pages but the parent are written; the parent is answered as it has to be, perhaps with
parked cells. -/
def balance (parent : Page) (index : Nat) (page : Page) : StoreM Page := do
  let limits := (← get).limits
  if index > parent.cellCount || parent.hasParked then
    throw (.parentNotBalanced page.number parent.number)
  let first := index - 2
  let last := min (index + 2) parent.cellCount
  let kind := page.kind
  let olds ← siblings parent index page (last + 1 - first) first
  let cells ← gather limits parent first olds
  let final ← finalChild kind olds
  let sizes := cells.map fun cell => cell.size + pointerSize
  let spans ← distribute sizes (limits.usableSize - kind.headerSize) (kind != .tableLeaf)
  let oldNumbers := olds.map Page.number
  let numbers ← numbers oldNumbers spans.length
  let laid ← layOut kind cells final (numbers.zip spans)
  laid.forM fun l => writeLaid parent.number l.page
  (oldNumbers.filter fun number => !numbers.contains number).forM Freelist.free
  let parent ← Action.applied (do
    dropDividers first (olds.length - 1)
    Page.setChild first (numbers.getLastD 0)) parent
  insertDividers (.interior kind.tree) first (laid.filterMap Laid.divider) parent

end Siblings

end TreeFile
