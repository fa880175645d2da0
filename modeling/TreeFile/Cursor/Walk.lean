import TreeFile.Overflow
import TreeFile.Path

/-!
Walking through a tree: from the root to a key, to either end, and from one entry to the next. A
walk that fails has still moved, and its path says how far.
-/

namespace TreeFile

inductive Key where
  | row (row : RowId)
  | bytes (key : Bytes)
deriving DecidableEq, Inhabited

structure KeyOrder where
  compare : Bytes → Bytes → Ordering

namespace KeyOrder

def binary : KeyOrder := ⟨Bytes.order⟩

instance : Inhabited KeyOrder := ⟨binary⟩

def reverse (o : KeyOrder) : KeyOrder := ⟨fun a b => o.compare b a⟩

def comap (f : Bytes → Bytes) (o : KeyOrder) : KeyOrder := ⟨fun a b => o.compare (f a) (f b)⟩

def ignoringCase : KeyOrder :=
  comap (fun key => ⟨key.data.map fun b => if 65 ≤ b ∧ b ≤ 90 then b + 32 else b⟩) binary

def byLength (o : KeyOrder) : KeyOrder :=
  ⟨fun a b => (Ord.compare a.size b.size).then (o.compare a b)⟩

end KeyOrder

structure TreeRef where
  root : PageNo
  kind : TreeKind
  order : KeyOrder
deriving Inhabited

structure Walk where
  path : Path
  store : Store
deriving Inhabited

abbrev WalkM := Action Walk

inductive Landing where
  | empty
  | equal
  | greater
  | less
deriving DecidableEq, Repr, Inhabited

namespace Error

def pageOfOtherTree (page : PageNo) (found : PageKind) (kind : TreeKind) : Error :=
  let found := found.name
  let kind := kind.name
  corrupt s!"page {page} is a {found} page inside a {kind} tree"

def tooDeep (root : PageNo) : Error := corrupt s!"tree {root} deeper than {maxDepth} levels"

def notOnEntry : Error := misuse "cursor not on an entry"

def emptyLeaf (page root : PageNo) : Error :=
  corrupt s!"empty leaf {page} below the root of tree {root}"

end Error

namespace Walk

def onStore {α : Type} (act : StoreM α) : WalkM α :=
  Action.zoom Walk.store (fun w store => { w with store }) act

def startAt {α : Type} (path : Path) (act : WalkM α) : StoreM (α × Path) := fun store =>
  match act ⟨path, store⟩ with
  | .ok a w => .ok (a, w.path) w.store
  | .error e w => .error e w.store

def setPath (path : Path) : WalkM Unit := modify fun w => { w with path }

def setIndex (index : Nat) : WalkM Unit := modify fun w => { w with path := w.path.setIndex index }

def top : WalkM Frame := do
  match (← get).path with
  | top :: _ => return top
  | [] => throw .notOnEntry

def push (t : TreeRef) (number : PageNo) : WalkM Unit := do
  let page ← onStore (Store.loadPage number)
  if page.kind.tree ≠ t.kind then throw (.pageOfOtherTree number page.kind t.kind)
  modify fun w => { w with path := ⟨page, 0⟩ :: w.path }

def toRoot (t : TreeRef) : WalkM Unit := do
  setPath []
  push t t.root

def toChild (t : TreeRef) (child : PageNo) : WalkM Unit := do
  if (← get).path.length ≥ maxDepth then throw (.tooDeep t.root)
  push t child

def checkLeaf (t : TreeRef) : WalkM Unit := do
  let top ← top
  if top.page.cellCount = 0 ∧ (← get).path.length > 1 then
    throw (.emptyLeaf top.page.number t.root)

/-- Follows the current index down, and then the first child of each page. No more than `left`
pages can be on the way. -/
def descendFirst (t : TreeRef) : (left : Nat) → WalkM Unit
  | 0 => throw (.tooDeep t.root)
  | left + 1 => do
    let top ← top
    if top.page.isLeaf then checkLeaf t
    else
      toChild t (← top.page.child top.index)
      descendFirst t left

def toFirst (t : TreeRef) : WalkM Unit := descendFirst t maxDepth

def descendLast (t : TreeRef) : (left : Nat) → WalkM Unit
  | 0 => throw (.tooDeep t.root)
  | left + 1 => do
    let top ← top
    if top.page.isLeaf then setIndex (top.page.cellCount - 1)
    else
      setIndex top.page.cellCount
      toChild t (← top.page.child top.page.cellCount)
      descendLast t left

def toLast (t : TreeRef) : WalkM Unit := do
  descendLast t maxDepth
  checkLeaf t

def compareCell (t : TreeRef) (page : Page) (i : Nat) (key : Key) : StoreM Ordering := do
  let info ← page.cellInfo i
  match key with
  | .row row => return compare info.key row
  | .bytes key =>
    if info.spills then return t.order.compare (← Overflow.payload page i) key
    else
      let stored ← page.data.slice info.payloadStart (info.payloadStart + info.kept)
      return t.order.compare stored key

/-- A place among the cells of a page. -/
inductive Slot where
  | cell (i : Nat)
  | before (i : Nat)
deriving DecidableEq, Repr

/-- Halves the range from `lo` to `hi` until a key is found or the range is empty. It has at most
`left` cells. -/
def search (t : TreeRef) (page : Page) (key : Key) : (left lo hi : Nat) → StoreM Slot
  | 0, lo, _ => return .before lo
  | left + 1, lo, hi => do
    if lo < hi then
      let middle := lo + (hi - lo) / 2
      match ← compareCell t page middle key with
      | .lt => search t page key left (middle + 1) hi
      | .gt => search t page key left lo middle
      | .eq => return .cell middle
    else return .before lo

def landOnLeaf (t : TreeRef) (page : Page) (slot : Slot) : WalkM Landing := do
  if page.cellCount = 0 then
    checkLeaf t
    return .empty
  match slot with
  | .cell i =>
    setIndex i
    return .equal
  | .before i =>
    if i < page.cellCount then
      setIndex i
      return .greater
    else
      setIndex (page.cellCount - 1)
      return .less

/-- Searches for a key from the current page down. The row number of a divider is the largest one
on its left. In an index the search may end at a divider. -/
def descend (t : TreeRef) (key : Key) : (left : Nat) → WalkM Landing
  | 0 => throw (.tooDeep t.root)
  | left + 1 => do
    let page := (← top).page
    let slot ← onStore (search t page key page.cellCount 0 page.cellCount)
    if page.isLeaf then landOnLeaf t page slot
    else
      match slot, t.kind with
      | .cell i, .index =>
        setIndex i
        return .equal
      | .cell i, .table | .before i, _ =>
        let child ← page.child i
        setIndex i
        toChild t child
        descend t key left

def toKey (t : TreeRef) (key : Key) : WalkM Landing := do
  toRoot t
  descend t key maxDepth

def next (t : TreeRef) : WalkM Bool := do
  let top ← top
  let index := top.index + 1
  setIndex index
  if !top.page.isLeaf then
    toChild t (← top.page.child index)
    toFirst t
    return true
  else if index < top.page.cellCount then return true
  else
    match (← get).path.ascend fun f => f.index < f.page.cellCount with
    | none => return false
    | some [] => return false
    | some (parent :: rest) =>
      setPath (parent :: rest)
      if t.kind = .index then return true
      setIndex (parent.index + 1)
      toChild t (← parent.page.child (parent.index + 1))
      toFirst t
      return true

def previous (t : TreeRef) : WalkM Bool := do
  let top ← top
  if !top.page.isLeaf then
    toChild t (← top.page.child top.index)
    toLast t
    return true
  else if top.index > 0 then
    setIndex (top.index - 1)
    return true
  else
    match (← get).path.ascend fun f => f.index > 0 with
    | none => return false
    | some [] => return false
    | some (parent :: rest) =>
      setPath (parent :: rest)
      setIndex (parent.index - 1)
      if t.kind = .index then return true
      toChild t (← parent.page.child (parent.index - 1))
      toLast t
      return true

end Walk

end TreeFile
