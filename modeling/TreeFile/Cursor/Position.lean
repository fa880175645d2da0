import TreeFile.Cursor.Basic

/-!
Moving a cursor and reading at its place.
-/

namespace TreeFile

/-- What a search may settle for if the key is not in the tree. -/
inductive SeekBias where
  | exact
  | le
  | ge
deriving DecidableEq, Repr, Inhabited

def Key.describe : Key → String
  | row r => "Rowid(" ++ toString r.toInt ++ ")"
  | bytes key =>
    "Key([" ++ ", ".intercalate (key.toList.map fun b => toString b.toNat) ++ "])"

def Key.fits : Key → TreeKind → Bool
  | row _, .table => true
  | bytes _, .index => true
  | _, _ => false

namespace Error

def wrongKey (key : Key) (kind : TreeKind) : Error :=
  let key := key.describe
  let kind := kind.name
  misuse s!"{key} key used on a {kind} tree"

def noRowId : Error := misuse "index entries have no rowid"
def keyedByRowId : Error := misuse "table entries are keyed by rowid"

end Error

namespace Cursor

def fromRoot (go : TreeRef → WalkM Unit) : CursorM Bool := do
  checkOpen
  let tree ← target
  walk (Walk.toRoot tree)
  let found := (← walk Walk.top).page.cellCount > 0
  if found then walk (go tree)
  settle found

def first : CursorM Bool := fromRoot Walk.toFirst

def last : CursorM Bool := fromRoot Walk.toLast

def step (taken : Skip) (go : TreeRef → WalkM Bool) : CursorM Bool := do
  checkOpen
  restore
  let c ← current
  match c.state with
  | .invalid => return false
  | .skipNext =>
    if c.skip = taken then settle true else settle (← walk (go c.tree))
  | .valid | .requireSeek => settle (← walk (go c.tree))

def next : CursorM Bool := step .next Walk.next

def previous : CursorM Bool := step .previous Walk.previous

def accept (t : TreeRef) (bias : SeekBias) : Landing → WalkM Bool
  | .empty => return false
  | .equal => return true
  | .greater =>
    match bias with
    | .exact => return false
    | .le => Walk.previous t
    | .ge => return true
  | .less =>
    match bias with
    | .exact => return false
    | .le => return true
    | .ge => Walk.next t

/-- Moves to a key, or as near to it as `bias` says. Answers whether there is such an entry. -/
def seek (key : Key) (bias : SeekBias) : CursorM Bool := do
  let tree ← target
  if !key.fits tree.kind then throw (.wrongKey key tree.kind)
  checkOpen
  let landing ← walk (Walk.toKey tree key)
  settle (← walk (accept tree bias landing))

def entryFrame : CursorM Frame := do
  checkOpen
  requireEntry
  walk Walk.top

def rowId : CursorM RowId := do
  if (← target).kind ≠ .table then throw .noRowId
  let top ← entryFrame
  return (← top.page.cellInfo top.index).key

def payload : CursorM Bytes := do
  let top ← entryFrame
  onStore (Overflow.payload top.page top.index)

def key : CursorM Bytes := do
  if (← target).kind ≠ .index then throw .keyedByRowId
  payload

def payloadSize : CursorM Nat := do
  let top ← entryFrame
  return (← top.page.cellInfo top.index).payloadSize

def payloadRange (start length : Nat) : CursorM Bytes := do
  let top ← entryFrame
  onStore (Overflow.payloadRange top.page top.index start length)

/-- The entries of a page, and below it of all its children, the last child first. At most `left`
levels follow. -/
def countFrom (t : TreeRef) : (left : Nat) → (page : PageNo) → StoreM Nat
  | 0, _ => throw (.tooDeep t.root)
  | left + 1, number => do
    let page ← Store.loadPage number
    let own := if page.isLeaf || t.kind = .index then page.cellCount else 0
    if page.isLeaf then return own
    let children ← page.children
    let below ← children.reverse.mapM (countFrom t left)
    return own + total below

def count : CursorM Nat := do
  let tree ← target
  checkOpen
  onStore (countFrom tree maxDepth tree.root)

/-- The entry a move has just led to. The row number of an index entry is its length. -/
def entryHere : CursorM (RowId × Bytes) := do
  checkOpen
  let top ← walk Walk.top
  let info ← top.page.cellInfo top.index
  return (info.key, ← onStore (Overflow.payload top.page top.index))

def scanStep (started : Bool) : CursorM (Option (RowId × Bytes)) := do
  if ← if started then next else first then some <$> entryHere else return none

/-- At most `limit` entries from the first on, and the error that ended the scan, which counts as
one of them. -/
def scan (started : Bool) : (limit : Nat) → CursorM (List (RowId × Bytes) × Option Error)
  | 0 => return ([], none)
  | limit + 1 => do
    match ← Action.attempt (scanStep started) with
    | .error e => return ([], some e)
    | .ok none => return ([], none)
    | .ok (some entry) =>
      let (entries, e) ← scan true limit
      return (entry :: entries, e)

end Cursor

end TreeFile
