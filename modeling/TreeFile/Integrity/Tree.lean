import TreeFile.Cursor.Walk
import TreeFile.Integrity.Layout

/-!
Checking a tree: its keys must be in order and inside the bounds that dividers set, all leaves must
be at one depth, and overflow chains must have the length that their payloads need.
-/

namespace TreeFile

namespace Integrity

def compareKeys : Key → Key → Ordering
  | .row a, .row b => compare a b
  | .bytes a, .bytes b => Bytes.order a b
  | .row _, .bytes _ => .lt
  | .bytes _, .row _ => .gt

/-- The keys a subtree may have: above `lower`, and below `upper` or, in a table, up to it. -/
structure KeyRange where
  lower : Option Key := none
  upper : Option Key := none
deriving Inhabited

def KeyRange.contains (r : KeyRange) (kind : TreeKind) (key : Key) : Bool :=
  let aboveLower :=
    match r.lower with
    | some lower => compareKeys key lower == .gt
    | none => true
  let belowUpper :=
    match r.upper, kind with
    | some upper, .table => compareKeys key upper != .gt
    | some upper, .index => compareKeys key upper == .lt
    | none, _ => true
  aboveLower && belowUpper

/-- Checks the rest of a chain of `total` pages that starts at `first`; `left` of them are still
to come, from `page` on. Answers false if the chain is broken. -/
def checkChain (first : PageNo) (total : Nat) : (left : Nat) → (page : PageNo) →
    (expected : PointerEntry) → CheckM Bool
  | 0, _, _ => return true
  | left + 1, page, expected => do
    if ← isFull then return false
    if (← get).store.isMapPage page then
      report s!"Overflow page {page} is a pointer-map page"
      return false
    if !(← mark page "Overflow page") then return false
    checkEntry page expected
    match ← attempt (Store.readPage page) with
    | .error e =>
      let e := e.message
      report s!"Overflow page {page}: {e}"
      return false
    | .ok data =>
      let next := Overflow.next data
      if left = 0 && next ≠ 0 then
        report s!"Overflow chain from {first} too long"
        return false
      if left ≠ 0 && next = 0 then
        let have_ := total - left
        report s!"Overflow chain from {first} too short: {have_} of {total} pages"
        return false
      checkChain first total left next ⟨.overflowNext, page⟩

def cellKey (page : Page) (i : Nat) (info : CellInfo) : CheckM (Option Key) := do
  let chainOk ←
    match info.overflowPage with
    | none => pure true
    | some first =>
      let count := (← get).store.limits.chainLength info.payloadSize info.kept
      checkChain first count count first ⟨.overflowHead, page.number⟩
  match page.kind.tree with
  | .table => return some (.row info.key)
  | .index =>
    if chainOk then
      match ← attempt (Overflow.payload page i) with
      | .ok payload => return some (.bytes payload)
      | .error _ => return none
    else return none

def follows (before : Option Key) (key : Key) : Bool :=
  match before with
  | some before => compareKeys key before == .gt
  | none => true

/-- Checks the cells of a page from cell `i` on. Answers their keys, or `none` if the check
cannot go on. -/
def checkCells (page : Page) (range : KeyRange) : (left i : Nat) → (before : Option Key) →
    CheckM (Option (List (Option Key)))
  | 0, _, _ => return some []
  | left + 1, i, before => do
    let number := page.number
    if ← isFull then return none
    match page.cellInfo i with
    | .error e =>
      let e := e.message
      report s!"Page {number}: cell {i}: {e}"
      return none
    | .ok info =>
      let key ← cellKey page i info
      match key with
      | none => pure ()
      | some key =>
        if !follows before key then report s!"Page {number}: cell {i} out of order"
        else if !range.contains page.kind.tree key then
          report s!"Page {number}: cell {i} key outside parent bounds"
      match ← checkCells page range left (i + 1) (key.or before) with
      | some keys => return some (key :: keys)
      | none => return none

def childRanges (lower : Option Key) (upper : Option Key) : List (Option Key) → List KeyRange
  | [] => [⟨lower, upper⟩]
  | key :: rest => ⟨lower, key⟩ :: childRanges key upper rest

/-- Checks the children of a page from position `i` on by `visit`, which answers the depth of the
leaves below. Answers the depth of the leaves below the page, or `none` if the check ended. -/
def checkChildren (page : Page) (visit : PageNo → KeyRange → CheckM (Option Nat)) : (i : Nat) →
    List KeyRange → (depth : Option Nat) → CheckM (Option Nat)
  | _, [], depth => return depth
  | i, range :: rest, depth => do
    let number := page.number
    if ← isFull then return none
    match page.child i with
    | .error e =>
      let e := e.message
      report s!"Page {number}: child {i}: {e}"
      checkChildren page visit (i + 1) rest depth
    | .ok child =>
      match depth, ← visit child range with
      | none, found => checkChildren page visit (i + 1) rest found
      | some depth, none => checkChildren page visit (i + 1) rest (some depth)
      | some depth, some found =>
        if depth ≠ found then report s!"Page {number}: leaves at depths {depth} and {found}"
        checkChildren page visit (i + 1) rest (some depth)

/-- Checks a page of a tree and all that is below it. `left` more levels are allowed. Answers the
depth of the leaves, or `none` if it could not be found. -/
def checkTree (kind : TreeKind) : (left : Nat) → (page : PageNo) → (parent : Option PageNo) →
    KeyRange → CheckM (Option Nat)
  | left, number, parent, range => do
    if ← isFull then return none
    match left with
    | 0 =>
      report s!"Page {number}: tree deeper than {maxDepth} levels"
      return none
    | left + 1 =>
      if (← get).store.isMapPage number then
        report s!"Page {number}: pointer-map page used in a tree"
        return none
      if !(← mark number "Page") then return none
      checkEntry number
        (match parent with
        | none => ⟨.root, 0⟩
        | some parent => ⟨.treeNode, parent⟩)
      match ← attempt (Store.loadPage number) with
      | .error e =>
        let e := e.message
        report s!"Page {number}: {e}"
        return none
      | .ok page =>
        if page.kind.tree ≠ kind then
          let found := page.kind.name
          let kind := kind.name
          report s!"Page {number}: {found} page inside a {kind} tree"
          return none
        if parent.isSome && page.cellCount = 0 then
          report s!"Page {number}: non-root page has no cells"
        checkLayout page
        match ← checkCells page range page.cellCount 0 none with
        | none => return none
        | some keys =>
          if page.isLeaf then return some (maxDepth - left)
          checkChildren page (fun child range => checkTree kind left child (some number) range)
            0 (childRanges range.lower range.upper keys) none

def checkRoot (root : PageNo) : CheckM Unit := do
  if ← isFull then return
  if root = 0 || root > (← get).pageCount then
    report s!"Root page {root} out of range"
    return
  match ← attempt (Store.loadPage root) with
  | .error e =>
    let e := e.message
    report s!"Page {root}: {e}"
  | .ok page =>
    let _ ← checkTree page.kind.tree maxDepth root none {}

end Integrity

end TreeFile
