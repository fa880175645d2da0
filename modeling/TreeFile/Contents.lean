import TreeFile.Cursor.Walk
import TreeFile.Pager.Image

/-!
What a tree contains, read straight off its pages: the entries in the order in which they stand,
with their payloads put together. A tree that breaks the rules of the format has no contents.
-/

namespace TreeFile

structure Entry where
  key : Key
  payload : Bytes
deriving DecidableEq, Inhabited

namespace Contents

def exists? (s : Store) (page : PageNo) : Option Unit :=
  if 1 ≤ page ∧ page ≤ s.pageCount then some () else none

def page? (s : Store) (number : PageNo) : Option Page := do
  exists? s number
  (Page.parse number (s.pager.image number) (s.geometry number) s.limits).toOption

def chain? (s : Store) : (left : Nat) → (page : PageNo) → Option (List PageNo)
  | 0, page => if page = 0 then some [] else none
  | left + 1, page => do
    exists? s page
    return page :: (← chain? s left (Overflow.next (s.pager.image page)))

def chainOf? (s : Store) (info : CellInfo) : Option (List PageNo) :=
  match info.overflowPage with
  | none => some []
  | some first => chain? s (s.limits.chainLength info.payloadSize info.kept) first

def carried (s : Store) (page : PageNo) : Bytes :=
  (s.pager.image page).extract 4 (4 + overflowCapacity s.usableSize)

def payload? (s : Store) (page : Page) (info : CellInfo) : Option Bytes := do
  let kept := page.data.extract info.payloadStart (info.payloadStart + info.kept)
  let chain ← chainOf? s info
  let whole := chain.foldl (fun d number => d ++ carried s number) kept
  return whole.extract 0 info.payloadSize

def entryOf? (s : Store) (page : Page) (i : Nat) : Option Entry := do
  let info ← (page.cellInfo i).toOption
  let payload ← payload? s page info
  match page.kind.tree with
  | .table => return ⟨.row info.key, payload⟩
  | .index => return ⟨.bytes payload, payload⟩

/-- The entries in the cells of a page. On an interior page of a table the cells only divide. -/
def ownEntries? (s : Store) (page : Page) : Option (List Entry) :=
  if page.kind = .tableInterior then some []
  else (List.range page.cellCount).mapM (entryOf? s page)

/-- The lists one after the other, with an item of `between` after each as long as there is
one. -/
def weave {α : Type} : (lists : List (List α)) → (between : List α) → List α
  | [], _ => []
  | list :: lists, [] => list ++ weave lists []
  | list :: lists, item :: between => list ++ item :: weave lists between

/-- The entries on a page and below it, of a tree of which at most `left` levels follow. -/
def entriesFrom? (s : Store) (kind : TreeKind) : (left : Nat) → (number : PageNo) →
    Option (List Entry)
  | 0, _ => none
  | left + 1, number => do
    let page ← page? s number
    if page.kind.tree ≠ kind then none
    let own ← ownEntries? s page
    if page.isLeaf then return own
    let children ← page.children.toOption
    return weave (← children.mapM (entriesFrom? s kind left)) own

def entries? (s : Store) (root : PageNo) : Option (List Entry) := do
  entriesFrom? s (← page? s root).kind.tree maxDepth root

end Contents

end TreeFile
