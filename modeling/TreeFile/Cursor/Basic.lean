import TreeFile.Cursor.Walk

/-!
Cursors: a place in a tree that outlasts changes to it. A cursor keeps the pages on the path to
its entry and the key of that entry. When the tree has changed since, it looks for the key again
before it does anything else.
-/

namespace TreeFile

inductive CursorState where
  | invalid
  | valid
  | requireSeek
  | skipNext
deriving DecidableEq, Repr, Inhabited

/-- Which step a cursor has taken already by landing on a neighbour. -/
inductive Skip where
  | none
  | next
  | previous
deriving DecidableEq, Repr, Inhabited

structure Cursor where
  tree : TreeRef
  writable : Bool
  state : CursorState := .invalid
  path : Path := []
  skip : Skip := .none
  savedKey : Option Key := none
  generation : Nat := 0
deriving Inhabited

structure Seated where
  cursor : Cursor
  store : Store
deriving Inhabited

abbrev CursorM := Action Seated

namespace Error

def closed : Error := misuse "btree is closed"
def entryDeleted : Error := misuse "cursor entry was deleted; step before reading"

end Error

namespace Cursor

def onStore {α : Type} (act : StoreM α) : CursorM α :=
  Action.zoom Seated.store (fun s store => { s with store }) act

def walk {α : Type} (act : WalkM α) : CursorM α :=
  Action.zoom (fun s => ⟨s.cursor.path, s.store⟩)
    (fun s w => { s with cursor.path := w.path, store := w.store }) act

def update (f : Cursor → Cursor) : CursorM Unit := modify fun s => { s with cursor := f s.cursor }

def current : CursorM Cursor := return (← get).cursor

def target : CursorM TreeRef := return (← get).cursor.tree

def storeGeneration : CursorM Nat := return (← get).store.generation

def checkOpen : CursorM Unit := do
  if !(← get).store.isOpen then throw .closed

def isValid (c : Cursor) : Bool := c.state == .valid

def atEnd (c : Cursor) : Bool := c.state == .invalid

def unseat (c : Cursor) : Cursor := { c with state := .invalid, path := [], savedKey := none }

def forgetPath (c : Cursor) : Cursor :=
  { c with
    path := []
    skip := .none
    state := if c.savedKey.isSome then .requireSeek else .invalid }

def keyHere : CursorM Key := do
  let top ← walk Walk.top
  match (← target).kind with
  | .table => return .row (← top.page.cellInfo top.index).key
  | .index => return .bytes (← onStore (Overflow.payload top.page top.index))

def settle (found : Bool) : CursorM Bool := do
  let generation ← storeGeneration
  update fun c => { c with generation, skip := .none }
  if found then
    let key ← keyHere
    update fun c => { c with savedKey := some key, state := .valid }
  else update unseat
  return found

def reseek (key : Key) : CursorM Unit := do
  let landing ← walk (Walk.toKey (← target) key)
  let generation ← storeGeneration
  update fun c => { c with generation, skip := .none }
  match landing with
  | .empty => update unseat
  | .equal => update fun c => { c with state := .valid }
  | .greater => update fun c => { c with state := .skipNext, skip := .next }
  | .less => update fun c => { c with state := .skipNext, skip := .previous }

def isCurrent (c : Cursor) (generation : Nat) : Bool :=
  (c.state == .valid || c.state == .skipNext) && c.generation == generation

def restore : CursorM Unit := do
  let c ← current
  if c.state = .invalid then update fun c => { c with path := [] }
  else if !c.isCurrent (← storeGeneration) then
    match c.savedKey with
    | none => update fun c => { c with state := .invalid, path := [] }
    | some key => reseek key

def requireEntry : CursorM Unit := do
  restore
  match (← current).state with
  | .valid => pure ()
  | .skipNext => throw .entryDeleted
  | .invalid | .requireSeek => throw .notOnEntry

end Cursor

end TreeFile
