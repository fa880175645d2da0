import TreeFile.Pager.Basic

/-!
Writing pages: growth, write transactions, and savepoints nested inside them.
-/

namespace TreeFile

namespace Pager

def begin : Action Pager Unit :=
  modify fun p =>
    if p.state = .writing then p
    else { p with state := .writing, startCount := p.pageCount, journal := {} }

def journalLacks (p : Pager) (page : PageNo) : Bool :=
  page ≤ p.startCount && !p.journal.contains page

def savepointLacks (p : Pager) (page : PageNo) : Bool :=
  match p.savepoints with
  | [] => false
  | s :: _ => page ≤ s.pageCount && !s.undo.contains page

/-- Keeps the image a page has before its first change, for the transaction and for the innermost
savepoint. -/
def remember (page : PageNo) : Action Pager Unit := do
  let p ← get
  if p.journalLacks page || p.savepointLacks page then
    let image := (← load page).data
    modify fun p => { p with
      journal :=
        if page ≤ p.startCount then p.journal.insertIfNew page image else p.journal
      savepoints :=
        match p.savepoints with
        | [] => []
        | s :: outer => s.remember page image :: outer }

def write (page : PageNo) (data : Bytes) : Action Pager Unit := do
  let p ← get
  if page = 0 || page > p.maxPages then throw ⟨.full, none⟩
  if data.size ≠ p.pageSize then throw (.imageSize page data.size)
  begin
  remember page
  modify fun p =>
    { p with pageCount := max p.pageCount page }.store page { data, dirty := true }

def extend : Action Pager PageNo := do
  let p ← get
  let page := p.pageCount + 1
  if page > p.maxPages then throw (.pageLimit p.maxPages)
  write page (Bytes.zeros p.pageSize)
  return page

/-- Drops the pages behind the first `count`. Their images stay in the cache until the commit,
because a savepoint may bring them back. -/
def truncate (count : Nat) : Action Pager Unit :=
  modify fun p => if count < p.pageCount then { p with pageCount := count } else p

def dirtyPages (p : Pager) : List (PageNo × Bytes) :=
  p.cache.toList.filterMap fun (page, image) =>
    if image.dirty && page ≤ p.pageCount then some (page, image.data) else none

def writeBack : List (PageNo × Bytes) → Action Pager Unit
  | [] => pure ()
  | (page, data) :: rest => do
    let offset := (← get).offset page
    onFile (File.write data offset)
    modify fun p => { p.store page { data } with writes := p.writes + 1 }
    writeBack rest

def dropPast (count : Nat) (p : Pager) : Pager :=
  { p with cache := p.cache.filter fun page _ => page ≤ count }

/-- Writes every changed page, gives the file its length and ends the transaction. After a
failure the transaction is still open. -/
def commit : Action Pager Unit := do
  if (← get).state = .writing then
    writeBack (← get).dirtyPages
    let size := (← get).pageCount * (← get).pageSize
    if (← onFile File.size) ≠ size then onFile (File.truncate size)
    if !(← get).inMemory then onFile File.sync
    modify fun p => { dropPast p.pageCount p with
      journal := {}
      savepoints := []
      startCount := p.pageCount
      state := .reading }

def rollback : Action Pager Unit :=
  modify fun p =>
    if p.state = .writing then
      let restored := p.journal.foldl (fun cache page data => cache.insert page { data }) p.cache
      let clean := restored.filter fun page image => !image.dirty && page ≤ p.startCount
      { p with
        cache := clean
        journal := {}
        savepoints := []
        pageCount := p.startCount
        state := .reading }
    else p

def openSavepoint : Action Pager Nat := do
  begin
  modify fun p => { p with savepoints := { pageCount := p.pageCount } :: p.savepoints }
  return (← get).savepoints.length

def releaseSavepoint : Action Pager Unit := do
  match (← get).savepoints with
  | [] => throw .noSavepoint
  | [_] => modify fun p => { p with savepoints := [] }
  | inner :: outer :: rest =>
    modify fun p => { p with savepoints := outer.absorb inner :: rest }

/-- Closes the innermost savepoint and takes back what changed since it was opened. The restored
pages still differ from the file. -/
def rollbackSavepoint : Action Pager Unit := do
  match (← get).savepoints with
  | [] => throw .noSavepoint
  | inner :: rest =>
    modify fun p => { p with
      savepoints := rest
      cache := inner.undo.foldl
        (fun cache page data => cache.insert page { data, dirty := true }) p.cache
      pageCount := inner.pageCount }

end Pager

end TreeFile
