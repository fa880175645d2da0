import Std.Data.TreeMap
import Std.Data.TreeMap.AdditionalOperations
import TreeFile.File
import TreeFile.Config

/-!
The pager: page images of a file, by number. It keeps images in a cache, collects those that a
write transaction changes, and remembers what each of them was before, so that the transaction or
a savepoint inside it can be undone. This module holds its state and the reading side.
-/

namespace TreeFile

/-- The content of a page, and whether it differs from what the file has. -/
structure PageImage where
  data : Bytes
  dirty : Bool := false
deriving DecidableEq, Inhabited

def PageImage.blank (size : Nat) : PageImage := { data := Bytes.zeros size }

abbrev PageMap (α : Type) := Std.TreeMap PageNo α

inductive PagerState where
  | idle
  | reading
  | writing
deriving DecidableEq, Repr, Inhabited

/-- What it takes to go back to the moment a savepoint was opened. -/
structure Savepoint where
  undo : PageMap Bytes := {}
  pageCount : Nat

namespace Savepoint

/-- Keeps the image `page` had, unless an earlier one is kept or the page did not exist yet. -/
def remember (s : Savepoint) (page : PageNo) (image : Bytes) : Savepoint :=
  if page ≤ s.pageCount then { s with undo := s.undo.insertIfNew page image } else s

def absorb (outer inner : Savepoint) : Savepoint :=
  inner.undo.foldl (fun s page image => s.remember page image) outer

end Savepoint

structure Pager where
  file : File := {}
  /-- The file is the only copy, so images are never dropped from the cache or synced. -/
  inMemory : Bool := false
  pageSize : Nat
  state : PagerState := .idle
  pageCount : Nat := 0
  startCount : Nat := 0
  maxPages : Nat := 0xfffffffe
  cacheLimit : Nat := 2000
  cache : PageMap PageImage := {}
  journal : PageMap Bytes := {}
  savepoints : List Savepoint := []
  reads : Nat := 0
  writes : Nat := 0
  evictions : Nat := 0
  /-- The order in which clean images are dropped, at each eviction anew. It has no effect but
  on the count of reads. -/
  evictionOrder : Nat → List PageNo → List PageNo := fun _ clean => clean

instance : Inhabited Pager := ⟨{ pageSize := 512 }⟩

namespace Error

def pageOutOfRange (page : PageNo) : Error := corrupt s!"page number {page} out of range"

def pageSizeFixed : Error := misuse "page size cannot change with pages cached"

def imageSize (page : PageNo) (size : Nat) : Error := internal s!"page {page} has {size} bytes"

def pageLimit (limit : Nat) : Error := full s!"page limit {limit} reached"

def noSavepoint : Error := misuse "no open savepoint"

end Error

namespace Pager

def onFile {α : Type} (act : Action File α) : Action Pager α :=
  Action.zoom Pager.file (fun p file => { p with file }) act

def refreshCount : Action Pager Unit := do
  let size ← onFile File.size
  modify fun p =>
    let count := size / p.pageSize
    { p with pageCount := count, startCount := count }

def ofFile (file : File) (pageSize : Nat) : Except Error Pager :=
  Action.applied refreshCount { file, pageSize }

def ownFile (pageSize : Nat) : Except Error Pager := do
  return { (← ofFile {} pageSize) with inMemory := true }

/-- The first `n` bytes of the file, for which no page size is needed, and how many it has. -/
def readStart (n : Nat) : Action Pager (Nat × Bytes) := onFile (File.read n 0)

def setPageSize (size : Nat) : Action Pager Unit := do
  let p ← get
  if size ≠ p.pageSize then
    if !p.cache.isEmpty || p.state = .writing then throw .pageSizeFixed
    modify fun p => { p with pageSize := size }
    refreshCount

def setMaxPages (limit : Nat) : Action Pager Nat := do
  if limit > 0 then modify fun p => { p with maxPages := max limit p.pageCount }
  return (← get).maxPages

def setCacheLimit (limit : Nat) : Action Pager Unit :=
  modify fun p => { p with cacheLimit := max limit 10 }

def offset (p : Pager) (page : PageNo) : Int := ((page : Int) - 1) * p.pageSize

def cleanPages (p : Pager) : List PageNo :=
  p.cache.toList.filterMap fun (page, image) => if image.dirty then none else some page

def victims (p : Pager) : List PageNo :=
  let clean := p.cleanPages
  ((p.evictionOrder p.evictions clean).filter clean.contains).take (p.cache.size / 4 + 1)

def evict (p : Pager) : Pager :=
  if p.cache.size < p.cacheLimit || p.inMemory then p
  else { p with
    cache := p.victims.foldl (fun cache page => cache.erase page) p.cache
    evictions := p.evictions + 1 }

def store (page : PageNo) (image : PageImage) (p : Pager) : Pager :=
  { p with cache := p.cache.insert page image }

/-- The image of a page from the cache or else from the file, whatever the page count is. -/
def load (page : PageNo) : Action Pager PageImage := do
  let p ← get
  match p.cache[page]? with
  | some image => return image
  | none =>
    let (present, data) ← onFile (File.read p.pageSize (p.offset page))
    let image : PageImage := { data }
    modify fun p =>
      let p := if present > 0 then { p with reads := p.reads + 1 } else p
      p.evict.store page image
    return image

def fetch (page : PageNo) : Action Pager PageImage := do
  let p ← get
  if page = 0 || page > p.maxPages then throw (.pageOutOfRange page)
  if p.state = .idle then modify fun p => { p with state := .reading }
  if page > p.pageCount then return .blank p.pageSize
  else load page

end Pager

end TreeFile
