import TreeFile.Page.Basic

/-!
Space on a page: giving out room for a cell, taking it back, and moving all cells to the end so
that what is free is in one piece.
-/

namespace TreeFile

namespace Error

def freeOutsideContent (page : PageNo) (start stop : Nat) : Error :=
  onPage page s!"free of {start}..{stop} outside content area"

def freeOverlap (page : PageNo) (start stop : Nat) : Error :=
  onPage page s!"freed span {start}..{stop} overlaps freeblock"

end Error

namespace Page

def edit {α : Type} (act : Action Bytes α) : Action Page α :=
  Action.zoom Page.data (fun p data => { p with data }) act

def setHeader (f : PageHeader → PageHeader) : Action Page Unit :=
  modify fun p => { p with header := f p.header }

def writeHeader : Action Page Unit := do
  let header := (← get).header
  let start := (← get).headerStart
  edit (header.write start)

def gainFree (n : Nat) : Action Page Unit :=
  modify fun p => { p with freeBytes := p.freeBytes + n }

def loseFree (n : Nat) : Action Page Unit := do
  if n ≤ (← get).freeBytes then modify fun p => { p with freeBytes := p.freeBytes - n }
  else throw .outOfBounds

def setPointer (i start : Nat) : Action Page Unit := do
  let p ← get
  let slot := p.pointersStart + i * pointerSize
  edit (Bytes.putU16 slot start)

/-- Makes the block at `link`, or the header if there is none, name `start` as the next block. -/
def setLink (link : Option Nat) (start : Nat) : Action Page Unit :=
  match link with
  | none => do
    setHeader fun h => { h with firstFree := start }
    writeHeader
  | some link => edit (Bytes.putU16 link start)

def bestFit (size : Nat) : (link : Option Nat) → List (Nat × Nat) →
    (best : Option (Option Nat × Nat × Nat)) → Option (Option Nat × Nat × Nat)
  | _, [], best => best
  | link, (start, room) :: rest, best =>
    let better :=
      match best with
      | none => true
      | some (_, _, least) => room < least
    bestFit size (some start) rest
      (if size ≤ room && better then some (link, start, room) else best)

def carve (size : Nat) : Action Page Nat := do
  if size ≤ (← get).header.contentStart then
    setHeader fun h => { h with contentStart := h.contentStart - size }
    writeHeader
    loseFree size
    return (← get).header.contentStart
  else throw .outOfBounds

/-- Takes `size` bytes from the best fitting free block: its end, or all of it if fewer than four
bytes would remain and these may become fragments. -/
def takeBlock (size : Nat) : Action Page (Option Nat) := do
  let p ← get
  match bestFit size none (← p.freeBlocks) none with
  | none => return none
  | some (link, start, room) =>
    let rest := room - size
    if rest ≥ 4 then
      edit (Bytes.putU16 (start + 2) rest)
      loseFree size
      return some (start + rest)
    else if p.header.fragments + rest ≤ maxFragments then
      let next := (p.data.u16? start).getD 0
      setLink link next
      setHeader fun h => { h with fragments := h.fragments + rest }
      writeHeader
      loseFree size
      return some start
    else return none

/-- Moves the cells from `i` on to the end of the page, below `top`, as they lie in `before`.
Answers where the last one starts. -/
def packCells (before : Window) : (left i top : Nat) → Action Page Nat
  | 0, _, top => return top
  | left + 1, i, top => do
    let p ← get
    let start ← p.pointer i
    let info ← Cell.decode before start p.kind p.limits
    if info.size > top || start + info.size > p.usable then
      throw (.onPage p.number "cells overflow page during defragment")
    let top := top - info.size
    let cell ← before.bytes.slice start (start + info.size)
    edit (Bytes.put top cell)
    setPointer i top
    packCells before left (i + 1) top

def defragment : Action Page Unit := do
  let p ← get
  let top ← packCells p.window p.cellCount 0 p.usable
  if top < p.pointersEnd then throw (.onPage p.number "cells overlap pointer array")
  edit (Bytes.clear p.pointersEnd top)
  setHeader fun h => { h with firstFree := 0, fragments := 0, contentStart := top }
  modify fun q => { q with freeBytes := top - p.pointersEnd }
  writeHeader

def defragmentAndCarve (size : Nat) : Action Page Nat := do
  defragment
  let p ← get
  if p.header.contentStart < p.pointersEnd + pointerSize + size then
    throw (.onPage p.number "no room after defragment")
  carve size

/-- Room for a cell of `size` bytes, for a caller who knows that there is enough for it and its
pointer. A block that fits well comes first, then the gap, and then compaction. -/
def allocate (size : Nat) : Action Page Nat := do
  let size := max size minCellSize
  let p ← get
  if p.header.contentStart ≥ p.pointersEnd + pointerSize then
    match ← takeBlock size with
    | some start => return start
    | none =>
      if p.header.contentStart ≥ p.pointersEnd + pointerSize + size then carve size
      else defragmentAndCarve size
  else defragmentAndCarve size

def neighbours (start : Nat) : List (Nat × Nat) → (before : Option (Nat × Nat)) →
    Option (Nat × Nat) × Nat
  | [], before => (before, 0)
  | (block, size) :: rest, before =>
    if block ≥ start then (before, block) else neighbours start rest (some (block, size))

def freeFragment (size : Nat) : Action Page Unit := do
  let p ← get
  let fragments := p.header.fragments + size
  if fragments > 255 then throw (.onPage p.number "fragment count overflow")
  setHeader fun h => { h with fragments }
  gainFree size
  writeHeader

def absorb (page : PageNo) (fragments gap : Nat) : Except Error Nat :=
  if gap > fragments then .error (.onPage page "fragment count underflow")
  else .ok (fragments - gap)

/-- Turns the bytes from `start` up to `start + size` into a free block, joined with the blocks
on either side that are at most three bytes away. One that borders on the gap joins it. -/
def freeBlock (start size : Nat) : Action Page Unit := do
  let p ← get
  let stop := start + size
  let (before, next) := neighbours start (← p.freeBlocks) none
  if next ≠ 0 ∧ next < stop then throw (.freeOverlap p.number start stop)
  match before with
  | some (block, blockSize) =>
    if block + blockSize > start then throw (.freeOverlap p.number start stop)
  | none => pure ()
  let joinsNext := next ≠ 0 ∧ next - stop ≤ 3
  let fragments ←
    if joinsNext then absorb p.number p.header.fragments (next - stop)
    else pure p.header.fragments
  let newStop := if joinsNext then next + (p.data.u16? (next + 2)).getD 0 else stop
  let after := if joinsNext then (p.data.u16? next).getD 0 else next
  let joined :=
    match before with
    | some (block, blockSize) =>
      if start - (block + blockSize) ≤ 3 then some (block, start - (block + blockSize)) else none
    | none => none
  let fragments ←
    match joined with
    | some (_, gap) => absorb p.number fragments gap
    | none => pure fragments
  let newStart := (joined.map Prod.fst).getD start
  setHeader fun h => { h with fragments }
  gainFree size
  if newStart = p.header.contentStart then
    setHeader fun h => { h with firstFree := after, contentStart := newStop }
    writeHeader
  else
    edit (Bytes.putU16 newStart after)
    edit (Bytes.putU16 (newStart + 2) (newStop - newStart))
    if joined.isNone then setLink (before.map Prod.fst) newStart
    writeHeader

def free (start size : Nat) : Action Page Unit := do
  let p ← get
  if start < p.header.contentStart || start + size > p.usable then
    throw (.freeOutsideContent p.number start (start + size))
  if size < 4 then freeFragment size else freeBlock start size

end Page

end TreeFile
