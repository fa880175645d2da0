import TreeFile.Integrity.Check

/-!
Checking the layout of a page: its cells and free blocks must not overlap, and no byte may be
unaccounted for.
-/

namespace TreeFile

namespace Integrity

/-- A run of bytes in use or free, as `start`, `size` and what it is. -/
abbrev Piece := Nat × Nat × String

def pieceOrder (a b : Piece) : Bool :=
  a.1 < b.1 || (a.1 == b.1 && (a.2.1 < b.2.1 || (a.2.1 == b.2.1 && a.2.2 ≤ b.2.2)))

def cellPieces (page : Page) : (left i : Nat) → List Nat → Except Nat (List Piece)
  | left + 1, i, start :: rest =>
    match page.cellInfo i with
    | .ok info => do return (start, info.size, "cell") :: (← cellPieces page left (i + 1) rest)
    | .error _ => .error i
  | _, _, _ => .ok []

/-- The end of the last of some pieces in order of their start, or the first one that overlaps
what is before it. -/
def lastEnd : (stop : Nat) → List Piece → Except Piece Nat
  | stop, [] => .ok stop
  | stop, piece :: rest =>
    if piece.1 < stop then .error piece else lastEnd (piece.1 + piece.2.1) rest

/-- What is wrong with the layout of a page: cells and free blocks must not overlap, and with the
other free bytes they must make up the whole area. -/
def layoutFault (page : Page) : Except String Unit := do
  let number := page.number
  let onPage {α : Type} : Except Error α → Except String α
    | .ok a => .ok a
    | .error e =>
      let e := e.message
      .error s!"Page {number}: {e}"
  let pointers ← onPage page.pointers
  let cells ←
    match cellPieces page pointers.length 0 pointers with
    | .ok cells => pure cells
    | .error i => throw s!"Page {number}: cell {i} unreadable"
  let blocks ← onPage page.freeBlocks
  let pieces := cells ++ blocks.map fun b => (b.1, b.2, "freeblock")
  match lastEnd page.header.contentStart (pieces.mergeSort pieceOrder) with
  | .error (start, _, what) =>
    throw s!"Page {number}: {what} at {start} overlaps earlier content"
  | .ok stop =>
    if stop > page.usable then throw s!"Page {number}: content runs past the usable area"
  let used := total (cells.map fun c => c.2.1)
  let accounted := used + page.freeBytes + page.cellCount * pointerSize
  let area := page.capacity
  if accounted ≠ area then
    throw s!"Page {number}: {accounted} bytes accounted for in a {area} byte area"

def checkLayout (page : Page) : CheckM Unit :=
  match layoutFault page with
  | .ok () => pure ()
  | .error finding => report finding

end Integrity

end TreeFile
