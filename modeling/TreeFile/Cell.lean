import TreeFile.Varint
import TreeFile.Geometry
import TreeFile.Payload

/-!
Cells, the entries of a tree page. By kind of page a cell holds

* table leaf: payload size, row number, kept payload, first overflow page;
* table interior: left child, row number;
* index leaf: payload size, kept payload, first overflow page;
* index interior: left child, payload size, kept payload, first overflow page.

Sizes and row numbers are varints, pages are four bytes, and the overflow page is there only if
the payload is longer than what the cell keeps.
-/

namespace TreeFile

abbrev RowId := Int64

namespace RowId

def ofStored (value : Nat) : RowId := (UInt64.ofNat value).toInt64

def stored (r : RowId) : Nat := r.toUInt64.toNat

end RowId

structure CellInfo where
  leftChild : Option PageNo := none
  /-- The row number of a table cell, the payload size of an index cell. -/
  key : RowId := 0
  payloadSize : Nat := 0
  kept : Nat := 0
  headerSize : Nat := 0
  size : Nat := 0
  overflowPage : Option PageNo := none
  payloadStart : Nat := 0
deriving DecidableEq, Repr, Inhabited

def CellInfo.spills (c : CellInfo) : Bool := c.payloadSize > c.kept

def CellInfo.contentSize (c : CellInfo) : Nat :=
  c.headerSize + c.kept + if c.spills then 4 else 0

namespace Error

def cellTruncated (i : Nat) : Error := corrupt s!"cell at {i} truncated"

def overflowSlotPastEnd (i : Nat) : Error :=
  corrupt s!"overflow pointer of cell at {i} past end of page"

def zeroOverflowPage (i : Nat) : Error := corrupt s!"cell at {i} has a zero overflow pointer"
def cellPastEnd (i : Nat) : Error := corrupt s!"cell at {i} extends past end of page"
def noOverflowSlot : Error := internal "cell has no overflow slot"
def noLeftChild : Error := internal "interior cell needs a left child"
def payloadTooLarge : Error := misuse "payload larger than 4 GiB"
def interiorCellTruncated : Error := corrupt "interior cell truncated"

end Error

namespace Cell

def decodeChild (w : Window) (start : Nat) (kind : PageKind) :
    Except Error (Option PageNo × Nat) :=
  if kind.isLeaf then .ok (none, start)
  else
    match w.u32? start with
    | some child => .ok (some child, start + 4)
    | none => .error (.cellTruncated start)

def decodePayload (w : Window) (start : Nat) (kind : PageKind) (p : PayloadLimits)
    (c : CellInfo) : Except Error CellInfo := do
  let kept := p.kept kind c.payloadSize
  let contentEnd := c.payloadStart + kept
  let mut overflowPage := none
  let mut stop := contentEnd
  if c.payloadSize > kept then
    match w.u32? contentEnd with
    | none => throw (.overflowSlotPastEnd start)
    | some page =>
      if page = 0 then throw (.zeroOverflowPage start)
      overflowPage := some page
      stop := contentEnd + 4
  if stop > w.size then throw (.cellPastEnd start)
  return { c with kept, overflowPage, size := max (stop - start) minCellSize }

def decode (w : Window) (start : Nat) (kind : PageKind) (p : PayloadLimits) :
    Except Error CellInfo := do
  let (leftChild, afterChild) ← decodeChild w start kind
  match kind with
  | .tableInterior =>
    let (row, n) ← Varint.read w afterChild
    let size := afterChild + n - start
    return {
      leftChild, key := .ofStored row, headerSize := size, size, payloadStart := start + size }
  | .tableLeaf =>
    let (payloadSize, n) ← Varint.read32 w afterChild
    let (row, m) ← Varint.read w (afterChild + n)
    let payloadStart := afterChild + n + m
    decodePayload w start kind p {
      leftChild, key := .ofStored row, payloadSize, headerSize := payloadStart - start,
      payloadStart }
  | .indexLeaf | .indexInterior =>
    let (payloadSize, n) ← Varint.read32 w afterChild
    let payloadStart := afterChild + n
    decodePayload w start kind p {
      leftChild, key := .ofStored payloadSize, payloadSize,
      headerSize := payloadStart - start, payloadStart }

def size (d : Bytes) (kind : PageKind) (p : PayloadLimits) : Except Error Nat :=
  return (← decode d.window 0 kind p).size

end Cell

/-- A cell made for insertion, with an account of the payload it could not keep. -/
structure EncodedCell where
  bytes : Bytes
  kept : Nat
  chunks : List Nat
  slot : Option Nat

namespace EncodedCell

def spills (c : EncodedCell) : Bool := c.slot.isSome

def linkTo (c : EncodedCell) (page : PageNo) : Except Error EncodedCell :=
  match c.slot with
  | some slot => .ok { c with bytes := c.bytes.overwrite slot (Bytes.ofNat32 page) }
  | none => .error .noOverflowSlot

end EncodedCell

namespace Cell

def pad (d : Bytes) : Bytes :=
  if d.size < minCellSize then d ++ Bytes.zeros (minCellSize - d.size) else d

def childBytes (kind : PageKind) (leftChild : Option PageNo) : Except Error Bytes :=
  if kind.isLeaf then .ok .empty
  else
    match leftChild with
    | some child => .ok (Bytes.ofNat32 child)
    | none => .error .noLeftChild

/-- Makes a cell. `row` counts for table cells only: the key of an index cell is its payload. -/
def encode (kind : PageKind) (p : PayloadLimits) (leftChild : Option PageNo) (row : RowId)
    (payload : Bytes) : Except Error EncodedCell := do
  let child ← childBytes kind leftChild
  if kind = .tableInterior then
    return ⟨child ++ Varint.encode row.stored, 0, [], none⟩
  if payload.size ≥ UInt32.size then throw .payloadTooLarge
  let rowBytes := if kind = .tableLeaf then Varint.encode row.stored else .empty
  let kept := p.kept kind payload.size
  let content := child ++ Varint.encode payload.size ++ rowBytes ++ payload.extract 0 kept
  if kept < payload.size then
    return ⟨pad (content ++ Bytes.zeros 4), kept, p.chunks (payload.size - kept),
      some content.size⟩
  else
    return ⟨pad content, kept, [], none⟩

def leftChild (d : Bytes) : Except Error PageNo :=
  match d.u32? 0 with
  | some child => .ok child
  | none => .error .interiorCellTruncated

def setLeftChild (child : PageNo) : Action Bytes Unit := Bytes.putU32 0 child

def leafToInterior (d : Bytes) (p : PayloadLimits) (child : PageNo) : Except Error Bytes := do
  let info ← decode d.window 0 .indexLeaf p
  return Bytes.ofNat32 child ++ (← d.slice 0 info.contentSize)

def interiorToLeaf (d : Bytes) (p : PayloadLimits) : Except Error Bytes := do
  let info ← decode d.window 0 .indexInterior p
  if 4 ≤ info.contentSize ∧ info.contentSize ≤ d.size then
    return pad (d.extract 4 info.contentSize)
  else throw .interiorCellTruncated

end Cell

end TreeFile
