import TreeFile.Freelist

/-!
Overflow chains: the part of a payload that a cell does not keep. Each page holds the number of
the next one, zero at the end, and then payload.
-/

namespace TreeFile

namespace Error

def emptyChain : Error := internal "empty overflow chain"

def chainTooShort (first : PageNo) (missing : Nat) : Error :=
  corrupt s!"overflow chain from {first} ends {missing} bytes early"

def chainPastEnd (page : PageNo) : Error := corrupt s!"overflow page {page} beyond end of file"

def chainRevisits (first page : PageNo) : Error :=
  corrupt s!"overflow chain from {first} revisits page {page}"

def chainTooLong (first : PageNo) : Error :=
  corrupt s!"overflow chain from {first} longer than its payload"

def chainPage (page : PageNo) (i count : Nat) : Error :=
  corrupt s!"overflow page {page} out of range ({i} of {count})"

def chainLoops (first page : PageNo) : Error :=
  corrupt s!"overflow chain from {first} loops at {page}"

def payloadRange (start length size : Nat) : Error :=
  range s!"payload range {start}+{length} past {size} bytes"

def overflowPageRange (page : PageNo) : Error := corrupt s!"overflow page {page} out of range"

def chainCycle : Error := corrupt "overflow chain loops"

end Error

namespace Overflow

open Store

def next (data : Bytes) : PageNo := (data.u32? 0).getD 0

def capacity : StoreM Nat := return overflowCapacity (← get).usableSize

/-- Fills `pages` with what comes in `tail` from `start` on. The first is a part of what `owner`
holds; each other one follows the page before it. -/
def writePages (tail : Bytes) : List PageNo → (owner : PointerEntry) → (start : Nat) → StoreM Unit
  | [], _, _ => pure ()
  | page :: rest, owner, start => do
    let stop := start + (← capacity)
    putFresh page (Bytes.ofNat32 (rest.headD 0) ++ tail.extract start stop)
    PointerMap.put page owner
    writePages tail rest ⟨.overflowNext, page⟩ stop

/-- Writes `tail` to a new chain and answers its first page. `owner` is the page of the cell. -/
def write (tail : Bytes) (owner : PageNo) : StoreM PageNo := do
  let capacity ← capacity
  let pages ← Freelist.allocateMany ((tail.size + capacity - 1) / capacity)
  match pages with
  | [] => throw .emptyChain
  | first :: _ =>
    writePages tail pages ⟨.overflowHead, owner⟩ 0
    return first

def spill (cell : EncodedCell) (payload : Bytes) (owner : PageNo) : StoreM EncodedCell := do
  if cell.spills then
    let first ← write (payload.extract cell.kept payload.size) owner
    cell.linkTo first
  else return cell

/-- Goes on reading at `page` until `wanted` bytes are there. As no page is met twice, at most
`left` pages follow. -/
def readFrom (first : PageNo) (wanted : Nat) : (left : Nat) → (page : PageNo) → PageSet → Bytes →
    StoreM Bytes
  | left, page, seen, found => do
    if found.size ≥ wanted then
      if page ≠ 0 then throw (.chainTooLong first)
      return found
    if page = 0 then throw (.chainTooShort first (wanted - found.size))
    if page > (← get).pageCount then throw (.chainPastEnd page)
    if seen.contains page then throw (.chainRevisits first page)
    let data ← readPage page
    let length := min (wanted - found.size) (← capacity)
    let part ← data.slice 4 (4 + length)
    match left with
    | 0 => throw (.chainRevisits first page)
    | left + 1 => readFrom first wanted left (next data) (seen.insert page) (found ++ part)

def read (first : PageNo) (wanted : Nat) : StoreM Bytes := do
  readFrom first wanted (← get).pageCount first {} .empty

def payload (page : Page) (i : Nat) : StoreM Bytes := do
  let info ← page.cellInfo i
  let kept ← page.data.slice info.payloadStart (info.payloadStart + info.kept)
  match info.overflowPage with
  | some first => return kept ++ (← read first (info.payloadSize - info.kept))
  | none => return kept

/-- Goes on reading a payload up to `stop`. The page holds what comes from `reached` on, but what
comes before `start` is not wanted. -/
def readRange (start stop : Nat) : (left : Nat) → (page : PageNo) → (reached : Nat) → Bytes →
    StoreM Bytes
  | left, page, reached, found => do
    if reached ≥ stop then return found
    if page < 2 || page > (← get).pageCount then throw (.overflowPageRange page)
    match left with
    | 0 => throw .chainCycle
    | left + 1 =>
      let data ← readPage page
      let pageStop := reached + (← capacity)
      let part ←
        if pageStop > start then
          data.slice (4 + (max start reached - reached)) (4 + (min stop pageStop - reached))
        else pure .empty
      readRange start stop left (next data) pageStop (found ++ part)

/-- The `length` bytes of the payload of cell `i` from `start` on. Reads no more pages than these
need. -/
def payloadRange (page : Page) (i start length : Nat) : StoreM Bytes := do
  let info ← page.cellInfo i
  let stop := start + length
  if stop > info.payloadSize then throw (.payloadRange start length info.payloadSize)
  let kept ←
    if start < info.kept then
      page.data.slice (info.payloadStart + start) (info.payloadStart + min stop info.kept)
    else pure .empty
  if stop ≤ info.kept then return kept
  else readRange start stop (← get).pageCount (info.overflowPage.getD 0) info.kept kept

def freeFrom (first : PageNo) (total : Nat) : (left : Nat) → (page : PageNo) → PageSet →
    StoreM Unit
  | 0, _, _ => pure ()
  | left + 1, page, seen => do
    if page < 2 || page > (← get).pageCount then throw (.chainPage page (total - left) total)
    if seen.contains page then throw (.chainLoops first page)
    let following := next (← readPage page)
    if left = 0 ∧ following ≠ 0 then throw (.chainTooLong first)
    Freelist.free page
    freeFrom first total left following (seen.insert page)

def free (first : PageNo) (count : Nat) : StoreM Unit := freeFrom first count count first {}

def freeOf (info : CellInfo) : StoreM Unit := do
  match info.overflowPage with
  | some first => free first ((← get).limits.chainLength info.payloadSize info.kept)
  | none => pure ()

end Overflow

end TreeFile
