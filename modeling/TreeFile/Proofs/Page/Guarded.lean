import TreeFile.Proofs.Page.Bounded

/-!
The changes to a page with every difference and every access checked: where more would be taken than there is, or
read what is not there, they fail with an access out of bounds. On a page within its bounds none of the checks
fails, so that the changes are what they are without them.
-/

namespace TreeFile

namespace Guarded

open Page (bestFit neighbours absorb edit setHeader writeHeader loseFree gainFree setLink setPointer carve freeFragment
  park joinable bind_congr_ok)

def minus (a b : Nat) : Except Error Nat := if b ≤ a then .ok (a - b) else .error .outOfBounds

def u16 (d : Bytes) (i : Nat) : Except Error Nat :=
  match d.u16? i with
  | some value => .ok value
  | none => .error .outOfBounds

def window (p : Page) : Except Error Window :=
  if p.usable ≤ p.data.size then .ok p.window else .error .outOfBounds

theorem minus_of_le {a b : Nat} (order : b ≤ a) : minus a b = .ok (a - b) := if_pos order

theorem u16_of_le {d : Bytes} {i : Nat} (inside : i + 2 ≤ d.size) : u16 d i = .ok ((d.u16? i).getD 0) := by
  unfold u16
  rw [Bytes.u16?_of_le inside]
  rfl

def kept (limits : PayloadLimits) (kind : PageKind) (size : Nat) : Except Error Nat :=
  let (most, least) := limits.bounds kind
  if size ≤ most then .ok size
  else do
    let even := least + (← minus size least) % (← minus limits.usableSize 4)
    return if even ≤ most then even else least

def decodePayload (w : Window) (start : Nat) (kind : PageKind) (limits : PayloadLimits) (c : CellInfo) :
    Except Error CellInfo := do
  let kept ← kept limits kind c.payloadSize
  let contentEnd := c.payloadStart + kept
  let mut overflowPage := none
  let mut stop := contentEnd
  if c.payloadSize > kept then
    match w.u32? contentEnd with
    | none => throw (.overflowSlotPastEnd start)
    | some page =>
      if page = 0 then throw (.zeroOverflowPage start)
      overflowPage := some page
      stop := contentEnd + 4
  if stop > w.size then throw (.cellPastEnd start)
  return { c with kept, overflowPage, size := max (← minus stop start) minCellSize }

def decode (w : Window) (start : Nat) (kind : PageKind) (limits : PayloadLimits) : Except Error CellInfo := do
  let (leftChild, afterChild) ← Cell.decodeChild w start kind
  match kind with
  | .tableInterior =>
    let (row, n) ← Varint.read w afterChild
    let size ← minus (afterChild + n) start
    return { leftChild, key := .ofStored row, headerSize := size, size, payloadStart := start + size }
  | .tableLeaf =>
    let (payloadSize, n) ← Varint.read32 w afterChild
    let (row, m) ← Varint.read w (afterChild + n)
    let payloadStart := afterChild + n + m
    decodePayload w start kind limits {
      leftChild, key := .ofStored row, payloadSize, headerSize := ← minus payloadStart start, payloadStart }
  | .indexLeaf | .indexInterior =>
    let (payloadSize, n) ← Varint.read32 w afterChild
    let payloadStart := afterChild + n
    decodePayload w start kind limits {
      leftChild, key := .ofStored payloadSize, payloadSize, headerSize := ← minus payloadStart start, payloadStart }

def cellInfo (p : Page) (i : Nat) : Except Error CellInfo := do
  let start ← p.pointer i
  decode (← window p) start p.kind p.limits

theorem kept_eq {limits : PayloadLimits} (fair : limits.Fair) (kind : PageKind) (size : Nat) :
    kept limits kind size = .ok (limits.kept kind size) := by
  have order := fair.bounds_le kind
  have usable := fair.usable
  unfold kept PayloadLimits.kept keptPayload
  dsimp only
  split
  · rfl
  · rw [minus_of_le (by omega), minus_of_le (by omega)]
    rfl

theorem decodePayload_eq {w : Window} {start : Nat} {kind : PageKind} {limits : PayloadLimits} {c : CellInfo}
    (fair : limits.Fair) (order : start ≤ c.payloadStart) :
    decodePayload w start kind limits c = Cell.decodePayload w start kind limits c := by
  have last : ∀ (page : Option PageNo) (n : Nat), (do
      if c.payloadStart + n > w.size then throw (.cellPastEnd start)
      return { c with
        kept := limits.kept kind c.payloadSize
        overflowPage := page
        size := max (← minus (c.payloadStart + n) start) minCellSize } : Except Error CellInfo) = (do
      if c.payloadStart + n > w.size then throw (.cellPastEnd start)
      return { c with
        kept := limits.kept kind c.payloadSize
        overflowPage := page
        size := max (c.payloadStart + n - start) minCellSize }) := fun page n => by
    rw [minus_of_le (Nat.le_trans order (Nat.le_add_right _ n))]
    rfl
  unfold decodePayload Cell.decodePayload
  rw [kept_eq fair, Except.ok_bind]
  dsimp only
  by_cases spills : c.payloadSize > limits.kept kind c.payloadSize
  · rw [if_pos spills, if_pos spills]
    cases w.u32? (c.payloadStart + limits.kept kind c.payloadSize) with
    | none => rfl
    | some page =>
      dsimp only
      by_cases zero : page = 0
      · rw [if_pos zero, if_pos zero]
        rfl
      · rw [if_neg zero, if_neg zero]
        exact last (some page) (limits.kept kind c.payloadSize + 4)
  · rw [if_neg spills, if_neg spills]
    exact last none (limits.kept kind c.payloadSize)

theorem decodeChild_order {w : Window} {start afterChild : Nat} {kind : PageKind} {child : Option PageNo}
    (run : Cell.decodeChild w start kind = .ok (child, afterChild)) : start ≤ afterChild := by
  unfold Cell.decodeChild at run
  split at run
  · cases run
    exact Nat.le_refl start
  · split at run
    · cases run
      exact Nat.le_add_right start 4
    · cases run

theorem decode_eq {limits : PayloadLimits} (fair : limits.Fair) (w : Window) (start : Nat) (kind : PageKind) :
    decode w start kind limits = Cell.decode w start kind limits := by
  unfold decode Cell.decode
  cases read : Cell.decodeChild w start kind with
  | error e => rfl
  | ok found =>
    obtain ⟨child, afterChild⟩ := found
    have order := decodeChild_order read
    rw [Except.ok_bind, Except.ok_bind]
    dsimp only
    cases kind with
    | tableInterior =>
      refine bind_congr fun found => ?_
      rw [minus_of_le (by omega)]
      rfl
    | tableLeaf =>
      refine bind_congr fun found => bind_congr fun found' => ?_
      rw [minus_of_le (by omega), Except.ok_bind]
      exact decodePayload_eq fair (by dsimp only; omega)
    | indexLeaf | indexInterior =>
      refine bind_congr fun found => ?_
      rw [minus_of_le (by omega), Except.ok_bind]
      exact decodePayload_eq fair (by dsimp only; omega)

def freeBlocksFrom (p : Page) : (left lastEnd start : Nat) → Except Error (List Run)
  | left, lastEnd, start => do
    if start = 0 then return []
    if start < lastEnd || start + 4 > p.usable then throw (.freeBlockOrder p.number start)
    let next ← u16 p.data start
    let size ← u16 p.data (start + 2)
    if size < 4 || start + size > p.usable then throw (.freeBlockSize p.number start size)
    match left with
    | 0 => throw (.onPage p.number "freeblock chain loops")
    | left + 1 => return (start, size) :: (← freeBlocksFrom p left (start + size) next)

def freeBlocks (p : Page) : Except Error (List Run) :=
  freeBlocksFrom p (p.usable / minCellSize) p.header.contentStart p.header.firstFree

def takeBlock (size : Nat) : Action Page (Option Nat) := do
  let p ← get
  match bestFit size none (← freeBlocks p) none with
  | none => return none
  | some (link, start, room) =>
    let rest ← minus room size
    if rest ≥ 4 then
      edit (Bytes.putU16 (start + 2) rest)
      loseFree size
      return some (start + rest)
    else if p.header.fragments + rest ≤ maxFragments then
      let next ← u16 p.data start
      setLink link next
      setHeader fun h => { h with fragments := h.fragments + rest }
      writeHeader
      loseFree size
      return some start
    else return none

def packCells (before : Window) : (left i top : Nat) → Action Page Nat
  | 0, _, top => return top
  | left + 1, i, top => do
    let p ← get
    let start ← p.pointer i
    let info ← decode before start p.kind p.limits
    if info.size > top || start + info.size > p.usable then
      throw (.onPage p.number "cells overflow page during defragment")
    let top ← minus top info.size
    let cell ← before.bytes.slice start (start + info.size)
    edit (Bytes.put top cell)
    setPointer i top
    packCells before left (i + 1) top

def defragment : Action Page Unit := do
  let p ← get
  let top ← packCells (← window p) p.cellCount 0 p.usable
  if top < p.pointersEnd then throw (.onPage p.number "cells overlap pointer array")
  edit (Bytes.clear p.pointersEnd top)
  setHeader fun h => { h with firstFree := 0, fragments := 0, contentStart := top }
  let free ← minus top p.pointersEnd
  modify fun q => { q with freeBytes := free }
  writeHeader

def defragmentAndCarve (size : Nat) : Action Page Nat := do
  defragment
  let p ← get
  if p.header.contentStart < p.pointersEnd + pointerSize + size then
    throw (.onPage p.number "no room after defragment")
  carve size

def allocate (size : Nat) : Action Page Nat := do
  let size := max size minCellSize
  let p ← get
  if p.header.contentStart ≥ p.pointersEnd + pointerSize then
    match ← takeBlock size with
    | some start => return start
    | none =>
      if p.header.contentStart ≥ p.pointersEnd + pointerSize + size then carve size
      else defragmentAndCarve size
  else defragmentAndCarve size

def checkApart (p : Page) (start stop next : Nat) (before : Option Run) : Except Error Unit := do
  if next ≠ 0 ∧ next < stop then throw (.freeOverlap p.number start stop)
  match before with
  | some (block, size) => if block + size > start then throw (.freeOverlap p.number start stop)
  | none => pure ()

/-- The fragments left once the run has joined the block behind it, where it ends then, and what comes next. -/
def joinRight (p : Page) (stop next : Nat) : Except Error (Nat × Nat × Nat) := do
  if next = 0 then return (p.header.fragments, stop, next)
  let gap ← minus next stop
  if gap > 3 then return (p.header.fragments, stop, next)
  let fragments ← absorb p.number p.header.fragments gap
  return (fragments, next + (← u16 p.data (next + 2)), ← u16 p.data next)

/-- The fragments left once the run has joined the block before it, and where that starts. -/
def joinLeft (p : Page) (start fragments : Nat) (before : Option Run) : Except Error (Nat × Option Nat) := do
  match before with
  | none => return (fragments, none)
  | some (block, size) =>
    let gap ← minus start (block + size)
    if gap > 3 then return (fragments, none)
    return (← absorb p.number fragments gap, some block)

def freeBlock (start size : Nat) : Action Page Unit := do
  let p ← get
  let stop := start + size
  let (before, next) := neighbours start (← freeBlocks p) none
  checkApart p start stop next before
  let (fragments, newStop, after) ← joinRight p stop next
  let (fragments, joined) ← joinLeft p start fragments before
  let newStart := joined.getD start
  setHeader fun h => { h with fragments }
  gainFree size
  if newStart = p.header.contentStart then
    setHeader fun h => { h with firstFree := after, contentStart := newStop }
    writeHeader
  else
    edit (Bytes.putU16 newStart after)
    edit (Bytes.putU16 (newStart + 2) (← minus newStop newStart))
    if joined.isNone then setLink (before.map Prod.fst) newStart
    writeHeader

def free (start size : Nat) : Action Page Unit := do
  let p ← get
  if start < p.header.contentStart || start + size > p.usable then
    throw (.freeOutsideContent p.number start (start + size))
  if size < 4 then freeFragment size else freeBlock start size

def place (i : Nat) (cell : Bytes) : Action Page Unit := do
  let start ← allocate cell.size
  edit (Bytes.put start cell)
  let p ← get
  let slot := p.pointersStart + i * pointerSize
  let pointersEnd := p.pointersEnd
  edit (Bytes.move slot pointersEnd (slot + pointerSize))
  edit (Bytes.putU16 slot start)
  setHeader fun h => { h with cellCount := h.cellCount + 1 }
  loseFree pointerSize
  writeHeader

def insert (i : Nat) (cell : Bytes) : Action Page Unit := do
  let p ← get
  if i > p.logicalCount then throw (.insertPosition i p.logicalCount)
  if p.hasParked || cell.size + pointerSize > p.freeBytes || p.cellCount + 1 > p.geometry.maxCells then
    park i cell
  else place i cell

def clearContent : Action Page Unit := do
  let p ← get
  edit (Bytes.clear p.pointersStart p.usable)
  setHeader fun h => { h with firstFree := 0, fragments := 0, contentStart := p.usable }
  let room ← minus p.usable p.pointersStart
  modify fun p => { p with freeBytes := room }

def drop (i : Nat) : Action Page Unit := do
  let p ← get
  let start ← p.pointer i
  let info ← cellInfo p i
  let slot := p.pointersStart + i * pointerSize
  let pointersEnd := p.pointersEnd
  free start info.size
  edit (Bytes.move (slot + pointerSize) pointersEnd slot)
  edit (Bytes.clear (← minus pointersEnd pointerSize) pointersEnd)
  let count ← minus (← get).cellCount 1
  setHeader fun h => { h with cellCount := count }
  gainFree pointerSize
  if (← get).cellCount = 0 then clearContent
  writeHeader

variable {p : Page} (bounded : p.Bounded)

include bounded

theorem window_eq : window p = .ok p.window := if_pos bounded.usable_le

theorem cellInfo_eq (i : Nat) : cellInfo p i = p.cellInfo i := by
  unfold cellInfo Page.cellInfo
  rw [window_eq bounded]
  exact bind_congr fun start => decode_eq bounded.fair p.window start p.kind

theorem freeBlocksFrom_eq (left lastEnd start : Nat) :
    freeBlocksFrom p left lastEnd start = p.freeBlocksFrom left lastEnd start := by
  have usable := bounded.usable_le
  induction left generalizing lastEnd start with
  | zero =>
    unfold freeBlocksFrom Page.freeBlocksFrom
    by_cases outside : (decide (start < lastEnd) || decide (start + 4 > p.usable)) = true
    · rw [if_pos outside, if_pos outside]
      rfl
    · rw [if_neg outside, if_neg outside]
      simp only [Bool.or_eq_true, decide_eq_true_eq, not_or] at outside
      rw [u16_of_le (by omega), u16_of_le (by omega)]
      rfl
  | succ left ih =>
    unfold freeBlocksFrom Page.freeBlocksFrom
    by_cases outside : (decide (start < lastEnd) || decide (start + 4 > p.usable)) = true
    · rw [if_pos outside, if_pos outside]
      rfl
    · rw [if_neg outside, if_neg outside]
      simp only [Bool.or_eq_true, decide_eq_true_eq, not_or] at outside
      rw [u16_of_le (by omega), u16_of_le (by omega)]
      simp only [Except.ok_bind, ih]

theorem freeBlocks_eq : freeBlocks p = p.freeBlocks := freeBlocksFrom_eq bounded _ _ _

theorem takeBlock_eq (size : Nat) : takeBlock size p = Page.takeBlock size p := by
  have usable := bounded.usable_le
  unfold takeBlock Page.takeBlock
  rw [Action.get_bind, Action.get_bind, freeBlocks_eq bounded]
  cases found : p.freeBlocks with
  | error e => rfl
  | ok blocks =>
    rw [Action.lift_ok_bind, Action.lift_ok_bind]
    cases best : bestFit size none blocks none with
    | none => rfl
    | some block =>
      obtain ⟨link, start, room⟩ := block
      rcases Page.bestFit_found blocks none none best with none | ⟨pre, post, rfl, fits, rfl⟩
      · cases none
      have place := (bounded.blocks found).2.1 _ (List.mem_append_right pre List.mem_cons_self)
      unfold minCellSize at place
      dsimp only at place ⊢
      rw [minus_of_le fits, Action.lift_ok_bind, u16_of_le (by omega)]
      rfl

omit bounded in
theorem packCells_eq (fair : p.limits.Fair) (before : Window) (left i top : Nat) :
    packCells before left i top p = Page.packCells before left i top p := by
  induction left generalizing p i top with
  | zero => rfl
  | succ left ih =>
    unfold packCells Page.packCells
    rw [Action.get_bind, Action.get_bind]
    refine bind_congr_ok rfl fun start q pointed => ?_
    obtain ⟨-, rfl⟩ := Action.lift_ok.mp pointed
    rw [decode_eq fair]
    refine bind_congr_ok rfl fun info q decoded => ?_
    obtain ⟨-, rfl⟩ := Action.lift_ok.mp decoded
    split
    · rfl
    rename_i fits
    simp only [Bool.or_eq_true, decide_eq_true_eq, not_or] at fits
    rw [minus_of_le (by omega)]
    dsimp only
    rw [Action.lift_ok_bind]
    refine bind_congr_ok rfl fun cell q sliced => ?_
    obtain ⟨-, rfl⟩ := Action.lift_ok.mp sliced
    refine bind_congr_ok rfl fun _ q put => ?_
    obtain ⟨d, -, rfl⟩ := Page.edit_ok.mp put
    refine bind_congr_ok rfl fun _ q point => ?_
    unfold setPointer at point
    obtain ⟨e, -, rfl⟩ := Page.edit_ok.mp point
    refine ih ?_ _ _
    exact fair

theorem defragment_eq : defragment p = Page.defragment p := by
  unfold defragment Page.defragment
  rw [Action.get_bind, Action.get_bind, window_eq bounded, Action.lift_ok_bind]
  refine bind_congr_ok (packCells_eq bounded.fair _ _ _ _) fun top q packed => ?_
  split
  · rfl
  rename_i low
  rw [minus_of_le (Nat.le_of_not_lt low)]
  rfl

theorem defragmentAndCarve_eq (size : Nat) : defragmentAndCarve size p = Page.defragmentAndCarve size p :=
  bind_congr_ok (defragment_eq bounded) fun _ _ _ => rfl

theorem allocate_eq {size : Nat} (enough : max size minCellSize + pointerSize ≤ p.freeBytes) :
    allocate size p = Page.allocate size p := by
  unfold allocate Page.allocate
  rw [Action.get_bind, Action.get_bind]
  split
  · refine bind_congr_ok (takeBlock_eq bounded _) fun found q taken => ?_
    rcases (Page.takeBlock_keeps bounded (by omega)).ok taken with ⟨rfl, rfl⟩ | ⟨start, rfl, -⟩
    · dsimp only
      split
      · rfl
      · exact defragmentAndCarve_eq bounded _
    · rfl
  · exact defragmentAndCarve_eq bounded _

theorem joinRight_eq {blocks : List Run} {stop next : Nat} (found : p.freeBlocks = .ok blocks)
    (isNext : next = 0 ∨ ∃ length, (next, length) ∈ blocks) (clear : ¬ (next ≠ 0 ∧ next < stop)) :
    joinRight p stop next = (do
      let fragments ← p.joinRight stop next
      return (fragments, p.joinedStop stop next, p.joinedNext stop next)) := by
  have inPage := bounded.usable_le
  unfold joinRight Page.joinRight Page.joinedStop Page.joinedNext
  by_cases zero : next = 0
  · subst zero
    rw [if_pos rfl, if_neg (fun close => close.1 rfl), if_neg (fun close => close.1 rfl),
      if_neg (fun close => close.1 rfl)]
    rfl
  · obtain ⟨length, member⟩ := isNext.resolve_left zero
    have place := (bounded.blocks found).2.1 _ member
    unfold minCellSize at place
    dsimp only at place
    rw [if_neg zero, minus_of_le (by omega), u16_of_le (by omega), u16_of_le (by omega), Except.ok_bind]
    by_cases far : next - stop > 3
    · have apart : ¬ (next ≠ 0 ∧ next - stop ≤ 3) := fun close => absurd close.2 (Nat.not_le.mpr far)
      rw [if_pos far, if_neg apart, if_neg apart, if_neg apart]
      rfl
    · have close : next ≠ 0 ∧ next - stop ≤ 3 := ⟨zero, Nat.le_of_not_lt far⟩
      rw [if_neg far, if_pos close, if_pos close, if_pos close]
      rfl

omit bounded in
theorem joinLeft_eq {start fragments : Nat} {before : Option Run}
    (behind : ∀ block, before = some block → block.1 + block.2 ≤ start) :
    joinLeft p start fragments before = (do
      let fragments ← p.joinLeft start before fragments
      return (fragments, (joinable start before).map Prod.fst)) := by
  unfold joinLeft Page.joinLeft joinable
  cases before with
  | none => rfl
  | some block =>
    dsimp only
    rw [minus_of_le (behind block rfl), Except.ok_bind]
    by_cases far : start - (block.1 + block.2) > 3
    · rw [if_pos far, if_neg (Nat.not_le.mpr far)]
      rfl
    · rw [if_neg far, if_pos (Nat.le_of_not_lt far)]
      rfl

omit bounded in
theorem checkApart_eq {start stop next : Nat} {before : Option Run} (clear : ¬ (next ≠ 0 ∧ next < stop))
    (behind : ∀ block, before = some block → block.1 + block.2 ≤ start) :
    checkApart p start stop next before = .ok () := by
  unfold checkApart
  rw [if_neg clear]
  cases before with
  | none => rfl
  | some block => exact if_neg (Nat.not_lt.mpr (behind block rfl))

omit bounded in
theorem checkApart_meets {start stop next : Nat} {before : Option Run}
    (meets : (next ≠ 0 ∧ next < stop) ∨ ∃ block, before = some block ∧ start < block.1 + block.2) :
    checkApart p start stop next before = .error (.freeOverlap p.number start stop) := by
  unfold checkApart
  by_cases overlap : next ≠ 0 ∧ next < stop
  · rw [if_pos overlap]
    rfl
  · obtain ⟨block, rfl, late⟩ := meets.resolve_left overlap
    rw [if_neg overlap]
    dsimp only
    rw [if_pos late]
    rfl

theorem freeBlock_eq {start size : Nat} (upper : start + size ≤ p.usable) :
    freeBlock start size p = Page.freeBlock start size p := by
  cases found : p.freeBlocks with
  | error e =>
    unfold freeBlock Page.freeBlock
    rw [Action.get_bind, Action.get_bind, freeBlocks_eq bounded, found]
    rfl
  | ok blocks =>
    cases around : Page.neighbours start blocks none with
    | mk before next =>
      obtain ⟨isBlock, isNext⟩ := Page.neighbours_mem around
      unfold freeBlock
      rw [Action.get_bind, freeBlocks_eq bounded, found, Action.lift_ok_bind, around]
      dsimp only
      by_cases meets : (next ≠ 0 ∧ next < start + size) ∨ ∃ block, before = some block ∧ start < block.1 + block.2
      · rw [Page.freeBlock_overlaps found around meets, checkApart_meets meets]
        rfl
      · obtain ⟨clear, late⟩ := not_or.mp meets
        have behind : ∀ block, before = some block → block.1 + block.2 ≤ start := fun block same =>
          Nat.le_of_not_lt fun past => late ⟨block, same, past⟩
        have grows := (bounded.joinedStop found isNext clear upper).1
        have starts := Page.joinable_le behind
        rw [Page.freeBlock_apart found around clear behind, checkApart_eq clear behind, Action.lift_ok_bind,
          joinRight_eq bounded found isNext clear]
        cases p.joinRight (start + size) next with
        | error e => rfl
        | ok between =>
          refine (Action.lift_ok_bind ..).trans (.trans ?_ (Action.lift_ok_bind ..).symm)
          dsimp only
          rw [joinLeft_eq behind]
          cases p.joinLeft start before between with
          | error e => rfl
          | ok left =>
            refine (Action.lift_ok_bind ..).trans (.trans ?_ (Action.lift_ok_bind ..).symm)
            dsimp only
            unfold Page.enlist
            rw [minus_of_le (by omega), Option.isNone_map]
            rfl

theorem free_eq (start size : Nat) : free start size p = Page.free start size p := by
  unfold free Page.free
  rw [Action.get_bind, Action.get_bind]
  by_cases outside : (decide (start < p.header.contentStart) || decide (start + size > p.usable)) = true
  · rw [if_pos outside, if_pos outside]
    rfl
  · rw [if_neg outside, if_neg outside]
    simp only [Bool.or_eq_true, decide_eq_true_eq, not_or] at outside
    dsimp only
    split
    · rfl
    · exact freeBlock_eq bounded (by omega)

theorem place_eq {i : Nat} {cell : Bytes} (wide : 4 ≤ cell.size) (enough : cell.size + pointerSize ≤ p.freeBytes) :
    place i cell p = Page.place i cell p := by
  refine bind_congr_ok (allocate_eq bounded ?_) fun _ _ _ => rfl
  rw [Nat.max_eq_left (show minCellSize ≤ cell.size from wide)]
  exact enough

theorem insert_eq {i : Nat} {cell : Bytes} (wide : 4 ≤ cell.size) : insert i cell p = Page.insert i cell p := by
  unfold insert Page.insert
  rw [Action.get_bind, Action.get_bind]
  by_cases past : i > p.logicalCount
  · rw [if_pos past, if_pos past]
    rfl
  rw [if_neg past, if_neg past]
  by_cases parks : (p.hasParked || decide (cell.size + pointerSize > p.freeBytes) ||
      decide (p.cellCount + 1 > p.geometry.maxCells)) = true
  · rw [if_pos parks, if_pos parks]
  · rw [if_neg parks, if_neg parks]
    simp only [Bool.or_eq_true, decide_eq_true_eq, not_or, Nat.not_lt] at parks
    exact place_eq bounded wide parks.1.2

omit bounded in
theorem clearContent_eq (order : p.pointersStart ≤ p.usable) : clearContent p = Page.clearContent p := by
  unfold clearContent Page.clearContent
  rw [Action.get_bind, Action.get_bind, minus_of_le order]
  refine bind_congr_ok rfl fun _ q cleared => ?_
  obtain ⟨d, -, rfl⟩ := Page.edit_ok.mp cleared
  rfl

theorem drop_eq (i : Nat) : drop i p = Page.drop i p := by
  unfold drop Page.drop
  rw [Action.get_bind, Action.get_bind, cellInfo_eq bounded]
  refine bind_congr_ok rfl fun start q pointed => ?_
  obtain ⟨found, rfl⟩ := Action.lift_ok.mp pointed
  refine bind_congr_ok rfl fun info q read => ?_
  obtain ⟨-, rfl⟩ := Action.lift_ok.mp read
  have inside := Page.pointer_inside found
  have ends := p.pointersEnd_eq
  refine bind_congr_ok (free_eq bounded _ _) fun _ r freed => ?_
  have follows := (Page.free_keeps bounded).ok freed
  have gap := follows.bounded.gap
  have content := follows.bounded.content
  have order := (r.pointers_order).2
  have count : r.cellCount = p.cellCount := follows.fields.cellCount
  unfold pointerSize at ends
  refine bind_congr_ok rfl fun _ s moved => ?_
  obtain ⟨d, -, same⟩ := Page.edit_ok.mp moved
  rw [minus_of_le (show pointerSize ≤ p.pointersEnd by unfold pointerSize; omega), Action.lift_ok_bind]
  refine bind_congr_ok rfl fun _ t cleared => ?_
  obtain ⟨e, -, same'⟩ := Page.edit_ok.mp cleared
  have sameCount : t.cellCount = r.cellCount := by
    rw [same', same]
    rfl
  have sameOrder : t.pointersStart ≤ t.usable := by
    rw [same', same]
    exact Nat.le_trans order (Nat.le_trans gap content)
  rw [Action.get_bind, minus_of_le (show 1 ≤ t.cellCount by omega), Action.lift_ok_bind]
  refine bind_congr_ok rfl fun _ q counted => ?_
  cases counted
  refine bind_congr_ok rfl fun _ q gained => ?_
  cases gained
  rw [Action.get_bind, Action.get_bind]
  split
  · exact bind_congr_ok (clearContent_eq sameOrder) fun _ _ _ => rfl
  · rfl

end Guarded

end TreeFile
