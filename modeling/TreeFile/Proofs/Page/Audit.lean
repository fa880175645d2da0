import TreeFile.Integrity.Layout
import TreeFile.Proofs.Store.DiskPages

/-!
Pages that have been checked. A page that can be read and whose layout has no fault is laid out as a
page should be, whoever wrote it: its cells hold slots, and neither these nor free blocks overlap.
-/

namespace TreeFile

namespace Page

variable {p : Page} {number : PageNo} {data : Bytes} {g : Geometry} {limits : PayloadLimits}

structure Parsed (p : Page) : Prop where
  header : PageHeader.At p.data p.headerStart p.header
  few : p.cellCount ≤ p.geometry.maxCells
  gap : p.pointersEnd ≤ p.header.contentStart
  content : p.header.contentStart ≤ p.usable
  cells : ∀ i < p.cellCount, p.checkCell i = .ok ()
  free : p.countFreeBytes = .ok p.freeBytes
  clear : p.parked = []

theorem checkCell_unread (p : Page) (n : Nat) (i : Nat) :
    Page.checkCell { p with freeBytes := n } i = p.checkCell i := rfl

theorem freeBlocksFrom_unread (p : Page) (n left lastEnd start : Nat) :
    freeBlocksFrom { p with freeBytes := n } left lastEnd start = p.freeBlocksFrom left lastEnd start := by
  induction left generalizing lastEnd start with
  | zero => rfl
  | succ left ih =>
    unfold freeBlocksFrom
    simp only [ih]
    rfl

theorem countFreeBytes_unread (p : Page) (n : Nat) :
    countFreeBytes { p with freeBytes := n } = p.countFreeBytes := by
  unfold countFreeBytes freeBlocks
  rw [freeBlocksFrom_unread]
  rfl

theorem parse_ok (run : parse number data g limits = .ok p) :
    p.number = number ∧ p.data = data ∧ p.geometry = g ∧ p.limits = limits ∧ p.Parsed := by
  unfold parse at run
  dsimp only at run
  split at run
  · exact absurd run Except.throw_bind_ok
  cases parsed : PageHeader.parse data g.headerStart with
  | error e =>
    rw [parsed] at run
    exact absurd run Except.throw_bind_ok
  | ok header =>
    rw [parsed] at run
    dsimp only at run
    rw [Except.pure_bind_run] at run
    split at run
    · exact absurd run Except.throw_bind_ok
    rename_i few
    split at run
    · exact absurd run Except.throw_bind_ok
    split at run
    · exact absurd run Except.throw_bind_ok
    rename_i area
    simp only [Bool.or_eq_true, decide_eq_true_eq, not_or, Nat.not_lt] at area
    obtain ⟨_, cells, run⟩ := Except.bind_ok.mp run
    obtain ⟨free, counted, run⟩ := Except.bind_ok.mp run
    cases run
    refine ⟨rfl, rfl, rfl, rfl, PageHeader.at_of_parse parsed, Nat.le_of_not_lt few, area.1, area.2, ?_, ?_, rfl⟩
    · intro i inside
      have checked := Except.forM_ok cells i (List.mem_range.mpr inside)
      rwa [← checkCell_unread _ free] at checked
    · rwa [← countFreeBytes_unread _ free] at counted

theorem freeBlocksFrom_step (usable : p.usable ≤ p.data.size) {left lastEnd start : Nat} {blocks : List Run}
    (some : start ≠ 0) (run : p.freeBlocksFrom left lastEnd start = .ok blocks) :
    ∃ size fewer rest, p.data.at16 (start + 2) = size ∧ lastEnd ≤ start ∧ start + size ≤ p.usable ∧ 4 ≤ size ∧
      blocks = (start, size) :: rest ∧ left = fewer + 1 ∧
      p.freeBlocksFrom fewer (start + size) (p.data.at16 start) = .ok rest := by
  unfold freeBlocksFrom at run
  rw [if_neg some] at run
  dsimp only at run
  by_cases apart : (decide (start < lastEnd) || decide (start + 4 > p.usable)) = true
  · rw [if_pos apart] at run
    exact absurd run Except.throw_bind_ok
  rw [if_neg apart] at run
  simp only [Bool.or_eq_true, decide_eq_true_eq, not_or] at apart
  rw [Bytes.u16?_of_le (by omega), Bytes.u16?_of_le (by omega), Option.getD_some, Option.getD_some] at run
  obtain ⟨size, isSize⟩ : ∃ size, size = p.data.at16 (start + 2) := ⟨_, rfl⟩
  rw [← isSize] at run
  by_cases wide : (decide (size < 4) || decide (start + size > p.usable)) = true
  · rw [if_pos wide] at run
    cases left <;> exact absurd run Except.throw_bind_ok
  rw [if_neg wide] at run
  simp only [Bool.or_eq_true, decide_eq_true_eq, not_or] at wide
  cases left with
  | zero => exact absurd run Except.throw_ok
  | succ left =>
    obtain ⟨rest, later, run⟩ := Except.bind_ok.mp run
    obtain rfl := Except.pure_ok.mp run
    exact ⟨size, left, rest, isSize.symm, by omega, by omega, by omega, rfl, rfl, later⟩

theorem freeBlocksFrom_ok (usable : p.usable ≤ p.data.size) {left lastEnd start : Nat} {blocks : List Run}
    (run : p.freeBlocksFrom left lastEnd start = .ok blocks) :
    FreeChain p.data start blocks 0 ∧
      (∀ block ∈ blocks,
        lastEnd ≤ block.1 ∧ block.1 + block.2 ≤ p.usable ∧ minCellSize ≤ block.2) ∧
      blocks.Pairwise fun a b => a.1 + a.2 ≤ b.1 := by
  induction blocks generalizing left lastEnd start with
  | nil =>
    by_cases done : start = 0
    · exact ⟨done, fun _ member => (nomatch member), .nil⟩
    · obtain ⟨_, _, _, -, -, -, -, same, -⟩ := freeBlocksFrom_step usable done run
      cases same
  | cons block others ih =>
    have some : start ≠ 0 := by
      rintro rfl
      unfold freeBlocksFrom at run
      rw [if_pos rfl] at run
      cases run
    obtain ⟨size, _, _, isSize, low, high, wide, same, -, later⟩ := freeBlocksFrom_step usable some run
    cases same
    obtain ⟨chain, inside, ascending⟩ := ih later
    refine ⟨⟨rfl, isSize, chain⟩, ?_, List.pairwise_cons.mpr ⟨fun other member => (inside other member).1, ascending⟩⟩
    intro other member
    rcases List.mem_cons.mp member with rfl | member
    · exact ⟨low, high, wide⟩
    · obtain ⟨behind, inArea, large⟩ := inside other member
      exact ⟨by omega, inArea, large⟩

end Page

namespace Integrity

def runOf (piece : Piece) : Run := (piece.1, piece.2.1)

theorem lastEnd_ok {stop last : Nat} {pieces : List Piece} (run : lastEnd stop pieces = .ok last) :
    (∀ piece ∈ pieces, stop ≤ piece.1) ∧ pieces.Pairwise fun a b => a.1 + a.2.1 ≤ b.1 := by
  induction pieces generalizing stop with
  | nil => exact ⟨fun _ member => (nomatch member), .nil⟩
  | cons piece rest ih =>
    unfold lastEnd at run
    split at run
    · cases run
    rename_i low
    obtain ⟨behind, ordered⟩ := ih run
    refine ⟨fun other member => ?_, List.pairwise_cons.mpr ⟨behind, ordered⟩⟩
    rcases List.mem_cons.mp member with rfl | member
    · exact Nat.le_of_not_lt low
    · have later := behind other member
      omega

theorem cellPieces_ok {p : Page} {starts : List Nat} {left i : Nat} {pieces : List Piece}
    (run : cellPieces p left i starts = .ok pieces) (enough : left = starts.length) :
    pieces.length = left ∧ ∀ k (h : k < left), ∃ info, p.cellInfo (i + k) = .ok info ∧
      pieces[k]? = some (starts[k], info.size, "cell") := by
  induction starts generalizing left i pieces with
  | nil =>
    subst enough
    cases run
    exact ⟨rfl, fun k h => absurd h (Nat.not_lt_zero k)⟩
  | cons start rest ih =>
    subst enough
    rw [List.length_cons] at run
    unfold cellPieces at run
    split at run
    · rename_i info found
      cases later : cellPieces p rest.length (i + 1) rest with
      | error e =>
        rw [later] at run
        cases run
      | ok others =>
        rw [later] at run
        cases run
        obtain ⟨length, reads⟩ := ih later rfl
        refine ⟨by rw [List.length_cons, List.length_cons, length], fun k h => ?_⟩
        cases k with
        | zero => exact ⟨info, found, rfl⟩
        | succ k =>
          obtain ⟨info, found, same⟩ := reads k (Nat.lt_of_succ_lt_succ h)
          exact ⟨info, by rw [← found]; congr 1; omega, same⟩
    · cases run

theorem layoutFault_ok {p : Page} (run : layoutFault p = .ok ()) :
    ∃ starts cells blocks stop, p.pointers = .ok starts ∧ cellPieces p starts.length 0 starts = .ok cells ∧
      p.freeBlocks = .ok blocks ∧
      lastEnd p.header.contentStart
        ((cells ++ blocks.map fun b => (b.1, b.2, "freeblock")).mergeSort pieceOrder) = .ok stop ∧
      total (cells.map fun c => c.2.1) + p.freeBytes + p.cellCount * pointerSize = p.capacity := by
  unfold layoutFault at run
  dsimp only at run
  cases pointers : p.pointers with
  | error e =>
    rw [pointers] at run
    cases run
  | ok starts =>
    rw [pointers] at run
    simp only [bind, Except.bind, pure, Except.pure, throw, throwThe, MonadExceptOf.throw] at run
    cases cells : cellPieces p starts.length 0 starts with
    | error i =>
      rw [cells] at run
      cases run
    | ok pieces =>
      rw [cells] at run
      cases free : p.freeBlocks with
      | error e =>
        rw [free] at run
        cases run
      | ok blocks =>
        rw [free] at run
        dsimp only at run
        cases apart : lastEnd p.header.contentStart
            ((pieces ++ blocks.map fun b => (b.1, b.2, "freeblock")).mergeSort pieceOrder) with
        | error piece =>
          rw [apart] at run
          cases run
        | ok stop =>
          rw [apart] at run
          dsimp only at run
          split at run
          · cases run
          split at run
          · cases run
          rename_i accounted
          exact ⟨starts, pieces, blocks, stop, rfl, cells, rfl, apart, Decidable.not_not.mp accounted⟩

end Integrity

namespace Page

variable {p : Page}

def cellStart (p : Page) (i : Nat) : Nat := p.data.at16 (p.pointersStart + i * pointerSize)

section Reading

variable (parsed : p.Parsed) (usable : p.usable ≤ p.data.size)

include parsed usable

theorem Parsed.cell {i : Nat} (inside : i < p.cellCount) :
    ∃ info, p.pointer i = .ok (p.cellStart i) ∧ p.cellInfo i = .ok info ∧
      p.header.contentStart ≤ p.cellStart i ∧ p.cellStart i + info.size ≤ p.usable := by
  have gap := parsed.gap
  have content := parsed.content
  have fits : p.pointersStart + i * pointerSize + 2 ≤ p.data.size := by
    have ends := p.pointersEnd_eq
    unfold pointerSize at ends ⊢
    omega
  have stored : p.storedPointer i = .ok (p.cellStart i) := by
    unfold storedPointer
    rw [Bytes.u16?_of_le fits]
    rfl
  have checked := parsed.cells i inside
  unfold checkCell at checked
  rw [stored, Except.ok_bind] at checked
  split at checked
  · exact absurd checked Except.throw_bind_ok
  rename_i outside
  simp only [Bool.or_eq_true, decide_eq_true_eq, not_or] at outside
  obtain ⟨info, read, checked⟩ := Except.bind_ok.mp checked
  split at checked
  · exact absurd checked Except.throw_ok
  rename_i short
  have found := read
  unfold cellInfo at found
  obtain ⟨start, pointer, -⟩ := Except.bind_ok.mp found
  have same : start = p.cellStart i := by
    unfold Page.pointer at pointer
    rw [if_neg (Nat.not_le.mpr inside), stored] at pointer
    dsimp only at pointer
    rw [Except.ok_bind] at pointer
    split at pointer
    · exact absurd pointer Except.throw_bind_ok
    · exact (Except.pure_ok.mp pointer).symm
  subst same
  exact ⟨info, pointer, read, Nat.le_of_not_lt outside.1, Nat.le_of_not_lt short⟩

theorem Parsed.pointers : p.pointers = .ok ((List.range p.cellCount).map p.cellStart) := by
  have runs := Except.mapM_range (f := p.pointer) ((List.range p.cellCount).map p.cellStart) fun i inside => by
    rw [List.length_map, List.length_range] at inside
    obtain ⟨info, pointer, -⟩ := parsed.cell usable inside
    rw [pointer, List.getElem_map, List.getElem_range]
  rw [List.length_map, List.length_range] at runs
  exact runs

theorem Parsed.pieces {cells : List Integrity.Piece}
    (read : Integrity.cellPieces p p.cellCount 0 ((List.range p.cellCount).map p.cellStart) = .ok cells) :
    cells.length = p.cellCount ∧ ∀ i (inside : i < cells.length), cells[i].1 = p.cellStart i ∧
      p.header.contentStart ≤ cells[i].1 ∧ cells[i].1 + cells[i].2.1 ≤ p.usable ∧
        ∃ info, p.cellInfo i = .ok info ∧ info.size = cells[i].2.1 := by
  obtain ⟨length, reads⟩ := Integrity.cellPieces_ok read (by rw [List.length_map, List.length_range])
  refine ⟨length, fun i inside => ?_⟩
  obtain ⟨info, found, same⟩ := reads i (length ▸ inside)
  obtain ⟨info', -, found', low, high⟩ := parsed.cell usable (length ▸ inside)
  rw [Nat.zero_add] at found
  cases found.symm.trans found'
  rw [List.getElem?_eq_getElem inside, List.getElem_map, List.getElem_range] at same
  rw [Option.some.inj same]
  exact ⟨rfl, low, high, info, found, rfl⟩

variable {cells : List Integrity.Piece}
  (read : Integrity.cellPieces p p.cellCount 0 ((List.range p.cellCount).map p.cellStart) = .ok cells)

def cut (p : Page) (cells : List Integrity.Piece) : List (Nat × Bytes) :=
  cells.map fun c => (c.1, p.data.extract c.1 (c.1 + c.2.1))

include read

theorem Parsed.size_cut {c : Integrity.Piece} (member : c ∈ cells) :
    (p.data.extract c.1 (c.1 + c.2.1)).size = c.2.1 := by
  obtain ⟨i, inside, rfl⟩ := List.mem_iff_getElem.mp member
  obtain ⟨-, -, high, -⟩ := (parsed.pieces usable read).2 i inside
  rw [Bytes.size_extract_of_le (Nat.le_trans high usable), Nat.add_sub_cancel_left]

theorem Parsed.runs_cut : (p.cut cells).map runOf = cells.map Integrity.runOf := by
  unfold cut
  rw [List.map_map]
  exact List.map_congr_left fun c member => congrArg (Prod.mk c.1) (parsed.size_cut usable read member)

theorem Parsed.rows_cut : Rows p (p.cut cells) := by
  obtain ⟨length, lies⟩ := parsed.pieces usable read
  have sameLength : (p.cut cells).length = p.cellCount := by
    unfold cut
    rw [List.length_map, length]
  have each : ∀ cell ∈ p.cut cells, p.data.HasAt cell.1 cell.2 ∧
      ∃ own, Cell.Says p.limits p.kind cell.2 own := by
    intro cell member
    obtain ⟨c, memberC, rfl⟩ := List.mem_map.mp member
    have size := parsed.size_cut usable read memberC
    obtain ⟨i, inside, rfl⟩ := List.mem_iff_getElem.mp memberC
    obtain ⟨start, low, high, info, found, infoSize⟩ := lies i inside
    have has := Bytes.hasAt_extract (Nat.le_add_right cells[i].1 cells[i].2.1) (Nat.le_trans high usable)
    refine ⟨has, ?_⟩
    obtain ⟨-, pointer, -⟩ := parsed.cell usable (length ▸ inside)
    unfold cellInfo at found
    rw [pointer, Except.ok_bind, ← start] at found
    refine Cell.Says.of_lies ⟨has, ?_⟩ (infoSize.trans size.symm) found
    rw [size]
    exact high
  refine ⟨sameLength.symm, sameLength ▸ parsed.few, fun i inside => ?_, fun cell member => (each cell member).1,
    fun cell member => (each cell member).2⟩
  have inCells : i < cells.length := by omega
  have start : (p.cut cells)[i].1 = cells[i].1 := congrArg Prod.fst (List.getElem_map _)
  exact (start.trans (lies i inCells).1).symm

end Reading

theorem apart_of_lastEnd {stop last : Nat} {pieces : List Integrity.Piece}
    (run : Integrity.lastEnd stop (pieces.mergeSort Integrity.pieceOrder) = .ok last) :
    (pieces.map Integrity.runOf).Pairwise Run.Apart := by
  have ordered := (Integrity.lastEnd_ok run).2
  have apart : (pieces.mergeSort Integrity.pieceOrder).Pairwise fun a b =>
      Run.Apart (Integrity.runOf a) (Integrity.runOf b) := ordered.imp fun before => .inl before
  refine List.pairwise_map.mpr (((List.mergeSort_perm pieces _).pairwise_iff ?_).mp apart)
  exact fun first => first.symm

theorem tidy_of_layout (sound : p.geometry.Sound) (size : p.data.size = p.geometry.pageSize)
    (parsed : p.Parsed) (run : Integrity.layoutFault p = .ok ()) :
    ∃ placed blocks, Tidy p placed [] blocks := by
  obtain ⟨starts, cells, blocks, stop, pointers, read, free, apart, accounted⟩ := Integrity.layoutFault_ok run
  have usable : p.usable ≤ p.data.size := size ▸ sound.usable
  cases pointers.symm.trans (parsed.pointers usable)
  rw [List.length_map, List.length_range] at read
  obtain ⟨-, lies⟩ := parsed.pieces usable read
  have rows := parsed.rows_cut usable read
  have runs := parsed.runs_cut usable read
  obtain ⟨chain, insideBlocks, ascending⟩ := freeBlocksFrom_ok usable free
  have counted : p.freeBytes = p.header.contentStart - p.pointersEnd + room blocks + p.header.fragments := by
    have counted := parsed.free
    unfold countFreeBytes at counted
    rw [free, Except.ok_bind] at counted
    dsimp only at counted
    split at counted
    · exact absurd counted Except.throw_bind_ok
    · exact (Except.pure_ok.mp counted).symm
  have total : total (cells.map fun c => c.2.1) = room ((p.cut cells).map runOf) := by
    rw [runs]
    unfold room
    rw [List.map_map]
    rfl
  refine ⟨p.cut cells, blocks, ⟨sound, size, parsed.header, parsed.gap, parsed.content, chain, ?_, ?_, ascending,
    ?_, counted⟩, rows⟩
  · intro run member
    rw [List.append_nil] at member
    rcases List.mem_append.mp member with cell | block
    · obtain ⟨placed, inCut, rfl⟩ := List.mem_map.mp cell
      obtain ⟨own, reads⟩ := rows.valid placed inCut
      have wide := Cell.Holds.size_ge ⟨own, reads, rfl⟩
      have inside := List.mem_map_of_mem (f := runOf) inCut
      rw [runs] at inside
      obtain ⟨c, memberC, same⟩ := List.mem_map.mp inside
      obtain ⟨i, inCells, rfl⟩ := List.mem_iff_getElem.mp memberC
      obtain ⟨-, low, high, -⟩ := lies i inCells
      rw [← same]
      exact ⟨low, high, by rw [same]; exact wide⟩
    · exact insideBlocks run block
  · rw [List.append_nil, runs]
    have all := apart_of_lastEnd apart
    rw [List.map_append, List.map_map] at all
    have same : blocks.map (Integrity.runOf ∘ fun b => (b.1, b.2, "freeblock")) = blocks := List.map_id blocks
    rw [same] at all
    exact all
  · have ends := p.pointersEnd_eq
    have gap := parsed.gap
    have content := parsed.content
    have capacity : p.capacity = p.usable - p.pointersStart := rfl
    rw [List.append_nil]
    omega

theorem bears_of_tidy {placed : List (Nat × Bytes)} {blocks : List Run} (tidy : Tidy p placed [] blocks)
    (clear : p.parked = []) : ∃ slots, p.Bears slots p.header.rightChild := by
  have valid : ∀ cell ∈ placed.map Prod.snd, ∃ own, Cell.Says p.limits p.kind cell own := by
    intro cell member
    obtain ⟨placed, inside, rfl⟩ := List.mem_map.mp member
    exact tidy.rows.valid placed inside
  obtain ⟨slots, held⟩ := Held.of_says valid
  exact ⟨slots, bears_of_placed tidy clear held rfl⟩

end Page

namespace Store

theorem loadPage_parse {s t : Store} {d : Disk} {number : Nat} {p : Page} (shows_ : Shows s d)
    (run : loadPage number s = .ok p t) :
    t.Shows d ∧ d.Has number ∧ Page.parse number (d.image number) (d.geometry number) d.limits = .ok p := by
  unfold loadPage at run
  obtain ⟨data, u, read, run⟩ := Action.bind_ok.mp run
  obtain ⟨has, rfl, showsU, -⟩ := readPage_ok shows_ read
  rw [Action.get_bind, showsU.geometry, showsU.limits] at run
  obtain ⟨parse, rfl⟩ := Action.lift_ok.mp run
  exact ⟨showsU, has, parse⟩

theorem loadPage_number {s t : Store} {number : Nat} {p : Page} (run : loadPage number s = .ok p t) :
    p.number = number := by
  unfold loadPage at run
  obtain ⟨data, u, -, run⟩ := Action.bind_ok.mp run
  rw [Action.get_bind] at run
  exact (Page.parse_ok (Action.lift_ok.mp run).1).1

end Store

namespace Page

variable {p : Page} {d : Disk} {number : Nat}
  (run : parse number (d.image number) (d.geometry number) d.limits = .ok p)

include run

theorem of_of_parse : p.Of d number p.kind := by
  obtain ⟨isNumber, -, geometry, limits, -⟩ := parse_ok run
  exact ⟨isNumber, geometry, limits, rfl⟩

theorem clear_of_parse : p.parked = [] := (parse_ok run).2.2.2.2.clear

theorem bears_of_layout (sound : d.Sound) (checked : Integrity.layoutFault p = .ok ()) :
    ∃ slots, p.Bears slots p.header.rightChild := by
  obtain ⟨-, data, geometry, -, parsed⟩ := parse_ok run
  have size : p.data.size = p.geometry.pageSize := by
    rw [data, geometry]
    exact sound.sizes number
  obtain ⟨placed, blocks, tidy⟩ := tidy_of_layout (geometry ▸ sound.geometry number) size parsed checked
  exact bears_of_tidy tidy parsed.clear

theorem pageAt_of_bears {slots : List Slot} (has : d.Has number) (bears : p.Bears slots p.header.rightChild) :
    d.PageAt number p.kind slots p.header.rightChild :=
  ⟨has, p, of_of_parse run, (parse_ok run).2.1, clear_of_parse run, bears⟩

end Page

end TreeFile
