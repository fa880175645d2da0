import TreeFile.Page.Basic
import TreeFile.Proofs.Cell.Forms
import TreeFile.Proofs.Page.Header

/-!
The layout of a tree page. Cells and free blocks take runs of the content area that do not meet,
and with the stray bytes they add up to all of it. A page laid out in this way can be read.
-/

namespace TreeFile

abbrev Run := Nat × Nat

def Run.Apart (a b : Run) : Prop := a.1 + a.2 ≤ b.1 ∨ b.1 + b.2 ≤ a.1

theorem Run.Apart.symm {a b : Run} (apart : Run.Apart a b) : Run.Apart b a := apart.elim .inr .inl

theorem Run.Apart.of_inside {a b c : Run} (apart : Run.Apart a b) (lower : a.1 ≤ c.1)
    (upper : c.1 + c.2 ≤ a.1 + a.2) : Run.Apart c b := by
  unfold Run.Apart at apart ⊢
  omega

theorem perm_middle_right {α : Type} (a b c : List α) (x : α) :
    (a ++ (b ++ x :: c)).Perm (x :: (a ++ (b ++ c))) := by
  rw [← List.append_assoc, ← List.append_assoc]
  exact List.perm_middle

theorem mem_middle_right {α : Type} {a b c : List α} {x y : α} :
    y ∈ a ++ (b ++ x :: c) ↔ y = x ∨ y ∈ a ++ (b ++ c) :=
  (perm_middle_right a b c x).mem_iff.trans List.mem_cons

theorem ascending_insert {front back : List Run} {start stop : Nat}
    (order : (front ++ back).Pairwise fun a b => a.1 + a.2 ≤ b.1) (before : ∀ a ∈ front, a.1 + a.2 ≤ start)
    (after : ∀ b ∈ back, stop ≤ b.1) (wide : start ≤ stop) :
    (front ++ (start, stop - start) :: back).Pairwise fun a b => a.1 + a.2 ≤ b.1 := by
  obtain ⟨inFront, inBack, across⟩ := List.pairwise_append.mp order
  refine List.pairwise_append.mpr ⟨inFront, List.pairwise_cons.mpr ⟨fun b member => ?_, inBack⟩, fun a inA b member => ?_⟩
  · have later := after b member
    dsimp only
    omega
  · rcases List.mem_cons.mp member with rfl | inB
    · exact before a inA
    · exact across a inA b inB

theorem ascending_middle {b c : List Run} {start size less : Nat} (shorter : less ≤ size)
    (order : (b ++ (start, size) :: c).Pairwise fun a b => a.1 + a.2 ≤ b.1) :
    (b ++ (start, less) :: c).Pairwise fun a b => a.1 + a.2 ≤ b.1 := by
  obtain ⟨front, back, across⟩ := List.pairwise_append.mp order
  obtain ⟨after, rest⟩ := List.pairwise_cons.mp back
  refine List.pairwise_append.mpr ⟨front, List.pairwise_cons.mpr ⟨?_, rest⟩, ?_⟩
  · intro other member
    have later := after other member
    dsimp only at later ⊢
    omega
  · intro one inFront other member
    rcases List.mem_cons.mp member with rfl | inBack
    · exact across one inFront (start, size) List.mem_cons_self
    · exact across one inFront other (List.mem_cons_of_mem _ inBack)

theorem pairwise_apart_middle {a b c : List Run} {x : Run} :
    (a ++ (b ++ x :: c)).Pairwise Run.Apart ↔
      (∀ other ∈ a ++ (b ++ c), Run.Apart x other) ∧ (a ++ (b ++ c)).Pairwise Run.Apart := by
  rw [(perm_middle_right a b c x).pairwise_iff Run.Apart.symm, List.pairwise_cons]

theorem apart_of_ne {runs : List Run} (apart : runs.Pairwise Run.Apart) {a b : Run} (ha : a ∈ runs)
    (hb : b ∈ runs) (ne : a ≠ b) : Run.Apart a b := by
  induction runs with
  | nil => nomatch ha
  | cons run rest ih =>
    obtain ⟨first, others⟩ := List.pairwise_cons.mp apart
    rcases List.mem_cons.mp ha with rfl | aRest
    · rcases List.mem_cons.mp hb with rfl | bRest
      · exact absurd rfl ne
      · exact first b bRest
    · rcases List.mem_cons.mp hb with rfl | bRest
      · exact (first a aRest).symm
      · exact ih others aRest bRest

def room (runs : List Run) : Nat := total (runs.map Prod.snd)

@[simp] theorem room_nil : room [] = 0 := rfl

@[simp] theorem room_cons (run : Run) (rest : List Run) : room (run :: rest) = run.2 + room rest :=
  rfl

@[simp] theorem room_append (a b : List Run) : room (a ++ b) = room a + room b := by
  unfold room
  rw [List.map_append, total_append]

theorem total_perm {a b : List Nat} (same : a.Perm b) : total a = total b := by
  induction same with
  | nil => rfl
  | cons size _ ih => rw [total_cons, total_cons, ih]
  | swap first second rest =>
    simp only [total_cons]
    omega
  | trans _ _ first second => exact first.trans second

theorem room_perm {a b : List Run} (same : a.Perm b) : room a = room b := total_perm (same.map _)

structure Geometry.Sound (g : Geometry) : Prop where
  usable : g.usableSize ≤ g.pageSize
  large : g.pageSize ≤ 65536
  small : 480 ≤ g.usableSize
  header : g.headerStart ≤ 100

/-- The free blocks from the one at `start` on, as they are linked in `d`. The last one names
`stop` as the next. -/
def FreeChain (d : Bytes) : (start : Nat) → List Run → (stop : Nat) → Prop
  | start, [], stop => start = stop
  | start, block :: rest, stop =>
    start = block.1 ∧ d.at16 (block.1 + 2) = block.2 ∧ FreeChain d (d.at16 block.1) rest stop

namespace Page

variable {p : Page}

def runOf (cell : Nat × Bytes) : Run := (cell.1, cell.2.size)

/-- The content area of a page is made up of the runs that are taken, of free blocks and of
fragments. -/
structure Area (p : Page) (taken blocks : List Run) : Prop where
  sound : p.geometry.Sound
  size : p.data.size = p.geometry.pageSize
  header : PageHeader.At p.data p.headerStart p.header
  gap : p.pointersEnd ≤ p.header.contentStart
  content : p.header.contentStart ≤ p.usable
  chain : FreeChain p.data p.header.firstFree blocks 0
  inside : ∀ run ∈ taken ++ blocks,
    p.header.contentStart ≤ run.1 ∧ run.1 + run.2 ≤ p.usable ∧ minCellSize ≤ run.2
  apart : (taken ++ blocks).Pairwise Run.Apart
  ascending : blocks.Pairwise fun a b => a.1 + a.2 ≤ b.1
  account : p.header.contentStart + room taken + room blocks + p.header.fragments = p.usable
  free : p.freeBytes = p.header.contentStart - p.pointersEnd + room blocks + p.header.fragments

structure Rows (p : Page) (cells : List (Nat × Bytes)) : Prop where
  count : p.cellCount = cells.length
  few : cells.length ≤ p.geometry.maxCells
  pointers : ∀ i (h : i < cells.length),
    p.data.at16 (p.pointersStart + i * pointerSize) = cells[i].1
  lies : ∀ cell ∈ cells, p.data.HasAt cell.1 cell.2
  valid : ∀ cell ∈ cells, ∃ info, Cell.Says p.limits p.kind cell.2 info

/-- A page with the given cells and free blocks, of which some runs are lent out. -/
structure Tidy (p : Page) (cells : List (Nat × Bytes)) (lent blocks : List Run) : Prop where
  area : Area p (cells.map runOf ++ lent) blocks
  rows : Rows p cells

theorem Area.perm {taken taken' blocks : List Run} (area : Area p taken blocks)
    (same : taken.Perm taken') : Area p taken' blocks where
  sound := area.sound
  size := area.size
  header := area.header
  gap := area.gap
  content := area.content
  chain := area.chain
  inside := fun run member => area.inside run ((same.append_right blocks).mem_iff.mpr member)
  apart := ((same.append_right blocks).pairwise_iff Run.Apart.symm).mp area.apart
  ascending := area.ascending
  account := by
    rw [← room_perm same]
    exact area.account
  free := area.free

theorem pointersStart_eq (p : Page) : p.pointersStart = p.headerStart + p.kind.headerSize := rfl

theorem pointersEnd_eq (p : Page) : p.pointersEnd = p.pointersStart + p.cellCount * pointerSize :=
  rfl

theorem Area.usable_le {taken blocks : List Run} (area : Area p taken blocks) :
    p.usable ≤ p.data.size := by
  rw [area.size]
  exact area.sound.usable

theorem Area.usable_bounds {taken blocks : List Run} (area : Area p taken blocks) :
    480 ≤ p.usable ∧ p.usable ≤ 65536 :=
  ⟨area.sound.small, Nat.le_trans area.sound.usable area.sound.large⟩

theorem Tidy.run_inside {cells : List (Nat × Bytes)} {lent blocks : List Run}
    (tidy : Tidy p cells lent blocks) {cell : Nat × Bytes} (member : cell ∈ cells) :
    p.header.contentStart ≤ cell.1 ∧ cell.1 + cell.2.size ≤ p.usable ∧ 4 ≤ cell.2.size :=
  tidy.area.inside (runOf cell) (List.mem_append_left _ (List.mem_append_left _
    (List.mem_map_of_mem member)))

section Cells

variable {cells : List (Nat × Bytes)} {lent blocks : List Run} {i : Nat}

theorem Tidy.slot_fits (tidy : Tidy p cells lent blocks) (h : i < cells.length) :
    p.pointersStart + i * pointerSize + 2 ≤ p.pointersEnd ∧ p.pointersEnd ≤ p.data.size := by
  have gap := tidy.area.gap
  have content := tidy.area.content
  have usable := tidy.area.usable_le
  have count := tidy.rows.count
  have ends := p.pointersEnd_eq
  unfold pointerSize at ends ⊢
  omega

theorem Tidy.storedPointer (tidy : Tidy p cells lent blocks) (h : i < cells.length) :
    p.storedPointer i = .ok cells[i].1 := by
  have fits := tidy.slot_fits h
  unfold Page.storedPointer
  rw [Bytes.u16?_of_le (by omega), tidy.rows.pointers i h]

theorem Tidy.pointer (tidy : Tidy p cells lent blocks) (h : i < cells.length) :
    p.pointer i = .ok cells[i].1 := by
  have inside := tidy.run_inside (List.getElem_mem h)
  have gap := tidy.area.gap
  have count := tidy.rows.count
  unfold Page.pointer
  rw [if_neg (by omega), tidy.storedPointer h]
  simp only [Except.ok_bind]
  rw [if_neg]
  · rfl
  · simp only [Bool.or_eq_true, decide_eq_true_eq]
    unfold minCellSize
    omega

theorem Tidy.lies (tidy : Tidy p cells lent blocks) {cell : Nat × Bytes} (member : cell ∈ cells) :
    p.window.Lies cell.1 cell.2 :=
  ⟨tidy.rows.lies cell member, (tidy.run_inside member).2.1⟩

theorem Tidy.cellInfo (tidy : Tidy p cells lent blocks) (h : i < cells.length) {info : CellInfo}
    (reads : Cell.Says p.limits p.kind cells[i].2 info) :
    p.cellInfo i = .ok { info with payloadStart := cells[i].1 + info.payloadStart } := by
  unfold Page.cellInfo
  rw [tidy.pointer h, Except.ok_bind]
  exact reads.decode_lies (tidy.lies (List.getElem_mem h))

theorem Tidy.cellBytes (tidy : Tidy p cells lent blocks) (h : i < cells.length) :
    p.cellBytes i = .ok cells[i].2 := by
  obtain ⟨info, reads⟩ := tidy.rows.valid cells[i] (List.getElem_mem h)
  have lies := tidy.rows.lies cells[i] (List.getElem_mem h)
  unfold Page.cellBytes
  rw [tidy.pointer h, tidy.cellInfo h reads]
  simp only [Except.ok_bind, reads.2]
  rw [if_pos lies.1, lies.extract]
  rfl

theorem Tidy.placedCells (tidy : Tidy p cells lent blocks) :
    p.placedCells = .ok (cells.map Prod.snd) := by
  unfold Page.placedCells
  have count : p.cellCount = (cells.map Prod.snd).length := by
    rw [List.length_map, tidy.rows.count]
  rw [count]
  apply Except.mapM_range
  intro i h
  rw [List.length_map] at h
  rw [tidy.cellBytes h, List.getElem_map]

theorem Tidy.firstWord (tidy : Tidy p cells lent blocks) (h : i < cells.length) :
    p.data.u32? cells[i].1 = some (cells[i].2.at32 0) := by
  have inside := tidy.run_inside (List.getElem_mem h)
  have usable := tidy.area.usable_le
  have lies := tidy.lies (List.getElem_mem h)
  have bytes : p.window.bytes = p.data := rfl
  have first := lies.at32 (k := 0) (by omega)
  rw [Nat.add_zero, bytes] at first
  rw [Bytes.u32?_of_le (by omega), first]

end Cells

theorem freeBlocksFrom_chain {blocks : List Run} (left lastEnd start : Nat)
    (chain : FreeChain p.data start blocks 0) (usable : p.usable ≤ p.data.size)
    (positive : 0 < lastEnd) (enough : blocks.length ≤ left)
    (inside : ∀ run ∈ blocks, lastEnd ≤ run.1 ∧ run.1 + run.2 ≤ p.usable ∧ minCellSize ≤ run.2)
    (ascending : blocks.Pairwise fun a b => a.1 + a.2 ≤ b.1) :
    p.freeBlocksFrom left lastEnd start = .ok blocks := by
  induction blocks generalizing left lastEnd start with
  | nil =>
    cases chain
    unfold freeBlocksFrom
    rfl
  | cons block rest ih =>
    obtain ⟨rfl, size, chain⟩ := chain
    obtain ⟨lower, upper, least⟩ := inside block List.mem_cons_self
    obtain ⟨before, ascending⟩ := List.pairwise_cons.mp ascending
    unfold minCellSize at least
    cases left with
    | zero => cases enough
    | succ left =>
      have more := ih left (block.1 + block.2) (p.data.at16 block.1) chain (by omega)
        (Nat.le_of_succ_le_succ enough)
        (fun run member =>
          have ⟨_, stop, wide⟩ := inside run (List.mem_cons_of_mem block member)
          ⟨before run member, stop, wide⟩) ascending
      have next : (p.data.u16? block.1).getD 0 = p.data.at16 block.1 := by
        rw [Bytes.u16?_of_le (by omega), Option.getD_some]
      have length : (p.data.u16? (block.1 + 2)).getD 0 = block.2 := by
        rw [Bytes.u16?_of_le (by omega), Option.getD_some, size]
      unfold freeBlocksFrom
      rw [if_neg (by omega), if_neg (by simp only [Bool.or_eq_true, decide_eq_true_eq]; omega),
        length, next, if_neg (by simp only [Bool.or_eq_true, decide_eq_true_eq]; omega)]
      simp only [more]
      rfl

theorem room_ge_length {runs : List Run} (wide : ∀ run ∈ runs, minCellSize ≤ run.2) :
    minCellSize * runs.length ≤ room runs := by
  induction runs with
  | nil => exact Nat.le_refl _
  | cons run rest ih =>
    have first := wide run List.mem_cons_self
    have others := ih fun other member => wide other (List.mem_cons_of_mem run member)
    rw [List.length_cons, room_cons, Nat.mul_succ]
    omega

theorem Area.freeBlocks_like {taken blocks : List Run} (area : Area p taken blocks) (q : Page)
    (data : q.data = p.data) (geometry : q.geometry = p.geometry) (header : q.header = p.header) :
    q.freeBlocks = .ok blocks := by
  have account := area.account
  have usable : q.usable = p.usable := congrArg Geometry.usableSize geometry
  have wide := room_ge_length fun run (member : run ∈ blocks) =>
    (area.inside run (List.mem_append_right _ member)).2.2
  unfold Page.freeBlocks
  rw [usable, header]
  apply freeBlocksFrom_chain
  · rw [data]
    exact area.chain
  · rw [data, usable]
    exact area.usable_le
  · exact area.header.contentPos
  · unfold minCellSize at wide ⊢
    omega
  · rw [usable]
    exact fun run member => area.inside run (List.mem_append_right _ member)
  · exact area.ascending

theorem Area.freeBlocks {taken blocks : List Run} (area : Area p taken blocks) :
    p.freeBlocks = .ok blocks := area.freeBlocks_like p rfl rfl rfl

theorem Area.countFreeBytes_like {taken blocks : List Run} (area : Area p taken blocks) (q : Page)
    (data : q.data = p.data) (geometry : q.geometry = p.geometry) (header : q.header = p.header) :
    q.countFreeBytes = .ok p.freeBytes := by
  have account := area.account
  have free := area.free
  have gap := area.gap
  have blocksOk := area.freeBlocks_like q data geometry header
  have ends := p.pointersEnd_eq
  have sum : q.header.contentStart - q.pointersEnd + total (blocks.map Prod.snd) +
      q.header.fragments = p.freeBytes := by
    rw [free, header]
    unfold pointersEnd pointersStart headerStart kind cellCount
    rw [geometry, header]
    rfl
  have fits : p.freeBytes ≤ q.capacity := by
    have start : q.pointersStart = p.pointersStart := by
      unfold pointersStart headerStart kind
      rw [geometry, header]
    have usable : q.usable = p.usable := congrArg Geometry.usableSize geometry
    unfold Page.capacity
    rw [usable, start]
    omega
  unfold Page.countFreeBytes
  rw [blocksOk, Except.ok_bind]
  dsimp only
  rw [sum, if_neg (by omega)]
  rfl

theorem Tidy.checkCell {cells : List (Nat × Bytes)} {lent blocks : List Run}
    (tidy : Tidy p cells lent blocks) {i : Nat} (h : i < cells.length) : p.checkCell i = .ok () := by
  obtain ⟨info, reads⟩ := tidy.rows.valid cells[i] (List.getElem_mem h)
  have inside := tidy.run_inside (List.getElem_mem h)
  have size := reads.2
  unfold Page.checkCell
  rw [tidy.storedPointer h, Except.ok_bind, if_neg, tidy.cellInfo h reads, Except.ok_bind,
    if_neg (by dsimp only; omega)]
  · rfl
  · simp only [Bool.or_eq_true, decide_eq_true_eq]
    omega

/-- The same page as it is read: its free bytes are not known yet, and no cell is parked. -/
def unread (p : Page) : Page := { p with freeBytes := 0, parked := [] }

theorem Tidy.parse {cells : List (Nat × Bytes)} {blocks : List Run} (tidy : Tidy p cells [] blocks) :
    Page.parse p.number p.data p.geometry p.limits = .ok { p with parked := [] } := by
  have sound := tidy.area.sound
  have size := tidy.area.size
  have gap := tidy.area.gap
  have content := tidy.area.content
  have count := tidy.rows.count
  have few := tidy.rows.few
  have small := sound.small
  have start := sound.header
  have cellsOk : (List.range p.cellCount).forM p.unread.checkCell = .ok () := by
    apply Except.forM_of_ok
    intro i member
    rw [List.mem_range, count] at member
    exact tidy.checkCell member
  have header : PageHeader.parse p.data p.geometry.headerStart = .ok p.header :=
    PageHeader.parse_of_at tidy.area.header
  have large : ¬ p.unread.cellCount > p.geometry.maxCells := Nat.not_lt.mpr (count ▸ few)
  have array : ¬ p.unread.pointersEnd > p.unread.usable := Nat.not_lt.mpr (Nat.le_trans gap content)
  have free : p.unread.countFreeBytes = .ok p.freeBytes :=
    tidy.area.countFreeBytes_like p.unread rfl rfl rfl
  have image : ¬ (decide (p.data.size < p.geometry.pageSize) ||
      decide (p.geometry.headerStart + 8 > p.geometry.usableSize)) = true := by
    simp only [Bool.or_eq_true, decide_eq_true_eq]
    omega
  have area : ¬ (decide (p.header.contentStart < p.unread.pointersEnd) ||
      decide (p.header.contentStart > p.unread.usable)) = true := by
    simp only [Bool.or_eq_true, decide_eq_true_eq]
    exact not_or.mpr ⟨Nat.not_lt.mpr gap, Nat.not_lt.mpr content⟩
  unfold Page.parse
  rw [if_neg image, header]
  dsimp only
  rw [Except.pure_bind_run]
  refine (if_neg large).trans ?_
  refine (if_neg array).trans ?_
  refine (if_neg area).trans ?_
  refine Except.bind_ok.mpr ⟨(), cellsOk, ?_⟩
  refine Except.bind_ok.mpr ⟨_, free, ?_⟩
  rfl

end Page

end TreeFile
