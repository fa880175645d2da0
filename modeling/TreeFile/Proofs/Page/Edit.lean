import Mathlib.Data.List.InsertIdx
import Mathlib.Data.List.Perm.Basic
import TreeFile.Page.Edit
import TreeFile.Proofs.Page.Release

/-!
Changing the cells of a page. Inserting, dropping and laying out cells keep the page sound, and
its cells are those that one expects.
-/

namespace TreeFile

namespace Page

variable {p q : Page}

structure Alike (p q : Page) : Prop where
  number : q.number = p.number
  geometry : q.geometry = p.geometry
  limits : q.limits = p.limits

theorem Alike.trans {r : Page} (first : Alike p q) (second : Alike q r) : Alike p r :=
  ⟨second.number.trans first.number, second.geometry.trans first.geometry,
    second.limits.trans first.limits⟩

theorem KeepsFields.alike (fields : KeepsFields p q) : Alike p q := ⟨fields.number, fields.geometry, fields.limits⟩

theorem at16_move {d : Bytes} {slot stop i : Nat} (order : slot ≤ stop)
    (fits : stop + 2 ≤ d.size) (low : slot ≤ i) (high : i + 2 ≤ stop) :
    (d.overwrite (slot + 2) (d.extract slot stop)).at16 (i + 2) = d.at16 i := by
  have size : (d.extract slot stop).size = stop - slot := Bytes.size_extract_of_le (by omega)
  have room : slot + 2 + (d.extract slot stop).size ≤ d.size := by omega
  have here : ∀ k, slot ≤ k → k < stop →
      (d.overwrite (slot + 2) (d.extract slot stop)).get! (k + 2) = d.get! k := by
    intro k lower upper
    rw [Bytes.get_overwrite room, if_pos (by omega), Bytes.get_extract, if_pos (by omega)]
    congr 1
    omega
  have first := here i low (by omega)
  have second := here (i + 1) (by omega) (by omega)
  unfold Bytes.at16
  rw [first, Nat.add_right_comm i 2 1, second]

theorem insertPointer {d e f : Bytes} {start : Nat} (slot stop : Nat) (order : slot ≤ stop)
    (small : start < 65536) (move : Bytes.move slot stop (slot + pointerSize) d = .ok () e)
    (put : Bytes.putU16 slot start e = .ok () f) :
    f.size = d.size ∧ (∀ i, i < slot ∨ stop + 2 ≤ i → f.get! i = d.get! i) ∧
      f.at16 slot = start ∧
      ∀ i, slot ≤ i → i + 2 ≤ stop → f.at16 (i + 2) = d.at16 i := by
  obtain ⟨⟨-, inside, fits⟩, sameE⟩ := Bytes.move_ok.mp move
  obtain ⟨slotFits, sameF⟩ := Bytes.putU16_ok.mp put
  unfold pointerSize at fits sameE
  have size : (d.extract slot stop).size = stop - slot := Bytes.size_extract_of_le inside
  have room : slot + 2 + (d.extract slot stop).size ≤ d.size := by omega
  have sizeE : e.size = d.size := by rw [sameE, Bytes.size_overwrite room]
  have slotRoom : slot + (Bytes.ofNat16 start).size ≤ e.size := slotFits
  have two : (Bytes.ofNat16 start).size = 2 := rfl
  refine ⟨?_, ?_, ?_, ?_⟩
  · rw [sameF, Bytes.size_overwrite slotRoom, sizeE]
  · intro i outside
    rw [sameF, Bytes.get_overwrite_outside slotRoom (by omega), sameE,
      Bytes.get_overwrite_outside room (by omega)]
  · rw [sameF, Bytes.at16_overwrite_same slotFits, Nat.mod_eq_of_lt small]
  · intro i low high
    rw [sameF, Bytes.at16_overwrite slotRoom (by omega), sameE]
    exact at16_move order (by omega) low high

/-- A page `s` whose pointers made room for one more, to the cell at `start`, and that otherwise differs
from `r` only in its header and in the run lent to that cell. -/
structure Placed (r s : Page) (i count start : Nat) (cell : Bytes) : Prop where
  gap : r.pointersEnd + 2 ≤ r.header.contentStart
  geometry : s.geometry = r.geometry
  limits : s.limits = r.limits
  header : s.header = { r.header with cellCount := r.header.cellCount + 1 }
  free : s.freeBytes + 2 = r.freeBytes
  size : s.data.size = r.data.size
  headerAt : PageHeader.At s.data r.headerStart s.header
  has : s.data.HasAt start cell
  keep : ∀ k, r.pointersEnd + 2 ≤ k → k < start ∨ start + cell.size ≤ k → s.data.get! k = r.data.get! k
  early : ∀ j, j < i → s.data.at16 (r.pointersStart + j * 2) = r.data.at16 (r.pointersStart + j * 2)
  here : s.data.at16 (r.pointersStart + i * 2) = start
  late : ∀ j, i ≤ j → j < count →
    s.data.at16 (r.pointersStart + (j + 1) * 2) = r.data.at16 (r.pointersStart + j * 2)

namespace Placed

variable {r s : Page} {cells : List (Nat × Bytes)} {blocks : List Run} {start i : Nat} {cell : Bytes}

section

variable (placed : Placed r s i cells.length start cell)

include placed

theorem pointersStart : s.pointersStart = r.pointersStart := by
  unfold Page.pointersStart Page.headerStart Page.kind
  rw [placed.geometry, placed.header]

theorem pointersEnd : s.pointersEnd = r.pointersEnd + 2 := by
  have ends := r.pointersEnd_eq
  have same : r.header.cellCount = r.cellCount := rfl
  unfold Page.pointersEnd Page.cellCount
  rw [placed.pointersStart, placed.header]
  dsimp only
  unfold pointerSize at ends ⊢
  omega

end

theorem area (placed : Placed r s i cells.length start cell) (tidy : Tidy r cells [(start, cell.size)] blocks)
    (inside : i ≤ cells.length) : Area s ((cells.insertIdx i (start, cell)).map runOf ++ []) blocks := by
  have area := tidy.area
  have usable : s.usable = r.usable := congrArg Geometry.usableSize placed.geometry
  have perm : ((cells.insertIdx i (start, cell)).map runOf ++ []).Perm (cells.map runOf ++ [(start, cell.size)]) := by
    rw [List.append_nil]
    have inserted := (List.perm_insertIdx (start, cell) cells inside).map runOf
    exact inserted.trans (List.perm_append_singleton _ _).symm
  have away : ∀ block ∈ blocks, Run.Apart block (start, cell.size) := fun block member =>
    ((List.pairwise_append.mp area.apart).2.2 _ (List.mem_append_right _ List.mem_cons_self) _ member).symm
  have gap := placed.gap
  refine ⟨?_, ?_, ?_, ?_, ?_, ?_, ?_, ?_, area.ascending, ?_, ?_⟩
  · rw [placed.geometry]
    exact area.sound
  · rw [placed.size, placed.geometry]
    exact area.size
  · have place : s.headerStart = r.headerStart := congrArg Geometry.headerStart placed.geometry
    rw [place]
    exact placed.headerAt
  · rw [placed.pointersEnd, placed.header]
    exact gap
  · rw [usable, placed.header]
    exact area.content
  · rw [placed.header]
    refine area.chain.of_same fun block member k low high => placed.keep k ?_ ?_
    · have past := (area.inside block (List.mem_append_right _ member)).1
      omega
    · have apart : block.1 + block.2 ≤ start ∨ start + cell.size ≤ block.1 := away block member
      have wide := (area.inside block (List.mem_append_right _ member)).2.2
      unfold minCellSize at wide
      omega
  · intro run member
    rw [usable, placed.header]
    exact area.inside run ((perm.append_right _).mem_iff.mp member)
  · exact (perm.append_right _).pairwise_iff (fun apart => Run.Apart.symm apart) |>.mpr area.apart
  · rw [usable, placed.header, room_perm perm]
    exact area.account
  · have old := area.free
    have free := placed.free
    rw [placed.pointersEnd, placed.header]
    dsimp only
    omega

theorem rows (placed : Placed r s i cells.length start cell) (tidy : Tidy r cells [(start, cell.size)] blocks)
    (inside : i ≤ cells.length) (few : cells.length + 1 ≤ r.geometry.maxCells)
    (valid : ∃ info, Cell.Says r.limits r.kind cell info) : Rows s (cells.insertIdx i (start, cell)) := by
  have rows := tidy.rows
  have length := List.length_insertIdx_of_le_length inside (start, cell)
  refine ⟨?_, ?_, ?_, ?_, ?_⟩
  · rw [length, ← rows.count]
    unfold Page.cellCount
    rw [placed.header]
  · rw [length, placed.geometry]
    exact few
  · intro j h
    rw [placed.pointersStart]
    rw [length] at h
    unfold pointerSize
    rcases Nat.lt_trichotomy j i with less | rfl | more
    · rw [placed.early j less, List.getElem_insertIdx_of_lt less]
      exact rows.pointers j (by omega)
    · rw [placed.here, List.getElem_insertIdx_self]
    · have before := placed.late (j - 1) (by omega) (by omega)
      rw [show j - 1 + 1 = j by omega] at before
      rw [before, List.getElem_insertIdx_of_gt more]
      exact rows.pointers (j - 1) (by omega)
  · intro other member
    rcases (List.mem_insertIdx inside).mp member with rfl | old
    · exact placed.has
    · have taken : runOf other ∈ cells.map runOf := List.mem_map_of_mem old
      have apart : Run.Apart (runOf other) (start, cell.size) :=
        (List.pairwise_append.mp (List.pairwise_append.mp tidy.area.apart).1).2.2 _ taken _ List.mem_cons_self
      have apart : other.1 + other.2.size ≤ start ∨ start + cell.size ≤ other.1 := apart
      have place := tidy.run_inside old
      have gap := placed.gap
      refine (rows.lies other old).of_sameOn placed.size fun k low high => placed.keep k ?_ ?_ <;> omega
  · intro other member
    have kind : s.kind = r.kind := by
      unfold Page.kind
      rw [placed.header]
    rw [placed.limits, kind]
    rcases (List.mem_insertIdx inside).mp member with rfl | old
    · exact valid
    · exact rows.valid other old

end Placed

structure KeepsRole (p q : Page) : Prop where
  alike : Alike p q
  parked : q.parked = p.parked
  kind : q.kind = p.kind
  rightChild : q.header.rightChild = p.header.rightChild

theorem KeepsFields.role (fields : KeepsFields p q) : KeepsRole p q := ⟨fields.alike, fields.parked, fields.kind, fields.rightChild⟩

theorem KeepsRole.trans {r : Page} (first : KeepsRole p q) (second : KeepsRole q r) : KeepsRole p r :=
  ⟨first.alike.trans second.alike, second.parked.trans first.parked,
    second.kind.trans first.kind, second.rightChild.trans first.rightChild⟩

theorem place_ok {cells : List (Nat × Bytes)} {blocks : List Run} {i : Nat} {cell : Bytes}
    {info : CellInfo} (tidy : Tidy p cells [] blocks) (inside : i ≤ cells.length)
    (few : cells.length + 1 ≤ p.geometry.maxCells) (reads : Cell.Says p.limits p.kind cell info)
    (wide : 4 ≤ cell.size) (run : place i cell p = .ok () q) :
    ∃ cells' blocks', Tidy q cells' [] blocks' ∧
      cells'.map Prod.snd = (cells.map Prod.snd).insertIdx i cell ∧ KeepsRole p q := by
  unfold place at run
  obtain ⟨start, r, lent, run⟩ := Action.bind_ok.mp run
  obtain ⟨⟨moved, blocks', tidyR, same⟩, fields, gap, -⟩ := allocate_lends tidy wide lent
  obtain ⟨_, r1, put, run⟩ := Action.bind_ok.mp run
  obtain ⟨d1, put1, rfl⟩ := edit_ok.mp put
  rw [Action.get_bind] at run
  obtain ⟨_, r2, put, run⟩ := Action.bind_ok.mp run
  obtain ⟨d2, put2, rfl⟩ := edit_ok.mp put
  obtain ⟨_, r3, put, run⟩ := Action.bind_ok.mp run
  obtain ⟨d3, put3, rfl⟩ := edit_ok.mp put
  unfold setHeader at run
  rw [Action.modify_bind] at run
  obtain ⟨_, r4, lost, run⟩ := Action.bind_ok.mp run
  obtain ⟨enough, rfl⟩ := loseFree_ok.mp lost
  have length : moved.length = cells.length := by
    rw [← List.length_map (f := Prod.snd), same, List.length_map]
  have count : r.cellCount = moved.length := tidyR.rows.count
  have area := tidyR.area
  have header := area.header.valid
  have usable := area.usable_bounds
  have inPage := area.usable_le
  have ends := r.pointersEnd_eq
  have lentRun : (start, cell.size) ∈ moved.map runOf ++ [(start, cell.size)] :=
    List.mem_append_right _ List.mem_cons_self
  have own := area.inside _ (List.mem_append_left _ lentRun)
  have content := area.content
  have sound := area.sound
  have maxCells : p.geometry.maxCells < 65535 := by
    have large := tidy.area.sound.large
    unfold Geometry.maxCells
    omega
  unfold pointerSize at gap ends
  dsimp only at own
  obtain ⟨fits1, same1⟩ := Bytes.put_ok.mp put1
  have size1 : d1.size = r.data.size := by rw [same1, Bytes.size_overwrite fits1]
  have keep1 : ∀ k, k < start ∨ start + cell.size ≤ k → d1.get! k = r.data.get! k := fun k outside =>
    same1 ▸ Bytes.get_overwrite_outside fits1 outside
  obtain ⟨size3, keep3, here, shifted⟩ := insertPointer (r.pointersStart + i * pointerSize)
    r.pointersEnd (by unfold pointerSize; omega) (by omega) put2 put3
  unfold pointerSize at here shifted keep3
  have valid : PageHeader.Valid { r.header with cellCount := r.header.cellCount + 1 } :=
    { header with cellCount := show r.cellCount + 1 < 65536 by omega }
  obtain ⟨d4, last, lastAt, rfl⟩ := writeHeader_at valid run
  have last : SameBut { r with data := d3 } d4 [] := last
  have keep4 : ∀ a b, r.pointersStart ≤ a → Bytes.SameOn d3 d4 a b := fun a b past =>
    last.sameOn past nofun
  have same13 : ∀ a b, b ≤ start ∨ start + cell.size ≤ a → Bytes.SameOn r.data d1 a b :=
    fun a b outside k low high => keep1 k (by omega)
  have placed : Placed r { r with
      header := { r.header with cellCount := r.header.cellCount + 1 }, freeBytes := r.freeBytes - 2, data := d4 }
      i moved.length start cell := by
    refine ⟨gap, rfl, rfl, rfl, ?_, ?_, lastAt, ?_, ?_, ?_, ?_, ?_⟩
    · exact Nat.sub_add_cancel enough
    · exact last.1.trans (size3.trans size1)
    · have has1 : d1.HasAt start cell := same1 ▸ Bytes.hasAt_overwrite fits1
      refine (has1.of_sameOn size3 fun k low high => keep3 k (by omega)).of_sameOn last.1 ?_
      exact keep4 _ _ (by omega)
    · intro k past outside
      rw [keep4 k (k + 1) (by omega) k (by omega) (by omega), keep3 k (by omega), keep1 k outside]
    · intro j less
      rw [(keep4 _ (r.pointersStart + j * 2 + 2) (by omega)).at16 (Nat.le_refl _) (Nat.le_refl _)]
      have same3 : Bytes.SameOn d1 d3 0 (r.pointersStart + i * 2) := fun k low high =>
        keep3 k (by omega)
      rw [same3.at16 (by omega) (by omega)]
      exact (same13 0 start (by omega)).at16 (by omega) (by omega)
    · rw [(keep4 _ (r.pointersStart + i * 2 + 2) (by omega)).at16 (Nat.le_refl _) (Nat.le_refl _)]
      exact here
    · intro j low high
      rw [(keep4 _ (r.pointersStart + (j + 1) * 2 + 2) (by omega)).at16 (Nat.le_refl _)
        (Nat.le_refl _), show r.pointersStart + (j + 1) * 2 = r.pointersStart + j * 2 + 2 by omega,
        shifted _ (by omega) (by omega)]
      exact (same13 0 start (by omega)).at16 (by omega) (by omega)
  refine ⟨moved.insertIdx i (start, cell), blocks', ⟨placed.area tidyR (by omega), placed.rows tidyR (by omega) ?_ ?_⟩, ?_, ?_⟩
  · rw [fields.geometry]
    omega
  · have kindEq : r.kind = p.kind := fields.kind
    rw [fields.limits, kindEq]
    exact ⟨info, reads⟩
  · rw [List.map_insertIdx, same]
  · exact ⟨⟨fields.number, fields.geometry, fields.limits⟩, fields.parked, fields.kind, fields.rightChild⟩

theorem tidy_nil (sound : p.geometry.Sound) (size : p.data.size = p.geometry.pageSize)
    (header : PageHeader.At p.data p.headerStart p.header) (first : p.header.firstFree = 0)
    (count : p.header.cellCount = 0) (content : p.header.contentStart = p.usable)
    (fragments : p.header.fragments = 0) (free : p.freeBytes = p.usable - p.pointersStart) :
    Tidy p [] [] [] := by
  have ends : p.pointersEnd = p.pointersStart := by
    unfold Page.pointersEnd Page.cellCount
    rw [count, Nat.zero_mul, Nat.add_zero]
  have start := p.pointersStart_eq
  have kind := p.kind.headerSize_bounds
  have low : p.headerStart ≤ 100 := sound.header
  have large : 480 ≤ p.usable := sound.small
  refine ⟨⟨sound, size, header, ?_, ?_, ?_, nofun, .nil, .nil, ?_, ?_⟩, ⟨?_, ?_, nofun, nofun, nofun⟩⟩
  · omega
  · omega
  · rw [first]
    rfl
  · simp only [List.map_nil, List.append_nil, room_nil]
    omega
  · rw [room_nil]
    omega
  · exact count
  · exact Nat.zero_le _

theorem removePointer {d e f : Bytes} (slot stop : Nat) (order : slot + 2 ≤ stop)
    (move : Bytes.move (slot + pointerSize) stop slot d = .ok () e)
    (cleared : Bytes.clear (stop - pointerSize) stop e = .ok () f) :
    f.size = d.size ∧ (∀ i, i < slot ∨ stop ≤ i → f.get! i = d.get! i) ∧
      ∀ i, slot ≤ i → i + 4 ≤ stop → f.at16 i = d.at16 (i + 2) := by
  unfold pointerSize at move cleared
  obtain ⟨⟨-, inside, fits⟩, sameE⟩ := Bytes.move_ok.mp move
  obtain ⟨⟨-, insideE⟩, sameF⟩ := Bytes.clear_ok.mp cleared
  have size : (d.extract (slot + 2) stop).size = stop - (slot + 2) :=
    Bytes.size_extract_of_le inside
  have room : slot + (d.extract (slot + 2) stop).size ≤ d.size := by omega
  have sizeE : e.size = d.size := by rw [sameE, Bytes.size_overwrite room]
  have roomF : stop - 2 + (Bytes.zeros (stop - (stop - 2))).size ≤ e.size := by
    rw [Bytes.size_zeros]
    omega
  have width : (Bytes.zeros (stop - (stop - 2))).size = 2 := by
    rw [Bytes.size_zeros]
    omega
  have here : ∀ k, slot ≤ k → k + 2 < stop → f.get! k = d.get! (k + 2) := by
    intro k lower upper
    rw [sameF, Bytes.get_overwrite_outside roomF (by omega), sameE, Bytes.get_overwrite room,
      if_pos (by omega), Bytes.get_extract, if_pos (by omega)]
    congr 1
    omega
  refine ⟨?_, ?_, ?_⟩
  · rw [sameF, Bytes.size_overwrite roomF, sizeE]
  · intro i outside
    rw [sameF, Bytes.get_overwrite_outside roomF (by omega), sameE,
      Bytes.get_overwrite_outside room (by omega)]
  · intro i low high
    have first := here i low (by omega)
    have second := here (i + 1) (by omega) (by omega)
    unfold Bytes.at16
    rw [first, second, Nat.add_right_comm i 1 2]

/-- A page whose pointers close up over one, and that otherwise differs only in its header. The
room of the cell has been given back already. -/
theorem Tidy.erasePlaced {r s : Page} {cells : List (Nat × Bytes)} {blocks : List Run} {i : Nat}
    (area : Area r ((cells.eraseIdx i).map runOf) blocks) (inside : i < cells.length)
    (count : r.cellCount = cells.length) (few : cells.length ≤ r.geometry.maxCells)
    (pointers : ∀ j (h : j < cells.length),
      r.data.at16 (r.pointersStart + j * pointerSize) = cells[j].1)
    (lies : ∀ cell ∈ cells.eraseIdx i, r.data.HasAt cell.1 cell.2)
    (valid : ∀ cell ∈ cells, ∃ info, Cell.Says r.limits r.kind cell.2 info)
    (geometry : s.geometry = r.geometry) (limits : s.limits = r.limits)
    (header : s.header = { r.header with cellCount := r.header.cellCount - 1 })
    (free : s.freeBytes = r.freeBytes + 2)
    (size : s.data.size = r.data.size) (headerAt : PageHeader.At s.data r.headerStart s.header)
    (keep : ∀ k, r.pointersEnd ≤ k → s.data.get! k = r.data.get! k)
    (early : ∀ j, j < i → s.data.at16 (r.pointersStart + j * 2) =
      r.data.at16 (r.pointersStart + j * 2))
    (late : ∀ j, i ≤ j → j + 1 < cells.length → s.data.at16 (r.pointersStart + j * 2) =
      r.data.at16 (r.pointersStart + (j + 1) * 2)) :
    Tidy s (cells.eraseIdx i) [] blocks := by
  have ends := r.pointersEnd_eq
  have gap := area.gap
  have length : (cells.eraseIdx i).length + 1 = cells.length := by
    rw [List.length_eraseIdx_of_lt inside]
    omega
  have startEq : s.pointersStart = r.pointersStart := by
    unfold Page.pointersStart Page.headerStart Page.kind
    rw [geometry, header]
  have endEq : s.pointersEnd + 2 = r.pointersEnd := by
    unfold Page.pointersEnd Page.cellCount
    rw [startEq, header]
    dsimp only
    have same : r.header.cellCount = r.cellCount := rfl
    unfold pointerSize at ends ⊢
    omega
  have usableEq : s.usable = r.usable := congrArg Geometry.usableSize geometry
  have kindEq : s.kind = r.kind := by
    unfold Page.kind
    rw [header]
  refine ⟨⟨?_, ?_, ?_, ?_, ?_, ?_, ?_, ?_, ?_, ?_, ?_⟩, ⟨?_, ?_, ?_, ?_, ?_⟩⟩
  · rw [geometry]
    exact area.sound
  · rw [size, geometry]
    exact area.size
  · have place : s.headerStart = r.headerStart := congrArg Geometry.headerStart geometry
    rw [place]
    exact headerAt
  · rw [header]
    dsimp only
    omega
  · rw [usableEq, header]
    exact area.content
  · rw [header]
    refine area.chain.of_same fun block member k low high => keep k ?_
    have past := (area.inside block (List.mem_append_right _ member)).1
    omega
  · rw [List.append_nil, usableEq, header]
    exact area.inside
  · rw [List.append_nil]
    exact area.apart
  · exact area.ascending
  · rw [List.append_nil, usableEq, header]
    exact area.account
  · have old := area.free
    rw [header]
    dsimp only
    omega
  · have same : r.header.cellCount = r.cellCount := rfl
    unfold Page.cellCount
    rw [header]
    dsimp only
    omega
  · rw [geometry]
    omega
  · intro j h
    rw [startEq]
    unfold pointerSize at pointers ⊢
    by_cases less : j < i
    · rw [early j less, List.getElem_eraseIdx_of_lt h less]
      exact pointers j (by omega)
    · rw [late j (by omega) (by omega), List.getElem_eraseIdx_of_ge h (by omega)]
      exact pointers (j + 1) (by omega)
  · intro other member
    have run := area.inside (runOf other)
      (List.mem_append_left _ (List.mem_map_of_mem member))
    have place : r.header.contentStart ≤ other.1 := run.1
    exact (lies other member).of_sameOn size fun k low high => keep k (by omega)
  · intro other member
    rw [limits, kindEq]
    exact valid other (List.mem_of_mem_eraseIdx member)

theorem free_ok {cells : List (Nat × Bytes)} {blocks : List Run} {i : Nat}
    (tidy : Tidy p cells [] blocks) (inside : i < cells.length)
    (run : free cells[i].1 cells[i].2.size p = .ok () q) :
    ∃ blocks', Area q ((cells.eraseIdx i).map runOf) blocks' ∧ KeepsFields p q ∧
      (∀ j (h : j < cells.length),
        q.data.at16 (q.pointersStart + j * pointerSize) = cells[j].1) ∧
      ∀ cell ∈ cells.eraseIdx i, q.data.HasAt cell.1 cell.2 := by
  have member : cells[i] ∈ cells := List.getElem_mem inside
  have place := tidy.run_inside member
  unfold free at run
  rw [Action.get_bind] at run
  have within : ¬ ((decide (cells[i].1 < p.header.contentStart) ||
      decide (cells[i].1 + cells[i].2.size > p.usable)) = true) := by
    simp only [Bool.or_eq_true, decide_eq_true_eq]
    omega
  rw [if_neg within] at run
  have run := run
  rw [if_neg (by omega)] at run
  have perm : (cells.map runOf ++ []).Perm (runOf cells[i] :: (cells.eraseIdx i).map runOf) := by
    rw [List.append_nil]
    exact ((List.getElem_cons_eraseIdx_perm inside).map runOf).symm
  have area := tidy.area.perm perm
  obtain ⟨blocks', areaQ, fields, same, -⟩ := freeBlock_ok area run
  refine ⟨blocks', areaQ, fields, ?_, ?_⟩
  · intro j h
    rw [fields.pointersStart, ← tidy.rows.pointers j h]
    have gap := area.gap
    have ends := p.pointersEnd_eq
    have count := tidy.rows.count
    unfold pointerSize at ends ⊢
    apply (same.sameOn (Nat.le_add_right p.pointersStart (j * 2)) ?_).at16 (Nat.le_refl _)
      (Nat.le_refl _)
    intro run member
    have listed : run ∈ runOf cells[i] :: (cells.eraseIdx i).map runOf ++ blocks := by
      rcases List.mem_cons.mp member with rfl | block
      · exact List.mem_cons_self
      · exact List.mem_append_right _ block
    have past := area.past_pointers listed
    omega
  · intro other others
    have taken : runOf other ∈ (cells.eraseIdx i).map runOf := List.mem_map_of_mem others
    have past := area.past_pointers (List.mem_append_left _ (List.mem_cons_of_mem _ taken))
    apply (tidy.rows.lies other (List.mem_of_mem_eraseIdx others)).of_sameOn same.1
    apply same.sameOn past.2
    intro run member
    rcases List.mem_cons.mp member with rfl | block
    · have apart : Run.Apart (runOf cells[i]) (runOf other) :=
        (List.pairwise_cons.mp area.apart).1 _ (List.mem_append_left _ taken)
      exact apart.symm
    · exact (List.pairwise_append.mp (List.pairwise_cons.mp area.apart).2).2.2 _ taken run block

theorem clearContent_ok (sound : p.geometry.Sound) (size : p.data.size = p.geometry.pageSize)
    (header : p.header.Valid) (count : p.header.cellCount = 0)
    (run : (do clearContent; writeHeader : Action Page Unit) p = .ok () q) :
    Tidy q [] [] [] ∧ KeepsFields p q := by
  obtain ⟨_, r, cleared, written⟩ := Action.bind_ok.mp run
  unfold clearContent at cleared
  rw [Action.get_bind] at cleared
  obtain ⟨_, r1, put, cleared⟩ := Action.bind_ok.mp cleared
  obtain ⟨d1, put1, rfl⟩ := edit_ok.mp put
  obtain ⟨⟨low, high⟩, same⟩ := Bytes.clear_ok.mp put1
  unfold setHeader at cleared
  rw [Action.modify_bind, Action.modify_run] at cleared
  cases cleared
  have small : 480 ≤ p.usable := sound.small
  have large : p.usable ≤ p.data.size := size ▸ sound.usable
  have valid : PageHeader.Valid { p.header with
      firstFree := 0, fragments := 0, contentStart := p.usable } :=
    { header with
      firstFree := by dsimp only; omega
      fragments := by dsimp only; omega
      contentPos := by dsimp only; omega
      contentLe := Nat.le_trans sound.usable sound.large }
  obtain ⟨d2, last, lastAt, rfl⟩ := writeHeader_at valid written
  have fits : p.pointersStart + (Bytes.zeros (p.usable - p.pointersStart)).size ≤ p.data.size := by
    rw [Bytes.size_zeros]
    omega
  have size1 : d1.size = p.data.size := by rw [same, Bytes.size_overwrite fits]
  refine ⟨?_, ⟨rfl, rfl, rfl, rfl, rfl, rfl, rfl⟩⟩
  refine tidy_nil sound ?_ lastAt rfl count rfl rfl rfl
  have size2 : d2.size = d1.size := last.1
  dsimp only
  rw [size2, size1]
  exact size

theorem drop_ok {cells : List (Nat × Bytes)} {blocks : List Run} {i : Nat}
    (tidy : Tidy p cells [] blocks) (run : drop i p = .ok () q) :
    i < cells.length ∧ ∃ cells' blocks', Tidy q cells' [] blocks' ∧
      cells'.map Prod.snd = (cells.map Prod.snd).eraseIdx i ∧ KeepsRole p q := by
  unfold drop at run
  rw [Action.get_bind] at run
  obtain ⟨start, found, run⟩ := Action.lift_bind_ok.mp run
  have inside : i < cells.length := by
    rw [← tidy.rows.count]
    refine Nat.lt_of_not_le fun past => ?_
    unfold pointer at found
    rw [if_pos past] at found
    exact Except.throw_bind_ok found
  refine ⟨inside, ?_⟩
  rw [tidy.pointer inside] at found
  cases found
  obtain ⟨info, found, run⟩ := Action.lift_bind_ok.mp run
  obtain ⟨here, reads⟩ := tidy.rows.valid _ (List.getElem_mem inside)
  rw [tidy.cellInfo inside reads] at found
  cases found
  obtain ⟨_, r, freed, run⟩ := Action.bind_ok.mp run
  dsimp only at freed
  rw [reads.2] at freed
  obtain ⟨blocks', area, fields, pointers, lies⟩ := free_ok tidy inside freed
  obtain ⟨_, r1, put, run⟩ := Action.bind_ok.mp run
  obtain ⟨d1, put1, rfl⟩ := edit_ok.mp put
  obtain ⟨_, r2, put, run⟩ := Action.bind_ok.mp run
  obtain ⟨d2, put2, rfl⟩ := edit_ok.mp put
  unfold setHeader gainFree at run
  rw [Action.modify_bind, Action.modify_bind] at run
  have count : r.cellCount = cells.length := by
    have same : r.cellCount = p.cellCount := fields.cellCount
    rw [same]
    exact tidy.rows.count
  have ends := p.pointersEnd_eq
  have counted : p.cellCount = cells.length := tidy.rows.count
  have gap := area.gap
  have content := area.content
  have inPage := area.usable_le
  have header := area.header.valid
  have slot : p.pointersStart + i * pointerSize + 2 ≤ p.pointersEnd := (tidy.slot_fits inside).1
  unfold pointerSize at put1 put2 slot ends
  obtain ⟨size2, keep2, shifted⟩ := removePointer (p.pointersStart + i * 2) p.pointersEnd slot
    put1 put2
  have startEq := fields.pointersStart
  have endEq := fields.pointersEnd
  have lessValid : PageHeader.Valid { r.header with cellCount := r.header.cellCount - 1 } :=
    { header with cellCount := Nat.lt_of_le_of_lt (Nat.sub_le _ _) header.cellCount }
  have less : r.header.cellCount - 1 = (cells.eraseIdx i).length := by
    rw [List.length_eraseIdx_of_lt inside]
    exact congrArg (· - 1) count
  have shorter : (cells.eraseIdx i).map Prod.snd = (cells.map Prod.snd).eraseIdx i :=
    (List.eraseIdx_map ..).symm
  rw [Action.get_bind] at run
  by_cases empty : r.header.cellCount - 1 = 0
  · have run := run
    unfold Page.cellCount at run
    dsimp only at run
    rw [if_pos empty] at run
    have cleared := clearContent_ok (q := q) (p := { r with
      data := d2, header := { r.header with cellCount := r.header.cellCount - 1 },
      freeBytes := r.freeBytes + 2 })
    obtain ⟨tidyQ, kinQ⟩ := cleared area.sound (size2.trans area.size) lessValid empty run
    refine ⟨[], [], tidyQ, ?_, fields.role.trans ?_⟩
    · rw [← shorter, List.eq_nil_of_length_eq_zero (less.symm.trans empty)]
    · exact ⟨⟨kinQ.number, kinQ.geometry, kinQ.limits⟩, kinQ.parked, kinQ.kind, kinQ.rightChild⟩
  · have run := run
    unfold Page.cellCount at run
    dsimp only at run
    rw [if_neg empty] at run
    obtain ⟨d3, last, lastAt, rfl⟩ := writeHeader_at lessValid run
    have last : SameBut { r with data := d2 } d3 [] := last
    have keep3 : ∀ a b, r.pointersStart ≤ a → Bytes.SameOn d2 d3 a b := fun a b past =>
      last.sameOn past nofun
    refine ⟨cells.eraseIdx i, blocks', ?_, shorter, fields.role.trans ?_⟩
    · refine Tidy.erasePlaced (r := r) area inside count ?_ pointers lies ?_ rfl rfl rfl rfl
        (last.1.trans size2) lastAt ?_ ?_ ?_
      · rw [fields.geometry]
        exact tidy.rows.few
      · have kindEq : r.kind = p.kind := fields.kind
        rw [fields.limits, kindEq]
        exact tidy.rows.valid
      · intro k past
        have high : p.pointersEnd ≤ k := endEq ▸ past
        rw [← keep2 k (.inr high)]
        exact keep3 k (k + 1) (by omega) k (Nat.le_refl _) (Nat.lt_succ_self _)
      · intro j low
        rw [(keep3 _ (r.pointersStart + j * 2 + 2) (by omega)).at16 (Nat.le_refl _)
          (Nat.le_refl _)]
        have same2 : Bytes.SameOn r.data d2 0 (p.pointersStart + i * 2) := fun k _ high =>
          keep2 k (.inl high)
        exact same2.at16 (by omega) (by omega)
      · intro j low high
        rw [(keep3 _ (r.pointersStart + j * 2 + 2) (by omega)).at16 (Nat.le_refl _)
          (Nat.le_refl _), shifted _ (by omega) (by omega)]
        congr 1
        omega
    · exact ⟨⟨rfl, rfl, rfl⟩, rfl, rfl, rfl⟩

end Page

end TreeFile
