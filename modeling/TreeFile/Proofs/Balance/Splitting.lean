import TreeFile.Proofs.Balance.Distribution
import TreeFile.Proofs.Balance.Gathering

/-!
Splits are always possible. As long as no cell of an index can take more than half a page, whatever
cells siblings have between them can be laid out anew, with a cell left for every page and one for
every divider.
-/

namespace TreeFile

/-- Any two cells of an index find room on a page. Besides the kept payload a cell may have a child,
nine bytes of size, a page of its chain and its pointer. -/
def PayloadLimits.Roomy (p : PayloadLimits) : Prop := 2 * (p.maxIndex + 19) ≤ p.usableSize - 12

theorem PayloadLimits.roomy_of_config {c : Config} (valid : c.validate = .ok ())
    (half : c.maxFraction ≤ 127) : (PayloadLimits.ofConfig c).Roomy := by
  have small : 480 ≤ c.usableSize := (fair_of_config valid).usable
  have fraction : c.maxFraction.toNat ≤ 127 := UInt8.le_iff_toNat_le.mp half
  have product := Nat.mul_le_mul_left (c.usableSize - 12) fraction
  have quotient := Nat.div_le_div_right (c := 255) product
  unfold Roomy
  change 2 * ((c.usableSize - 12) * c.maxFraction.toNat / 255 - 23 + 19) ≤ c.usableSize - 12
  omega

namespace Cell

def largest (p : PayloadLimits) : PageKind → Nat
  | .tableLeaf => p.maxRow + 22
  | .tableInterior => 13
  | .indexLeaf => p.maxIndex + 13
  | .indexInterior => p.maxIndex + 17

theorem largest_fits {p : PayloadLimits} (fair : p.Fair) (kind : PageKind) :
    largest p kind + pointerSize ≤ p.usableSize - kind.headerSize := by
  have usable := fair.usable
  have rows := fair.maxRow
  have keys := fair.maxIndex
  unfold pointerSize
  cases kind with
  | tableLeaf =>
    change p.maxRow + 22 + 2 ≤ p.usableSize - 8
    omega
  | tableInterior =>
    change 13 + 2 ≤ p.usableSize - 12
    omega
  | indexLeaf =>
    change p.maxIndex + 13 + 2 ≤ p.usableSize - 8
    omega
  | indexInterior =>
    change p.maxIndex + 17 + 2 ≤ p.usableSize - 12
    omega

theorem largest_halves {p : PayloadLimits} {kind : PageKind} (fair : p.Fair) (roomy : p.Roomy)
    (divides : kind ≠ .tableLeaf) : 2 * (largest p kind + pointerSize) ≤ p.usableSize - 12 := by
  have usable := fair.usable
  unfold PayloadLimits.Roomy at roomy
  unfold pointerSize
  cases kind with
  | tableLeaf => exact absurd rfl divides
  | tableInterior =>
    change 2 * (13 + 2) ≤ p.usableSize - 12
    omega
  | indexLeaf =>
    change 2 * (p.maxIndex + 13 + 2) ≤ p.usableSize - 12
    omega
  | indexInterior =>
    change 2 * (p.maxIndex + 17 + 2) ≤ p.usableSize - 12
    omega

theorem decodePayload_size_le {w : Window} {i : Nat} {kind : PageKind} {p : PayloadLimits}
    {c info : CellInfo} (fair : p.Fair) (run : decodePayload w i kind p c = .ok info) :
    info.size ≤ c.payloadStart - i + (p.bounds kind).1 + 4 := by
  obtain ⟨head, -, -, rfl⟩ := decodePayload_ok.mp run
  have kept := fair.kept_le_bound kind c.payloadSize
  unfold contentEnd minCellSize
  dsimp only
  split <;> omega

theorem decode_size_le {w : Window} {i : Nat} {kind : PageKind} {p : PayloadLimits} {info : CellInfo}
    (fair : p.Fair) (run : decode w i kind p = .ok info) : info.size ≤ largest p kind := by
  cases kind with
  | tableLeaf =>
    obtain ⟨size, n, row, m, hasSize, -, hasRow, run⟩ := decode_tableLeaf.mp run
    have first := Varint.decode?_bounds hasSize
    have second := Varint.decode?_bounds hasRow
    have bound : info.size ≤ i + n + m - i + p.maxRow + 4 := decodePayload_size_le fair run
    show info.size ≤ p.maxRow + 22
    omega
  | tableInterior =>
    obtain ⟨child, row, n, -, hasRow, rfl⟩ := decode_tableInterior.mp run
    have first := Varint.decode?_bounds hasRow
    show 4 + n ≤ 13
    omega
  | indexLeaf =>
    obtain ⟨size, n, hasSize, -, run⟩ := decode_indexLeaf.mp run
    have first := Varint.decode?_bounds hasSize
    have bound : info.size ≤ i + n - i + p.maxIndex + 4 := decodePayload_size_le fair run
    show info.size ≤ p.maxIndex + 13
    omega
  | indexInterior =>
    obtain ⟨child, size, n, -, hasSize, -, run⟩ := decode_indexInterior.mp run
    have first := Varint.decode?_bounds hasSize
    have bound : info.size ≤ i + (4 + n) - i + p.maxIndex + 4 := decodePayload_size_le fair run
    show info.size ≤ p.maxIndex + 17
    omega

end Cell

variable {limits : PayloadLimits} {kind : PageKind} {cells : List Bytes} {slots : List Slot}

theorem Held.modest (fair : limits.Fair) (roomy : limits.Roomy)
    (held : Held limits kind cells slots) :
    Distribution.Modest (kind != .tableLeaf) (limits.usableSize - kind.headerSize)
      (cells.map fun cell => cell.size + pointerSize) := by
  intro size member
  obtain ⟨cell, isCell, rfl⟩ := List.mem_map.mp member
  obtain ⟨info, run, size⟩ := held.reads cell isCell
  have bound : cell.size ≤ Cell.largest limits kind := size ▸ Cell.decode_size_le fair run
  by_cases row : kind = .tableLeaf
  · subst row
    exact Nat.le_trans (Nat.add_le_add_right bound _) (Cell.largest_fits fair .tableLeaf)
  · rw [bne_iff_ne.mpr row, if_pos rfl]
    have halves := Cell.largest_halves fair roomy row
    have header : kind.headerSize ≤ 12 := by cases kind <;> decide
    omega

namespace Siblings

theorem weight_cellsOf (cells : List Bytes) (span : Span) : Page.weight (cellsOf cells span) =
    span.weight (cells.map fun cell => cell.size + pointerSize) := by
  unfold Page.weight cellsOf Span.weight
  rw [List.map_take, List.map_drop]

/-- The spans on pages of the given kind, and what makes them a way to lay the cells out: there is a
cell on every page, one between any two pages where these need it, and room for all of them. -/
structure Splits (cells : List Bytes) (kind : PageKind) (pageSize usableSize : Nat)
    (spans : List Span) : Prop where
  covers : Covers (kind != .tableLeaf) cells.length 0 spans
  peopled : cells ≠ [] → Peopled spans
  room : ∀ span ∈ spans, ∀ page : Page, page.geometry = ⟨pageSize, usableSize, 0⟩ →
    page.fits (cellsOf cells span) kind = true

theorem fits_cellsOf {pageSize capacity : Nat} (held : Held limits kind cells slots) {span : Span}
    {page : Page} (isGeometry : page.geometry = ⟨pageSize, limits.usableSize, 0⟩)
    (usable : limits.usableSize ≤ pageSize) (isCapacity : capacity = limits.usableSize - kind.headerSize)
    (room : span.weight (cells.map fun cell => cell.size + pointerSize) ≤ capacity) :
    page.fits (cellsOf cells span) kind = true := by
  rw [← weight_cellsOf] at room
  have header : 8 ≤ kind.headerSize := by cases kind <;> decide
  have count := Page.length_le_weight fun cell (member : cell ∈ cellsOf cells span) =>
    held.wide cell (List.mem_of_mem_drop (List.mem_of_mem_take member))
  rw [Page.fits_eq]
  unfold Page.usable Page.headerStart Geometry.maxCells
  rw [isGeometry]
  dsimp only
  refine ⟨by omega, (Nat.le_div_iff_mul_le (by decide)).mpr (by omega)⟩

theorem held_splits {pageSize : Nat} (fair : limits.Fair) (roomy : limits.Roomy)
    (usable : limits.usableSize ≤ pageSize) (held : Held limits kind cells slots) :
    ∃ spans, distribute (cells.map fun cell => cell.size + pointerSize)
        (limits.usableSize - kind.headerSize) (kind != .tableLeaf) = .ok spans ∧
      Splits cells kind pageSize limits.usableSize spans := by
  obtain ⟨spans, run, covers, peopled, fits⟩ := distribute_run (held.modest fair roomy)
  rw [List.length_map] at covers
  refine ⟨spans, run, covers, fun some_ => peopled ?_, fun span member page isGeometry =>
    fits_cellsOf held isGeometry usable rfl (fits span member)⟩
  exact fun none_ => some_ (List.map_eq_nil_iff.mp none_)

variable {s t : Store} {d : Disk} {tree : TreeKind} {h : Nat} {parent page : Page}
  {index number : Nat} {row : Row (Node (Limb h))}

/-- Under settings by which a key takes less than half a page, what a page and its siblings hold between them can
always be laid out. -/
theorem Family.splits {c : Config} (valid : c.validate = .ok ()) (half : c.maxFraction ≤ 127)
    (isLimits : d.limits = .ofConfig c) (shows_ : s.Shows d) (family : Family d tree parent index page number row) {olds : List Page} (inside : index ≤ parent.cellCount)
    (read : siblings parent index page (min (index + 2) parent.cellCount + 1 - (index - 2)) (index - 2) s =
      .ok olds t)
    (gathered : gather d.limits parent (index - 2) olds = .ok cells) :
    ∃ spans, distribute (cells.map fun cell => cell.size + pointerSize)
        (d.limits.usableSize - page.kind.headerSize) (page.kind != .tableLeaf) = .ok spans ∧
      Splits cells page.kind d.pageSize d.limits.usableSize spans := by
  have count : parent.cellCount = row.cells.length := family.above.count family.clear
  have length : (row.window (index - 2) (min (index + 2) row.cells.length)).cells.length =
      min (index + 2) row.cells.length - (index - 2) := by
    unfold Row.window
    rw [List.length_take, List.length_drop]
    omega
  rw [count] at inside read
  have range : index - 2 + (min (index + 2) row.cells.length + 1 - (index - 2)) =
      min (index + 2) row.cells.length + 1 := by omega
  obtain ⟨-, -, mirrors, -⟩ := siblings_ok family shows_ range (by omega) (Nat.min_le_right _ _) read
  have oldsLength := mirrors.length_eq
  rw [Row.length_kids, length] at oldsLength
  have held := gather_ok family.above family.clear (by omega) (Nat.min_le_right _ _)
    (mirrors.imp fun _ _ mirrors => mirrors.yields) gathered
  have sound := shows_.disk_sound
  obtain ⟨own, -, pageSize, -, limits, -⟩ := sound.config
  have usable : d.limits.usableSize ≤ d.pageSize := by
    rw [limits, pageSize]
    exact Nat.sub_le _ _
  rw [show page.kind = _ from family.focus.is.kind]
  exact held_splits sound.fair (isLimits ▸ PayloadLimits.roomy_of_config valid half) usable held

/-- The bound is needed: with 512-byte pages and the share 255 a key of 300 bytes stays whole, two
of its cells do not fit on a page, and with one of them promoted nothing is left behind it. -/
example : distribute [304, 304] (512 - PageKind.indexLeaf.headerSize) true = .error .noSplit := by
  cbv

end Siblings

end TreeFile
