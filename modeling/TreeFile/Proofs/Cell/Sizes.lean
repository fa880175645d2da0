import TreeFile.Proofs.Balance.Splitting
import TreeFile.Proofs.Cell.RoundTrip
import TreeFile.Proofs.WordArithmetic

/-!
How long cells are. A cell that is made, read or moved between levels is no longer than the largest one of
its kind, which has room on a page. So no page can be too small for a cell that is to be put on it.
-/

namespace TreeFile

namespace Cell

variable {p : PayloadLimits} {kind : PageKind} {left : Option PageNo} {row : RowId} {payload d : Bytes}

theorem size_childBytes {child : Bytes} (run : childBytes kind left = .ok child) :
    child.size = if kind.isLeaf then 0 else 4 := by
  unfold childBytes at run
  split at run
  · rename_i leaf
    cases run
    rw [if_pos leaf, ByteArray.size_empty]
  · rename_i interior
    rw [if_neg interior]
    cases left with
    | none => cases run
    | some page =>
      cases run
      exact Bytes.size_ofNat32 page

theorem size_contentOf (p : PayloadLimits) (kind : PageKind) (child : Bytes) (row : RowId) (payload : Bytes) :
    (contentOf p kind child row payload).size ≤ child.size + 9 + (if kind = .tableLeaf then 9 else 0) +
      p.kept kind payload.size := by
  have size := Varint.length_pos payload.size
  have key := Varint.length_pos row.stored
  have kept : (payload.extract 0 (p.kept kind payload.size)).size ≤ p.kept kind payload.size := by
    rw [ByteArray.size_extract]
    exact Nat.min_le_left _ _
  unfold contentOf
  rw [ByteArray.size_append, ByteArray.size_append, ByteArray.size_append, Varint.size_encode]
  split
  · rw [Varint.size_encode]
    omega
  · rw [ByteArray.size_empty]
    omega

theorem encode_size_le {cell : EncodedCell} (fair : p.Fair) (run : encode kind p left row payload = .ok cell) :
    cell.bytes.size ≤ largest p kind := by
  by_cases entry : kind = .tableInterior
  · subst entry
    obtain ⟨child, before, run⟩ := Except.bind_ok.mp run
    cases run
    have four : child.size = 4 := size_childBytes before
    have key := Varint.length_pos row.stored
    rw [ByteArray.size_append, Varint.size_encode, four]
    exact Nat.add_le_add_left key.2 4
  · obtain ⟨child, before, -, made⟩ := encode_ok entry run
    have content := size_contentOf p kind child row payload
    have kept := fair.kept_le_bound kind payload.size
    have padded : cell.bytes.size ≤ max ((contentOf p kind child row payload).size + 4) minCellSize := by
      split at made
      · subst made
        have size := size_pad (contentOf p kind child row payload ++ Bytes.zeros 4)
        rw [ByteArray.size_append, Bytes.size_zeros] at size
        exact Nat.le_of_eq size
      · subst made
        have size := size_pad (contentOf p kind child row payload)
        dsimp only
        omega
    rw [size_childBytes before] at content
    unfold minCellSize at padded
    cases kind with
    | tableInterior => exact absurd rfl entry
    | tableLeaf =>
      change _ ≤ 0 + 9 + 9 + _ at content
      change _ ≤ p.maxRow at kept
      change _ ≤ p.maxRow + 22
      omega
    | indexLeaf =>
      change _ ≤ 0 + 9 + 0 + _ at content
      change _ ≤ p.maxIndex at kept
      change _ ≤ p.maxIndex + 13
      omega
    | indexInterior =>
      change _ ≤ 4 + 9 + 0 + _ at content
      change _ ≤ p.maxIndex at kept
      change _ ≤ p.maxIndex + 17
      omega

theorem exists_leafToInterior {info : CellInfo} (fair : p.Fair) (child : PageNo)
    (run : decode d.window 0 .indexLeaf p = .ok info) :
    ∃ cell, leafToInterior d p child = .ok cell ∧ cell.size ≤ largest p .indexInterior := by
  have bound : info.size ≤ p.maxIndex + 13 := decode_size_le fair run
  obtain ⟨t, size, n, head, body, has, rfl⟩ := decode_indexLeaf_body.mp run
  have padded : t.size ≤ max t.size minCellSize := Nat.le_max_left _ _
  refine ⟨_, leafToInterior_body body has child, ?_⟩
  rw [ByteArray.size_append, Bytes.size_ofNat32]
  change _ ≤ p.maxIndex + 17
  change max t.size minCellSize ≤ _ at bound
  omega

theorem interiorToLeaf_size_le {cell : Bytes} (fair : p.Fair) (run : interiorToLeaf d p = .ok cell) :
    cell.size ≤ largest p .indexLeaf := by
  obtain ⟨info, read, -⟩ := Except.bind_ok.mp run
  have bound : info.size ≤ p.maxIndex + 17 := decode_size_le fair read
  obtain ⟨t, size, n, head, body, has, rfl⟩ := decode_indexInterior_body.mp read
  rw [interiorToLeaf_body body has] at run
  cases run
  rw [size_pad]
  unfold minCellSize
  change _ ≤ p.maxIndex + 13
  change 4 + t.size ≤ _ at bound
  omega

/-- A cell of `size` bytes has room on an empty page together with its pointer. If no key may take half a
page two cells of an index have, also where the page has the longer header. -/
structure Fits (c : Config) (kind : PageKind) (size : Nat) : Prop where
  page : size + pointerSize ≤ c.usableSize - kind.headerSize
  half : c.maxFraction ≤ 127 → kind.tree = .index → 2 * (size + pointerSize) ≤ c.usableSize - 12

theorem fits_of_le {c : Config} {size : Nat} (valid : c.validate = .ok ())
    (bound : size ≤ largest (.ofConfig c) kind) : Fits c kind size := by
  have fair := PayloadLimits.fair_of_config valid
  have pointed : size + pointerSize ≤ largest (.ofConfig c) kind + pointerSize :=
    Nat.add_le_add_right bound pointerSize
  constructor
  · exact Nat.le_trans pointed (largest_fits fair kind)
  · intro share index
    refine Nat.le_trans (Nat.mul_le_mul_left 2 pointed)
      (largest_halves fair (PayloadLimits.roomy_of_config valid share) ?_)
    rintro rfl
    cases index

/-- With valid settings the limits on payload are in order, a cell keeps no more than its limit, and both are
worked out without leaving the words. Every payload below 4 GiB can be put into a cell. Whatever is made, read,
or moved to another level has room on a page. -/
theorem cells_fit {c : Config} (valid : c.validate = .ok ()) :
    let p := PayloadLimits.ofConfig c
    p.minIndex ≤ p.maxIndex ∧ p.minRow ≤ p.maxRow ∧
      PayloadLimits.ofFractions? c.usableSize c.maxFraction c.minFraction c.leafFraction = some p ∧
      (∀ kind size, size < 4294967296 → p.kept kind size ≤ (p.bounds kind).1 ∧
        keptPayload? size (p.bounds kind).1 (p.bounds kind).2 p.usableSize = some (p.kept kind size)) ∧
      (∀ kind left row (payload : Bytes), payload.size < 4294967296 → (kind.isLeaf = false → left.isSome = true) →
        ∃ cell, encode kind p left row payload = .ok cell ∧ Fits c kind cell.bytes.size) ∧
      (∀ d i kind info, decode d i kind p = .ok info → Fits c kind info.size) ∧
      (∀ (d : Bytes) child info, decode d.window 0 .indexLeaf p = .ok info →
        ∃ cell, leafToInterior d p child = .ok cell ∧ Fits c .indexInterior cell.size) ∧
      ∀ d cell, interiorToLeaf d p = .ok cell → Fits c .indexLeaf cell.size := by
  intro p
  have fair : p.Fair := PayloadLimits.fair_of_config valid
  have usable : 480 ≤ c.usableSize := fair.usable
  refine ⟨fair.index, fair.row, ?_, ?_, ?_, ?_, ?_, ?_⟩
  · exact PayloadLimits.ofFractions?_eq (Nat.le_trans (by decide) usable) fair.large _ _ _
  · intro kind size word
    exact ⟨fair.kept_le_bound kind size,
      keptPayload?_eq (fair.bounds_le kind) (Nat.lt_of_lt_of_le (by decide) usable) word⟩
  · intro kind left row payload small child
    obtain ⟨cell, made⟩ := exists_encode p row child small
    exact ⟨cell, made, fits_of_le valid (encode_size_le fair made)⟩
  · intro d i kind info run
    exact fits_of_le valid (decode_size_le fair run)
  · intro d child info run
    obtain ⟨cell, moved, bound⟩ := exists_leafToInterior fair child run
    exact ⟨cell, moved, fits_of_le valid bound⟩
  · intro d cell run
    exact fits_of_le valid (interiorToLeaf_size_le fair run)

/-- With pages of 512 bytes and the largest share below one half a key of 600 bytes takes up to 250. -/
theorem cells_fit_long_key : ({ pageSize := 512, maxFraction := 127 } : Config).validate = .ok () ∧
    (Bytes.zeros 600).size < 4294967296 ∧
    ∃ cell, encode .indexInterior (.ofConfig { pageSize := 512, maxFraction := 127 }) (some 3) 0 (Bytes.zeros 600) =
      .ok cell ∧ 2 * (cell.bytes.size + 2) ≤ 500 := by
  have valid : ({ pageSize := 512, maxFraction := 127 } : Config).validate = .ok () := by decide
  have small : (Bytes.zeros 600).size < 4294967296 := by
    rw [Bytes.size_zeros]
    decide
  obtain ⟨-, -, -, -, made, -⟩ := cells_fit valid
  obtain ⟨cell, run, fits⟩ := made .indexInterior (some 3) 0 (Bytes.zeros 600) small (fun _ => rfl)
  exact ⟨valid, small, cell, run, fits.half (by decide) rfl⟩

end Cell

end TreeFile
