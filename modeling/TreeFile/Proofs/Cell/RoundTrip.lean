import TreeFile.Proofs.Cell.Forms
import TreeFile.Proofs.Store.DiskPages
import TreeFile.Total

/-!
A cell that was made is read back as it was made, wherever it lies, and the chain it asks for has
just the room for what it could not keep.
-/

namespace TreeFile

namespace PayloadLimits

variable {p : PayloadLimits} {rest : Nat}

theorem total_replicate (n size : Nat) : total (List.replicate n size) = n * size := by
  induction n with
  | zero => rw [Nat.zero_mul]; rfl
  | succ n ih => rw [List.replicate_succ, total_cons, ih, Nat.succ_mul, Nat.add_comm]

theorem total_chunks (p : PayloadLimits) (rest : Nat) : total (p.chunks rest) = rest := by
  have parts := Nat.div_add_mod' rest (overflowCapacity p.usableSize)
  unfold chunks
  dsimp only
  split
  · rename_i even
    rw [total_replicate]
    omega
  · rw [total_append, total_replicate, total_cons, total_nil, Nat.add_zero]
    exact parts

theorem length_chunks (fair : p.Fair) (rest : Nat) :
    (p.chunks rest).length =
      (rest + overflowCapacity p.usableSize - 1) / overflowCapacity p.usableSize := by
  have usable := fair.usable
  have positive : 0 < overflowCapacity p.usableSize := by
    unfold overflowCapacity
    omega
  have parts := Nat.div_add_mod rest (overflowCapacity p.usableSize)
  have short := Nat.mod_lt rest positive
  unfold chunks
  dsimp only
  generalize overflowCapacity p.usableSize = capacity at *
  generalize rest / capacity = full at *
  split
  · rename_i even
    rw [List.length_replicate]
    symm
    apply Nat.div_eq_of_lt_le
    · rw [Nat.mul_comm]
      omega
    · rw [Nat.succ_mul, Nat.mul_comm]
      omega
  · rw [List.length_append, List.length_replicate, List.length_singleton]
    symm
    apply Nat.div_eq_of_lt_le
    · rw [Nat.succ_mul, Nat.mul_comm]
      omega
    · rw [Nat.succ_mul, Nat.succ_mul, Nat.mul_comm]
      omega

theorem chunks_full {i : Nat} (p : PayloadLimits) (inner : i + 1 < (p.chunks rest).length) :
    (p.chunks rest)[i]? = some (overflowCapacity p.usableSize) := by
  unfold chunks at inner ⊢
  dsimp only at inner ⊢
  split at inner
  · rename_i even
    rw [List.length_replicate] at inner
    rw [if_pos even, List.getElem?_replicate, if_pos (by omega)]
  · rename_i more
    rw [List.length_append, List.length_replicate, List.length_singleton] at inner
    rw [if_neg more, List.getElem?_append_left (by rw [List.length_replicate]; omega),
      List.getElem?_replicate, if_pos (by omega)]

end PayloadLimits

namespace Cell

variable {p : PayloadLimits} {kind : PageKind}

theorem lies_between (before c after : Bytes) :
    (before ++ c ++ after).window.Lies before.size c := by
  refine ⟨⟨?_, ?_⟩, ?_⟩
  · simp only [Bytes.window, ByteArray.size_append]
    omega
  · intro k hk
    simp only [Bytes.window]
    rw [Bytes.get_append, if_pos (by rw [ByteArray.size_append]; omega), Bytes.get_append,
      if_neg (by omega), Nat.add_sub_cancel_left]
  · simp only [Bytes.window, ByteArray.size_append]
    omega

/-- `info`, which was read in `d`, says that a cell of `size` bytes holds `slot`. -/
structure ReadsAs (d : Bytes) (info : CellInfo) (size : Nat) (slot : Slot) : Prop where
  left : info.leftChild = slot.left
  row : info.key = slot.stub.row
  payloadSize : info.payloadSize = slot.stub.size
  head : info.overflowPage = slot.stub.head
  size : info.size = size
  kept : info.kept = slot.stub.kept.size
  payload : d.extract info.payloadStart (info.payloadStart + info.kept) = slot.stub.kept

theorem Holds.decode_between {c : Bytes} {slot : Slot} (holds : Holds p kind c slot)
    (before after : Bytes) :
    ∃ info, decode (before ++ c ++ after).window before.size kind p = .ok info ∧
      ReadsAs (before ++ c ++ after) info c.size slot := by
  obtain ⟨info, reads, rfl⟩ := holds
  have inside := reads.kept_inside
  have lies := lies_between before c after
  refine ⟨_, reads.decode_lies lies, rfl, rfl, rfl, rfl, reads.2, ?_, ?_⟩
  · simp only [CellInfo.slot, CellInfo.stub]
    rw [Bytes.size_extract_of_le inside]
    omega
  · simp only [CellInfo.slot, CellInfo.stub]
    rw [Nat.add_assoc]
    exact lies.1.extract_inside (by omega) inside

variable {left : Option PageNo} {row : RowId} {payload : Bytes} {cell : EncodedCell}

/-- What a cell does not keep is shared out among the pages of its chain. -/
structure Accounts (p : PayloadLimits) (payload : Bytes) (cell : EncodedCell) : Prop where
  kept : cell.kept ≤ payload.size
  spills : cell.spills = true ↔ cell.kept < payload.size
  chunks : cell.chunks = p.chunks (payload.size - cell.kept)

theorem encode_accounts (fair : p.Fair) (divider : kind = .tableInterior → payload.size = 0)
    (run : encode kind p left row payload = .ok cell) : Accounts p payload cell := by
  have whole : ∀ {size : Nat}, size ≤ 0 → [] = p.chunks size := by
    intro size none
    rw [Nat.le_zero.mp none]
    unfold PayloadLimits.chunks
    dsimp only
    rw [Nat.zero_mod, if_pos rfl, Nat.zero_div]
    rfl
  by_cases entry : kind = .tableInterior
  · have empty := divider entry
    subst entry
    obtain ⟨child, -, run⟩ := Except.bind_ok.mp run
    cases run
    refine ⟨Nat.zero_le _, ⟨nofun, fun more => ?_⟩, whole (by omega)⟩
    exact absurd more (by omega)
  · have short := fair.kept_le kind payload.size
    obtain ⟨child, -, -, made⟩ := encode_ok entry run
    split at made
    · rename_i spills
      subst made
      exact ⟨short, ⟨fun _ => spills, fun _ => rfl⟩, rfl⟩
    · rename_i all
      subst made
      exact ⟨short, ⟨nofun, fun more => absurd more all⟩, whole (by dsimp only; omega)⟩

theorem exists_encode (p : PayloadLimits) (row : RowId) (child : kind.isLeaf = false → left.isSome = true)
    (small : payload.size < 4294967296) : ∃ cell, encode kind p left row payload = .ok cell := by
  obtain ⟨bytes, before⟩ : ∃ bytes, childBytes kind left = .ok bytes := by
    unfold childBytes
    split
    · exact ⟨_, rfl⟩
    · rename_i interior
      obtain ⟨page, rfl⟩ := Option.isSome_iff_exists.mp (child (Bool.eq_false_iff.mpr interior))
      exact ⟨_, rfl⟩
  unfold encode
  rw [before, Except.ok_bind]
  split
  · exact ⟨_, rfl⟩
  · rw [if_neg (Nat.not_le_of_lt small)]
    dsimp only
    split <;> exact ⟨_, rfl⟩

/-- The cell as it goes to its page, with the first page of its chain if it has one. -/
def finished (cell : EncodedCell) (page : PageNo) : Except Error EncodedCell :=
  if cell.spills then cell.linkTo page else .ok cell

theorem finished_holds {page : PageNo} (fair : p.Fair) (child : ∀ n, left = some n → n < 4294967296)
    (divider : kind = .tableInterior → payload.size = 0) (nonzero : page ≠ 0) (fits : page < 4294967296)
    (run : encode kind p left row payload = .ok cell) :
    ∃ linked, finished cell page = .ok linked ∧ Holds p kind linked.bytes
      ⟨if kind.isLeaf then none else left,
        ⟨if kind.hasRowIds then row else .ofStored payload.size, payload.size, payload.extract 0 cell.kept,
          if cell.spills then some page else none⟩⟩ := by
  by_cases entry : kind = .tableInterior
  · have empty := divider entry
    subst entry
    cases left with
    | none => cases run
    | some n =>
      have holds := encode_divider (child n rfl) run
      cases run
      refine ⟨_, rfl, ?_⟩
      rw [empty, Bytes.extract_self]
      exact holds
  · obtain ⟨-, holds⟩ := encode_holds fair entry child run
    split at holds
    · obtain ⟨spills, kept, holds⟩ := holds
      obtain ⟨slot, has⟩ := Option.isSome_iff_exists.mp spills
      have link : cell.linkTo page =
          .ok { cell with bytes := cell.bytes.overwrite slot (Bytes.ofNat32 page) } := by
        unfold EncodedCell.linkTo
        rw [has]
      refine ⟨_, by rw [finished, if_pos spills]; exact link, ?_⟩
      have made := holds page _ nonzero fits link
      rw [kept, spills]
      exact made
    · rename_i whole
      obtain ⟨spills, holds⟩ := holds
      refine ⟨cell, by rw [finished, spills]; rfl, ?_⟩
      have kept : cell.kept = p.kept kind payload.size := by
        obtain ⟨bytes, -, -, made⟩ := encode_ok entry run
        rw [if_neg whole] at made
        rw [made]
      rw [kept, spills]
      exact holds

/-- A cell that is made and linked reads, between any other bytes, as what it was made of. It is
linked to a chain if it could not keep all of its payload. The chain carries the rest, and only its
last page may have room left. -/
theorem decode_encode {c : Config} (valid : c.validate = .ok ()) (kind : PageKind) (left : Option PageNo)
    (row : RowId) (payload : Bytes) (page : PageNo) (child : kind.isLeaf = false → left.isSome = true)
    (childFits : ∀ n, left = some n → n < 4294967296) (small : payload.size < 4294967296)
    (divider : kind = .tableInterior → payload.size = 0) (nonzero : page ≠ 0)
    (fits : page < 4294967296) (before after : Bytes) :
    let p := PayloadLimits.ofConfig c
    ∃ cell linked info, encode kind p left row payload = .ok cell ∧ finished cell page = .ok linked ∧
      decode (before ++ linked.bytes ++ after).window before.size kind p = .ok info ∧
      info.leftChild = (if kind.isLeaf then none else left) ∧
      info.key = (if kind.hasRowIds then row else .ofStored payload.size) ∧
      info.payloadSize = payload.size ∧ info.kept = cell.kept ∧ cell.kept ≤ payload.size ∧
      info.overflowPage = (if cell.kept < payload.size then some page else none) ∧
      info.size = linked.bytes.size ∧
      (before ++ linked.bytes ++ after).extract info.payloadStart (info.payloadStart + info.kept) =
        payload.extract 0 info.kept ∧
      total cell.chunks = info.payloadSize - info.kept ∧
      cell.chunks.length = p.chainLength info.payloadSize info.kept ∧
      ∀ i, i + 1 < cell.chunks.length → cell.chunks[i]? = some (overflowCapacity c.usableSize) := by
  intro p
  have fair : p.Fair := PayloadLimits.fair_of_config valid
  obtain ⟨cell, made⟩ := exists_encode p row child small
  have accounts := encode_accounts fair divider made
  obtain ⟨linked, finish, holds⟩ := finished_holds fair childFits divider nonzero fits made
  obtain ⟨info, read, readsAs⟩ := holds.decode_between before after
  have kept : info.kept = cell.kept := by
    rw [readsAs.kept, Bytes.size_extract_of_le accounts.kept, Nat.sub_zero]
  have payloadSize : info.payloadSize = payload.size := readsAs.payloadSize
  have head : info.overflowPage = if cell.kept < payload.size then some page else none := by
    rw [readsAs.head]
    simp only [accounts.spills]
  refine ⟨cell, linked, info, made, finish, read, readsAs.left, readsAs.row, payloadSize, kept,
    accounts.kept, head, readsAs.size, ?_, ?_, ?_, ?_⟩
  · rw [readsAs.payload, kept]
  · rw [accounts.chunks, PayloadLimits.total_chunks, payloadSize, kept]
  · rw [accounts.chunks, PayloadLimits.length_chunks fair, payloadSize, kept]
    rfl
  · intro i inner
    rw [accounts.chunks] at inner ⊢
    exact PayloadLimits.chunks_full p inner

theorem decode_encode_long_row : (Bytes.zeros 600).size < 4294967296 ∧
    ∃ cell linked info,
      encode .tableLeaf (.ofConfig { pageSize := 512 }) none 7 (Bytes.zeros 600) = .ok cell ∧
      finished cell 3 = .ok linked ∧
      decode (Bytes.zeros 9 ++ linked.bytes ++ Bytes.zeros 1).window 9 .tableLeaf
        (.ofConfig { pageSize := 512 }) = .ok info ∧
      info.key = 7 ∧ info.payloadSize = 600 ∧ info.kept = cell.kept ∧
      info.overflowPage = (if cell.kept < 600 then some 3 else none) ∧
      total cell.chunks = 600 - info.kept := by
  have size : (Bytes.zeros 600).size = 600 := Bytes.size_zeros 600
  obtain ⟨cell, linked, info, made, finish, read, -, row, payload, kept, -, head, -, -, sum, -⟩ :=
    decode_encode (c := { pageSize := 512 }) (by decide) .tableLeaf none 7 (Bytes.zeros 600) 3 nofun nofun
      (by rw [size]; decide) nofun (by decide) (by decide) (Bytes.zeros 9) (Bytes.zeros 1)
  rw [size] at payload head
  rw [payload] at sum
  rw [Bytes.size_zeros] at read
  exact ⟨by rw [size]; decide, cell, linked, info, made, finish, read, row, payload, kept, head, sum⟩

end Cell

end TreeFile
