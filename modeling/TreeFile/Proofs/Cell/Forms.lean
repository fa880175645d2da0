import TreeFile.Proofs.Cell.Index

/-!
The forms a cell takes. A cell that moves between the levels of a tree changes the page on its
left and its layout, but the stub of its entry stays the same.
-/

namespace TreeFile

/-- What a cell has of an entry: the row number, the payload size, the payload bytes it keeps and
the first page of the chain with the rest. -/
structure Stub where
  row : RowId
  size : Nat
  kept : Bytes
  head : Option PageNo
deriving DecidableEq, Inhabited

structure Slot where
  left : Option PageNo
  stub : Stub
deriving DecidableEq, Inhabited

def CellInfo.stub (info : CellInfo) (c : Bytes) : Stub where
  row := info.key
  size := info.payloadSize
  kept := c.extract info.payloadStart (info.payloadStart + info.kept)
  head := info.overflowPage

def CellInfo.slot (info : CellInfo) (c : Bytes) : Slot := ⟨info.leftChild, info.stub c⟩

namespace Cell

def Holds (p : PayloadLimits) (kind : PageKind) (c : Bytes) (slot : Slot) : Prop :=
  ∃ info, Says p kind c info ∧ slot = info.slot c

def slot? (p : PayloadLimits) (kind : PageKind) (c : Bytes) : Option Slot :=
  match decode c.window 0 kind p with
  | .ok info => if info.size = c.size then some (info.slot c) else none
  | .error _ => none

theorem slot?_eq {p : PayloadLimits} {kind : PageKind} {c : Bytes} {slot : Slot} :
    slot? p kind c = some slot ↔ Holds p kind c slot := by
  unfold slot?
  constructor
  · intro found
    split at found
    · rename_i info run
      split at found
      · rename_i size
        cases found
        exact ⟨info, ⟨run, size⟩, rfl⟩
      · cases found
    · cases found
  · rintro ⟨info, ⟨run, size⟩, rfl⟩
    rw [run]
    exact if_pos size

/-- From `start` on `c` has a payload of `size` bytes, as far as a cell of this kind keeps it, and
then the first page of its chain. -/
structure Carries (p : PayloadLimits) (kind : PageKind) (c : Bytes) (start size : Nat)
    (head : Option PageNo) : Prop where
  link : if p.kept kind size < size then
      ∃ page, head = some page ∧ page ≠ 0 ∧ c.at32 (start + p.kept kind size) = page
    else head = none
  inside : contentEnd start size (p.kept kind size) ≤ c.size
  padded : c.size = max (contentEnd start size (p.kept kind size)) minCellSize

theorem decodePayload_carries {p : PayloadLimits} {kind : PageKind} {c : Bytes}
    {start info : CellInfo} :
    (decodePayload c.window 0 kind p start = .ok info ∧ info.size = c.size) ↔
      ∃ head, Carries p kind c start.payloadStart start.payloadSize head ∧
        info = { start with
          kept := p.kept kind start.payloadSize, overflowPage := head, size := c.size } := by
  rw [decodePayload_ok]
  constructor
  · rintro ⟨⟨head, link, short, rfl⟩, size⟩
    dsimp only [Nat.sub_zero] at size
    refine ⟨head, ⟨link_imp link fun _ page found => (window_u32?.mp found).2, short, size.symm⟩, ?_⟩
    rw [← size]
    rfl
  · rintro ⟨head, carries, rfl⟩
    refine ⟨⟨head, link_imp carries.link fun spills page found => ?_, carries.inside, ?_⟩, rfl⟩
    · have inside := carries.inside
      unfold contentEnd at inside
      rw [if_pos spills] at inside
      exact window_u32?.mpr ⟨inside, found⟩
    · rw [Nat.sub_zero, ← carries.padded]

theorem Carries.decoded {p : PayloadLimits} {kind : PageKind} {c : Bytes} {head : Option PageNo}
    (start : CellInfo) (carries : Carries p kind c start.payloadStart start.payloadSize head) :
    decodePayload c.window 0 kind p start = .ok { start with
      kept := p.kept kind start.payloadSize, overflowPage := head, size := c.size } :=
  (decodePayload_carries.mpr ⟨head, carries, rfl⟩).1

/-- The payload part may move to another string, if what comes before it there is as long as the
padding asks for. -/
theorem Carries.move {p : PayloadLimits} {kind : PageKind} {c d : Bytes} {start size : Nat}
    {head : Option PageNo} (kind' : PageKind) (start' : Nat)
    (carries : Carries p kind c start size head)
    (kept : p.kept kind' size = p.kept kind size)
    (padded : d.size = max (contentEnd start' size (p.kept kind size)) minCellSize)
    (same : ∀ k, start + k < contentEnd start size (p.kept kind size) →
      d.get! (start' + k) = c.get! (start + k)) :
    Carries p kind' d start' size head ∧
      d.extract start' (start' + p.kept kind size) =
        c.extract start (start + p.kept kind size) := by
  have inside := carries.inside
  have room : contentEnd start' size (p.kept kind size) ≤ d.size := by omega
  refine ⟨⟨?_, by rw [kept]; exact room, by rw [kept]; exact padded⟩, ?_⟩
  · rw [kept]
    refine link_imp carries.link fun spills page found => ?_
    have slot : ∀ n, n < 4 → d.get! (start' + p.kept kind size + n) =
        c.get! (start + p.kept kind size + n) := by
      intro n hn
      rw [Nat.add_assoc, Nat.add_assoc]
      apply same
      unfold contentEnd
      rw [if_pos spills]
      omega
    have first := slot 0 (by omega)
    simp only [Nat.add_zero] at first
    rw [← found]
    unfold Bytes.at32
    rw [first, slot 1 (by omega), slot 2 (by omega), slot 3 (by omega)]
  · unfold contentEnd at inside room
    apply Bytes.ext_get
    · rw [Bytes.size_extract_of_le (by omega), Bytes.size_extract_of_le (by omega)]
      omega
    · intro k hk
      rw [Bytes.size_extract_of_le (by omega)] at hk
      rw [Bytes.get_extract, Bytes.get_extract, if_pos (by omega), if_pos (by omega)]
      apply same
      unfold contentEnd
      omega

theorem Carries.kept_inside {p : PayloadLimits} {kind : PageKind} {c : Bytes} {start size : Nat}
    {head : Option PageNo} (carries : Carries p kind c start size head) : start + p.kept kind size ≤ c.size :=
  Nat.le_trans (Nat.le_add_right _ _) carries.inside

theorem Carries.size_ge {p : PayloadLimits} {kind : PageKind} {c : Bytes} {start size : Nat}
    {head : Option PageNo} (carries : Carries p kind c start size head) : minCellSize ≤ c.size :=
  Nat.le_trans (Nat.le_max_right _ _) (Nat.le_of_eq carries.padded.symm)

theorem reads_tableInterior {p : PayloadLimits} {c : Bytes} {info : CellInfo} :
    Says p .tableInterior c info ↔
      ∃ row n, Varint.decode? c.window 4 = some (row, n) ∧ c.size = 4 + n ∧
        info = {
          leftChild := some (c.at32 0), key := .ofStored row, headerSize := 4 + n, size := 4 + n,
          payloadStart := 4 + n } := by
  unfold Says
  rw [decode_tableInterior]
  constructor
  · rintro ⟨⟨child, row, n, hchild, hrow, rfl⟩, size⟩
    obtain ⟨-, rfl⟩ := window_u32?.mp hchild
    rw [Nat.zero_add] at hrow
    refine ⟨row, n, hrow, size.symm, ?_⟩
    rw [Nat.zero_add]
  · rintro ⟨row, n, hrow, size, rfl⟩
    refine ⟨⟨_, row, n, window_u32?.mpr ⟨by omega, rfl⟩, ?_, ?_⟩, size.symm⟩
    · rw [Nat.zero_add]
      exact hrow
    · rw [Nat.zero_add]

theorem reads_tableLeaf {p : PayloadLimits} {c : Bytes} {info : CellInfo} :
    Says p .tableLeaf c info ↔
      ∃ size n row m head, Varint.decode? c.window 0 = some (size, n) ∧ size < 4294967296 ∧
        Varint.decode? c.window n = some (row, m) ∧ Carries p .tableLeaf c (n + m) size head ∧
        info = {
          key := .ofStored row, payloadSize := size, kept := p.kept .tableLeaf size,
          headerSize := n + m, size := c.size, overflowPage := head, payloadStart := n + m } := by
  unfold Says
  rw [decode_tableLeaf]
  constructor
  · rintro ⟨⟨size, n, row, m, hsize, small, hrow, run⟩, total⟩
    rw [Nat.zero_add] at hrow run
    obtain ⟨head, carries, rfl⟩ := decodePayload_carries.mp ⟨run, total⟩
    exact ⟨size, n, row, m, head, hsize, small, hrow, carries, rfl⟩
  · rintro ⟨size, n, row, m, head, hsize, small, hrow, carries, rfl⟩
    refine ⟨⟨size, n, row, m, hsize, small, ?_, ?_⟩, rfl⟩
    · rw [Nat.zero_add]
      exact hrow
    · rw [Nat.zero_add]
      exact Carries.decoded _ carries

theorem reads_indexLeaf {p : PayloadLimits} {c : Bytes} {info : CellInfo} :
    Says p .indexLeaf c info ↔
      ∃ size n head, Varint.decode? c.window 0 = some (size, n) ∧ size < 4294967296 ∧
        Carries p .indexLeaf c n size head ∧
        info = {
          key := .ofStored size, payloadSize := size, kept := p.kept .indexLeaf size,
          headerSize := n, size := c.size, overflowPage := head, payloadStart := n } := by
  unfold Says
  rw [decode_indexLeaf]
  constructor
  · rintro ⟨⟨size, n, hsize, small, run⟩, total⟩
    rw [Nat.zero_add] at run
    obtain ⟨head, carries, rfl⟩ := decodePayload_carries.mp ⟨run, total⟩
    exact ⟨size, n, head, hsize, small, carries, rfl⟩
  · rintro ⟨size, n, head, hsize, small, carries, rfl⟩
    refine ⟨⟨size, n, hsize, small, ?_⟩, rfl⟩
    rw [Nat.zero_add]
    exact Carries.decoded _ carries

theorem reads_indexInterior {p : PayloadLimits} {c : Bytes} {info : CellInfo} :
    Says p .indexInterior c info ↔
      ∃ size n head, Varint.decode? c.window 4 = some (size, n) ∧ size < 4294967296 ∧
        Carries p .indexInterior c (4 + n) size head ∧
        info = {
          leftChild := some (c.at32 0), key := .ofStored size, payloadSize := size,
          kept := p.kept .indexInterior size, headerSize := 4 + n, size := c.size,
          overflowPage := head, payloadStart := 4 + n } := by
  unfold Says
  rw [decode_indexInterior]
  constructor
  · rintro ⟨⟨child, size, n, hchild, hsize, small, run⟩, total⟩
    obtain ⟨-, rfl⟩ := window_u32?.mp hchild
    rw [Nat.zero_add] at hsize run
    obtain ⟨head, carries, rfl⟩ := decodePayload_carries.mp ⟨run, total⟩
    exact ⟨size, n, head, hsize, small, carries, rfl⟩
  · rintro ⟨size, n, head, hsize, small, carries, rfl⟩
    have inside := carries.inside
    unfold contentEnd at inside
    refine ⟨⟨_, size, n, window_u32?.mpr ⟨by omega, rfl⟩, ?_, small, ?_⟩, rfl⟩
    · rw [Nat.zero_add]
      exact hsize
    · rw [Nat.zero_add]
      exact Carries.decoded _ carries

theorem Says.kept_inside {p : PayloadLimits} {kind : PageKind} {c : Bytes} {info : CellInfo}
    (reads : Says p kind c info) : info.payloadStart + info.kept ≤ c.size := by
  cases kind with
  | tableInterior =>
    obtain ⟨row, n, -, size, rfl⟩ := reads_tableInterior.mp reads
    exact Nat.le_of_eq size.symm
  | tableLeaf =>
    obtain ⟨size, n, row, m, head, -, -, -, carries, rfl⟩ := reads_tableLeaf.mp reads
    exact carries.kept_inside
  | indexLeaf =>
    obtain ⟨size, n, head, -, -, carries, rfl⟩ := reads_indexLeaf.mp reads
    exact carries.kept_inside
  | indexInterior =>
    obtain ⟨size, n, head, -, -, carries, rfl⟩ := reads_indexInterior.mp reads
    exact carries.kept_inside

theorem Holds.size_ge {p : PayloadLimits} {kind : PageKind} {c : Bytes} {slot : Slot}
    (holds : Holds p kind c slot) : 4 ≤ c.size := by
  obtain ⟨info, reads, -⟩ := holds
  cases kind with
  | tableInterior =>
    obtain ⟨row, n, -, size, -⟩ := reads_tableInterior.mp reads
    omega
  | tableLeaf =>
    obtain ⟨size, n, row, m, head, -, -, -, carries, -⟩ := reads_tableLeaf.mp reads
    exact carries.size_ge
  | indexLeaf =>
    obtain ⟨size, n, head, -, -, carries, -⟩ := reads_indexLeaf.mp reads
    exact carries.size_ge
  | indexInterior =>
    obtain ⟨size, n, head, -, -, carries, -⟩ := reads_indexInterior.mp reads
    exact carries.size_ge

theorem Holds.left_interior {p : PayloadLimits} {kind : PageKind} {c : Bytes} {slot : Slot}
    (holds : Holds p kind c slot) (interior : kind.isLeaf = false) :
    slot.left = some (c.at32 0) := by
  obtain ⟨info, reads, rfl⟩ := holds
  cases kind with
  | tableInterior =>
    obtain ⟨row, n, -, -, rfl⟩ := reads_tableInterior.mp reads
    rfl
  | indexInterior =>
    obtain ⟨size, n, head, -, -, -, rfl⟩ := reads_indexInterior.mp reads
    rfl
  | tableLeaf => cases interior
  | indexLeaf => cases interior

theorem Holds.left_leaf {p : PayloadLimits} {kind : PageKind} {c : Bytes} {slot : Slot}
    (holds : Holds p kind c slot) (leaf : kind.isLeaf = true) : slot.left = none := by
  obtain ⟨info, reads, rfl⟩ := holds
  cases kind with
  | tableLeaf =>
    obtain ⟨size, n, row, m, head, -, -, -, -, rfl⟩ := reads_tableLeaf.mp reads
    rfl
  | indexLeaf =>
    obtain ⟨size, n, head, -, -, -, rfl⟩ := reads_indexLeaf.mp reads
    rfl
  | tableInterior => cases leaf
  | indexInterior => cases leaf

theorem leftChild_ok {c : Bytes} {child : PageNo} :
    leftChild c = .ok child ↔ 4 ≤ c.size ∧ c.at32 0 = child := by
  unfold leftChild
  rw [Bytes.u32?_eq, Nat.zero_add]
  by_cases fits : 4 ≤ c.size
  · simp only [fits, if_true, true_and, Except.ok.injEq]
  · simp only [fits, if_false, false_and, reduceCtorEq]

theorem Body.stub_leaf {p : PayloadLimits} {c t : Bytes} {size n : Nat} {head : Option PageNo}
    (body : Body p t size n head) (has : c.HasAt 0 t) :
    (leafInfo p t size n head).stub c =
      ⟨.ofStored size, size, t.extract n (n + p.kept .indexLeaf size), head⟩ := by
  have same := has.extract_inside (Nat.le_add_right n _) body.kept_inside
  rw [Nat.zero_add, Nat.zero_add] at same
  simp only [CellInfo.stub, leafInfo, same]

theorem Body.stub_interior {p : PayloadLimits} {c t : Bytes} {size n : Nat} {head : Option PageNo}
    (body : Body p t size n head) (has : c.HasAt 4 t) (child : PageNo) :
    (interiorInfo p child t size n head).stub c =
      ⟨.ofStored size, size, t.extract n (n + p.kept .indexLeaf size), head⟩ := by
  have same := has.extract_inside (Nat.le_add_right n _) body.kept_inside
  simp only [CellInfo.stub, interiorInfo, Nat.add_assoc, same]

theorem Holds.setLeft {p : PayloadLimits} {kind : PageKind} {c d : Bytes} {slot : Slot}
    {child : PageNo} (holds : Holds p kind c slot) (interior : kind.isLeaf = false)
    (small : child < 4294967296) (run : setLeftChild child c = .ok () d) :
    Holds p kind d { slot with left := some child } ∧ d.size = c.size := by
  obtain ⟨fits, rfl⟩ := Bytes.putU32_ok.mp run
  have room : 0 + (Bytes.ofNat32 child).size ≤ c.size := fits
  have size := Bytes.size_overwrite room
  have left : (c.overwrite 0 (Bytes.ofNat32 child)).at32 0 = child := by
    rw [Bytes.at32_overwrite_same fits, Nat.mod_eq_of_lt small]
  have rest : ∀ k, 4 ≤ k → (c.overwrite 0 (Bytes.ofNat32 child)).get! k = c.get! k := by
    intro k hk
    rw [Bytes.get_overwrite room, if_neg]
    simp only [Bytes.size_ofNat32]
    omega
  refine ⟨?_, size⟩
  obtain ⟨info, reads, rfl⟩ := holds
  cases kind with
  | tableLeaf => cases interior
  | indexLeaf => cases interior
  | tableInterior =>
    obtain ⟨row, n, hrow, total, rfl⟩ := reads_tableInterior.mp reads
    have moved := Varint.decode?_overwrite room (.inr (Nat.le_refl 4)) hrow
    refine ⟨_, reads_tableInterior.mpr ⟨row, n, moved, by omega, rfl⟩, ?_⟩
    simp only [CellInfo.slot, CellInfo.stub, left, Nat.add_zero, Bytes.extract_self]
  | indexInterior =>
    obtain ⟨t, payload, n, head, body, has, rfl⟩ := decode_indexInterior_body.mp reads.1
    have length : 4 + t.size = c.size := reads.2
    have stays := has.of_sameOn size fun k low _ => rest k low
    refine ⟨_, ⟨decode_indexInterior_body.mpr ⟨t, payload, n, head, body, stays, rfl⟩,
      length.trans size.symm⟩, ?_⟩
    unfold CellInfo.slot
    rw [body.stub_interior has, body.stub_interior stays, left]
    rfl

theorem leafToInterior_holds {p : PayloadLimits} {c d : Bytes} {slot : Slot} {child : PageNo}
    (holds : Holds p .indexLeaf c slot) (small : child < 4294967296)
    (run : leafToInterior c p child = .ok d) :
    Holds p .indexInterior d { slot with left := some child } := by
  obtain ⟨info, reads, rfl⟩ := holds
  obtain ⟨t, size, n, head, body, has, rfl⟩ := decode_indexLeaf_body.mp reads.1
  rw [leafToInterior_body body has] at run
  cases run
  have above := hasAt_interior child t
  refine ⟨_, ⟨decode_indexInterior_body.mpr ⟨t, size, n, head, body, above, rfl⟩, ?_⟩, ?_⟩
  · rw [ByteArray.size_append, Bytes.size_ofNat32]
    rfl
  · unfold CellInfo.slot
    rw [body.stub_leaf has, body.stub_interior above, at32_interior small]
    rfl

theorem interiorToLeaf_holds {p : PayloadLimits} {c d : Bytes} {slot : Slot}
    (holds : Holds p .indexInterior c slot) (run : interiorToLeaf c p = .ok d) :
    Holds p .indexLeaf d { slot with left := none } := by
  obtain ⟨info, reads, rfl⟩ := holds
  obtain ⟨t, size, n, head, body, has, rfl⟩ := decode_indexInterior_body.mp reads.1
  rw [interiorToLeaf_body body has] at run
  cases run
  refine ⟨_, ⟨decode_indexLeaf_body.mpr ⟨t, size, n, head, body, hasAt_pad t, rfl⟩, (size_pad t).symm⟩, ?_⟩
  unfold CellInfo.slot
  rw [body.stub_interior has, body.stub_leaf (hasAt_pad t)]
  rfl

def newStub (p : PayloadLimits) (kind : PageKind) (row : RowId) (payload : Bytes)
    (head : Option PageNo) : Stub where
  row := if kind.hasRowIds then row else .ofStored payload.size
  size := payload.size
  kept := payload.extract 0 (p.kept kind payload.size)
  head := head

theorem ofStored_stored (row : RowId) : RowId.ofStored row.stored = row := by
  unfold RowId.ofStored RowId.stored
  rw [UInt64.ofNat_toNat]
  exact Int64.toInt64_toUInt64 row

theorem stored_lt (row : RowId) : row.stored < 18446744073709551616 :=
  row.toUInt64.toNat_lt

theorem encode_divider {p : PayloadLimits} {child : PageNo} {row : RowId} {payload : Bytes}
    {cell : EncodedCell} (small : child < 4294967296)
    (run : encode .tableInterior p (some child) row payload = .ok cell) :
    Holds p .tableInterior cell.bytes ⟨some child, ⟨row, 0, .empty, none⟩⟩ := by
  cases run
  have size : (Bytes.ofNat32 child ++ Varint.encode row.stored).size =
      4 + Varint.length row.stored := by
    rw [ByteArray.size_append, Bytes.size_ofNat32, Varint.size_encode]
  have whole := Bytes.hasAt_self (Bytes.ofNat32 child ++ Varint.encode row.stored)
  have left := Bytes.at32_of_hasAt whole.append_left
  rw [Nat.mod_eq_of_lt small] at left
  have stored := Varint.decode?_of_hasAt (stored_lt row) whole.append_right
  rw [Bytes.size_ofNat32] at stored
  refine ⟨_, reads_tableInterior.mpr ⟨_, _, stored, size, rfl⟩, ?_⟩
  simp only [CellInfo.slot, CellInfo.stub, left, ofStored_stored, Nat.add_zero, Bytes.extract_self]

/-- The bytes `d` begin with `content`, have room behind it for a link if one is needed, and are
padded. -/
structure Laid (d content : Bytes) (link : Option PageNo) : Prop where
  begins : d.HasAt 0 content
  size : d.size = max (content.size + if link.isSome then 4 else 0) minCellSize
  link : ∀ page, link = some page → d.at32 content.size = page

theorem laid_whole (content : Bytes) : Laid (pad content) content none where
  begins := hasAt_pad content
  size := by
    rw [size_pad]
    rfl
  link := by
    intro page none
    cases none

theorem laid_linked (content : Bytes) {page : PageNo} (small : page < 4294967296) :
    Laid ((pad (content ++ Bytes.zeros 4)).overwrite content.size (Bytes.ofNat32 page)) content
      (some page) := by
  have long : (content ++ Bytes.zeros 4).size = content.size + 4 := by
    rw [ByteArray.size_append, Bytes.size_zeros]
  have padded := size_pad (content ++ Bytes.zeros 4)
  have fits : content.size + (Bytes.ofNat32 page).size ≤ (pad (content ++ Bytes.zeros 4)).size := by
    rw [Bytes.size_ofNat32]
    omega
  have size := Bytes.size_overwrite fits
  refine ⟨⟨by omega, ?_⟩, ?_, ?_⟩
  · intro k hk
    rw [Bytes.get_overwrite fits, if_neg (by omega), get_pad, Bytes.get_append,
      if_pos (by omega), Nat.zero_add]
  · rw [size, padded, long]
    rfl
  · intro found same
    cases same
    rw [Bytes.at32_overwrite_same (by rw [Bytes.size_ofNat32] at fits; exact fits),
      Nat.mod_eq_of_lt small]

/-- What the parts of a new cell add up to before its link is put in. -/
def contentOf (p : PayloadLimits) (kind : PageKind) (child : Bytes) (row : RowId)
    (payload : Bytes) : Bytes :=
  child ++ Varint.encode payload.size ++
    (if kind = .tableLeaf then Varint.encode row.stored else .empty) ++
    payload.extract 0 (p.kept kind payload.size)

theorem encode_ok {p : PayloadLimits} {kind : PageKind} {left : Option PageNo} {row : RowId}
    {payload : Bytes} {cell : EncodedCell} (entry : kind ≠ .tableInterior)
    (run : encode kind p left row payload = .ok cell) :
    ∃ child, childBytes kind left = .ok child ∧ payload.size < 4294967296 ∧
      if p.kept kind payload.size < payload.size then
        cell = ⟨pad (contentOf p kind child row payload ++ Bytes.zeros 4),
          p.kept kind payload.size, p.chunks (payload.size - p.kept kind payload.size),
          some (contentOf p kind child row payload).size⟩
      else cell = ⟨pad (contentOf p kind child row payload), p.kept kind payload.size, [], none⟩ := by
  unfold encode at run
  obtain ⟨child, hchild, run⟩ := Except.bind_ok.mp run
  rw [if_neg entry] at run
  by_cases large : payload.size ≥ UInt32.size
  · rw [if_pos large] at run
    exact absurd run Except.throw_bind_ok
  · rw [if_neg large] at run
    refine ⟨child, hchild, Nat.lt_of_not_le large, ?_⟩
    dsimp only at run
    split at run
    · rename_i spills
      rw [if_pos spills]
      exact (Except.pure_ok.mp run).symm
    · rename_i whole
      rw [if_neg whole]
      exact (Except.pure_ok.mp run).symm

theorem Laid.carries {p : PayloadLimits} {kind : PageKind} {d header payload : Bytes}
    {link : Option PageNo} (fair : p.Fair)
    (laid : Laid d (header ++ payload.extract 0 (p.kept kind payload.size)) link)
    (linked : link.isSome = true ↔ p.kept kind payload.size < payload.size)
    (nonzero : ∀ page, link = some page → page ≠ 0) :
    Carries p kind d header.size payload.size link ∧
      d.extract header.size (header.size + p.kept kind payload.size) =
        payload.extract 0 (p.kept kind payload.size) := by
  have short := fair.kept_le kind payload.size
  have keptSize : (payload.extract 0 (p.kept kind payload.size)).size =
      p.kept kind payload.size := by
    rw [Bytes.size_extract_of_le short, Nat.sub_zero]
  have total : (header ++ payload.extract 0 (p.kept kind payload.size)).size =
      header.size + p.kept kind payload.size := by
    rw [ByteArray.size_append, keptSize]
  have size := laid.size
  have stop : d.size = max (contentEnd header.size payload.size (p.kept kind payload.size))
      minCellSize := by
    rw [size, total]
    unfold contentEnd
    by_cases spills : p.kept kind payload.size < payload.size
    · rw [if_pos (linked.mpr spills), if_pos spills]
    · rw [if_neg (fun some => spills (linked.mp some)), if_neg spills]
  refine ⟨⟨?_, by omega, stop⟩, ?_⟩
  · by_cases spills : p.kept kind payload.size < payload.size
    · rw [if_pos spills]
      cases link with
      | none => cases linked.mpr spills
      | some page =>
        refine ⟨page, rfl, nonzero page rfl, ?_⟩
        rw [← total]
        exact laid.link page rfl
    · rw [if_neg spills]
      cases link with
      | none => rfl
      | some page => exact absurd (linked.mp rfl) spills
  · have part := laid.begins.append_right.extract
    rw [keptSize, Nat.zero_add] at part
    exact part

theorem Laid.holds {p : PayloadLimits} {kind : PageKind} {d child payload : Bytes}
    {left link : Option PageNo} {row : RowId} (fair : p.Fair) (entry : kind ≠ .tableInterior)
    (before : childBytes kind left = .ok child) (small : ∀ page, left = some page → page < 4294967296)
    (bound : payload.size < 4294967296)
    (laid : Laid d (contentOf p kind child row payload) link)
    (linked : link.isSome = true ↔ p.kept kind payload.size < payload.size)
    (nonzero : ∀ page, link = some page → page ≠ 0) :
    Holds p kind d ⟨if kind.isLeaf then none else left, newStub p kind row payload link⟩ := by
  have wide : payload.size < 18446744073709551616 := by omega
  obtain ⟨carries, kept⟩ := laid.carries fair linked nonzero
  have begins := laid.begins.append_left
  cases kind with
  | tableInterior => exact absurd rfl entry
  | tableLeaf =>
    cases before
    have size := Varint.decode?_of_hasAt wide begins.append_left.append_right
    have rowAt := Varint.decode?_of_hasAt (stored_lt row) begins.append_right
    simp only [ByteArray.size_append, Varint.size_encode, ByteArray.size_empty, Nat.zero_add,
      if_true] at size rowAt carries kept
    refine ⟨_, reads_tableLeaf.mpr ⟨_, _, _, _, link, size, bound, rowAt, carries, rfl⟩, ?_⟩
    simp only [CellInfo.slot, CellInfo.stub, newStub, kept, ofStored_stored, PageKind.isLeaf,
      PageKind.hasRowIds, PageKind.tree, if_true, beq_self_eq_true]
  | indexLeaf =>
    cases before
    have size := Varint.decode?_of_hasAt wide begins.append_left.append_right
    simp only [ByteArray.size_append, Varint.size_encode, ByteArray.size_empty, Nat.zero_add,
      reduceCtorEq, if_false, Nat.add_zero] at size carries kept
    refine ⟨_, reads_indexLeaf.mpr ⟨_, _, link, size, bound, carries, rfl⟩, ?_⟩
    simp only [CellInfo.slot, CellInfo.stub, newStub, kept, PageKind.isLeaf,
      PageKind.hasRowIds, PageKind.tree, if_true]
    rfl
  | indexInterior =>
    cases left with
    | none => cases before
    | some page =>
      cases before
      have leftAt := Bytes.at32_of_hasAt begins.append_left.append_left
      rw [Nat.mod_eq_of_lt (small page rfl)] at leftAt
      have size := Varint.decode?_of_hasAt wide begins.append_left.append_right
      simp only [ByteArray.size_append, Varint.size_encode, ByteArray.size_empty, Nat.zero_add,
        reduceCtorEq, if_false, Nat.add_zero, Bytes.size_ofNat32] at size carries kept
      refine ⟨_, reads_indexInterior.mpr ⟨_, _, link, size, bound, carries, rfl⟩, ?_⟩
      simp only [CellInfo.slot, CellInfo.stub, newStub, kept, leftAt]
      rfl

theorem encode_holds {p : PayloadLimits} {kind : PageKind} {left : Option PageNo} {row : RowId}
    {payload : Bytes} {cell : EncodedCell} (fair : p.Fair) (entry : kind ≠ .tableInterior)
    (small : ∀ page, left = some page → page < 4294967296)
    (run : encode kind p left row payload = .ok cell) :
    payload.size < 4294967296 ∧
      if p.kept kind payload.size < payload.size then
        cell.spills = true ∧ cell.kept = p.kept kind payload.size ∧
          ∀ page linked, page ≠ 0 → page < 4294967296 → cell.linkTo page = .ok linked →
            Holds p kind linked.bytes
              ⟨if kind.isLeaf then none else left, newStub p kind row payload (some page)⟩
      else
        cell.spills = false ∧ Holds p kind cell.bytes
          ⟨if kind.isLeaf then none else left, newStub p kind row payload none⟩ := by
  obtain ⟨child, before, bound, made⟩ := encode_ok entry run
  refine ⟨bound, ?_⟩
  split
  · rename_i spills
    rw [if_pos spills] at made
    subst made
    refine ⟨rfl, rfl, ?_⟩
    intro page linked nonzero smallPage link
    cases link
    exact (laid_linked _ smallPage).holds fair entry before small bound
      ⟨fun _ => spills, fun _ => rfl⟩ fun _ same => by
        cases same
        exact nonzero
  · rename_i whole
    rw [if_neg whole] at made
    subst made
    exact ⟨rfl, (laid_whole _).holds fair entry before small bound
      ⟨nofun, fun spills => absurd spills whole⟩ fun _ same => by cases same⟩

theorem Carries.relink {p : PayloadLimits} {kind : PageKind} {c : Bytes} {start size : Nat}
    {old : PageNo} {page : PageNo} (carries : Carries p kind c start size (some old))
    (nonzero : page ≠ 0) (small : page < 4294967296) :
    Carries p kind (c.overwrite (start + p.kept kind size) (Bytes.ofNat32 page)) start size
        (some page) ∧
      start + p.kept kind size + 4 ≤ c.size := by
  have link := carries.link
  have inside := carries.inside
  have padded := carries.padded
  split at link
  · rename_i spills
    have fits : start + p.kept kind size + (Bytes.ofNat32 page).size ≤ c.size := by
      unfold contentEnd at inside
      rw [if_pos spills] at inside
      exact inside
    have length := Bytes.size_overwrite fits
    refine ⟨⟨?_, by omega, by omega⟩, fits⟩
    rw [if_pos spills]
    refine ⟨page, rfl, nonzero, ?_⟩
    rw [Bytes.at32_overwrite_same fits, Nat.mod_eq_of_lt small]
  · cases link

theorem Holds.relink {p : PayloadLimits} {kind : PageKind} {c : Bytes} {info : CellInfo}
    {old page : PageNo} (reads : Says p kind c info) (chain : info.overflowPage = some old)
    (nonzero : page ≠ 0) (small : page < 4294967296) :
    Holds p kind (c.overwrite (info.payloadStart + info.kept) (Bytes.ofNat32 page))
        ⟨info.leftChild, { info.stub c with head := some page }⟩ ∧
      info.payloadStart + info.kept + 4 ≤ c.size := by
  cases kind with
  | tableInterior =>
    obtain ⟨row, n, -, -, rfl⟩ := reads_tableInterior.mp reads
    cases chain
  | tableLeaf =>
    obtain ⟨size, n, row, m, head, hsize, bound, hrow, carries, rfl⟩ := reads_tableLeaf.mp reads
    cases chain
    obtain ⟨linked, room⟩ := carries.relink nonzero small
    have fits : n + m + p.kept .tableLeaf size + (Bytes.ofNat32 page).size ≤ c.size := room
    have sizeAt := Varint.decode?_overwrite fits (.inl (by omega)) hsize
    have rowAt := Varint.decode?_overwrite fits (.inl (by omega)) hrow
    refine ⟨⟨_, reads_tableLeaf.mpr ⟨_, _, _, _, _, sizeAt, bound, rowAt, linked, rfl⟩, ?_⟩, room⟩
    simp only [CellInfo.slot, CellInfo.stub, Bytes.extract_overwrite fits (Or.inl (Nat.le_refl _))]
  | indexLeaf =>
    obtain ⟨size, n, head, hsize, bound, carries, rfl⟩ := reads_indexLeaf.mp reads
    cases chain
    obtain ⟨linked, room⟩ := carries.relink nonzero small
    have fits : n + p.kept .indexLeaf size + (Bytes.ofNat32 page).size ≤ c.size := room
    have sizeAt := Varint.decode?_overwrite fits (.inl (by omega)) hsize
    refine ⟨⟨_, reads_indexLeaf.mpr ⟨_, _, _, sizeAt, bound, linked, rfl⟩, ?_⟩, room⟩
    simp only [CellInfo.slot, CellInfo.stub, Bytes.extract_overwrite fits (Or.inl (Nat.le_refl _))]
  | indexInterior =>
    obtain ⟨size, n, head, hsize, bound, carries, rfl⟩ := reads_indexInterior.mp reads
    cases chain
    obtain ⟨linked, room⟩ := carries.relink nonzero small
    have fits : 4 + n + p.kept .indexInterior size + (Bytes.ofNat32 page).size ≤ c.size := room
    have sizeAt := Varint.decode?_overwrite fits (.inl (by omega)) hsize
    have leftAt := Bytes.at32_overwrite (i := 0) fits (by omega)
    refine ⟨⟨_, reads_indexInterior.mpr ⟨_, _, _, sizeAt, bound, linked, rfl⟩, ?_⟩, room⟩
    simp only [CellInfo.slot, CellInfo.stub, leftAt, Bytes.extract_overwrite fits (Or.inl (Nat.le_refl _))]

end Cell

end TreeFile
