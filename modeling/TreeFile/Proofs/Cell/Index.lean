import TreeFile.Proofs.Cell.Payload
import TreeFile.Proofs.Cell.Stubs

/-!
Cells of an index. Their two layouts share a body: the size of a key, what is kept of the key, and the first page
of the chain with the rest. A leaf cell is a body that may be padded, an interior cell a body behind the page on
its left. A cell that moves between the levels of a tree keeps its body.
-/

namespace TreeFile

namespace Cell

variable {p : PayloadLimits} {kind : PageKind} {d t : Bytes} {i size n : Nat} {child : PageNo}
  {head : Option PageNo} {info : CellInfo}

theorem window_u32? {c : Bytes} {i page : Nat} :
    c.window.u32? i = some page ↔ i + 4 ≤ c.size ∧ c.at32 i = page := by
  rw [Window.u32?_eq]
  simp only [Bytes.window, and_self]
  split
  · rename_i fits
    simp only [fits, true_and, Option.some.injEq]
  · rename_i long
    simp only [long, false_and, reduceCtorEq]

theorem get_pad (d : Bytes) (i : Nat) : (pad d).get! i = d.get! i := by
  unfold pad
  split
  · rw [Bytes.get_append]
    split
    · rfl
    · rename_i past
      rw [Bytes.get_zeros, Bytes.get_of_ge (Nat.le_of_not_lt past)]
  · rfl

theorem size_pad (d : Bytes) : (pad d).size = max d.size minCellSize := by
  unfold pad
  split
  · rw [ByteArray.size_append, Bytes.size_zeros]
    omega
  · omega

/-- The string `t` is the body of a cell with a key of `size` bytes, which its first `n` bytes say. -/
structure Body (p : PayloadLimits) (t : Bytes) (size n : Nat) (head : Option PageNo) : Prop where
  header : Varint.decode? t.window 0 = some (size, n)
  small : size < 4294967296
  link : if p.kept .indexLeaf size < size then
      ∃ page, head = some page ∧ page ≠ 0 ∧ t.window.u32? (n + p.kept .indexLeaf size) = some page
    else head = none
  whole : t.size = contentEnd n size (p.kept .indexLeaf size)

theorem Body.kept_inside (body : Body p t size n head) : n + p.kept .indexLeaf size ≤ t.size := by
  rw [body.whole]
  exact Nat.le_add_right _ _

def leafInfo (p : PayloadLimits) (t : Bytes) (size n : Nat) (head : Option PageNo) : CellInfo where
  key := .ofStored size
  payloadSize := size
  kept := p.kept .indexLeaf size
  headerSize := n
  size := max t.size minCellSize
  overflowPage := head
  payloadStart := n

def interiorInfo (p : PayloadLimits) (child : PageNo) (t : Bytes) (size n : Nat) (head : Option PageNo) :
    CellInfo where
  leftChild := some child
  key := .ofStored size
  payloadSize := size
  kept := p.kept .indexLeaf size
  headerSize := 4 + n
  size := 4 + t.size
  overflowPage := head
  payloadStart := 4 + n

theorem Body.contentSize_leaf (body : Body p t size n head) :
    (leafInfo p t size n head).contentSize = t.size := by
  unfold CellInfo.contentSize CellInfo.spills leafInfo
  rw [body.whole]
  simp only [gt_iff_lt, decide_eq_true_eq, contentEnd]

theorem Body.contentSize_interior (body : Body p t size n head) :
    (interiorInfo p child t size n head).contentSize = 4 + t.size := by
  unfold CellInfo.contentSize CellInfo.spills interiorInfo
  rw [body.whole]
  simp only [gt_iff_lt, decide_eq_true_eq, contentEnd]
  omega

theorem kept_of_index (p : PayloadLimits) (index : kind.tree = .index) (size : Nat) :
    p.kept kind size = p.kept .indexLeaf size := by
  unfold PayloadLimits.kept PayloadLimits.bounds
  rw [index]
  rfl

theorem decodePayload_body (index : kind.tree = .index) (left : Option PageNo) (header : Nat) :
    (Varint.decode? d.window i = some (size, n) ∧ size < 4294967296 ∧
        decodePayload d.window 0 kind p {
          leftChild := left, key := .ofStored size, payloadSize := size, headerSize := header,
          payloadStart := i + n } = .ok info) ↔
      ∃ t head, Body p t size n head ∧ d.HasAt i t ∧
        info = {
          leftChild := left, key := .ofStored size, payloadSize := size, kept := p.kept .indexLeaf size,
          headerSize := header, size := max (i + t.size) minCellSize, overflowPage := head,
          payloadStart := i + n } := by
  have shift : contentEnd (i + n) size (p.kept .indexLeaf size) =
      i + contentEnd n size (p.kept .indexLeaf size) := by
    unfold contentEnd
    omega
  rw [decodePayload_ok]
  simp only [kept_of_index p index, shift, Nat.sub_zero, Nat.add_assoc]
  constructor
  · rintro ⟨header, small, head, link, inside, rfl⟩
    have has := Bytes.hasAt_extract (Nat.le_add_right i _) inside
    have length := Bytes.size_extract_of_le (a := i) inside
    rw [Nat.add_sub_cancel_left] at length
    have lies : d.window.Lies i (d.extract i (i + contentEnd n size (p.kept .indexLeaf size))) :=
      ⟨has, has.1⟩
    have past : n ≤ contentEnd n size (p.kept .indexLeaf size) := by
      unfold contentEnd
      omega
    refine ⟨_, head, ⟨lies.varint_of (k := 0) header (by omega), small, link_imp link fun spills page found => ?_,
      length⟩, has, by rw [length]⟩
    refine lies.u32?_of found (Nat.le_of_eq ?_)
    rw [length, contentEnd, if_pos spills]
  · rintro ⟨t, head, body, has, rfl⟩
    have lies : d.window.Lies i t := ⟨has, has.1⟩
    have inside := has.1
    rw [body.whole] at inside
    exact ⟨lies.varint body.header, body.small, head, link_imp body.link fun _ page found => lies.u32? found,
      inside, by rw [body.whole]⟩

theorem decode_indexLeaf_body :
    decode d.window 0 .indexLeaf p = .ok info ↔
      ∃ t size n head, Body p t size n head ∧ d.HasAt 0 t ∧ info = leafInfo p t size n head := by
  rw [decode_indexLeaf]
  constructor
  · rintro ⟨size, n, read⟩
    obtain ⟨t, head, body, has, rfl⟩ := (decodePayload_body rfl none n).mp read
    refine ⟨t, size, n, head, body, has, ?_⟩
    simp only [leafInfo, Nat.zero_add]
  · rintro ⟨t, size, n, head, body, has, rfl⟩
    refine ⟨size, n, (decodePayload_body rfl none n).mpr ⟨t, head, body, has, ?_⟩⟩
    simp only [leafInfo, Nat.zero_add]

theorem decode_indexInterior_body :
    decode d.window 0 .indexInterior p = .ok info ↔
      ∃ t size n head, Body p t size n head ∧ d.HasAt 4 t ∧ info = interiorInfo p (d.at32 0) t size n head := by
  have padded : ∀ t : Bytes, max (4 + t.size) minCellSize = 4 + t.size :=
    fun t => Nat.max_eq_left (Nat.le_add_right 4 t.size)
  rw [decode_indexInterior]
  simp only [Nat.zero_add]
  constructor
  · rintro ⟨child, size, n, before, read⟩
    obtain ⟨-, rfl⟩ := window_u32?.mp before
    obtain ⟨t, head, body, has, rfl⟩ := (decodePayload_body rfl (some (d.at32 0)) (4 + n)).mp read
    refine ⟨t, size, n, head, body, has, ?_⟩
    simp only [interiorInfo, padded]
  · rintro ⟨t, size, n, head, body, has, rfl⟩
    have room : 0 + 4 ≤ d.size := Nat.le_trans (Nat.le_add_right 4 t.size) has.1
    refine ⟨d.at32 0, size, n, window_u32?.mpr ⟨room, rfl⟩,
      (decodePayload_body rfl (some (d.at32 0)) (4 + n)).mpr ⟨t, head, body, has, ?_⟩⟩
    simp only [interiorInfo, padded]

theorem leafToInterior_body (body : Body p t size n head) (has : d.HasAt 0 t) (child : PageNo) :
    leafToInterior d p child = .ok (Bytes.ofNat32 child ++ t) := by
  have read := decode_indexLeaf_body.mpr ⟨t, size, n, head, body, has, rfl⟩
  have inside := has.1
  have same := has.extract
  rw [Nat.zero_add] at inside same
  have sliced : d.slice 0 t.size = .ok t := Bytes.slice_ok.mpr ⟨⟨Nat.zero_le _, inside⟩, same⟩
  unfold leafToInterior
  rw [read, Except.ok_bind, body.contentSize_leaf, sliced]
  rfl

theorem interiorToLeaf_body (body : Body p t size n head) (has : d.HasAt 4 t) :
    interiorToLeaf d p = .ok (pad t) := by
  have read := decode_indexInterior_body.mpr ⟨t, size, n, head, body, has, rfl⟩
  unfold interiorToLeaf
  rw [read, Except.ok_bind, body.contentSize_interior, if_pos ⟨Nat.le_add_right 4 _, has.1⟩, has.extract]
  rfl

theorem hasAt_interior (child : PageNo) (t : Bytes) : (Bytes.ofNat32 child ++ t).HasAt 4 t :=
  (Bytes.hasAt_self (Bytes.ofNat32 child ++ t)).append_right

theorem at32_interior (small : child < 4294967296) (t : Bytes) : (Bytes.ofNat32 child ++ t).at32 0 = child := by
  rw [Bytes.at32_of_hasAt (Bytes.hasAt_append_self (Bytes.ofNat32 child) t), Nat.mod_eq_of_lt small]

theorem hasAt_pad (t : Bytes) : (pad t).HasAt 0 t := by
  constructor
  · rw [size_pad, Nat.zero_add]
    exact Nat.le_max_left _ _
  · intro k _
    rw [Nat.zero_add, get_pad]

end Cell

end TreeFile
