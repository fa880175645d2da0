import TreeFile.Proofs.Cell.Forms

/-!
Cells that move between the levels of a tree. What a cell says of its key does not change, and on the way back it
has the bytes it had, but for its padding.
-/

namespace TreeFile

namespace Cell

variable {p : PayloadLimits} {d t : Bytes} {size n : Nat} {child : PageNo} {head : Option PageNo}

theorem extract_interior (has : d.HasAt 4 t) : Bytes.ofNat32 (d.at32 0) ++ t = d.extract 0 (4 + t.size) := by
  have inside := has.1
  apply Bytes.ext_get
  · rw [ByteArray.size_append, Bytes.size_ofNat32, Bytes.size_extract_of_le inside]
    rfl
  · intro k short
    rw [ByteArray.size_append, Bytes.size_ofNat32] at short
    rw [Bytes.get_append, Bytes.size_ofNat32, Bytes.get_extract, Nat.zero_add, if_pos short]
    split
    · rename_i front
      exact Bytes.get_ofNat32_at32 d (Nat.zero_le k) front
    · rename_i back
      have place : 4 + (k - 4) = k := by omega
      rw [← has.2 (k - 4) (by omega), place]

theorem get_pad_eq (has : d.HasAt 0 t) (i : Nat) : (pad t).get! i = if i < t.size then d.get! i else 0 := by
  rw [get_pad]
  split
  · rename_i inside
    rw [← has.2 i inside, Nat.zero_add]
  · rename_i past
    exact Bytes.get_of_ge (Nat.le_of_not_lt past)

/-- An index leaf cell can be moved up, to the right of any page. It fills the interior cell and says the same
there. Moved down again it is read as before, and has the bytes it had, but zeroes for padding. An interior cell
that is moved down, and then up to the right of the same page, has the bytes it had. -/
theorem move_back (p : PayloadLimits) :
    (∀ (d : Bytes) (child : PageNo) (info : CellInfo), 4 ≤ d.size → child < 4294967296 →
      decode d.window 0 .indexLeaf p = .ok info →
      ∃ above up below, leafToInterior d p child = .ok above ∧
        decode above.window 0 .indexInterior p = .ok up ∧ up.size = above.size ∧ up.leftChild = some child ∧
        up.payloadSize = info.payloadSize ∧ up.kept = info.kept ∧ up.overflowPage = info.overflowPage ∧
        above.extract up.payloadStart (up.payloadStart + up.kept) =
          d.extract info.payloadStart (info.payloadStart + info.kept) ∧
        interiorToLeaf above p = .ok below ∧ decode below.window 0 .indexLeaf p = .ok info ∧
        below.size = info.size ∧ info.size = max info.contentSize 4 ∧ info.size ≤ d.size ∧
        ∀ i, below.get! i = if i < info.contentSize then d.get! i else 0) ∧
    ∀ (d : Bytes) (info : CellInfo), decode d.window 0 .indexInterior p = .ok info →
      ∃ child below, info.leftChild = some child ∧ interiorToLeaf d p = .ok below ∧
        leafToInterior below p child = .ok (d.extract 0 info.size) ∧ info.size ≤ d.size := by
  constructor
  · intro d child info long word read
    obtain ⟨t, size, n, head, body, has, rfl⟩ := decode_indexLeaf_body.mp read
    have inside := has.1
    have above := hasAt_interior child t
    have stub := (body.stub_interior above child).trans (body.stub_leaf has).symm
    have up : decode (Bytes.window (Bytes.ofNat32 child ++ t)) 0 .indexInterior p =
        .ok (interiorInfo p child t size n head) :=
      decode_indexInterior_body.mpr ⟨t, size, n, head, body, above, by rw [at32_interior word]⟩
    refine ⟨_, _, pad t, leafToInterior_body body has child, up, ?_, rfl, rfl, rfl, rfl, congrArg Stub.kept stub,
      interiorToLeaf_body body above, decode_indexLeaf_body.mpr ⟨t, size, n, head, body, hasAt_pad t, rfl⟩,
      size_pad t, ?_, ?_, ?_⟩
    · rw [ByteArray.size_append, Bytes.size_ofNat32]
      rfl
    · rw [body.contentSize_leaf]
      rfl
    · change max t.size 4 ≤ d.size
      omega
    · rw [body.contentSize_leaf]
      exact get_pad_eq has
  · intro d info read
    obtain ⟨t, size, n, head, body, has, rfl⟩ := decode_indexInterior_body.mp read
    refine ⟨d.at32 0, pad t, rfl, interiorToLeaf_body body has, ?_, has.1⟩
    rw [leafToInterior_body body (hasAt_pad t), extract_interior has]
    rfl

/-- The size of the key takes two bytes where one would do, the fourth byte is padding and the fifth not of the
cell. -/
theorem move_back_short_key : 4 ≤ (Bytes.ofList [128, 1, 65, 7, 9]).size ∧
    decode (Bytes.ofList [128, 1, 65, 7, 9]).window 0 .indexLeaf (.ofConfig {}) = .ok {
      key := 1, payloadSize := 1, kept := 1, headerSize := 2, size := 4, payloadStart := 2 } ∧
    ∃ above up below, leafToInterior (Bytes.ofList [128, 1, 65, 7, 9]) (.ofConfig {}) 3 = .ok above ∧
      decode above.window 0 .indexInterior (.ofConfig {}) = .ok up ∧ up.leftChild = some 3 ∧ up.payloadSize = 1 ∧
      interiorToLeaf above (.ofConfig {}) = .ok below ∧ below.size = 4 ∧ below.get! 2 = 65 ∧ below.get! 3 = 0 ∧
      leafToInterior below (.ofConfig {}) 3 = .ok (above.extract 0 up.size) := by
  have long : 4 ≤ (Bytes.ofList [128, 1, 65, 7, 9]).size := by decide
  have read : decode (Bytes.ofList [128, 1, 65, 7, 9]).window 0 .indexLeaf (.ofConfig {}) = .ok {
      key := 1, payloadSize := 1, kept := 1, headerSize := 2, size := 4, payloadStart := 2 } := by rfl
  obtain ⟨above, up, below, raised, upper, -, left, payload, -, -, -, lowered, -, size, -, -, bytes⟩ :=
    (move_back (.ofConfig {})).1 _ 3 _ long (by decide) read
  obtain ⟨child, lower, named, lowers, again, -⟩ := (move_back (.ofConfig {})).2 above up upper
  obtain rfl : 3 = child := Option.some.inj (left.symm.trans named)
  obtain rfl : below = lower := Except.ok.inj (lowered.symm.trans lowers)
  exact ⟨long, read, above, up, below, raised, upper, left, payload, lowered, size, bytes 2, bytes 3, again⟩

end Cell

end TreeFile
