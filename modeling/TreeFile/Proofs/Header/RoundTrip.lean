import TreeFile.Proofs.Database.Opening

/-!
The file header is read as it was written, and written as it was read. Both go over the same fields: the magic
string, the page size, six fields of one byte and nineteen places of four bytes, of which five are not used.
-/

namespace TreeFile

namespace Bytes

variable {d e : Bytes} {i k : Nat}

theorem get_of_at16 (same : e.at16 i = d.at16 i) (low : i ≤ k) (high : k < i + 2) : e.get! k = d.get! k := by
  have bounds := (e.get! (i + 1)).toNat_lt
  have bounds' := (d.get! (i + 1)).toNat_lt
  unfold at16 at same
  apply UInt8.toNat_inj.mp
  have place : k = i ∨ k = i + 1 := by omega
  rcases place with rfl | rfl <;> omega

theorem get_of_at32 (same : e.at32 i = d.at32 i) (low : i ≤ k) (high : k < i + 4) : e.get! k = d.get! k := by
  rw [← get_ofNat32_at32 e low high, same]
  exact get_ofNat32_at32 d low high

theorem get_of_at32_zero (zero : e.at32 i = 0) (low : i ≤ k) (high : k < i + 4) : e.get! k = 0 := by
  have place : k - i = 0 ∨ k - i = 1 ∨ k - i = 2 ∨ k - i = 3 := by omega
  rw [← get_ofNat32_at32 e low high, zero]
  rcases place with isPlace | isPlace | isPlace | isPlace <;> rw [isPlace] <;> rfl

end Bytes

theorem isPageSize_iff {size : Nat} :
    isPageSize size = true ↔ (∃ k, size = 2 ^ k) ∧ 512 ≤ size ∧ size ≤ 65536 := by
  constructor
  · intro valid
    refine ⟨?_, isPageSize_bounds valid⟩
    unfold isPageSize at valid
    simp only [Bool.or_eq_true, beq_iff_eq, or_assoc] at valid
    rcases valid with rfl | rfl | rfl | rfl | rfl | rfl | rfl | rfl
    · exact ⟨9, rfl⟩
    · exact ⟨10, rfl⟩
    · exact ⟨11, rfl⟩
    · exact ⟨12, rfl⟩
    · exact ⟨13, rfl⟩
    · exact ⟨14, rfl⟩
    · exact ⟨15, rfl⟩
    · exact ⟨16, rfl⟩
  · rintro ⟨⟨k, rfl⟩, low, high⟩
    have least : 9 ≤ k := (Nat.pow_le_pow_iff_right (show 1 < 2 by decide)).mp low
    have most : k ≤ 16 := (Nat.pow_le_pow_iff_right (show 1 < 2 by decide)).mp high
    have exponent : k = 9 ∨ k = 10 ∨ k = 11 ∨ k = 12 ∨ k = 13 ∨ k = 14 ∨ k = 15 ∨ k = 16 := by omega
    rcases exponent with rfl | rfl | rfl | rfl | rfl | rfl | rfl | rfl <;> rfl

namespace FileHeader

variable {h : FileHeader} {d : Bytes}

theorem encodedPageSize_lt {size : Nat} (valid : isPageSize size = true) : encodedPageSize size < 65536 := by
  have bounds := isPageSize_bounds valid
  unfold encodedPageSize maxPageSize
  split <;> omega

theorem decoded_encoded {size : Nat} (valid : isPageSize size = true) :
    decodedPageSize (encodedPageSize size) = size := by
  have bounds := isPageSize_bounds valid
  unfold decodedPageSize encodedPageSize maxPageSize
  split <;> split <;> omega

theorem encoded_decoded {stored : Nat} (word : stored < 65536) :
    encodedPageSize (decodedPageSize stored) = stored := by
  unfold decodedPageSize encodedPageSize maxPageSize
  split <;> split <;> omega

theorem eq_of_fields {g : FileHeader} (size : g.pageSize = h.pageSize) (octets : g.octets = h.octets)
    (words : g.words = h.words) : g = h := by
  cases g
  cases h
  unfold FileHeader.octets at octets
  unfold FileHeader.words at words
  simp only [List.cons.injEq, true_and, and_true] at octets words
  simp only [mk.injEq]
  exact ⟨size, octets.1, octets.2.1, octets.2.2.1, octets.2.2.2.1, octets.2.2.2.2.1, octets.2.2.2.2.2, words⟩

def unused (i : Nat) : Prop := 12 ≤ i ∧ i < 17

instance (i : Nat) : Decidable (unused i) := inferInstanceAs (Decidable (_ ∧ _))

theorem words_unused (h : FileHeader) {i : Nat} (inside : i < h.words.length) (free : unused i) :
    h.words[i] = 0 := by
  have places : i = 12 ∨ i = 13 ∨ i = 14 ∨ i = 15 ∨ i = 16 := by
    unfold unused at free
    omega
  rcases places with rfl | rfl | rfl | rfl | rfl <;> rfl

theorem pageSize_ofBytes (inside : 18 ≤ d.size) : (ofBytes d).pageSize = decodedPageSize (d.at16 16) := by
  unfold ofBytes
  rw [Bytes.u16?_of_le inside, Option.getD_some]

theorem octets_ofBytes (d : Bytes) : (ofBytes d).octets = (List.range 6).map fun i => d.get! (18 + i) := rfl

theorem words_ofBytes (d : Bytes) :
    (ofBytes d).words = (List.range 19).map fun i => if unused i then 0 else word d (24 + 4 * i) := rfl

theorem at16_encode (h : FileHeader) : h.encode.at16 16 = encodedPageSize h.pageSize % 65536 := by
  rw [h.encode_front.at16 (Nat.zero_le _) (by decide)]
  exact Bytes.at16_of_hasAt (Bytes.hasAt_self h.front).append_left.append_right

theorem get_encode (h : FileHeader) {i : Nat} (inside : i < h.octets.length) :
    h.encode.get! (18 + i) = h.octets[i] := by
  have has : h.front.HasAt 18 (Bytes.ofList h.octets) := (Bytes.hasAt_self h.front).append_right
  have size : i < 6 := inside
  rw [h.encode_front (18 + i) (Nat.zero_le _) (by omega), has.2 i inside, Bytes.get_ofList,
    List.getD_eq_getElem?_getD, List.getElem?_eq_getElem inside, Option.getD_some]

theorem octets_encode (h : FileHeader) : (ofBytes h.encode).octets = h.octets := by
  rw [octets_ofBytes]
  apply List.ext_getElem
  · rw [List.length_map, List.length_range]
    rfl
  · intro i _ inside
    rw [List.getElem_map, List.getElem_range, h.get_encode inside]

theorem words_encode (h : FileHeader) : (ofBytes h.encode).words = h.words := by
  have long : h.encode.size = 100 := h.size_encode
  rw [words_ofBytes]
  apply List.ext_getElem
  · rw [List.length_map, List.length_range]
    rfl
  · intro i _ inside
    have few : i < 19 := inside
    rw [List.getElem_map, List.getElem_range]
    split
    · rename_i free
      exact (h.words_unused inside free).symm
    · rw [word_of_le (by omega), h.at32_encode inside, UInt32.ofNat_toNat]

theorem ofBytes_encode (valid : isPageSize h.pageSize = true) : ofBytes h.encode = h := by
  have inside : 18 ≤ h.encode.size := by
    rw [size_encode]
    decide
  refine eq_of_fields ?_ h.octets_encode h.words_encode
  rw [pageSize_ofBytes inside, at16_encode, Nat.mod_eq_of_lt (encodedPageSize_lt valid), decoded_encoded valid]

theorem parse_encode (valid : isPageSize h.pageSize = true) (room : minUsableSize ≤ h.usableSize) :
    parse h.encode = .ok h := by
  have long := h.size_encode
  have marked : h.encode.HasAt 0 magic := by
    refine ⟨by rw [long]; decide, fun k inside => ?_⟩
    rw [Nat.zero_add]
    exact h.encode_starts k (Nat.zero_le k) inside
  exact parse_ok.mpr ⟨Nat.le_of_eq long.symm, marked.extract, valid, room, (ofBytes_encode valid).symm⟩

theorem encode_parsed {i : Nat} (parsed : parse d = .ok h) (low : i < 100) :
    h.encode.get! i = if 72 ≤ i ∧ i < 92 then 0 else d.get! i := by
  obtain ⟨long, marked, -, -, rfl⟩ := parse_ok.mp parsed
  have long : 100 ≤ d.size := long
  by_cases mark : i < 16
  · rw [if_neg (by omega), encode_starts _ i (Nat.zero_le i) mark, ← marked, Bytes.get_extract,
      if_pos (by omega), Nat.zero_add]
  by_cases size : i < 18
  · rw [if_neg (by omega)]
    refine Bytes.get_of_at16 (i := 16) ?_ (by omega) size
    have word := d.at16_lt 16
    rw [at16_encode, pageSize_ofBytes (by omega), encoded_decoded word, Nat.mod_eq_of_lt word]
  by_cases octet : i < 24
  · obtain ⟨k, rfl⟩ : ∃ k, i = 18 + k := ⟨i - 18, by omega⟩
    rw [if_neg (by omega), get_encode _ (show k < 6 by omega)]
    simp only [octets_ofBytes, List.getElem_map, List.getElem_range]
  -- the place of the word that the byte belongs to
  obtain ⟨k, isPlace⟩ : ∃ k, k = (i - 24) / 4 := ⟨_, rfl⟩
  have few : k < 19 := by omega
  have found := at32_encode (ofBytes d) (show k < (ofBytes d).words.length from few)
  simp only [words_ofBytes, List.getElem_map, List.getElem_range] at found
  by_cases free : unused k
  · rw [if_pos free] at found
    unfold unused at free
    rw [if_pos (by omega)]
    exact Bytes.get_of_at32_zero found (by omega) (by omega)
  · rw [if_neg free, word_of_le (by omega), UInt32.toNat_ofNat', Nat.mod_eq_of_lt (d.at32_lt _)] at found
    unfold unused at free
    rw [if_neg (by omega)]
    exact Bytes.get_of_at32 found (by omega) (by omega)

theorem write_over (h : FileHeader) (long : fileHeaderSize ≤ d.size) :
    ∃ e, h.write d = .ok () e ∧ e.size = d.size ∧ Bytes.SameOn h.encode e 0 fileHeaderSize ∧
      ∀ i, fileHeaderSize ≤ i → e.get! i = d.get! i := by
  have size := h.size_encode
  have fits : 0 + h.encode.size ≤ d.size := by
    rw [size, Nat.zero_add]
    exact long
  refine ⟨d.overwrite 0 h.encode, Bytes.putOr_ok.mpr ⟨fits, rfl⟩, Bytes.size_overwrite fits, ?_, ?_⟩
  · intro i _ low
    rw [Bytes.get_overwrite fits, if_pos (by rw [size]; exact ⟨Nat.zero_le i, by omega⟩), Nat.sub_zero]
  · intro i high
    exact Bytes.get_overwrite_outside fits (.inr (by rw [size, Nat.zero_add]; exact high))

/-- A header with a page size that is allowed and room on its pages is read as it was written, and what comes
behind it is left alone. A header that was read and is written back changes nothing but the bytes that no field
has, which become zero. -/
theorem write_parse :
    (∀ (h : FileHeader) (d : Bytes), (∃ k, h.pageSize = 2 ^ k) → 512 ≤ h.pageSize → h.pageSize ≤ 65536 →
      480 ≤ h.usableSize → 100 ≤ d.size →
      ∃ e, h.write d = .ok () e ∧ parse e = .ok h ∧ e.size = d.size ∧ ∀ i, 100 ≤ i → e.get! i = d.get! i) ∧
    ∀ (d : Bytes) (h : FileHeader), parse d = .ok h →
      ∃ e, h.write d = .ok () e ∧ e.size = d.size ∧
        (∀ i, i < 100 → e.get! i = if 72 ≤ i ∧ i < 92 then 0 else d.get! i) ∧
        ∀ i, 100 ≤ i → e.get! i = d.get! i := by
  constructor
  · intro h d power low high room long
    have valid : isPageSize h.pageSize = true := isPageSize_iff.mpr ⟨power, low, high⟩
    obtain ⟨e, run, size, same, rest⟩ := h.write_over long
    refine ⟨e, run, ?_, size, rest⟩
    rw [parse_congr same (Nat.le_of_eq h.size_encode.symm) (Nat.le_trans long (Nat.le_of_eq size.symm))]
    exact parse_encode valid room
  · intro d h parsed
    obtain ⟨e, run, size, same, rest⟩ := h.write_over (parse_ok.mp parsed).1
    refine ⟨e, run, size, fun i low => ?_, rest⟩
    rw [same i (Nat.zero_le i) low]
    exact encode_parsed parsed low

/-- Pages of the largest size, whose number does not fit into its two bytes. -/
theorem write_parse_largest : (∃ k, (ofConfig { pageSize := 65536 }).pageSize = 2 ^ k) ∧
    480 ≤ (ofConfig { pageSize := 65536 }).usableSize ∧
    ∃ e, (ofConfig { pageSize := 65536 }).write (Bytes.zeros 120) = .ok () e ∧
      parse e = .ok (ofConfig { pageSize := 65536 }) ∧
      ∃ f, (ofConfig { pageSize := 65536 }).write e = .ok () f ∧ f.get! 80 = 0 ∧ f.get! 16 = e.get! 16 := by
  have power : ∃ k, (ofConfig { pageSize := 65536 }).pageSize = 2 ^ k := ⟨16, rfl⟩
  have room : 480 ≤ (ofConfig { pageSize := 65536 }).usableSize := by decide
  have long : 100 ≤ (Bytes.zeros 120).size := by
    rw [Bytes.size_zeros]
    decide
  obtain ⟨e, run, parsed, -, -⟩ := write_parse.1 _ (Bytes.zeros 120) power (by decide) (by decide) room long
  obtain ⟨f, again, -, bytes, -⟩ := write_parse.2 e _ parsed
  refine ⟨power, room, e, run, parsed, f, again, ?_, ?_⟩
  · rw [bytes 80 (by decide), if_pos (by decide)]
  · rw [bytes 16 (by decide), if_neg (by decide)]

end FileHeader

end TreeFile
