import TreeFile.Proofs.Page.Edit

/-!
Changing what the cells of a page refer to. A child or the head of an overflow chain is
overwritten where it stands, so the page keeps its layout.
-/

namespace TreeFile

theorem Bytes.HasAt.overwrite {d c src : Bytes} {start offset : Nat} (has : d.HasAt start c)
    (fits : offset + src.size ≤ c.size) :
    (d.overwrite (start + offset) src).HasAt start (c.overwrite offset src) := by
  have room : start + offset + src.size ≤ d.size := by
    have inside := has.1
    omega
  refine ⟨?_, ?_⟩
  · rw [Bytes.size_overwrite room, Bytes.size_overwrite fits]
    exact has.1
  · intro k h
    rw [Bytes.size_overwrite fits] at h
    rw [Bytes.get_overwrite room, Bytes.get_overwrite fits]
    by_cases within : offset ≤ k ∧ k < offset + src.size
    · rw [if_pos (by omega), if_pos within]
      congr 1
      omega
    · rw [if_neg (by omega), if_neg within]
      exact has.2 k h

namespace Page

variable {p q : Page} {cells : List (Nat × Bytes)} {lent blocks : List Run}

/-- A page keeps its cells when what lies before its pointers changes, but not the layout that its
header states. -/
theorem Tidy.carry (tidy : Tidy p cells lent blocks) (geometry : q.geometry = p.geometry)
    (limits : q.limits = p.limits) (kind : q.header.kind = p.header.kind)
    (first : q.header.firstFree = p.header.firstFree)
    (count : q.header.cellCount = p.header.cellCount)
    (content : q.header.contentStart = p.header.contentStart)
    (fragments : q.header.fragments = p.header.fragments) (free : q.freeBytes = p.freeBytes)
    (size : q.data.size = p.data.size) (headerAt : PageHeader.At q.data p.headerStart q.header)
    (keep : ∀ k, p.pointersStart ≤ k → q.data.get! k = p.data.get! k) :
    Tidy q cells lent blocks := by
  have area := tidy.area
  have rows := tidy.rows
  have place : q.headerStart = p.headerStart := congrArg Geometry.headerStart geometry
  have startEq : q.pointersStart = p.pointersStart := by
    unfold Page.pointersStart Page.kind
    rw [place, kind]
  have endEq : q.pointersEnd = p.pointersEnd := by
    unfold Page.pointersEnd Page.cellCount
    rw [startEq, count]
  have usableEq : q.usable = p.usable := congrArg Geometry.usableSize geometry
  refine ⟨⟨?_, ?_, ?_, ?_, ?_, ?_, ?_, area.apart, area.ascending, ?_, ?_⟩, ⟨?_, ?_, ?_, ?_, ?_⟩⟩
  · rw [geometry]
    exact area.sound
  · rw [size, geometry]
    exact area.size
  · rw [place]
    exact headerAt
  · rw [endEq, content]
    exact area.gap
  · rw [usableEq, content]
    exact area.content
  · rw [first]
    refine area.chain.of_same fun block member k low _ => keep k ?_
    have past := area.past_pointers (List.mem_append_right _ member)
    omega
  · rw [usableEq, content]
    exact area.inside
  · rw [usableEq, content, fragments]
    exact area.account
  · rw [free, content, endEq, fragments]
    exact area.free
  · exact count.trans rows.count
  · rw [geometry]
    exact rows.few
  · intro i h
    have same : Bytes.SameOn p.data q.data p.pointersStart
        (p.pointersStart + i * pointerSize + 2) := fun k past _ => keep k past
    rw [startEq, ← rows.pointers i h]
    exact same.at16 (Nat.le_add_right _ _) (Nat.le_refl _)
  · intro cell member
    have past := area.past_pointers (List.mem_append_left _
      (List.mem_append_left _ (List.mem_map_of_mem member)))
    have past : p.pointersStart ≤ cell.1 := past.2
    exact (rows.lies cell member).of_sameOn size fun k low _ => keep k (by omega)
  · have kindEq : q.kind = p.kind := kind
    rw [limits, kindEq]
    exact rows.valid

theorem Tidy.reprefix (tidy : Tidy p cells lent blocks) {d : Bytes} (size : d.size = p.data.size)
    (keep : ∀ k, p.headerStart ≤ k → d.get! k = p.data.get! k) :
    Tidy { p with data := d } cells lent blocks := by
  have start := p.pointersStart_eq
  refine tidy.carry rfl rfl rfl rfl rfl rfl rfl rfl size ?_ fun k past => keep k (by omega)
  exact tidy.area.header.of_sameOn size fun k past _ => keep k past

theorem setRightChild_ok {child : PageNo} (tidy : Tidy p cells lent blocks)
    (small : child < 4294967296) (run : setRightChild child p = .ok () q) :
    p.isLeaf = false ∧ Tidy q cells lent blocks ∧ Alike p q ∧ q.parked = p.parked ∧
      q.kind = p.kind ∧ q.header.rightChild = some child := by
  unfold setRightChild at run
  rw [Action.get_bind] at run
  cases leaf : p.isLeaf with
  | true =>
    rw [leaf, if_pos rfl] at run
    exact absurd run Action.throw_bind_ok
  | false =>
    have run := run
    rw [leaf, if_neg (by decide)] at run
    unfold setHeader at run
    dsimp only at run
    rw [Action.modify_bind] at run
    have old := tidy.area.header.valid
    have valid : PageHeader.Valid { p.header with rightChild := some child } := by
      refine { old with rightSome := ?_, rightLt := ?_ }
      · have interior : p.header.kind.isLeaf = false := leaf
        dsimp only
        rw [interior]
        rfl
      · intro other same
        cases same
        exact small
    obtain ⟨d, last, lastAt, rfl⟩ := writeHeader_at valid run
    refine ⟨rfl, ?_, ⟨rfl, rfl, rfl⟩, rfl, rfl, rfl⟩
    exact tidy.carry rfl rfl rfl rfl rfl rfl rfl rfl last.1 lastAt fun k past =>
      last.2 k (.inr past) nofun

theorem Tidy.replace {i : Nat} (offset : Nat) (src : Bytes) (tidy : Tidy p cells lent blocks)
    (inside : i < cells.length) (fits : offset + src.size ≤ cells[i].2.size)
    (valid : ∃ info, Cell.Says p.limits p.kind (cells[i].2.overwrite offset src) info) :
    Tidy { p with data := p.data.overwrite (cells[i].1 + offset) src }
      (cells.set i (cells[i].1, cells[i].2.overwrite offset src)) lent blocks := by
  have area := tidy.area
  have rows := tidy.rows
  have member : cells[i] ∈ cells := List.getElem_mem inside
  have size := Bytes.size_overwrite fits
  have has := rows.lies _ member
  have room : cells[i].1 + offset + src.size ≤ p.data.size := by
    have inPage := has.1
    omega
  have sizeP := Bytes.size_overwrite room
  have keep : ∀ k, k < cells[i].1 ∨ cells[i].1 + cells[i].2.size ≤ k →
      (p.data.overwrite (cells[i].1 + offset) src).get! k = p.data.get! k := fun k outside =>
    Bytes.get_overwrite_outside room (by omega)
  have runs : (cells.set i (cells[i].1, cells[i].2.overwrite offset src)).map runOf =
      cells.map runOf := by
    rw [List.map_set]
    have mapped : i < (cells.map runOf).length := by rw [List.length_map]; exact inside
    have same : runOf (cells[i].1, cells[i].2.overwrite offset src) = (cells.map runOf)[i] := by
      rw [List.getElem_map]
      unfold runOf
      rw [size]
    rw [same, List.set_getElem_self]
  have past := area.past_pointers (List.mem_append_left _
    (List.mem_append_left _ (List.mem_map_of_mem member)))
  have past : p.pointersEnd ≤ cells[i].1 ∧ p.pointersStart ≤ cells[i].1 := past
  have start := p.pointersStart_eq
  refine ⟨⟨area.sound, ?_, ?_, area.gap, area.content, ?_, ?_, ?_, area.ascending, ?_, area.free⟩,
    ⟨?_, ?_, ?_, ?_, ?_⟩⟩
  · exact sizeP.trans area.size
  · exact area.header.of_sameOn sizeP fun k low high => keep k (.inl (by
      have ends : p.headerStart + p.header.kind.headerSize = p.pointersStart := rfl
      omega))
  · refine area.chain.of_same fun block isBlock k low high => keep k ?_
    have apart : Run.Apart (runOf cells[i]) block :=
      (List.pairwise_append.mp area.apart).2.2 _
        (List.mem_append_left _ (List.mem_map_of_mem member)) _ isBlock
    have apart : cells[i].1 + cells[i].2.size ≤ block.1 ∨ block.1 + block.2 ≤ cells[i].1 := apart
    have wide := (area.inside block (List.mem_append_right _ isBlock)).2.2
    unfold minCellSize at wide
    omega
  · rw [runs]
    exact area.inside
  · rw [runs]
    exact area.apart
  · rw [runs]
    exact area.account
  · rw [List.length_set]
    exact rows.count
  · rw [List.length_set]
    exact rows.few
  · intro j h
    rw [List.length_set] at h
    have slot := (tidy.slot_fits h).1
    have pointer : (p.data.overwrite (cells[i].1 + offset) src).at16
        (p.pointersStart + j * pointerSize) = cells[j].1 := by
      rw [← rows.pointers j h]
      exact Bytes.at16_overwrite room (.inl (by omega))
    rw [List.getElem_set]
    by_cases same : i = j
    · subst same
      rw [if_pos rfl]
      exact pointer
    · rw [if_neg same]
      exact pointer
  · intro cell isCell
    obtain ⟨j, h, rfl⟩ := List.mem_iff_getElem.mp isCell
    rw [List.length_set] at h
    rw [List.getElem_set]
    by_cases same : i = j
    · subst same
      rw [if_pos rfl]
      exact has.overwrite fits
    · rw [if_neg same]
      have other : cells[j] ∈ cells := List.getElem_mem h
      have sorted := (List.pairwise_append.mp (List.pairwise_append.mp area.apart).1).1
      have apart : Run.Apart (runOf cells[i]) (runOf cells[j]) := by
        rcases Nat.lt_or_gt_of_ne same with less | more
        · have both := List.pairwise_iff_getElem.mp sorted i j (by rw [List.length_map]; omega)
            (by rw [List.length_map]; omega) less
          rw [List.getElem_map, List.getElem_map] at both
          exact both
        · have both := List.pairwise_iff_getElem.mp sorted j i (by rw [List.length_map]; omega)
            (by rw [List.length_map]; omega) more
          rw [List.getElem_map, List.getElem_map] at both
          exact both.symm
      have apart : cells[i].1 + cells[i].2.size ≤ cells[j].1 ∨
        cells[j].1 + cells[j].2.size ≤ cells[i].1 := apart
      exact (rows.lies _ other).of_sameOn sizeP fun k low high => keep k (by omega)
  · intro cell isCell
    rcases List.mem_or_eq_of_mem_set isCell with old | rfl
    · exact rows.valid cell old
    · exact valid

theorem setChild_ok {i : Nat} {child : PageNo} (tidy : Tidy p cells lent blocks)
    (inside : i < cells.length) (small : child < 4294967296)
    (run : setChild i child p = .ok () q) :
    p.isLeaf = false ∧
      Tidy q (cells.set i (cells[i].1, cells[i].2.overwrite 0 (Bytes.ofNat32 child))) lent blocks ∧
      KeepsRole p q := by
  unfold setChild at run
  rw [Action.get_bind] at run
  cases leaf : p.isLeaf with
  | true =>
    rw [leaf, if_pos rfl] at run
    exact absurd run Action.throw_bind_ok
  | false =>
    have run := run
    rw [leaf, if_neg (by decide)] at run
    dsimp only at run
    rw [if_pos (by rw [tidy.rows.count]; exact inside)] at run
    obtain ⟨start, found, run⟩ := Action.lift_bind_ok.mp run
    rw [tidy.pointer inside] at found
    cases found
    obtain ⟨d, put, rfl⟩ := edit_ok.mp run
    obtain ⟨fits, rfl⟩ := Bytes.putU32_ok.mp put
    obtain ⟨info, reads⟩ := tidy.rows.valid _ (List.getElem_mem inside)
    have wide := (tidy.run_inside (List.getElem_mem inside)).2.2
    have holds : Cell.Holds p.limits p.kind cells[i].2 (info.slot cells[i].2) := ⟨info, reads, rfl⟩
    obtain ⟨⟨info', reads', -⟩, -⟩ := holds.setLeft leaf small
      (Bytes.putU32_ok.mpr ⟨by omega, rfl⟩)
    have replaced := tidy.replace 0 (Bytes.ofNat32 child) inside (by
      rw [Bytes.size_ofNat32]
      omega) ⟨info', reads'⟩
    exact ⟨rfl, replaced, ⟨rfl, rfl, rfl⟩, rfl, rfl, rfl⟩

theorem relink_ok {i : Nat} {info : CellInfo} {old head : PageNo} (tidy : Tidy p cells lent blocks)
    (inside : i < cells.length) (reads : Cell.Says p.limits p.kind cells[i].2 info)
    (chain : info.overflowPage = some old) (nonzero : head ≠ 0) (small : head < 4294967296)
    (run : edit (Bytes.putU32 (cells[i].1 + info.payloadStart + info.kept) head) p = .ok () q) :
    Tidy q (cells.set i (cells[i].1,
      cells[i].2.overwrite (info.payloadStart + info.kept) (Bytes.ofNat32 head))) lent blocks ∧
      KeepsRole p q := by
  obtain ⟨d, put, rfl⟩ := edit_ok.mp run
  obtain ⟨fits, rfl⟩ := Bytes.putU32_ok.mp put
  obtain ⟨⟨info', reads', -⟩, room⟩ := Cell.Holds.relink reads chain nonzero small
  have replaced := tidy.replace (info.payloadStart + info.kept) (Bytes.ofNat32 head) inside room
    ⟨info', reads'⟩
  rw [← Nat.add_assoc] at replaced
  exact ⟨replaced, ⟨rfl, rfl, rfl⟩, rfl, rfl, rfl⟩

end Page

end TreeFile
