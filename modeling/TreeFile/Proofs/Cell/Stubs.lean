import TreeFile.Cell
import TreeFile.Proofs.Varint.ReadBack

/-!
What a cell reads, apart from where it lies: the page on its left, and the stub of an entry. The
stub is what moves between pages and levels.
-/

namespace TreeFile

namespace Cell

theorem decodeChild_leaf {w : Window} {i : Nat} {kind : PageKind} (leaf : kind.isLeaf = true) :
    decodeChild w i kind = .ok (none, i) := by
  simp only [decodeChild, leaf, if_true]

theorem decodeChild_interior {w : Window} {i : Nat} {kind : PageKind} {found : Option PageNo × Nat}
    (interior : kind.isLeaf = false) :
    decodeChild w i kind = .ok found ↔
      ∃ child, w.u32? i = some child ∧ found = (some child, i + 4) := by
  simp only [decodeChild, interior, Bool.false_eq_true, if_false]
  cases h : w.u32? i with
  | none =>
    constructor
    · intro run
      cases run
    · rintro ⟨child, same, -⟩
      cases same
  | some page =>
    constructor
    · intro run
      cases run
      exact ⟨page, rfl, rfl⟩
    · rintro ⟨child, same, rfl⟩
      cases same
      rfl

def contentEnd (start size kept : Nat) : Nat := start + kept + if kept < size then 4 else 0

theorem link_imp {size kept : Nat} {head : Option PageNo} {P Q : PageNo → Prop}
    (link : if kept < size then ∃ page, head = some page ∧ page ≠ 0 ∧ P page else head = none)
    (imp : kept < size → ∀ page, P page → Q page) :
    if kept < size then ∃ page, head = some page ∧ page ≠ 0 ∧ Q page else head = none := by
  by_cases spills : kept < size
  · rw [if_pos spills] at link ⊢
    obtain ⟨page, same, nonzero, found⟩ := link
    exact ⟨page, same, nonzero, imp spills page found⟩
  · rw [if_neg spills] at link ⊢
    exact link

theorem decodePayload_ok {w : Window} {i : Nat} {kind : PageKind} {p : PayloadLimits}
    {c info : CellInfo} :
    decodePayload w i kind p c = .ok info ↔
      let kept := p.kept kind c.payloadSize
      let stop := contentEnd c.payloadStart c.payloadSize kept
      ∃ head : Option PageNo,
        (if kept < c.payloadSize then
          ∃ page, head = some page ∧ page ≠ 0 ∧ w.u32? (c.payloadStart + kept) = some page
        else head = none) ∧
        stop ≤ w.size ∧
        info = { c with kept, overflowPage := head, size := max (stop - i) minCellSize } := by
  unfold decodePayload contentEnd
  by_cases spills : p.kept kind c.payloadSize < c.payloadSize
  · have more : c.payloadSize > p.kept kind c.payloadSize := spills
    simp only [more, if_true]
    cases h : w.u32? (c.payloadStart + p.kept kind c.payloadSize) with
    | none =>
      constructor
      · intro run
        cases run
      · rintro ⟨_, ⟨_, -, -, same⟩, -⟩
        cases same
    | some page =>
      by_cases zero : page = 0
      · simp only [zero, if_true]
        constructor
        · intro run
          cases run
        · rintro ⟨_, ⟨_, -, nonzero, same⟩, -⟩
          cases same
          exact absurd rfl nonzero
      · simp only [zero, if_false]
        by_cases long : c.payloadStart + p.kept kind c.payloadSize + 4 > w.size
        · simp only [long, if_true]
          constructor
          · intro run
            cases run
          · rintro ⟨_, -, short, -⟩
            omega
        · simp only [long, if_false]
          constructor
          · intro run
            cases run
            exact ⟨some page, ⟨page, rfl, zero, rfl⟩, by omega, rfl⟩
          · rintro ⟨_, ⟨_, rfl, -, same⟩, -, rfl⟩
            cases same
            rfl
  · have whole : ¬ c.payloadSize > p.kept kind c.payloadSize := spills
    simp only [whole, if_false, Nat.add_zero]
    by_cases long : c.payloadStart + p.kept kind c.payloadSize > w.size
    · simp only [long, if_true]
      constructor
      · intro run
        cases run
      · rintro ⟨_, -, short, -⟩
        omega
    · simp only [long, if_false]
      constructor
      · intro run
        cases run
        exact ⟨none, rfl, by omega, rfl⟩
      · rintro ⟨_, rfl, -, rfl⟩
        rfl

theorem decode_tableInterior {w : Window} {i : Nat} {p : PayloadLimits} {info : CellInfo} :
    decode w i .tableInterior p = .ok info ↔
      ∃ child row n, w.u32? i = some child ∧ Varint.decode? w (i + 4) = some (row, n) ∧
        info = {
          leftChild := some child, key := .ofStored row, headerSize := 4 + n, size := 4 + n,
          payloadStart := i + (4 + n) } := by
  unfold decode
  rw [Except.bind_ok]
  constructor
  · rintro ⟨found, hchild, run⟩
    obtain ⟨child, here, rfl⟩ := (decodeChild_interior rfl).mp hchild
    simp only at run
    obtain ⟨⟨row, n⟩, hrow, run⟩ := Except.bind_ok.mp run
    cases run
    refine ⟨child, row, n, here, Varint.read_ok.mp hrow, ?_⟩
    have size : i + 4 + n - i = 4 + n := by omega
    simp only [size]
  · rintro ⟨child, row, n, here, hrow, rfl⟩
    refine ⟨_, (decodeChild_interior rfl).mpr ⟨child, here, rfl⟩, ?_⟩
    have size : i + 4 + n - i = 4 + n := by omega
    simp only [Varint.read_ok.mpr hrow, Except.ok_bind, size]
    rfl

theorem decode_tableLeaf {w : Window} {i : Nat} {p : PayloadLimits} {info : CellInfo} :
    decode w i .tableLeaf p = .ok info ↔
      ∃ size n row m, Varint.decode? w i = some (size, n) ∧ size < 4294967296 ∧
        Varint.decode? w (i + n) = some (row, m) ∧
        decodePayload w i .tableLeaf p {
          key := .ofStored row, payloadSize := size, headerSize := n + m,
          payloadStart := i + n + m } = .ok info := by
  unfold decode
  simp only [decodeChild_leaf (show PageKind.tableLeaf.isLeaf = true from rfl), Except.ok_bind]
  rw [Except.bind_ok]
  constructor
  · rintro ⟨⟨size, n⟩, hsize, run⟩
    obtain ⟨⟨row, m⟩, hrow, run⟩ := Except.bind_ok.mp run
    obtain ⟨found, small⟩ := Varint.read32_ok.mp hsize
    refine ⟨size, n, row, m, found, small, Varint.read_ok.mp hrow, ?_⟩
    have header : i + n + m - i = n + m := by omega
    rw [header] at run
    exact run
  · rintro ⟨size, n, row, m, hsize, small, hrow, run⟩
    refine ⟨(size, n), Varint.read32_ok.mpr ⟨hsize, small⟩, ?_⟩
    have header : i + n + m - i = n + m := by omega
    simp only [Varint.read_ok.mpr hrow, Except.ok_bind, header]
    exact run

theorem decode_indexLeaf {w : Window} {i : Nat} {p : PayloadLimits} {info : CellInfo} :
    decode w i .indexLeaf p = .ok info ↔
      ∃ size n, Varint.decode? w i = some (size, n) ∧ size < 4294967296 ∧
        decodePayload w i .indexLeaf p {
          key := .ofStored size, payloadSize := size, headerSize := n,
          payloadStart := i + n } = .ok info := by
  unfold decode
  simp only [decodeChild_leaf (show PageKind.indexLeaf.isLeaf = true from rfl), Except.ok_bind]
  rw [Except.bind_ok]
  constructor
  · rintro ⟨⟨size, n⟩, hsize, run⟩
    obtain ⟨found, small⟩ := Varint.read32_ok.mp hsize
    refine ⟨size, n, found, small, ?_⟩
    have header : i + n - i = n := by omega
    rw [header] at run
    exact run
  · rintro ⟨size, n, hsize, small, run⟩
    refine ⟨(size, n), Varint.read32_ok.mpr ⟨hsize, small⟩, ?_⟩
    have header : i + n - i = n := by omega
    simp only [header]
    exact run

theorem decode_indexInterior {w : Window} {i : Nat} {p : PayloadLimits} {info : CellInfo} :
    decode w i .indexInterior p = .ok info ↔
      ∃ child size n, w.u32? i = some child ∧ Varint.decode? w (i + 4) = some (size, n) ∧
        size < 4294967296 ∧
        decodePayload w i .indexInterior p {
          leftChild := some child, key := .ofStored size, payloadSize := size,
          headerSize := 4 + n, payloadStart := i + (4 + n) } = .ok info := by
  unfold decode
  rw [Except.bind_ok]
  constructor
  · rintro ⟨found, hchild, run⟩
    obtain ⟨child, here, rfl⟩ := (decodeChild_interior rfl).mp hchild
    simp only at run
    obtain ⟨⟨size, n⟩, hsize, run⟩ := Except.bind_ok.mp run
    obtain ⟨found, small⟩ := Varint.read32_ok.mp hsize
    refine ⟨child, size, n, here, found, small, ?_⟩
    have start : i + 4 + n = i + (4 + n) := by omega
    have header : i + (4 + n) - i = 4 + n := by omega
    simp only [start, header] at run
    exact run
  · rintro ⟨child, size, n, here, hsize, small, run⟩
    refine ⟨_, (decodeChild_interior rfl).mpr ⟨child, here, rfl⟩, ?_⟩
    have start : i + 4 + n = i + (4 + n) := by omega
    have header : i + (4 + n) - i = 4 + n := by omega
    simp only [Varint.read32_ok.mpr ⟨hsize, small⟩, Except.ok_bind, start, header]
    exact run

end Cell

def Window.Lies (w : Window) (i : Nat) (c : Bytes) : Prop := w.bytes.HasAt i c ∧ i + c.size ≤ w.size

namespace Window

variable {w : Window} {i k : Nat} {c : Bytes}

theorem Lies.get? (lies : w.Lies i c) (h : k < c.size) : w.get? (i + k) = c.window.get? (0 + k) := by
  have bound := lies.1.1
  have inside := lies.2
  rw [Window.get?_eq, Window.get?_eq, if_pos ⟨by omega, by omega⟩,
    if_pos ⟨by simpa [Bytes.window] using h, by simpa [Bytes.window] using h⟩, lies.1.2 k h]
  simp only [Bytes.window, Nat.zero_add]

theorem Lies.at32 (lies : w.Lies i c) (h : k + 4 ≤ c.size) : w.bytes.at32 (i + k) = c.at32 k := by
  unfold Bytes.at32
  rw [lies.1.2 k (by omega)]
  have step : ∀ n, n < 4 → w.bytes.get! (i + k + n) = c.get! (k + n) := by
    intro n hn
    rw [Nat.add_assoc]
    exact lies.1.2 (k + n) (by omega)
  rw [step 1 (by omega), step 2 (by omega), step 3 (by omega)]

theorem Lies.u32? {found : Nat} (lies : w.Lies i c) (h : c.window.u32? k = some found) :
    w.u32? (i + k) = some found := by
  have bound := lies.1.1
  have inside := lies.2
  rw [Window.u32?_eq] at h ⊢
  split at h
  · rename_i fits
    have room : k + 4 ≤ c.size := fits.2
    rw [if_pos ⟨by omega, by omega⟩, lies.at32 room]
    exact h
  · cases h

theorem Lies.varint {value n : Nat} (lies : w.Lies i c)
    (h : Varint.decode? c.window k = some (value, n)) :
    Varint.decode? w (i + k) = some (value, n) := by
  have bounds := Varint.decode?_bounds h
  have size : c.window.bytes.size = c.size := rfl
  apply Varint.decode?_congr h
  intro j hj
  rw [Nat.add_assoc, lies.get? (by omega), Nat.zero_add]

theorem Lies.u32?_of {found : Nat} (lies : w.Lies i c) (h : w.u32? (i + k) = some found)
    (inside : k + 4 ≤ c.size) : c.window.u32? k = some found := by
  rw [Window.u32?_eq] at h ⊢
  split at h
  · rw [if_pos ⟨by exact inside, by exact inside⟩, ← h]
    exact congrArg some (lies.at32 inside).symm
  · cases h

theorem Lies.varint_of {value n : Nat} (lies : w.Lies i c)
    (h : Varint.decode? w (i + k) = some (value, n)) (inside : k + n ≤ c.size) :
    Varint.decode? c.window k = some (value, n) := by
  apply Varint.decode?_congr h
  intro j hj
  rw [Nat.add_assoc, lies.get? (by omega), Nat.zero_add]

end Window

namespace Cell

def Says (p : PayloadLimits) (kind : PageKind) (c : Bytes) (info : CellInfo) : Prop :=
  decode c.window 0 kind p = .ok info ∧ info.size = c.size

theorem decodePayload_lies {w : Window} {i : Nat} {c : Bytes} {kind : PageKind} {p : PayloadLimits}
    {start : CellInfo} {info : CellInfo} (lies : w.Lies i c)
    (run : decodePayload c.window 0 kind p start = .ok info) :
    decodePayload w i kind p { start with payloadStart := i + start.payloadStart } =
      .ok { info with payloadStart := i + info.payloadStart } := by
  obtain ⟨head, link, short, rfl⟩ := decodePayload_ok.mp run
  have room : contentEnd start.payloadStart start.payloadSize (p.kept kind start.payloadSize) ≤
    c.size := short
  have inside := lies.2
  apply decodePayload_ok.mpr
  refine ⟨head, link_imp link fun _ page found => ?_, ?_, ?_⟩
  · dsimp only
    rw [Nat.add_assoc]
    exact lies.u32? found
  · unfold contentEnd at room ⊢
    dsimp only
    omega
  · unfold contentEnd
    dsimp only
    congr 2
    omega

theorem Says.decode_lies {w : Window} {i : Nat} {c : Bytes} {kind : PageKind} {p : PayloadLimits}
    {info : CellInfo} (reads : Says p kind c info) (lies : w.Lies i c) :
    decode w i kind p = .ok { info with payloadStart := i + info.payloadStart } := by
  obtain ⟨run, -⟩ := reads
  cases kind with
  | tableInterior =>
    obtain ⟨child, row, n, hchild, hrow, rfl⟩ := decode_tableInterior.mp run
    apply decode_tableInterior.mpr
    refine ⟨child, row, n, lies.u32? hchild, lies.varint hrow, ?_⟩
    dsimp only
    rw [Nat.zero_add]
  | tableLeaf =>
    obtain ⟨size, n, row, m, hsize, small, hrow, rest⟩ := decode_tableLeaf.mp run
    rw [Nat.zero_add] at hrow rest
    apply decode_tableLeaf.mpr
    refine ⟨size, n, row, m, lies.varint hsize, small, lies.varint hrow, ?_⟩
    rw [Nat.add_assoc]
    exact decodePayload_lies lies rest
  | indexLeaf =>
    obtain ⟨size, n, hsize, small, rest⟩ := decode_indexLeaf.mp run
    rw [Nat.zero_add] at rest
    apply decode_indexLeaf.mpr
    exact ⟨size, n, lies.varint hsize, small, decodePayload_lies lies rest⟩
  | indexInterior =>
    obtain ⟨child, size, n, hchild, hsize, small, rest⟩ := decode_indexInterior.mp run
    rw [Nat.zero_add] at rest
    apply decode_indexInterior.mpr
    exact ⟨child, size, n, lies.u32? hchild, lies.varint hsize, small, decodePayload_lies lies rest⟩

theorem decodePayload_of_lies {w : Window} {i : Nat} {c : Bytes} {kind : PageKind} {p : PayloadLimits}
    {info : CellInfo} (start : CellInfo) (lies : w.Lies i c) (size : info.size = c.size)
    (run : decodePayload w i kind p { start with payloadStart := i + start.payloadStart } = .ok info) :
    contentEnd start.payloadStart start.payloadSize (p.kept kind start.payloadSize) ≤ c.size ∧
      decodePayload c.window 0 kind p start = .ok { info with payloadStart := start.payloadStart } := by
  obtain ⟨head, link, -, rfl⟩ := decodePayload_ok.mp run
  have padded : max (contentEnd (i + start.payloadStart) start.payloadSize
      (p.kept kind start.payloadSize) - i) minCellSize = c.size := size
  have shifted : contentEnd (i + start.payloadStart) start.payloadSize (p.kept kind start.payloadSize) - i =
      contentEnd start.payloadStart start.payloadSize (p.kept kind start.payloadSize) := by
    unfold contentEnd
    omega
  rw [shifted] at padded
  have inside : contentEnd start.payloadStart start.payloadSize (p.kept kind start.payloadSize) ≤ c.size := by
    omega
  refine ⟨inside, decodePayload_ok.mpr ⟨head, link_imp link fun spills page found => ?_, inside, ?_⟩⟩
  · apply lies.u32?_of
    · rw [← Nat.add_assoc]
      exact found
    · unfold contentEnd at inside
      rw [if_pos spills] at inside
      exact inside
  · dsimp only
    rw [shifted, Nat.sub_zero]

theorem Says.of_lies {w : Window} {i : Nat} {c : Bytes} {kind : PageKind} {p : PayloadLimits}
    {info : CellInfo} (lies : w.Lies i c) (size : info.size = c.size)
    (run : decode w i kind p = .ok info) : ∃ own, Says p kind c own := by
  cases kind with
  | tableInterior =>
    obtain ⟨child, row, n, hchild, hrow, rfl⟩ := decode_tableInterior.mp run
    have size : 4 + n = c.size := size
    refine ⟨_, decode_tableInterior.mpr ⟨child, row, n, lies.u32?_of (k := 0) hchild (by omega), ?_, rfl⟩,
      size⟩
    rw [Nat.zero_add]
    exact lies.varint_of hrow (by omega)
  | tableLeaf =>
    obtain ⟨payload, n, row, m, hsize, small, hrow, rest⟩ := decode_tableLeaf.mp run
    rw [Nat.add_assoc] at rest
    obtain ⟨inside, own⟩ := decodePayload_of_lies {
      key := .ofStored row, payloadSize := payload, headerSize := n + m, payloadStart := n + m } lies size rest
    unfold contentEnd at inside
    dsimp only at inside
    refine ⟨{ info with payloadStart := n + m }, decode_tableLeaf.mpr ⟨payload, n, row, m, lies.varint_of (k := 0) hsize (by omega), small, ?_, ?_⟩,
      size⟩
    · rw [Nat.zero_add]
      exact lies.varint_of hrow (by omega)
    · rw [Nat.zero_add]
      exact own
  | indexLeaf =>
    obtain ⟨payload, n, hsize, small, rest⟩ := decode_indexLeaf.mp run
    obtain ⟨inside, own⟩ := decodePayload_of_lies {
      key := .ofStored payload, payloadSize := payload, headerSize := n, payloadStart := n } lies size rest
    unfold contentEnd at inside
    dsimp only at inside
    refine ⟨{ info with payloadStart := n }, decode_indexLeaf.mpr ⟨payload, n, lies.varint_of (k := 0) hsize (by omega), small, ?_⟩, size⟩
    rw [Nat.zero_add]
    exact own
  | indexInterior =>
    obtain ⟨child, payload, n, hchild, hsize, small, rest⟩ := decode_indexInterior.mp run
    obtain ⟨inside, own⟩ := decodePayload_of_lies {
      leftChild := some child, key := .ofStored payload, payloadSize := payload, headerSize := 4 + n,
      payloadStart := 4 + n } lies size rest
    unfold contentEnd at inside
    dsimp only at inside
    refine ⟨{ info with payloadStart := 4 + n }, decode_indexInterior.mpr ⟨child, payload, n, lies.u32?_of (k := 0) hchild (by omega), ?_, small, ?_⟩,
      size⟩
    · rw [Nat.zero_add]
      exact lies.varint_of hsize (by omega)
    · rw [Nat.zero_add]
      exact own

end Cell

end TreeFile
