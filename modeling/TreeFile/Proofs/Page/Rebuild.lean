import TreeFile.Proofs.Page.Edit

/-!
Laying out a page anew. The page then has just the given cells, one after the other, and no free
space between them.
-/

namespace TreeFile

namespace Page

variable {p q : Page}

theorem empty_valid (kind : PageKind) (sound : p.geometry.Sound) :
    (PageHeader.empty kind p.usable).Valid := by
  have small : 480 ≤ p.usable := sound.small
  have large : p.usable ≤ 65536 := Nat.le_trans sound.usable sound.large
  unfold PageHeader.empty
  refine ⟨?_, ?_, ?_, large, ?_, ?_, ?_⟩
  · exact Nat.zero_lt_succ _
  · exact Nat.zero_lt_succ _
  · dsimp only
    omega
  · exact Nat.zero_lt_succ _
  · dsimp only
    cases kind.isLeaf <;> rfl
  · intro child same
    dsimp only at same
    split at same <;> cases same
    exact Nat.zero_lt_succ _

structure Remade (p q : Page) (kind : PageKind) : Prop where
  alike : Alike p q
  parked : q.parked = []
  kind : q.kind = kind

theorem reset_ok {kind : PageKind} (sound : p.geometry.Sound)
    (size : p.data.size = p.geometry.pageSize) (run : reset kind p = .ok () q) :
    Tidy q [] [] [] ∧ Remade p q kind ∧ q.header = .empty kind p.usable := by
  unfold reset at run
  rw [Action.get_bind] at run
  obtain ⟨_, r1, put, run⟩ := Action.bind_ok.mp run
  obtain ⟨d1, put1, rfl⟩ := edit_ok.mp put
  obtain ⟨⟨low, high⟩, same⟩ := Bytes.clear_ok.mp put1
  rw [Action.modify_bind] at run
  have usable : ({ p with data := d1 } : Page).usable = p.usable := rfl
  rw [usable] at run
  obtain ⟨d2, last, lastAt, rfl⟩ := writeHeader_at (empty_valid kind sound) run
  have fits : p.headerStart + (Bytes.zeros (p.usable - p.headerStart)).size ≤ p.data.size := by
    rw [Bytes.size_zeros]
    omega
  have size1 : d1.size = p.data.size := by rw [same, Bytes.size_overwrite fits]
  refine ⟨?_, ⟨⟨rfl, rfl, rfl⟩, rfl, rfl⟩, rfl⟩
  refine tidy_nil sound ?_ lastAt rfl rfl rfl rfl rfl
  have size2 : d2.size = d1.size := last.1
  dsimp only
  rw [size2, size1]
  exact size

theorem empty_ok {number : PageNo} {kind : PageKind} {geometry : Geometry} {limits : PayloadLimits}
    (sound : geometry.Sound) (run : Page.empty number kind geometry limits = .ok q) :
    Tidy q [] [] [] ∧ Remade (blank number kind geometry limits) q kind ∧
      q.header = .empty kind geometry.usableSize :=
  reset_ok sound (Bytes.size_zeros _) (Action.applied_ok.mp run)

def weight (cells : List Bytes) : Nat := total (cells.map fun cell => cell.size + pointerSize)

theorem weight_cons (cell : Bytes) (cells : List Bytes) :
    weight (cell :: cells) = cell.size + pointerSize + weight cells := rfl

theorem weight_eq (cells : List Bytes) :
    weight cells = total (cells.map ByteArray.size) + cells.length * pointerSize := by
  induction cells with
  | nil => rfl
  | cons cell rest ih =>
    rw [weight_cons, ih, List.map_cons, total_cons, List.length_cons, Nat.succ_mul]
    omega

theorem length_le_weight {cells : List Bytes} (wide : ∀ cell ∈ cells, 4 ≤ cell.size) :
    cells.length * 6 ≤ weight cells := by
  induction cells with
  | nil => exact Nat.le_refl 0
  | cons cell rest ih =>
    have first := wide cell List.mem_cons_self
    have later := ih fun other member => wide other (List.mem_cons_of_mem _ member)
    rw [weight_cons, List.length_cons]
    unfold pointerSize
    omega

theorem fits_eq {cells : List Bytes} {kind : PageKind} : p.fits cells kind = true ↔
    weight cells ≤ p.usable - p.headerStart - kind.headerSize ∧
      cells.length ≤ p.geometry.maxCells := by
  unfold fits weight
  rw [Bool.and_eq_true, decide_eq_true_eq, decide_eq_true_eq]

theorem layOut_ok (cells : List Bytes) {moved : List (Nat × Bytes)} {top last : Nat} {d : Bytes}
    (stacked : Stacked p moved top d) (large : p.usable ≤ 65536) (wide : ∀ cell ∈ cells, 4 ≤ cell.size)
    (enough : p.pointersStart + moved.length * pointerSize + weight cells ≤ top)
    (run : layOut cells moved.length top { p with data := d } = .ok last q) :
    ∃ more d', Stacked p (moved ++ more) last d' ∧ more.map Prod.snd = cells ∧
      q = { p with data := d' } ∧
      p.pointersStart + (moved.length + cells.length) * pointerSize ≤ last := by
  induction cells generalizing moved top d with
  | nil =>
    obtain ⟨rfl, rfl⟩ := Action.pure_ok.mp run
    refine ⟨[], d, ?_, rfl, rfl, ?_⟩
    · rw [List.append_nil]
      exact stacked
    · have none : weight [] = 0 := rfl
      rw [List.length_nil, Nat.add_zero]
      omega
  | cons cell rest ih =>
    rw [weight_cons] at enough
    unfold layOut at run
    by_cases tall : cell.size > top
    · rw [if_pos tall] at run
      exact absurd run Action.throw_bind_ok
    rw [if_neg tall] at run
    dsimp only at run
    obtain ⟨_, r1, put, run⟩ := Action.bind_ok.mp run
    obtain ⟨e, putData, rfl⟩ := edit_ok.mp put
    obtain ⟨_, r2, point, run⟩ := Action.bind_ok.mp run
    unfold setPointer at point
    rw [Action.get_bind] at point
    obtain ⟨f, pointData, rfl⟩ := edit_ok.mp point
    have slots : (moved.length + 1) * pointerSize = moved.length * pointerSize + pointerSize :=
      Nat.succ_mul _ _
    obtain ⟨stacked', -⟩ := stacked.step large (wide cell List.mem_cons_self) (by omega) putData
      pointData
    have length : (moved ++ [(top - cell.size, cell)]).length = moved.length + 1 := by
      rw [List.length_append, List.length_singleton]
    obtain ⟨more, d', stacked'', same, rfl, low⟩ := ih stacked'
      (fun other member => wide other (List.mem_cons_of_mem _ member))
      (by rw [length]; omega) (by rw [length]; exact run)
    refine ⟨(top - cell.size, cell) :: more, d', ?_, ?_, rfl, ?_⟩
    · rw [List.append_cons]
      exact stacked''
    · rw [List.map_cons, same]
    · rw [length] at low
      rw [List.length_cons, Nat.add_comm rest.length 1, ← Nat.add_assoc]
      exact low

theorem Stacked.tidy {r s : Page} {placed : List (Nat × Bytes)} {top : Nat} {d : Bytes}
    (stacked : Stacked r placed top d) (sound : r.geometry.Sound)
    (size : r.data.size = r.geometry.pageSize) (few : placed.length ≤ r.geometry.maxCells)
    (low : r.pointersStart + placed.length * pointerSize ≤ top)
    (wide : ∀ cell ∈ placed, 4 ≤ cell.2.size)
    (valid : ∀ cell ∈ placed, ∃ info, Cell.Says r.limits r.kind cell.2 info)
    (geometry : s.geometry = r.geometry) (limits : s.limits = r.limits) (kind : s.kind = r.kind)
    (first : s.header.firstFree = 0) (fragments : s.header.fragments = 0)
    (count : s.header.cellCount = placed.length) (content : s.header.contentStart = top)
    (free : s.freeBytes = top - s.pointersEnd)
    (sizeS : s.data.size = d.size) (headerAt : PageHeader.At s.data r.headerStart s.header)
    (keep : ∀ k, r.pointersStart ≤ k → s.data.get! k = d.get! k) :
    Tidy s placed [] [] := by
  have startEq : s.pointersStart = r.pointersStart := by
    unfold Page.pointersStart Page.headerStart
    rw [geometry, kind]
  have endEq : s.pointersEnd = r.pointersStart + placed.length * pointerSize := by
    unfold Page.pointersEnd Page.cellCount
    rw [startEq, count]
  have usableEq : s.usable = r.usable := congrArg Geometry.usableSize geometry
  have account := stacked.account
  refine ⟨⟨?_, ?_, ?_, ?_, ?_, ?_, ?_, ?_, .nil, ?_, ?_⟩, ⟨count, ?_, ?_, ?_, ?_⟩⟩
  · rw [geometry]
    exact sound
  · rw [sizeS, stacked.size, geometry]
    exact size
  · have place : s.headerStart = r.headerStart := congrArg Geometry.headerStart geometry
    rw [place]
    exact headerAt
  · omega
  · omega
  · rw [first]
    rfl
  · rw [List.append_nil, List.append_nil, usableEq, content]
    intro run member
    obtain ⟨cell, isCell, rfl⟩ := List.mem_map.mp member
    exact ⟨(stacked.inside cell isCell).1, (stacked.inside cell isCell).2, wide cell isCell⟩
  · rw [List.append_nil, List.append_nil]
    exact stacked.apart
  · rw [List.append_nil, room_nil]
    omega
  · rw [room_nil]
    omega
  · rw [geometry]
    exact few
  · intro i h
    have slot : i * pointerSize + 2 ≤ placed.length * pointerSize := by
      have more : (i + 1) * pointerSize ≤ placed.length * pointerSize := Nat.mul_le_mul_right _ h
      rw [Nat.succ_mul] at more
      exact more
    rw [startEq, ← stacked.pointers i h]
    have same : Bytes.SameOn d s.data r.pointersStart (r.pointersStart + i * pointerSize + 2) :=
      fun k past _ => keep k past
    exact same.at16 (by omega) (Nat.le_refl _)
  · intro cell member
    have inside := stacked.inside cell member
    exact (stacked.lies cell member).of_sameOn sizeS fun k past _ => keep k (by omega)
  · rw [limits, kind]
    exact valid

theorem rebuild_ok {kind : PageKind} {cells : List Bytes} {rightChild : Option PageNo}
    (sound : p.geometry.Sound) (size : p.data.size = p.geometry.pageSize)
    (valid : ∀ cell ∈ cells, ∃ info, Cell.Says p.limits kind cell info)
    (wide : ∀ cell ∈ cells, 4 ≤ cell.size) (small : rightChild.getD 0 < 4294967296)
    (run : rebuild kind cells rightChild p = .ok () q) :
    ∃ placed, Tidy q placed [] [] ∧ placed.map Prod.snd = cells ∧ Remade p q kind ∧
      q.header.rightChild = (if kind.isLeaf then none else some (rightChild.getD 0)) ∧
      p.fits cells kind = true := by
  unfold rebuild at run
  rw [Action.get_bind] at run
  by_cases fits : p.fits cells kind = true
  · have run := run
    rw [fits, if_neg (by decide)] at run
    dsimp only at run
    obtain ⟨_, r, cleared, run⟩ := Action.bind_ok.mp run
    obtain ⟨tidyR, remade, emptied⟩ := reset_ok sound size cleared
    have right : r.header.rightChild = if kind.isLeaf then none else some 0 := by
      rw [emptied]
      rfl
    obtain ⟨top, r1, laid, run⟩ := Action.bind_ok.mp run
    obtain ⟨fitsWeight, fitsCount⟩ := fits_eq.mp fits
    have usableEq : r.usable = p.usable := congrArg Geometry.usableSize remade.alike.geometry
    have headerEq : r.headerStart = p.headerStart :=
      congrArg Geometry.headerStart remade.alike.geometry
    have kindEq := remade.kind
    have start := r.pointersStart_eq
    have low : p.headerStart ≤ 100 := sound.header
    have usable : 480 ≤ p.usable := sound.small
    have header := kind.headerSize_bounds
    rw [kindEq] at start
    have stacked : Stacked r [] r.usable r.data :=
      ⟨rfl, fun _ _ => rfl, nofun, nofun, nofun, .nil, rfl⟩
    rw [← usableEq] at laid
    obtain ⟨placed, d, stacked, same, rfl, above⟩ := layOut_ok cells stacked
      tidyR.area.usable_bounds.2 wide (by rw [List.length_nil]; omega) laid
    rw [List.nil_append] at stacked
    have length : placed.length = cells.length := by rw [← same, List.length_map]
    rw [List.length_nil, Nat.zero_add, ← length] at above
    have account := stacked.account
    unfold setHeader at run
    rw [Action.modify_bind, Action.modify_bind] at run
    have old := tidyR.area.header.valid
    have few : placed.length ≤ r.geometry.maxCells := by
      rw [length, remade.alike.geometry]
      exact fitsCount
    have maxCells : r.geometry.maxCells < 65536 := by
      have large := tidyR.area.sound.large
      unfold Geometry.maxCells
      omega
    have rKind : r.header.kind = kind := kindEq
    have headerValid : PageHeader.Valid { r.header with
        cellCount := cells.length
        contentStart := top
        rightChild := if kind.isLeaf then r.header.rightChild else some (rightChild.getD 0) } := by
      have bound := tidyR.area.usable_bounds.2
      refine ⟨old.firstFree, ?_, ?_, ?_, old.fragments, ?_, ?_⟩
      all_goals dsimp only
      · omega
      · omega
      · omega
      · rw [rKind, right]
        cases kind.isLeaf <;> rfl
      · intro child found
        rw [right] at found
        cases leaf : kind.isLeaf with
        | true =>
          rw [leaf] at found
          cases found
        | false =>
          rw [leaf] at found
          cases found
          exact small
    obtain ⟨e, last, lastAt, rfl⟩ := writeHeader_at headerValid run
    have keep : ∀ k, r.pointersStart ≤ k → e.get! k = d.get! k := fun k past =>
      last.2 k (.inr past) nofun
    refine ⟨placed, ?_, same, ?_, ?_, fits⟩
    · have first : r.header.firstFree = 0 := by rw [emptied]; rfl
      have fragments : r.header.fragments = 0 := by rw [emptied]; rfl
      refine stacked.tidy tidyR.area.sound tidyR.area.size few above ?_ ?_ rfl rfl rfl first
        fragments length.symm rfl rfl last.1 lastAt keep
      · intro cell member
        exact wide _ (same ▸ List.mem_map_of_mem member)
      · intro cell member
        rw [remade.alike.limits, kindEq]
        exact valid _ (same ▸ List.mem_map_of_mem member)
    · exact ⟨⟨remade.alike.number, remade.alike.geometry, remade.alike.limits⟩, remade.parked,
        kindEq⟩
    · dsimp only
      rw [right]
      cases kind.isLeaf <;> rfl
  · have unfit : p.fits cells kind = false := by simpa using fits
    rw [unfit] at run
    exact absurd run Action.throw_bind_ok

end Page

end TreeFile
