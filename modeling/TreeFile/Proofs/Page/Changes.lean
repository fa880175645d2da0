import TreeFile.Proofs.Page.Progress
import TreeFile.Proofs.Store.DiskPages

/-!
A page as a list of cells. Whatever is done to the cells of a page, its user finds the cells that the
same changes to a list would give, and no change comes upon a page that it takes for damaged.
-/

namespace TreeFile

theorem Config.geometry_sound {c : Config} (valid : c.validate = .ok ()) (page : PageNo) :
    (Geometry.ofPage page c.pageSize c.usableSize).Sound := by
  obtain ⟨isSize, usable, -⟩ := Config.validate_ok valid
  refine ⟨Nat.sub_le _ _, (isPageSize_bounds isSize).2, usable, ?_⟩
  unfold Geometry.ofPage
  dsimp only
  split <;> decide

/-- The changes that are made to the cells of a page. -/
inductive PageChange where
  | insert (i : Nat) (cell : Bytes)
  | drop (i : Nat)
  | defragment
  | rebuild (kind : PageKind) (cells : List Bytes) (rightChild : Option PageNo)

structure Listing where
  number : PageNo
  geometry : Geometry
  kind : PageKind
  cells : List Bytes

def Listing.room (l : Listing) (kind : PageKind) : Nat :=
  l.geometry.usableSize - l.geometry.headerStart - kind.headerSize

namespace PageChange

def onPage : PageChange → Action Page Unit
  | insert i cell => Page.insert i cell
  | drop i => Page.drop i
  | defragment => Page.defragment
  | rebuild kind cells rightChild => Page.rebuild kind cells rightChild

def onListing : PageChange → Listing → Except Error Listing
  | insert i cell, l =>
    if i ≤ l.cells.length then .ok { l with cells := l.cells.insertIdx i cell }
    else .error (.insertPosition i l.cells.length)
  | drop i, l =>
    if i < l.cells.length then .ok { l with cells := l.cells.eraseIdx i }
    else .error (.cellIndex i l.cells.length l.number)
  | defragment, l => .ok l
  | rebuild kind cells _, l =>
    if Page.weight cells ≤ l.room kind then .ok { l with kind := kind, cells := cells }
    else .error (.cellsDoNotFit cells.length l.number)

/-- New cells are cells of the page's kind, and no cell is dropped while one is parked. -/
def Allowed (p : Page) : PageChange → Prop
  | insert _ cell => ∃ info, Cell.Says p.limits p.kind cell info
  | drop _ => p.parked = []
  | defragment => True
  | rebuild kind cells rightChild =>
    (∀ cell ∈ cells, ∃ info, Cell.Says p.limits kind cell info) ∧ rightChild.getD 0 < 4294967296

end PageChange

namespace Listing

def change (l : Listing) (change : PageChange) : Listing :=
  match change.onListing l with
  | .ok m => m
  | .error _ => l

def after (l : Listing) (changes : List PageChange) : Listing := changes.foldl change l

end Listing

namespace Page

def after (p : Page) (changes : List PageChange) : Page :=
  changes.foldl (fun p change => change.onPage.final p) p

def Allows : Page → List PageChange → Prop
  | _, [] => True
  | p, change :: rest => change.Allowed p ∧ Allows (change.onPage.final p) rest

/-- The page has the cells of the list and is laid out as it should be. -/
structure Lists (p : Page) (l : Listing) : Prop where
  number : p.number = l.number
  geometry : p.geometry = l.geometry
  kind : p.kind = l.kind
  layout : ∃ placed blocks, Tidy p placed [] blocks ∧
    unpark (placed.map Prod.snd) p.parked = .ok l.cells

section Step

variable {p q : Page} {l : Listing} {placed : List (Nat × Bytes)} {blocks : List Run}

theorem Lists.of_alike {m : Listing} (lists : p.Lists l) (alike : Alike p q) (number : m.number = l.number)
    (geometry : m.geometry = l.geometry) (kind : q.kind = m.kind)
    (layout : ∃ placed blocks, Tidy q placed [] blocks ∧
      unpark (placed.map Prod.snd) q.parked = .ok m.cells) : q.Lists m where
  number := alike.number.trans (lists.number.trans number.symm)
  geometry := alike.geometry.trans (lists.geometry.trans geometry.symm)
  kind := kind
  layout := layout

def Crowded (p : Page) (cell : Bytes) : Prop :=
  p.parked ≠ [] ∨ p.freeBytes < cell.size + pointerSize

theorem Tidy.more_cells (tidy : Tidy p placed [] blocks) {cell : Bytes} (wide : 4 ≤ cell.size)
    (room : cell.size + pointerSize ≤ p.freeBytes) : p.cellCount + 1 ≤ p.geometry.maxCells := by
  have free := tidy.free_eq
  have light := length_le_weight fun cell (member : cell ∈ placed.map Prod.snd) => by
    obtain ⟨row, isRow, rfl⟩ := List.mem_map.mp member
    exact (tidy.run_inside isRow).2.2
  have count := tidy.rows.count
  have bounds := p.kind.headerSize_bounds
  have usable : p.usable ≤ p.geometry.pageSize := tidy.area.sound.usable
  rw [List.length_map] at light
  unfold pointerSize at room
  unfold Geometry.maxCells
  exact (Nat.le_div_iff_mul_le (by decide)).mpr (by omega)

theorem insert_crowded {i : Nat} {cell : Bytes} (low : i ≤ p.logicalCount) (crowded : p.Crowded cell) :
    insert i cell p = .ok () { p with parked := p.parked ++ [(i, cell)] } := by
  unfold insert
  rw [Action.get_bind, if_neg (by omega)]
  dsimp only
  rw [if_pos]
  · rfl
  · unfold Crowded at crowded
    unfold hasParked
    rcases crowded with some | tight
    · simp [some]
    · simp [tight]

theorem insert_roomy {i : Nat} {cell : Bytes} (tidy : Tidy p placed [] blocks)
    (low : i ≤ p.logicalCount) (wide : 4 ≤ cell.size) (roomy : ¬ p.Crowded cell) :
    insert i cell p = place i cell p := by
  unfold Crowded at roomy
  obtain ⟨clear, room⟩ := not_or.mp roomy
  have clear : p.parked = [] := not_not.mp clear
  have few := tidy.more_cells wide (Nat.le_of_not_lt room)
  unfold insert
  rw [Action.get_bind, if_neg (by omega)]
  dsimp only
  rw [if_neg]
  unfold hasParked
  simp [clear]
  omega

variable (lists : p.Lists l)

include lists

theorem Lists.count : p.logicalCount = l.cells.length := by
  obtain ⟨placed, blocks, tidy, all⟩ := lists.layout
  have length := (unpark_sublist all).2
  rw [List.length_map] at length
  rw [length, ← tidy.rows.count]
  rfl

theorem insert_placed {i : Nat} {cell : Bytes} (new : ∃ info, Cell.Says p.limits p.kind cell info)
    (low : i ≤ l.cells.length) (roomy : ¬ p.Crowded cell) : ∃ q placed blocks,
      insert i cell p = .ok () q ∧ Tidy q placed [] blocks ∧
        placed.map Prod.snd = l.cells.insertIdx i cell ∧ KeepsRole p q := by
  obtain ⟨info, reads⟩ := new
  have wide : 4 ≤ cell.size := Cell.Holds.size_ge ⟨info, reads, rfl⟩
  obtain ⟨placed, blocks, tidy, all⟩ := lists.layout
  have inside : i ≤ p.logicalCount := lists.count ▸ low
  have room := Nat.le_of_not_lt (not_or.mp roomy).2
  have few := tidy.more_cells wide room
  rw [not_not.mp (not_or.mp roomy).1] at all
  have all : placed.map Prod.snd = l.cells := Except.ok.inj all
  rw [← all, List.length_map] at low
  rw [tidy.rows.count] at few
  obtain ⟨_, q, run⟩ := place_runs tidy low wide room
  obtain ⟨placed', blocks', tidy', moved, close⟩ := place_ok tidy low few reads wide run
  rw [all] at moved
  exact ⟨q, placed', blocks', (insert_roomy tidy inside wide roomy).trans run, tidy', moved, close⟩

theorem insert_lists {i : Nat} {cell : Bytes} (new : ∃ info, Cell.Says p.limits p.kind cell info)
    (low : i ≤ l.cells.length) : ∃ q, insert i cell p = .ok () q ∧
      q.Lists { l with cells := l.cells.insertIdx i cell } ∧ Alike p q := by
  by_cases crowded : p.Crowded cell
  · obtain ⟨placed, blocks, tidy, all⟩ := lists.layout
    refine ⟨_, insert_crowded (lists.count ▸ low) crowded, ?_, ⟨rfl, rfl, rfl⟩⟩
    refine lists.of_alike ⟨rfl, rfl, rfl⟩ rfl rfl lists.kind ⟨placed, blocks, tidy.carry rfl rfl rfl
      rfl rfl rfl rfl rfl rfl tidy.area.header fun _ _ => rfl, ?_⟩
    dsimp only
    rw [unpark_append, all, Except.ok_bind, if_pos low]
  · obtain ⟨q, placed, blocks, run, tidy, moved, close⟩ := insert_placed lists new low crowded
    refine ⟨q, run, ?_, close.alike⟩
    refine lists.of_alike close.alike rfl rfl (close.kind.trans lists.kind) ⟨placed, blocks, tidy, ?_⟩
    rw [close.parked, not_not.mp (not_or.mp crowded).1, moved]
    rfl

theorem insert_past {i : Nat} {cell : Bytes} (high : l.cells.length < i) :
    insert i cell p = .error (.insertPosition i l.cells.length) p := by
  unfold insert
  rw [Action.get_bind, lists.count, if_pos high]
  rfl

theorem drop_lists {i : Nat} (clear : p.parked = []) (low : i < l.cells.length) :
    ∃ q, drop i p = .ok () q ∧ q.Lists { l with cells := l.cells.eraseIdx i } ∧ Alike p q := by
  obtain ⟨placed, blocks, tidy, all⟩ := lists.layout
  rw [clear] at all
  have all : placed.map Prod.snd = l.cells := Except.ok.inj all
  rw [← all, List.length_map] at low
  obtain ⟨_, q, run⟩ := drop_runs tidy low
  obtain ⟨-, placed', blocks', tidy', fewer, close⟩ := drop_ok tidy run
  refine ⟨q, run, ?_, close.alike⟩
  refine lists.of_alike close.alike rfl rfl (close.kind.trans lists.kind)
    ⟨placed', blocks', tidy', ?_⟩
  rw [close.parked, clear, fewer, all]
  rfl

theorem drop_past {i : Nat} (clear : p.parked = []) (high : l.cells.length ≤ i) :
    drop i p = .error (.cellIndex i l.cells.length l.number) p := by
  have count := lists.count
  unfold logicalCount at count
  rw [clear, List.length_nil, Nat.add_zero] at count
  have missing : p.pointer i = .error (.cellIndex i l.cells.length l.number) := by
    unfold pointer
    rw [count, lists.number, if_pos high]
    rfl
  unfold drop
  rw [Action.get_bind, missing]
  rfl

theorem defragment_lists : ∃ q, defragment p = .ok () q ∧ q.Lists l ∧ Alike p q := by
  obtain ⟨placed, blocks, tidy, all⟩ := lists.layout
  obtain ⟨_, q, run⟩ := defragment_runs tidy
  obtain ⟨moved, tidy', same, fields, -⟩ := defragment_ok tidy run
  have kind : q.kind = p.kind := fields.kind
  refine ⟨q, run, ?_, fields.alike⟩
  refine lists.of_alike fields.alike rfl rfl (kind.trans lists.kind) ⟨moved, [], tidy', ?_⟩
  rw [same, fields.parked]
  exact all

theorem Lists.fits_eq {kind : PageKind} {cells : List Bytes} (wide : ∀ cell ∈ cells, 4 ≤ cell.size) :
    p.fits cells kind = true ↔ weight cells ≤ l.room kind := by
  obtain ⟨placed, blocks, tidy, -⟩ := lists.layout
  have light := length_le_weight wide
  have bounds := kind.headerSize_bounds
  have usable : p.usable ≤ p.geometry.pageSize := tidy.area.sound.usable
  have room : l.room kind = p.usable - p.headerStart - kind.headerSize := by
    unfold Listing.room
    rw [← lists.geometry]
    rfl
  rw [Page.fits_eq, room, and_iff_left_iff_imp]
  intro enough
  unfold Geometry.maxCells
  exact (Nat.le_div_iff_mul_le (by decide)).mpr (by omega)

theorem rebuild_lists {kind : PageKind} {cells : List Bytes} {rightChild : Option PageNo}
    (new : ∀ cell ∈ cells, ∃ info, Cell.Says p.limits kind cell info)
    (small : rightChild.getD 0 < 4294967296) (enough : weight cells ≤ l.room kind) :
    ∃ q, rebuild kind cells rightChild p = .ok () q ∧
      q.Lists { l with kind := kind, cells := cells } ∧ Alike p q := by
  have wide : ∀ cell ∈ cells, 4 ≤ cell.size := fun cell member =>
    have ⟨info, reads⟩ := new cell member
    Cell.Holds.size_ge ⟨info, reads, rfl⟩
  have fits := (lists.fits_eq wide).mpr enough
  obtain ⟨_, _, tidy, -⟩ := lists.layout
  obtain ⟨_, q, run⟩ := rebuild_runs rightChild tidy.area.sound tidy.area.size fits
  obtain ⟨placed, tidy', same, remade, -, -⟩ :=
    rebuild_ok tidy.area.sound tidy.area.size new wide small run
  refine ⟨q, run, ?_, remade.alike⟩
  refine lists.of_alike remade.alike rfl rfl remade.kind ⟨placed, [], tidy', ?_⟩
  rw [remade.parked, same]
  rfl

theorem rebuild_heavy {kind : PageKind} {cells : List Bytes} {rightChild : Option PageNo}
    (wide : ∀ cell ∈ cells, 4 ≤ cell.size) (heavy : l.room kind < weight cells) :
    rebuild kind cells rightChild p = .error (.cellsDoNotFit cells.length l.number) p := by
  have unfit : p.fits cells kind = false := by
    rw [Bool.eq_false_iff]
    exact fun fits => Nat.not_lt.mpr ((lists.fits_eq wide).mp fits) heavy
  unfold rebuild
  rw [Action.get_bind, unfit, lists.number]
  rfl

omit lists

/-- A change of a page and the same change of a list end alike, and a change that fails leaves the page as
it was. -/
def Agrees (p : Page) (l : Listing) (change : PageChange) : Prop :=
  (∃ q m, change.onPage p = .ok () q ∧ change.onListing l = .ok m ∧ q.Lists m ∧ Alike p q) ∨
    ∃ e, change.onPage p = .error e p ∧ change.onListing l = .error e ∧ e.isCorrupt = false

include lists

theorem Lists.step {change : PageChange} (allowed : change.Allowed p) : p.Agrees l change := by
  cases change with
  | insert i cell =>
    rcases Nat.lt_or_ge l.cells.length i with high | low
    · exact .inr ⟨_, insert_past lists high, if_neg (Nat.not_le.mpr high), rfl⟩
    · obtain ⟨q, run, lists', alike⟩ := insert_lists lists allowed low
      exact .inl ⟨q, _, run, if_pos low, lists', alike⟩
  | drop i =>
    rcases Nat.lt_or_ge i l.cells.length with low | high
    · obtain ⟨q, run, lists', alike⟩ := drop_lists lists allowed low
      exact .inl ⟨q, _, run, if_pos low, lists', alike⟩
    · exact .inr ⟨_, drop_past lists allowed high, if_neg (Nat.not_lt.mpr high), rfl⟩
  | defragment =>
    obtain ⟨q, run, lists', alike⟩ := defragment_lists lists
    exact .inl ⟨q, l, run, rfl, lists', alike⟩
  | rebuild kind cells rightChild =>
    obtain ⟨new, small⟩ := allowed
    rcases Nat.lt_or_ge (l.room kind) (weight cells) with heavy | light
    · have wide : ∀ cell ∈ cells, 4 ≤ cell.size := fun cell member =>
        have ⟨info, reads⟩ := new cell member
        Cell.Holds.size_ge ⟨info, reads, rfl⟩
      exact .inr ⟨_, rebuild_heavy lists wide heavy, if_neg (Nat.not_le.mpr heavy), rfl⟩
    · obtain ⟨q, run, lists', alike⟩ := rebuild_lists lists new small light
      exact .inl ⟨q, _, run, if_pos light, lists', alike⟩

end Step

theorem Lists.after {p : Page} {l : Listing} {changes : List PageChange} (lists : p.Lists l)
    (allowed : p.Allows changes) : (p.after changes).Lists (l.after changes) ∧ Alike p (p.after changes) := by
  induction changes generalizing p l with
  | nil => exact ⟨lists, ⟨rfl, rfl, rfl⟩⟩
  | cons change rest ih =>
    obtain ⟨now, later⟩ := allowed
    unfold Page.after Listing.after
    rw [List.foldl_cons, List.foldl_cons]
    unfold Listing.change
    rcases lists.step now with ⟨q, m, run, same, lists', alike⟩ | ⟨e, run, same, -⟩
    · rw [Action.final_of_ok run] at later ⊢
      rw [same]
      have ⟨done, close⟩ := ih lists' later
      exact ⟨done, alike.trans close⟩
    · rw [Action.final_of_error run] at later ⊢
      rw [same]
      exact ih lists later

/-- The cells that have a place and the free blocks, as the page reads them, do not meet, and with the gap and the
fragments they make up the page. -/
def Accounted (p : Page) : Prop :=
  ∃ starts cells blocks, p.pointers = .ok starts ∧ p.placedCells = .ok cells ∧
    p.freeBlocks = .ok blocks ∧
    (starts.zip (cells.map ByteArray.size) ++ blocks).Pairwise Run.Apart ∧
    (∀ run ∈ starts.zip (cells.map ByteArray.size) ++ blocks,
      p.header.contentStart ≤ run.1 ∧ run.1 + run.2 ≤ p.usable) ∧
    p.pointersEnd ≤ p.header.contentStart ∧
    p.freeBytes = p.header.contentStart - p.pointersEnd + room blocks + p.header.fragments ∧
    p.freeBytes + weight cells = p.capacity

/-- A new cell is parked just if another one is, or if there is no room for it and its pointer beside the cells
that have a place. -/
def ParksWhenFull (p : Page) : Prop :=
  ∀ i cell cells, i ≤ p.logicalCount → (∃ info, Cell.Says p.limits p.kind cell info) →
    p.placedCells = .ok cells → ∃ q, insert i cell p = .ok () q ∧
      if p.parked ≠ [] ∨ p.capacity - weight cells < cell.size + pointerSize then
        q.placedCells = .ok cells ∧ q.parked = p.parked ++ [(i, cell)]
      else q.placedCells = .ok (cells.insertIdx i cell) ∧ q.parked = []

section Shown

variable {p : Page} {l : Listing} {placed : List (Nat × Bytes)} {blocks : List Run}

theorem Tidy.pointers (tidy : Tidy p placed [] blocks) : p.pointers = .ok (placed.map Prod.fst) := by
  unfold Page.pointers
  have count : p.cellCount = (placed.map Prod.fst).length := by
    rw [List.length_map, tidy.rows.count]
  rw [count]
  apply Except.mapM_range
  intro i h
  rw [List.length_map] at h
  rw [tidy.pointer h, List.getElem_map]

theorem Tidy.capacity_eq (tidy : Tidy p placed [] blocks) :
    p.freeBytes + weight (placed.map Prod.snd) = p.capacity := by
  have free := tidy.free_eq
  have start := p.pointersStart_eq
  unfold capacity
  omega

theorem Tidy.accounted (tidy : Tidy p placed [] blocks) : p.Accounted := by
  have area := tidy.area
  have runs : (placed.map Prod.fst).zip ((placed.map Prod.snd).map ByteArray.size) ++ blocks =
      placed.map runOf ++ [] ++ blocks := by
    rw [List.append_nil, List.map_map, List.zip_map']
    rfl
  refine ⟨_, _, blocks, tidy.pointers, tidy.placedCells, area.freeBlocks, ?_, ?_, area.gap, area.free,
    tidy.capacity_eq⟩
  · rw [runs]
    exact area.apart
  · rw [runs]
    exact fun run member => ⟨(area.inside run member).1, (area.inside run member).2.1⟩

theorem Lists.logicalCells (lists : p.Lists l) : p.logicalCells = .ok l.cells := by
  obtain ⟨placed, blocks, tidy, all⟩ := lists.layout
  unfold Page.logicalCells
  rw [tidy.placedCells]
  exact all

theorem Lists.parse (lists : p.Lists l) (clear : p.parked = []) :
    Page.parse p.number p.data p.geometry p.limits = .ok p := by
  obtain ⟨placed, blocks, tidy, -⟩ := lists.layout
  rw [tidy.parse, ← clear]

theorem Lists.parksWhenFull (lists : p.Lists l) : p.ParksWhenFull := by
  intro i cell cells low new found
  obtain ⟨placed, blocks, tidy, all⟩ := lists.layout
  cases tidy.placedCells.symm.trans found
  have whole := tidy.capacity_eq
  have crowded : p.Crowded cell ↔ p.parked ≠ [] ∨
      p.capacity - weight (placed.map Prod.snd) < cell.size + pointerSize := by
    unfold Crowded
    rw [← whole, Nat.add_sub_cancel]
  by_cases full : p.Crowded cell
  · refine ⟨_, insert_crowded low full, ?_⟩
    rw [if_pos (crowded.mp full)]
    exact ⟨found, rfl⟩
  · obtain ⟨q, placed', blocks', run, tidy', moved, close⟩ :=
      insert_placed lists new (lists.count ▸ low) full
    have clear : p.parked = [] := not_not.mp (not_or.mp full).1
    rw [clear] at all
    refine ⟨q, run, ?_⟩
    rw [if_neg fun tight => full (crowded.mpr tight), tidy'.placedCells, moved, ← Except.ok.inj all]
    exact ⟨rfl, close.parked.trans clear⟩

theorem Lists.answers (lists : p.Lists l) {change : PageChange} (allowed : change.Allowed p) :
    (change.onPage.outcome p).1 = (change.onListing l).map (fun _ => ()) ∧
      ∀ e q, change.onPage p = .error e q → e.isCorrupt = false ∧ q = p := by
  unfold Action.outcome
  rcases lists.step allowed with ⟨q, m, run, same, -, -⟩ | ⟨e, run, same, fair⟩
  · rw [run, same]
    exact ⟨rfl, nofun⟩
  · rw [run, same]
    refine ⟨rfl, fun _ _ failed => ?_⟩
    cases failed
    exact ⟨fair, rfl⟩

end Shown

/-- A page that starts empty has the cells that the same changes to a list give. Its space is accounted for
to the byte, a cell is parked only for want of room, each change answers as it would for a list, and a
page without parked cells can be read back from its bytes. -/
theorem changes_refine {c : Config} (valid : c.validate = .ok ()) (number : PageNo) (kind : PageKind)
    (changes : List PageChange) :
    let geometry := Geometry.ofPage number c.pageSize c.usableSize
    let limits := PayloadLimits.ofConfig c
    ∃ p, Page.empty number kind geometry limits = .ok p ∧ (p.Allows changes →
      let q := p.after changes
      let l := Listing.after ⟨number, geometry, kind, []⟩ changes
      q.logicalCells = .ok l.cells ∧ q.kind = l.kind ∧ q.Accounted ∧ q.ParksWhenFull ∧
        (q.parked = [] → Page.parse number q.data geometry limits = .ok q) ∧
        ∀ change : PageChange, change.Allowed q →
          (change.onPage.outcome q).1 = (change.onListing l).map (fun _ => ()) ∧
            ∀ e r, change.onPage q = .error e r → e.isCorrupt = false ∧ r = q) := by
  intro geometry limits
  have sound : geometry.Sound := Config.geometry_sound valid number
  obtain ⟨p, made, -⟩ := empty_run number kind limits sound
  obtain ⟨tidy, remade, -⟩ := empty_ok sound made
  refine ⟨p, made, fun allowed => ?_⟩
  intro q l
  have start : p.Lists ⟨number, geometry, kind, []⟩ :=
    ⟨remade.alike.number, remade.alike.geometry, remade.kind, [], [], tidy, by rw [remade.parked]; rfl⟩
  obtain ⟨lists, alike⟩ := start.after allowed
  obtain ⟨_, _, tidyQ, -⟩ := lists.layout
  refine ⟨lists.logicalCells, lists.kind, tidyQ.accounted, lists.parksWhenFull, fun clear => ?_,
    fun _ allowed => lists.answers allowed⟩
  have reads := lists.parse clear
  rw [alike.number, alike.geometry, alike.limits, remade.alike.number, remade.alike.geometry,
    remade.alike.limits] at reads
  exact reads

def coming : List PageChange :=
  [.insert 0 (Bytes.ofList [3, 1, 97, 98, 99]), .drop 0, .defragment,
    .rebuild .tableInterior [Bytes.ofList [0, 0, 0, 5, 1]] (some 6)]

theorem coming_refines : ∃ p, Page.empty 1 .tableLeaf (Geometry.ofPage 1 512 512)
    (PayloadLimits.ofConfig { pageSize := 512 }) = .ok p ∧ p.Allows coming ∧
      (p.after coming).logicalCells = .ok [Bytes.ofList [0, 0, 0, 5, 1]] := by
  obtain ⟨p, made, refines⟩ := changes_refine (c := { pageSize := 512 }) rfl 1 .tableLeaf coming
  have allowed : p.Allows coming := by
    obtain ⟨tidy, remade, -⟩ := empty_ok (Config.geometry_sound (c := { pageSize := 512 }) rfl 1) made
    have start : p.Lists ⟨1, Geometry.ofPage 1 512 512, .tableLeaf, []⟩ :=
      ⟨remade.alike.number, remade.alike.geometry, remade.kind, [], [], tidy, by rw [remade.parked]; rfl⟩
    have row : ∃ info, Cell.Says p.limits p.kind (Bytes.ofList [3, 1, 97, 98, 99]) info := by
      rw [remade.alike.limits, remade.kind]
      exact ⟨_, rfl, rfl⟩
    have roomy : ¬ p.Crowded (Bytes.ofList [3, 1, 97, 98, 99]) := by
      have whole : p.freeBytes + 0 = p.usable - p.pointersStart := tidy.capacity_eq
      rw [p.pointersStart_eq, remade.kind] at whole
      have usable : p.usable = 512 := congrArg Geometry.usableSize remade.alike.geometry
      have first : p.headerStart = 100 := congrArg Geometry.headerStart remade.alike.geometry
      have size : PageKind.headerSize .tableLeaf = 8 := rfl
      rintro (parked | tight)
      · exact parked remade.parked
      · change p.freeBytes < 7 at tight
        omega
    obtain ⟨q, _, _, run, -, -, close⟩ := insert_placed start row (Nat.le_refl 0) roomy
    obtain ⟨q', run', lists, -⟩ := insert_lists start row (Nat.le_refl 0)
    cases run.symm.trans run'
    have later : q.Allows [.drop 0, .defragment] := ⟨close.parked.trans remade.parked, trivial, trivial⟩
    have alike := (lists.after later).2
    refine ⟨row, ?_⟩
    have next : (PageChange.onPage (.insert 0 (Bytes.ofList [3, 1, 97, 98, 99]))).final p = q :=
      Action.final_of_ok run
    rw [next]
    refine ⟨later.1, trivial, ⟨fun cell member => ?_, by decide⟩, trivial⟩
    rw [List.mem_singleton.mp member]
    have limits := alike.limits.trans (close.alike.limits.trans remade.alike.limits)
    change ∃ info, Cell.Says (q.after [.drop 0, .defragment]).limits .tableInterior _ info
    rw [limits]
    exact ⟨_, rfl, rfl⟩
  exact ⟨p, made, allowed, (refines allowed).1⟩

end Page

end TreeFile
