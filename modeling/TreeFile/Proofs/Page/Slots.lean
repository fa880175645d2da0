import TreeFile.Proofs.Page.Links
import TreeFile.Proofs.Page.Rebuild

/-!
Pages as rows of slots. What the cells of a page hold, parked ones included, is all that the rest
of the engine needs to know of it.
-/

namespace TreeFile

def Held (limits : PayloadLimits) (kind : PageKind) (cells : List Bytes) (slots : List Slot) :
    Prop :=
  cells.map (Cell.slot? limits kind) = slots.map some

namespace Held

variable {limits : PayloadLimits} {kind : PageKind} {cells more : List Bytes}
  {slots others : List Slot}

theorem length (held : Held limits kind cells slots) : cells.length = slots.length := by
  have same := congrArg List.length held
  rw [List.length_map, List.length_map] at same
  exact same

theorem get (held : Held limits kind cells slots) {i : Nat} (h : i < cells.length)
    (h' : i < slots.length) : Cell.Holds limits kind cells[i] slots[i] := by
  have same : (cells.map (Cell.slot? limits kind))[i]? = (slots.map some)[i]? := by rw [held]
  rw [List.getElem?_map, List.getElem?_map, List.getElem?_eq_getElem h,
    List.getElem?_eq_getElem h'] at same
  exact Cell.slot?_eq.mp (Option.some.inj same)

theorem reads (held : Held limits kind cells slots) :
    ∀ cell ∈ cells, ∃ info, Cell.Says limits kind cell info := by
  intro cell member
  obtain ⟨i, h, rfl⟩ := List.mem_iff_getElem.mp member
  obtain ⟨info, reads, -⟩ := held.get h (held.length ▸ h)
  exact ⟨info, reads⟩

theorem wide (held : Held limits kind cells slots) : ∀ cell ∈ cells, 4 ≤ cell.size := by
  intro cell member
  obtain ⟨i, h, rfl⟩ := List.mem_iff_getElem.mp member
  exact (held.get h (held.length ▸ h)).size_ge

theorem nil : Held limits kind [] [] := rfl

theorem cons {cell : Bytes} {slot : Slot} (first : Cell.Holds limits kind cell slot)
    (rest : Held limits kind cells slots) : Held limits kind (cell :: cells) (slot :: slots) := by
  unfold Held at rest ⊢
  rw [List.map_cons, List.map_cons, rest, Cell.slot?_eq.mpr first]

theorem cons_iff {cell : Bytes} {slot : Slot} :
    Held limits kind (cell :: cells) (slot :: slots) ↔
      Cell.Holds limits kind cell slot ∧ Held limits kind cells slots := by
  unfold Held
  rw [List.map_cons, List.map_cons, List.cons.injEq, Cell.slot?_eq]

theorem append (first : Held limits kind cells slots) (second : Held limits kind more others) :
    Held limits kind (cells ++ more) (slots ++ others) := by
  unfold Held at first second ⊢
  rw [List.map_append, List.map_append, first, second]

theorem take (held : Held limits kind cells slots) (n : Nat) :
    Held limits kind (cells.take n) (slots.take n) := by
  unfold Held at held ⊢
  rw [List.map_take, List.map_take, held]

theorem drop (held : Held limits kind cells slots) (n : Nat) :
    Held limits kind (cells.drop n) (slots.drop n) := by
  unfold Held at held ⊢
  rw [List.map_drop, List.map_drop, held]

theorem of_says (valid : ∀ cell ∈ cells, ∃ info, Cell.Says limits kind cell info) :
    ∃ slots, Held limits kind cells slots := by
  induction cells with
  | nil => exact ⟨[], .nil⟩
  | cons cell rest ih =>
    obtain ⟨own, reads⟩ := valid cell List.mem_cons_self
    obtain ⟨slots, held⟩ := ih fun other member => valid other (List.mem_cons_of_mem _ member)
    exact ⟨own.slot cell :: slots, .cons ⟨own, reads, rfl⟩ held⟩

theorem insertIdx {cell : Bytes} {slot : Slot} (held : Held limits kind cells slots)
    (new : Cell.Holds limits kind cell slot) (i : Nat) :
    Held limits kind (cells.insertIdx i cell) (slots.insertIdx i slot) := by
  unfold Held at held ⊢
  rw [List.map_insertIdx, List.map_insertIdx, held, Cell.slot?_eq.mpr new]

theorem eraseIdx (held : Held limits kind cells slots) (i : Nat) :
    Held limits kind (cells.eraseIdx i) (slots.eraseIdx i) := by
  unfold Held at held ⊢
  rw [← List.eraseIdx_map, ← List.eraseIdx_map, held]

theorem set {cell : Bytes} {slot : Slot} (held : Held limits kind cells slots)
    (new : Cell.Holds limits kind cell slot) (i : Nat) :
    Held limits kind (cells.set i cell) (slots.set i slot) := by
  unfold Held at held ⊢
  rw [List.map_set, List.map_set, held, Cell.slot?_eq.mpr new]

end Held

namespace Page

variable {p q : Page} {slots : List Slot} {right : Option PageNo}

theorem unpark_append (cells : List Bytes) (parked : List (Nat × Bytes)) (i : Nat) (cell : Bytes) :
    unpark cells (parked ++ [(i, cell)]) = unpark cells parked >>= fun all =>
      if i ≤ all.length then .ok (all.insertIdx i cell) else .error (.cellPosition i all.length) := by
  induction parked generalizing cells with
  | nil => rfl
  | cons first rest ih =>
    obtain ⟨j, other⟩ := first
    rw [List.cons_append]
    unfold unpark
    by_cases low : j ≤ cells.length
    · rw [if_pos low, if_pos low]
      exact ih _
    · rw [if_neg low, if_neg low]
      rfl

theorem unpark_sublist {cells all : List Bytes} {parked : List (Nat × Bytes)}
    (run : unpark cells parked = .ok all) :
    cells.Sublist all ∧ all.length = cells.length + parked.length := by
  induction parked generalizing cells with
  | nil =>
    cases run
    exact ⟨List.Sublist.refl _, rfl⟩
  | cons first rest ih =>
    obtain ⟨i, cell⟩ := first
    unfold unpark at run
    by_cases low : i ≤ cells.length
    · rw [if_pos low] at run
      obtain ⟨sub, length⟩ := ih run
      have less : cells.Sublist (cells.insertIdx i cell) := by
        have erased := List.eraseIdx_sublist (cells.insertIdx i cell) i
        rw [List.eraseIdx_insertIdx_self] at erased
        exact erased
      rw [List.length_insertIdx_of_le_length low] at length
      rw [List.length_cons]
      exact ⟨less.trans sub, by omega⟩
    · rw [if_neg low] at run
      cases run

structure Bears (p : Page) (slots : List Slot) (right : Option PageNo) : Prop where
  layout : ∃ placed blocks cells, Tidy p placed [] blocks ∧
    unpark (placed.map Prod.snd) p.parked = .ok cells ∧ Held p.limits p.kind cells slots
  right : p.header.rightChild = right

theorem Bears.placed (bears : Bears p slots right) (clear : p.parked = []) :
    ∃ placed blocks, Tidy p placed [] blocks ∧ Held p.limits p.kind (placed.map Prod.snd) slots := by
  obtain ⟨placed, blocks, cells, tidy, all, held⟩ := bears.layout
  rw [clear] at all
  cases all
  exact ⟨placed, blocks, tidy, held⟩

theorem bears_of_placed {placed : List (Nat × Bytes)} {blocks : List Run}
    (tidy : Tidy p placed [] blocks) (clear : p.parked = [])
    (held : Held p.limits p.kind (placed.map Prod.snd) slots) (sameRight : p.header.rightChild = right) :
    Bears p slots right :=
  ⟨⟨placed, blocks, _, tidy, by rw [clear]; rfl, held⟩, sameRight⟩

theorem Bears.logicalCells (bears : Bears p slots right) :
    ∃ cells, p.logicalCells = .ok cells ∧ Held p.limits p.kind cells slots := by
  obtain ⟨placed, blocks, cells, tidy, all, held⟩ := bears.layout
  refine ⟨cells, ?_, held⟩
  unfold Page.logicalCells
  rw [tidy.placedCells]
  exact all

theorem Bears.logicalCount (bears : Bears p slots right) : p.logicalCount = slots.length := by
  obtain ⟨placed, blocks, cells, tidy, all, held⟩ := bears.layout
  have length := (unpark_sublist all).2
  rw [List.length_map] at length
  rw [← held.length, length]
  unfold Page.logicalCount
  rw [tidy.rows.count]

theorem Bears.sound (bears : Bears p slots right) :
    p.geometry.Sound ∧ p.data.size = p.geometry.pageSize := by
  obtain ⟨placed, blocks, cells, tidy, all, held⟩ := bears.layout
  exact ⟨tidy.area.sound, tidy.area.size⟩

theorem Bears.right_isSome (bears : Bears p slots right) : right.isSome = !p.isLeaf := by
  obtain ⟨placed, blocks, cells, tidy, all, held⟩ := bears.layout
  rw [← bears.right]
  exact tidy.area.header.valid.rightSome

theorem Bears.right_lt (bears : Bears p slots right) {child : PageNo} (same : right = some child) :
    child < 4294967296 := by
  obtain ⟨placed, blocks, cells, tidy, all, held⟩ := bears.layout
  exact tidy.area.header.valid.rightLt child (bears.right.trans same)

theorem Bears.left_isSome (bears : Bears p slots right) {slot : Slot} (member : slot ∈ slots) :
    slot.left.isSome = !p.isLeaf := by
  obtain ⟨cells, -, held⟩ := bears.logicalCells
  obtain ⟨i, h, rfl⟩ := List.mem_iff_getElem.mp member
  have holds := held.get (held.length ▸ h) h
  cases leaf : p.isLeaf with
  | true => rw [holds.left_leaf leaf]; rfl
  | false => rw [holds.left_interior leaf]; rfl

section Reading

variable (bears : Bears p slots right) (clear : p.parked = [])

include bears clear

theorem Bears.count : p.cellCount = slots.length := by
  obtain ⟨placed, blocks, tidy, held⟩ := bears.placed clear
  rw [← held.length, List.length_map]
  exact tidy.rows.count

theorem Bears.parse : Page.parse p.number p.data p.geometry p.limits = .ok p := by
  obtain ⟨placed, blocks, tidy, held⟩ := bears.placed clear
  rw [tidy.parse]
  have same : { p with parked := [] } = p := by rw [← clear]
  rw [same]

theorem Bears.cell {i : Nat} (h : i < slots.length) :
    ∃ cell, p.cellBytes i = .ok cell ∧ Cell.Holds p.limits p.kind cell slots[i] := by
  obtain ⟨placed, blocks, tidy, held⟩ := bears.placed clear
  have h' : i < (placed.map Prod.snd).length := held.length ▸ h
  have holds := held.get h' h
  rw [List.getElem_map] at holds
  rw [List.length_map] at h'
  exact ⟨_, tidy.cellBytes h', holds⟩

theorem Bears.info {i : Nat} (h : i < slots.length) :
    ∃ info, p.cellInfo i = .ok info ∧ info.leftChild = slots[i].left ∧
      info.key = slots[i].stub.row ∧ info.payloadSize = slots[i].stub.size ∧
      info.overflowPage = slots[i].stub.head ∧
      p.data.slice info.payloadStart (info.payloadStart + info.kept) = .ok slots[i].stub.kept ∧
      slots[i].stub.kept.size = info.kept := by
  obtain ⟨placed, blocks, tidy, held⟩ := bears.placed clear
  have h' : i < (placed.map Prod.snd).length := held.length ▸ h
  obtain ⟨info, reads, same⟩ := held.get h' h
  rw [List.getElem_map] at reads same
  rw [List.length_map] at h'
  have found := tidy.cellInfo h' reads
  have has := tidy.rows.lies _ (List.getElem_mem h')
  have inside := reads.kept_inside
  refine ⟨_, found, ?_, ?_, ?_, ?_, ?_, ?_⟩
  · rw [same]
    rfl
  · rw [same]
    rfl
  · rw [same]
    rfl
  · rw [same]
    rfl
  · rw [same]
    refine Bytes.slice_ok.mpr ⟨⟨Nat.le_add_right _ _, ?_⟩, ?_⟩
    · have bound := has.1
      dsimp only
      omega
    · dsimp only
      rw [Nat.add_assoc]
      exact has.extract_inside (Nat.le_add_right _ _) inside
  · rw [same]
    have size : (placed[i].2.extract info.payloadStart (info.payloadStart + info.kept)).size =
        info.payloadStart + info.kept - info.payloadStart := Bytes.size_extract_of_le inside
    exact size.trans (Nat.add_sub_cancel_left _ _)

theorem Bears.pointer_inside {i start : Nat} (run : p.pointer i = .ok start) : i < slots.length := by
  rw [← bears.count clear]
  refine Nat.lt_of_not_le fun past => ?_
  unfold pointer at run
  rw [if_pos past] at run
  exact Except.throw_bind_ok run

theorem Bears.info_inside {i : Nat} {info : CellInfo} (run : p.cellInfo i = .ok info) :
    i < slots.length := by
  unfold cellInfo at run
  obtain ⟨start, found, -⟩ := Except.bind_ok.mp run
  exact bears.pointer_inside clear found

theorem Bears.cell_inside {i : Nat} {cell : Bytes} (run : p.cellBytes i = .ok cell) :
    i < slots.length := by
  unfold cellBytes at run
  obtain ⟨start, found, -⟩ := Except.bind_ok.mp run
  exact bears.pointer_inside clear found

theorem Bears.child_ok {i : Nat} {child : PageNo} :
    p.child i = .ok child ↔
      child ≠ 0 ∧ (slots.map Slot.left ++ [right])[i]? = some (some child) := by
  obtain ⟨placed, blocks, tidy, held⟩ := bears.placed clear
  have length := held.length
  rw [List.length_map] at length
  have count := tidy.rows.count
  have lefts : (slots.map Slot.left).length = slots.length := List.length_map _
  have leftsSome := fun slot (member : slot ∈ slots) => bears.left_isSome member
  have rightSome := bears.right_isSome
  unfold Page.child
  cases leaf : p.isLeaf with
  | true =>
    rw [leaf] at leftsSome rightSome
    refine ⟨fun run => absurd run Except.throw_bind_ok, fun ⟨_, found⟩ => ?_⟩
    have member := List.mem_of_getElem? found
    rcases List.mem_append.mp member with old | last
    · obtain ⟨slot, isSlot, same⟩ := List.mem_map.mp old
      have none := leftsSome slot isSlot
      rw [same] at none
      cases none
    · rw [← List.mem_singleton.mp last] at rightSome
      cases rightSome
  | false =>
    rw [if_neg (by decide)]
    dsimp only
    rcases Nat.lt_trichotomy i slots.length with less | rfl | more
    · have h' : i < placed.length := by omega
      have holds := held.get (by rw [List.length_map]; exact h') less
      rw [List.getElem_map] at holds
      have word := holds.left_interior leaf
      rw [if_pos (by omega), tidy.pointer h', List.getElem?_append_left (by omega),
        List.getElem?_map, List.getElem?_eq_getElem less, Option.map_some, word]
      have read := tidy.firstWord h'
      rw [Except.ok_bind, read]
      dsimp only
      rw [Except.pure_bind_run]
      by_cases zero : placed[i].2.at32 0 = 0
      · rw [if_pos zero]
        refine ⟨fun run => absurd run Except.throw_bind_ok, fun ⟨nonzero, same⟩ => ?_⟩
        cases same
        exact absurd zero nonzero
      · rw [if_neg zero]
        refine ⟨fun run => ?_, fun ⟨_, same⟩ => ?_⟩
        · cases run
          exact ⟨zero, rfl⟩
        · cases same
          rfl
    · rw [if_neg (by omega), if_pos (by omega), Except.pure_bind_run,
        List.getElem?_append_right (by omega), lefts, Nat.sub_self, bears.right]
      cases right with
      | none =>
        rw [leaf] at rightSome
        cases rightSome
      | some last =>
        rw [Option.getD_some]
        by_cases zero : last = 0
        · rw [if_pos zero]
          refine ⟨fun run => absurd run Except.throw_bind_ok, fun ⟨nonzero, same⟩ => ?_⟩
          cases same
          exact absurd zero nonzero
        · rw [if_neg zero]
          refine ⟨fun run => ?_, fun ⟨_, same⟩ => ?_⟩
          · cases run
            exact ⟨zero, rfl⟩
          · cases same
            rfl
    · rw [if_neg (by omega), if_neg (by omega), List.getElem?_eq_none (by
        rw [List.length_append, lefts, List.length_singleton]
        omega)]
      refine ⟨fun run => absurd run Except.throw_bind_ok, fun ⟨_, same⟩ => ?_⟩
      cases same

end Reading

theorem insert_bears {i : Nat} {cell : Bytes} {slot : Slot} (bears : Bears p slots right)
    (new : Cell.Holds p.limits p.kind cell slot) (run : insert i cell p = .ok () q) :
    i ≤ slots.length ∧ Bears q (slots.insertIdx i slot) right ∧ Alike p q ∧ q.kind = p.kind := by
  unfold insert at run
  rw [Action.get_bind] at run
  by_cases past : i > p.logicalCount
  · rw [if_pos past] at run
    exact absurd run Action.throw_bind_ok
  have low : i ≤ slots.length := by
    rw [← bears.logicalCount]
    exact Nat.le_of_not_lt past
  refine ⟨low, ?_⟩
  rw [if_neg past] at run
  obtain ⟨placed, blocks, cells, tidy, all, held⟩ := bears.layout
  dsimp only at run
  split at run
  · cases run
    refine ⟨⟨⟨placed, blocks, cells.insertIdx i cell, tidy.carry rfl rfl rfl rfl rfl rfl rfl rfl rfl
      tidy.area.header fun _ _ => rfl, ?_, held.insertIdx new i⟩, bears.right⟩, ⟨rfl, rfl, rfl⟩, rfl⟩
    dsimp only
    rw [unpark_append, all, Except.ok_bind, if_pos (by rw [held.length]; exact low)]
  · rename_i room
    have clear : (p.parked = [] ∧ cell.size + pointerSize ≤ p.freeBytes) ∧
        p.cellCount + 1 ≤ p.geometry.maxCells := by
      simpa [hasParked] using room
    obtain ⟨info, reads, same⟩ := new
    rw [clear.1.1] at all
    cases all
    have length := held.length
    rw [List.length_map] at length
    have count := tidy.rows.count
    obtain ⟨placed', blocks', tidy', moved, close⟩ := place_ok tidy (by omega) (by omega) reads
      (Cell.Holds.size_ge ⟨info, reads, rfl⟩) run
    refine ⟨bears_of_placed tidy' (close.parked.trans clear.1.1) ?_
      (close.rightChild.trans bears.right), close.alike, close.kind⟩
    rw [moved, close.alike.limits, close.kind]
    exact held.insertIdx ⟨info, reads, same⟩ i

theorem drop_bears {i : Nat} (bears : Bears p slots right) (clear : p.parked = [])
    (run : drop i p = .ok () q) :
    i < slots.length ∧ Bears q (slots.eraseIdx i) right ∧ Alike p q ∧ q.kind = p.kind ∧
      q.parked = [] := by
  obtain ⟨placed, blocks, tidy, held⟩ := bears.placed clear
  obtain ⟨inside, placed', blocks', tidy', same, close⟩ := drop_ok tidy run
  have length := held.length
  rw [List.length_map] at length
  have parked := close.parked.trans clear
  refine ⟨by omega, bears_of_placed tidy' parked ?_ (close.rightChild.trans bears.right),
    close.alike, close.kind, parked⟩
  rw [same, close.alike.limits, close.kind]
  exact held.eraseIdx i

theorem setRightChild_bears {child : PageNo} (bears : Bears p slots right)
    (small : child < 4294967296) (run : setRightChild child p = .ok () q) :
    Bears q slots (some child) ∧ Alike p q ∧ q.kind = p.kind ∧ q.parked = p.parked := by
  obtain ⟨placed, blocks, cells, tidy, all, held⟩ := bears.layout
  obtain ⟨-, tidy', alike, parked, kind, sameRight⟩ := setRightChild_ok tidy small run
  refine ⟨⟨⟨placed, blocks, cells, tidy', ?_, ?_⟩, sameRight⟩, alike, kind, parked⟩
  · rw [parked]
    exact all
  · rw [alike.limits, kind]
    exact held

theorem setChild_bears {i : Nat} {child : PageNo} (bears : Bears p slots right)
    (clear : p.parked = []) (small : child < 4294967296) (run : setChild i child p = .ok () q) :
    i ≤ slots.length ∧ Alike p q ∧ q.kind = p.kind ∧ q.parked = [] ∧
      Bears q (slots.modify i fun slot => { slot with left := some child })
        (if i = slots.length then some child else right) := by
  obtain ⟨placed, blocks, tidy, held⟩ := bears.placed clear
  have length := held.length
  have count := tidy.rows.count
  rw [List.length_map] at length
  rcases Nat.lt_trichotomy i slots.length with less | rfl | more
  · have h' : i < placed.length := by omega
    obtain ⟨interior, tidy', close⟩ := setChild_ok tidy h' small run
    have parked := close.parked.trans clear
    refine ⟨by omega, close.alike, close.kind, parked, ?_⟩
    rw [if_neg (by omega)]
    refine bears_of_placed tidy' parked ?_ (close.rightChild.trans bears.right)
    have holds := held.get (by rw [List.length_map]; exact h') less
    rw [List.getElem_map] at holds
    have wide := holds.size_ge
    have changed := (holds.setLeft interior small (Bytes.putU32_ok.mpr ⟨by omega, rfl⟩)).1
    rw [close.alike.limits, close.kind, List.map_set, List.modify_eq_set_getElem?,
      List.getElem?_eq_getElem less]
    exact held.set changed i
  · have run := run
    unfold setChild at run
    rw [Action.get_bind] at run
    cases leaf : p.isLeaf with
    | true =>
      rw [leaf, if_pos rfl] at run
      exact absurd run Action.throw_bind_ok
    | false =>
      rw [leaf, if_neg (by decide)] at run
      dsimp only at run
      rw [if_neg (by omega), if_pos (by omega)] at run
      obtain ⟨bears', alike, kind, parked⟩ := setRightChild_bears bears small run
      refine ⟨Nat.le_refl _, alike, kind, parked.trans clear, ?_⟩
      rw [if_pos rfl, List.modify_eq_self (Nat.le_refl _)]
      exact bears'
  · unfold setChild at run
    rw [Action.get_bind] at run
    cases leaf : p.isLeaf with
    | true =>
      rw [leaf, if_pos rfl] at run
      exact absurd run Action.throw_bind_ok
    | false =>
      rw [leaf, if_neg (by decide)] at run
      dsimp only at run
      rw [if_neg (by omega), if_neg (by omega)] at run
      exact absurd run Action.throw_ok

theorem rebuild_bears {kind : PageKind} {cells : List Bytes} {rightChild : Option PageNo}
    (sound : p.geometry.Sound) (size : p.data.size = p.geometry.pageSize)
    (held : Held p.limits kind cells slots) (small : rightChild.getD 0 < 4294967296)
    (run : rebuild kind cells rightChild p = .ok () q) :
    Bears q slots (if kind.isLeaf then none else some (rightChild.getD 0)) ∧ Remade p q kind ∧
      p.fits cells kind = true := by
  obtain ⟨placed, tidy, same, remade, sameRight, fits⟩ :=
    rebuild_ok sound size held.reads held.wide small run
  refine ⟨bears_of_placed tidy remade.parked ?_ sameRight, remade, fits⟩
  rw [same, remade.alike.limits, remade.kind]
  exact held

theorem reset_bears {kind : PageKind} (sound : p.geometry.Sound)
    (size : p.data.size = p.geometry.pageSize) (run : reset kind p = .ok () q) :
    Bears q [] (if kind.isLeaf then none else some 0) ∧ Remade p q kind := by
  obtain ⟨tidy, remade, header⟩ := reset_ok sound size run
  refine ⟨bears_of_placed tidy remade.parked rfl ?_, remade⟩
  rw [header]
  rfl

theorem empty_bears {number : PageNo} {kind : PageKind} {geometry : Geometry}
    {limits : PayloadLimits} (sound : geometry.Sound)
    (run : Page.empty number kind geometry limits = .ok q) :
    Bears q [] (if kind.isLeaf then none else some 0) ∧
      Remade (blank number kind geometry limits) q kind :=
  reset_bears sound (Bytes.size_zeros _) (Action.applied_ok.mp run)

def Overfull (p : Page) : Prop := ∃ cells, p.logicalCells = .ok cells ∧ p.fits cells p.kind = false

theorem Tidy.free_eq {placed : List (Nat × Bytes)} {blocks : List Run}
    (tidy : Tidy p placed [] blocks) :
    p.freeBytes + weight (placed.map Prod.snd) = p.usable - p.headerStart - p.kind.headerSize := by
  have area := tidy.area
  have account := area.account
  have free := area.free
  have gap := area.gap
  have start := p.pointersStart_eq
  have ends := p.pointersEnd_eq
  have count := tidy.rows.count
  rw [List.append_nil, room_runOf] at account
  rw [weight_eq, List.length_map, ← count]
  omega

theorem weight_insertIdx {cells : List Bytes} {i : Nat} (cell : Bytes) (low : i ≤ cells.length) :
    weight (cells.insertIdx i cell) = cell.size + pointerSize + weight cells := by
  have same := total_perm ((List.perm_insertIdx cell cells low).map fun c => c.size + pointerSize)
  rw [List.map_cons, total_cons] at same
  exact same

theorem insert_overfull {i : Nat} {cell : Bytes} {slot : Slot} (bears : Bears p slots right)
    (new : Cell.Holds p.limits p.kind cell slot) (before : p.parked ≠ [] → Overfull p)
    (run : insert i cell p = .ok () q) : q.parked ≠ [] → Overfull q := by
  intro parked
  have low := (insert_bears bears new run).1
  unfold insert at run
  rw [Action.get_bind, if_neg (by rw [bears.logicalCount]; omega)] at run
  obtain ⟨placed, blocks, cells, tidy, all, held⟩ := bears.layout
  have logical : p.logicalCells = .ok cells := by
    unfold logicalCells
    rw [tidy.placedCells]
    exact all
  have count := tidy.rows.count
  have free := tidy.free_eq
  dsimp only at run
  split at run
  · rename_i full
    cases run
    refine ⟨cells.insertIdx i cell, ?_, ?_⟩
    · have placedCells : placedCells { p with parked := p.parked ++ [(i, cell)] } =
          .ok (placed.map Prod.snd) := tidy.placedCells
      unfold logicalCells
      rw [placedCells, Except.ok_bind]
      dsimp only
      rw [unpark_append, all, Except.ok_bind, if_pos (by rw [held.length]; exact low)]
    · rw [Bool.eq_false_iff]
      intro fits
      obtain ⟨light, few⟩ := fits_eq.mp fits
      have light : weight (cells.insertIdx i cell) ≤
        p.usable - p.headerStart - p.kind.headerSize := light
      have few : (cells.insertIdx i cell).length ≤ p.geometry.maxCells := few
      rw [weight_insertIdx cell (by rw [held.length]; exact low)] at light
      rw [List.length_insertIdx_of_le_length (by rw [held.length]; exact low)] at few
      by_cases clear : p.parked = []
      · rw [clear] at all
        cases all
        rw [List.length_map] at few
        simp [hasParked, clear] at full
        omega
      · obtain ⟨others, found, unfit⟩ := before clear
        rw [logical] at found
        cases found
        rw [Bool.eq_false_iff] at unfit
        exact unfit (fits_eq.mpr ⟨by omega, by omega⟩)
  · rename_i room
    have clear : (p.parked = [] ∧ cell.size + pointerSize ≤ p.freeBytes) ∧
        p.cellCount + 1 ≤ p.geometry.maxCells := by
      simpa [hasParked] using room
    obtain ⟨info, reads, -⟩ := new
    rw [clear.1.1] at all
    cases all
    have length := held.length
    rw [List.length_map] at length
    obtain ⟨placed', blocks', tidy', moved, close⟩ := place_ok tidy (by omega) (by omega) reads
      (Cell.Holds.size_ge ⟨info, reads, rfl⟩) run
    exact absurd (close.parked.trans clear.1.1) parked

end Page

end TreeFile
