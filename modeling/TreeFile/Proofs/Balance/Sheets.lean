import TreeFile.Proofs.Balance.Windows
import TreeFile.Proofs.Page.Audit

/-!
Sheets: what pages say, whatever hangs below them. Neighbouring pages are read as one, with the
dividers between them. Whatever a page says is also what a row says, of which nothing but the
pages of its kids and the stubs of its items is known.
-/

namespace TreeFile

/-- What a page says: its cells in order, and the page behind the last one. -/
structure Sheet where
  slots : List Slot
  right : Option PageNo
deriving DecidableEq

namespace Sheet

def kids (sheet : Sheet) : List (Option PageNo) := sheet.slots.map Slot.left ++ [sheet.right]

def stubs (sheet : Sheet) : List Stub := sheet.slots.map Slot.stub

/-- What stands between two pages: the divider, right of the last child of the page before it. Between
leaves of a table there is nothing, as the divider only repeats a row number. -/
def between (kind : PageKind) (right : Option PageNo) (divider : Stub) : List Slot :=
  if kind != .tableLeaf then [⟨right, divider⟩] else []

def join (kind : PageKind) : List Sheet → List Stub → Sheet
  | [], _ => ⟨[], none⟩
  | sheet :: _, [] => sheet
  | sheet :: rest, divider :: more =>
    ⟨sheet.slots ++ between kind sheet.right divider ++ (join kind rest more).slots,
      (join kind rest more).right⟩

theorem length_kids (sheet : Sheet) : sheet.kids.length = sheet.slots.length + 1 := by
  unfold kids
  rw [List.length_append, List.length_map]
  rfl

end Sheet

namespace Page

variable {p : Page} {sheet : Sheet}

/-- The cells that are read off a page, parked ones included, are those of the sheet. On the page
they may overlap. -/
structure Reads (p : Page) (sheet : Sheet) : Prop where
  valid : p.header.Valid
  cells : ∃ cells, p.logicalCells = .ok cells ∧ Held p.limits p.kind cells sheet.slots
  right : p.header.rightChild = sheet.right

theorem Bears.reads {slots : List Slot} {right : Option PageNo} (bears : p.Bears slots right) :
    p.Reads ⟨slots, right⟩ := by
  obtain ⟨placed, blocks, cells, tidy, all, held⟩ := bears.layout
  exact ⟨tidy.area.header.valid, bears.logicalCells, bears.right⟩

theorem Reads.lastChild (reads : p.Reads sheet) {child : PageNo} (run : p.child p.cellCount = .ok child) :
    sheet.right = some child := by
  have some_ : sheet.right.isSome = !p.isLeaf := reads.right ▸ reads.valid.rightSome
  unfold Page.child at run
  dsimp only at run
  by_cases leaf : p.isLeaf = true
  · rw [if_pos leaf] at run
    exact absurd run Except.throw_bind_ok
  rw [if_neg leaf, if_neg (Nat.lt_irrefl _), if_pos rfl, Except.pure_bind_run, reads.right] at run
  rw [Bool.not_eq_true] at leaf
  rw [leaf] at some_
  obtain ⟨last, isLast⟩ := Option.isSome_iff_exists.mp some_
  rw [isLast] at run ⊢
  by_cases zero : (some last).getD 0 = 0
  · rw [if_pos zero] at run
    exact absurd run Except.throw_bind_ok
  · rw [if_neg zero] at run
    cases run
    rfl

theorem Reads.right_lt (reads : p.Reads sheet) {child : PageNo} (same : sheet.right = some child) :
    child < 4294967296 :=
  reads.valid.rightLt child (reads.right.trans same)

theorem Reads.kids_isSome {tree : TreeKind} {h : Nat} (reads : p.Reads sheet) (kind : p.kind = .at tree h) :
    ∀ kid ∈ sheet.kids, kid.isSome = !decide (h = 0) := by
  obtain ⟨cells, -, held⟩ := reads.cells
  have isLeaf : p.isLeaf = decide (h = 0) := by
    unfold isLeaf
    rw [kind, PageKind.isLeaf_at]
  rw [← isLeaf]
  intro kid member
  rcases List.mem_append.mp member with left | last
  · obtain ⟨slot, among, rfl⟩ := List.mem_map.mp left
    obtain ⟨i, inside, rfl⟩ := List.mem_iff_getElem.mp among
    have holds := held.get (held.length.symm ▸ inside) inside
    cases leaf : p.isLeaf with
    | true => exact congrArg Option.isSome (holds.left_leaf leaf)
    | false => exact congrArg Option.isSome (holds.left_interior leaf)
  · rw [List.mem_singleton.mp last, ← reads.right]
    exact reads.valid.rightSome

section Parsed

variable (parsed : p.Parsed) (usable : p.usable ≤ p.data.size)

include parsed usable

theorem Parsed.cellBytes {i : Nat} (inside : i < p.cellCount) :
    ∃ cell, p.cellBytes i = .ok cell ∧ ∃ own, Cell.Says p.limits p.kind cell own := by
  obtain ⟨info, pointer, read, -, high⟩ := parsed.cell usable inside
  have fits : p.cellStart i + info.size ≤ p.data.size := Nat.le_trans high usable
  have size : (p.data.extract (p.cellStart i) (p.cellStart i + info.size)).size = info.size := by
    rw [Bytes.size_extract_of_le fits, Nat.add_sub_cancel_left]
  have has := Bytes.hasAt_extract (Nat.le_add_right (p.cellStart i) info.size) fits
  refine ⟨p.data.extract (p.cellStart i) (p.cellStart i + info.size), ?_, ?_⟩
  · unfold Page.cellBytes
    rw [pointer, read]
    exact if_pos fits
  · unfold cellInfo at read
    rw [pointer, Except.ok_bind] at read
    refine Cell.Says.of_lies ⟨has, ?_⟩ size.symm read
    rw [size]
    exact high

theorem Parsed.reads : ∃ sheet, p.Reads sheet := by
  obtain ⟨cells, placed, valid⟩ := Except.mapM_all fun i member =>
    parsed.cellBytes usable (List.mem_range.mp member)
  obtain ⟨slots, held⟩ := Held.of_says valid
  refine ⟨⟨slots, p.header.rightChild⟩, parsed.header.valid, ⟨cells, ?_, held⟩, rfl⟩
  unfold logicalCells placedCells
  rw [placed, parsed.clear]
  rfl

end Parsed

theorem reads_of_parse {d : Disk} {number : Nat} (sound : d.Sound)
    (run : Page.parse number (d.image number) (d.geometry number) d.limits = .ok p) : ∃ sheet, p.Reads sheet := by
  obtain ⟨-, isData, isGeometry, -, parsed⟩ := parse_ok run
  refine parsed.reads ?_
  unfold usable
  rw [isData, isGeometry, sound.sizes]
  exact sound.usable_bounds.2

end Page

variable {tree : TreeKind} {h : Nat} {limits : PayloadLimits}

namespace Row

theorem slots_prepend (limits : PayloadLimits) (cells : List (Limb h × Item)) (row : Row (Limb h)) :
    (prepend cells row).slots limits tree =
      cells.map (fun c => (⟨Limb.page? h c.1, c.2.stub limits tree⟩ : Slot)) ++ row.slots limits tree :=
  List.map_append

theorem slots_left (limits : PayloadLimits) (row : Row (Limb h)) :
    (row.slots limits tree).map Slot.left ++ [row.right] = row.kids.map (Limb.page? h) := by
  unfold slots right kids
  rw [List.map_map, List.map_append, List.map_map]
  rfl

def sheet (limits : PayloadLimits) (tree : TreeKind) (row : Row (Limb h)) : Sheet :=
  ⟨row.slots limits tree, row.right⟩

theorem kids_sheet (limits : PayloadLimits) (tree : TreeKind) (row : Row (Limb h)) :
    (row.sheet limits tree).kids = row.kids.map (Limb.page? h) := row.slots_left limits

theorem stubs_sheet (limits : PayloadLimits) (tree : TreeKind) (row : Row (Limb h)) :
    (row.sheet limits tree).stubs = row.items.map fun item => item.stub limits tree := by
  unfold Sheet.stubs sheet slots items
  rw [List.map_map, List.map_map]
  rfl

theorem sheet_flatten (limits : PayloadLimits) (tree : TreeKind) (window : Row (Node (Limb h))) :
    (window.flatten (PageKind.at tree h != .tableLeaf)).sheet limits tree =
      Sheet.join (.at tree h) (window.kids.map fun node => node.row.sheet limits tree)
        (window.items.map fun item => item.stub limits tree) := by
  obtain ⟨cells, last⟩ := window
  induction cells with
  | nil => rfl
  | cons c rest ih =>
    obtain ⟨node, item⟩ := c
    have kids : kids (⟨(node, item) :: rest, last⟩ : Row (Node (Limb h))) = node :: kids ⟨rest, last⟩ := rfl
    have items : items (⟨(node, item) :: rest, last⟩ : Row (Node (Limb h))) = item :: items ⟨rest, last⟩ := rfl
    rw [kids, items, List.map_cons, List.map_cons, flatten_cons]
    unfold Sheet.join
    rw [← ih]
    unfold sheet Sheet.between
    rw [slots_prepend, List.map_append]
    cases PageKind.at tree h != .tableLeaf <;> rfl

end Row

def Limb.bare : (h : Nat) → Option Nat → Limb h
  | 0, _ => ()
  | h + 1, page => (⟨page.getD 0, ⟨[], bare h none⟩⟩ : Node (Limb h))

theorem Limb.page_bare {page : Option Nat} (same : page.isSome = !decide (h = 0)) :
    page? h (bare h page) = page := by
  cases h with
  | zero => exact (Option.not_isSome_iff_eq_none.mp (by rw [same]; decide)).symm
  | succ h =>
    obtain ⟨number, rfl⟩ := Option.isSome_iff_exists.mp same
    rfl

def Stub.bare (stub : Stub) : Item where
  row := stub.row
  payload := stub.kept ++ Bytes.zeros (stub.size - stub.kept.size)
  chain := stub.head.toList
  divider := false

theorem Cell.Holds.stub_bare {kind : PageKind} {c : Bytes} {slot : Slot} (holds : Holds limits kind c slot)
    (fair : limits.Fair) : slot.stub.bare.stub limits kind.tree = slot.stub := by
  refine holds.stub_of fair rfl rfl (Bytes.size_zeros _) ?_
  unfold Stub.bare
  cases slot.stub.head <;> rfl

namespace Sheet

variable {sheet : Sheet} {cells : List Bytes}

theorem slots_zip {slots : List Slot} {kids : List (Limb h)} (fair : limits.Fair)
    (held : Held limits (.at tree h) cells slots) (lefts : kids.map (Limb.page? h) = slots.map Slot.left) :
    ((kids.zip (slots.map fun slot => slot.stub.bare)).map fun c =>
      (⟨Limb.page? h c.1, c.2.stub limits tree⟩ : Slot)) = slots := by
  induction slots generalizing kids cells with
  | nil =>
    rw [List.map_nil, List.map_eq_nil_iff] at lefts
    rw [lefts]
    rfl
  | cons slot rest ih =>
    obtain _ | ⟨kid, kids⟩ := kids
    · cases lefts
    obtain _ | ⟨cell, cells⟩ := cells
    · cases held.length
    obtain ⟨holds, heldRest⟩ := Held.cons_iff.mp held
    obtain ⟨left, leftRest⟩ := List.cons.inj lefts
    have stub := holds.stub_bare fair
    rw [PageKind.tree_at] at stub
    rw [List.map_cons, List.zip_cons_cons, List.map_cons, ih heldRest leftRest, stub, left]

theorem exists_row {kids : List (Limb h)} (fair : limits.Fair) (held : Held limits (.at tree h) cells sheet.slots)
    (pages : kids.map (Limb.page? h) = sheet.kids) :
    ∃ row : Row (Limb h), row.sheet limits tree = sheet ∧ row.kids = kids := by
  obtain ⟨slots, right⟩ := sheet
  have length := congrArg List.length pages
  rw [length_kids, List.length_map] at length
  rcases List.eq_nil_or_concat' kids with rfl | ⟨front, last, rfl⟩
  · cases length
  rw [List.map_append] at pages
  obtain ⟨lefts, rights⟩ := List.append_inj' pages rfl
  rw [List.length_append, List.length_singleton] at length
  refine ⟨⟨front.zip (slots.map fun slot => slot.stub.bare), last⟩, ?_, ?_⟩
  · unfold Row.sheet Row.slots Row.right
    rw [slots_zip fair held lefts, (List.cons.inj rights).1]
  · unfold Row.kids
    rw [List.map_fst_zip (Nat.le_of_eq ((Nat.succ.inj length).trans (List.length_map _).symm))]

theorem page_bare {list : List (Option PageNo)} (same : ∀ kid ∈ list, kid.isSome = !decide (h = 0)) :
    (list.map (Limb.bare h)).map (Limb.page? h) = list := by
  rw [List.map_map]
  exact (List.map_congr_left fun kid member => Limb.page_bare (same kid member)).trans (List.map_id _)

theorem exists_window {nodes : List (Limb h)} {first count : Nat} (fair : limits.Fair)
    (held : Held limits (.at tree h) cells sheet.slots) (same : ∀ kid ∈ sheet.kids, kid.isSome = !decide (h = 0))
    (given : (sheet.kids.drop first).take count = nodes.map (Limb.page? h)) (inside : first + count ≤ sheet.kids.length) :
    ∃ row : Row (Limb h), row.sheet limits tree = sheet ∧ (row.kids.drop first).take count = nodes := by
  have before : ((sheet.kids.take first).map (Limb.bare h)).length = first := by
    rw [List.length_map, List.length_take]
    omega
  have amid : nodes.length = count := by
    have both := congrArg List.length given
    rw [List.length_take, List.length_drop, List.length_map] at both
    omega
  have pages : ((sheet.kids.take first).map (Limb.bare h) ++
      (nodes ++ (sheet.kids.drop (first + count)).map (Limb.bare h))).map (Limb.page? h) = sheet.kids := by
    rw [List.map_append, List.map_append, page_bare fun kid member => same kid (List.mem_of_mem_take member),
      page_bare fun kid member => same kid (List.mem_of_mem_drop member), ← given, ← List.drop_drop,
      List.take_append_drop, List.take_append_drop]
  obtain ⟨row, isSheet, kids⟩ := exists_row fair held pages
  refine ⟨row, isSheet, ?_⟩
  rw [kids, List.drop_left' before, List.take_left' amid]

end Sheet

end TreeFile
