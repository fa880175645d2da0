import TreeFile.Contents
import TreeFile.Proofs.Tree.Emptying

/-!
What a tree that stands on a disk contains. Reading its pages from left to right gives the items that are
entries, with their payloads, as long as no more levels follow than the reader allows.
-/

namespace TreeFile

open Store Disk

variable {s : Store} {d : Disk} {tree : TreeKind} {h : Nat}

theorem Option.mapM_some {α β : Type} {f : α → Option β} {g : α → β} (list : List α)
    (all : ∀ a ∈ list, f a = some (g a)) : list.mapM f = some (list.map g) := by
  induction list with
  | nil => rfl
  | cons a rest ih =>
    obtain ⟨head, tail⟩ := List.forall_mem_cons.mp all
    rw [List.mapM_cons, head, ih tail]
    rfl

theorem Option.mapM_range {α : Type} [Inhabited α] {f : Nat → Option α} (values : List α)
    (runs : ∀ i (h : i < values.length), f i = some values[i]) :
    (List.range values.length).mapM f = some values := by
  have found : ∀ i (h : i < values.length), values.getD i default = values[i] := fun i h => by
    rw [List.getD_eq_getElem?_getD, List.getElem?_eq_getElem h]
    rfl
  rw [Option.mapM_some (g := fun i => values.getD i default) _ fun i member => by
    rw [runs i (List.mem_range.mp member), found]]
  congr 1
  apply List.ext_getElem
  · rw [List.length_map, List.length_range]
  · intro i _ inside
    rw [List.getElem_map, List.getElem_range, found]

namespace Item

def entry (tree : TreeKind) (item : Item) : Entry := ⟨item.key tree, item.payload⟩

def entries (tree : TreeKind) (items : List Item) : List Entry := (entryItems items).map (entry tree)

theorem entries_append (tree : TreeKind) (a b : List Item) :
    entries tree (a ++ b) = entries tree a ++ entries tree b := by
  unfold entries entryItems
  rw [List.filter_append, List.map_append]

theorem entries_dividers {items : List Item} (all : ∀ item ∈ items, item.divider = true) :
    entries tree items = [] := by
  unfold entries entryItems
  rw [List.filter_eq_nil_iff.mpr fun item member => by rw [all item member]; decide]
  rfl

theorem entries_plain {items : List Item} (all : ∀ item ∈ items, item.divider = false) :
    entries tree items = items.map (entry tree) := by
  unfold entries entryItems
  rw [List.filter_eq_self.mpr fun item member => by rw [all item member]; rfl]

theorem mem_entries {tree : TreeKind} {items : List Item} {e : Entry} :
    e ∈ entries tree items ↔ ∃ item ∈ items, item.divider = false ∧ e = item.entry tree := by
  unfold entries entryItems
  simp only [List.mem_map, List.mem_filter, Bool.not_eq_true']
  constructor
  · rintro ⟨item, ⟨member, entry⟩, rfl⟩
    exact ⟨item, member, entry, rfl⟩
  · rintro ⟨item, member, entry, rfl⟩
    exact ⟨item, ⟨member, entry⟩, rfl⟩

theorem entries_single {tree : TreeKind} {item : Item} (entry : item.divider = false) :
    entries tree [item] = [item.entry tree] := by
  unfold entries entryItems
  simp [entry]

end Item

theorem Disk.Hangs.divider {row : Row (Limb h)} (hangs : d.Hangs tree row) {item : Item}
    (member : item ∈ row.items) : item.divider = decide (PageKind.at tree h = .tableInterior) := by
  have isDivider : PageKind.at tree h = .tableInterior ↔ tree = .table ∧ h ≠ 0 := by
    cases h <;> cases tree <;> simp [PageKind.at, PageKind.leaf, PageKind.interior]
  rw [Bool.eq_iff_iff, decide_eq_true_iff, isDivider]
  exact (hangs.items item member).fits.divides

def Tree.entries (tree : Tree) : List Entry := Item.entries tree.kind tree.items

theorem Row.entries_gather {T : Type} (tree : TreeKind) (row : Row T) (f : T → List Item) :
    Item.entries tree (row.gather f fun item => [item]) =
      row.gather (fun kid => Item.entries tree (f kid)) fun item => Item.entries tree [item] := by
  obtain ⟨cells, last⟩ := row
  unfold gather
  induction cells with
  | nil => rfl
  | cons c rest ih =>
    simp only [read_cons, List.append_assoc, Item.entries_append] at ih ⊢
    rw [ih]

namespace Contents

theorem exists?_of_has (shows_ : s.Shows d) {page : PageNo} (has : d.Has page) : exists? s page = some () := by
  unfold exists?
  rw [shows_.count]
  exact if_pos has

theorem image_eq (shows_ : s.Shows d) (page : PageNo) : s.pager.image page = d.image page := by
  rw [← shows_.same, Pager.image_eq]
  rfl

theorem chain?_of_chain {tail : Bytes} {pages : List PageNo} {start : Nat} (shows_ : s.Shows d)
    (chain : Overflow.Chain d tail pages start) (has : ∀ n ∈ pages, d.Has n) :
    chain? s pages.length (pages.headD 0) = some pages := by
  have bounds := shows_.disk_sound.pageSize_bounds
  induction pages generalizing start with
  | nil => rfl
  | cons page rest ih =>
    obtain ⟨-, link, -, later⟩ := chain
    obtain ⟨here, others⟩ := List.forall_mem_cons.mp has
    have next : Overflow.next (s.pager.image page) = rest.headD 0 := by
      rw [image_eq shows_, Overflow.next_eq (by rw [shows_.disk_sound.sizes]; omega), link]
    rw [List.length_cons, List.headD_cons]
    unfold chain?
    rw [exists?_of_has shows_ here, next, ih later others]
    rfl

/-- What the pages of a chain carry, after what comes before, is the rest of the tail, and then what the last
page has behind it. -/
theorem carried_of_chain {tail : Bytes} {pages : List PageNo} {start : Nat} (front : Bytes) (shows_ : s.Shows d)
    (chain : Overflow.Chain d tail pages start) (low : start ≤ tail.size) :
    (pages.foldl (fun found page => found ++ carried s page) front).extract 0
        (front.size + (tail.size - start)) = front ++ tail.extract start tail.size := by
  have sound := shows_.disk_sound
  have bounds := sound.pageSize_bounds
  have usable := sound.usable_bounds
  have capacity : overflowCapacity d.usableSize = d.usableSize - 4 := rfl
  induction pages generalizing start front with
  | nil =>
    have done : tail.size ≤ start := chain
    have none : tail.extract start tail.size = .empty := by
      rw [ByteArray.extract_eq_empty_iff]
      omega
    rw [none, ByteArray.append_empty, Nat.sub_eq_zero_of_le done, Nat.add_zero]
    exact ByteArray.extract_zero_size
  | cons page rest ih =>
    obtain ⟨more, -, content, later⟩ := chain
    have isCarried : carried s page = (d.image page).extract 4 (4 + overflowCapacity d.usableSize) := by
      unfold carried
      rw [image_eq shows_, shows_.usableSize]
    have size : (carried s page).size = overflowCapacity d.usableSize := by
      rw [isCarried, Bytes.size_extract_of_le (by rw [sound.sizes]; omega)]
      omega
    rw [List.foldl_cons]
    by_cases full : start + overflowCapacity d.usableSize ≤ tail.size
    · rw [Nat.min_eq_left (by omega), ← isCarried] at content
      have joined := ih (front ++ carried s page) later full
      rw [ByteArray.size_append, size, Nat.add_assoc,
        show overflowCapacity d.usableSize + (tail.size - (start + overflowCapacity d.usableSize)) =
          tail.size - start by omega] at joined
      rw [joined, ByteArray.append_assoc, content, Overflow.extract_join (Nat.le_add_right _ _)]
    · -- a page with room left is the last one
      have last : rest = [] := by
        cases rest with
        | nil => rfl
        | cons => exact absurd later.1 (by omega)
      subst last
      rw [Nat.min_eq_right (by omega)] at content
      rw [List.foldl_nil]
      apply Bytes.ext_get
      · rw [Bytes.size_extract_of_le (by rw [ByteArray.size_append, size]; omega), ByteArray.size_append,
          ByteArray.size_extract]
        omega
      · intro i inside
        rw [Bytes.size_extract_of_le (by rw [ByteArray.size_append, size]; omega)] at inside
        rw [Bytes.get_extract, if_pos (by omega), Nat.zero_add, Bytes.get_append, Bytes.get_append]
        split
        · rfl
        · rename_i behind
          have byte := congrArg (fun part => part.get! (i - front.size)) content
          simp only [Bytes.get_extract] at byte
          rw [if_pos (by omega), if_pos (by omega)] at byte
          rw [isCarried, Bytes.get_extract, Bytes.get_extract, if_pos (by omega), if_pos (by omega)]
          exact byte

theorem page?_of_at {number : Nat} {kind : PageKind} {slots : List Slot} {right : Option PageNo}
    (shows_ : s.Shows d) (at_ : d.PageAt number kind slots right) :
    ∃ p, page? s number = some p ∧ p.Of d number kind ∧ p.parked = [] ∧ p.Bears slots right := by
  obtain ⟨has, p, is, data, clear, bears⟩ := at_
  refine ⟨p, ?_, is, clear, bears⟩
  have parsed := bears.parse clear
  rw [is.number, data, is.geometry, is.limits] at parsed
  unfold page?
  rw [exists?_of_has shows_ has, image_eq shows_, shows_.geometry, shows_.limits, parsed]
  rfl

theorem entryOf?_item {p : Page} {slots : List Slot} {right : Option PageNo} {i : Nat} {item : Item}
    (shows_ : s.Shows d) (bears : p.Bears slots right) (clear : p.parked = []) (limits : p.limits = d.limits)
    (kind : p.kind.tree = tree) (inside : i < slots.length) (stub : slots[i].stub = item.stub d.limits tree)
    (at_ : d.ItemAt tree item) (has : ∀ n ∈ item.chain, d.Has n) :
    entryOf? s p i = some (item.entry tree) := by
  have sound := shows_.disk_sound
  rw [← limits] at stub
  obtain ⟨info, read, tells, -, key, sliced⟩ :=
    Overflow.tells_of_bears bears clear (limits ▸ sound.fair) inside stub
  rw [limits] at tells key
  have kept : p.data.extract info.payloadStart (info.payloadStart + info.kept) =
      item.payload.extract 0 info.kept := (Bytes.slice_ok.mp sliced).2
  have short : item.kept d.limits tree ≤ item.payload.size := sound.fair.kept_le (.leaf tree) _
  have size := item.size_tail d.limits tree
  have length := Overflow.ItemAt.chain_length at_ sound
  have chain : chainOf? s info = some item.chain := by
    have walked := chain?_of_chain shows_ at_ has
    unfold chainOf?
    rw [tells.head]
    cases isChain : item.chain with
    | nil => rfl
    | cons first rest =>
      rw [isChain] at walked length
      rw [shows_.limits, tells.size, tells.kept, ← length]
      exact walked
  have whole : payload? s p info = some item.payload := by
    have found := carried_of_chain (item.payload.extract 0 info.kept) shows_ at_ (Nat.zero_le _)
    have joined : item.payload.extract 0 info.kept ++ (item.tail d.limits tree).extract 0
        (item.tail d.limits tree).size = item.payload := by
      rw [ByteArray.extract_zero_size, Item.tail, tells.kept, Overflow.extract_join (Nat.zero_le _),
        ByteArray.extract_zero_size]
    rw [joined, size, Nat.sub_zero, Bytes.size_extract_of_le (by rw [tells.kept]; exact short), tells.kept,
      show item.kept d.limits tree - 0 + (item.payload.size - item.kept d.limits tree) = item.payload.size by omega]
      at found
    unfold payload?
    rw [kept, chain, tells.size, tells.kept]
    exact congrArg some found
  unfold entryOf?
  rw [read]
  change (payload? s p info >>= _) = _
  rw [whole, Option.bind_eq_bind, Option.bind_some, kind]
  cases tree with
  | table =>
    rw [key]
    rfl
  | index => rfl

theorem ownEntries?_of_mirrors {p : Page} {node : Node (Limb h)} (shows_ : s.Shows d)
    (mirrors : p.Mirrors d tree node) (clear : p.parked = []) (hangs : d.Hangs tree node.row)
    (has : ∀ item ∈ node.row.items, ∀ n ∈ item.chain, d.Has n) :
    ownEntries? s p = some (Item.entries tree node.row.items) := by
  have isTree : p.kind.tree = tree := mirrors.is.kind ▸ PageKind.tree_at tree h
  unfold ownEntries?
  split
  · rename_i dividers
    rw [Item.entries_dividers fun item member => ?_]
    rw [hangs.divider member, decide_eq_true_iff, ← mirrors.is.kind]
    exact dividers
  · rename_i entries
    rw [Item.entries_plain fun item member => ?_]
    · have count : p.cellCount = (node.row.items.map (Item.entry tree)).length := by
        rw [mirrors.count clear, List.length_map]
        exact (List.length_map _).symm
      rw [count]
      refine Option.mapM_range _ fun i inside => ?_
      rw [List.length_map] at inside
      have member := List.getElem_mem inside
      have inSlots : i < (node.row.slots d.limits tree).length := by
        unfold Row.items at inside
        rw [List.length_map] at inside
        rw [Page.Mirrors.length_slots]
        exact inside
      rw [List.getElem_map]
      refine entryOf?_item shows_ mirrors.bears clear mirrors.is.limits isTree inSlots ?_
        (hangs.items _ member).chain (has _ member)
      simp only [Row.slots, Row.items, List.getElem_map]
    · rw [hangs.divider member, decide_eq_false_iff_not, ← mirrors.is.kind]
      exact entries

theorem weave_nil {α : Type} (lists : List (List α)) : weave lists [] = lists.flatten := by
  induction lists with
  | nil => rfl
  | cons list rest ih => exact congrArg (list ++ ·) ih

theorem weave_dividers {T : Type} (row : Row T) (f : T → List Entry)
    (all : ∀ item ∈ row.items, item.divider = true) :
    weave (row.kids.map f) (Item.entries tree row.items) = row.gather f fun item => Item.entries tree [item] := by
  rw [Item.entries_dividers all, weave_nil]
  have none : ∀ item ∈ row.items, Item.entries tree [item] = [] := fun item member =>
    Item.entries_dividers fun other same => List.mem_singleton.mp same ▸ all item member
  rw [Row.gather_congr (fun _ _ => rfl) none]
  obtain ⟨cells, last⟩ := row
  simp [Row.kids, Row.gather, Row.read, List.flatMap, Function.comp_def]

theorem weave_plain {T : Type} (row : Row T) (f : T → List Entry)
    (all : ∀ item ∈ row.items, item.divider = false) :
    weave (row.kids.map f) (Item.entries tree row.items) = row.gather f fun item => Item.entries tree [item] := by
  rw [Item.entries_plain all]
  have one : ∀ item ∈ row.items, Item.entries tree [item] = [item.entry tree] := fun item member =>
    Item.entries_plain fun other same => List.mem_singleton.mp same ▸ all item member
  rw [Row.gather_congr (fun _ _ => rfl) one]
  obtain ⟨cells, last⟩ := row
  clear all one
  unfold Row.kids Row.items Row.gather
  induction cells with
  | nil => exact List.append_nil _
  | cons c rest ih =>
    rw [Row.read_cons, List.append_assoc, List.append_assoc, ← ih]
    rfl

theorem weave_hanging {row : Row (Limb h)} (hangs : d.Hangs tree row) :
    weave (row.kids.map fun kid => Item.entries tree (Limb.items h kid)) (Item.entries tree row.items) =
      Item.entries tree (row.gather (Limb.items h) fun item => [item]) := by
  rw [Row.entries_gather]
  by_cases dividers : PageKind.at tree h = .tableInterior
  · exact weave_dividers row _ fun item member => by rw [hangs.divider member, decide_eq_true dividers]
  · exact weave_plain row _ fun item member => by rw [hangs.divider member, decide_eq_false dividers]

end Contents

theorem Page.Mirrors.children_run {p : Page} {node : Node (Limb (h + 1))} (mirrors : p.Mirrors d tree node)
    (clear : p.parked = []) (hangs : d.Hangs tree node.row) :
    p.children = .ok (node.row.kids.map fun kid : Limb (h + 1) => Node.page kid) := by
  have positive := Tree.kid_positive hangs.kids
  have count : p.cellCount + 1 = (node.row.kids.map fun kid : Limb (h + 1) => Node.page kid).length := by
    rw [List.length_map, Row.length_kids, mirrors.count clear]
  unfold Page.children
  rw [count]
  refine Except.mapM_range _ fun i inside => ?_
  rw [List.length_map] at inside
  rw [List.getElem_map]
  refine mirrors.child_run clear ?_ fun zero => positive _ (List.getElem_mem inside) (congrArg some zero)
  rw [List.getElem?_map, List.getElem?_eq_getElem inside]
  rfl

namespace Contents

theorem entriesFrom?_limb {node : Node (Limb h)} (left : Nat) (shows_ : s.Shows d) (limb : d.LimbAt tree (h + 1) node)
    (has : ∀ n ∈ Limb.pages (h + 1) node, d.Has n) :
    entriesFrom? s tree left node.page =
      if h < left then some (Item.entries tree (Limb.items (h + 1) node)) else none := by
  induction left generalizing h with
  | zero => rfl
  | succ left ih =>
    obtain ⟨nodeAt, hangs⟩ := (limbAt_node node).mp limb
    obtain ⟨p, page, is, clear, bears⟩ := page?_of_at shows_ nodeAt.page
    have mirrors : p.Mirrors d tree node := ⟨is, bears⟩
    have own := ownEntries?_of_mirrors shows_ mirrors clear hangs fun item member n inside =>
      has n (List.mem_cons_of_mem _ (Row.mem_gather.mpr (.inr ⟨item, member, inside⟩)))
    have ownKind : ¬ p.kind.tree ≠ tree := not_not_intro (is.kind ▸ PageKind.tree_at tree h)
    unfold entriesFrom?
    rw [page, Option.bind_eq_bind, Option.bind_some, if_neg ownKind, own, Option.bind_eq_bind, Option.bind_some,
      mirrors.isLeaf]
    cases h with
    | zero => rfl
    | succ h =>
      have below : ∀ kid ∈ node.row.kids, entriesFrom? s tree left (Node.page kid) =
          if h < left then some (Item.entries tree (Limb.items (h + 1) kid)) else none := fun kid member =>
        ih (hangs.kids kid member) fun n inside =>
          has n (List.mem_cons_of_mem _ (Row.mem_gather.mpr (.inl ⟨kid, member, inside⟩)))
      have read : (node.row.kids.map fun kid : Limb (h + 1) => Node.page kid).mapM (entriesFrom? s tree left) =
          if h < left then some (node.row.kids.map fun kid => Item.entries tree (Limb.items (h + 1) kid))
          else none := by
        rw [List.mapM_map]
        split
        · rename_i deep
          exact Option.mapM_some _ fun kid member => (below kid member).trans (if_pos deep)
        · rename_i flat
          have head := below node.row.head (Row.kids_head ▸ List.mem_cons_self)
          rw [if_neg flat] at head
          rw [Row.kids_head, List.mapM_cons]
          exact congrArg (· >>= _) head
      rw [if_neg (by simp), mirrors.children_run clear hangs]
      change ((node.row.kids.map fun kid : Limb (h + 1) => Node.page kid).mapM (entriesFrom? s tree left) >>= _) = _
      rw [read, Limb.items_node, ← weave_hanging hangs]
      by_cases deep : h < left
      · rw [if_pos deep, if_pos (Nat.succ_lt_succ deep)]
        rfl
      · rw [if_neg deep, if_neg fun more => deep (Nat.lt_of_succ_lt_succ more)]
        rfl

theorem entries?_tree (tree : Tree) (shows_ : s.Shows d) (limb : d.LimbAt tree.kind (tree.height + 1) tree.root)
    (has : ∀ n ∈ tree.pages, d.Has n) :
    entries? s tree.root.page = if tree.height < maxDepth then some tree.entries else none := by
  obtain ⟨p, page, is, -⟩ := page?_of_at shows_ limb.1
  have page : page? s tree.root.page = some p := page
  unfold entries?
  rw [page, Option.bind_eq_bind, Option.bind_some, is.kind, PageKind.tree_at]
  exact entriesFrom?_limb maxDepth shows_ limb has

end Contents

end TreeFile
