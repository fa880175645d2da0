import TreeFile.Proofs.Cursor.Places

/-!
Seeking. In a tree that stands on a disk with its items in order, a search ends at an entry that the tree
takes for the wanted one, or else beside the place where it would be.
-/

namespace TreeFile

def TreeRef.side (t : TreeRef) (key : Key) (item : Item) : Ordering := t.compareKeys (item.key t.kind) key

theorem TreeRef.side_eq {t : TreeRef} {key : Key} (fits : key.fits t.kind = true) :
    (t.kind = .table ∧ ∃ row, ∀ item, t.side key item = compare item.row row) ∨
    (t.kind = .index ∧ ∃ bytes, ∀ item, t.side key item = t.order.compare item.payload bytes) := by
  unfold side
  cases kind : t.kind <;> rw [kind] at fits <;> cases key
  · exact .inl ⟨rfl, _, fun _ => rfl⟩
  · cases fits
  · cases fits
  · exact .inr ⟨rfl, _, fun _ => rfl⟩

namespace Item.Before

variable {t : TreeRef} {key : Key} {a b : Item} [Std.TransCmp t.order.compare]
  (before : Item.Before t.kind t.order a b) (fits : key.fits t.kind = true)

include before fits

theorem side_lt (less : t.side key b = .lt) : t.side key a = .lt := by
  rcases TreeRef.side_eq fits with ⟨kind, row, side⟩ | ⟨kind, bytes, side⟩
  all_goals
    rw [kind] at before
    rw [side] at less ⊢
  · have less := Std.compare_eq_lt.mp less
    refine Std.compare_eq_lt.mpr ?_
    rcases before with first | ⟨same, -⟩
    · exact Int64.lt_trans first less
    · rw [same]
      exact less
  · exact Std.TransCmp.lt_trans before less

theorem side_gt (more : t.side key a = .gt) : t.side key b = .gt := by
  rcases TreeRef.side_eq fits with ⟨kind, row, side⟩ | ⟨kind, bytes, side⟩
  all_goals
    rw [kind] at before
    rw [side] at more ⊢
  · have more := Std.compare_eq_gt.mp more
    refine Std.compare_eq_gt.mpr ?_
    rcases before with first | ⟨same, -⟩
    · exact Int64.lt_trans more first
    · rw [← same]
      exact more
  · exact Std.OrientedCmp.gt_of_lt (Std.TransCmp.lt_trans (Std.OrientedCmp.lt_of_gt more) before)

theorem side_lt_of_eq (alike : a.divider = true ∨ b.divider = false) (same : t.side key b = .eq) : t.side key a = .lt := by
  rcases TreeRef.side_eq fits with ⟨kind, row, side⟩ | ⟨kind, bytes, side⟩
  all_goals
    rw [kind] at before
    rw [side] at same ⊢
  · rcases before with first | ⟨-, entry, divides⟩
    · exact Std.compare_eq_lt.mpr (Std.compare_eq_iff_eq.mp same ▸ first)
    · rw [entry, divides] at alike
      rcases alike with other | other <;> cases other
  · exact Std.TransCmp.lt_of_lt_of_eq before same

theorem side_gt_of_eq (alike : a.divider = true ∨ b.divider = false) (same : t.side key a = .eq) : t.side key b = .gt := by
  rcases TreeRef.side_eq fits with ⟨kind, row, side⟩ | ⟨kind, bytes, side⟩
  all_goals
    rw [kind] at before
    rw [side] at same ⊢
  · rcases before with first | ⟨-, entry, divides⟩
    · exact Std.compare_eq_gt.mpr (Std.compare_eq_iff_eq.mp same ▸ first)
    · rw [entry, divides] at alike
      rcases alike with other | other <;> cases other
  · exact Std.OrientedCmp.gt_of_lt (Std.TransCmp.lt_of_eq_of_lt (Std.OrientedCmp.eq_symm same) before)

end Item.Before

variable {d : Disk} {t : TreeRef} {H h : Nat} {root : Node (Limb H)}

/-- The tree stands on the disk, its items are in order, and no chain goes through a page twice. -/
structure TreeRef.Ordered (t : TreeRef) (d : Disk) (root : Node (Limb H)) : Prop where
  number : t.root = root.page
  stands : d.LimbAt t.kind (H + 1) root
  sorted : Sorted t.kind t.order (Limb.items (H + 1) root)
  chains : ∀ item ∈ Limb.items (H + 1) root, (∀ n ∈ item.chain, d.Has n) ∧ item.chain.Nodup

theorem Limb.chain_sublist (h : Nat) (limb : Limb h) : ∀ item ∈ Limb.items h limb,
    item.chain.Sublist (Limb.pages h limb) := by
  induction h with
  | zero => exact fun _ => nofun
  | succ h ih =>
    intro item member
    let node : Node (Limb h) := limb
    have parts : ∀ part ∈ node.row.cells.map (fun c => Limb.pages h c.1 ++ c.2.chain) ++
        [Limb.pages h node.row.last], part.Sublist (Limb.pages (h + 1) node) := by
      intro part among
      refine .cons _ ?_
      unfold Row.gather Row.read
      rw [List.flatMap_def]
      rcases List.mem_append.mp among with inside | last
      · exact (List.sublist_flatten_of_mem inside).trans (List.sublist_append_left _ _)
      · rw [List.mem_singleton.mp last]
        exact List.sublist_append_right _ _
    have member : item ∈ Limb.items (h + 1) node := member
    rw [Limb.items_node] at member
    rcases List.mem_append.mp member with inside | last
    · obtain ⟨c, among, own⟩ := Row.mem_read.mp inside
      have part := parts _ (List.mem_append_left _ (List.mem_map_of_mem among))
      rcases own with below | same
      · exact ((ih c.1 item below).trans (List.sublist_append_left _ _)).trans part
      · rw [List.mem_singleton.mp same]
        exact (List.sublist_append_right _ _).trans part
    · exact (ih node.row.last item last).trans (parts _ (List.mem_append_right _ (List.mem_singleton_self _)))

theorem TreeRef.Ordered.of_pages (number : t.root = root.page) (stands : d.LimbAt t.kind (H + 1) root)
    (sorted : Sorted t.kind t.order (Limb.items (H + 1) root)) (has : ∀ n ∈ Limb.pages (H + 1) root, d.Has n)
    (once : (Limb.pages (H + 1) root).Nodup) : t.Ordered d root := by
  refine ⟨number, stands, sorted, fun item member => ?_⟩
  have inside := Limb.chain_sublist (H + 1) root item member
  exact ⟨fun n among => has n (inside.subset among), once.sublist inside⟩

namespace Walk

variable {node : Node (Limb h)} {f : Frame} {frames : List Frame} {left right before behind : List Item} {item : Item}
  {w v : Walk} {key : Key} {s u : Store}

theorem At.split (at_ : At d t root node f frames left right w) {i : Nat} (inside : i < node.row.cells.length) :
    Limb.items (H + 1) root = (left ++ (Disk.leftOf node i ++ Limb.items h (node.row.kid i))) ++
      node.row.item i :: (Disk.tailOf node (i + 1) ++ right) := by
  rw [at_.trail.items, Disk.items_cell node inside]
  simp only [List.append_assoc, List.cons_append]

theorem sorted_split {tree : TreeKind} {order : KeyOrder} (sorted : Sorted tree order (before ++ item :: behind)) :
    (∀ other ∈ before, Item.Before tree order other item) ∧ ∀ other ∈ behind, Item.Before tree order item other := by
  obtain ⟨-, rest, across⟩ := List.pairwise_append.mp sorted
  exact ⟨fun other member => across other member item List.mem_cons_self, (List.pairwise_cons.mp rest).1⟩

def Belongs (t : TreeRef) (key : Key) (row : Row (Limb h)) : Slot → Prop
  | .cell i => i < row.cells.length ∧ t.side key (row.item i) = .eq
  | .before i => i ≤ row.cells.length ∧ (∀ j, j < i → t.side key (row.item j) = .lt) ∧
    ∀ j, i ≤ j → j < row.cells.length → t.side key (row.item j) = .gt

section Ordered

variable (ordered : t.Ordered d root)

include ordered

theorem At.reads (at_ : At d t root node f frames left right w) {i : Nat} (inside : i < node.row.cells.length)
    (showsDisk : s.Shows d) : (∃ info, f.page.cellInfo i = .ok info ∧
      (t.kind = .table → info.key = (node.row.item i).row)) ∧
    ∃ u, Overflow.payload f.page i s = .ok (node.row.item i).payload u ∧ u.Shows d := by
  have member : node.row.item i ∈ Limb.items (H + 1) root := by
    rw [at_.split inside]
    exact List.mem_append_right _ List.mem_cons_self
  obtain ⟨has, once⟩ := ordered.chains _ member
  have carries := ((Disk.limbAt_node node).mp (at_.trail.limb ordered.stands)).2.items _ (Row.item_mem inside)
  have long : i < (node.row.slots d.limits t.kind).length := by
    rw [Page.Mirrors.length_slots]
    exact inside
  have same : (node.row.slots d.limits t.kind)[i].stub = (node.row.item i).stub d.limits t.kind := by
    rw [Row.slots_get]
    rfl
  have limits : f.page.limits = d.limits := at_.mirrors.is.limits
  obtain ⟨u, read, showsU, -⟩ := Overflow.payload_run showsDisk at_.mirrors.bears at_.clear limits long same
    carries.chain has once
  obtain ⟨info, found, -, isKey, -⟩ := at_.mirrors.bears.info at_.clear long
  refine ⟨⟨info, found, fun isTable => ?_⟩, u, read, showsU⟩
  rw [isKey, same, isTable]
  rfl

theorem At.key_run (at_ : At d t root node f frames left right w) {i : Nat} (inside : i < node.row.cells.length)
    (showsDisk : s.Shows d) :
    ∃ u, Frame.key t.kind { f with index := i } s = .ok ((node.row.item i).key t.kind) u ∧ u.Shows d := by
  obtain ⟨⟨info, found, isRow⟩, u, read, showsU⟩ := at_.reads ordered inside showsDisk
  unfold Frame.key Item.key
  cases kind : t.kind with
  | table =>
    refine ⟨s, ?_, showsDisk⟩
    dsimp only
    rw [found, Action.lift_ok_bind, isRow kind]
    rfl
  | index => exact ⟨u, Action.bind_of_ok read, showsU⟩

theorem At.item_before (at_ : At d t root node f frames left right w) {i j : Nat} (less : i < j)
    (inside : j < node.row.cells.length) : Item.Before t.kind t.order (node.row.item i) (node.row.item j) := by
  have sorted := ordered.sorted
  rw [at_.split (Nat.lt_trans less inside)] at sorted
  exact (sorted_split sorted).2 _ (List.mem_append_left _ (Disk.item_mem_tailOf node less inside))

variable (fits : key.fits t.kind = true)

include fits

theorem At.compare_ok (at_ : At d t root node f frames left right w) {i : Nat} (inside : i < node.row.cells.length)
    (showsDisk : s.Shows d) {o : Ordering} (run : compareCell t f.page i key s = .ok o u) :
    o = t.side key (node.row.item i) ∧ u.Shows d := by
  have kind : f.page.kind.tree = t.kind := by
    rw [at_.mirrors.is.kind]
    exact PageKind.tree_at t.kind h
  obtain ⟨stored, read, rfl⟩ := compareCell_ok (f := { f with index := i }) fits kind run
  obtain ⟨u', read', showsU⟩ := at_.key_run ordered inside showsDisk
  rw [read] at read'
  cases read'
  exact ⟨rfl, showsU⟩

variable [Std.TransCmp t.order.compare]

theorem At.search_ok (at_ : At d t root node f frames left right w) {room lo hi : Nat} {slot : Slot}
    (showsDisk : s.Shows d) (low : lo ≤ hi) (high : hi ≤ node.row.cells.length) (enough : hi ≤ lo + room)
    (smaller : ∀ i, i < lo → t.side key (node.row.item i) = .lt)
    (greater : ∀ i, hi ≤ i → i < node.row.cells.length → t.side key (node.row.item i) = .gt)
    (run : search t f.page key room lo hi s = .ok slot u) : u.Shows d ∧ Belongs t key node.row slot := by
  induction room generalizing lo hi s with
  | zero =>
    obtain ⟨rfl, rfl⟩ := Action.pure_ok.mp run
    have same : lo = hi := by omega
    subst same
    exact ⟨showsDisk, high, smaller, greater⟩
  | succ room ih =>
    unfold search at run
    split at run
    · rename_i less
      dsimp only at run
      obtain ⟨order, r, compared, run⟩ := Action.bind_ok.mp run
      have inside : lo + (hi - lo) / 2 < node.row.cells.length := by omega
      obtain ⟨side, showsR⟩ := at_.compare_ok ordered fits inside showsDisk compared
      cases order with
      | lt =>
        refine ih showsR (by omega) high (by omega) (fun i before => ?_) greater run
        rcases Nat.lt_or_eq_of_le (Nat.le_of_lt_succ before) with first | rfl
        · exact (at_.item_before ordered first inside).side_lt fits side.symm
        · exact side.symm
      | gt =>
        refine ih showsR (by omega) (by omega) (by omega) smaller (fun i behind bound => ?_) run
        rcases Nat.lt_or_eq_of_le behind with later | rfl
        · exact (at_.item_before ordered later bound).side_gt fits side.symm
        · exact side.symm
      | eq =>
        obtain ⟨rfl, rfl⟩ := Action.pure_ok.mp run
        exact ⟨showsR, inside, side.symm⟩
    · obtain ⟨rfl, rfl⟩ := Action.pure_ok.mp run
      have same : lo = hi := by omega
      subst same
      exact ⟨showsDisk, high, smaller, greater⟩

/-- The walk is at an entry that is so to the key. The entries before it are less than the key, those
behind it are greater. -/
def Beside (d : Disk) (t : TreeRef) (root : Node (Limb H)) (key : Key) (side : Ordering) (w : Walk) : Prop :=
  ∃ before item behind, OnItem d t root before item behind w ∧ t.side key item = side ∧
    (∀ other ∈ before, other.divider = false → t.side key other = .lt) ∧
    ∀ other ∈ behind, other.divider = false → t.side key other = .gt

def Lands (d : Disk) (t : TreeRef) (root : Node (Limb H)) (key : Key) (w : Walk) : Landing → Prop
  | .empty => Limb.items (H + 1) root = []
  | .equal => Beside d t root key .eq w
  | .greater => Beside d t root key .gt w
  | .less => Beside d t root key .lt w

omit fits [Std.TransCmp t.order.compare] in
theorem OnItem.sorted (on : OnItem d t root before item behind w) :
    (∀ other ∈ before, Item.Before t.kind t.order other item) ∧
      ∀ other ∈ behind, Item.Before t.kind t.order item other := by
  have sorted := ordered.sorted
  rw [on.items] at sorted
  exact sorted_split sorted

theorem OnItem.beside (on : OnItem d t root before item behind w) {side : Ordering} (here : t.side key item = side)
    (low : side = .gt → ∀ other ∈ before, other.divider = false → t.side key other = .lt)
    (high : side = .lt → ∀ other ∈ behind, other.divider = false → t.side key other = .gt) :
    Beside d t root key side w := by
  obtain ⟨first, later⟩ := on.sorted ordered
  obtain ⟨_, _, _, _, _, _, -, -, -, entry, -, -⟩ := id on
  refine ⟨before, item, behind, on, here, fun other member isEntry => ?_, fun other member isEntry => ?_⟩
  · cases side with
    | lt => exact (first other member).side_lt fits here
    | eq => exact (first other member).side_lt_of_eq fits (.inr entry) here
    | gt => exact low rfl other member isEntry
  · cases side with
    | lt => exact high rfl other member isEntry
    | eq => exact (later other member).side_gt_of_eq fits (.inr isEntry) here
    | gt => exact (later other member).side_gt fits here

/-- The items left of a kid are less than the key if those of the cells before it are. -/
theorem At.left_lt (at_ : At d t root node f frames left right w) {i : Nat} (inside : i ≤ node.row.cells.length)
    (outer : ∀ other ∈ left, t.side key other = .lt) (smaller : ∀ j, j < i → t.side key (node.row.item j) = .lt) :
    ∀ other ∈ left ++ Disk.leftOf node i, t.side key other = .lt := by
  cases i with
  | zero =>
    rw [Disk.leftOf_zero, List.append_nil]
    exact outer
  | succ i =>
    have sorted := ordered.sorted
    rw [at_.split inside] at sorted
    have before := (sorted_split sorted).1
    have last := smaller i (Nat.lt_succ_self i)
    intro other member
    rw [Disk.leftOf_succ node inside, ← List.append_assoc, ← List.append_assoc, List.append_assoc left] at member
    rcases List.mem_append.mp member with inner | same
    · exact (before other inner).side_lt fits last
    · rw [List.mem_singleton.mp same]
      exact last

omit ordered fits [Std.TransCmp t.order.compare] in
/-- Behind a place for the key: greater than it, or a divider with its row number. -/
def Behind (t : TreeRef) (key : Key) (item : Item) : Prop :=
  t.side key item = .gt ∨ t.kind = .table ∧ t.side key item = .eq ∧ item.divider = true

omit ordered fits [Std.TransCmp t.order.compare] in
theorem Behind.entry (behind : Behind t key item) (entry : item.divider = false) : t.side key item = .gt := by
  rcases behind with more | ⟨-, -, divides⟩
  · exact more
  · rw [entry] at divides
    cases divides

theorem At.right_gt (at_ : At d t root node f frames left right w) {i : Nat}
    (outer : ∀ other ∈ right, Behind t key other)
    (greater : i < node.row.cells.length → Behind t key (node.row.item i)) :
    ∀ other ∈ Disk.rightOf node i ++ right, Behind t key other := by
  by_cases inside : i < node.row.cells.length
  · have sorted := ordered.sorted
    rw [at_.split inside] at sorted
    have behind := (sorted_split sorted).2
    intro other member
    rw [Disk.rightOf_cell node inside] at member
    rcases List.mem_cons.mp member with rfl | later
    · exact greater inside
    · rcases greater inside with more | ⟨-, same, divides⟩
      · exact .inl ((behind other later).side_gt fits more)
      · exact .inl ((behind other later).side_gt_of_eq fits (.inl divides) same)
  · rw [Disk.rightOf_end node (Nat.le_of_not_lt inside), List.nil_append]
    exact outer

omit ordered fits [Std.TransCmp t.order.compare] in
/-- The place for a key before cell `i` of a leaf. -/
structure Gap (t : TreeRef) (key : Key) (leaf : Node (Limb 0)) (i : Nat) (left right : List Item) : Prop where
  inside : i ≤ leaf.row.cells.length
  less : ∀ other ∈ left ++ Disk.leftOf leaf i, t.side key other = .lt
  more : ∀ other ∈ Disk.rightOf leaf i ++ right, Behind t key other

omit ordered fits [Std.TransCmp t.order.compare] in
def Finds (d : Disk) (t : TreeRef) (root : Node (Limb H)) (key : Key) (w : Walk) : Landing → Prop
  | .empty => ∃ (leaf : Node (Limb 0)) (f : Frame), At d t root leaf f [] [] [] w ∧ leaf.row.cells = [] ∧ f.index = 0
  | .equal => ∃ (h : Nat) (node : Node (Limb h)) (f : Frame) (frames : List Frame) (left right : List Item),
      At d t root node f frames left right w ∧ f.index < node.row.cells.length ∧
        (node.row.item f.index).divider = false ∧ t.side key (node.row.item f.index) = .eq
  | .greater => ∃ (leaf : Node (Limb 0)) (f : Frame) (frames : List Frame) (left right : List Item),
      At d t root leaf f frames left right w ∧ f.index < leaf.row.cells.length ∧ Gap t key leaf f.index left right
  | .less => ∃ (leaf : Node (Limb 0)) (f : Frame) (frames : List Frame) (left right : List Item),
      At d t root leaf f frames left right w ∧ f.index + 1 = leaf.row.cells.length ∧
        Gap t key leaf (f.index + 1) left right

theorem landOnLeaf_finds {node : Node (Limb 0)} (at_ : At d t root node f frames left right w) {slot : Slot}
    {landing : Landing} (fresh : f.index = 0) (belongs : Belongs t key node.row slot) (smaller : ∀ other ∈ left, t.side key other = .lt)
    (greater : ∀ other ∈ right, Behind t key other) (run : landOnLeaf t f.page slot w = .ok landing v) :
    Finds d t root key v landing := by
  unfold landOnLeaf at run
  split at run
  · rename_i empty
    obtain ⟨_, u, checked, last⟩ := Action.bind_ok.mp run
    obtain ⟨rfl, some_⟩ := checkLeaf_ok at_.path checked
    obtain ⟨rfl, rfl⟩ := Action.pure_ok.mp last
    have isTop : frames = [] := Decidable.byContradiction fun inner => by
      have positive := some_ inner
      omega
    subst isTop
    obtain ⟨rfl, rfl⟩ := at_.trail.top
    rw [at_.count] at empty
    exact ⟨node, f, at_, List.length_eq_zero_iff.mp empty, fresh⟩
  rename_i some_
  cases slot with
  | cell i =>
    obtain ⟨inside, equal⟩ := belongs
    cases run
    exact ⟨0, node, _, frames, left, right, at_.withIndex i, inside, at_.entry ordered.stands inside (.inr rfl), equal⟩
  | before i =>
    obtain ⟨bound, low, high⟩ := belongs
    have gap : Gap t key node i left right := ⟨bound, at_.left_lt ordered fits bound smaller low,
      at_.right_gt ordered fits greater fun inside => .inl (high i (Nat.le_refl i) inside)⟩
    dsimp only at run
    split at run
    · rename_i inside
      rw [at_.count] at inside
      cases run
      exact ⟨node, _, frames, left, right, at_.withIndex i, inside, gap⟩
    · rename_i outside
      rw [at_.count] at outside some_
      have last : f.page.cellCount - 1 + 1 = node.row.cells.length := by
        rw [at_.count]
        omega
      have isEnd : i = f.page.cellCount - 1 + 1 := by omega
      cases run
      exact ⟨node, _, frames, left, right, at_.withIndex (f.page.cellCount - 1), last, isEnd ▸ gap⟩

theorem descend_finds {room : Nat} {landing : Landing} (at_ : At d t root node f frames left right w)
    (fresh : f.index = 0) (smaller : ∀ other ∈ left, t.side key other = .lt) (greater : ∀ other ∈ right, Behind t key other)
    (run : descend t key room w = .ok landing v) : Finds d t root key v landing := by
  induction room generalizing h node f frames left right w with
  | zero => exact absurd run Action.throw_ok
  | succ room ih =>
    unfold descend at run
    rw [Action.bind_of_ok (top_run at_.path)] at run
    obtain ⟨slot, u, stored, run⟩ := Action.bind_ok.mp run
    obtain ⟨s, searched, rfl⟩ := onStore_ok stored
    rw [at_.count] at searched
    obtain ⟨showsS, belongs⟩ := at_.search_ok ordered fits at_.showsDisk (Nat.zero_le _) (Nat.le_refl _)
      (Nat.le_of_eq (Nat.zero_add _).symm) (fun i low => absurd low (Nat.not_lt_zero i))
      (fun i low high => absurd high (Nat.not_lt_of_le low)) searched
    have atLater : At d t root node f frames left right { w with store := s } :=
      ⟨showsS, at_.path, at_.trail, at_.mirrors, at_.clear⟩
    rw [at_.mirrors.isLeaf] at run
    cases h with
    | zero => exact landOnLeaf_finds ordered fits atLater fresh belongs smaller greater run
    | succ h =>
      have further {i : Nat} (inside : i ≤ node.row.cells.length)
          (low : ∀ j, j < i → t.side key (node.row.item j) = .lt)
          (high : i < node.row.cells.length → Behind t key (node.row.item i))
          (run : (do
            let child ← f.page.child i
            setIndex i
            toChild t child
            descend t key room : WalkM Landing) { w with store := s } = .ok landing v) :
          Finds d t root key v landing := by
        obtain ⟨child, isChild, run⟩ := Action.lift_bind_ok.mp run
        rw [setIndex, Action.modify_bind] at run
        obtain ⟨_, u, down, run⟩ := Action.bind_ok.mp run
        obtain ⟨page, atChild⟩ := toChild_at ordered.stands (atLater.withIndex i) isChild down
        exact ih atChild rfl (at_.left_lt ordered fits inside smaller low) (at_.right_gt ordered fits greater high) run
      cases slot with
      | before i =>
        obtain ⟨bound, low, high⟩ := belongs
        exact further bound low (fun inside => .inl (high i (Nat.le_refl i) inside)) run
      | cell i =>
        obtain ⟨inside, equal⟩ := belongs
        cases kind : t.kind with
        | table =>
          have isTable : t.kind ≠ .index := by
            rw [kind]
            decide
          have divides := at_.divider ordered.stands inside isTable
          rw [kind] at run
          refine further (Nat.le_of_lt inside) (fun j less => ?_) (fun _ => .inr ⟨kind, equal, divides⟩) run
          have other := at_.divider ordered.stands (Nat.lt_trans less inside) isTable
          exact (at_.item_before ordered less inside).side_lt_of_eq fits (.inl other) equal
        | index =>
          rw [kind] at run
          cases run
          exact ⟨h + 1, node, _, frames, left, right, atLater.withIndex i, inside,
            at_.entry ordered.stands inside (.inl kind), equal⟩

theorem toKey_finds {landing : Landing} (showsDisk : w.store.Shows d) (run : toKey t key w = .ok landing v) :
    Finds d t root key v landing := by
  unfold toKey at run
  obtain ⟨_, u, atRoot, run⟩ := Action.bind_ok.mp run
  obtain ⟨page, at_⟩ := toRoot_at ordered.stands showsDisk ordered.number atRoot
  exact descend_finds ordered fits at_ rfl (fun _ => nofun) (fun _ => nofun) run

theorem Finds.lands {landing : Landing} (finds : Finds d t root key w landing) : Lands d t root key w landing := by
  cases landing with
  | empty =>
    obtain ⟨leaf, f, at_, none_, -⟩ := finds
    refine at_.trail.items.trans ?_
    rw [Disk.items_kid leaf 0, Disk.leftOf_zero, Disk.items_below, Disk.rightOf_end leaf (by simp [none_])]
    rfl
  | equal =>
    obtain ⟨h, node, f, frames, left, right, at_, inside, entry, equal⟩ := finds
    exact (at_.onItem inside entry).beside ordered fits equal nofun nofun
  | greater =>
    obtain ⟨leaf, f, frames, left, right, at_, inside, gap⟩ := finds
    have entry := at_.entry ordered.stands inside (.inr rfl)
    have on := at_.onItem inside entry
    rw [Disk.items_below, List.append_nil] at on
    have here : leaf.row.item f.index ∈ Disk.rightOf leaf f.index ++ right := by
      rw [Disk.rightOf_cell leaf inside]
      exact List.mem_cons_self
    exact on.beside ordered fits ((gap.more _ here).entry entry) (fun _ other member _ => gap.less other member) nofun
  | less =>
    obtain ⟨leaf, f, frames, left, right, at_, isLast, gap⟩ := finds
    have inside : f.index < leaf.row.cells.length := by omega
    have on := at_.onItem inside (at_.entry ordered.stands inside (.inr rfl))
    rw [Disk.tailOf_eq, Disk.items_below, Disk.items_below, List.nil_append, List.append_nil] at on
    have here : leaf.row.item f.index ∈ left ++ Disk.leftOf leaf (f.index + 1) := by
      rw [Disk.leftOf_succ leaf inside]
      simp
    exact on.beside ordered fits (gap.less _ here) nofun fun _ other member entry => (gap.more other member).entry entry

theorem toKey_ok {landing : Landing} (showsDisk : w.store.Shows d) (run : toKey t key w = .ok landing v) :
    Lands d t root key v landing :=
  (toKey_finds ordered fits showsDisk run).lands ordered fits

end Ordered

end Walk

end TreeFile
