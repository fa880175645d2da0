import TreeFile.Proofs.Balance.Gathering
import TreeFile.Proofs.Cursor.Paths
import TreeFile.Proofs.Tree.Order
import TreeFile.Proofs.Tree.RowEdits

/-!
Places in a tree that stands on a disk. A walk that succeeds is at one of the tree's items, and it is known
which items come before it and which behind. Steps go from one entry to the next.
-/

namespace TreeFile

namespace Row

variable {T α : Type} {f : T → List α} {g : Item → List α} {row : Row T} {i : Nat}

theorem read_take_succ (inside : i < row.cells.length) : read f g (row.cells.take (i + 1)) =
    read f g (row.cells.take i) ++ (f (row.kid i) ++ g (row.item i)) := by
  rw [List.take_succ_eq_append_getElem inside, read_append, cells_get inside, read_cons, read_nil, List.append_nil]
  rfl

theorem behind_drop (inside : i < row.cells.length) :
    (row.drop i).behind f g = g (row.item i) ++ (row.drop (i + 1)).gather f g := by
  unfold drop
  rw [List.drop_eq_getElem_cons inside, cells_get inside]
  rfl

theorem behind_end (ended : row.cells.length ≤ i) : (row.drop i).behind f g = [] := by
  unfold drop
  rw [List.drop_eq_nil_of_le ended]
  rfl

end Row

namespace Disk

variable {d : Disk} {tree : TreeKind} {H h : Nat} {root : Node (Limb H)}

section Sides

variable (node : Node (Limb h)) {i : Nat}

def leftOf (i : Nat) : List Item := Row.read (Limb.items h) (fun item => [item]) (node.row.cells.take i)

def rightOf (i : Nat) : List Item := (node.row.drop i).behind (Limb.items h) fun item => [item]

def tailOf (i : Nat) : List Item := (node.row.drop i).gather (Limb.items h) fun item => [item]

theorem leftOf_zero : leftOf node 0 = [] := rfl

theorem leftOf_succ (inside : i < node.row.cells.length) :
    leftOf node (i + 1) = leftOf node i ++ (Limb.items h (node.row.kid i) ++ [node.row.item i]) :=
  Row.read_take_succ inside

theorem rightOf_cell (inside : i < node.row.cells.length) :
    rightOf node i = node.row.item i :: tailOf node (i + 1) := Row.behind_drop inside

theorem rightOf_end (ended : node.row.cells.length ≤ i) : rightOf node i = [] := Row.behind_end ended

theorem tailOf_eq (i : Nat) : tailOf node i = Limb.items h (node.row.kid i) ++ rightOf node i := Row.gather_head

theorem item_mem_tailOf {j : Nat} (low : i ≤ j) (inside : j < node.row.cells.length) :
    node.row.item j ∈ tailOf node i := by
  refine Row.mem_gather.mpr (.inr ⟨node.row.item j, ?_, List.mem_singleton_self _⟩)
  have length := node.row.length_items
  have same : (node.row.drop i).items = node.row.items.drop i := List.map_drop
  rw [same]
  refine List.mem_drop_iff_getElem.mpr ⟨j - i, by omega, ?_⟩
  unfold Row.item
  rw [List.getD_eq_getElem?_getD, List.getElem?_eq_getElem (by omega)]
  simp only [Nat.add_sub_cancel' low, Option.getD_some]

theorem items_kid (i : Nat) : Limb.items (h + 1) node =
    leftOf node i ++ (Limb.items h (node.row.kid i) ++ rightOf node i) :=
  (Limb.items_node node).trans (Row.gather_kid i)

theorem items_cell (inside : i < node.row.cells.length) : Limb.items (h + 1) node =
    leftOf node i ++ (Limb.items h (node.row.kid i) ++ node.row.item i :: tailOf node (i + 1)) := by
  rw [items_kid node i, rightOf_cell node inside]

end Sides

theorem items_below (kid : Limb 0) : Limb.items 0 kid = [] := rfl

/-- The frames lead down from the root to the node. The items left and right of the node are those of
the tree that are not below it. -/
inductive Trail (d : Disk) (tree : TreeKind) (root : Node (Limb H)) :
    {h : Nat} → Node (Limb h) → List Frame → List Item → List Item → Prop
  | root : Trail d tree root root [] [] []
  | down {h : Nat} {node : Node (Limb (h + 1))} {f : Frame} {frames : List Frame} {left right : List Item}
      (trail : Trail d tree root node frames left right)
      (mirrors : f.page.Mirrors d tree node) (clear : f.page.parked = [])
      (inside : f.index ≤ node.row.cells.length) :
      Trail d tree root (h := h) (node.row.kid f.index) (f :: frames) (left ++ leftOf node f.index)
        (rightOf node f.index ++ right)

namespace Trail

variable {node : Node (Limb h)} {frames : List Frame} {left right : List Item}

theorem items (trail : d.Trail tree root node frames left right) :
    Limb.items (H + 1) root = left ++ (Limb.items (h + 1) node ++ right) := by
  induction trail with
  | root => rw [List.nil_append, List.append_nil]
  | @down h node f frames left right trail mirrors clear inside ih =>
    rw [ih, items_kid node f.index]
    simp only [List.append_assoc]

theorem limb (trail : d.Trail tree root node frames left right) (stands : d.LimbAt tree (H + 1) root) :
    d.LimbAt tree (h + 1) node := by
  induction trail with
  | root => exact stands
  | @down h node f frames left right trail mirrors clear inside ih =>
    exact ((limbAt_node node).mp ih).2.kids _ (node.row.kid_mem f.index)

/-- A trail from the end of another one on. -/
theorem append {k : Nat} {below : Node (Limb k)} {inner : List Frame} {before behind : List Item}
    (trail : d.Trail tree root node frames left right) (further : d.Trail tree node below inner before behind) :
    d.Trail tree root below (inner ++ frames) (left ++ before) (behind ++ right) := by
  induction further with
  | root =>
    rw [List.append_nil]
    exact trail
  | down further mirrors clear inside ih =>
    have all := ih.down mirrors clear inside
    rw [List.append_assoc, ← List.append_assoc (rightOf _ _)] at all
    exact all

theorem top (trail : d.Trail tree root node [] left right) : left = [] ∧ right = [] := by
  cases trail
  exact ⟨rfl, rfl⟩

theorem ascend_next (trail : d.Trail tree root node frames left right) (top : Frame) :
    (Path.ascend (fun f => f.index < f.page.cellCount) (top :: frames) = none ∧ right = []) ∨
    ∃ (k : Nat) (parent : Node (Limb (k + 1))) (f : Frame) (rest : List Frame) (left' right' : List Item),
      Path.ascend (fun f => f.index < f.page.cellCount) (top :: frames) = some (f :: rest) ∧
      d.Trail tree root parent rest left' right' ∧ f.page.Mirrors d tree parent ∧
      f.page.parked = [] ∧ f.index < parent.row.cells.length ∧
      left ++ Limb.items (h + 1) node =
        left' ++ (leftOf parent f.index ++ Limb.items (k + 1) (parent.row.kid f.index)) ∧
      right = rightOf parent f.index ++ right' := by
  induction trail generalizing top with
  | root => exact .inl ⟨rfl, rfl⟩
  | @down h node f frames left right trail mirrors clear inside ih =>
    have count : f.page.cellCount = node.row.cells.length := mirrors.count clear
    unfold Path.ascend
    by_cases within : f.index < f.page.cellCount
    · rw [if_pos (decide_eq_true within)]
      exact .inr ⟨h, node, f, frames, left, right, rfl, trail, mirrors, clear, count ▸ within,
        List.append_assoc _ _ _, rfl⟩
    · have stays : ¬ decide (f.index < f.page.cellCount) = true := by
        rw [decide_eq_true_eq]
        exact within
      have ended : node.row.cells.length ≤ f.index := count ▸ Nat.le_of_not_lt within
      have nothing : rightOf node f.index = [] := Row.behind_end ended
      rw [if_neg stays, nothing, List.nil_append]
      have all : left ++ leftOf node f.index ++ Limb.items (h + 1) (node.row.kid f.index) =
          left ++ Limb.items (h + 2) node := by
        rw [items_kid node f.index, nothing, List.append_nil, List.append_assoc]
      rw [all]
      exact ih f

theorem ascend_previous (trail : d.Trail tree root node frames left right) (top : Frame) :
    (Path.ascend (fun f => f.index > 0) (top :: frames) = none ∧ left = []) ∨
    ∃ (k : Nat) (parent : Node (Limb (k + 1))) (f : Frame) (rest : List Frame) (left' right' : List Item),
      Path.ascend (fun f => f.index > 0) (top :: frames) = some (f :: rest) ∧
      d.Trail tree root parent rest left' right' ∧ f.page.Mirrors d tree parent ∧
      f.page.parked = [] ∧ 0 < f.index ∧ f.index ≤ parent.row.cells.length ∧
      left = left' ++ leftOf parent f.index ∧
      Limb.items (h + 1) node ++ right =
        Limb.items (k + 1) (parent.row.kid f.index) ++ (rightOf parent f.index ++ right') := by
  induction trail generalizing top with
  | root => exact .inl ⟨rfl, rfl⟩
  | @down h node f frames left right trail mirrors clear inside ih =>
    unfold Path.ascend
    by_cases positive : f.index > 0
    · rw [if_pos (decide_eq_true positive)]
      exact .inr ⟨h, node, f, frames, left, right, rfl, trail, mirrors, clear, positive, inside, rfl, rfl⟩
    · have stays : ¬ decide (f.index > 0) = true := by
        rw [decide_eq_true_eq]
        exact positive
      have zero : f.index = 0 := Nat.eq_zero_of_not_pos positive
      have nothing : leftOf node f.index = [] := by
        rw [zero]
        rfl
      rw [if_neg stays, nothing, List.append_nil]
      have all : Limb.items (h + 1) (node.row.kid f.index) ++ (rightOf node f.index ++ right) =
          Limb.items (h + 2) node ++ right := by
        rw [items_kid node f.index, nothing, List.nil_append, List.append_assoc]
      rw [all]
      exact ih f

end Trail

end Disk

namespace Walk

variable {d : Disk} {t : TreeRef} {H h : Nat} {root : Node (Limb H)} {node : Node (Limb h)} {f : Frame}
  {frames : List Frame} {left right before behind : List Item} {item : Item} {w v : Walk}

structure At (d : Disk) (t : TreeRef) (root : Node (Limb H)) (node : Node (Limb h)) (f : Frame)
    (frames : List Frame) (left right : List Item) (w : Walk) : Prop where
  showsDisk : w.store.Shows d
  path : w.path = f :: frames
  trail : d.Trail t.kind root node frames left right
  mirrors : f.page.Mirrors d t.kind node
  clear : f.page.parked = []

/-- The walk is at an entry, and it is known what comes before it in the tree and what behind. -/
def OnItem (d : Disk) (t : TreeRef) (root : Node (Limb H)) (before : List Item) (item : Item) (behind : List Item)
    (w : Walk) : Prop :=
  ∃ (h : Nat) (node : Node (Limb h)) (f : Frame) (frames : List Frame) (left right : List Item),
    At d t root node f frames left right w ∧ f.index < node.row.cells.length ∧ item = node.row.item f.index ∧
    item.divider = false ∧ before = left ++ (Disk.leftOf node f.index ++ Limb.items h (node.row.kid f.index)) ∧
    behind = Disk.tailOf node (f.index + 1) ++ right

namespace At

theorem withIndex (at_ : At d t root node f frames left right w) (index : Nat) :
    At d t root node { f with index } frames left right { w with path := w.path.setIndex index } where
  showsDisk := at_.showsDisk
  path := by
    rw [at_.path]
    rfl
  trail := at_.trail
  mirrors := at_.mirrors
  clear := at_.clear

theorem count (at_ : At d t root node f frames left right w) : f.page.cellCount = node.row.cells.length :=
  at_.mirrors.count at_.clear

theorem onItem (at_ : At d t root node f frames left right w) (inside : f.index < node.row.cells.length)
    (entry : (node.row.item f.index).divider = false) :
    OnItem d t root (left ++ (Disk.leftOf node f.index ++ Limb.items h (node.row.kid f.index)))
      (node.row.item f.index)
      (Disk.tailOf node (f.index + 1) ++ right) w :=
  ⟨h, node, f, frames, left, right, at_, inside, rfl, entry, rfl, rfl⟩

end At

theorem OnItem.items (on : OnItem d t root before item behind w) :
    Limb.items (H + 1) root = before ++ item :: behind := by
  obtain ⟨h, node, f, frames, left, right, at_, inside, rfl, -, rfl, rfl⟩ := on
  rw [at_.trail.items, Disk.items_cell node inside]
  simp only [List.append_assoc, List.cons_append]

section Standing

variable (stands : d.LimbAt t.kind (H + 1) root)

include stands

theorem At.entry (at_ : At d t root node f frames left right w) {i : Nat} (inside : i < node.row.cells.length)
    (own : t.kind = .index ∨ h = 0) : (node.row.item i).divider = false := by
  have fits := (((Disk.limbAt_node node).mp (at_.trail.limb stands)).2.items _ (Row.item_mem inside)).fits
  cases divides : (node.row.item i).divider with
  | false => rfl
  | true =>
    obtain ⟨isTable, inner⟩ := fits.divides.mp divides
    rcases own with isIndex | leaf
    · rw [isIndex] at isTable
      cases isTable
    · exact absurd leaf inner

theorem At.divider {node : Node (Limb (h + 1))} (at_ : At d t root node f frames left right w) {i : Nat}
    (inside : i < node.row.cells.length) (isTable : t.kind ≠ .index) : (node.row.item i).divider = true := by
  have fits := (((Disk.limbAt_node node).mp (at_.trail.limb stands)).2.items _
    (Row.item_mem inside)).fits
  refine fits.divides.mpr ⟨?_, Nat.succ_ne_zero h⟩
  cases kind : t.kind with
  | table => rfl
  | index => exact absurd kind isTable

theorem toRoot_at (showsDisk : w.store.Shows d) (isRoot : t.root = root.page) (run : toRoot t w = .ok () v) :
    ∃ page, At d t root root ⟨page, 0⟩ [] [] [] v := by
  unfold toRoot setPath at run
  rw [Action.modify_bind] at run
  obtain ⟨page, s, load, -, rfl⟩ := push_ok run
  rw [isRoot] at load
  obtain ⟨showsS, -, mirrors, clear⟩ := Store.loadPage_mirrors showsDisk ((Disk.limbAt_node root).mp stands).1 load
  exact ⟨page, showsS, rfl, .root, mirrors, clear⟩

theorem into_at {node : Node (Limb (h + 1))} (at_ : At d t root node f frames left right w)
    (inside : f.index ≤ node.row.cells.length) (run : toChild t (Node.page (node.row.kid f.index)) w = .ok () v) :
    ∃ page, At d t root (h := h) (node.row.kid f.index) ⟨page, 0⟩ (f :: frames)
      (left ++ Disk.leftOf node f.index) (Disk.rightOf node f.index ++ right) v := by
  unfold toChild at run
  rw [Action.get_bind] at run
  dsimp only at run
  split at run
  · exact absurd run Action.throw_bind_ok
  obtain ⟨page, s, load, -, rfl⟩ := push_ok run
  have trail := Disk.Trail.down at_.trail at_.mirrors at_.clear inside
  obtain ⟨showsS, -, mirrors, clear⟩ :=
    Store.loadPage_mirrors at_.showsDisk ((Disk.limbAt_node _).mp (trail.limb stands)).1 load
  exact ⟨page, showsS, by rw [at_.path], trail, mirrors, clear⟩

theorem toChild_at {node : Node (Limb (h + 1))} (at_ : At d t root node f frames left right w)
    {child : PageNo} (isChild : f.page.child f.index = .ok child) (run : toChild t child w = .ok () v) :
    ∃ page, At d t root (h := h) (node.row.kid f.index) ⟨page, 0⟩ (f :: frames)
      (left ++ Disk.leftOf node f.index) (Disk.rightOf node f.index ++ right) v := by
  obtain ⟨inside, number⟩ := at_.mirrors.child at_.clear isChild
  have number : child = Node.page (node.row.kid f.index) := (Option.some.inj number).symm
  exact into_at stands at_ inside (number ▸ run)

theorem descendFirst_at {left' : Nat} (at_ : At d t root node f frames left right w) (first : f.index = 0)
    (inner : frames ≠ []) (run : descendFirst t left' w = .ok () v) : ∃ item rest,
      Limb.items (h + 1) node = item :: rest ∧ OnItem d t root left item (rest ++ right) v := by
  induction left' generalizing h node f frames left right w with
  | zero => exact absurd run Action.throw_ok
  | succ left' ih =>
    unfold descendFirst at run
    rw [Action.bind_of_ok (top_run at_.path), at_.mirrors.isLeaf] at run
    cases h with
    | zero =>
      obtain ⟨rfl, some_⟩ := checkLeaf_ok at_.path run
      have inside : f.index < node.row.cells.length := by
        rw [first, ← at_.count]
        exact some_ inner
      have on := at_.onItem inside (at_.entry stands inside (.inr rfl))
      rw [first, Disk.leftOf_zero, Disk.items_below, List.append_nil, List.append_nil] at on
      rw [first] at inside
      refine ⟨node.row.item 0, Disk.tailOf node 1, ?_, on⟩
      rw [Disk.items_cell node inside, Disk.leftOf_zero, Disk.items_below]
      rfl
    | succ h =>
      obtain ⟨child, isChild, run⟩ := Action.lift_bind_ok.mp run
      obtain ⟨_, u, down, run⟩ := Action.bind_ok.mp run
      obtain ⟨page, atChild⟩ := toChild_at stands at_ isChild down
      obtain ⟨item, rest, same, on⟩ := ih atChild rfl nofun run
      rw [first, Disk.leftOf_zero, List.append_nil, ← List.append_assoc] at on
      rw [first] at same
      refine ⟨item, rest ++ Disk.rightOf node 0, ?_, on⟩
      rw [Disk.items_kid node 0, Disk.leftOf_zero, same]
      rfl

theorem descendLast_at {left' : Nat} (at_ : At d t root node f frames left right w)
    (run : descendLast t left' w = .ok () v) : ∃ (leaf : Node (Limb 0)) (g : Frame) (inner : List Frame) (init : List Item),
      At d t root leaf g (inner ++ frames) (left ++ init) right v ∧ g.index = g.page.cellCount - 1 ∧
      d.Trail t.kind node leaf inner init [] := by
  induction left' generalizing h node f frames left right w with
  | zero => exact absurd run Action.throw_ok
  | succ left' ih =>
    unfold descendLast at run
    rw [Action.bind_of_ok (top_run at_.path), at_.mirrors.isLeaf] at run
    cases h with
    | zero =>
      cases run
      refine ⟨node, { f with index := f.page.cellCount - 1 }, [], [], ?_, rfl, .root⟩
      rw [List.append_nil, List.nil_append]
      exact at_.withIndex _
    | succ h =>
      rw [setIndex] at run
      change (modify _ >>= _ : WalkM Unit) w = _ at run
      rw [Action.modify_bind] at run
      obtain ⟨child, isChild, run⟩ := Action.lift_bind_ok.mp run
      obtain ⟨_, u, down, run⟩ := Action.bind_ok.mp run
      have ended := at_.count
      obtain ⟨page, atChild⟩ := toChild_at stands (at_.withIndex f.page.cellCount) isChild down
      have nothing := Disk.rightOf_end node (Nat.le_of_eq ended.symm)
      have first : d.Trail t.kind node (node.row.kid f.page.cellCount) [{ f with index := f.page.cellCount }]
          ([] ++ Disk.leftOf node f.page.cellCount) (Disk.rightOf node f.page.cellCount ++ []) :=
        Disk.Trail.down (f := { f with index := f.page.cellCount }) .root at_.mirrors at_.clear (Nat.le_of_eq ended)
      dsimp only at atChild
      rw [nothing, List.nil_append] at atChild first
      obtain ⟨leaf, g, inner, init, atLeaf, last, further⟩ := ih atChild run
      rw [List.append_assoc] at atLeaf
      exact ⟨leaf, g, inner ++ [{ f with index := f.page.cellCount }], _, by simpa using atLeaf, last, first.append further⟩

theorem toLast_at (at_ : At d t root node f frames left right w) (inner : frames ≠ [])
    (run : toLast t w = .ok () v) : ∃ init item,
      Limb.items (h + 1) node = init ++ [item] ∧ OnItem d t root (left ++ init) item right v := by
  unfold toLast at run
  obtain ⟨_, u, down, run⟩ := Action.bind_ok.mp run
  obtain ⟨leaf, g, deeper, init, atLeaf, last, further⟩ := descendLast_at stands at_ down
  obtain ⟨rfl, some_⟩ := checkLeaf_ok atLeaf.path run
  have positive := some_ (List.append_ne_nil_of_right_ne_nil deeper inner)
  have count := atLeaf.count
  have inside : g.index < leaf.row.cells.length := by omega
  have ended : Disk.tailOf leaf (g.index + 1) = [] := by
    rw [Disk.tailOf_eq, Disk.rightOf_end leaf (by omega)]
    rfl
  have on := atLeaf.onItem inside (atLeaf.entry stands inside (.inr rfl))
  rw [ended, List.nil_append, Disk.items_below, List.append_nil, List.append_assoc] at on
  refine ⟨_, _, ?_, on⟩
  rw [further.items, List.append_nil, Disk.items_cell leaf inside, ended, Disk.items_below, List.nil_append,
    List.append_assoc]

theorem belowFirst_at {node : Node (Limb (h + 1))} (at_ : At d t root node f frames left right w)
    {found : Bool} (run : (do
      toChild t (← f.page.child f.index)
      toFirst t
      return true : WalkM Bool) w = .ok found v) : found = true ∧ ∃ item rest,
        Limb.items (h + 1) (node.row.kid f.index) = item :: rest ∧
        OnItem d t root (left ++ Disk.leftOf node f.index) item (rest ++ (Disk.rightOf node f.index ++ right)) v := by
  obtain ⟨child, isChild, run⟩ := Action.lift_bind_ok.mp run
  obtain ⟨_, u, down, run⟩ := Action.bind_ok.mp run
  obtain ⟨_, u', first, run⟩ := Action.bind_ok.mp run
  obtain ⟨rfl, rfl⟩ := Action.pure_ok.mp run
  obtain ⟨page, atChild⟩ := toChild_at stands at_ isChild down
  exact ⟨rfl, descendFirst_at stands atChild rfl nofun first⟩

theorem belowLast_at {node : Node (Limb (h + 1))} (at_ : At d t root node f frames left right w)
    {found : Bool} (run : (do
      toChild t (← f.page.child f.index)
      toLast t
      return true : WalkM Bool) w = .ok found v) : found = true ∧ ∃ init item,
        Limb.items (h + 1) (node.row.kid f.index) = init ++ [item] ∧
        OnItem d t root (left ++ Disk.leftOf node f.index ++ init) item (Disk.rightOf node f.index ++ right) v := by
  obtain ⟨child, isChild, run⟩ := Action.lift_bind_ok.mp run
  obtain ⟨_, u, down, run⟩ := Action.bind_ok.mp run
  obtain ⟨_, u', last, run⟩ := Action.bind_ok.mp run
  obtain ⟨rfl, rfl⟩ := Action.pure_ok.mp run
  obtain ⟨page, atChild⟩ := toChild_at stands at_ isChild down
  exact ⟨rfl, toLast_at stands atChild nofun last⟩

theorem next_at (on : OnItem d t root before item behind w) {found : Bool} (run : next t w = .ok found v) :
    if found then ∃ between item' behind', behind = between ++ item' :: behind' ∧
        (∀ other ∈ between, other.divider = true) ∧ OnItem d t root (before ++ item :: between) item' behind' v
    else behind = [] := by
  obtain ⟨h, node, f, frames, left, right, at_, inside, rfl, entry, rfl, rfl⟩ := on
  have atNext := at_.withIndex (f.index + 1)
  have passed : left ++ (Disk.leftOf node f.index ++ Limb.items h (node.row.kid f.index)) ++ [node.row.item f.index] =
      left ++ Disk.leftOf node (f.index + 1) := by
    rw [Disk.leftOf_succ node inside]
    simp only [List.append_assoc]
  unfold next setIndex at run
  rw [Action.bind_of_ok (top_run at_.path), Action.modify_bind, at_.mirrors.isLeaf] at run
  cases h with
  | succ h =>
    obtain ⟨rfl, item', rest, same, on⟩ := belowFirst_at stands atNext run
    dsimp only at same on
    refine ⟨[], item', _, ?_, nofun, passed ▸ on⟩
    rw [Disk.tailOf_eq, same]
    simp only [List.append_assoc, List.cons_append, List.nil_append]
  | zero =>
    change (if f.index + 1 < f.page.cellCount then _ else _ : WalkM Bool) _ = _ at run
    by_cases more : f.index + 1 < f.page.cellCount
    · rw [if_pos more] at run
      obtain ⟨rfl, rfl⟩ := Action.pure_ok.mp run
      have inside' : f.index + 1 < node.row.cells.length := at_.count ▸ more
      have on := atNext.onItem inside' (at_.entry stands inside' (.inr rfl))
      dsimp only at on
      rw [Disk.items_below, List.append_nil] at on
      refine ⟨[], _, _, ?_, nofun, passed ▸ on⟩
      rw [Disk.tailOf_eq, Disk.rightOf_cell node inside', Disk.items_below]
      rfl
    · rw [if_neg more, Action.get_bind, atNext.path] at run
      have ended : Disk.tailOf node (f.index + 1) = [] := by
        rw [Disk.tailOf_eq, Disk.rightOf_end node (by have count := at_.count; omega)]
        rfl
      rw [ended, List.nil_append]
      rcases at_.trail.ascend_next { f with index := f.index + 1 } with ⟨none, last⟩ |
        ⟨k, parent, g, rest, left', right', found, trail, mirrors, clear, within, all, isRight⟩
      · rw [none] at run
        obtain ⟨rfl, rfl⟩ := Action.pure_ok.mp run
        exact last
      rw [found] at run
      have atParent : At d t root parent g rest left' right' ⟨g :: rest, w.store⟩ :=
        ⟨at_.showsDisk, rfl, trail, mirrors, clear⟩
      have whole : left ++ (Disk.leftOf node f.index ++ Limb.items 0 (node.row.kid f.index)) ++ [node.row.item f.index] =
          left' ++ (Disk.leftOf parent g.index ++ Limb.items (k + 1) (parent.row.kid g.index)) := by
        rw [← all, Disk.items_cell node inside, ended]
        simp only [List.append_assoc]
      have isBehind : right = parent.row.item g.index :: (Disk.tailOf parent (g.index + 1) ++ right') := by
        rw [isRight, Disk.rightOf_cell parent within]
        rfl
      change (setPath (g :: rest) >>= _ : WalkM Bool) _ = _ at run
      unfold setPath at run
      rw [Action.modify_bind] at run
      by_cases isIndex : t.kind = .index
      · rw [if_pos isIndex] at run
        obtain ⟨rfl, rfl⟩ := Action.pure_ok.mp run
        have on := atParent.onItem within (atParent.entry stands within (.inl isIndex))
        rw [← whole] at on
        exact ⟨[], _, _, isBehind, nofun, on⟩
      · rw [if_neg isIndex, Action.modify_bind] at run
        obtain ⟨rfl, item', more, same, on⟩ := belowFirst_at stands (atParent.withIndex (g.index + 1)) run
        dsimp only at same on
        rw [Disk.leftOf_succ parent within, ← List.append_assoc (Disk.leftOf _ _), ← List.append_assoc left', ← whole,
          List.append_assoc] at on
        refine ⟨[parent.row.item g.index], item', _, ?_, ?_, on⟩
        · rw [isBehind, Disk.tailOf_eq, same]
          simp only [List.append_assoc, List.cons_append, List.nil_append]
        · exact List.forall_mem_singleton.mpr (atParent.divider stands within isIndex)

theorem previous_at (on : OnItem d t root before item behind w) {found : Bool} (run : previous t w = .ok found v) :
    if found then ∃ before' item' between, before = before' ++ item' :: between ∧
        (∀ other ∈ between, other.divider = true) ∧ OnItem d t root before' item' (between ++ item :: behind) v
    else before = [] := by
  obtain ⟨h, node, f, frames, left, right, at_, inside, rfl, entry, rfl, rfl⟩ := on
  have ahead := Disk.rightOf_cell node inside
  unfold previous at run
  rw [Action.bind_of_ok (top_run at_.path), at_.mirrors.isLeaf] at run
  cases h with
  | succ h =>
    obtain ⟨rfl, init, item', same, on⟩ := belowLast_at stands at_ run
    rw [ahead] at on
    refine ⟨_, item', [], ?_, nofun, on⟩
    rw [same]
    simp only [List.append_assoc]
  | zero =>
    change (if f.index > 0 then _ else _ : WalkM Bool) _ = _ at run
    by_cases more : f.index > 0
    · rw [if_pos more] at run
      unfold setIndex at run
      rw [Action.modify_bind] at run
      obtain ⟨rfl, rfl⟩ := Action.pure_ok.mp run
      obtain ⟨i, isNext⟩ : ∃ i, f.index = i + 1 := ⟨f.index - 1, by omega⟩
      rw [isNext] at inside ahead ⊢
      have low : i < node.row.cells.length := Nat.lt_of_succ_lt inside
      have on := (at_.withIndex i).onItem low (at_.entry stands low (.inr rfl))
      dsimp only at on
      rw [Disk.tailOf_eq, Disk.items_below, Disk.items_below, List.append_nil, List.nil_append, ahead] at on
      refine ⟨_, node.row.item i, [], ?_, nofun, on⟩
      rw [Disk.leftOf_succ node low, Disk.items_below, Disk.items_below]
      simp only [List.append_assoc, List.append_nil, List.nil_append]
    · have zero : f.index = 0 := Nat.eq_zero_of_not_pos more
      rw [if_neg more, Action.get_bind, at_.path] at run
      have first : Disk.leftOf node f.index ++ Limb.items 0 (node.row.kid f.index) = [] := by
        rw [zero, Disk.leftOf_zero, Disk.items_below]
        rfl
      rw [first, List.append_nil]
      rcases at_.trail.ascend_previous f with ⟨none, start⟩ |
        ⟨k, parent, g, rest, left', right', found, trail, mirrors, clear, positive, within, isLeft, all⟩
      · rw [none] at run
        obtain ⟨rfl, rfl⟩ := Action.pure_ok.mp run
        exact start
      rw [found] at run
      obtain ⟨i, isNext⟩ : ∃ i, g.index = i + 1 := ⟨g.index - 1, by omega⟩
      have low : i < parent.row.cells.length := by omega
      have atParent : At d t root parent g rest left' right' ⟨g :: rest, w.store⟩ :=
        ⟨at_.showsDisk, rfl, trail, mirrors, clear⟩
      have isBefore : left = left' ++ (Disk.leftOf parent i ++
          (Limb.items (k + 1) (parent.row.kid i) ++ [parent.row.item i])) := by
        rw [isLeft, isNext, Disk.leftOf_succ parent low]
      have whole : node.row.item f.index :: (Disk.tailOf node (f.index + 1) ++ right) =
          Disk.tailOf parent (i + 1) ++ right' := by
        rw [Disk.items_cell node inside, ← List.append_assoc, first, isNext] at all
        rw [Disk.tailOf_eq parent, List.append_assoc, ← all]
        rfl
      change (setPath (g :: rest) >>= _ : WalkM Bool) _ = _ at run
      unfold setPath setIndex at run
      rw [Action.modify_bind, Action.modify_bind, isNext] at run
      by_cases isIndex : t.kind = .index
      · rw [if_pos isIndex] at run
        obtain ⟨rfl, rfl⟩ := Action.pure_ok.mp run
        have on := (atParent.withIndex i).onItem low (atParent.entry stands low (.inl isIndex))
        dsimp only at on
        rw [← whole] at on
        refine ⟨_, _, [], ?_, nofun, on⟩
        rw [isBefore]
        simp only [List.append_assoc]
      · rw [if_neg isIndex] at run
        obtain ⟨rfl, init, item', same, on⟩ := belowLast_at stands (atParent.withIndex i) run
        dsimp only at same on
        rw [Disk.rightOf_cell parent low, List.cons_append, ← whole] at on
        refine ⟨_, item', [parent.row.item i], ?_, ?_, on⟩
        · rw [isBefore, same]
          simp only [List.append_assoc, List.cons_append, List.nil_append]
        · exact List.forall_mem_singleton.mpr (atParent.divider stands low isIndex)

end Standing

end Walk

end TreeFile
