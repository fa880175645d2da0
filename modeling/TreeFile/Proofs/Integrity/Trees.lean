import TreeFile.Proofs.Integrity.KeyRanges

/-!
Trees that have been checked: all leaves at one depth, every page but the root with cells in it, and keys in
order from one end to the other.
-/

namespace TreeFile

theorem Row.gather_items_of {T α : Type} {row : Row T} (g : Item → List α) :
    row.gather (fun _ => []) g = row.items.flatMap g := by
  unfold gather read items
  simp [List.flatMap_map]

namespace Integrity

open Overflow Disk

variable {d : Disk} {tree : TreeKind} {h : Nat} {number : PageNo} {parent : Option PageNo} {seen : List PageNo}
  {lower upper : Option Item} {item : Item} {items : List Item}

theorem ItemSeen.carries (itemSeen : ItemSeen d (.at tree h) number item) (low : 1 ∉ item.chain) :
    d.Carries tree h item ∧ d.Mapped (item.headClaim number) := by
  obtain ⟨links, head⟩ := mapped_chain (itemSeen.claims low)
  have chain := itemSeen.chain
  rw [PageKind.tree_at] at chain
  refine ⟨⟨⟨low, itemSeen.divides.trans ?_, itemSeen.plain⟩, chain, links⟩, head⟩
  cases h <;> cases tree <;> simp [PageKind.at, PageKind.leaf, PageKind.interior]

def place (parent : Option PageNo) : PointerEntry :=
  match parent with
  | none => ⟨.root, 0⟩
  | some parent => ⟨.treeNode, parent⟩

structure Grown (d : Disk) (tree : TreeKind) (parent : Option PageNo) {h : Nat} (node : Node (Limb h)) : Prop where
  stands : 1 ∉ node.row.hanging → d.LimbAt tree (h + 1) node
  entry : node.page ≠ 1 → d.mapped = true → d.entry node.page = some (place parent)
  stocked : parent ≠ none → node.row.cells ≠ []
  full : node.row.Full false

def KidSeen (d : Disk) (tree : TreeKind) (number : PageNo) : (h : Nat) → Limb h → Prop
  | 0, _ => True
  | _ + 1, node => Grown d tree (some number) node

theorem Grown.of_row {row : Row (Limb h)}
    (at_ : d.PageAt number (.at tree h) (row.slots d.limits tree) row.right)
    (items : ∀ item ∈ row.items, ItemSeen d (.at tree h) number item)
    (kids : ∀ kid ∈ row.kids, KidSeen d tree number h kid)
    (entry : number ≠ 1 → d.mapped = true → d.entry number = some (place parent))
    (stocked : parent ≠ none → row.cells ≠ []) : Grown d tree parent ⟨number, row⟩ := by
  refine ⟨fun away => ?_, entry, stocked, fun kid member => ?_⟩
  · have chains : ∀ item ∈ row.items, 1 ∉ item.chain := fun item member inside =>
      away (Row.mem_gather.mpr (.inr ⟨item, member, inside⟩))
    have pages : ∀ kid ∈ row.kids, 1 ∉ Limb.pages h kid := fun kid member inside =>
      away (Row.mem_gather.mpr (.inl ⟨kid, member, inside⟩))
    refine (Disk.limbAt_node _).mpr ⟨⟨at_, fun mapped claim member => ?_⟩, ⟨fun item member => ?_, fun kid member => ?_⟩⟩
    · rcases Row.mem_gather.mp member with ⟨kid, among, own⟩ | ⟨item, among, own⟩
      · have seen := kids kid among
        have others := pages kid among
        cases h with
        | zero => exact nomatch own
        | succ h =>
          have other : Node.page kid ≠ 1 := fun first => others (List.mem_cons.mpr (.inl first.symm))
          rw [List.mem_singleton.mp own]
          exact Grown.entry seen other mapped
      · exact ((items item among).carries (chains item among)).2 mapped claim own
    · exact ((items item member).carries (chains item member)).1
    · have seen := kids kid member
      have others := pages kid member
      cases h with
      | zero => trivial
      | succ h => exact Grown.stands seen fun inside => others (List.mem_cons_of_mem _ inside)
  · have seen := kids kid member
    cases h with
    | zero => trivial
    | succ h => exact ⟨.inr (Grown.stocked seen nofun), Grown.full seen⟩

structure LimbSeen (d : Disk) (seen : List PageNo) (tree : TreeKind) (parent : Option PageNo) (number : PageNo)
    (lower upper : Option Item) {h : Nat} (node : Node (Limb h)) (t : Check) : Prop where
  page : node.page = number
  grown : Grown d tree parent node
  fenced : Fenced tree lower upper (Limb.items (h + 1) node)
  tracks : Tracks d (Limb.pages (h + 1) node ++ seen) t

structure RowSeen (d : Disk) (seen : List PageNo) (tree : TreeKind) (page : Page) (slots : List Slot) (i : Nat)
    (items : List Item) (lower upper : Option Item) {h : Nat} (row : Row (Limb (h + 1))) (t : Check) : Prop where
  items : row.items = items
  pages : row.kids.map (Limb.page? (h + 1)) = (slots.map Slot.left ++ [page.header.rightChild]).drop i
  kids : ∀ kid ∈ row.kids, KidSeen d tree page.number (h + 1) kid
  fenced : Fenced tree lower upper (row.gather (Limb.items (h + 1)) fun item => [item])
  tracks : Tracks d (row.kids.flatMap (Limb.pages (h + 1)) ++ seen) t

variable {page : Page} {slots : List Slot} {i : Nat} {child : PageNo} {kid : Limb (h + 1)} {t u : Check}

theorem RowSeen.last (bears : page.Bears slots page.header.rightChild) (clear : page.parked = [])
    (found : page.child slots.length = .ok child)
    (limb : LimbSeen d seen tree (some page.number) child lower upper (h := h) kid t) :
    RowSeen d seen tree page slots slots.length [] lower upper ⟨[], kid⟩ t := by
  have at_ := ((bears.child_ok clear).mp found).2
  rw [List.getElem?_append_right (Nat.le_of_eq (List.length_map _)), List.length_map, Nat.sub_self] at at_
  refine ⟨rfl, ?_, ?_, limb.fenced, ?_⟩
  · rw [List.drop_append_of_le_length (Nat.le_of_eq (List.length_map _).symm),
      List.drop_eq_nil_of_le (Nat.le_of_eq (List.length_map _)), Option.some.inj at_, ← limb.page]
    rfl
  · exact List.forall_mem_singleton.mpr limb.grown
  · exact (List.flatMap_singleton (Limb.pages (h + 1)) kid).symm ▸ limb.tracks

theorem RowSeen.cons {row : Row (Limb (h + 1))} (bears : page.Bears slots page.header.rightChild)
    (clear : page.parked = []) (found : page.child i = .ok child)
    (limb : LimbSeen d seen tree (some page.number) child lower (some item) (h := h) kid t)
    (rest : RowSeen d (Limb.pages (h + 1) kid ++ seen) tree page slots (i + 1) items (some item) upper row u) :
    RowSeen d seen tree page slots i (item :: items) lower upper (.prepend [(kid, item)] row) u := by
  obtain ⟨-, at_⟩ := (bears.child_ok clear).mp found
  obtain ⟨inside, at_⟩ := List.getElem?_eq_some_iff.mp at_
  refine ⟨?_, ?_, ?_, ?_, ?_⟩
  · rw [Row.items_prepend, rest.items]
    rfl
  · rw [Row.kids_prepend, List.map_append, rest.pages, List.drop_eq_getElem_cons inside, at_, ← limb.page]
    rfl
  · rw [Row.kids_prepend]
    exact List.forall_mem_cons.mpr ⟨limb.grown, rest.kids⟩
  · rw [Row.gather_prepend, Row.read_cons, Row.read_nil, List.append_nil, List.append_assoc]
    exact limb.fenced.cons rest.fenced
  · rw [Row.kids_prepend]
    refine rest.tracks.perm ?_
    rw [← List.append_assoc]
    exact List.perm_append_comm.append_right seen

variable {visit : PageNo → KeyRange → CheckM (Option Nat)} {range : KeyRange} {ranges : List KeyRange}
  {depth : Option Nat} {c : Check}

theorem checkChildren_step {found : PageNo → Nat → Check → Prop} {rest : Option Nat → Check → Option Nat → Check → Prop}
    (visits : ∀ child, Passes (visit child range) c fun depth t => ∃ n, depth = some n ∧ found child n t)
    (others : ∀ depth t, Passes (checkChildren page visit (i + 1) ranges depth) t (rest depth t)) :
    Passes (checkChildren page visit i (range :: ranges) depth) c fun last u =>
      ∃ child n t, page.child i = .ok child ∧ found child n t ∧ (∀ m, depth = some m → m = n) ∧ rest (some n) t last u := by
  have any : ∀ depth t, Passes (checkChildren page visit (i + 1) ranges depth) t fun _ _ => True :=
    fun depth t => (others depth t).imp fun _ _ _ _ => trivial
  unfold checkChildren
  extract_lets number
  refine .full ?_
  cases isChild : page.child i with
  | error e => exact .report_bind _ fun t => any depth t
  | ok child =>
    refine (visits child).bind fun answer t => ?_
    cases depth with
    | none =>
      refine (others answer t).imp ?_
      rintro last u - later ⟨n, rfl, first⟩
      exact ⟨child, n, t, rfl, first, nofun, later⟩
    | some depth =>
      cases answer with
      | none => exact (any _ t).imp fun _ _ _ _ ⟨_, broken, _⟩ => nomatch broken
      | some n =>
        dsimp only
        split
        · exact .report_bind _ fun t => any _ t
        rename_i same
        obtain rfl := Decidable.not_not.mp same
        refine (others (some depth) t).imp ?_
        rintro last u - later ⟨n, same, first⟩
        cases same
        exact ⟨child, depth, t, rfl, first, fun m same => (Option.some.inj same).symm, later⟩

def ChildSeen (tree : TreeKind) (parent : Option PageNo) (base : Nat) (range : KeyRange) (c : Check)
    (child : PageNo) (n : Nat) (t : Check) : Prop :=
  ∀ d seen lower upper, Tracks d seen c → range.Of tree lower upper → (parent = none → lower = none) →
    ∃ (h : Nat) (node : Node (Limb h)), n = base + h ∧ LimbSeen d seen tree parent child lower upper node t

theorem checkChildren_passes {base : Nat} (page : Page)
    (visits : ∀ child range c, Passes (visit child range) c fun depth t =>
      ∃ n, depth = some n ∧ ChildSeen tree (some page.number) base range c child n t)
    (keys : List (Option Key)) (low high : Option Key) (i : Nat) (depth : Option Nat) (c : Check) :
    Passes (checkChildren page visit i (childRanges low high keys) depth) c fun last t =>
      ∃ n, last = some n ∧ (∀ m, depth = some m → m = n) ∧
        ∀ d seen slots items lower upper, Tracks d seen c → page.Bears slots page.header.rightChild →
          page.parked = [] → i + items.length = slots.length → keys = items.map (some ∘ Item.key tree) →
          low = lower.map (Item.key tree) → high = upper.map (Item.key tree) →
          (∀ bound ∈ lower.toList ++ items ++ upper.toList, bound.Bounds tree) →
          ∃ (h : Nat) (row : Row (Limb (h + 1))), n = base + h ∧
            RowSeen d seen tree page slots i items lower upper row t := by
  induction keys generalizing low i depth c with
  | nil =>
    have stop : ∀ depth t, Passes (checkChildren page visit (i + 1) [] depth) t fun last u => last = depth ∧ u = t :=
      fun depth t => .pure fun _ => ⟨rfl, rfl⟩
    refine (checkChildren_step (fun child => visits child _ c) stop).imp ?_
    rintro last u - ⟨child, n, t, found, limb, same, rfl, rfl⟩
    refine ⟨n, rfl, same, ?_⟩
    intro d seen slots items lower upper tracks bears clear length isKeys isLow isHigh bounds
    obtain rfl : items = [] := List.map_eq_nil_iff.mp isKeys.symm
    obtain rfl : i = slots.length := length
    rw [List.append_nil] at bounds
    obtain ⟨h, node, same, limb⟩ := limb d seen lower upper tracks ⟨isLow, isHigh, bounds⟩ nofun
    exact ⟨h, _, same, .last bears clear found limb⟩
  | cons key keys ih =>
    refine (checkChildren_step (fun child => visits child _ c) fun depth t => ih key (i + 1) depth t).imp ?_
    rintro last u - ⟨child, n, t, found, limb, same, _, rfl, same', rest⟩
    obtain rfl := same' n rfl
    refine ⟨n, rfl, same, ?_⟩
    intro d seen slots items lower upper tracks bears clear length isKeys isLow isHigh bounds
    cases items with
    | nil => cases isKeys
    | cons item items =>
      obtain ⟨isKey, isKeys⟩ := List.cons.inj isKeys
      have left : ∀ bound ∈ lower.toList ++ [item], bound.Bounds tree := fun bound member => by
        refine bounds bound ?_
        simp only [List.mem_append, List.mem_cons, List.not_mem_nil, or_false] at member ⊢
        exact .inl (member.imp_right .inl)
      have behind : ∀ bound ∈ [item] ++ items ++ upper.toList, bound.Bounds tree := fun bound member => by
        refine bounds bound ?_
        rw [List.append_assoc]
        exact List.mem_append_right _ member
      obtain ⟨h, node, height, limb⟩ := limb d seen lower (some item) tracks ⟨isLow, isKey, left⟩ nofun
      obtain ⟨h', row, height', rest⟩ := rest d (Limb.pages (h + 1) node ++ seen) slots items (some item) upper
        limb.tracks bears clear (by rw [← length, List.length_cons]; omega) isKeys isKey isHigh behind
      obtain rfl : h = h' := by omega
      exact ⟨h, _, height, .cons bears clear found limb rest⟩

theorem checkLayout_passes (page : Page) : Passes (checkLayout page) c fun _ t => layoutFault page = .ok () ∧ t = c := by
  unfold checkLayout
  cases layoutFault page with
  | error finding => exact .report finding
  | ok => exact .pure fun _ => ⟨rfl, rfl⟩

theorem slots_of_parts {row : Row (Limb h)} {limits : PayloadLimits}
    (lefts : row.cells.map (fun c => Limb.page? h c.1) = slots.map Slot.left)
    (stubs : row.items.map (fun item => item.stub limits tree) = slots.map Slot.stub) :
    row.slots limits tree = slots := by
  unfold Row.slots
  unfold Row.items at stubs
  generalize row.cells = cells at lefts stubs ⊢
  induction cells generalizing slots with
  | nil => exact (List.map_eq_nil_iff.mp lefts.symm).symm
  | cons cell cells ih =>
    cases slots with
    | nil => cases lefts
    | cons slot slots =>
      obtain ⟨left, lefts⟩ := List.cons.inj lefts
      obtain ⟨stub, stubs⟩ := List.cons.inj stubs
      rw [List.map_cons, ih lefts stubs]
      exact congrArg (fun slot => slot :: slots) (congrArg₂ Slot.mk left stub)

theorem kind_at {kind : PageKind} (leaf : kind.isLeaf = decide (h = 0)) : kind = .at kind.tree h := by
  cases h <;> cases kind <;> first | rfl | cases leaf

theorem LimbSeen.of_row {row : Row (Limb h)} (kind : page.kind = .at tree h)
    (at_ : d.PageAt number page.kind slots page.header.rightChild)
    (pages : row.kids.map (Limb.page? h) = slots.map Slot.left ++ [page.header.rightChild])
    {range : KeyRange} {u : Check} (cells : CellsSeen d (number :: seen) page number slots range 0 none row.items u)
    (kids : ∀ kid ∈ row.kids, KidSeen d tree number h kid)
    (entry : number ≠ 1 → d.mapped = true → d.entry number = some (place parent))
    (stocked : parent ≠ none → row.items ≠ [])
    (fenced : Fenced tree lower upper (row.gather (Limb.items h) fun item => [item]))
    (tracks : Tracks d (row.kids.flatMap (Limb.pages h) ++ (row.items.flatMap Item.chain ++ number :: seen)) t) :
    LimbSeen d seen tree parent number lower upper (h := h) ⟨number, row⟩ t := by
  have stubs := cells.stubs
  have each := cells.each
  rw [kind] at at_ each
  rw [kind, PageKind.tree_at, List.drop_zero] at stubs
  unfold Row.kids at pages
  rw [List.map_append, List.map_map] at pages
  have same := slots_of_parts (List.append_inj_left' pages rfl) stubs.symm
  have right : row.right = page.header.rightChild := List.head_eq_of_cons_eq (List.append_inj_right' pages rfl)
  refine ⟨rfl, .of_row ?_ each kids entry fun other none => stocked other ?_, ?_, ?_⟩
  · rw [same, right]
    exact at_
  · unfold Row.items
    rw [none]
    rfl
  · rw [Limb.items_node]
    exact fenced
  · have whole : (row.gather (Limb.pages h) Item.chain).Perm _ := Row.gather_perm
    have parts := whole.append_right (number :: seen)
    rw [List.append_assoc] at parts
    exact tracks.perm (parts.symm.trans List.perm_middle)

def leafRow (items : List Item) : Row (Limb 0) where
  cells := items.map fun item => ((), item)
  last := ()

theorem items_leafRow (items : List Item) : (leafRow items).items = items := by
  unfold Row.items leafRow
  rw [List.map_map]
  exact List.map_id items

theorem gather_leafRow {α : Type} (f : Limb 0 → List α) (nothing : ∀ kid, f kid = []) (g : Item → List α)
    (items : List Item) : (leafRow items).gather f g = items.flatMap g := by
  rw [Row.gather_congr (fun kid _ => nothing kid) fun _ _ => rfl, Row.gather_items_of, items_leafRow]

theorem LimbSeen.of_leaf {range : KeyRange} (leaf : page.isLeaf = true)
    (at_ : d.PageAt number page.kind slots page.header.rightChild)
    (bears : page.Bears slots page.header.rightChild)
    (cells : CellsSeen d (number :: seen) page number slots range 0 none items t)
    (of_ : range.Of page.kind.tree lower upper)
    (entry : number ≠ 1 → d.mapped = true → d.entry number = some (place parent))
    (stocked : parent ≠ none → items ≠ []) (unbound : parent = none → lower = none) :
    LimbSeen d seen page.kind.tree parent number lower upper (h := 0) ⟨number, leafRow items⟩ t := by
  have kind : page.kind = .at page.kind.tree 0 := kind_at leaf
  have entries : ∀ item ∈ items, page.kind.tree = .table → item.divider = false := by
    intro item member isTable
    refine Bool.eq_false_iff.mpr fun divides => ?_
    have interior := (cells.each item member).divides.mp divides
    unfold Page.isLeaf at leaf
    rw [interior] at leaf
    cases leaf
  have isGather := gather_leafRow (Limb.items 0) (fun _ => rfl) (fun item => [item]) items
  rw [List.flatMap_singleton'] at isGather
  have own : CellsSeen d (number :: seen) page number slots range 0 none (leafRow items).items t :=
    (items_leafRow items).symm ▸ cells
  have rising : Rising ((none : Option Item).map (Item.key page.kind.tree)) (items.map (Item.key page.kind.tree)) :=
    cells.rising
  refine .of_row kind at_ ?_ own (fun _ _ => trivial) entry ?_ ?_ ?_
  · have length := congrArg List.length cells.stubs
    rw [List.drop_zero, List.length_map, List.length_map] at length
    have lefts : slots.map Slot.left = List.replicate slots.length none := by
      refine List.eq_replicate_iff.mpr ⟨List.length_map _, List.forall_mem_map.mpr fun slot member => ?_⟩
      have childless := bears.left_isSome member
      rw [leaf] at childless
      exact Option.not_isSome_iff_eq_none.mp (Bool.eq_false_iff.mp childless)
    have right := bears.right_isSome
    rw [leaf] at right
    rw [lefts, length, Option.not_isSome_iff_eq_none.mp (Bool.eq_false_iff.mp right), ← List.replicate_succ']
    refine List.eq_replicate_iff.mpr ⟨?_, List.forall_mem_map.mpr fun _ _ => rfl⟩
    rw [List.length_map, Row.length_kids]
    exact congrArg Nat.succ (List.length_map _)
  · rw [items_leafRow]
    exact stocked
  · rw [isGather]
    refine .of_each (rising.sorted entries) (fun item member => ?_) fun none => ?_
    · exact of_.fenced (entries item member) (cells.inside item member)
    · exact unbound (Decidable.not_not.mp fun other => stocked other none)
  · have nothing : (leafRow items).kids.flatMap (Limb.pages 0) = [] := List.flatMap_eq_nil_iff.mpr fun _ _ => rfl
    rw [items_leafRow, nothing]
    exact cells.tracks

theorem LimbSeen.of_children {range : KeyRange} {row : Row (Limb (h + 1))} (interior : page.isLeaf = false)
    (at_ : d.PageAt number page.kind slots page.header.rightChild)
    (cells : CellsSeen d (number :: seen) page number slots range 0 none items u) (isNumber : page.number = number)
    (children : RowSeen d (items.flatMap Item.chain ++ number :: seen) page.kind.tree page slots 0 items lower upper
      row t)
    (entry : number ≠ 1 → d.mapped = true → d.entry number = some (place parent))
    (stocked : parent ≠ none → items ≠ []) :
    LimbSeen d seen page.kind.tree parent number lower upper (h := h + 1) ⟨number, row⟩ t := by
  subst isNumber
  obtain ⟨rfl, pages, kids, fenced, tracks⟩ := children
  exact .of_row (kind_at interior) at_ pages cells kids entry stocked fenced tracks

theorem ItemSeen.bounds {kind : PageKind} (interior : kind.isLeaf = false) (itemSeen : ItemSeen d kind number item) :
    item.Bounds kind.tree := by
  intro isTable
  refine itemSeen.divides.mpr ?_
  cases kind with
  | tableInterior => rfl
  | tableLeaf => cases interior
  | indexLeaf => cases isTable
  | indexInterior => cases isTable

theorem PageSeen.of_layout (sound : d.Sound)
    (loaded : d.Has number ∧ Page.parse number (d.image number) (d.geometry number) d.limits = .ok page)
    (layout : layoutFault page = .ok ()) :
    ∃ slots, PageSeen d number page slots ∧ d.PageAt number page.kind slots page.header.rightChild := by
  obtain ⟨has, parse⟩ := loaded
  obtain ⟨slots, bears⟩ := Page.bears_of_layout parse sound layout
  exact ⟨slots, ⟨Page.of_of_parse parse, Page.clear_of_parse parse, bears⟩, Page.pageAt_of_bears parse has bears⟩

/-- The check of a page and of what is below it, with leaves that are `base` pages deep. -/
def checkBelow (page : Page) (range : KeyRange) (base : Nat) (visit : PageNo → KeyRange → CheckM (Option Nat)) :
    CheckM (Option Nat) := do
  checkLayout page
  match ← checkCells page range page.cellCount 0 none with
  | none => return none
  | some keys =>
    if page.isLeaf then return some base
    checkChildren page visit 0 (childRanges range.lower range.upper keys) none

theorem checkBelow_passes (page : Page) (number : PageNo) (parent : Option PageNo) (range : KeyRange) {base : Nat}
    (c : Check)
    (visits : ∀ child range c, Passes (visit child range) c fun depth t =>
      ∃ n, depth = some n ∧ ChildSeen page.kind.tree (some page.number) (base + 1) range c child n t) :
    Passes (checkBelow page range base visit) c fun depth t => ∃ n, depth = some n ∧
      ∀ d seen lower upper, Tracks d (number :: seen) c →
        d.Has number ∧ Page.parse number (d.image number) (d.geometry number) d.limits = .ok page →
        (number ≠ 1 → d.mapped = true → d.entry number = some (place parent)) →
        (parent ≠ none → page.cellCount ≠ 0) → range.Of page.kind.tree lower upper →
        (parent = none → lower = none) → ∃ (h : Nat) (node : Node (Limb h)), n = base + h ∧
          LimbSeen d seen page.kind.tree parent number lower upper node t := by
  unfold checkBelow
  refine (checkLayout_passes page).bind fun _ c1 => ?_
  refine (checkCells_passes page range page.cellCount 0 none c1).bind fun found t => ?_
  cases found with
  | none => exact .pure fun _ ⟨_, broken, _⟩ => nomatch broken
  | some keys =>
    dsimp only
    -- the items of the page, whether it is a leaf or not
    have onPage : ∀ d seen, Tracks d (number :: seen) c → layoutFault page = .ok () ∧ c1 = c →
        d.Has number ∧ Page.parse number (d.image number) (d.geometry number) d.limits = .ok page →
        (parent ≠ none → page.cellCount ≠ 0) →
        (∀ d seen number slots, Tracks d seen c1 → PageSeen d number page slots → 0 + page.cellCount = slots.length →
          ∃ items, keys = items.map (fun item => some (item.key page.kind.tree)) ∧
            CellsSeen d seen page number slots range 0 none items t) →
        ∃ slots items, PageSeen d number page slots ∧ d.PageAt number page.kind slots page.header.rightChild ∧
          keys = items.map (fun item => some (item.key page.kind.tree)) ∧
          CellsSeen d (number :: seen) page number slots range 0 none items t ∧ items.length = slots.length ∧
          (parent ≠ none → items ≠ []) := by
      rintro d seen tracks ⟨layout, rfl⟩ loaded stocked cells
      obtain ⟨slots, pageSeen, at_⟩ := PageSeen.of_layout tracks.shows.disk_sound loaded layout
      have count := pageSeen.bears.count pageSeen.clear
      obtain ⟨items, isKeys, cells⟩ := cells d _ number slots tracks pageSeen (by omega)
      have length := congrArg List.length cells.stubs
      rw [List.drop_zero, List.length_map, List.length_map] at length
      refine ⟨slots, items, pageSeen, at_, isKeys, cells, length.symm, fun child none => stocked child ?_⟩
      rw [count, length, none]
      rfl
    cases leaf : page.isLeaf with
    | true =>
      rw [if_pos rfl]
      refine .pure fun _ ⟨_, same, cells⟩ layout => ⟨base, rfl, ?_⟩
      cases same
      intro d seen lower upper tracks loaded entry stocked of_ unbound
      obtain ⟨slots, items, pageSeen, at_, -, cells, -, stocked⟩ := onPage d seen tracks layout loaded stocked cells
      exact ⟨0, _, rfl, .of_leaf leaf at_ pageSeen.bears cells of_ entry stocked unbound⟩
    | false =>
      rw [if_neg Bool.false_ne_true]
      refine (checkChildren_passes page visits keys range.lower range.upper 0 none t).imp ?_
      rintro last u - ⟨n, rfl, -, kids⟩ ⟨_, same, cells⟩ layout
      cases same
      refine ⟨n, rfl, ?_⟩
      intro d seen lower upper tracks loaded entry stocked of_ unbound
      obtain ⟨slots, items, pageSeen, at_, isKeys, cells, length, stocked⟩ :=
        onPage d seen tracks layout loaded stocked cells
      have bounds : ∀ bound ∈ lower.toList ++ items ++ upper.toList, bound.Bounds page.kind.tree := by
        intro bound member
        rcases List.mem_append.mp member with front | high
        · rcases List.mem_append.mp front with low | item
          · exact of_.bounds bound (List.mem_append_left _ low)
          · exact (cells.each bound item).bounds leaf
        · exact of_.bounds bound (List.mem_append_right _ high)
      obtain ⟨h, row, rfl, children⟩ := kids d _ slots items lower upper cells.tracks pageSeen.bears pageSeen.clear
        ((Nat.zero_add _).trans length) isKeys of_.low of_.high bounds
      refine ⟨h + 1, ⟨number, row⟩, (Nat.add_right_comm base 1 h), ?_⟩
      exact .of_children leaf at_ cells pageSeen.of_.number children entry stocked

theorem checkTree_passes (tree : TreeKind) {left : Nat} (deep : left ≤ maxDepth) (number : PageNo)
    (parent : Option PageNo) (range : KeyRange) (c : Check) :
    Passes (checkTree tree left number parent range) c fun depth t =>
      ∃ n, depth = some n ∧ ChildSeen tree parent (maxDepth + 1 - left) range c number n t := by
  induction left generalizing number parent range c with
  | zero =>
    unfold checkTree
    exact .full (.report_bind _ fun t => .pure fun _ => trivial)
  | succ left ih =>
    unfold checkTree
    refine .full (.get ?_)
    by_cases map : c.store.isMapPage number = true
    · rw [if_pos map]
      exact .report_bind _ fun t => .pure fun _ => trivial
    rw [if_neg map]
    refine (mark_passes number _).bind fun fresh c1 => ?_
    by_cases isFresh : fresh = true
    swap
    · rw [if_pos (by simpa using isFresh)]
      exact .pure fun _ marked => absurd marked.1 isFresh
    rw [if_neg (by simpa using isFresh)]
    refine (checkEntry_passes number _).bind fun _ c2 => ?_
    refine .attempt (fun e s _ => .report_bind _ fun t => .pure fun _ => trivial) fun page s load => ?_
    dsimp only
    split
    · exact .report_bind _ fun t => .pure fun _ => trivial
    rename_i isTree
    obtain rfl := Decidable.not_not.mp isTree
    obtain rfl : page.number = number := Store.loadPage_number load
    have after : ∀ c3, Passes (checkBelow page range (maxDepth - left)
        fun child range => checkTree page.kind.tree left child (some page.number) range) c3 fun depth u => _ :=
      fun c3 => checkBelow_passes page page.number parent range c3 fun child range c => by
        have same : maxDepth + 1 - left = maxDepth - left + 1 := by omega
        rw [← same]
        exact ih (Nat.le_of_succ_le deep) child (some page.number) range c
    split
    · exact .report_bind _ fun t => (after t).imp fun _ _ _ _ => trivial
    rename_i stocked
    refine (after _).imp ?_
    rintro depth u - ⟨n, rfl, below⟩ entry ⟨-, marked⟩
    refine ⟨n, rfl, fun d seen lower upper tracks of_ unbound => ?_⟩
    obtain ⟨tracks, claim⟩ := entry d _ (marked d seen tracks) List.mem_cons_self
    obtain ⟨showsS, loaded⟩ := Store.loadPage_parse tracks.shows load
    have cellsIn : parent ≠ none → page.cellCount ≠ 0 := by
      intro child none
      simp [none, Option.isSome_iff_ne_none, child] at stocked
    obtain ⟨h, node, rfl, limb⟩ := below d seen lower upper (tracks.withStore showsS) loaded
      (by cases parent <;> exact claim) cellsIn of_ unbound
    exact ⟨h, node, by omega, limb⟩

theorem checkRoot_passes (root : PageNo) (c : Check) : Passes (checkRoot root) c fun _ t =>
    ∀ d seen, Tracks d seen c → ∃ (tree : TreeKind) (h : Nat) (node : Node (Limb h)),
      LimbSeen d seen tree none root none none node t := by
  unfold checkRoot
  refine .full (.get ?_)
  split
  · exact .report_bind _ fun t => .pure fun _ => trivial
  refine .attempt (fun e s _ => .report _) fun page s load => ?_
  dsimp only
  refine (checkTree_passes page.kind.tree (Nat.le_refl maxDepth) root none {} _).bind fun depth t => .pure ?_
  rintro - ⟨n, -, limbs⟩ d seen tracks
  obtain ⟨showsS, -⟩ := Store.loadPage_parse tracks.shows load
  obtain ⟨h, node, -, limb⟩ := limbs d seen none none (tracks.withStore showsS) ⟨rfl, rfl, fun _ => nofun⟩ fun _ => rfl
  exact ⟨_, h, node, limb⟩

end Integrity

end TreeFile
