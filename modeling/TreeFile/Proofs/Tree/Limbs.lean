import TreeFile.Proofs.Tree.Rows

/-!
Limbs: a page of a tree with all that hangs below it, down to leaves that lie at one depth. A limb
stands on a disk if its pages and its overflow chains are there, and the pointer map knows of every
page below the first one.
-/

namespace TreeFile

open PointerMap Overflow

namespace Item

/-- What items may be above kids of height `h`. Those above the leaves of a table only divide. -/
structure Fits (tree : TreeKind) (h : Nat) (item : Item) : Prop where
  low : 1 ∉ item.chain
  divides : item.divider = true ↔ tree = .table ∧ h ≠ 0
  plain : item.divider = true → item.payload = .empty ∧ item.chain = []

theorem Fits.level {tree : TreeKind} {h k : Nat} {item : Item} (fits : item.Fits tree h)
    (same : tree = .index ∨ (h = 0 ↔ k = 0)) : item.Fits tree k := by
  refine ⟨fits.low, fits.divides.trans (and_congr_right fun isTable => ?_), fits.plain⟩
  rcases same with isIndex | same
  · rw [isIndex] at isTable
    cases isTable
  · exact not_congr same

def headClaim (page : Nat) (item : Item) : Claims :=
  (item.chain.head?.map fun head => (head, ⟨.overflowHead, page⟩)).toList

def links (item : Item) : Claims := (chainClaims ⟨.overflowNext, 0⟩ item.chain).drop 1

theorem headClaim_pages (page : Nat) (item : Item) :
    (item.headClaim page).pages = item.chain.take 1 := by
  unfold headClaim
  cases item.chain <;> rfl

theorem links_pages (item : Item) : item.links.pages = item.chain.drop 1 := by
  unfold links Claims.pages
  rw [List.map_drop]
  exact congrArg (List.drop 1) (chainClaims_pages _ item.chain)

end Item

namespace Row

variable {T α β : Type} {f f' : T → List α} {g g' : Item → List α} {row : Row T}

theorem gather_congr (kids : ∀ kid ∈ row.kids, f kid = f' kid)
    (items : ∀ item ∈ row.items, g item = g' item) : row.gather f g = row.gather f' g' := by
  obtain ⟨cells, last⟩ := row
  unfold gather read
  rw [kids last (List.mem_append_right _ (List.mem_singleton_self _))]
  congr 1
  refine List.flatMap_congr fun c member => ?_
  rw [kids c.1 (List.mem_append_left _ (List.mem_map_of_mem member)),
    items c.2 (List.mem_map_of_mem member)]

theorem map_gather (k : α → β) : (row.gather f g).map k =
    row.gather (fun kid => (f kid).map k) fun item => (g item).map k := by
  unfold gather read
  rw [List.map_append, List.map_flatMap]
  simp only [List.map_append]

theorem gather_split (f₁ f₂ : T → List α) (g₁ g₂ : Item → List α)
    (kids : ∀ kid ∈ row.kids, f kid = f₁ kid ++ f₂ kid)
    (items : ∀ item ∈ row.items, g item = g₁ item ++ g₂ item) :
    (row.gather f g).Perm (row.gather f₁ g₁ ++ row.gather f₂ g₂) := by
  rw [gather_congr kids items]
  clear kids items
  obtain ⟨cells, last⟩ := row
  unfold gather
  dsimp only
  classical
  induction cells with
  | nil => exact .refl _
  | cons c rest ih =>
    simp only [read_cons]
    grind

end Row

def Limb : Nat → Type
  | 0 => Unit
  | h + 1 => Node (Limb h)

namespace Limb

variable {α : Type}

def page? : (h : Nat) → Limb h → Option Nat
  | 0, _ => none
  | _ + 1, node => some (Node.page node)

def pages : (h : Nat) → Limb h → List Nat
  | 0, _ => []
  | h + 1, node => Node.page node :: (Node.row node).gather (pages h) Item.chain

def below (h : Nat) (limb : Limb h) : List Nat := (pages h limb).drop 1

/-- What is read off the rows of the leaves and off the items above them, from left to right. -/
def scan (leaf : Row (Limb 0) → List α) (item : Item → List α) : (h : Nat) → Limb h → List α
  | 0, _ => []
  | 1, node => leaf (Node.row node)
  | h + 2, node => (Node.row node).gather (scan leaf item (h + 1)) item

def items (h : Nat) (limb : Limb h) : List Item := scan Row.items (fun item => [item]) h limb

theorem pages_eq (h : Nat) (limb : Limb h) : pages h limb = (page? h limb).toList ++ below h limb := by
  cases h <;> rfl

theorem items_node {h : Nat} (node : Node (Limb h)) :
    items (h + 1) node = node.row.gather (items h) fun item => [item] := by
  cases h with
  | zero =>
    unfold items Row.gather Row.read Row.items
    change node.row.cells.map Prod.snd = (node.row.cells.flatMap fun c => [] ++ [c.2]) ++ []
    rw [List.append_nil]
    exact List.map_eq_flatMap
  | succ h => rfl

end Limb

def Limb.Full (lax : Bool) : (h : Nat) → Limb h → Prop
  | 0, _ => True
  | h + 1, node => (lax = true ∧ h = 0 ∨ (Node.row node).cells ≠ []) ∧
      ∀ kid ∈ (Node.row node).kids, Full lax h kid

def Limb.FullBelow (lax : Bool) : (h : Nat) → Limb h → Prop
  | 0, _ => True
  | h + 1, node => ∀ kid ∈ (Node.row node).kids, Full lax h kid

def Row.Full {h : Nat} (lax : Bool) (row : Row (Limb h)) : Prop := ∀ kid ∈ row.kids, Limb.Full lax h kid

theorem Limb.full_node {h : Nat} {lax : Bool} {node : Node (Limb h)} : Limb.Full lax (h + 1) node ↔
    (lax = true ∧ h = 0 ∨ node.row.cells ≠ []) ∧ node.row.Full lax := Iff.rfl

def PageKind.at (tree : TreeKind) (h : Nat) : PageKind := if h = 0 then .leaf tree else .interior tree

namespace PageKind

variable (tree : TreeKind) (h : Nat)

theorem tree_at : (PageKind.at tree h).tree = tree := by
  cases h <;> cases tree <;> rfl

theorem isLeaf_at : (PageKind.at tree h).isLeaf = decide (h = 0) := by
  cases h <;> cases tree <;> rfl

end PageKind

namespace Row

variable {h : Nat}

def slots (limits : PayloadLimits) (tree : TreeKind) (row : Row (Limb h)) : List Slot :=
  row.cells.map fun c => ⟨Limb.page? h c.1, c.2.stub limits tree⟩

def right (row : Row (Limb h)) : Option PageNo := Limb.page? h row.last

/-- What the pointer map says of the kids of a page and of the chains of its items. -/
def claims (page : Nat) (row : Row (Limb h)) : Claims :=
  row.gather (fun kid => ((Limb.page? h kid).map fun number => (number, ⟨.treeNode, page⟩)).toList)
    (Item.headClaim page)

def near (row : Row (Limb h)) : List Nat :=
  row.gather (fun kid => (Limb.page? h kid).toList) fun item => item.chain.take 1

def far (row : Row (Limb h)) : List Nat := row.gather (Limb.below h) fun item => item.chain.drop 1

def hanging (row : Row (Limb h)) : List Nat := row.gather (Limb.pages h) Item.chain

theorem claims_pages (page : Nat) (row : Row (Limb h)) : (row.claims page).pages = row.near := by
  unfold claims near Claims.pages
  rw [map_gather]
  refine gather_congr (fun kid _ => ?_) fun item _ => item.headClaim_pages page
  cases Limb.page? h kid <;> rfl

theorem hanging_perm (row : Row (Limb h)) : row.hanging.Perm (row.near ++ row.far) :=
  gather_split _ _ _ _ (fun kid _ => Limb.pages_eq h kid)
    fun item _ => (List.take_append_drop 1 item.chain).symm

theorem near_inside {row : Row (Limb h)} {pages rest : List Nat} :
    ∀ n ∈ pages ++ row.near, n ∈ pages ++ (row.hanging ++ rest) := by
  intro n member
  rcases List.mem_append.mp member with page | below
  · exact List.mem_append_left _ page
  · have hanging := row.hanging_perm.mem_iff.mpr (List.mem_append_left _ below)
    exact List.mem_append_right _ (List.mem_append_left _ hanging)

/-- The pages whose entries in the pointer map are renewed, and those whose entries stay. -/
theorem near_first (row : Row (Limb h)) (found left rest : List Nat) :
    (found ++ (left ++ (row.hanging ++ rest))).Perm ((found ++ row.near) ++ (left ++ (row.far ++ rest))) := by
  have split := row.hanging_perm
  grind

theorem pageClaims_perm (limits : PayloadLimits) (tree : TreeKind) (page : Nat) (row : Row (Limb h)) :
    (pageClaims page (row.slots limits tree) row.right).Perm (row.claims page) := by
  obtain ⟨cells, last⟩ := row
  unfold claims gather pageClaims slots right
  refine List.Perm.append_right _ ?_
  rw [List.flatMap_map]
  refine List.Perm.flatMap_left _ fun c _ => ?_
  exact List.perm_append_comm

end Row

namespace Disk

variable {d e : Disk} {tree : TreeKind} {h : Nat} {P E : Nat → Prop}

theorem mapped_chain {item : Item} {owner : Nat} (all : d.Mapped (chainClaims ⟨.overflowHead, owner⟩ item.chain)) :
    d.Mapped item.links ∧ d.Mapped (item.headClaim owner) := by
  unfold Item.links Item.headClaim
  generalize item.chain = pages at all
  cases pages with
  | nil => exact ⟨fun _ => nofun, fun _ => nofun⟩
  | cons page rest =>
    refine ⟨fun mapped claim member => all mapped claim (List.mem_cons_of_mem _ member), fun mapped claim member => ?_⟩
    exact all mapped claim (List.mem_cons.mpr (.inl (List.mem_singleton.mp member)))

structure Carries (d : Disk) (tree : TreeKind) (h : Nat) (item : Item) : Prop where
  fits : item.Fits tree h
  chain : d.ItemAt tree item
  links : d.Mapped item.links

def LimbAt (d : Disk) (tree : TreeKind) : (h : Nat) → Limb h → Prop
  | 0, _ => True
  | h + 1, node =>
    d.PageAt (Node.page node) (.at tree h) ((Node.row node).slots d.limits tree) (Node.row node).right ∧
      d.Mapped ((Node.row node).claims (Node.page node)) ∧
      (∀ item ∈ (Node.row node).items, d.Carries tree h item) ∧
      ∀ kid ∈ (Node.row node).kids, d.LimbAt tree h kid

structure Hangs (d : Disk) (tree : TreeKind) (row : Row (Limb h)) : Prop where
  items : ∀ item ∈ row.items, d.Carries tree h item
  kids : ∀ kid ∈ row.kids, d.LimbAt tree h kid

structure NodeAt (d : Disk) (tree : TreeKind) (node : Node (Limb h)) : Prop where
  page : d.PageAt node.page (.at tree h) (node.row.slots d.limits tree) node.row.right
  claims : d.Mapped (node.row.claims node.page)

theorem limbAt_node (node : Node (Limb h)) :
    d.LimbAt tree (h + 1) node ↔ d.NodeAt tree node ∧ d.Hangs tree node.row :=
  ⟨fun ⟨page, claims, items, kids⟩ => ⟨⟨page, claims⟩, ⟨items, kids⟩⟩,
    fun ⟨⟨page, claims⟩, ⟨items, kids⟩⟩ => ⟨page, claims, items, kids⟩⟩

def Spared (d e : Disk) (P : Nat → Prop) (pages : List Nat) : Prop :=
  ∀ n ∈ pages, d.isReserved n = false ∧ e.Has n ∧ ¬ P n

theorem Spared.mono {pages some_ : List Nat} (spared : Spared d e P pages)
    (subset : ∀ n ∈ some_, n ∈ pages) : Spared d e P some_ :=
  fun n inside => spared n (subset n inside)

theorem spared_of_books {pages owned more : List Nat} (books : d.Books owned) (booksE : e.Books more)
    (inside : ∀ n ∈ pages, n ∈ owned ∧ n ∈ more) (away : ∀ n ∈ pages, ¬ P n) : Spared d e P pages :=
  fun n member => ⟨(books.has (inside n member).1).2, (booksE.has (inside n member).2).1, away n member⟩

/-- The content of some pages and the entries of others are the same on two disks. -/
structure Agree (d e : Disk) (pages entries : List Nat) : Prop where
  alike : Alike d e
  images : ∀ n ∈ pages, e.Has n ∧ SameImage d e n
  entries : ∀ n ∈ entries, e.entry n = d.entry n

section Agree

variable {pages others entries more : List Nat}

theorem Agree.mono (agree : Agree d e pages entries) (fewer : ∀ n ∈ others, n ∈ pages)
    (less : ∀ n ∈ more, n ∈ entries) : Agree d e others more :=
  ⟨agree.alike, fun n inside => agree.images n (fewer n inside), fun n inside => agree.entries n (less n inside)⟩

theorem Keeps.agree (keeps : Keeps d e P E) (spared : Spared d e P pages)
    (free : ∀ n ∈ entries, d.isReserved n = false ∧ ¬ E n) : Agree d e pages entries :=
  ⟨keeps.alike, fun n inside => ⟨(spared n inside).2.1, keeps.images n (spared n inside).1 (spared n inside).2.2⟩,
    fun n inside => keeps.entries n (free n inside).1 (free n inside).2⟩

variable (sound : d.Sound) (soundE : e.Sound)

include sound soundE

theorem Carries.agree {item : Item} (carries : d.Carries tree h item)
    (agree : Agree d e item.chain (item.chain.drop 1)) : e.Carries tree h item := by
  refine ⟨carries.fits, ItemAt.congr carries.chain agree.alike fun n inside => ?_, carries.links.congr agree.alike ?_⟩
  · have other : n ≠ 1 := fun same => carries.fits.low (same ▸ inside)
    exact (agree.images n inside).2.image sound soundE agree.alike other
  · rw [item.links_pages]
    exact agree.entries

theorem NodeAt.agree {node : Node (Limb h)} (at_ : d.NodeAt tree node)
    (agree : Agree d e [node.page] node.row.near) : e.NodeAt tree node := by
  obtain ⟨has, same⟩ := agree.images node.page (List.mem_singleton_self _)
  refine ⟨?_, at_.claims.congr agree.alike ?_⟩
  · rw [agree.alike.limits]
    exact at_.page.of_same agree.alike sound soundE has same
  · rw [node.row.claims_pages]
    exact agree.entries

theorem Hangs.agree_of {row : Row (Limb h)} (hangs : d.Hangs tree row) (agree : Agree d e row.hanging row.far)
    (kids : ∀ kid ∈ row.kids, d.LimbAt tree h kid → Agree d e (Limb.pages h kid) (Limb.below h kid) →
      e.LimbAt tree h kid) : e.Hangs tree row := by
  refine ⟨fun item member => ?_, fun kid member => kids kid member (hangs.kids kid member) ?_⟩
  · refine (hangs.items item member).agree sound soundE (agree.mono (fun n inside => ?_) fun n inside => ?_)
    · exact Row.mem_gather.mpr (.inr ⟨item, member, inside⟩)
    · exact Row.mem_gather.mpr (.inr ⟨item, member, inside⟩)
  · refine agree.mono (fun n inside => ?_) fun n inside => ?_
    · exact Row.mem_gather.mpr (.inl ⟨kid, member, inside⟩)
    · exact Row.mem_gather.mpr (.inl ⟨kid, member, inside⟩)

theorem LimbAt.agree {limb : Limb h} (at_ : d.LimbAt tree h limb)
    (agree : Agree d e (Limb.pages h limb) (Limb.below h limb)) : e.LimbAt tree h limb := by
  induction h with
  | zero => trivial
  | succ h ih =>
    let node : Node (Limb h) := limb
    obtain ⟨nodeAt, hangs⟩ := (limbAt_node node).mp at_
    have perm := node.row.hanging_perm
    refine (limbAt_node node).mpr ⟨nodeAt.agree sound soundE (agree.mono (fun n inside => ?_) fun n near => ?_),
      hangs.agree_of sound soundE (agree.mono (fun n inside => ?_) fun n far => ?_) fun kid _ => ih⟩
    · exact List.mem_cons.mpr (.inl (List.mem_singleton.mp inside))
    · exact perm.mem_iff.mpr (List.mem_append_left _ near)
    · exact List.mem_cons_of_mem _ inside
    · exact perm.mem_iff.mpr (List.mem_append_right _ far)

end Agree

section Keep

variable (keeps : Keeps d e P E) (sound : d.Sound) (soundE : e.Sound)

include keeps sound soundE

theorem Carries.keep {item : Item} (carries : d.Carries tree h item) (spared : Spared d e P item.chain)
    (entries : ∀ n ∈ item.chain.drop 1, ¬ E n) : e.Carries tree h item :=
  carries.agree sound soundE (keeps.agree spared fun n inside =>
    ⟨(spared n (List.mem_of_mem_drop inside)).1, entries n inside⟩)

theorem NodeAt.keep {node : Node (Limb h)} (at_ : d.NodeAt tree node) (spared : Spared d e P [node.page])
    (near : ∀ n ∈ node.row.near, d.isReserved n = false ∧ ¬ E n) : e.NodeAt tree node :=
  at_.agree sound soundE (keeps.agree spared near)

theorem LimbAt.keep {limb : Limb h} (at_ : d.LimbAt tree h limb) (spared : Spared d e P (Limb.pages h limb))
    (entries : ∀ n ∈ Limb.below h limb, ¬ E n) : e.LimbAt tree h limb :=
  at_.agree sound soundE (keeps.agree spared fun n inside =>
    ⟨(spared n (List.mem_of_mem_drop inside)).1, entries n inside⟩)

theorem Hangs.keep {row : Row (Limb h)} (hangs : d.Hangs tree row) (spared : Spared d e P row.hanging)
    (entries : ∀ n ∈ row.far, ¬ E n) : e.Hangs tree row := by
  refine hangs.agree_of sound soundE (keeps.agree spared fun n far => ⟨(spared n ?_).1, entries n far⟩)
    fun kid _ at_ agree => at_.agree sound soundE agree
  exact row.hanging_perm.mem_iff.mpr (List.mem_append_right _ far)

end Keep

end Disk

end TreeFile
