import TreeFile.Cursor.Edit
import TreeFile.Proofs.Balance.Climbing
import TreeFile.Proofs.Cursor.Seeking
import TreeFile.Proofs.Tree.Entries

/-!
The node that a walk has come to, with other items, and the tree balanced around it. What is not below the node
stays, and the items of the tree are those left of the node, its own and those right of it.
-/

namespace TreeFile

open Store Disk PointerMap

variable {s u : Store} {d e : Disk} {tree : TreeKind} {H h : Nat} {root : Node (Limb H)} {node : Node (Limb h)}
  {frames : List Frame} {left right : List Item} {owned others : List Nat}

theorem Row.setKid_kid {T : Type} (row : Row T) (i : Nat) : row.setKid i (row.kid i) = row := by
  unfold Row.setKid Row.kid
  rw [Row.setHead_head, Row.prepend_drop]

theorem Disk.LimbAt.level {node : Node (Limb (h + 1))} {f : Frame} (limb : d.LimbAt tree (h + 2) node)
    (mirrors : f.page.Mirrors d tree node) (clear : f.page.parked = []) (inside : f.index ≤ node.row.cells.length) :
    d.Level tree (Node.page (node.row.kid f.index)) f node.page node.row := by
  obtain ⟨nodeAt, hangs⟩ := (limbAt_node node).mp limb
  exact ⟨mirrors, clear, inside, rfl, nodeAt, hangs.items, fun i _ _ => hangs.kids _ (node.row.kid_mem i)⟩

theorem Disk.Stands.inner {number page index : Nat} {row : Row (Node (Limb h))} {above : Spine (h + 1) H} {f : Frame}
    (stands : d.Stands tree number (.under page row index above) (f :: frames)) :
    d.Level tree number f page row ∧ d.Stands tree page above frames := by
  cases stands with
  | under level rest => exact ⟨level, rest⟩

/-- The frames of a trail are a tree with a hole, which its last node fills. -/
theorem Disk.Trail.spine (trail : d.Trail tree root node frames left right) (limb : d.LimbAt tree (H + 1) root) :
    ∃ spine : Spine h H, d.Stands tree node.page spine frames ∧ spine.plug node = root ∧
      spine.before Row.items (fun item => [item]) = left ∧ spine.after Row.items (fun item => [item]) = right := by
  induction trail with
  | root => exact ⟨.root, .root, rfl, rfl, rfl⟩
  | @down h node f frames left right trail mirrors clear inside ih =>
    obtain ⟨above, stands, plugged, before, after⟩ := ih
    have level := (trail.limb limb).level mirrors clear inside
    refine ⟨.under node.page node.row f.index above, .under level stands, ?_, ?_, ?_⟩
    · change above.plug ⟨node.page, node.row.setKid f.index (node.row.kid f.index)⟩ = root
      rw [Row.setKid_kid]
      exact plugged
    · rw [← before]
      rfl
    · rw [← after]
      rfl

/-- The row of a node changes: each of its items stands already or is one of the old row, and so is each kid. -/
theorem Disk.Hangs.edited {row : Row (Limb h)} {number : Nat} (row' : Row (Limb h)) (hangs : d.Hangs tree row)
    (claims : d.Mapped (row.claims number)) (sound : d.Sound) (soundE : e.Sound)
    (keeps : Keeps d e (Freelist.Others owned) (Freelist.Others owned))
    (spared : Spared d e (Freelist.Others owned) owned)
    (kids : ∀ kid ∈ row'.kids, kid ∈ row.kids ∧ ∀ n ∈ Limb.pages h kid, n ∈ owned)
    (items : ∀ item ∈ row'.items, e.Carries tree h item ∧ e.Mapped (item.headClaim number) ∨
      item ∈ row.items ∧ ∀ n ∈ item.chain, n ∈ owned) :
    e.Hangs tree row' ∧ e.Mapped (row'.claims number) := by
  have away : ∀ n ∈ owned, ¬ Freelist.Others owned n := fun n inside other => other inside
  have apart : ∀ n ∈ owned, d.isReserved n = false ∧ ¬ Freelist.Others owned n := fun n inside =>
    ⟨(spared n inside).1, away n inside⟩
  refine ⟨⟨fun item member => ?_, fun kid member => ?_⟩, fun mapped c member => ?_⟩
  · rcases items item member with ⟨carries, -⟩ | ⟨old, inside⟩
    · exact carries
    · exact (hangs.items item old).keep keeps sound soundE (spared.mono inside) fun n link =>
        away n (inside n (List.mem_of_mem_drop link))
  · obtain ⟨old, inside⟩ := kids kid member
    exact (hangs.kids kid old).keep keeps sound soundE (spared.mono inside) fun n below =>
      away n (inside n (List.mem_of_mem_drop below))
  · rcases Row.mem_gather.mp member with ⟨kid, among, own⟩ | ⟨item, among, own⟩
    · obtain ⟨old, inside⟩ := kids kid among
      have claim : d.Mapped [c] := fun mapped other same => by
        rw [List.mem_singleton.mp same]
        exact claims mapped c (Row.mem_gather.mpr (.inl ⟨kid, old, own⟩))
      refine claim.keep keeps (fun n same => ?_) mapped c (List.mem_singleton_self c)
      rw [show n = c.1 from List.mem_singleton.mp same]
      obtain ⟨number, isPage, rfl⟩ := Option.map_eq_some_iff.mp (Option.mem_toList.mp own)
      refine apart _ (inside _ ?_)
      rw [Limb.pages_eq, isPage]
      exact List.mem_cons_self
    · rcases items item among with ⟨-, head⟩ | ⟨old, inside⟩
      · exact head mapped c own
      · have claim : d.Mapped (item.headClaim number) := fun mapped other own =>
          claims mapped other (Row.mem_gather.mpr (.inr ⟨item, old, own⟩))
        refine claim.keep keeps (fun n link => apart n (inside n ?_)) mapped c own
        rw [item.headClaim_pages] at link
        exact List.mem_of_mem_take link

theorem Page.Mirrors.leftChild {p : Page} {i : Nat} {info : CellInfo} (mirrors : p.Mirrors d tree node)
    (clear : p.parked = []) (inside : i < node.row.cells.length) (found : p.cellInfo i = .ok info) :
    info.leftChild = Limb.page? h (node.row.kid i) := by
  have long : i < (node.row.slots d.limits tree).length := by
    rw [Page.Mirrors.length_slots]
    exact inside
  obtain ⟨info', again, isLeft, -⟩ := mirrors.bears.info clear long
  cases found.symm.trans again
  rw [isLeft, Row.slots_get]

/-- The chain of an item is freed. What hangs beside the item stays. -/
theorem freeEntry_ok {row : Row (Limb h)} {p : Page} {number i : Nat} {info : CellInfo} {rest : List Nat}
    (shows_ : s.Shows d) (mirrors : p.Mirrors d tree (⟨number, row⟩ : Node (Limb h))) (clear : p.parked = [])
    (carries : d.Carries tree h (row.item i)) (inside : i < row.cells.length) (books : d.Books (row.hanging ++ rest))
    (one : 1 ∈ rest) (found : p.cellInfo i = .ok info) (freed : Overflow.freeOf info s = .ok () u) :
    ∃ e, u.Shows e ∧ Keeps d e (Freelist.Others (row.besides i ++ rest)) (Freelist.Others (row.besides i ++ rest)) ∧
      e.Books (row.besides i ++ rest) := by
  have limits : p.limits = d.limits := mirrors.is.limits
  have long : i < (row.slots d.limits tree).length := by
    rw [Page.Mirrors.length_slots]
    exact inside
  have stub : (row.slots d.limits tree)[i].stub = (row.item i).stub p.limits tree := by
    rw [Row.slots_get, limits]
    rfl
  obtain ⟨info', again, tells, -⟩ := Overflow.tells_of_bears mirrors.bears clear
    (limits ▸ shows_.disk_sound.fair) long stub
  cases found.symm.trans again
  rw [limits] at tells
  have all := books.perm (((Row.hanging_besides inside).append_right rest).trans (.of_eq (List.append_assoc _ _ _)))
  obtain ⟨e, v, free, showsV, -, keeps, booksE, -⟩ := Overflow.freeOf_run shows_ tells carries.chain all
    (List.mem_append_right _ one)
  cases freed.symm.trans free
  exact ⟨e, showsV, keeps, booksE⟩

theorem Spine.one_mem {spine : Spine h H} {number : Nat} (one : 1 ∈ spine.top number :: others) :
    1 ∈ number :: (spine.pages ++ others) := by
  rcases List.mem_cons.mp one with top | other
  · exact List.mem_append_left others (top ▸ spine.top_mem number : 1 ∈ number :: spine.pages)
  · exact List.mem_cons_of_mem _ (List.mem_append_right _ other)

/-- The pages of a tree are those that hang below one of its nodes, and those around it. -/
theorem Spine.pages_split (spine : Spine h H) (node : Node (Limb h)) (others : List Nat) : (Limb.pages (H + 1) (spine.plug node) ++ others).Perm
    (node.row.hanging ++ node.page :: (spine.pages ++ others)) := by
  refine ((spine.pages_plug node).append_right others).trans ?_
  have own : Limb.pages (h + 1) node = node.page :: node.row.hanging := rfl
  rw [own]
  grind

/-- A tree in the place of another: on the same root page, without a page of any other tree. -/
structure Replaced (d e : Disk) (tree : TreeKind) (others : List Nat) (root : Node (Limb h)) (grown : Node (Limb H)) :
    Prop where
  page : grown.page = root.page
  limb : e.LimbAt tree (H + 1) grown
  books : e.Books (Limb.pages (H + 1) grown ++ others)
  frame : Keeps d e (Freelist.Others others) (Freelist.Others others)

theorem Replaced.trans {f : Disk} {K : Nat} {first : Node (Limb h)} {second : Node (Limb H)} {third : Node (Limb K)}
    (one : Replaced d e tree others first second) (other : Replaced e f tree others second third) :
    Replaced d f tree others first third :=
  ⟨other.page.trans one.page, other.limb, other.books, one.frame.trans other.frame⟩

theorem Replaced.after {f : Disk} {spine : Spine h H} {node' : Node (Limb h)} {K : Nat} {grown : Node (Limb K)}
    (replaced : Replaced e f tree others (spine.plug node') grown) (same : node'.page = node.page)
    (keeps : Keeps d e (Freelist.Others owned) (Freelist.Others owned)) (inside : ∀ n ∈ others, n ∈ owned) :
    Replaced d f tree others (spine.plug node) grown := by
  refine ⟨?_, replaced.limb, replaced.books, (keeps.mono ?_ ?_).trans replaced.frame⟩
  · rw [replaced.page, spine.page_plug, spine.page_plug, same]
  all_goals exact fun n away own => away (inside n own)

/-- A tree that took the place of another one, with its items in order and its entries changed. -/
structure Changed (d e : Disk) (t : TreeRef) (others : List Nat) (root : Node (Limb h)) (grown : Node (Limb H))
    (change : List Entry → List Entry) : Prop where
  replaced : Replaced d e t.kind others root grown
  sorted : Sorted t.kind t.order (Limb.items (H + 1) grown)
  entries : Item.entries t.kind (Limb.items (H + 1) grown) = change (Item.entries t.kind (Limb.items (h + 1) root))

/-- Balancing after the node at the end of a trail was changed in memory. -/
theorem balance_trail {spine : Spine h H} {node' : Node (Limb h)} {q : Page} {index : Nat} {afterDelete : Bool}
    (shows_ : s.Shows e) (pending : Pending e tree q node') (stands : e.Stands tree node'.page spine frames)
    (books : e.Books (Limb.pages (h + 1) node' ++ (spine.pages ++ others))) (one : 1 ∈ spine.top node'.page :: others)
    (run : balance (⟨q, index⟩ :: frames) afterDelete s = .ok () u) :
    ∃ (K : Nat) (grown : Node (Limb K)) (f : Disk), u.Shows f ∧ s.Steady u ∧
      Replaced e f tree others (spine.plug node') grown ∧
      Regrouped tree (spine.before Row.items (fun item => [item]) ++
        (Limb.items (h + 1) node' ++ spine.after Row.items fun item => [item])) (Limb.items (K + 1) grown) := by
  have all : e.Books (Limb.pages (H + 1) (spine.plug node') ++ others) :=
    books.perm (((spine.pages_plug node').append_right others).trans (.of_eq (List.append_assoc _ _ _))).symm
  obtain ⟨K, grown, f, showsU, steady, rebuilt, -⟩ := balance_ok shows_ (show Pending e tree (Frame.page ⟨q, index⟩) node' from pending) stands all one run
  refine ⟨K, grown, f, showsU, steady, ⟨rebuilt.reshaped.page, rebuilt.stands, rebuilt.books,
    rebuilt.frame⟩, ?_⟩
  have items := rebuilt.reshaped.items
  rw [show Limb.items (H + 1) (spine.plug node') = _ from spine.scan_plug Row.items (fun item => [item]) node'] at items
  exact items

/-- A place for an item in a row: what the row is with an item there, and what hangs below it besides that item.
The page that goes with the row has the other slots. -/
structure Row.Vacancy {h : Nat} (limits : PayloadLimits) (tree : TreeKind) (row : Row (Limb h)) (slots : List Slot)
    (left : Option PageNo) (i : Nat) (rest : List Nat) (fill : Item → Row (Limb h)) : Prop where
  slots : ∀ item, (fill item).slots limits tree = slots.insertIdx i ⟨left, item.stub limits tree⟩
  right : ∀ item, (fill item).right = row.right
  kids : ∀ item, ∀ kid ∈ (fill item).kids, kid ∈ row.kids ∧ ∀ n ∈ Limb.pages h kid, n ∈ rest
  items : ∀ item, ∀ other ∈ (fill item).items, other = item ∨ other ∈ row.items ∧ ∀ n ∈ other.chain, n ∈ rest
  hanging : ∀ item, (fill item).hanging.Perm (item.chain ++ rest)

theorem Row.vacancy_gap (limits : PayloadLimits) (tree : TreeKind) (row : Row (Limb 0)) {i : Nat}
    (low : i ≤ row.cells.length) :
    row.Vacancy limits tree (row.slots limits tree) none i row.hanging (row.insertItem i) where
  slots := fun _ => row.slots_insertItem limits tree
  right := fun _ => rfl
  kids := fun _ _ _ => ⟨List.mem_append_right _ (List.mem_singleton_self _), fun _ => nofun⟩
  items := fun item other member => by
    rw [items_insertItem, List.mem_insertIdx (row.length_items.symm ▸ low)] at member
    refine member.imp id fun old => ⟨old, fun n inside => ?_⟩
    exact Row.mem_gather.mpr (.inr ⟨other, old, inside⟩)
  hanging := fun _ => hanging_insertItem low

theorem Row.vacancy_instead {h : Nat} (limits : PayloadLimits) (tree : TreeKind) (row : Row (Limb h)) {i : Nat}
    (inside : i < row.cells.length) :
    row.Vacancy limits tree ((row.slots limits tree).eraseIdx i) (Limb.page? h (row.kid i)) i (row.besides i)
      (row.setItem i) where
  slots := fun _ => by
    rw [slots_setItem, List.insertIdx_eraseIdx_self]
    rw [Page.Mirrors.length_slots]
    exact Nat.ne_of_lt inside
  right := fun _ => rfl
  kids := fun item kid member => by
    rw [kids_setItem inside] at member
    exact ⟨member, kid_besides member⟩
  items := fun item other member => by
    rw [items_setItem] at member
    have split := (List.set_perm_cons_eraseIdx (row.length_items.symm ▸ inside) item).mem_iff.mp member
    exact (List.mem_cons.mp split).imp id fun old => ⟨List.mem_of_mem_eraseIdx old, item_besides old⟩
  hanging := fun _ => hanging_setItem inside

/-- A cell goes to its place on a page in memory, and the tree is balanced. The item of the cell is on the disk already. -/
theorem regrow_ok {spine : Spine h H} {fill : Item → Row (Limb h)} {rest : List Nat} {slots : List Slot}
    {leftChild : Option PageNo} {i : Nat} {p q : Page} {cell : Bytes} {item : Item} (soundD : d.Sound)
    (shows_ : s.Shows e) (hangs : d.Hangs tree node.row) (claims : d.Mapped (node.row.claims node.page))
    (stands : d.Stands tree node.page spine frames)
    (vacancy : node.row.Vacancy d.limits tree slots leftChild i rest fill)
    (keeps : Keeps d e (Freelist.Others (rest ++ node.page :: (spine.pages ++ others)))
      (Freelist.Others (rest ++ node.page :: (spine.pages ++ others))))
    (books : e.Books (item.chain ++ (rest ++ node.page :: (spine.pages ++ others))))
    (one : 1 ∈ spine.top node.page :: others) (is : p.Of d node.page (.at tree h)) (bears : p.Bears slots node.row.right)
    (clear : p.parked = []) (holds : Cell.Holds d.limits (.at tree h) cell ⟨leftChild, item.stub d.limits tree⟩)
    (carries : e.Carries tree h item) (head : e.Mapped (item.headClaim node.page))
    (placed : Action.applied (Page.insert i cell) p = .ok q) (run : balance (⟨q, i⟩ :: frames) false s = .ok () u) :
    ∃ (K : Nat) (grown : Node (Limb K)) (f : Disk), u.Shows f ∧ Replaced d f tree others (spine.plug node) grown ∧
      Regrouped tree (spine.before Row.items (fun item => [item]) ++
        (Limb.items (h + 1) (⟨node.page, fill item⟩ : Node (Limb h)) ++ spine.after Row.items fun item => [item]))
        (Limb.items (K + 1) grown) := by
  obtain ⟨owned, isOwned⟩ : ∃ owned, owned = rest ++ node.page :: (spine.pages ++ others) := ⟨_, rfl⟩
  rw [← isOwned] at keeps books
  have isNode : node.page ∈ owned := isOwned ▸ List.mem_append_right _ List.mem_cons_self
  have soundE := shows_.disk_sound
  rw [← is.limits, ← is.kind] at holds
  have inserted := Action.applied_ok.mp placed
  obtain ⟨-, bearsQ, alikeQ, kindQ⟩ := Page.insert_bears bears holds inserted
  have full := Page.insert_overfull bears holds (fun parked => absurd clear parked) inserted
  rw [is.limits, ← vacancy.slots, ← vacancy.right item] at bearsQ
  have spared : Spared d e (Freelist.Others owned) owned := fun n inside => by
    obtain ⟨has, free⟩ := books.has (List.mem_append_right item.chain inside)
    exact ⟨(keeps.alike.isReserved n).symm.trans free, has, fun other => other inside⟩
  have inRest : ∀ n ∈ rest, n ∈ owned := fun n inside => isOwned ▸ List.mem_append_left _ inside
  obtain ⟨hangsE, claimsE⟩ := hangs.edited (fill item) claims soundD soundE keeps spared
    (fun kid member => (vacancy.kids item kid member).imp id fun inside n below => inRest n (inside n below))
    fun other member => (vacancy.items item other member).imp (fun same => by rw [same]; exact ⟨carries, head⟩)
      fun old => old.imp id fun inside n link => inRest n (inside n link)
  have pending : Pending e tree q (⟨node.page, fill item⟩ : Node (Limb h)) := by
    refine ⟨⟨(alikeQ.of is kindQ).alike keeps.alike, ?_⟩, full, hangsE, claimsE⟩
    rw [keeps.alike.limits]
    exact bearsQ
  have inSpine : ∀ n ∈ spine.pages, n ∈ owned := fun n inside =>
    isOwned ▸ List.mem_append_right _ (List.mem_cons_of_mem _ (List.mem_append_left _ inside))
  have standsE : e.Stands tree node.page spine frames :=
    stands.keep keeps soundD soundE (spared.mono inSpine) (fun n inside other => other (inSpine n inside))
      ⟨(spared _ isNode).1, fun other => other isNode⟩
  have booksE : e.Books (Limb.pages (h + 1) (⟨node.page, fill item⟩ : Node (Limb h)) ++ (spine.pages ++ others)) := by
    refine books.perm ?_
    have hanging := vacancy.hanging item
    have own : Limb.pages (h + 1) (⟨node.page, fill item⟩ : Node (Limb h)) = node.page :: (fill item).hanging := rfl
    rw [isOwned, own]
    grind
  obtain ⟨K, grown, g, showsU, -, replaced, items⟩ := balance_trail shows_ pending standsE booksE one run
  exact ⟨K, grown, g, showsU, replaced.after rfl keeps fun n inside =>
    isOwned ▸ List.mem_append_right _ (List.mem_cons_of_mem _ (List.mem_append_right _ inside)), items⟩

theorem Walk.startAt_ok {α : Type} {path path' : Path} {act : WalkM α} {a : α}
    (run : startAt path act s = .ok (a, path') u) : act ⟨path, s⟩ = .ok a ⟨path', u⟩ := by
  unfold startAt at run
  split at run
  · rename_i b w act_
    cases run
    exact act_
  · cases run

namespace Disk

variable {leaf : Node (Limb 0)} {i : Nat}

theorem leftOf_leaf (leaf : Node (Limb 0)) (i : Nat) : leftOf leaf i = leaf.row.items.take i := by
  unfold leftOf Row.read Row.items
  rw [← List.map_take, List.map_eq_flatMap]
  rfl

theorem rightOf_leaf (leaf : Node (Limb 0)) (i : Nat) : rightOf leaf i = leaf.row.items.drop i := by
  have all := items_kid leaf i
  rw [leftOf_leaf, items_below, List.nil_append] at all
  have split : leaf.row.items.take i ++ leaf.row.items.drop i = leaf.row.items := List.take_append_drop i _
  exact (List.append_cancel_left (split.trans all)).symm

theorem items_exchanged (node : Node (Limb h)) {i : Nat} (inside : i < node.row.cells.length) {item : Item} :
    left ++ (Limb.items (h + 1) (⟨node.page, node.row.setItem i item⟩ : Node (Limb h)) ++ right) =
      left ++ (leftOf node i ++ Limb.items h (node.row.kid i)) ++ item :: (tailOf node (i + 1) ++ right) := by
  have own : Limb.items (h + 1) (⟨node.page, node.row.setItem i item⟩ : Node (Limb h)) =
      leftOf node i ++ (Limb.items h (node.row.kid i) ++ ([item] ++ tailOf node (i + 1))) :=
    (Limb.items_node _).trans (Row.gather_setItem _ _ inside)
  rw [own]
  simp only [List.append_assoc, List.cons_append, List.nil_append]

theorem items_filled (low : i ≤ leaf.row.cells.length) {item : Item} :
    left ++ (Limb.items (0 + 1) (⟨leaf.page, leaf.row.insertItem i item⟩ : Node (Limb 0)) ++ right) =
      left ++ leftOf leaf i ++ item :: (rightOf leaf i ++ right) := by
  have own : Limb.items (0 + 1) (⟨leaf.page, leaf.row.insertItem i item⟩ : Node (Limb 0)) =
      (leaf.row.insertItem i item).items := rfl
  rw [own, Row.items_insertItem, insertIdx_split item (leaf.row.length_items.symm ▸ low), leftOf_leaf, rightOf_leaf]
  simp only [List.append_assoc, List.cons_append]

end Disk

end TreeFile
