import TreeFile.Proofs.Cursor.Edits

/-!
Deleting. A delete that succeeds takes away the entry the cursor is at and no other. On an interior page of an index
the entry before it comes in its place.
-/

namespace TreeFile

open Store Disk PointerMap

namespace TreeRef

variable {t : TreeRef} {key : Key} {a same b : List Entry}

def remove (t : TreeRef) (key : Key) (list : List Entry) : List Entry :=
  list.filter fun e => t.compareKeys e.key key ≠ .eq

theorem remove_parts (less : ∀ e ∈ a, t.compareKeys e.key key = .lt) (equal : ∀ e ∈ same, t.compareKeys e.key key = .eq)
    (more : ∀ e ∈ b, t.compareKeys e.key key = .gt) : t.remove key (a ++ (same ++ b)) = a ++ b := by
  unfold remove
  simp only [List.filter_append]
  rw [List.filter_eq_self.mpr fun e inside => by simp [less e inside],
    List.filter_eq_nil_iff.mpr fun e inside => by simp [equal e inside],
    List.filter_eq_self.mpr fun e inside => by simp [more e inside], List.nil_append]

end TreeRef

variable {t : TreeRef} {key : Key} {old : Item} {a b : List Item}

theorem Item.entries_remove (less : ∀ x ∈ a, x.divider = false → t.side key x = .lt)
    (equal : t.side key old = .eq) (more : ∀ x ∈ b, x.divider = false → t.side key x = .gt) :
    Item.entries t.kind (a ++ b) = t.remove key (Item.entries t.kind (a ++ old :: b)) := by
  have sides {items : List Item} {o : Ordering} (all : ∀ x ∈ items, x.divider = false → t.side key x = o) :
      ∀ e ∈ Item.entries t.kind items, t.compareKeys e.key key = o := by
    intro e inside
    obtain ⟨x, member, isEntry, rfl⟩ := Item.mem_entries.mp inside
    exact all x member isEntry
  have first : Item.entries t.kind (old :: b) = Item.entries t.kind [old] ++ Item.entries t.kind b :=
    Item.entries_append t.kind [old] b
  rw [Item.entries_append, Item.entries_append, first]
  exact (TreeRef.remove_parts (sides less) (sides fun x member _ => List.mem_singleton.mp member ▸ equal)
    (sides more)).symm

theorem Sorted.without {tree : TreeKind} {order : KeyOrder} (sorted : Sorted tree order (a ++ old :: b)) :
    Sorted tree order (a ++ b) :=
  sorted.sublist ((List.sublist_cons_self old b).append_left a)

variable {s u : Store} {d e : Disk} {H h : Nat} {root : Node (Limb H)} {frames : List Frame} {left right : List Item}
  {owned others : List Nat}

namespace Disk

variable {leaf : Node (Limb 0)} {i : Nat}

theorem items_erased (inside : i < leaf.row.cells.length) : Limb.items (0 + 1) leaf =
      leftOf leaf i ++ leaf.row.item i :: tailOf leaf (i + 1) ∧
    Limb.items (0 + 1) (⟨leaf.page, leaf.row.eraseItem i⟩ : Node (Limb 0)) = leftOf leaf i ++ tailOf leaf (i + 1) := by
  have all := items_cell leaf inside
  rw [items_below, List.nil_append] at all
  refine ⟨all, ?_⟩
  have own : Limb.items (0 + 1) (⟨leaf.page, leaf.row.eraseItem i⟩ : Node (Limb 0)) = (leaf.row.eraseItem i).items := rfl
  rw [own, Row.items_eraseItem, List.eraseIdx_eq_take_drop_succ, tailOf_eq, items_below, leftOf_leaf, rightOf_leaf]
  rfl

end Disk

/-- A leaf in memory without one of its cells. -/
theorem erased_pending {tree : TreeKind} {leaf : Node (Limb 0)} {p q : Page} {i : Nat} (mirrors : p.Mirrors d tree leaf)
    (clear : p.parked = []) (limb : d.LimbAt tree (0 + 1) leaf) (soundD : d.Sound) (soundE : e.Sound)
    (keeps : Keeps d e (Freelist.Others owned) (Freelist.Others owned))
    (spared : Spared d e (Freelist.Others owned) owned) (inside : ∀ n ∈ leaf.row.besides i, n ∈ owned)
    (dropped : Action.applied (Page.drop i) p = .ok q) :
    Pending e tree q (⟨leaf.page, leaf.row.eraseItem i⟩ : Node (Limb 0)) := by
  obtain ⟨nodeAt, hangs⟩ := (limbAt_node leaf).mp limb
  obtain ⟨-, bears, alike, kind, clearQ⟩ := Page.drop_bears mirrors.bears clear (Action.applied_ok.mp dropped)
  obtain ⟨hangsE, claimsE⟩ := hangs.edited (leaf.row.eraseItem i) nodeAt.claims soundD soundE keeps spared
    (fun kid _ => ⟨List.mem_append_right _ (List.mem_singleton_self _), fun _ => nofun⟩) fun item member => by
      rw [Row.items_eraseItem] at member
      exact .inr ⟨List.mem_of_mem_eraseIdx member, fun n link => inside n (Row.item_besides member n link)⟩
  rw [← leaf.row.slots_eraseItem] at bears
  exact ⟨⟨(alike.of mirrors.is kind).alike keeps.alike, keeps.alike.limits ▸ bears⟩, fun parked => absurd clearQ parked,
    hangsE, claimsE⟩

namespace Edit

section Ordered

variable [Std.TransCmp t.order.compare] (ordered : t.Ordered d root) (fits : key.fits t.kind = true)
  (books : d.Books (Limb.pages (H + 1) root ++ others)) (one : 1 ∈ root.page :: others)

include ordered fits books one

theorem deleteOnLeaf_ok {leaf : Node (Limb 0)} {f : Frame} {path : Path}
    (at_ : Walk.At d t root leaf f frames left right ⟨path, s⟩) (inside : f.index < leaf.row.cells.length)
    (equal : t.side key (leaf.row.item f.index) = .eq) (run : deleteOnLeaf f frames s = .ok () u) :
    ∃ (K : Nat) (grown : Node (Limb K)) (e : Disk), u.Shows e ∧ Changed d e t others root grown (t.remove key) := by
  have split := at_.split inside
  rw [items_below, List.append_nil] at split
  have limb := at_.trail.limb ordered.stands
  have entry := at_.entry ordered.stands inside (.inr rfl)
  obtain ⟨spine, stands, rfl, rfl, rfl⟩ := at_.trail.spine ordered.stands
  have carries := ((limbAt_node leaf).mp limb).2.items _ (Row.item_mem inside)
  have sound := at_.showsDisk.disk_sound
  rw [spine.page_plug] at one
  unfold deleteOnLeaf at run
  obtain ⟨info, found, run⟩ := Action.lift_bind_ok.mp run
  obtain ⟨_, v, freed, run⟩ := Action.bind_ok.mp run
  obtain ⟨q, dropped, run⟩ := Action.lift_bind_ok.mp run
  obtain ⟨_, w, balanced, bumped⟩ := Action.bind_ok.mp run
  obtain ⟨d1, showsV, keeps, books1⟩ := freeEntry_ok at_.showsDisk at_.mirrors at_.clear carries inside
    (books.perm (spine.pages_split leaf others)) (Spine.one_mem one) found freed
  have spared : Spared d d1 (Freelist.Others (leaf.row.besides f.index ++ leaf.page :: (spine.pages ++ others)))
      (leaf.row.besides f.index ++ leaf.page :: (spine.pages ++ others)) := fun n own => by
    obtain ⟨has, free⟩ := books1.has own
    exact ⟨(keeps.alike.isReserved n).symm.trans free, has, fun other => other own⟩
  have pending := erased_pending at_.mirrors at_.clear limb sound showsV.disk_sound keeps spared
    (fun n => List.mem_append_left _) dropped
  have inSpine : ∀ n ∈ spine.pages, n ∈ leaf.row.besides f.index ++ leaf.page :: (spine.pages ++ others) := fun n own =>
    List.mem_append_right _ (List.mem_cons_of_mem _ (List.mem_append_left _ own))
  have standsV : d1.Stands t.kind leaf.page spine frames :=
    stands.keep keeps sound showsV.disk_sound (spared.mono inSpine) (fun n own other => other (inSpine n own))
      ⟨(spared _ (List.mem_append_right _ List.mem_cons_self)).1, fun other =>
        other (List.mem_append_right _ List.mem_cons_self)⟩
  have books2 : d1.Books (Limb.pages (0 + 1) (⟨leaf.page, leaf.row.eraseItem f.index⟩ : Node (Limb 0)) ++
      (spine.pages ++ others)) := by
    have hanging := leaf.row.hanging_eraseItem f.index
    have own : Limb.pages (0 + 1) (⟨leaf.page, leaf.row.eraseItem f.index⟩ : Node (Limb 0)) =
      leaf.page :: (leaf.row.eraseItem f.index).hanging := rfl
    rw [own]
    refine books1.perm ?_
    grind
  obtain ⟨K, grown, e, showsW, -, replaced, items⟩ := balance_trail showsV pending standsV books2 one balanced
  obtain ⟨u', again, showsU, -⟩ := bumpGeneration_run showsW
  cases bumped.symm.trans again
  have sorted := split ▸ ordered.sorted
  obtain ⟨before, behind⟩ := Walk.sorted_split sorted
  have removed := Item.entries_remove (fun x member _ => (before x member).side_lt_of_eq fits (.inr entry) equal) equal
    fun x member isEntry => (behind x member).side_gt_of_eq fits (.inr isEntry) equal
  rw [(items_erased inside).2, List.append_assoc, ← List.append_assoc] at items
  rw [← split] at removed
  exact ⟨K, grown, e, showsU, replaced.after rfl keeps fun n own =>
    List.mem_append_right _ (List.mem_cons_of_mem _ (List.mem_append_right _ own)), items.ordered sorted.without,
    (congrArg (List.map _) items.entries).symm.trans removed⟩

end Ordered

section Interior

variable (ordered : t.Ordered d root)

include ordered

/-- The last item below a child comes off. It keeps its chain, and nothing else is changed. -/
theorem takePredecessor_ok {node : Node (Limb (h + 1))} {f : Frame} {rest : List Nat} {cell key : Bytes}
    (at_ : Walk.At d t root node f frames left right ⟨f :: frames, s⟩) (inside : f.index < node.row.cells.length)
    (books : d.Books (Limb.pages (h + 1) (node.row.kid f.index) ++ rest))
    (run : takePredecessor t (f :: frames) (Node.page (node.row.kid f.index)) s = .ok (cell, key) u) :
    ∃ (kid : Node (Limb h)) (last : Item) (e : Disk), u.Shows e ∧ kid.page = Node.page (node.row.kid f.index) ∧
      Limb.items (h + 1) (node.row.kid f.index) = Limb.items (h + 1) kid ++ [last] ∧ e.LimbAt t.kind (h + 1) kid ∧
      e.Carries t.kind 0 last ∧ e.Books (Limb.pages (h + 1) kid ++ (last.chain ++ rest)) ∧
      (∃ n ∈ Limb.pages (h + 1) kid, Quiet d e (· = n) fun _ => False) ∧
      Cell.Holds e.limits (.leaf t.kind) cell ⟨none, last.stub e.limits t.kind⟩ ∧ key = last.payload := by
  unfold takePredecessor at run
  obtain ⟨⟨g, path⟩, v, walked, run⟩ := Action.bind_ok.mp run
  obtain ⟨_, w1, down, further⟩ := Action.bind_ok.mp (Walk.startAt_ok walked)
  obtain ⟨_, w2, toLast, isTop⟩ := Action.bind_ok.mp further
  obtain ⟨page, atKid⟩ := Walk.into_at ordered.stands at_ (Nat.le_of_lt inside) down
  unfold Walk.toLast at toLast
  obtain ⟨_, w3, descended, checked⟩ := Action.bind_ok.mp toLast
  obtain ⟨leaf, g', inner, init, atLeaf, -, trail⟩ := Walk.descendLast_at ordered.stands atKid descended
  obtain ⟨rfl, -⟩ := Walk.checkLeaf_ok atLeaf.path checked
  cases isTop.symm.trans (Walk.top_run atLeaf.path)
  dsimp only at run
  split at run
  · exact absurd run Action.throw_bind_ok
  rename_i some_
  obtain ⟨_, isCell, run⟩ := Action.lift_bind_ok.mp run
  obtain ⟨_, v1, read, run⟩ := Action.bind_ok.mp run
  obtain ⟨q, dropped, run⟩ := Action.lift_bind_ok.mp run
  obtain ⟨_, v2, written, run⟩ := Action.bind_ok.mp run
  cases run
  obtain ⟨i, isLast⟩ : ∃ i, i = g.page.cellCount - 1 := ⟨_, rfl⟩
  rw [← isLast] at isCell read dropped
  have count := atLeaf.count
  have low : i < leaf.row.cells.length := by omega
  obtain ⟨spine, stands, plugged, before, after⟩ := trail.spine
    (((limbAt_node node).mp (at_.trail.limb ordered.stands)).2.kids _ (node.row.kid_mem f.index))
  have limb := atLeaf.trail.limb ordered.stands
  have sound := atLeaf.showsDisk.disk_sound
  have carries := ((limbAt_node leaf).mp limb).2.items _ (Row.item_mem low)
  have long : i < (leaf.row.slots d.limits t.kind).length := by
    rw [Page.Mirrors.length_slots]
    exact low
  obtain ⟨_, again, holds⟩ := atLeaf.mirrors.bears.cell atLeaf.clear long
  cases isCell.symm.trans again
  obtain ⟨-, _, again, showsV⟩ := atLeaf.reads ordered low atLeaf.showsDisk
  cases read.symm.trans again
  -- the pages below the child, with the chain of its last item apart
  obtain ⟨last, isItem⟩ : ∃ last, last = leaf.row.item i := ⟨_, rfl⟩
  have own : Limb.pages (0 + 1) (⟨leaf.page, leaf.row.eraseItem i⟩ : Node (Limb 0)) =
    leaf.page :: (leaf.row.eraseItem i).hanging := rfl
  have split := spine.pages_split leaf rest
  have besides := Row.hanging_besides low
  have erased := leaf.row.hanging_eraseItem i
  rw [← isItem] at besides carries
  rw [plugged] at split
  have books1 : d.Books (Limb.pages (0 + 1) (⟨leaf.page, leaf.row.eraseItem i⟩ : Node (Limb 0)) ++
      (spine.pages ++ (last.chain ++ rest))) := by
    rw [own]
    refine books.perm ?_
    grind
  have spared : Spared d d (Freelist.Others (leaf.row.besides i)) (leaf.row.besides i) := fun n inside => by
    obtain ⟨has, free⟩ := books1.has (n := n) (by
      rw [own]
      exact List.mem_append_left _ (List.mem_cons_of_mem _ (erased.mem_iff.mpr inside)))
    exact ⟨free, has, fun other => other inside⟩
  have pending := erased_pending atLeaf.mirrors atLeaf.clear limb sound sound (.refl d) spared (fun _ => id) dropped
  obtain ⟨e, showsE, -, limbE, books2, quiet⟩ := Balance.writePending_ok showsV pending books1 written
  have nodup := books1.nodup
  rw [own] at nodup
  have away {n : Nat} (inside : n ∈ spine.pages ++ (last.chain ++ rest)) : n ≠ leaf.page := fun same =>
    (List.nodup_cons.mp nodup).1 (List.mem_append_right _ (same ▸ inside))
  have sparedE {pages : List Nat} (inside : ∀ n ∈ pages, n ∈ spine.pages ++ (last.chain ++ rest)) :
      Spared d e (· = leaf.page) pages :=
    spared_of_books books1 books2 (fun n own => ⟨List.mem_append_right _ (inside n own), List.mem_append_right _ (inside n own)⟩)
      fun n own => away (inside n own)
  have standsE : e.Stands t.kind leaf.page spine inner := stands.keep quiet.toKeeps sound showsE.disk_sound
    (sparedE fun n => List.mem_append_left _) (fun _ _ => id)
    ⟨(books1.has (n := leaf.page) (by rw [own]; exact List.mem_cons_self)).2, id⟩
  have ended : tailOf leaf (i + 1) = [] := by
    rw [tailOf_eq, rightOf_end leaf (by omega)]
    rfl
  have around (node : Node (Limb 0)) : Limb.items (h + 1) (spine.plug node) =
      (spine.before Row.items fun item => [item]) ++ (Limb.items (0 + 1) node ++ spine.after Row.items fun item => [item]) :=
    spine.scan_plug _ _ node
  refine ⟨spine.plug ⟨leaf.page, leaf.row.eraseItem i⟩, last, e, showsE, ?_, ?_, standsE.plugged limbE rfl, ?_, ?_,
    ⟨leaf.page, ?_, quiet⟩, ?_, by rw [isItem]⟩
  · rw [← plugged, spine.page_plug, spine.page_plug]
  · obtain ⟨items, fewer⟩ := items_erased low
    rw [← plugged, around, around, after, items, fewer, ended, isItem]
    simp only [List.append_nil, List.append_assoc]
  · exact carries.keep quiet.toKeeps sound showsE.disk_sound
      (sparedE fun n inside => List.mem_append_right _ (List.mem_append_left _ inside)) fun _ _ => id
  · refine books2.perm ?_
    have around := (spine.pages_plug (⟨leaf.page, leaf.row.eraseItem i⟩ : Node (Limb 0)))
    grind
  · refine (spine.pages_plug _).mem_iff.mpr (List.mem_append_left _ ?_)
    rw [own]
    exact List.mem_cons_self
  · rw [Row.slots_get, atLeaf.mirrors.is.limits, atLeaf.mirrors.is.kind] at holds
    rw [quiet.alike.limits, isItem]
    exact holds

omit ordered in
theorem claimHead_first {overflow : Option PageNo} {number : PageNo} {rest : StoreM Unit} (run : (match overflow with
      | some head => do
        PointerMap.put head ⟨.overflowHead, number⟩
        rest
      | none => rest : StoreM Unit) s = .ok () u) : ∃ v, (match overflow with
      | some head => PointerMap.put head ⟨.overflowHead, number⟩
      | none => pure () : StoreM Unit) s = .ok () v ∧ rest v = .ok () u := by
  cases overflow with
  | none => exact ⟨s, rfl, run⟩
  | some head =>
    obtain ⟨_, v, claimed, further⟩ := Action.bind_ok.mp run
    exact ⟨v, claimed, further⟩

omit ordered in
/-- The chain of a cell that has moved to another page. -/
theorem claimHead_ok {item : Item} {number : Nat} {rest : List Nat} (shows_ : s.Shows d)
    (books : d.Books (item.chain ++ rest)) (one : 1 ∈ rest) (small : number < 4294967296)
    (run : (match item.chain.head? with
      | some head => PointerMap.put head ⟨.overflowHead, number⟩
      | none => pure () : StoreM Unit) s = .ok () u) :
    ∃ e, u.Shows e ∧ Quiet d e (fun _ => False) (· ∈ item.chain.take 1) ∧ e.Mapped (item.headClaim number) := by
  unfold Item.headClaim
  cases chain : item.chain with
  | nil =>
    rw [chain] at run
    cases run
    exact ⟨d, shows_, .refl d, fun _ _ => nofun⟩
  | cons page more =>
    rw [chain] at run books
    have other : page ≠ 1 := fun same => by
      have fresh := (List.nodup_cons.mp books.nodup).1
      rw [same] at fresh
      exact fresh (List.mem_append_right _ one)
    obtain ⟨e, v, put, showsV, -, quiet, entry⟩ := put_run (e := ⟨.overflowHead, number⟩) shows_
      (books.described List.mem_cons_self other) small
    cases run.symm.trans put
    refine ⟨e, showsV, quiet.mono (fun _ => id) fun n same => same ▸ List.mem_cons_self, fun mapped c member => ?_⟩
    rw [List.mem_singleton.mp member]
    exact entry (quiet.alike.mapped ▸ mapped)

omit ordered in
/-- The last entry below a child of an index page comes in the place of the entry behind the child. -/
theorem supplant_ok {node : Node (Limb (h + 1))} {spine : Spine (h + 1) H} {i : Nat} {page p q : Page} {info moving : CellInfo}
    {cell moved : Bytes} {last : Item} {v w : Store} (isIndex : t.kind = .index) (shows_ : s.Shows d)
    (mirrors : page.Mirrors d t.kind node) (clear : page.parked = []) (inside : i < node.row.cells.length)
    (limb : d.LimbAt t.kind (h + 2) node) (stands : d.Stands t.kind node.page spine frames)
    (books : d.Books (node.row.hanging ++ node.page :: (spine.pages ++ (last.chain ++ others))))
    (one : 1 ∈ spine.top node.page :: others) (carries : d.Carries t.kind 0 last)
    (holds : Cell.Holds d.limits (.leaf t.kind) cell ⟨none, last.stub d.limits t.kind⟩)
    (found : page.cellInfo i = .ok info) (freed : Overflow.freeOf info s = .ok () v)
    (dropped : Action.applied (Page.drop i) page = .ok p)
    (moves : Cell.leafToInterior cell v.limits (Node.page (node.row.kid i)) = .ok moved)
    (decoded : Cell.decode moved.window 0 .indexInterior v.limits = .ok moving)
    (claimed : (match moving.overflowPage with
      | some head => PointerMap.put head ⟨.overflowHead, p.number⟩
      | none => pure () : StoreM Unit) v = .ok () w)
    (placed : Action.applied (Page.insert i moved) p = .ok q) (run : balance (⟨q, i⟩ :: frames) false w = .ok () u) :
    ∃ (K : Nat) (grown : Node (Limb K)) (e : Disk), u.Shows e ∧ Replaced d e t.kind others (spine.plug node) grown ∧
      Regrouped t.kind (spine.before Row.items (fun item => [item]) ++
        (Limb.items (h + 2) (⟨node.page, node.row.setItem i last⟩ : Node (Limb (h + 1))) ++
          spine.after Row.items fun item => [item])) (Limb.items (K + 1) grown) := by
  obtain ⟨nodeAt, hangs⟩ := (limbAt_node node).mp limb
  have sound := shows_.disk_sound
  have child : d.Has (Node.page (node.row.kid i)) := (books.has (List.mem_append_left _
    (Row.mem_gather.mpr (.inl ⟨_, node.row.kid_mem i, List.mem_cons_self⟩)))).1
  have oneRest : 1 ∈ node.page :: (spine.pages ++ (last.chain ++ others)) := Spine.one_mem
    ((List.mem_cons.mp one).elim (fun top => top ▸ List.mem_cons_self) fun other =>
      List.mem_cons_of_mem _ (List.mem_append_right _ other))
  obtain ⟨d1, showsV, keeps1, books1⟩ := freeEntry_ok shows_ mirrors clear (hangs.items _ (Row.item_mem inside)) inside
    books oneRest found freed
  obtain ⟨-, bears, alike, kind, clearP⟩ := Page.drop_bears mirrors.bears clear (Action.applied_ok.mp dropped)
  -- the cell of an index page has another child and the same entry
  rw [showsV.limits, keeps1.alike.limits] at moves decoded
  rw [isIndex] at holds
  have raised := Cell.leafToInterior_holds holds (sound.has_lt child) moves
  obtain ⟨own, ⟨reads, -⟩, slot⟩ := id raised
  cases decoded.symm.trans reads
  have head : last.chain.head? = moving.overflowPage := congrArg (fun slot => slot.stub.head) slot
  obtain ⟨owned, isOwned⟩ : ∃ owned, owned = node.row.besides i ++ node.page :: (spine.pages ++ others) := ⟨_, rfl⟩
  have more : ∀ n, n ∈ last.chain ∨ n ∈ owned →
      n ∈ node.row.besides i ++ node.page :: (spine.pages ++ (last.chain ++ others)) := by grind
  have carries1 : d1.Carries t.kind 0 last := by
    refine carries.keep keeps1 sound showsV.disk_sound (fun n link => ?_) fun n link other =>
      other (more n (.inl (List.mem_of_mem_drop link)))
    obtain ⟨has, free⟩ := books1.has (more n (.inl link))
    exact ⟨(keeps1.alike.isReserved n).symm.trans free, has, fun other => other (more n (.inl link))⟩
  have books1 : d1.Books (last.chain ++ owned) := books1.perm (by grind)
  have isNode : node.page ∈ last.chain ++ owned := List.mem_append_right _
    (isOwned ▸ List.mem_append_right _ List.mem_cons_self)
  have oneOwned : 1 ∈ owned := isOwned ▸ List.mem_append_right _ (Spine.one_mem one)
  rw [← head, alike.of mirrors.is kind |>.number] at claimed
  obtain ⟨d2, showsW, quiet, headClaim⟩ := claimHead_ok showsV books1 oneOwned
    (showsV.disk_sound.has_lt (books1.has isNode).1) claimed
  have books2 := books1.of_quiet showsV.disk_sound showsW.disk_sound quiet (fun _ => False.elim)
    fun n first => List.mem_append_left _ (List.mem_of_mem_take first)
  obtain ⟨once, -, apart⟩ := List.nodup_append.mp books1.nodup
  have carries2 : d2.Carries t.kind 0 last := by
    refine carries1.keep quiet.toKeeps showsV.disk_sound showsW.disk_sound (spared_of_books books1 books2
      (fun n link => ⟨List.mem_append_left _ link, List.mem_append_left _ link⟩) fun _ _ => id) fun n later first => ?_
    rw [← List.take_append_drop 1 last.chain] at once
    exact (List.nodup_append.mp once).2.2 n first n later rfl
  have keeps : Keeps d d2 (Freelist.Others owned) (Freelist.Others owned) := by
    refine (keeps1.mono ?_ ?_).trans (quiet.toKeeps.mono (fun _ => False.elim) fun n first inside =>
      apart n (List.mem_of_mem_take first) n inside rfl)
    all_goals exact fun n away inside => away (more n (.inr inside))
  have here : Cell.Holds d.limits (.at t.kind (h + 1)) moved
      ⟨Limb.page? (h + 1) (node.row.kid i), last.stub d.limits t.kind⟩ := by
    rw [isIndex]
    exact raised
  rw [isOwned] at keeps books2
  exact regrow_ok sound showsW hangs nodeAt.claims stands (node.row.vacancy_instead d.limits t.kind inside) keeps books2 one
    (alike.of mirrors.is kind) bears clearP here
    ⟨carries2.fits.level (.inl isIndex), carries2.chain, carries2.links⟩ headClaim placed run

theorem balanceBelow_ok {bytes : Bytes} [Std.TransCmp t.order.compare] (isIndex : t.kind = .index) (shows_ : s.Shows d)
    (books : d.Books (Limb.pages (H + 1) root ++ others)) (one : 1 ∈ root.page :: others)
    (run : balanceBelow t bytes s = .ok () u) : ∃ (K : Nat) (grown : Node (Limb K)) (e : Disk), u.Shows e ∧
      Replaced d e t.kind others root grown ∧ Regrouped t.kind (Limb.items (H + 1) root) (Limb.items (K + 1) grown) := by
  unfold balanceBelow at run
  obtain ⟨⟨_, path⟩, v, walked, balanced⟩ := Action.bind_ok.mp run
  obtain ⟨landing, w1, searched, further⟩ := Action.bind_ok.mp (Walk.startAt_ok walked)
  have fits : Key.fits (.bytes bytes) t.kind = true := by
    rw [isIndex]
    rfl
  have finds := Walk.toKey_finds ordered fits shows_ searched
  obtain ⟨g, w2, isTop, further⟩ := Action.bind_ok.mp further
  split at further
  · exact absurd further Action.throw_bind_ok
  rename_i found
  simp only [Bool.or_eq_true, ne_eq, not_or, Decidable.not_not, Bool.not_eq_true, decide_eq_true_eq] at found
  obtain ⟨rfl, inner⟩ := found
  obtain ⟨h, node, f, frames, left, right, at_, inside, -, -⟩ := finds
  cases isTop.symm.trans (Walk.top_run at_.path)
  rw [at_.mirrors.isLeaf] at inner
  cases h with
  | zero => cases inner
  | succ h =>
  obtain ⟨child, isChild, further⟩ := Action.lift_bind_ok.mp further
  obtain ⟨_, w3, down, descended⟩ := Action.bind_ok.mp further
  obtain ⟨page, atKid⟩ := Walk.toChild_at ordered.stands at_ isChild down
  obtain ⟨leaf, g', above, init, atLeaf, -, -⟩ := Walk.descendLast_at ordered.stands atKid descended
  obtain ⟨nodeAt, hangs⟩ := (limbAt_node leaf).mp (atLeaf.trail.limb ordered.stands)
  have isPath : path = g' :: (above ++ g :: frames) := atLeaf.path
  rw [isPath] at balanced
  have items := atLeaf.trail.items
  obtain ⟨spine, stands, rfl, before, after⟩ := atLeaf.trail.spine ordered.stands
  rw [spine.page_plug] at one
  have split := books.perm (((spine.pages_plug leaf).append_right others).trans (.of_eq (List.append_assoc _ _ _)))
  obtain ⟨K, grown, e, showsU, -, replaced, regrouped⟩ := balance_trail atLeaf.showsDisk
    ⟨atLeaf.mirrors, fun parked => absurd atLeaf.clear parked, hangs, nodeAt.claims⟩ stands split one balanced
  rw [before, after, ← items] at regrouped
  exact ⟨K, grown, e, showsU, replaced, regrouped⟩

end Interior

section Ordered

variable [Std.TransCmp t.order.compare] (ordered : t.Ordered d root) (fits : key.fits t.kind = true)
  (books : d.Books (Limb.pages (H + 1) root ++ others)) (one : 1 ∈ root.page :: others)

include ordered fits books one

theorem deleteOnInterior_ok {node : Node (Limb (h + 1))} {f : Frame}
    (at_ : Walk.At d t root node f frames left right ⟨f :: frames, s⟩) (inside : f.index < node.row.cells.length)
    (entry : (node.row.item f.index).divider = false) (equal : t.side key (node.row.item f.index) = .eq)
    (run : deleteOnInterior t f frames s = .ok () u) :
    ∃ (K : Nat) (grown : Node (Limb K)) (e : Disk), u.Shows e ∧ Changed d e t others root grown (t.remove key) := by
  have split := at_.split inside
  have limb := at_.trail.limb ordered.stands
  have level := limb.level at_.mirrors at_.clear (Nat.le_of_lt inside)
  have isIndex : t.kind = .index := by
    by_contra isTable
    rw [at_.divider ordered.stands inside isTable] at entry
    cases entry
  unfold deleteOnInterior at run
  obtain ⟨info, found, run⟩ := Action.lift_bind_ok.mp run
  have isLeft : info.leftChild = some (Node.page (node.row.kid f.index)) :=
    at_.mirrors.leftChild at_.clear inside found
  rw [isLeft] at run
  dsimp only at run
  obtain ⟨⟨cell, bytes⟩, s1, taken, run⟩ := Action.bind_ok.mp run
  obtain ⟨_, s2, freed, run⟩ := Action.bind_ok.mp run
  obtain ⟨p, dropped, run⟩ := Action.lift_bind_ok.mp run
  rw [Action.get_bind] at run
  obtain ⟨moved, moves, run⟩ := Action.lift_bind_ok.mp run
  obtain ⟨moving, decoded, run⟩ := Action.lift_bind_ok.mp run
  obtain ⟨s3, claimed, run⟩ := claimHead_first run
  obtain ⟨q, placed, run⟩ := Action.lift_bind_ok.mp run
  obtain ⟨_, s4, balanced, run⟩ := Action.bind_ok.mp run
  obtain ⟨_, s5, below, bumped⟩ := Action.bind_ok.mp run
  obtain ⟨spine, stands, rfl, rfl, rfl⟩ := at_.trail.spine ordered.stands
  -- the place of the child, with all around it
  have plug (kid : Node (Limb h)) : (Spine.under node.page node.row f.index spine).plug kid =
    spine.plug ⟨node.page, node.row.setKid f.index kid⟩ := rfl
  have filled : (Spine.under node.page node.row f.index spine).plug (node.row.kid f.index) = spine.plug node :=
    (plug _).trans (congrArg (fun row => spine.plug ⟨node.page, row⟩) (Row.setKid_kid node.row f.index))
  have level := (at_.trail.limb ordered.stands).level at_.mirrors at_.clear (Nat.le_of_lt inside)
  have standsKid := Stands.under level stands
  generalize isHole : Spine.under node.page node.row f.index spine = hole at plug filled standsKid
  have around (kid : Node (Limb h)) := (hole.pages_plug kid).append_right others
  have all := books.perm (((List.Perm.of_eq (by rw [filled])).symm.trans (around (node.row.kid f.index))).trans
    (.of_eq (List.append_assoc _ _ _)))
  obtain ⟨kid, last, d1, shows1, isPage, items, limbKid, carries, books1, ⟨n, among, quiet⟩, holds, isKey⟩ :=
    takePredecessor_ok ordered at_ inside all taken
  have sound := at_.showsDisk.disk_sound
  have away {m : Nat} (rest : m ∈ last.chain ++ (hole.pages ++ others)) : m ≠ n := fun same =>
    (List.nodup_append.mp books1.nodup).2.2 n among n (same ▸ rest) rfl
  have stands1 := standsKid.keep quiet.toKeeps sound shows1.disk_sound
    (spared_of_books all books1 (fun m own => ⟨List.mem_append_right _ (List.mem_append_left _ own),
      List.mem_append_right _ (List.mem_append_right _ (List.mem_append_left _ own))⟩)
      fun m own => away (List.mem_append_right _ (List.mem_append_left _ own)))
    (fun _ _ => id) ⟨(all.has (List.mem_append_left _ List.mem_cons_self)).2, id⟩
  rw [← isHole] at stands1
  obtain ⟨level1, stands1⟩ := stands1.inner
  have mirrors := level1.mirrors_kid isPage
  have inside1 : f.index < (node.row.setKid f.index kid).cells.length :=
    Nat.lt_of_lt_of_eq inside (Row.length_setKid f.index kid).symm
  have isKid : Node.page ((node.row.setKid f.index kid).kid f.index) = Node.page (node.row.kid f.index) :=
    (congrArg Node.page (Row.kid_setKid (Nat.le_of_lt inside) kid)).trans isPage
  have limb1 := level1.plugged limbKid isPage
  have books2 : d1.Books ((node.row.setKid f.index kid).hanging ++
      node.page :: (spine.pages ++ (last.chain ++ others))) := by
    refine books1.perm ?_
    have own := (hole.pages_plug kid).symm.trans (.of_eq (congrArg (Limb.pages (H + 1)) (plug kid)))
    have split := spine.pages_split ⟨node.page, node.row.setKid f.index kid⟩ (last.chain ++ others)
    dsimp only at split
    grind
  rw [spine.page_plug] at one
  rw [← isKid] at moves
  obtain ⟨K, grown, e, shows4, replaced, regrouped⟩ := supplant_ok isIndex shows1 mirrors at_.clear inside1 limb1 stands1
    books2 one carries holds found freed dropped moves decoded claimed placed balanced
  -- the items with the last one below the child in the place of the one that goes
  have read : Limb.items (h + 2) (⟨node.page, (node.row.setKid f.index kid).setItem f.index last⟩ :
      Node (Limb (h + 1))) = leftOf node f.index ++ (Limb.items (h + 1) kid ++ ([last] ++ tailOf node (f.index + 1))) :=
    (Limb.items_node _).trans (Row.gather_exchange _ _ inside kid)
  obtain ⟨beforeList, isBefore⟩ : ∃ a, a = (spine.before Row.items fun item => [item]) ++
    (leftOf node f.index ++ Limb.items (h + 1) (node.row.kid f.index)) := ⟨_, rfl⟩
  rw [← isBefore] at split
  have whole : (spine.before Row.items fun item => [item]) ++ (leftOf node f.index ++ (Limb.items (h + 1) kid ++
      ([last] ++ tailOf node (f.index + 1))) ++ spine.after Row.items fun item => [item]) =
      beforeList ++ (tailOf node (f.index + 1) ++ spine.after Row.items fun item => [item]) := by
    rw [isBefore, items]
    simp only [List.append_assoc]
  have regrouped : Regrouped t.kind (beforeList ++ (tailOf node (f.index + 1) ++ spine.after Row.items fun item => [item]))
      (Limb.items (K + 1) grown) := by
    rw [← whole, ← read]
    exact regrouped
  have sorted := split ▸ ordered.sorted
  obtain ⟨before, behind⟩ := Walk.sorted_split sorted
  have removed := Item.entries_remove (fun x member _ => (before x member).side_lt_of_eq fits (.inr entry) equal) equal
    fun x member isEntry => (behind x member).side_gt_of_eq fits (.inr isEntry) equal
  rw [← split] at removed
  have sortedGrown := regrouped.ordered sorted.without
  have stays : Replaced d e t.kind others (spine.plug node) grown := by
    refine replaced.after rfl (quiet.toKeeps.mono ?_ fun _ => False.elim) fun _ => id
    intro m same other
    exact away (List.mem_append_right _ (List.mem_append_right _ other)) same
  have ordered4 : t.Ordered e grown := by
    refine .of_pages ?_ stays.limb sortedGrown (fun m own => (stays.books.has (List.mem_append_left _ own)).1)
      (List.nodup_append.mp stays.books.nodup).1
    rw [stays.page]
    exact ordered.number
  have oneGrown : 1 ∈ grown.page :: others := by
    rw [stays.page, spine.page_plug]
    exact one
  obtain ⟨K', final, e', shows5, replaced', regrouped'⟩ := balanceBelow_ok ordered4 isIndex shows4 stays.books oneGrown below
  obtain ⟨_, again, showsU, -⟩ := bumpGeneration_run shows5
  cases bumped.symm.trans again
  exact ⟨K', final, e', showsU, stays.trans replaced', regrouped'.ordered sortedGrown,
    (congrArg (List.map _) (regrouped.trans regrouped').entries).symm.trans removed⟩

/-- A delete that succeeds takes away the entry at the end of the path. -/
theorem delete_ok {node : Node (Limb h)} {f : Frame} (at_ : Walk.At d t root node f frames left right ⟨f :: frames, s⟩)
    (inside : f.index < node.row.cells.length) (entry : (node.row.item f.index).divider = false)
    (equal : t.side key (node.row.item f.index) = .eq) (run : delete t (f :: frames) s = .ok () u) :
    ∃ (K : Nat) (grown : Node (Limb K)) (e : Disk), u.Shows e ∧ Changed d e t others root grown (t.remove key) := by
  unfold delete at run
  dsimp only at run
  rw [at_.mirrors.isLeaf] at run
  cases h with
  | zero => exact deleteOnLeaf_ok ordered fits books one at_ inside equal run
  | succ h => exact deleteOnInterior_ok ordered fits books one at_ inside entry equal run

end Ordered

end Edit

end TreeFile
