import TreeFile.Proofs.Cursor.Edits

/-!
Inserting. An insert that succeeds puts its entry in the place of the one that the tree takes for the same, or else
where it belongs.
-/

namespace TreeFile

open Store Disk PointerMap

namespace TreeRef

variable {t : TreeRef} {entry : Entry} {a same b : List Entry}

/-- The entries of a tree with another one: in the place of the one the tree takes for the same, or at its place in
the order. -/
def put (t : TreeRef) (entry : Entry) (list : List Entry) : List Entry :=
  (list.filter fun e => t.compareKeys e.key entry.key = .lt) ++
    entry :: list.filter fun e => t.compareKeys e.key entry.key = .gt

theorem put_parts (less : ∀ e ∈ a, t.compareKeys e.key entry.key = .lt)
    (equal : ∀ e ∈ same, t.compareKeys e.key entry.key = .eq) (more : ∀ e ∈ b, t.compareKeys e.key entry.key = .gt) :
    t.put entry (a ++ (same ++ b)) = a ++ entry :: b := by
  unfold put
  simp only [List.filter_append]
  rw [List.filter_eq_self.mpr fun e inside => decide_eq_true (less e inside),
    List.filter_eq_self.mpr fun e inside => decide_eq_true (more e inside)]
  repeat rw [List.filter_eq_nil_iff.mpr]
  · simp
  · exact fun e inside => by simp [equal e inside]
  · exact fun e inside => by simp [less e inside]
  · exact fun e inside => by simp [more e inside]
  · exact fun e inside => by simp [equal e inside]

end TreeRef

section Places

variable {t : TreeRef} {old new x : Item} {a b : List Item}

theorem Item.before_of_lt (less : t.side (new.key t.kind) x = .lt) : Item.Before t.kind t.order x new := by
  unfold TreeRef.side Item.key at less
  unfold Item.Before
  cases kind : t.kind
  all_goals rw [kind] at less
  · exact .inl (Std.compare_eq_lt.mp less)
  · exact less

variable [Std.TransCmp t.order.compare]

theorem Item.before_of_behind (entry : new.divider = false) (behind : Walk.Behind t (new.key t.kind) x) :
    Item.Before t.kind t.order new x := by
  unfold Walk.Behind TreeRef.side Item.key at behind
  unfold Item.Before
  cases kind : t.kind
  all_goals rw [kind] at behind
  · rcases behind with more | ⟨-, same, divides⟩
    · exact .inl (Std.compare_eq_gt.mp more)
    · exact .inr ⟨(Std.compare_eq_iff_eq.mp same).symm, entry, divides⟩
  · rcases behind with more | ⟨other, -⟩
    · exact Std.OrientedCmp.lt_of_gt more
    · cases other

/-- Items in order stay so if one makes room for another that the tree takes for the same. -/
theorem Sorted.exchange (sorted : Sorted t.kind t.order (a ++ old :: b)) (same : t.side (new.key t.kind) old = .eq)
    (alike : old.divider = new.divider) : Sorted t.kind t.order (a ++ new :: b) := by
  obtain ⟨first, rest, across⟩ := List.pairwise_append.mp sorted
  obtain ⟨after, last⟩ := List.pairwise_cons.mp rest
  have exchanged : (∀ x, Item.Before t.kind t.order x old → Item.Before t.kind t.order x new) ∧
      ∀ x, Item.Before t.kind t.order old x → Item.Before t.kind t.order new x := by
    unfold TreeRef.side Item.key at same
    unfold Item.Before
    cases kind : t.kind
    all_goals rw [kind] at same
    · rw [← Std.compare_eq_iff_eq.mp same, alike]
      exact ⟨fun _ => id, fun _ => id⟩
    · exact ⟨fun x before => Std.TransCmp.lt_of_lt_of_eq before same,
        fun x before => Std.TransCmp.lt_of_eq_of_lt (Std.OrientedCmp.eq_symm same) before⟩
  refine List.pairwise_append.mpr ⟨first, List.pairwise_cons.mpr ⟨fun x inB => exchanged.2 x (after x inB), last⟩,
    fun x inA y member => ?_⟩
  rcases List.mem_cons.mp member with rfl | inB
  · exact exchanged.1 x (across x inA old List.mem_cons_self)
  · exact across x inA y (List.mem_cons_of_mem _ inB)

theorem Sorted.insert (sorted : Sorted t.kind t.order (a ++ b)) (entry : new.divider = false)
    (less : ∀ x ∈ a, t.side (new.key t.kind) x = .lt) (more : ∀ x ∈ b, Walk.Behind t (new.key t.kind) x) :
    Sorted t.kind t.order (a ++ new :: b) := by
  obtain ⟨first, last, across⟩ := List.pairwise_append.mp sorted
  refine List.pairwise_append.mpr ⟨first, List.pairwise_cons.mpr
    ⟨fun x inB => Item.before_of_behind entry (more x inB), last⟩, fun x inA y member => ?_⟩
  rcases List.mem_cons.mp member with rfl | inB
  · exact Item.before_of_lt (less x inA)
  · exact across x inA y inB

omit [Std.TransCmp t.order.compare] in
theorem Item.entries_put {m : List Item} (entry : new.divider = false)
    (less : ∀ x ∈ a, x.divider = false → t.side (new.key t.kind) x = .lt)
    (equal : ∀ x ∈ m, x.divider = false → t.side (new.key t.kind) x = .eq)
    (more : ∀ x ∈ b, x.divider = false → t.side (new.key t.kind) x = .gt) :
    Item.entries t.kind (a ++ new :: b) = t.put (new.entry t.kind) (Item.entries t.kind (a ++ (m ++ b))) := by
  have sides {items : List Item} {o : Ordering}
      (all : ∀ x ∈ items, x.divider = false → t.side (new.key t.kind) x = o) :
      ∀ e ∈ Item.entries t.kind items, t.compareKeys e.key (new.entry t.kind).key = o := by
    intro e inside
    obtain ⟨x, member, isEntry, rfl⟩ := Item.mem_entries.mp inside
    exact all x member isEntry
  have first : Item.entries t.kind (new :: b) = new.entry t.kind :: Item.entries t.kind b :=
    (Item.entries_append t.kind [new] b).trans (by rw [Item.entries_single entry]; rfl)
  rw [Item.entries_append, Item.entries_append, Item.entries_append, first]
  exact (TreeRef.put_parts (sides less) (sides equal) (sides more)).symm

end Places

variable {s u : Store} {d e : Disk} {tree : TreeKind} {H h : Nat} {root : Node (Limb H)} {node : Node (Limb h)}
  {frames : List Frame} {left right : List Item} {owned others : List Nat}

theorem PageKind.at_entry (own : tree = .index ∨ h = 0) : PageKind.at tree h ≠ .tableInterior := by
  rcases own with rfl | rfl
  · cases h <;> simp [PageKind.at, PageKind.leaf, PageKind.interior]
  · cases tree <;> simp [PageKind.at, PageKind.leaf]

/-- A new cell goes to its place, with a chain for what of its body is too long for the cell. -/
theorem plant_ok {spine : Spine h H} {fill : Item → Row (Limb h)} {rest : List Nat} {slots : List Slot}
    {leftChild : Option PageNo} {i : Nat} {p q : Page} {row : RowId} {body : Bytes} {cell whole : EncodedCell}
    {v : Store} (soundD : d.Sound) (shows_ : s.Shows e) (hangs : d.Hangs tree node.row)
    (claims : d.Mapped (node.row.claims node.page)) (stands : d.Stands tree node.page spine frames)
    (own : tree = .index ∨ h = 0) (vacancy : node.row.Vacancy d.limits tree slots leftChild i rest fill)
    (leaf : h = 0 → leftChild = none) (small : ∀ page, leftChild = some page → page < 4294967296)
    (keeps : Keeps d e (Freelist.Others (rest ++ node.page :: (spine.pages ++ others)))
      (Freelist.Others (rest ++ node.page :: (spine.pages ++ others))))
    (books : e.Books (rest ++ node.page :: (spine.pages ++ others))) (one : 1 ∈ spine.top node.page :: others)
    (is : p.Of d node.page (.at tree h)) (bears : p.Bears slots node.row.right) (clear : p.parked = [])
    (encoded : Cell.encode p.kind e.limits leftChild row body = .ok cell)
    (spilled : Overflow.spill cell body p.number s = .ok whole v)
    (placed : Action.applied (Page.insert i whole.bytes) p = .ok q)
    (run : balance (⟨q, i⟩ :: frames) false v = .ok () u) :
    ∃ (item : Item) (K : Nat) (grown : Node (Limb K)) (f : Disk), item.row = row ∧ item.payload = body ∧
      item.divider = false ∧ u.Shows f ∧ Replaced d f tree others (spine.plug node) grown ∧
      Regrouped tree (spine.before Row.items (fun item => [item]) ++
        (Limb.items (h + 1) (⟨node.page, fill item⟩ : Node (Limb h)) ++ spine.after Row.items fun item => [item]))
        (Limb.items (K + 1) grown) := by
  have isNode : node.page ∈ rest ++ node.page :: (spine.pages ++ others) := List.mem_append_right _ List.mem_cons_self
  rw [is.number] at spilled
  rw [is.kind] at encoded
  obtain ⟨item, f, isRow, isBody, entry, showsV, -, keeps2, books2, holds, itemAt, chain, -, -⟩ :=
    Overflow.spill_ok shows_ books rfl (PageKind.at_entry own) small
      (shows_.disk_sound.has_lt (books.has isNode).1) encoded spilled
  have frame := keeps.trans keeps2
  rw [PageKind.tree_at] at itemAt holds
  have noChild : (if (PageKind.at tree h).isLeaf then none else leftChild) = leftChild := by
    rw [PageKind.isLeaf_at]
    split
    · exact (leaf (of_decide_eq_true ‹_›)).symm
    · rfl
  rw [noChild, frame.alike.limits] at holds
  obtain ⟨links, head⟩ := mapped_chain chain
  have carries : f.Carries tree h item := by
    refine ⟨⟨fun first => (List.nodup_append.mp books2.nodup).2.2 1 first 1 books.one rfl, ?_, fun divides => ?_⟩,
      itemAt, links⟩
    · rw [entry]
      refine ⟨nofun, fun ⟨isTable, inner⟩ => ?_⟩
      rcases own with rfl | leaf
      · cases isTable
      · exact absurd leaf inner
    · rw [entry] at divides
      cases divides
  obtain ⟨K, grown, g, showsU, replaced, items⟩ := regrow_ok soundD showsV hangs claims stands vacancy frame books2 one
    is bears clear holds carries head placed run
  exact ⟨item, K, grown, g, isRow, isBody, entry, showsU, replaced, items⟩

namespace Edit

variable {t : TreeRef} {new : NewEntry} {key : Key} {body : Bytes}

theorem keyAndBody_ok (which : keyAndBody t.kind new = .ok (key, body)) {item : Item} (row : item.row = rowOf key)
    (payload : item.payload = body) :
    key.fits t.kind = true ∧ item.key t.kind = key ∧ item.entry t.kind = ⟨key, body⟩ := by
  unfold keyAndBody at which
  unfold Item.entry Item.key
  cases kind : t.kind
  all_goals
    rw [kind] at which
    dsimp only at which
  · cases which
    exact ⟨rfl, by rw [row]; rfl, by rw [row, payload]; rfl⟩
  · split at which
    · cases which
      exact ⟨rfl, by rw [payload], by rw [payload]⟩
    · cases which

section Ordered

variable [Std.TransCmp t.order.compare] (ordered : t.Ordered d root) (shows_ : s.Shows d)
  (books : d.Books (Limb.pages (H + 1) root ++ others)) (one : 1 ∈ root.page :: others)
  (which : keyAndBody t.kind new = .ok (key, body))

include ordered books one which

theorem insert_gap {leaf : Node (Limb 0)} {f : Frame} {i : Nat} {q : Page} {cell whole : EncodedCell} {path : Path}
    {v : Store} (at_ : Walk.At d t root leaf f frames left right ⟨path, s⟩) (gap : Walk.Gap t key leaf i left right)
    (encoded : Cell.encode f.page.kind d.limits none (rowOf key) body = .ok cell)
    (spilled : Overflow.spill cell body f.page.number s = .ok whole v)
    (placed : Action.applied (Page.insert i whole.bytes) f.page = .ok q)
    (run : balance (⟨q, i⟩ :: frames) false v = .ok () u) :
    ∃ (K : Nat) (grown : Node (Limb K)) (e : Disk), u.Shows e ∧ Changed d e t others root grown (t.put ⟨key, body⟩) := by
  obtain ⟨spine, stands, rfl, rfl, rfl⟩ := at_.trail.spine ordered.stands
  obtain ⟨nodeAt, hangs⟩ := (limbAt_node leaf).mp (at_.trail.limb ordered.stands)
  have all := books.perm (spine.pages_split leaf others)
  rw [spine.page_plug] at one
  obtain ⟨item, K, grown, e, row, payload, entry, showsU, replaced, items⟩ := plant_ok at_.showsDisk.disk_sound
    at_.showsDisk hangs nodeAt.claims stands (.inr rfl) (leaf.row.vacancy_gap d.limits t.kind gap.inside)
    (fun _ => rfl) (fun _ => nofun) (.refl d) all one at_.mirrors.is at_.mirrors.bears at_.clear encoded spilled placed run
  obtain ⟨fits, rfl, isEntry⟩ := keyAndBody_ok which row payload
  have old : Limb.items (H + 1) (spine.plug leaf) = (spine.before Row.items fun item => [item]) ++
      Disk.leftOf leaf i ++ (Disk.rightOf leaf i ++ spine.after Row.items fun item => [item]) := by
    rw [show Limb.items (H + 1) (spine.plug leaf) = _ from spine.scan_plug Row.items (fun item => [item]) leaf]
    rw [show Limb.scan Row.items (fun item => [item]) (0 + 1) leaf = leaf.row.items from rfl, leftOf_leaf, rightOf_leaf]
    simp only [List.append_assoc, List.take_append_drop, ← List.append_assoc (leaf.row.items.take i)]
  rw [items_filled gap.inside] at items
  have put := Item.entries_put (m := []) entry (fun x inside _ => gap.less x inside) (fun _ => nofun)
    fun x inside isEntry => (gap.more x inside).entry isEntry
  rw [List.nil_append, isEntry, ← old] at put
  exact ⟨K, grown, e, showsU, replaced, items.ordered (Sorted.insert (old ▸ ordered.sorted) entry gap.less gap.more),
    (congrArg (List.map _) items.entries).symm.trans put⟩

theorem insert_over {f : Frame} {p q : Page} {info : CellInfo} {cell whole : EncodedCell} {path : Path} {v w : Store}
    (at_ : Walk.At d t root node f frames left right ⟨path, s⟩) (inside : f.index < node.row.cells.length)
    (entry : (node.row.item f.index).divider = false) (equal : t.side key (node.row.item f.index) = .eq)
    (found : f.page.cellInfo f.index = .ok info) (freed : Overflow.freeOf info s = .ok () v)
    (dropped : Action.applied (Page.drop f.index) f.page = .ok p)
    (encoded : Cell.encode p.kind v.limits info.leftChild (rowOf key) body = .ok cell)
    (spilled : Overflow.spill cell body p.number v = .ok whole w)
    (placed : Action.applied (Page.insert f.index whole.bytes) p = .ok q)
    (run : balance (⟨q, f.index⟩ :: frames) false w = .ok () u) :
    ∃ (K : Nat) (grown : Node (Limb K)) (e : Disk), u.Shows e ∧ Changed d e t others root grown (t.put ⟨key, body⟩) := by
  have split := at_.split inside
  obtain ⟨spine, stands, rfl, rfl, rfl⟩ := at_.trail.spine ordered.stands
  obtain ⟨nodeAt, hangs⟩ := (limbAt_node node).mp (at_.trail.limb ordered.stands)
  have carries := hangs.items _ (Row.item_mem inside)
  have sound := at_.showsDisk.disk_sound
  have own : t.kind = .index ∨ h = 0 := by
    by_contra other
    have divides := carries.fits.divides.mpr ⟨by cases kind : t.kind <;> simp_all, fun leaf => other (.inr leaf)⟩
    rw [entry] at divides
    cases divides
  have all := books.perm (spine.pages_split node others)
  rw [spine.page_plug] at one
  have left_ := at_.mirrors.leftChild at_.clear inside found
  obtain ⟨d1, showsV, keeps, books1⟩ := freeEntry_ok at_.showsDisk at_.mirrors at_.clear carries inside all
    (Spine.one_mem one) found freed
  -- the new one at its place
  obtain ⟨-, bears, alike, kind, clear⟩ := Page.drop_bears at_.mirrors.bears at_.clear (Action.applied_ok.mp dropped)
  have small : ∀ page, info.leftChild = some page → page < 4294967296 := fun page isPage => by
    rw [left_] at isPage
    refine sound.has_lt (all.has (List.mem_append_left _ (Row.mem_gather.mpr (.inl ⟨_, node.row.kid_mem f.index, ?_⟩)))).1
    rw [Limb.pages_eq, isPage]
    exact List.mem_cons_self
  rw [showsV.limits, left_] at encoded
  rw [left_] at small
  obtain ⟨item, K, grown, e, row, payload, isEntry, showsU, replaced, items⟩ := plant_ok sound showsV hangs
    nodeAt.claims stands own (node.row.vacancy_instead d.limits t.kind inside) (fun leaf => by subst leaf; rfl) small
    keeps books1 one (alike.of at_.mirrors.is kind) bears clear encoded spilled placed run
  obtain ⟨fits, rfl, same⟩ := keyAndBody_ok which row payload
  rw [items_exchanged node inside] at items
  have sorted := split ▸ ordered.sorted
  obtain ⟨before, behind⟩ := Walk.sorted_split sorted
  have put := Item.entries_put (m := [node.row.item f.index]) isEntry
    (fun x member _ => (before x member).side_lt_of_eq fits (.inr entry) equal)
    (fun x member _ => List.mem_singleton.mp member ▸ equal)
    fun x member isEntry => (behind x member).side_gt_of_eq fits (.inr isEntry) equal
  rw [List.singleton_append, same, ← split] at put
  exact ⟨K, grown, e, showsU, replaced, items.ordered (sorted.exchange equal (entry.trans isEntry.symm)),
    (congrArg (List.map _) items.entries).symm.trans put⟩

include shows_

theorem insert_ok (run : insert t key body s = .ok () u) :
    ∃ (K : Nat) (grown : Node (Limb K)) (e : Disk), u.Shows e ∧ Changed d e t others root grown (t.put ⟨key, body⟩) := by
  obtain ⟨fits, -, -⟩ := keyAndBody_ok which (show (⟨rowOf key, body, [], false⟩ : Item).row = _ from rfl) rfl
  unfold insert at run
  obtain ⟨⟨landing, path⟩, s1, walked, run⟩ := Action.bind_ok.mp run
  have finds := Walk.toKey_finds ordered fits shows_ (Walk.startAt_ok walked)
  dsimp only at run
  cases path with
  | nil => exact absurd run Action.throw_ok
  | cons f frames =>
    dsimp only at run
    obtain ⟨⟨index, leftChild, p⟩, s2, way, run⟩ := Action.bind_ok.mp run
    rw [Action.get_bind] at run
    obtain ⟨cell, encoded, run⟩ := Action.lift_bind_ok.mp run
    obtain ⟨whole, v, spilled, run⟩ := Action.bind_ok.mp run
    obtain ⟨q, placed, run⟩ := Action.lift_bind_ok.mp run
    obtain ⟨_, w, balanced, bumped⟩ := Action.bind_ok.mp run
    suffices grown : ∃ (K : Nat) (grown : Node (Limb K)) (e : Disk), w.Shows e ∧
        Changed d e t others root grown (t.put ⟨key, body⟩) by
      obtain ⟨K, grown, e, showsW, put⟩ := grown
      obtain ⟨u', again, showsU, -⟩ := bumpGeneration_run showsW
      cases bumped.symm.trans again
      exact ⟨K, grown, e, showsU, put⟩
    have gap {leaf : Node (Limb 0)} {left right : List Item}
        (at_ : Walk.At d t root leaf f frames left right ⟨f :: frames, s1⟩)
        (gap : Walk.Gap t key leaf index left right) (none_ : leftChild = none) (same : p = f.page) (still : s2 = s1) :
        ∃ (K : Nat) (grown : Node (Limb K)) (e : Disk), w.Shows e ∧ Changed d e t others root grown (t.put ⟨key, body⟩) := by
      subst none_ same still
      rw [at_.showsDisk.limits] at encoded
      exact insert_gap ordered books one which at_ gap encoded spilled placed balanced
    cases landing with
    | empty =>
      obtain ⟨leaf, g, at_, none_, first⟩ := finds
      obtain ⟨rfl, rfl⟩ := List.cons.inj at_.path
      cases way
      refine gap at_ ⟨by omega, ?_, ?_⟩ rfl rfl rfl
      · rw [first]
        exact fun _ => nofun
      · rw [Disk.rightOf_end leaf (by simp [none_])]
        exact fun _ => nofun
    | greater =>
      obtain ⟨leaf, g, above, left, right, at_, -, between⟩ := finds
      obtain ⟨rfl, rfl⟩ := List.cons.inj at_.path
      cases way
      exact gap at_ between rfl rfl rfl
    | less =>
      obtain ⟨leaf, g, above, left, right, at_, -, between⟩ := finds
      obtain ⟨rfl, rfl⟩ := List.cons.inj at_.path
      cases way
      exact gap at_ between rfl rfl rfl
    | equal =>
      obtain ⟨h, node, g, above, left, right, at_, inside, entry, equal⟩ := finds
      obtain ⟨rfl, rfl⟩ := List.cons.inj at_.path
      obtain ⟨info, found, way⟩ := Action.lift_bind_ok.mp way
      obtain ⟨_, s3, freed, way⟩ := Action.bind_ok.mp way
      obtain ⟨p', dropped, way⟩ := Action.lift_bind_ok.mp way
      cases way
      exact insert_over ordered books one which at_ inside entry equal found freed dropped encoded spilled placed balanced

end Ordered

end Edit

end TreeFile
