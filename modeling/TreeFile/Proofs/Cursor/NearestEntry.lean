import TreeFile.Proofs.Cursor.Seeking
import TreeFile.Proofs.Integrity.File

/-!
The nearest entry. A seek answers whether an entry suits: the one with the key, the first one from there
on, or the last one up to there. If so, the cursor is on it and reads what it holds.
-/

namespace TreeFile

variable {d : Disk} {t : TreeRef} {H : Nat} {root : Node (Limb H)}

def TreeRef.Suits (t : TreeRef) (key : Key) (item : Item) : SeekBias → Prop
  | .exact => t.side key item = .eq
  | .ge => t.side key item ≠ .lt
  | .le => t.side key item ≠ .gt

/-- The entry will do, and of all entries that will do it is the nearest to the key. -/
def TreeRef.Nearest (t : TreeRef) (key : Key) (bias : SeekBias) (entries : List Item) (item : Item) : Prop :=
  item ∈ entries ∧ t.Suits key item bias ∧ ∀ other ∈ entries, t.Suits key other bias → other = item ∨
    match bias with
    | .exact => False
    | .ge => Item.Before t.kind t.order item other
    | .le => Item.Before t.kind t.order other item

theorem mem_entryItems {items : List Item} {item : Item} :
    item ∈ entryItems items ↔ item ∈ items ∧ item.divider = false := by
  unfold entryItems
  rw [List.mem_filter, Bool.not_eq_true']

namespace Walk

variable {before behind : List Item} {item : Item} {w v : Walk} {key : Key}

theorem OnItem.entry (on : OnItem d t root before item behind w) :
    item ∈ entryItems (Limb.items (H + 1) root) := by
  obtain ⟨_, _, _, _, _, _, -, -, -, entry, -, -⟩ := id on
  refine mem_entryItems.mpr ⟨?_, entry⟩
  rw [on.items]
  exact List.mem_append_right _ List.mem_cons_self

theorem OnItem.entry_cases (on : OnItem d t root before item behind w) {other : Item}
    (member : other ∈ entryItems (Limb.items (H + 1) root)) :
    other.divider = false ∧ (other ∈ before ∨ other = item ∨ other ∈ behind) := by
  obtain ⟨inside, entry⟩ := mem_entryItems.mp member
  rw [on.items] at inside
  exact ⟨entry, (List.mem_append.mp inside).imp_right List.mem_cons.mp⟩

section Choosing

variable (low : ∀ other ∈ before, other.divider = false → t.side key other = .lt)
  (high : ∀ other ∈ behind, other.divider = false → t.side key other = .gt)

include low in
theorem OnItem.nearest_ge (on : OnItem d t root before item behind w) (ordered : t.Ordered d root)
    (here : t.side key item ≠ .lt) : t.Nearest key .ge (entryItems (Limb.items (H + 1) root)) item := by
  refine ⟨on.entry, here, fun other among suits => ?_⟩
  obtain ⟨entry, first | same | later⟩ := on.entry_cases among
  · exact absurd (low other first entry) suits
  · exact .inl same
  · exact .inr ((on.sorted ordered).2 other later)

include high in
theorem OnItem.nearest_le (on : OnItem d t root before item behind w) (ordered : t.Ordered d root)
    (here : t.side key item ≠ .gt) : t.Nearest key .le (entryItems (Limb.items (H + 1) root)) item := by
  refine ⟨on.entry, here, fun other among suits => ?_⟩
  obtain ⟨entry, first | same | later⟩ := on.entry_cases among
  · exact .inr ((on.sorted ordered).1 other first)
  · exact .inl same
  · exact absurd (high other later entry) suits

include low high

theorem OnItem.nearest_exact (on : OnItem d t root before item behind w) (here : t.side key item = .eq) :
    t.Nearest key .exact (entryItems (Limb.items (H + 1) root)) item := by
  refine ⟨on.entry, here, fun other among suits => ?_⟩
  change t.side key other = .eq at suits
  obtain ⟨entry, first | same | later⟩ := on.entry_cases among
  · rw [low other first entry] at suits
    cases suits
  · exact .inl same
  · rw [high other later entry] at suits
    cases suits

theorem OnItem.none_exact (on : OnItem d t root before item behind w) (here : t.side key item ≠ .eq) :
    ∀ other ∈ entryItems (Limb.items (H + 1) root), ¬ t.Suits key other .exact := by
  intro other among suits
  change t.side key other = .eq at suits
  obtain ⟨entry, first | rfl | later⟩ := on.entry_cases among
  · rw [low other first entry] at suits
    cases suits
  · exact here suits
  · rw [high other later entry] at suits
    cases suits

end Choosing

variable (ordered : t.Ordered d root)

include ordered

theorem next_nearest {found : Bool} (beside : Beside d t root key .lt w) (run : next t w = .ok found v) :
    if found then ∃ before item behind, OnItem d t root before item behind v ∧
      t.Nearest key .ge (entryItems (Limb.items (H + 1) root)) item
    else ∀ item ∈ entryItems (Limb.items (H + 1) root), ¬ t.Suits key item .ge := by
  obtain ⟨before, item, behind, on, here, low, high⟩ := beside
  have step := next_at ordered.stands on run
  cases found with
  | true =>
    obtain ⟨between, item', behind', rfl, dividers, on'⟩ := step
    have entry := (mem_entryItems.mp on'.entry).2
    have more := high item' (List.mem_append_right _ List.mem_cons_self) entry
    refine ⟨_, item', behind', on', on'.nearest_ge (fun other member isEntry => ?_) ordered ?_⟩
    · rcases List.mem_append.mp member with first | rest
      · exact low other first isEntry
      rcases List.mem_cons.mp rest with rfl | skipped
      · exact here
      · rw [dividers other skipped] at isEntry
        cases isEntry
    · rw [more]
      nofun
  | false =>
    intro other among suits
    change behind = [] at step
    subst step
    obtain ⟨entry, first | rfl | later⟩ := on.entry_cases among
    · exact suits (low other first entry)
    · exact suits here
    · cases later

theorem previous_nearest {found : Bool} (beside : Beside d t root key .gt w) (run : previous t w = .ok found v) :
    if found then ∃ before item behind, OnItem d t root before item behind v ∧
      t.Nearest key .le (entryItems (Limb.items (H + 1) root)) item
    else ∀ item ∈ entryItems (Limb.items (H + 1) root), ¬ t.Suits key item .le := by
  obtain ⟨before, item, behind, on, here, low, high⟩ := beside
  have step := previous_at ordered.stands on run
  cases found with
  | true =>
    obtain ⟨before', item', between, rfl, dividers, on'⟩ := step
    have entry := (mem_entryItems.mp on'.entry).2
    have less := low item' (List.mem_append_right _ List.mem_cons_self) entry
    refine ⟨before', item', _, on', on'.nearest_le (fun other member isEntry => ?_) ordered ?_⟩
    · rcases List.mem_append.mp member with skipped | rest
      · rw [dividers other skipped] at isEntry
        cases isEntry
      rcases List.mem_cons.mp rest with rfl | later
      · exact here
      · exact high other later isEntry
    · rw [less]
      nofun
  | false =>
    intro other among suits
    change before = [] at step
    subst step
    obtain ⟨entry, first | rfl | later⟩ := on.entry_cases among
    · cases first
    · exact suits here
    · exact suits (high other later entry)

/-- Where a search has ended, the step that may follow leads to the entry that does best, if any does. -/
theorem accept_ok {bias : SeekBias} {landing : Landing} {found : Bool} (lands : Lands d t root key w landing)
    (run : Cursor.accept t bias landing w = .ok found v) :
    if found then ∃ before item behind, OnItem d t root before item behind v ∧
      t.Nearest key bias (entryItems (Limb.items (H + 1) root)) item
    else ∀ item ∈ entryItems (Limb.items (H + 1) root), ¬ t.Suits key item bias := by
  cases landing with
  | empty =>
    cases run
    intro item member
    rw [show Limb.items (H + 1) root = [] from lands] at member
    cases member
  | equal =>
    cases run
    obtain ⟨before, item, behind, on, here, low, high⟩ := lands
    refine ⟨before, item, behind, on, ?_⟩
    cases bias with
    | exact => exact on.nearest_exact low high here
    | le => exact on.nearest_le high ordered (by rw [here]; nofun)
    | ge => exact on.nearest_ge low ordered (by rw [here]; nofun)
  | greater =>
    cases bias with
    | exact =>
      cases run
      obtain ⟨before, item, behind, on, here, low, high⟩ := lands
      exact on.none_exact low high (by rw [here]; nofun)
    | le => exact previous_nearest ordered lands run
    | ge =>
      cases run
      obtain ⟨before, item, behind, on, here, low, high⟩ := lands
      exact ⟨before, item, behind, on, on.nearest_ge low ordered (by rw [here]; nofun)⟩
  | less =>
    cases bias with
    | exact =>
      cases run
      obtain ⟨before, item, behind, on, here, low, high⟩ := lands
      exact on.none_exact low high (by rw [here]; nofun)
    | le =>
      cases run
      obtain ⟨before, item, behind, on, here, low, high⟩ := lands
      exact ⟨before, item, behind, on, on.nearest_le high ordered (by rw [here]; nofun)⟩
    | ge => exact next_nearest ordered lands run

end Walk

instance KeepsGeneration.frameKey (kind : TreeKind) (f : Frame) : KeepsGeneration (f.key kind) := by
  unfold Frame.key
  cases kind <;> infer_instance

theorem Walk.OnItem.afterKey {t : TreeRef} {before behind : List Item} {item : Item} {w : Walk} {f : Frame}
    {above : Path} {key : Key} {u : Store} (on : OnItem d t root before item behind w) (ordered : t.Ordered d root)
    (path : w.path = f :: above) (read : f.key t.kind w.store = .ok key u) :
    OnItem d t root before item behind ⟨w.path, u⟩ := by
  obtain ⟨h, node, g, frames, left, right, at_, inside, same⟩ := on
  obtain ⟨u', run, showsU⟩ := at_.key_run ordered inside at_.showsDisk
  cases at_.path.symm.trans path
  cases run.symm.trans read
  exact ⟨h, node, f, above, left, right, ⟨showsU, at_.path, at_.trail, at_.mirrors, at_.clear⟩, inside, same⟩

theorem Integrity.Whole.ordered {roots : List PageNo} {trees : List Tree} (whole : Whole d roots trees) {tree : Tree}
    (member : tree ∈ trees) : TreeRef.Ordered ⟨tree.root.page, tree.kind, .binary⟩ d tree.root := by
  have stands := whole.stands tree member
  refine .of_pages rfl stands.limb stands.sorted (fun n among => ?_) ?_
  · exact (whole.books.has (List.mem_flatMap.mpr ⟨tree, member, among⟩)).1
  · refine whole.books.nodup.sublist ?_
    rw [List.flatMap_def]
    exact List.sublist_flatten_of_mem (List.mem_map_of_mem member)

namespace Cursor

variable {s u v : Seated} {item : Item} {before behind : List Item} {f : Frame} {above : Path}

/-- The cursor is on the item: it is valid, and what it reads is what the item holds. -/
structure Rests (s : Seated) (item : Item) : Prop where
  valid : s.cursor.state = .valid
  payload : ∃ u, Cursor.payload s = .ok item.payload u
  row : s.cursor.tree.kind = .table → ∃ u, Cursor.rowId s = .ok item.row u
  key : s.cursor.tree.kind = .index → ∃ u, Cursor.key s = .ok item.payload u

theorem walk_ok {α : Type} {act : WalkM α} {a : α} : walk act s = .ok a u ↔
    ∃ w, act ⟨s.cursor.path, s.store⟩ = .ok a w ∧ u = { s with cursor.path := w.path, store := w.store } :=
  Action.zoom_ok

theorem onStore_ok {α : Type} {act : StoreM α} {a : α} : onStore act s = .ok a u ↔
    ∃ t, act s.store = .ok a t ∧ u = { s with store := t } := Action.zoom_ok

theorem top_run (path : s.cursor.path = f :: above) : walk Walk.top s = .ok f s :=
  walk_ok.mpr ⟨_, Walk.top_run path, rfl⟩

theorem top_ok (run : walk Walk.top s = .ok f u) : u = s ∧ ∃ above, s.cursor.path = f :: above := by
  obtain ⟨w, top, rfl⟩ := walk_ok.mp run
  obtain ⟨rfl, found⟩ := Walk.top_ok top
  exact ⟨rfl, found⟩

theorem keyHere_ok {key : Key} (run : keyHere s = .ok key u) : ∃ f above t, s.cursor.path = f :: above ∧
    f.key s.cursor.tree.kind s.store = .ok key t ∧ u = { s with store := t } := by
  unfold keyHere at run
  obtain ⟨f, v, atTop, rest⟩ := Action.bind_ok.mp run
  obtain ⟨rfl, above, path⟩ := top_ok atTop
  obtain ⟨tree, v', target, last⟩ := Action.bind_ok.mp rest
  cases target
  unfold Frame.key
  cases kind : v.cursor.tree.kind with
  | table =>
    rw [kind] at last
    obtain ⟨info, found, done⟩ := Action.lift_bind_ok.mp last
    cases done
    refine ⟨f, above, _, path, ?_, rfl⟩
    dsimp only
    rw [found]
    rfl
  | index =>
    rw [kind] at last
    obtain ⟨body, v', onStore, done⟩ := Action.bind_ok.mp last
    obtain ⟨t, read, rfl⟩ := onStore_ok.mp onStore
    cases done
    exact ⟨f, above, t, path, Action.bind_of_ok read, rfl⟩

theorem settle_ok {found answer : Bool} (run : settle found s = .ok answer u) : answer = found ∧
    if found then u.cursor.state = .valid ∧ u.cursor.tree = s.cursor.tree ∧ u.cursor.path = s.cursor.path ∧
      u.cursor.generation = u.store.generation ∧
      ∃ f above key, s.cursor.path = f :: above ∧ f.key s.cursor.tree.kind s.store = .ok key u.store
    else u.cursor.state = .invalid := by
  unfold settle at run
  obtain ⟨generation, v, asked, run⟩ := Action.bind_ok.mp run
  cases asked
  rw [update, Action.modify_bind] at run
  cases found with
  | false =>
    cases run
    exact ⟨rfl, rfl⟩
  | true =>
    obtain ⟨key, v, here, run⟩ := Action.bind_ok.mp run
    obtain ⟨f, above, t, path, read, rfl⟩ := keyHere_ok here
    cases run
    refine ⟨rfl, rfl, rfl, rfl, ?_, f, above, key, path, read⟩
    have kept := (KeepsGeneration.frameKey s.cursor.tree.kind f).stays s.store
    rw [Action.final_of_ok read] at kept
    exact Eq.symm kept

theorem current_bind {α : Type} (f : Cursor → CursorM α) : (current >>= f) s = f s.cursor s := rfl

theorem target_bind {α : Type} (f : TreeRef → CursorM α) : (target >>= f) s = f s.cursor.tree s := rfl

theorem storeGeneration_bind {α : Type} (f : Nat → CursorM α) :
    (storeGeneration >>= f) s = f s.store.generation s := rfl

theorem checkOpen_ok (run : checkOpen s = .ok () u) : s.store.isOpen = true ∧ u = s := by
  unfold checkOpen at run
  rw [Action.get_bind] at run
  cases isOpen : s.store.isOpen with
  | false =>
    rw [isOpen] at run
    exact absurd run Action.throw_ok
  | true =>
    rw [isOpen] at run
    obtain ⟨-, rfl⟩ := Action.pure_ok.mp run
    exact ⟨rfl, rfl⟩

theorem restore_run (valid : s.cursor.state = .valid) (fresh : s.cursor.generation = s.store.generation) :
    restore s = .ok () s := by
  have isCurrent : s.cursor.isCurrent s.store.generation = true := by
    unfold Cursor.isCurrent
    rw [valid, fresh, beq_self_eq_true, beq_self_eq_true]
    rfl
  unfold restore
  rw [current_bind, valid, if_neg (by nofun), storeGeneration_bind, isCurrent]
  rfl

theorem entryFrame_run (path : s.cursor.path = f :: above) (valid : s.cursor.state = .valid)
    (isOpen : s.store.isOpen = true) (fresh : s.cursor.generation = s.store.generation) :
    entryFrame s = .ok f s := by
  have opened : checkOpen s = .ok () s := by
    unfold checkOpen
    rw [Action.get_bind, isOpen]
    rfl
  have there : requireEntry s = .ok () s := by
    unfold requireEntry
    rw [Action.bind_of_ok (restore_run valid fresh), current_bind, valid]
    rfl
  unfold entryFrame
  rw [Action.bind_of_ok opened, Action.bind_of_ok there]
  exact top_run path

/-- An item the path leads to can be read, if the path is the last one that the cursor took. -/
theorem rests_of_onItem (ordered : s.cursor.tree.Ordered d root)
    (on : Walk.OnItem d s.cursor.tree root before item behind ⟨s.cursor.path, s.store⟩)
    (valid : s.cursor.state = .valid) (isOpen : s.store.isOpen = true)
    (fresh : s.cursor.generation = s.store.generation) : Rests s item := by
  obtain ⟨h, node, f, frames, left, right, at_, inside, rfl, -, -, -⟩ := on
  obtain ⟨⟨info, found, isRow⟩, u, read, -⟩ := at_.reads ordered inside at_.showsDisk
  have frame := entryFrame_run at_.path valid isOpen fresh
  have payload : ∃ u, Cursor.payload s = .ok (node.row.item f.index).payload u := by
    unfold Cursor.payload
    rw [Action.bind_of_ok frame]
    exact ⟨_, onStore_ok.mpr ⟨u, read, rfl⟩⟩
  refine ⟨valid, payload, fun isTable => ?_, fun isIndex => ?_⟩
  · unfold rowId
    rw [target_bind, isTable, if_neg (by nofun)]
    change ∃ u, (entryFrame >>= _ : CursorM RowId) s = _
    rw [Action.bind_of_ok frame, found, ← isRow isTable]
    exact ⟨s, rfl⟩
  · unfold Cursor.key
    rw [target_bind, isIndex, if_neg (by nofun)]
    exact payload

/-- A seek that ends answers whether an entry suits it. Then the cursor is on the one that suits best. -/
theorem seek_finds {key : Key} {bias : SeekBias} {found : Bool} [Std.TransCmp s.cursor.tree.order.compare]
    (showsDisk : s.store.Shows d) (ordered : s.cursor.tree.Ordered d root) (run : seek key bias s = .ok found u) :
    (found = true ↔ ∃ item ∈ entryItems (Limb.items (H + 1) root), s.cursor.tree.Suits key item bias) ∧
    (found = true → ∃ item,
      s.cursor.tree.Nearest key bias (entryItems (Limb.items (H + 1) root)) item ∧ Rests u item) ∧
    (found = false → u.cursor.state = .invalid) := by
  have opened := (Respects.final (R := Pager.Browses) (seek key bias) s).settled.isOpen
  rw [Action.final_of_ok run] at opened
  unfold seek at run
  rw [target_bind] at run
  dsimp only at run
  split at run
  · exact absurd run Action.throw_bind_ok
  rename_i fits
  rw [Bool.not_eq_true', Bool.not_eq_false] at fits
  obtain ⟨_, s', checked, run⟩ := Action.bind_ok.mp run
  obtain ⟨isOpen, rfl⟩ := checkOpen_ok checked
  obtain ⟨landing, s1, search, run⟩ := Action.bind_ok.mp run
  obtain ⟨w, landed, rfl⟩ := walk_ok.mp search
  obtain ⟨near, s2, step, run⟩ := Action.bind_ok.mp run
  obtain ⟨v, accepted, rfl⟩ := walk_ok.mp step
  have lands := Walk.toKey_ok ordered fits showsDisk landed
  have ends := Walk.accept_ok ordered lands accepted
  obtain ⟨rfl, settled⟩ := settle_ok run
  cases found with
  | false => exact ⟨⟨nofun, fun ⟨item, among, suits⟩ => absurd suits (ends item among)⟩, nofun, fun _ => settled⟩
  | true =>
    obtain ⟨before, item, behind, on, nearest⟩ := ends
    obtain ⟨valid, tree, path, fresh, f, above, key, isPath, read⟩ := settled
    refine ⟨⟨fun _ => ⟨item, nearest.1, nearest.2.1⟩, fun _ => rfl⟩, fun _ => ⟨item, nearest, ?_⟩, nofun⟩
    have on' : Walk.OnItem d u.cursor.tree root before item behind ⟨u.cursor.path, u.store⟩ := by
      rw [tree, path]
      exact on.afterKey ordered isPath read
    exact rests_of_onItem (tree ▸ ordered) on' valid (opened.trans isOpen) fresh

def overPlanted : Seated := ⟨{ tree := ⟨2, .table, .binary⟩, writable := false }, Integrity.planted⟩

theorem overPlanted_ordered : ∃ (H : Nat) (root : Node (Limb H)),
    overPlanted.cursor.tree.Ordered Integrity.planted.disk root := by
  obtain ⟨trees, whole⟩ := Integrity.planted_whole
  have among : 2 ∈ trees.map fun tree => tree.root.page := by
    rw [whole.listed_roots]
    decide
  obtain ⟨tree, member, isRoot⟩ := List.mem_map.mp among
  have ordered := whole.ordered member
  have shown : ((Store.loadPage 2).run' Integrity.planted).map (fun page => page.kind) = some .tableInterior := by
    decide +kernel
  unfold EStateM.run' EStateM.run at shown
  have kind : tree.kind = .table := by
    cases load : Store.loadPage 2 Integrity.planted with
    | error e u =>
      rw [load] at shown
      cases shown
    | ok page u =>
      rw [load] at shown
      have isKind : page.kind = .tableInterior := Option.some.inj shown
      obtain ⟨-, -, mirrors, -⟩ := Store.loadPage_mirrors Integrity.planted_shows
        ((Disk.limbAt_node tree.root).mp ordered.stands).1 (isRoot ▸ load)
      rw [← PageKind.tree_at tree.kind tree.height, ← mirrors.is.kind, isKind]
      rfl
  rw [isRoot, kind] at ordered
  exact ⟨tree.height, tree.root, ordered⟩

theorem seek_finds_planted : ∃ (H : Nat) (root : Node (Limb H)) (u : Seated),
    overPlanted.store.Shows Integrity.planted.disk ∧ overPlanted.cursor.tree.Ordered Integrity.planted.disk root ∧
    seek (.row 9) .le overPlanted = .ok true u ∧
    ∃ item, overPlanted.cursor.tree.Nearest (.row 9) .le (entryItems (Limb.items (H + 1) root)) item ∧ Rests u item := by
  obtain ⟨H, root, ordered⟩ := overPlanted_ordered
  have answer : (seek (.row 9) .le).run' overPlanted = some true := by decide +kernel
  unfold EStateM.run' EStateM.run at answer
  cases run : seek (.row 9) .le overPlanted with
  | error e u =>
    rw [run] at answer
    cases answer
  | ok found u =>
    rw [run] at answer
    cases answer
    have : Std.TransCmp overPlanted.cursor.tree.order.compare := inferInstanceAs (Std.TransCmp KeyOrder.binary.compare)
    exact ⟨H, root, u, Integrity.planted_shows, ordered, rfl, (seek_finds Integrity.planted_shows ordered run).2.1 rfl⟩

end Cursor

end TreeFile
