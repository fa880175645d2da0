import TreeFile.Cursor.Position
import TreeFile.Proofs.Database.Reopening
import TreeFile.Proofs.Freelist.Sets
import TreeFile.Proofs.Overflow.RangedReads
import TreeFile.Proofs.Tree.Entries
import TreeFile.Proofs.Tree.Removing

/-!
Counting the entries of a tree and clearing it. Both answer how many entries the tree contains. Counting leaves the
cursor where it is. Clearing leaves an empty leaf, gives all other pages of the tree to the freelist, and leaves the
other trees as they are.
-/

namespace TreeFile

open Store Disk

variable {s t : Store} {d e : Disk} {tree : TreeKind} {h : Nat}

namespace Calms

instance atomically {α : Type} (act : StoreM α) [calms : Calms act] : Calms (Store.atomically act) := by
  refine ⟨fun {s t a} run => ?_⟩
  unfold Store.atomically at run ⊢
  obtain ⟨n, q, opened, calmOpened⟩ := Pager.openSavepoint_calm s.pager
  rw [Action.bind_of_ok (onPager_ok.mpr ⟨q, opened, rfl⟩)] at run
  have opening : Store.onPager Pager.openSavepoint s.calm = .ok n (calm { s with pager := q }) :=
    onPager_ok.mpr ⟨q.calm, calmOpened, rfl⟩
  rw [Action.bind_of_ok opening]
  cases ran : act { s with pager := q } with
  | error e u =>
    rw [Action.bind_of_ok (Action.attempt_run_error ran)] at run
    obtain ⟨_, _, -, run⟩ := Action.bind_ok.mp run
    obtain ⟨_, _, -, run⟩ := Action.bind_ok.mp run
    exact absurd run Action.throw_ok
  | ok b u =>
    rw [Action.bind_of_ok (Action.attempt_run_ok ran)] at run
    rw [Action.bind_of_ok (Action.attempt_run_ok (calms.run ran))]
    obtain ⟨_, v, closed, run⟩ := Action.bind_ok.mp run
    obtain ⟨rfl, rfl⟩ := Action.pure_ok.mp run
    obtain ⟨r, released, rfl⟩ := onPager_ok.mp closed
    clear closed
    cases stack : u.pager.savepoints with
    | nil =>
      unfold Pager.releaseSavepoint at released
      rw [Action.get_bind, stack] at released
      exact absurd released Action.throw_ok
    | cons inner outer =>
      obtain ⟨r', again, calmReleased⟩ := Pager.releaseSavepoint_calm stack
      cases again.symm.trans released
      have closing : Store.onPager Pager.releaseSavepoint u.calm = .ok () (calm { u with pager := r }) :=
        onPager_ok.mpr ⟨r.calm, calmReleased, rfl⟩
      exact Action.bind_ok.mpr ⟨(), _, closing, rfl⟩

instance map {α β : Type} (f : α → β) (act : StoreM α) [Calms act] : Calms (f <$> act) := by
  rw [map_eq_pure_bind]
  infer_instance

instance mapM {α β : Type} (f : α → StoreM β) [∀ a, Calms (f a)] (list : List α) : Calms (list.mapM f) := by
  induction list with
  | nil => exact pure []
  | cons a rest ih =>
    rw [List.mapM_cons]
    infer_instance

end Calms

instance : Calms bumpGeneration := by
  refine ⟨fun {s t a} run => ?_⟩
  cases run
  rfl

namespace Tree

instance (info : CellInfo) : Calms (Overflow.freeOf info) := by
  unfold Overflow.freeOf
  cases info.overflowPage with
  | none => exact .pure ()
  | some first => exact .get (fun _ => rfl) inferInstance

instance (page : Page) (left i : Nat) (children : List PageNo) : Calms (clearCells page left i children) := by
  induction left generalizing i children with
  | zero => exact .pure children
  | succ left ih =>
    unfold clearCells
    dsimp only
    infer_instance

instance (root : PageNo) (kind : TreeKind) (left : Nat) (pending : List PageNo) (removed : Nat) :
    Calms (clearPages root kind left pending removed) := by
  induction left generalizing pending removed with
  | zero =>
    cases pending with
    | nil => exact .pure removed
    | cons number rest => exact .throw _
  | succ left ih =>
    cases pending with
    | nil => exact .pure removed
    | cons number rest =>
      rw [clearPages_cons]
      unfold visit
      dsimp only
      infer_instance

instance (root : PageNo) : Calms (clear root) := by
  unfold clear
  exact .andThen inferInstance fun page => .get (fun _ => rfl) inferInstance

end Tree

instance (t : TreeRef) (left : Nat) (page : PageNo) : Calms (Cursor.countFrom t left page) := by
  induction left generalizing page with
  | zero => exact .throw _
  | succ left ih =>
    unfold Cursor.countFrom
    dsimp only
    infer_instance

instance (root : PageNo) : Calms (Database.checkRoot root) := by
  unfold Database.checkRoot
  exact .get (fun _ => rfl) inferInstance

instance (root : PageNo) : Calms (Database.clearTree root) := by
  unfold Database.clearTree
  infer_instance

theorem Store.atomically_run {α : Type} {act : StoreM α} {a : α} {P : Disk → Prop} (shows_ : s.Shows d)
    (body : ∀ u : Store, u.Shows d → ∃ e t, act u = .ok a t ∧ t.Shows e ∧ u.Steady t ∧ P e) :
    ∃ e t, atomically act s = .ok a t ∧ t.Shows e ∧ P e := by
  obtain ⟨q, n, opened, showsQ, saved⟩ := shows_.openSavepoint
  obtain ⟨e, u, ran, showsU, steady, holds⟩ := body _ showsQ
  obtain ⟨inner, stack⟩ := Pager.opened_of_saved (steady.pager.saved.trans saved)
  obtain ⟨r, released, soundR, state, pagesR, closes⟩ := Pager.releaseSavepoint_run showsU.sound.pager stack
  have sameR : disk { u with pager := r } = u.disk := by
    unfold disk
    rw [pagesR, closes.maxPages]
  refine ⟨e, { u with pager := r }, atomically_ok opened ran released,
    ⟨⟨soundR, closes.pageSize.trans showsU.sound.pageSize, sameR ▸ showsU.sound.disk⟩, sameR.trans showsU.same⟩, holds⟩

namespace Cursor

theorem mapM_reads {α β : Type} {f : α → StoreM β} {g : α → β} (list : List α) (shows_ : s.Shows d)
    (runs : ∀ a ∈ list, ∀ u : Store, u.Shows d → ∃ t, f a u = .ok (g a) t ∧ t.Shows d) :
    ∃ t, list.mapM f s = .ok (list.map g) t ∧ t.Shows d := by
  induction list generalizing s with
  | nil => exact ⟨s, rfl, shows_⟩
  | cons a rest ih =>
    obtain ⟨head, others⟩ := List.forall_mem_cons.mp runs
    obtain ⟨u, first, showsU⟩ := head s shows_
    obtain ⟨t, later, showsT⟩ := ih showsU others
    refine ⟨t, ?_, showsT⟩
    rw [List.mapM_cons, Action.bind_of_ok first, Action.bind_of_ok later]
    rfl

theorem total_map {α : Type} (f : α → Nat) (a b : List α) (same : a.Perm b) : total (a.map f) = total (b.map f) := by
  induction same with
  | nil => rfl
  | cons x _ ih => simp only [List.map_cons, total_cons, ih]
  | swap x y _ => simp only [List.map_cons, total_cons]; omega
  | trans _ _ first second => exact first.trans second

theorem length_entries_node (tree : TreeKind) (node : Node (Limb h)) :
    (Item.entries tree (Limb.items (h + 1) node)).length = (Item.entries tree node.row.items).length +
      total (node.row.kids.reverse.map fun kid => (Item.entries tree (Limb.items h kid)).length) := by
  have perm := node.row.gather_perm (f := Limb.items h) (g := fun item => [item])
  rw [List.flatMap_singleton'] at perm
  have kids : ∀ list : List (Limb h), (Item.entries tree (list.flatMap (Limb.items h))).length =
      total (list.map fun kid => (Item.entries tree (Limb.items h kid)).length) := by
    intro list
    induction list with
    | nil => rfl
    | cons kid rest ih =>
      rw [List.flatMap_cons, Item.entries_append, List.length_append, ih]
      rfl
  have whole : (Item.entries tree (node.row.gather (Limb.items h) fun item => [item])).length =
      (Item.entries tree (node.row.kids.flatMap (Limb.items h) ++ node.row.items)).length :=
    ((perm.filter _).map _).length_eq
  rw [Item.entries_append, List.length_append] at whole
  rw [total_map _ _ _ (List.reverse_perm _), ← kids, Limb.items_node, whole]
  exact Nat.add_comm _ _

theorem own_count {p : Page} {node : Node (Limb h)} (t : TreeRef) (mirrors : p.Mirrors d t.kind node)
    (clear : p.parked = []) (hangs : d.Hangs t.kind node.row) :
    (if p.isLeaf || t.kind = .index then p.cellCount else 0) = (Item.entries t.kind node.row.items).length := by
  have own := Tree.entryCount_eq mirrors clear fun item member => (hangs.items item member).fits
  have length : (Item.entries t.kind node.row.items).length = (entryItems node.row.items).length := List.length_map _
  rw [length, ← own]
  unfold Tree.entryCount Page.isLeaf
  rw [mirrors.is.kind]
  cases h <;> cases t.kind <;> rfl

theorem countFrom_run {node : Node (Limb h)} (t : TreeRef) {left : Nat} (shows_ : s.Shows d)
    (limb : d.LimbAt t.kind (h + 1) node) (deep : h < left) :
    ∃ u, countFrom t left node.page s = .ok (Item.entries t.kind (Limb.items (h + 1) node)).length u ∧ u.Shows d := by
  induction left generalizing s h with
  | zero => exact absurd deep (Nat.not_lt_zero h)
  | succ left ih =>
    obtain ⟨nodeAt, hangs⟩ := (limbAt_node node).mp limb
    obtain ⟨p, s1, loaded, shows1, -, is, clear, bears⟩ := loadPage_run shows_ nodeAt.page
    have mirrors : p.Mirrors d t.kind node := ⟨is, bears⟩
    have own := own_count t mirrors clear hangs
    unfold countFrom
    rw [Action.bind_of_ok loaded, own]
    cases h with
    | zero =>
      rw [mirrors.isLeaf]
      exact ⟨s1, rfl, shows1⟩
    | succ h =>
      rw [length_entries_node, mirrors.isLeaf, if_neg (by simp), mirrors.children_run clear hangs, Action.lift_ok_bind]
      obtain ⟨u, below, showsU⟩ := mapM_reads (f := fun kid : Limb (h + 1) => countFrom t left (Node.page kid))
        (g := fun kid => (Item.entries t.kind (Limb.items (h + 1) kid)).length) node.row.kids.reverse shows1
        fun kid member u showsU => ih showsU (hangs.kids kid (List.mem_reverse.mp member)) (Nat.lt_of_succ_lt_succ deep)
      refine ⟨u, ?_, showsU⟩
      rw [← List.map_reverse, List.mapM_map]
      exact Action.bind_ok.mpr ⟨_, u, below, rfl⟩

theorem countFrom_deep {node : Node (Limb h)} (t : TreeRef) {left : Nat} (shows_ : s.Shows d)
    (limb : d.LimbAt t.kind (h + 1) node) (deep : left ≤ h) : ∃ e u, countFrom t left node.page s = .error e u := by
  induction left generalizing s h with
  | zero => exact ⟨_, _, rfl⟩
  | succ left ih =>
    obtain ⟨nodeAt, hangs⟩ := (limbAt_node node).mp limb
    obtain ⟨p, s1, loaded, shows1, -, is, clear, bears⟩ := loadPage_run shows_ nodeAt.page
    have mirrors : p.Mirrors d t.kind node := ⟨is, bears⟩
    unfold countFrom
    rw [Action.bind_of_ok loaded]
    cases h with
    | zero => exact absurd deep (Nat.not_succ_le_zero left)
    | succ h =>
      have last : node.row.last ∈ node.row.kids := List.mem_append_right _ (List.mem_singleton_self _)
      obtain ⟨e, u, failed⟩ := ih shows1 (hangs.kids _ last) (Nat.le_of_succ_le_succ deep)
      refine ⟨e, u, ?_⟩
      have reversed : node.row.kids.reverse = node.row.last :: (node.row.cells.map Prod.fst).reverse := by
        unfold Row.kids
        rw [List.reverse_append]
        rfl
      rw [mirrors.isLeaf, if_neg (by simp), mirrors.children_run clear hangs, Action.lift_ok_bind,
        ← List.map_reverse, reversed, List.map_cons, List.mapM_cons, bind_assoc]
      exact Action.bind_of_error failed

theorem countFrom_tree (b : Tree) (t : TreeRef) (kind : t.kind = b.kind) (shows_ : s.Shows d)
    (limb : d.LimbAt b.kind (b.height + 1) b.root) {n : Nat} {u : Store}
    (run : countFrom t maxDepth b.root.page s = .ok n u) : b.height < maxDepth ∧ n = b.entries.length := by
  rw [← kind] at limb
  rcases Nat.lt_or_ge b.height maxDepth with fits | deep
  · obtain ⟨v, counted, -⟩ := countFrom_run t shows_ limb fits
    refine ⟨fits, ?_⟩
    rw [run] at counted
    cases counted
    rw [kind]
    rfl
  · obtain ⟨e, v, failed⟩ := countFrom_deep t shows_ limb deep
    cases run.symm.trans failed

theorem count_ok {x y : Seated} {n : Nat} (run : count x = .ok n y) :
    y.cursor = x.cursor ∧ ∃ u, countFrom x.cursor.tree maxDepth x.cursor.tree.root x.store = .ok n u := by
  unfold count at run
  obtain ⟨t, x1, here, run⟩ := Action.bind_ok.mp run
  cases here
  obtain ⟨_, x2, opened, run⟩ := Action.bind_ok.mp run
  unfold checkOpen at opened
  rw [Action.get_bind] at opened
  split at opened
  · exact absurd opened Action.throw_ok
  · cases opened
    obtain ⟨u, counted, rfl⟩ := Action.zoom_ok.mp run
    exact ⟨rfl, u, counted⟩

end Cursor

namespace Freelist

theorem found_released {trunks more : List Trunk} {owned others gone : List Nat} (ledger : d.Ledger trunks owned)
    (ledgerE : e.Ledger more others) (alike : Alike d e) (count : e.count = d.count)
    (perm : owned.Perm (gone ++ others)) : (found more).pages.Perm (gone ++ (found trunks).pages) := by
  have part := ledger.part.perm (perm.append_left _)
  have partE : e.Partition (Trunk.allPages trunks ++ (gone ++ others)) := part.congr alike count
  have whole : (Trunk.allPages more ++ others).Perm (Trunk.allPages trunks ++ gone ++ others) := by
    rw [List.append_assoc]
    exact (List.perm_ext_iff_of_nodup ledgerE.part.once partE.once).mpr fun n =>
      (ledgerE.part.all n).trans (partE.all n).symm
  have free := (List.perm_append_right_iff others).mp whole
  exact (found_perm more).trans (free.trans (List.perm_append_comm.trans ((found_perm trunks).symm.append_left gone)))

end Freelist

namespace Database

variable {b : Tree} {rest : List Tree}

structure Emptied (d : Disk) (b : Tree) (rest : List Tree) (s t : Store) : Prop where
  disk : ∃ e, t.Shows e ∧ e.LimbAt b.kind 1 b.barren.root ∧ e.Has b.root.page ∧
    ∀ tree ∈ rest, e.LimbAt tree.kind (tree.height + 1) tree.root ∧ ∀ n ∈ tree.pages, e.Has n
  freed : ∃ f g, Freelist.Finds s f ∧ Freelist.Finds t g ∧ g.pages.Perm (b.root.row.hanging ++ f.pages)

theorem clearTree_run (shows_ : s.Shows d) (forest : Forest d (b :: rest)) :
    ∃ t, clearTree b.root.page s = .ok b.entries.length t ∧ Emptied d b rest s t := by
  obtain ⟨stands, others⟩ := List.forall_mem_cons.mp forest.stands
  have has := (forest.books.has List.mem_cons_self).1
  obtain ⟨trunks, ledger⟩ := forest.books
  obtain ⟨e, t, run, showsT, cleared⟩ := Store.atomically_run (a := (entryItems b.items).length)
    (P := fun e => Tree.Cleared d e b (rest.flatMap Tree.pages)) shows_ fun u showsU =>
      Tree.clear_run b showsU stands.limb ⟨trunks, ledger⟩ forest.one_rest
  have checked : checkRoot b.root.page s = .ok () s := by
    unfold checkRoot
    rw [Action.get_bind, if_neg]
    · rfl
    · simp only [shows_.count, Bool.or_eq_true, decide_eq_true_eq]
      rintro (zero | past)
      · exact Nat.pos_iff_ne_zero.mp has.1 zero
      · exact Nat.not_lt_of_le has.2 past
  have frame := cleared.frame.mono (fun _ => id) fun n away own => away (List.mem_cons_of_mem _ own)
  have owned : ∀ n ∈ rest.flatMap Tree.pages, e.Has n ∧ e.isReserved n = false := fun n own =>
    cleared.books.has (List.mem_cons_of_mem _ own)
  obtain ⟨more, ledgerE⟩ := cleared.books
  refine ⟨t, ?_, ⟨e, showsT, cleared.limb, (ledgerE.has_owned List.mem_cons_self).1, fun tree member => ⟨?_, fun n own => ?_⟩⟩,
    Freelist.found trunks, Freelist.found more, Freelist.finds_of_shelf shows_ ledger.listing.shelf,
    Freelist.finds_of_shelf showsT ledgerE.listing.shelf,
    Freelist.found_released ledger ledgerE cleared.frame.alike cleared.count ?_⟩
  · unfold clearTree
    rw [Action.bind_of_ok checked, run]
    unfold Tree.entries Item.entries
    rw [List.length_map]
  · exact ((others tree member).stay shows_.disk_sound showsT.disk_sound frame owned fun n =>
      Forest.rest_pages member).limb
  · exact (owned n (Forest.rest_pages member own)).1
  · have pages : (b :: rest).flatMap Tree.pages =
        b.root.page :: (b.root.row.hanging ++ rest.flatMap Tree.pages) := rfl
    rw [pages]
    exact List.perm_middle.symm

end Database

theorem Contents.entries?_calm (s : Store) (root : PageNo) : Contents.entries? s.calm root = Contents.entries? s root :=
  Store.Twins.entries? (s := s) (t := s.calm) ⟨rfl, rfl, rfl, rfl⟩ root

theorem Contents.page?_calm (s : Store) (number : PageNo) : Contents.page? s.calm number = Contents.page? s number :=
  Store.Twins.page? (s := s) (t := s.calm) ⟨rfl, rfl, rfl, rfl⟩ number

namespace Integrity

open Contents

variable {roots : List PageNo} {trees : List Tree} {b : Tree}

/-- In a file in which a check finds nothing the entries of a tree are what its pages say, whether the file refuses
calls or not. A cursor on the tree that counts them answers how many there are and stays where it is. Clearing the
tree answers the same number. Its root is an empty leaf then, of the same kind, the freelist has grown by the pages
below the root and those of all overflow chains, and the other trees have the entries they had. -/
theorem count_and_clear_agree (shows_ : s.calm.Shows d) (whole : Whole d roots trees) (member : b ∈ trees) :
    entries? s b.root.page = (if b.height < maxDepth then some b.entries else none) ∧
    (∀ (x y : Seated) (n : Nat), x.store = s → x.cursor.tree.root = b.root.page → x.cursor.tree.kind = b.kind →
      Cursor.count x = .ok n y →
        entries? s b.root.page = some b.entries ∧ n = b.entries.length ∧ y.cursor = x.cursor) ∧
    (Database.clearTree b.root.page).run' s.calm = some b.entries.length ∧
    ∀ n t, Database.clearTree b.root.page s = .ok n t → n = b.entries.length ∧
      entries? t b.root.page = some [] ∧
      (∃ p, page? t b.root.page = some p ∧ p.kind = .leaf b.kind ∧ p.cellCount = 0) ∧
      (∃ f g, Freelist.Finds s.calm f ∧ Freelist.Finds t.calm g ∧ g.pages.Perm (b.root.row.hanging ++ f.pages)) ∧
      ∀ other ∈ trees, other ≠ b → entries? t other.root.page = entries? s other.root.page := by
  obtain ⟨front, back, rfl⟩ := List.append_of_mem member
  have swap : (front ++ b :: back).Perm (b :: (front ++ back)) := List.perm_middle
  have forest := whole.forest.perm swap
  have reads : ∀ tree ∈ b :: (front ++ back),
      entries? s tree.root.page = if tree.height < maxDepth then some tree.entries else none := by
    intro tree among
    rw [← entries?_calm]
    exact entries?_tree tree shows_ (forest.stands tree among).limb fun n inside =>
      (forest.books.has (List.mem_flatMap.mpr ⟨tree, among, inside⟩)).1
  have own := reads b List.mem_cons_self
  obtain ⟨u, run, emptied⟩ := Database.clearTree_run shows_ forest
  refine ⟨own, fun x y n store root kind counted => ?_, Action.run'_of_ok run, fun n t cleared => ?_⟩
  · obtain ⟨same, v, counted⟩ := Cursor.count_ok counted
    rw [store, root] at counted
    obtain ⟨fits, answer⟩ := Cursor.countFrom_tree b _ kind shows_ (forest.stands b List.mem_cons_self).limb
      (Calms.run counted)
    exact ⟨own.trans (if_pos fits), answer, same⟩
  · cases run.symm.trans (Calms.run cleared)
    obtain ⟨⟨e, showsT, barren, has, stay⟩, freed⟩ := emptied
    refine ⟨rfl, ?_, ?_, freed, fun other among apart => ?_⟩
    · rw [← entries?_calm]
      exact entries?_tree b.barren showsT barren fun n inside => List.mem_singleton.mp inside ▸ has
    · obtain ⟨p, page, is, clear, bears⟩ := page?_of_at showsT barren.1
      exact ⟨p, (page?_calm t _).symm.trans page, is.kind, bears.count clear⟩
    · have later := (List.mem_cons.mp (swap.mem_iff.mp among)).resolve_left apart
      obtain ⟨limb, pages⟩ := stay other later
      rw [reads other (List.mem_cons_of_mem _ later), ← entries?_calm]
      exact entries?_tree other showsT limb pages

/-- A table on page 2 with two rows on two leaves. -/
theorem count_and_clear_agree_planted : planted.calm.Shows planted.disk ∧ ∃ trees, Whole planted.disk [2] trees ∧
    ∃ b ∈ trees, b.root.page = 2 ∧ b.entries.length = 2 ∧ ∃ t, Database.clearTree 2 planted = .ok 2 t ∧
      entries? t 2 = some [] ∧ ∃ f g, Freelist.Finds planted.calm f ∧ Freelist.Finds t.calm g ∧
        g.pages.Perm (b.root.row.hanging ++ f.pages) := by
  have calm : planted.calm = planted := Store.calm_self rfl
  have shows_ : planted.calm.Shows planted.disk := calm ▸ planted_shows
  obtain ⟨trees, whole⟩ := planted_whole
  have listed : 2 ∈ trees.map fun tree => tree.root.page :=
    whole.listed_roots ▸ List.mem_cons_of_mem 1 (List.mem_singleton_self 2)
  obtain ⟨b, member, isRoot⟩ := List.mem_map.mp listed
  obtain ⟨own, -, clears, after⟩ := count_and_clear_agree shows_ whole member
  rw [isRoot] at own after
  rw [isRoot, calm] at clears
  have read : (entries? planted 2).map List.length = some 2 := by decide +kernel
  have two : b.entries.length = 2 := by
    rw [own] at read
    split at read
    · exact Option.some.inj read
    · cases read
  rw [two] at clears
  obtain ⟨t, run⟩ := Action.run_some clears
  obtain ⟨-, empty, -, freed, -⟩ := after 2 t run
  exact ⟨shows_, trees, whole, b, member, isRoot, two, t, run, empty, freed⟩

end Integrity

end TreeFile
