import TreeFile.Proofs.Header.LargestRoot
import TreeFile.Proofs.Tree.Emptying
import TreeFile.Proofs.Vacuum.Copying

/-!
Removing trees from a file in which every page has one use. The pages of the tree become free, the trees that
stay keep their entries, and in an auto-vacuum file the last root takes the place of the one that goes.
-/

namespace TreeFile

open Store Disk PointerMap

variable {s t : Store} {d e : Disk} {tree : TreeKind} {h : Nat} {owned others : List Nat}

namespace Tree

def moved (tree : Tree) (page : PageNo) : Tree := ⟨tree.kind, tree.height, ⟨page, tree.root.row⟩⟩

theorem items_moved (tree : Tree) (page : PageNo) : (tree.moved page).items = tree.items :=
  (Limb.items_node (tree.moved page).root).trans (Limb.items_node tree.root).symm

/-- The root of a tree moves to a page that has nothing on it, and leaves its own page behind. -/
theorem relocate_run (tree : Tree) {target : PageNo} (shows_ : s.Shows d)
    (limb : d.LimbAt tree.kind (tree.height + 1) tree.root) (books : d.Books (target :: (tree.pages ++ others)))
    (one : 1 ∈ others) :
    ∃ e t, Vacuum.relocate tree.root.page ⟨.root, 0⟩ target s = .ok () t ∧ t.Shows e ∧ s.Steady t ∧
      e.LimbAt tree.kind (tree.height + 1) (tree.moved target).root ∧
      e.Books (tree.root.page :: ((tree.moved target).pages ++ others)) ∧
      Keeps d e (Freelist.Others others) (Freelist.Others others) ∧ e.count = d.count ∧
      (d.mapped = true → e.entry target = some ⟨.root, 0⟩) := by
  have swapped : d.Books (tree.root.page :: (target :: (tree.root.row.hanging ++ others))) :=
    books.perm (List.Perm.swap _ _ _)
  have parted := Balance.parted swapped.nodup (List.mem_cons_of_mem target one)
  obtain ⟨fresh, onceTarget⟩ := List.nodup_cons.mp swapped.nodup
  have targetFresh := (List.nodup_cons.mp onceTarget).1
  have apart : tree.root.page ≠ target := fun same => fresh (same ▸ List.mem_cons_self)
  have lowTarget : target ≠ 1 := fun same => targetFresh (List.mem_append_right _ (same ▸ one))
  have two := (swapped.described List.mem_cons_self (parted.low _ List.mem_cons_self)).low
  obtain ⟨d1, t1, copied, shows1, steady1, limb1, books1, quiet1⟩ := Vacuum.copyNode_run shows_ limb swapped one (.inl rfl)
  -- its own entry
  have described := books1.described (List.mem_cons_of_mem _ List.mem_cons_self) lowTarget
  obtain ⟨d2, t2, mapped, shows2, steady2, quiet2, entry⟩ := put_run (e := ⟨.root, 0⟩) shows1 described (by decide)
  obtain ⟨t3, bumped, shows3, steady3⟩ := bumpGeneration_run shows2
  have books2 := books1.of_quiet shows1.disk_sound shows3.disk_sound quiet2 (fun _ => False.elim)
    fun n same => same ▸ List.mem_cons_of_mem _ List.mem_cons_self
  refine ⟨d2, t3, ?_, shows3, steady1.trans (steady2.trans steady3), ?_, books2, ?_, ?_, ?_⟩
  · rw [Vacuum.relocate_eq apart two (swapped.described (List.mem_cons_of_mem _ List.mem_cons_self) lowTarget).low,
      Action.bind_of_ok copied]
    unfold Vacuum.settle
    rw [if_neg (not_not_intro rfl)]
    exact (Action.bind_of_ok mapped).trans bumped
  · refine limb1.keep quiet2.toKeeps shows1.disk_sound shows3.disk_sound (spared_of_books books1 books2 ?_ fun _ _ => id) ?_
    · intro n inside
      have own : n ∈ target :: (tree.root.row.hanging ++ others) :=
        (List.mem_cons.mp inside).elim (fun same => same ▸ List.mem_cons_self) fun below =>
          List.mem_cons_of_mem _ (List.mem_append_left _ below)
      exact ⟨List.mem_cons_of_mem _ own, List.mem_cons_of_mem _ own⟩
    · exact fun n below same => targetFresh (List.mem_append_left _ (same ▸ below))
  · refine (quiet1.toKeeps.mono (fun n same other => ?_) fun n near other => ?_).trans
      (quiet2.toKeeps.mono (fun _ => False.elim) fun n same other => ?_)
    · exact targetFresh (List.mem_append_right _ (same ▸ other))
    · exact parted.others n (Balance.near_hanging near) other
    · exact targetFresh (List.mem_append_right _ (same ▸ other))
  · exact quiet2.count.trans quiet1.count
  · exact fun isMapped => entry (quiet1.alike.mapped.trans isMapped)

end Tree

/-- Trees that stand apart, among them the one on the first page. No page is in use that is not one of theirs. -/
structure Forest (d : Disk) (trees : List Tree) : Prop where
  stands : ∀ tree ∈ trees, tree.Stands d
  books : d.Books (trees.flatMap Tree.pages)
  one : 1 ∈ trees.map fun tree => tree.root.page

theorem Tree.Stands.stay {b : Tree} (stands : b.Stands d) (sound : d.Sound) (soundE : e.Sound)
    (keeps : Keeps d e (Freelist.Others owned) (Freelist.Others owned))
    (has : ∀ n ∈ owned, e.Has n ∧ e.isReserved n = false) (inside : ∀ n ∈ b.pages, n ∈ owned) : b.Stands e := by
  have isRoot : b.root.page ∈ owned := inside _ List.mem_cons_self
  refine ⟨stands.limb.stay sound soundE keeps has inside, fun other mapped => ?_, stands.sorted, stands.full⟩
  have free := (keeps.alike.isReserved b.root.page).symm.trans (has _ isRoot).2
  rw [keeps.entries b.root.page free fun away => away isRoot]
  exact stands.entry other (keeps.alike.mapped.symm.trans mapped)

namespace Forest

variable {b last : Tree} {rest trees : List Tree}

theorem perm {others : List Tree} (forest : Forest d trees) (same : trees.Perm others) : Forest d others :=
  ⟨fun tree member => forest.stands tree (same.mem_iff.mpr member), forest.books.perm (same.flatMap_right _),
    (same.map _).mem_iff.mp forest.one⟩

/-- No page of the rest is one of the first tree, and page 1 is the root of that or of a tree of the rest. -/
theorem one_rest (forest : Forest d (b :: rest)) : 1 ∈ b.root.page :: rest.flatMap Tree.pages := by
  obtain ⟨tree, member, same⟩ := List.mem_map.mp forest.one
  rcases List.mem_cons.mp member with rfl | later
  · exact List.mem_cons.mpr (.inl same.symm)
  · exact List.mem_cons_of_mem _ (List.mem_flatMap.mpr ⟨tree, later, same ▸ List.mem_cons_self⟩)

theorem rest_pages {n : Nat} {tree : Tree} (member : tree ∈ rest) (inside : n ∈ tree.pages) :
    n ∈ rest.flatMap Tree.pages :=
  List.mem_flatMap.mpr ⟨tree, member, inside⟩

theorem clear_run (shows_ : s.Shows d) (forest : Forest d (b :: rest)) :
    ∃ e t, Tree.clear b.root.page s = .ok (entryItems b.items).length t ∧ t.Shows e ∧ s.Steady t ∧
      Forest e (b.barren :: rest) ∧ Keeps d e (Freelist.Others []) (Freelist.Others []) := by
  obtain ⟨stands, others⟩ := List.forall_mem_cons.mp forest.stands
  obtain ⟨e, t, run, showsT, steady, cleared⟩ := Tree.clear_run b shows_ stands.limb forest.books forest.one_rest
  have frame := cleared.frame.mono (fun _ => id) fun n away own => away (List.mem_cons_of_mem _ own)
  refine ⟨e, t, run, showsT, steady,
    ⟨List.forall_mem_cons.mpr ⟨?_, fun tree member => ?_⟩, cleared.books, forest.one⟩, frame.within (List.nil_subset _)⟩
  · refine ⟨cleared.limb, fun other mapped => ?_, List.Pairwise.nil, fun _ _ => trivial⟩
    have free := (cleared.frame.alike.isReserved b.root.page).symm.trans (cleared.books.has List.mem_cons_self).2
    have entry := stands.entry other (cleared.frame.alike.mapped.symm.trans mapped)
    exact (cleared.frame.entries b.root.page free fun away => away List.mem_cons_self).trans entry
  · refine (others tree member).stay shows_.disk_sound showsT.disk_sound frame (fun n own => ?_) fun n =>
      rest_pages member
    exact cleared.books.has (List.mem_cons_of_mem _ own)

theorem free_run (shows_ : s.Shows d) (forest : Forest d (b.barren :: rest)) (other : b.root.page ≠ 1) :
    ∃ e t, Freelist.free b.root.page s = .ok () t ∧ t.Shows e ∧ s.Steady t ∧ Forest e rest ∧
      Keeps d e (Freelist.Others []) (Freelist.Others []) := by
  obtain ⟨-, others⟩ := List.forall_mem_cons.mp forest.stands
  obtain ⟨e, t, run, showsT, steady, keeps, books, count⟩ := Freelist.free_run shows_ forest.books other
  refine ⟨e, t, run, showsT, steady, ⟨fun tree member => ?_, books, ?_⟩, keeps.within (List.nil_subset _)⟩
  · exact (others tree member).stay shows_.disk_sound showsT.disk_sound keeps (fun _ => books.has) fun n =>
      rest_pages member
  · exact (List.mem_cons.mp forest.one).resolve_left fun same => other same.symm

theorem replace_run (shows_ : s.Shows d) (forest : Forest d (b.barren :: last :: rest)) (other : b.root.page ≠ 1)
    (low : last.root.page ≠ 1) : ∃ e t, (do
        Vacuum.relocate last.root.page ⟨.root, 0⟩ b.root.page
        Freelist.free last.root.page : StoreM Unit) s = .ok () t ∧ t.Shows e ∧ s.Steady t ∧
      Forest e (last.moved b.root.page :: rest) ∧ Keeps d e (Freelist.Others []) (Freelist.Others []) := by
  obtain ⟨-, both⟩ := List.forall_mem_cons.mp forest.stands
  obtain ⟨stands, others⟩ := List.forall_mem_cons.mp both
  have one : 1 ∈ rest.map fun tree => tree.root.page :=
    (List.mem_cons.mp ((List.mem_cons.mp forest.one).resolve_left fun same => other same.symm)).resolve_left
      fun same => low same.symm
  have books : d.Books (b.root.page :: (last.pages ++ rest.flatMap Tree.pages)) := forest.books
  have inside : 1 ∈ rest.flatMap Tree.pages := by
    obtain ⟨tree, member, same⟩ := List.mem_map.mp one
    exact rest_pages member (same ▸ List.mem_cons_self)
  obtain ⟨d1, t1, run1, shows1, steady1, limb1, books1, keeps1, count1, entry1⟩ :=
    Tree.relocate_run last shows_ stands.limb books inside
  have moved1 : (last.moved b.root.page).Stands d1 :=
    ⟨limb1, fun _ mapped => entry1 (keeps1.alike.mapped.symm.trans mapped),
      (last.items_moved b.root.page).symm ▸ stands.sorted, stands.full⟩
  obtain ⟨e, t, run2, shows2, steady2, keeps2, books2, count2⟩ := Freelist.free_run shows1 books1 low
  refine ⟨e, t, ?_, shows2, steady1.trans steady2, ⟨?_, books2, List.mem_cons_of_mem _ one⟩, ?_⟩
  · rw [Action.bind_of_ok run1]
    exact run2
  · have stay : ∀ tree : Tree, tree.Stands d1 → tree ∈ last.moved b.root.page :: rest → tree.Stands e :=
      fun tree at1 member => at1.stay shows1.disk_sound shows2.disk_sound keeps2 (fun _ => books2.has) fun n =>
        rest_pages member
    refine List.forall_mem_cons.mpr ⟨stay _ moved1 List.mem_cons_self, fun tree member => ?_⟩
    refine stay tree ((others tree member).stay shows_.disk_sound shows1.disk_sound keeps1 (fun n own => ?_)
      fun n => rest_pages member) (List.mem_cons_of_mem _ member)
    exact books1.has (List.mem_cons_of_mem _ (List.mem_append_right _ own))
  · exact (keeps1.within (List.nil_subset _)).trans (keeps2.within (List.nil_subset _))

theorem setWord_run (shows_ : s.Shows d) (forest : Forest d trees) {offset value : Nat} (outside : 40 ≤ offset)
    (inside : offset + 4 ≤ 100) (small : value < 4294967296) : ∃ e t, setHeaderWord offset value s = .ok () t ∧
      t.Shows e ∧ s.Steady t ∧ Forest e trees ∧ e.word offset = value := by
  have sound := shows_.disk_sound
  obtain ⟨data, t, run, showsT, steady, word, size, same⟩ := setHeaderWord_run shows_
    (forest.books.has forest.books.one).1 inside small
  have free := isReserved_one sound
  refine ⟨_, t, run, showsT, steady, ⟨fun tree member => ?_, ?_, forest.one⟩, word⟩
  · have stands := forest.stands tree member
    have own : ∀ n ∈ tree.pages, d.Has n ∧ d.isReserved n = false := fun n inside =>
      forest.books.has (rest_pages member inside)
    refine ⟨stands.limb.agree sound showsT.disk_sound ⟨alike_put d 1 data, fun n inside => ⟨(own n inside).1, ?_⟩,
      fun n inside => ?_⟩, fun other mapped => ?_, stands.sorted, stands.full⟩
    · intro i low
      by_cases first : n = 1
      · subst first
        rw [if_pos rfl] at low
        rw [put_self]
        exact same i (.inr (by omega))
      · rw [put_other d data first]
    · exact entry_put sound n data free
    · rw [entry_put sound _ data free]
      exact stands.entry other mapped
  · exact forest.books.put_header sound fun i low high => same i (.inl (by omega))

end Forest

/-- A tree after a removal, which answered whose root had to move to the page that became free. -/
def Tree.follow (answer : Option PageNo) (page : PageNo) (tree : Tree) : Tree :=
  if answer = some tree.root.page then tree.moved page else tree

namespace Forest

variable {b : Tree} {rest : List Tree}

theorem roots_sublist (trees : List Tree) :
    (trees.map fun tree => tree.root.page).Sublist (trees.flatMap Tree.pages) := by
  induction trees with
  | nil => exact .slnil
  | cons tree rest ih => exact (ih.trans (List.sublist_append_right tree.root.row.hanging _)).cons_cons tree.root.page

theorem follow_other {answer : Option PageNo} {page : PageNo} (away : ∀ tree ∈ rest, answer ≠ some tree.root.page) :
    rest.map (Tree.follow answer page) = rest :=
  (List.map_congr_left fun tree member => if_neg (away tree member)).trans (List.map_id' rest)

theorem lower_run {trees : List Tree} (answer : Option PageNo) {largest : Nat} (shows_ : s.Shows d)
    (forest : Forest d trees) (small : largest < 4294967296) : ∃ e t, (do
        setHeaderWord FileHeader.largestRootOffset ((← get).lastUnreserved (largest - 1))
        bumpGeneration
        return answer : StoreM (Option PageNo)) s = .ok answer t ∧ t.Shows e ∧ Forest e trees := by
  have low : s.lastUnreserved (largest - 1) < 4294967296 :=
    Nat.lt_of_le_of_lt (Nat.le_trans (s.lastUnreserved_le _) (Nat.sub_le _ _)) small
  obtain ⟨e, t1, run1, shows1, -, forest1, -⟩ := forest.setWord_run shows_
    (show 40 ≤ FileHeader.largestRootOffset by decide) (by decide) low
  obtain ⟨t2, run2, shows2, -⟩ := bumpGeneration_run shows1
  refine ⟨e, t2, ?_, shows2, forest1⟩
  rw [Action.get_bind, Action.bind_of_ok run1, Action.bind_of_ok run2]
  rfl

theorem releaseRoot_run (shows_ : s.Shows d) (forest : Forest d (b.barren :: rest)) (other : b.root.page ≠ 1)
    (named : d.word FileHeader.largestRootOffset ∈ b.root.page :: rest.map fun tree => tree.root.page)
    (largest : b.root.page ≤ d.word FileHeader.largestRootOffset) :
    ∃ answer e t, Tree.releaseRoot b.root.page s = .ok answer t ∧ t.Shows e ∧
      Forest e (rest.map (Tree.follow answer b.root.page)) := by
  have has := forest.books.has List.mem_cons_self
  have small : d.word FileHeader.largestRootOffset < 4294967296 := Bytes.at32_lt _ _
  obtain ⟨t1, read, shows1, -⟩ := headerWord_run shows_ (forest.books.has forest.books.one).1
    (show FileHeader.largestRootOffset + 4 ≤ 100 by decide)
  unfold Tree.releaseRoot Tree.largestRoot
  rw [Action.bind_of_ok read]
  split
  · have same : rest.map (Tree.follow none b.root.page) = rest := follow_other fun _ _ => nofun
    obtain ⟨d2, t2, run2, shows2, -, forest2, -⟩ := forest.free_run shows1 other
    obtain ⟨e, t, run3, shows3, forest3⟩ := forest2.lower_run none shows2 small
    refine ⟨none, e, t, ?_, shows3, same.symm ▸ forest3⟩
    rw [Action.bind_of_ok run2]
    exact run3
  · rename_i differ
    have among := (List.mem_cons.mp named).resolve_left fun same => differ same.symm
    obtain ⟨last, member, isLast⟩ := List.mem_map.mp among
    obtain ⟨front, back, rfl⟩ := List.append_of_mem member
    have swap : (front ++ last :: back).Perm (last :: (front ++ back)) := List.perm_middle
    have forest := forest.perm (swap.cons b.barren)
    have low : last.root.page ≠ 1 := by
      have positive := has.1.1
      change 1 ≤ b.root.page at positive
      intro first
      rw [← isLast, first] at largest
      exact other (Nat.le_antisymm largest positive)
    -- no other tree has its root on that page
    have once := (roots_sublist (b.barren :: last :: (front ++ back))).nodup forest.books.nodup
    have away := (List.nodup_cons.mp (List.nodup_cons.mp once).2).1
    have others : (front ++ back).map (Tree.follow (some (d.word FileHeader.largestRootOffset)) b.root.page) =
        front ++ back := follow_other fun tree member same => away (List.mem_map.mpr
        ⟨tree, member, (isLast.trans (Option.some.inj same)).symm⟩)
    have first : last.follow (some (d.word FileHeader.largestRootOffset)) b.root.page = last.moved b.root.page :=
      if_pos (congrArg some isLast.symm)
    obtain ⟨d2, t2, run2, shows2, -, forest2, -⟩ := forest.replace_run shows1 other low
    rw [← others, ← first] at forest2
    rw [isLast] at run2
    obtain ⟨e, t, run3, shows3, forest3⟩ :=
      forest2.lower_run (some (d.word FileHeader.largestRootOffset)) shows2 small
    refine ⟨_, e, t, ?_, shows3, forest3.perm (swap.symm.map _)⟩
    obtain ⟨_, u, first, second⟩ := Action.bind_ok.mp run2
    rw [Action.bind_of_ok first, Action.bind_of_ok second]
    exact run3

/-- A tree that is not on the first page can be removed. The others stand as before, but the last root of an
auto-vacuum file may have to move. -/
theorem remove_run (shows_ : s.Shows d) (forest : Forest d (b :: rest)) (other : b.root.page ≠ 1)
    (named : d.mapped = true → d.word FileHeader.largestRootOffset ∈ (b :: rest).map fun tree => tree.root.page)
    (largest : d.mapped = true → b.root.page ≤ d.word FileHeader.largestRootOffset) :
    ∃ answer e t, Tree.remove b.root.page s = .ok answer t ∧ t.Shows e ∧
      Forest e (rest.map (Tree.follow answer b.root.page)) := by
  obtain ⟨d1, t1, run1, shows1, -, forest1, keeps1⟩ := forest.clear_run shows_
  have word : d1.word FileHeader.largestRootOffset = d.word FileHeader.largestRootOffset :=
    keeps1.word (show FileHeader.largestRootOffset + 4 ≤ 100 by decide) (.inr (by decide))
  unfold Tree.remove
  rw [Action.bind_of_ok run1, Action.get_bind, shows1.mapped, keeps1.alike.mapped]
  cases mapped : d.mapped with
  | true =>
    rw [if_pos rfl]
    refine forest1.releaseRoot_run shows1 other ?_ ?_
    · rw [word]
      exact named mapped
    · rw [word]
      exact largest mapped
  | false =>
    have same : rest.map (Tree.follow none b.root.page) = rest := follow_other fun _ _ => nofun
    obtain ⟨e, t, run2, shows2, -, forest2, -⟩ := forest1.free_run shows1 other
    refine ⟨none, e, t, ?_, shows2, same.symm ▸ forest2⟩
    rw [if_neg Bool.false_ne_true, Action.bind_of_ok run2]
    rfl

end Forest

namespace Integrity

variable {roots : List PageNo} {trees : List Tree}

theorem Whole.forest (whole : Whole d roots trees) : Forest d trees :=
  ⟨whole.stands, whole.books, whole.listed_roots ▸ one_listed roots⟩

theorem listed_of_mem {root : PageNo} (member : root ∈ roots) : root ∈ listed roots := by
  unfold listed
  split
  · exact member
  · exact List.mem_cons_of_mem _ member

theorem mem_of_listed {root : PageNo} (member : root ∈ listed roots) (other : root ≠ 1) : root ∈ roots := by
  unfold listed at member
  split at member
  · exact member
  · exact (List.mem_cons.mp member).resolve_left other

/-- In a file in which a check finds nothing trees can be cleared and removed, and the freelist can be walked then,
with no page twice and as many as the header says. -/
theorem exact_after (shows_ : s.Shows d) (whole : Whole d roots trees) {root : PageNo}
    (member : root ∈ listed roots) :
    (∃ count t, Tree.clear root s = .ok count t ∧ Freelist.Exact t) ∧
      (root ≠ 1 → (d.mapped = true → d.word FileHeader.largestRootOffset ∈ roots) →
        ∃ answer t, Tree.remove root s = .ok answer t ∧ Freelist.Exact t) := by
  obtain ⟨b, among, rfl⟩ := List.mem_map.mp (whole.listed_roots.symm ▸ member)
  obtain ⟨front, back, rfl⟩ := List.append_of_mem among
  have swap : (front ++ b :: back).Perm (b :: (front ++ back)) := List.perm_middle
  have forest := whole.forest.perm swap
  refine ⟨?_, fun other named => ?_⟩
  · obtain ⟨e, t, run, showsT, -, forestT, -⟩ := forest.clear_run shows_
    exact ⟨_, t, run, Freelist.exact_of_books showsT forestT.books⟩
  · have known : ∀ page ∈ roots, page ∈ (b :: (front ++ back)).map fun tree => tree.root.page :=
      fun page inside => (swap.map _).mem_iff.mp (whole.listed_roots ▸ listed_of_mem inside)
    obtain ⟨answer, e, t, run, showsT, forestT⟩ := forest.remove_run shows_ other
      (fun mapped => known _ (named mapped)) fun mapped => whole.largest mapped _ (mem_of_listed member other)
    exact ⟨answer, t, run, Freelist.exact_of_books showsT forestT.books⟩

theorem exact_after_planted : ∃ trees, Whole planted.disk [2] trees ∧
    (∃ count t, Tree.clear 2 planted = .ok count t ∧ Freelist.Exact t) ∧
    ∃ answer t, Tree.remove 2 planted = .ok answer t ∧ Freelist.Exact t := by
  obtain ⟨trees, whole⟩ := planted_whole
  obtain ⟨clears, removes⟩ := exact_after planted_shows whole (List.mem_cons_of_mem 1 (List.mem_singleton_self 2))
  exact ⟨trees, whole, clears, removes (by decide) nofun⟩

end Integrity

end TreeFile
