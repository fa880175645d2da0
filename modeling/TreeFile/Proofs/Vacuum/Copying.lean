import TreeFile.Proofs.Balance.Climbing
import TreeFile.Vacuum

/-!
Copying a tree page to a page that has nothing on it. What hangs on the page gets the copy for its parent, and
nothing refers to the copy yet.
-/

namespace TreeFile

open Store Disk PointerMap

variable {s t : Store} {d e : Disk} {tree : TreeKind} {h : Nat} {others : List Nat}

/-- A copy of a tree page is one, too, as long as neither is the first page of the file. -/
theorem Disk.PageAt.copy {number target : Nat} {kind : PageKind} {slots : List Slot} {right : Option PageNo}
    (at_ : d.PageAt number kind slots right) (low : number ≠ 1) (other : target ≠ 1) (alike : Alike d e)
    (has : e.Has target) (same : e.image target = d.image number) : e.PageAt target kind slots right := by
  obtain ⟨-, p, is, data, clear, bears⟩ := at_
  have geometry : p.geometry = e.geometry target := by
    rw [is.geometry, alike.geometry]
    unfold Disk.geometry Geometry.ofPage
    rw [if_neg low, if_neg other]
  refine ⟨has, { p with number := target }, ⟨rfl, geometry, is.limits.trans alike.limits.symm, is.kind⟩,
    data.trans same.symm, clear, ?_⟩
  obtain ⟨placed, blocks, tidy, held⟩ := bears.placed clear
  exact Page.bears_of_placed
    (tidy.carry rfl rfl rfl rfl rfl rfl rfl rfl rfl tidy.area.header fun _ _ => rfl) clear held bears.right

namespace Vacuum

/-- The first half of a relocation. -/
def copy (role : PageRole) (source target : PageNo) : StoreM Unit := do
  let data ← readPage source
  putPage target data
  adopt role source target (Overflow.next data)

def settle (entry : PointerEntry) (source target : PageNo) : StoreM Unit := do
  if entry.role ≠ .root then moveReference entry source target
  PointerMap.put target entry
  bumpGeneration

theorem relocate_eq {source target : PageNo} {entry : PointerEntry} (other : source ≠ target) (low : 2 ≤ source)
    (low' : 2 ≤ target) : relocate source entry target = (do
      copy entry.role source target
      settle entry source target) := by
  have differ : ¬ (decide (source = target) || decide (source < 2) || decide (target < 2)) = true := by
    simp only [Bool.or_eq_true, decide_eq_true_eq]
    rintro ((same | small) | small)
    · exact other same
    · exact Nat.not_lt.mpr low small
    · exact Nat.not_lt.mpr low' small
  unfold relocate copy settle
  rw [if_neg differ]
  simp only [bind_assoc]

theorem copyNode_run {node : Node (Limb h)} {target : PageNo} {role : PageRole} (shows_ : s.Shows d)
    (limb : d.LimbAt tree (h + 1) node) (books : d.Books (node.page :: target :: (node.row.hanging ++ others)))
    (one : 1 ∈ others) (isNode : role = .root ∨ role = .treeNode) :
    ∃ e t, copy role node.page target s = .ok () t ∧ t.Shows e ∧ s.Steady t ∧
      e.LimbAt tree (h + 1) (⟨target, node.row⟩ : Node (Limb h)) ∧
      e.Books (node.page :: target :: (node.row.hanging ++ others)) ∧
      Quiet d e (· = target) (· ∈ node.row.near) := by
  have sound := shows_.disk_sound
  obtain ⟨nodeAt, hangs⟩ := (limbAt_node node).mp limb
  have parted := Balance.parted books.nodup (List.mem_cons_of_mem target one)
  have targetFresh := (List.nodup_cons.mp (List.nodup_cons.mp books.nodup).2).1
  have lowNode : node.page ≠ 1 := parted.low _ List.mem_cons_self
  have lowTarget : target ≠ 1 := fun same => targetFresh (List.mem_append_right _ (same ▸ one))
  have described := books.described (List.mem_cons_of_mem _ List.mem_cons_self) lowTarget
  obtain ⟨t1, read, shows1, steady1⟩ := readPage_run shows_ nodeAt.page.1
  obtain ⟨t2, put, shows2, steady2, quiet2⟩ := Freelist.putFree_run shows1 described.has described.free lowTarget
    (sound.sizes node.page)
  have copied := d.put_self target (d.image node.page)
  generalize d.put target (d.image node.page) = d2 at shows2 quiet2 copied
  have inner : ∀ n ∈ node.row.hanging, n ≠ target := fun n inside same =>
    targetFresh (List.mem_append_left _ (same ▸ inside))
  have books2 := books.of_quiet sound shows2.disk_sound quiet2
    (fun n same => same ▸ List.mem_cons_of_mem _ List.mem_cons_self) fun _ => False.elim
  have hangs2 : d2.Hangs tree node.row := by
    refine hangs.keep quiet2.toKeeps sound shows2.disk_sound ?_ fun _ _ => id
    exact spared_of_books books books2 (fun n inside =>
      ⟨Balance.hanging_owned inside, Balance.hanging_owned inside⟩) inner
  have has2 := (books2.has (List.mem_cons_of_mem node.page List.mem_cons_self)).1
  have at2 := nodeAt.page.copy lowNode lowTarget quiet2.alike has2 copied
  rw [← quiet2.alike.limits] at at2
  -- what hangs below it
  obtain ⟨p, t3, loaded, shows3, steady3, is, clear, bears⟩ := loadPage_run shows2 at2
  obtain ⟨d4, t4, claimed, shows4, steady4, quiet4, claims, books4, hangs4⟩ := Balance.claim_run shows3 books2 parted
    (List.Sublist.refl node.row.cells) ⟨is, bears⟩ clear (.inr rfl) hangs2
  refine ⟨d4, t4, ?_, shows4, steady1.trans (steady2.trans (steady3.trans steady4)), (limbAt_node _).mpr
    ⟨⟨?_, claims⟩, hangs4⟩, books4, (quiet2.mono (fun _ => id) fun _ => False.elim).trans
      (quiet4.mono (fun _ => False.elim) fun _ => id)⟩
  · unfold copy adopt
    rw [Action.bind_of_ok read, Action.bind_of_ok put]
    rcases isNode with rfl | rfl
    all_goals
      dsimp only
      rw [Action.bind_of_ok loaded]
      exact claimed
  · have has4 := (books4.has (List.mem_cons_of_mem node.page List.mem_cons_self)).1
    have same := quiet4.images target ((quiet2.alike.isReserved target).trans described.free) id
    have at4 := at2.of_same quiet4.alike shows2.disk_sound shows4.disk_sound has4 same
    rw [← quiet4.alike.limits] at at4
    exact at4

end Vacuum

end TreeFile
