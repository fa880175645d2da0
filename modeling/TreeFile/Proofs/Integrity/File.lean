import TreeFile.Proofs.Freelist.Walked
import TreeFile.Proofs.Integrity.Trees

/-!
A file in which a check finds nothing. Its trees stand, its freelist is whole, and every page that is not
reserved belongs to one of them and to one only.
-/

namespace TreeFile

structure Tree where
  kind : TreeKind
  height : Nat
  root : Node (Limb height)

namespace Tree

def pages (tree : Tree) : List PageNo := Limb.pages (tree.height + 1) tree.root

def items (tree : Tree) : List Item := Limb.items (tree.height + 1) tree.root

/-- The tree stands on the disk with its leaves at one depth, in order, and with cells in all its pages but
the root. -/
structure Stands (tree : Tree) (d : Disk) : Prop where
  limb : d.LimbAt tree.kind (tree.height + 1) tree.root
  entry : tree.root.page ≠ 1 → d.mapped = true → d.entry tree.root.page = some ⟨.root, 0⟩
  sorted : Sorted tree.kind .binary tree.items
  full : tree.root.row.Full false

structure Seen (tree : Tree) (d : Disk) : Prop where
  grown : Integrity.Grown d tree.kind none tree.root
  sorted : Sorted tree.kind .binary tree.items

theorem Seen.stands {tree : Tree} {d : Disk} (seen : tree.Seen d) (fresh : 1 ∉ tree.root.row.hanging) :
    tree.Stands d :=
  ⟨seen.grown.stands fresh, seen.grown.entry, seen.sorted, seen.grown.full⟩

theorem root_fresh {trees : List Tree} (once : (trees.flatMap pages).Nodup) {page : PageNo}
    (isRoot : page ∈ trees.map fun tree => tree.root.page) : ∀ tree ∈ trees, page ∉ tree.root.row.hanging := by
  induction trees with
  | nil => exact fun _ => nofun
  | cons first rest ih =>
    rw [List.flatMap_cons, List.nodup_append] at once
    obtain ⟨onceFirst, onceRest, apart⟩ := once
    obtain ⟨fresh, -⟩ := List.nodup_cons.mp onceFirst
    rcases List.mem_cons.mp isRoot with rfl | later
    · refine List.forall_mem_cons.mpr ⟨fresh, fun tree member inside => ?_⟩
      exact apart _ List.mem_cons_self _ (List.mem_flatMap.mpr ⟨tree, member, List.mem_cons_of_mem _ inside⟩) rfl
    · obtain ⟨tree, member, rfl⟩ := List.mem_map.mp later
      refine List.forall_mem_cons.mpr ⟨fun inside => ?_, ih onceRest later⟩
      exact apart _ (List.mem_cons_of_mem _ inside) _ (List.mem_flatMap.mpr ⟨tree, member, List.mem_cons_self⟩) rfl

end Tree

namespace Integrity

open Store (pageOf unsaved unsaved_shows)

variable {d : Disk} {seen : List PageNo} {c : Check}

theorem checkFreePages_passes (pages : List PageNo) (c : Check) : Passes (checkFreePages pages) c fun whole t =>
    whole = true ∧ ∀ d seen, Tracks d seen c →
      Tracks d (pages ++ seen) t ∧ (1 ∉ pages → d.mapped = true → ∀ n ∈ pages, d.entry n = some ⟨.free, 0⟩) := by
  induction pages generalizing c with
  | nil => exact .pure fun _ => ⟨rfl, fun d seen tracks => ⟨tracks, fun _ _ _ => nofun⟩⟩
  | cons page rest ih =>
    have any : ∀ t, Passes (checkFreePages rest) t fun _ _ => True := fun t => (ih t).imp fun _ _ _ _ => trivial
    unfold checkFreePages
    refine .full (.get ?_)
    by_cases map : c.store.isMapPage page = true
    · rw [if_pos map]
      exact .report_bind _ any
    rw [if_neg map]
    refine (mark_passes page _).bind fun fresh c1 => ?_
    cases fresh with
    | false => exact (any c1).imp fun _ _ _ _ marked => nomatch marked.1
    | true =>
      rw [if_pos rfl]
      refine (checkEntry_passes page ⟨.free, 0⟩).bind fun _ c2 => (ih c2).imp ?_
      rintro whole t - ⟨isWhole, others⟩ entry ⟨-, marked⟩
      refine ⟨isWhole, fun d seen tracks => ?_⟩
      obtain ⟨tracks, claim⟩ := entry d _ (marked d seen tracks) List.mem_cons_self
      obtain ⟨tracks, claims⟩ := others d _ tracks
      refine ⟨tracks.perm List.perm_middle, fun away mapped => ?_⟩
      rw [List.mem_cons, not_or] at away
      exact List.forall_mem_cons.mpr ⟨claim (Ne.symm away.1) mapped, claims away.2 mapped⟩

structure FreeSeen (d : Disk) (trunks : List Trunk) : Prop where
  first : d.word FileHeader.firstTrunkOffset = Trunk.firstOr 0 trunks
  count : d.word FileHeader.freeCountOffset = (Trunk.allPages trunks).length
  row : d.Trunks 0 trunks
  mapped : 1 ∉ Trunk.allPages trunks → d.mapped = true → ∀ n ∈ Trunk.allPages trunks, d.entry n = some ⟨.free, 0⟩

theorem checkFreelist_passes (c : Check) : Passes checkFreelist c fun _ t =>
    ∀ d seen, Tracks d seen c → 1 ∈ seen → ∃ trunks, FreeSeen d trunks ∧ Tracks d (Trunk.allPages trunks ++ seen) t := by
  unfold checkFreelist
  refine .attempt (fun e s _ => .report _) fun free s walked => ?_
  dsimp only
  refine (checkFreePages_passes free.pages _).bind fun whole c1 => ?_
  cases whole with
  | false => exact .pure fun _ pages => nomatch pages.1
  | true =>
    rw [if_pos rfl]
    refine .onStore fun expected s1 counted => ?_
    split
    · exact .report _
    rename_i same
    refine .pure fun _ ⟨_, pages⟩ d seen tracks one => ?_
    obtain ⟨trunks, has, first, row, rfl, showsS, -⟩ := Freelist.walk_ok tracks.shows walked
    obtain ⟨tracks1, entries⟩ := pages d seen (tracks.withStore showsS)
    obtain ⟨s2, word, shows2, -⟩ := Freelist.count_run tracks1.shows has
    cases counted.symm.trans word
    have perm := Trunk.pages_perm trunks
    refine ⟨trunks, ⟨first, ?_, row, fun away mapped n member => ?_⟩, (tracks1.withStore shows2).perm
      (perm.append_right seen)⟩
    · rw [← perm.length_eq, List.length_append]
      exact (Decidable.not_not.mp same).symm
    · exact entries (fun inside => away (perm.mem_iff.mp inside)) mapped n (perm.mem_iff.mpr member)

theorem markReserved_contains (s : Store) (left page : Nat) (reached : BitSet) (wide : page + left ≤ reached.size) :
    (markReserved s left page reached).size = reached.size ∧ ∀ n, (markReserved s left page reached).contains n = true ↔
      reached.contains n = true ∨ 2 ≤ n ∧ page ≤ n ∧ n < page + left ∧ s.isReserved n = true := by
  induction left generalizing page reached with
  | zero =>
    refine ⟨rfl, fun n => ?_⟩
    unfold markReserved
    simp only [iff_self_or]
    omega
  | succ left ih =>
    unfold markReserved
    split
    · rename_i marks
      simp only [ge_iff_le, Bool.and_eq_true, decide_eq_true_eq] at marks
      obtain ⟨size, same⟩ := ih (page + 1) (reached.set page true) (by rw [BitSet.size_set]; omega)
      refine ⟨size.trans (BitSet.size_set ..), fun n => ?_⟩
      rw [same, BitSet.contains_set (by omega)]
      by_cases here : n = page
      · subst here
        simp only [true_or, marks, Nat.le_refl, true_and, and_true]
        exact iff_of_true trivial (.inr (by omega))
      · have order : page ≤ n ↔ page + 1 ≤ n := by omega
        rw [order, Nat.add_right_comm page 1 left, Nat.add_assoc]
        simp only [here, false_or]
    · rename_i marks
      simp only [ge_iff_le, Bool.and_eq_true, decide_eq_true_eq] at marks
      obtain ⟨size, same⟩ := ih (page + 1) reached (by omega)
      refine ⟨size, fun n => (same n).trans (or_congr_right ?_)⟩
      by_cases here : n = page
      · subst here
        have low : ¬ n + 1 ≤ n := Nat.not_succ_le_self n
        simp only [low, false_and, and_false, false_iff]
        exact fun ⟨low, _, _, reserved⟩ => marks ⟨low, reserved⟩
      · have order : page ≤ n ↔ page + 1 ≤ n := by omega
        rw [order, Nat.add_right_comm page 1 left, Nat.add_assoc]

theorem checkUnused_passes (left page : Nat) (c : Check) : Passes (checkUnused left page) c fun _ t =>
    t = c ∧ ∀ n, page ≤ n → n < page + left → c.reached.contains n = true := by
  induction left generalizing page c with
  | zero => exact .pure fun _ => ⟨rfl, fun n low high => by omega⟩
  | succ left ih =>
    unfold checkUnused
    change Passes (if (!c.isFull) = true then _ else pure ()) c _
    split
    swap
    · rename_i full
      exact .pure fun none => absurd none (Passes.full_errors (by simpa using full))
    refine .get ?_
    split
    · exact .report_bind _ fun t => (ih (page + 1) t).imp fun _ _ _ _ => trivial
    rename_i used
    refine (ih (page + 1) c).imp ?_
    rintro - t - ⟨rfl, others⟩
    refine ⟨rfl, fun n low high => ?_⟩
    by_cases here : n = page
    · subst here
      simpa using used
    · exact others n (by omega) (by omega)

theorem checkBelowLargest_passes (root largest : PageNo) (c : Check) : Passes
    (if root > largest then report s!"Root page {root} above largest root page {largest}" else pure ()) c
    fun _ t => t = c ∧ root ≤ largest := by
  split
  · exact .report _
  · exact .pure fun _ => ⟨rfl, Nat.le_of_not_lt ‹_›⟩

theorem checkLargestRoot_passes (roots : List PageNo) (c : Check) : Passes (checkLargestRoot roots) c fun _ t =>
    ∀ d seen, Tracks d seen c → 1 ∈ seen → Tracks d seen t ∧
      (d.mapped = true → ∀ root ∈ roots, root ≤ d.word FileHeader.largestRootOffset) := by
  unfold checkLargestRoot
  refine .get ?_
  cases looks : c.store.vacuum.isEnabled with
  | false =>
    rw [if_neg Bool.false_ne_true]
    refine .pure fun _ d seen tracks one => ⟨tracks, fun mapped => ?_⟩
    rw [tracks.shows.mapped, mapped] at looks
    cases looks
  | true =>
    rw [if_pos rfl]
    refine .onStore fun largest s read => ?_
    refine (Passes.forM (fun root t => checkBelowLargest_passes root largest t) roots _).imp ?_
    intro _ t _ along d seen tracks one
    have inside : FileHeader.largestRootOffset + 4 ≤ 100 := by decide
    obtain ⟨u, word, showsU, -⟩ := Store.headerWord_run tracks.shows (tracks.known 1 one).1 inside
    cases read.symm.trans word
    obtain ⟨rfl, below⟩ := along.of_still
    exact ⟨tracks.withStore showsU, fun _ => below⟩

theorem checkRoots_passes (roots : List PageNo) (c : Check) : Passes (roots.forM checkRoot) c fun _ t =>
    ∀ d seen, Tracks d seen c → ∃ trees : List Tree, trees.map (fun tree => tree.root.page) = roots ∧
      (∀ tree ∈ trees, tree.Seen d) ∧ Tracks d (trees.flatMap Tree.pages ++ seen) t := by
  refine (Passes.forM checkRoot_passes roots c).imp ?_
  intro _ t _ along d seen tracks
  induction roots generalizing c seen with
  | nil =>
    cases along
    exact ⟨[], rfl, fun _ => nofun, tracks⟩
  | cons root rest ih =>
    obtain ⟨u, first, along⟩ := along
    obtain ⟨tree, h, node, limb⟩ := first d seen tracks
    obtain ⟨trees, isRoots, all, tracks⟩ := ih u along _ limb.tracks
    refine ⟨⟨tree, h, node⟩ :: trees, ?_, ?_, ?_⟩
    · rw [List.map_cons, isRoots, limb.page]
    · exact List.forall_mem_cons.mpr ⟨⟨limb.grown, limb.fenced.sorted⟩, all⟩
    · refine tracks.perm ?_
      rw [List.flatMap_cons, ← List.append_assoc]
      exact List.perm_append_comm.append_right seen

def start (s : Store) (maxErrors : Nat) : Check where
  store := s
  reached := markReserved s (s.pageCount + 1) 0 (.empty (s.pageCount + 1))
  maxErrors := maxErrors
  pageCount := s.pageCount

theorem tracks_start {s : Store} (shows_ : s.Shows d) (maxErrors : Nat) : Tracks d [] (start s maxErrors) := by
  have wide : 0 + (s.pageCount + 1) ≤ (BitSet.empty (s.pageCount + 1)).size :=
    Nat.le_of_eq ((Nat.zero_add _).trans (BitSet.size_empty _).symm)
  obtain ⟨size, same⟩ := markReserved_contains s (s.pageCount + 1) 0 _ wide
  refine ⟨shows_, shows_.count, ?_, fun n => ?_, List.nodup_nil, fun _ => nofun⟩
  · exact size.trans ((BitSet.size_empty _).trans (congrArg Nat.succ shows_.count))
  · refine (same n).trans ?_
    have has : d.Has n ↔ 1 ≤ n ∧ n ≤ d.count := .rfl
    rw [BitSet.contains_empty, shows_.count, shows_.isReserved, has]
    simp only [Bool.false_eq_true, List.not_mem_nil, false_or, Nat.zero_le, true_and]
    refine and_congr_right fun low => and_congr_left fun _ => ?_
    omega

theorem Tracks.ledger {trunks : List Trunk} {owned : List PageNo} {t : Check}
    (tracks : Tracks d (Trunk.allPages trunks ++ owned) t) (one : 1 ∈ owned) (free : FreeSeen d trunks)
    (used : ∀ n, d.Has n → t.reached.contains n = true) : d.Ledger trunks owned := by
  have away : 1 ∉ Trunk.allPages trunks := fun inside =>
    (List.nodup_append.mp tracks.once).2.2 1 inside 1 one rfl
  refine ⟨⟨tracks.once, fun n => ⟨tracks.known n, fun ⟨has, unreserved⟩ => ?_⟩⟩, one, free.first, free.count, free.row,
    free.mapped away⟩
  rcases (tracks.reached n).mp (used n has) with inside | ⟨-, -, reserved⟩
  · exact inside
  · rw [unreserved] at reserved
    cases reserved

def listed (roots : List PageNo) : List PageNo := if roots.contains 1 then roots else 1 :: roots

theorem one_listed (roots : List PageNo) : 1 ∈ listed roots := by
  unfold listed
  split
  · exact List.contains_iff_mem.mp ‹_›
  · exact List.mem_cons_self

structure Whole (d : Disk) (roots : List PageNo) (trees : List Tree) : Prop where
  listed_roots : trees.map (fun tree => tree.root.page) = listed roots
  stands : ∀ tree ∈ trees, tree.Stands d
  books : d.Books (trees.flatMap Tree.pages)
  largest : d.mapped = true → ∀ root ∈ roots, root ≤ d.word FileHeader.largestRootOffset

theorem checkAll_passes (roots : List PageNo) (c : Check) : Passes (checkAll roots) c fun _ _ =>
    ∀ d, Tracks d [] c → ∃ trees, Whole d roots trees := by
  unfold checkAll
  refine (checkRoots_passes (listed roots) c).bind fun _ c1 => (checkFreelist_passes c1).bind fun _ c2 =>
    (checkLargestRoot_passes roots c2).bind fun _ c3 => .get ((checkUnused_passes c3.pageCount 1 c3).imp ?_)
  rintro - t - ⟨rfl, used⟩ largest free all d tracks
  obtain ⟨trees, isRoots, seen, tracks⟩ := all d [] tracks
  rw [List.append_nil] at tracks
  have one : 1 ∈ trees.map fun tree => tree.root.page := isRoots ▸ one_listed roots
  obtain ⟨tree, member, isOne⟩ := List.mem_map.mp one
  have inside : 1 ∈ trees.flatMap Tree.pages :=
    List.mem_flatMap.mpr ⟨tree, member, isOne ▸ List.mem_cons_self⟩
  obtain ⟨trunks, free, tracks⟩ := free d _ tracks inside
  obtain ⟨tracks, largest⟩ := largest d _ tracks (List.mem_append_right _ inside)
  have reached : ∀ n, d.Has n → t.reached.contains n = true := fun n has => by
    refine used n has.1 ?_
    rw [tracks.count]
    exact Nat.lt_one_add_iff.mpr has.2
  have once := (List.nodup_append.mp tracks.once).2.1
  exact ⟨trees, isRoots, fun tree member => (seen tree member).stands (Tree.root_fresh once one tree member),
    ⟨trunks, tracks.ledger inside free reached⟩, largest⟩

/-- If the check of a file that can be read reports nothing, its trees stand, and every page is in use once. -/
theorem check_sound {s t : Store} {roots : List PageNo} {maxErrors : Nat} {report : IntegrityReport}
    (shows_ : s.Shows d) (run : check roots maxErrors s = .ok report t) (ok : report.isOk = true) :
    ∃ trees, Whole d roots trees := by
  cases done : checkAll roots (start s maxErrors) with
  | error e c =>
    unfold start at done
    simp only [check, done] at run
    cases run
  | ok whole c =>
    have passes := checkAll_passes roots (start s maxErrors) whole c done
    unfold start at done
    simp only [check, done] at run
    cases run
    have none : c.errors = [] := List.reverse_eq_nil_iff.mp (List.isEmpty_iff.mp ok)
    exact (passes none).2 d (tracks_start shows_ maxErrors)

/-- An empty table on page 1, and below page 2 one with a row on each of two leaves, before the first commit. -/
def planted : Store := unsaved [
  pageOf (List.replicate 100 0 ++ [0x0d, 0, 0, 0, 0, 2, 0, 0]) [],
  pageOf [0x05, 0, 0, 0, 1, 1, 251, 0, 0, 0, 0, 4, 1, 251] [0, 0, 0, 3, 1],
  pageOf [0x0d, 0, 0, 0, 1, 1, 252, 0, 1, 252] [2, 1, 65, 65],
  pageOf [0x0d, 0, 0, 0, 1, 1, 252, 0, 1, 252] [2, 2, 66, 66]]

theorem planted_shows : planted.Shows planted.disk := unsaved_shows (by decide +kernel) (by decide)

theorem planted_whole : ∃ trees, Whole planted.disk [2] trees := by
  have clean : (Action.outcome (checkAll [2]) (start planted 0)).1.isOk = true ∧
      (Action.outcome (checkAll [2]) (start planted 0)).2.errors = [] := by decide +kernel
  unfold Action.outcome at clean
  cases run : checkAll [2] (start planted 0) with
  | error e t =>
    rw [run] at clean
    cases clean.1
  | ok a t =>
    rw [run] at clean
    exact (checkAll_passes [2] (start planted 0) a t run clean.2).2 planted.disk (tracks_start planted_shows 0)

theorem planted_report : (check [2] 0).run' planted = some ⟨[], 4⟩ := by decide +kernel

theorem check_sound_planted : ∃ report t, check [2] 0 planted = .ok report t ∧ report.isOk = true ∧
    ∃ trees, Whole planted.disk [2] trees := by
  have reported := planted_report
  unfold EStateM.run' EStateM.run at reported
  cases run : check [2] 0 planted with
  | error e t =>
    rw [run] at reported
    cases reported
  | ok report t =>
    rw [run] at reported
    cases reported
    exact ⟨_, t, rfl, rfl, check_sound planted_shows run rfl⟩

/-- An index on page 2 with one key of 103 bytes, most of which are on page 3, and a freelist with trunk 4 and
leaf 5. -/
def stocked : Store := unsaved [
  pageOf (FileHeader.magic.toList ++ List.replicate 16 0 ++ [0, 0, 0, 4, 0, 0, 0, 2] ++ List.replicate 60 0 ++
    [0x0d, 0, 0, 0, 0, 2, 0, 0]) [],
  pageOf [0x0a, 0, 0, 0, 1, 1, 212, 0, 1, 212] ([103] ++ List.replicate 39 65 ++ [0, 0, 0, 3]),
  pageOf ([0, 0, 0, 0] ++ List.replicate 64 66) [],
  pageOf [0, 0, 0, 0, 0, 0, 0, 1, 0, 0, 0, 5] [],
  pageOf [] []]

theorem stocked_shows : stocked.Shows stocked.disk := unsaved_shows (by decide +kernel) (by decide)

end Integrity

end TreeFile
