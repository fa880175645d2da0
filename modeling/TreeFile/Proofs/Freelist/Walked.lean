import TreeFile.Proofs.Freelist.Changes

/-!
A walk over the freelist that comes to its end has read a row of trunks off the file, none of whose pages it
has met twice.
-/

namespace TreeFile

theorem Trunk.pages_perm (trunks : List Trunk) :
    (trunks.map Trunk.page ++ trunks.flatMap Trunk.leaves).Perm (allPages trunks) := by
  induction trunks with
  | nil => exact .refl _
  | cons t rest ih =>
    rw [allPages_cons, List.map_cons, List.cons_append, List.flatMap_cons]
    exact .cons t.page ((List.perm_append_comm_assoc _ _ _).trans (ih.append_left t.leaves))

namespace Freelist

open Disk FileHeader

variable {s t : Store} {d : Disk}

theorem readTrunk_ok (shows_ : s.Shows d) {page : Nat} {data : Bytes} {leaves : Nat}
    (run : readTrunk page s = .ok (data, leaves) t) :
    data = d.image page ∧ leaves = (d.image page).at32 4 ∧ leaves ≤ readCapacity d.usableSize ∧ t.Shows d := by
  unfold readTrunk at run
  obtain ⟨image, u, read, run⟩ := Action.bind_ok.mp run
  obtain ⟨-, rfl, showsU, -⟩ := Store.readPage_ok shows_ read
  have size := showsU.disk_sound.sizes page
  have large := showsU.disk_sound.pageSize_bounds
  dsimp only at run
  rw [Action.get_bind, Bytes.u32?_of_le (by omega), Option.getD_some, showsU.usableSize] at run
  split at run
  · exact absurd run Action.throw_bind_ok
  rename_i room
  obtain ⟨same, rfl⟩ := Action.pure_ok.mp run
  cases same
  exact ⟨rfl, rfl, Nat.le_of_not_lt room, showsU⟩

structure Met (d : Disk) (seen : PageSet) (pages : List PageNo) : Prop where
  each : ∀ n ∈ pages, 2 ≤ n ∧ d.Has n
  once : pages.Nodup
  unseen : ∀ n ∈ pages, ¬ seen.contains n = true

theorem Met.nil {seen : PageSet} : Met d seen [] :=
  ⟨fun _ => nofun, List.nodup_nil, fun _ => nofun⟩

theorem Met.cons {seen : PageSet} {page : PageNo} {pages : List PageNo} (met : Met d (seen.insert page) pages)
    (low : 2 ≤ page) (has : d.Has page) (fresh : ¬ seen.contains page = true) : Met d seen (page :: pages) := by
  have other : ∀ n ∈ pages, n ≠ page ∧ ¬ seen.contains n = true := fun n inside => by
    have away := met.unseen n inside
    rw [contains_insert, not_or] at away
    exact away
  exact ⟨List.forall_mem_cons.mpr ⟨⟨low, has⟩, met.each⟩,
    List.nodup_cons.mpr ⟨fun inside => (other page inside).1 rfl, met.once⟩,
    List.forall_mem_cons.mpr ⟨fresh, fun n inside => (other n inside).2⟩⟩

theorem Met.append {seen more : PageSet} {front back : List PageNo} (first : Met d seen front)
    (grown : ∀ n, more.contains n = true ↔ n ∈ front ∨ seen.contains n = true) (second : Met d more back) :
    Met d seen (front ++ back) := by
  have other : ∀ n ∈ back, n ∉ front ∧ ¬ seen.contains n = true := fun n inside => by
    have away := second.unseen n inside
    rw [grown, not_or] at away
    exact away
  refine ⟨fun n inside => (List.mem_append.mp inside).elim (first.each n) (second.each n), ?_,
    fun n inside => (List.mem_append.mp inside).elim (first.unseen n) fun behind => (other n behind).2⟩
  refine List.nodup_append.mpr ⟨first.once, second.once, fun a here b there same => ?_⟩
  exact (other b there).1 (same ▸ here)

theorem walkLeaves_ok (shows_ : s.Shows d) {data : Bytes} {left i : Nat} {seen more : PageSet} {leaves : List PageNo}
    (run : walkLeaves data left i seen s = .ok (leaves, more) t) :
    t = s ∧ leaves.length = left ∧ (∀ k (h : k < leaves.length), leaf data (i + k) = leaves[k]) ∧ Met d seen leaves ∧
      ∀ n, more.contains n = true ↔ n ∈ leaves ∨ seen.contains n = true := by
  induction left generalizing i seen leaves more t with
  | zero =>
    obtain ⟨same, rfl⟩ := Action.pure_ok.mp run
    cases same
    exact ⟨rfl, rfl, fun k h => absurd h (Nat.not_lt_zero k), .nil, fun n => by simp⟩
  | succ left ih =>
    unfold walkLeaves at run
    obtain ⟨_, u, check, found⟩ := Action.bind_ok.mp run
    obtain ⟨low, has, rfl⟩ := checkPage_ok shows_ check
    split at found
    · exact absurd found Action.throw_bind_ok
    rename_i fresh
    obtain ⟨⟨rest, last⟩, v, walked, ends⟩ := Action.bind_ok.mp found
    obtain ⟨rfl, length, listed, met, grown⟩ := ih walked
    obtain ⟨same, rfl⟩ := Action.pure_ok.mp ends
    cases same
    refine ⟨rfl, congrArg Nat.succ length, fun k h => ?_, met.cons low has fresh, fun n => ?_⟩
    · cases k with
      | zero => rfl
      | succ k =>
        have found := listed k (Nat.lt_of_succ_lt_succ h)
        rw [Nat.add_right_comm] at found
        exact found
    · rw [grown, contains_insert, List.mem_cons]
      exact or_left_comm.trans or_assoc.symm

theorem walkFrom_ok (shows_ : s.Shows d) {left trunk : Nat} {seen : PageSet} {f : FreePages}
    (run : walkFrom left trunk seen s = .ok f t) : ∃ trunks, Trunk.firstOr 0 trunks = trunk ∧ d.Trunks 0 trunks ∧
      f = ⟨trunks.map Trunk.page, trunks.flatMap Trunk.leaves⟩ ∧ t.Shows d ∧ Met d seen (Trunk.allPages trunks) := by
  induction left generalizing s t trunk seen f with
  | zero =>
    unfold walkFrom at run
    split at run
    · obtain ⟨rfl, rfl⟩ := Action.pure_ok.mp run
      exact ⟨[], Eq.symm ‹_›, trivial, rfl, shows_, .nil⟩
    obtain ⟨_, u, -, found⟩ := Action.bind_ok.mp run
    split at found
    · exact absurd found Action.throw_bind_ok
    obtain ⟨_, v, -, walked⟩ := Action.bind_ok.mp found
    obtain ⟨_, w, -, ends⟩ := Action.bind_ok.mp walked
    exact absurd ends Action.throw_ok
  | succ left ih =>
    unfold walkFrom at run
    split at run
    · obtain ⟨rfl, rfl⟩ := Action.pure_ok.mp run
      exact ⟨[], Eq.symm ‹_›, trivial, rfl, shows_, .nil⟩
    obtain ⟨_, u, check, found⟩ := Action.bind_ok.mp run
    obtain ⟨low, has, rfl⟩ := checkPage_ok shows_ check
    split at found
    · exact absurd found Action.throw_bind_ok
    rename_i fresh
    obtain ⟨⟨data, count⟩, v, read, counted⟩ := Action.bind_ok.mp found
    obtain ⟨rfl, isCount, room, showsV⟩ := readTrunk_ok shows_ read
    obtain ⟨⟨leaves, more⟩, w, walked, others⟩ := Action.bind_ok.mp counted
    obtain ⟨rfl, length, listed, met, grown⟩ := walkLeaves_ok showsV walked
    obtain ⟨rest, x, later, ends⟩ := Action.bind_ok.mp others
    obtain ⟨trunks, first, row, rfl, showsX, met'⟩ := ih showsV later
    obtain ⟨rfl, rfl⟩ := Action.pure_ok.mp ends
    refine ⟨⟨trunk, leaves⟩ :: trunks, rfl, ⟨?_, row⟩, rfl, showsX, (met.append grown met').cons low has fresh⟩
    have sound := shows_.disk_sound
    have size := sound.sizes trunk
    have large := sound.pageSize_bounds
    have usable := sound.usable_bounds
    have fits := readCapacity_le d.usableSize
    refine ⟨?_, ?_, fun i h => ?_, length ▸ room⟩
    · rw [first]
      unfold next
      rw [Bytes.u32?_of_le (by omega), Option.getD_some]
    · exact isCount.symm.trans length.symm
    · have found := listed i h
      have inside : leafStart i + 4 ≤ (d.image trunk).size := by
        unfold leafStart
        change i < leaves.length at h
        omega
      unfold leaf at found
      rw [Nat.zero_add, Bytes.u32?_of_le inside, Option.getD_some] at found
      exact found

theorem walk_ok (shows_ : s.Shows d) {f : FreePages} (run : walk s = .ok f t) :
    ∃ trunks, d.Has 1 ∧ d.word firstTrunkOffset = Trunk.firstOr 0 trunks ∧ d.Trunks 0 trunks ∧
      f = ⟨trunks.map Trunk.page, trunks.flatMap Trunk.leaves⟩ ∧ t.Shows d ∧ Met d {} (Trunk.allPages trunks) := by
  unfold walk at run
  rw [Action.get_bind] at run
  obtain ⟨trunk, u, word, run⟩ := Action.bind_ok.mp run
  have has : d.Has 1 := by
    obtain ⟨data, v, read, -⟩ := Action.bind_ok.mp word
    exact (Store.readPage_ok shows_ read).1
  obtain ⟨v, again, showsV, -⟩ := firstTrunk_run shows_ has
  cases word.symm.trans again
  obtain ⟨trunks, first, rest⟩ := walkFrom_ok showsV run
  exact ⟨trunks, has, first.symm, rest⟩

end Freelist

end TreeFile
