import TreeFile.Proofs.PointerMap.Entries
import TreeFile.Proofs.WordArithmetic

/-!
Where the pointer map has its entries. Every page but the pending one has its map page before it, no other
map page lies between the two, and the entries of different pages are apart from each other.
-/

namespace TreeFile

namespace PointerMap

variable {usableSize pageSize page other : Nat}

theorem mapPage_between (low : 2 ≤ page) (behind : mapPage usableSize pageSize page ≤ other)
    (before : other ≤ page) : mapPage usableSize pageSize other = mapPage usableSize pageSize page := by
  obtain ⟨g, isSize⟩ : ∃ g, g = groupSize usableSize := ⟨_, rfl⟩
  obtain ⟨k, isGroup⟩ : ∃ k, k = (page - 2) / g := ⟨_, rfl⟩
  have here : mapPage usableSize pageSize page =
      if k * g + 2 = pendingPage pageSize then k * g + 2 + 1 else k * g + 2 := by
    unfold mapPage
    rw [if_neg (Nat.not_lt.mpr low), ← isSize, ← isGroup]
  have start : k * g + 2 ≤ other := by
    refine Nat.le_trans ?_ behind
    rw [here]
    split
    · exact Nat.le_succ _
    · exact Nat.le_refl _
  have same : (other - 2) / g = k := by
    apply Nat.le_antisymm
    · exact isGroup ▸ Nat.div_le_div_right (Nat.sub_le_sub_right before 2)
    · have positive : 0 < g := isSize ▸ Nat.succ_pos _
      exact (Nat.le_div_iff_mul_le positive).mpr (Nat.le_sub_of_add_le start)
  rw [here]
  unfold mapPage
  rw [if_neg (Nat.not_lt.mpr (Nat.le_trans (Nat.le_add_left 2 _) start)), ← isSize, same]

theorem entryStart_apart {map : Nat} (different : page ≠ other) (behind : map < page) (behind' : map < other) :
    entryStart map page + entrySize ≤ entryStart map other ∨
      entryStart map other + entrySize ≤ entryStart map page := by
  unfold entryStart entrySize
  omega

theorem mapPage_ne_pending (low : 2 ≤ page) :
    mapPage usableSize pageSize page ≠ pendingPage pageSize := by
  unfold mapPage
  rw [if_neg (Nat.not_lt.mpr low)]
  dsimp only
  split
  · rename_i opens
    exact fun same => absurd (same.trans opens.symm) (Nat.succ_ne_self _)
  · rename_i free
    exact free

/-- The map page of a page is at or before it, is not the pending page, and is the last map page up to there.
An entry lies within what is usable of it, and entries of two pages do not meet. All of this is worked out
without a number that is too large for a word. -/
theorem entries_apart (small : 480 ≤ usableSize) (large : usableSize ≤ 65536) (within : usableSize ≤ pageSize)
    (low : 2 ≤ page) (word : page < 4294967296) (used : page ≠ pendingPage pageSize) :
    let map := mapPage usableSize pageSize page
    map ≤ page ∧ isMapPage usableSize pageSize map = true ∧ map ≠ pendingPage pageSize ∧
      (∀ between, map < between → between < page → isMapPage usableSize pageSize between = false) ∧
      (map < page → entryStart map page + entrySize ≤ usableSize) ∧
      (∀ other, 2 ≤ other → other ≠ pendingPage pageSize → other ≠ page →
        isMapPage usableSize pageSize page = false → isMapPage usableSize pageSize other = false →
        mapPage usableSize pageSize other = map →
          entryStart map page + entrySize ≤ entryStart map other ∨
            entryStart map other + entrySize ≤ entryStart map page) ∧
      mapPage? usableSize pageSize page = some map ∧
      (map < page → entryStart? map page = some (entryStart map page)) := by
  intro map
  have usable : 5 ≤ usableSize := Nat.le_trans (by decide) small
  obtain ⟨found, isFound, -, own, order, room⟩ := mapPage_room pageSize usable low
  have isFound : map = found := isFound
  rw [← isFound] at own order room
  refine ⟨order.resolve_right used, own, mapPage_ne_pending low, ?_, room, ?_, ?_, ?_⟩
  · intro between behind before
    have same : mapPage usableSize pageSize between = map :=
      mapPage_between low (Nat.le_of_lt behind) (Nat.le_of_lt before)
    unfold isMapPage
    rw [same, beq_eq_false_iff_ne.mpr (Nat.ne_of_lt behind), Bool.and_false]
  · intro other lowOther usedOther different notMap notMapOther same
    obtain ⟨_, isMap, -, behind, -, -⟩ := mapPage_bounds usable low notMap used
    obtain ⟨_, isMapOther, -, behindOther, -, -⟩ := mapPage_bounds usable lowOther notMapOther usedOther
    rw [← isMap] at behind
    rw [← isMapOther, same] at behindOther
    exact entryStart_apart different.symm behind behindOther
  · exact mapPage?_eq (Nat.lt_of_le_of_lt large (by decide)) (by omega) word
  · intro behind
    have short := room behind
    exact entryStart?_eq behind (by omega)

/-- With pages of 1024 bytes the pending page would be a map page. The one behind it is one in its place. -/
theorem entries_apart_pending : pendingPage 1024 = 1048577 ∧ 1048579 ≠ pendingPage 1024 ∧
    mapPage 1024 1024 1048579 = 1048578 ∧ isMapPage 1024 1024 1048578 = true ∧
    (∀ between, 1048578 < between → between < 1048579 → isMapPage 1024 1024 between = false) ∧
    entryStart 1048578 1048579 + entrySize ≤ 1024 ∧
    (entryStart 1048578 1048579 + entrySize ≤ entryStart 1048578 1048580 ∨
      entryStart 1048578 1048580 + entrySize ≤ entryStart 1048578 1048579) ∧
    mapPage? 1024 1024 1048579 = some 1048578 ∧ entryStart? 1048578 1048579 = some 0 := by
  have map : mapPage 1024 1024 1048579 = 1048578 := by decide
  have all := entries_apart (show 480 ≤ 1024 by decide) (show 1024 ≤ 65536 by decide) (Nat.le_refl 1024)
    (show 2 ≤ 1048579 by decide) (by decide) (by decide)
  dsimp only at all
  rw [map] at all
  obtain ⟨-, own, -, none, room, apart, inWords, startInWords⟩ := all
  exact ⟨by decide, by decide, map, own, none, room (by decide),
    apart 1048580 (by decide) (by decide) (by decide) (by decide) (by decide) (by decide), inWords,
    startInWords (by decide)⟩

end PointerMap

end TreeFile
