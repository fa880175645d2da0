import TreeFile.Proofs.Freelist.Books

/-!
The freelist keeps the books: a page that is taken from it gets an owner, a page that is given back
loses it, and no page changes hands otherwise.
-/

namespace TreeFile

abbrev Freelist.Others (owned : List Nat) : Nat → Prop := fun n => n ∉ owned

theorem Disk.Keeps.within {d e : Disk} {owned more : List Nat}
    (keeps : Keeps d e (Freelist.Others more) (Freelist.Others more)) (subset : ∀ n ∈ owned, n ∈ more) :
    Keeps d e (Freelist.Others owned) (Freelist.Others owned) :=
  keeps.mono (fun n away member => away (subset n member)) fun n away member => away (subset n member)

namespace Freelist

open Disk FileHeader

variable {s t : Store} {d e : Disk} {owned : List Nat} {trunks : List Trunk}

theorem count_run (shows_ : s.Shows d) (has : d.Has 1) :
    ∃ t, count s = .ok (d.word freeCountOffset) t ∧ t.Shows d ∧ s.Steady t :=
  Store.headerWord_run shows_ has (by decide)

theorem firstTrunk_run (shows_ : s.Shows d) (has : d.Has 1) :
    ∃ t, firstTrunk s = .ok (d.word firstTrunkOffset) t ∧ t.Shows d ∧ s.Steady t :=
  Store.headerWord_run shows_ has (by decide)

/-- The effect of a change to a word of the header that states the freelist. -/
structure Relisted (d e : Disk) (offset value : Nat) : Prop where
  edits : Edits d e (fun _ => False)
  word : e.word offset = value
  other : ∀ i, i = firstTrunkOffset ∨ i = freeCountOffset → i ≠ offset → e.word i = d.word i

theorem Relisted.image {offset value : Nat} (relisted : Relisted d e offset value) (n : Nat) (other : n ≠ 1) :
    e.image n = d.image n := relisted.edits.images n other id

theorem setWord_run {offset : Nat} (value : Nat) (shows_ : s.Shows d) (has : d.Has 1)
    (known : offset = firstTrunkOffset ∨ offset = freeCountOffset) (small : value < 4294967296) :
    ∃ e t, Store.setHeaderWord offset value s = .ok () t ∧ t.Shows e ∧ s.Steady t ∧
      Relisted d e offset value := by
  have first : firstTrunkOffset = 32 := rfl
  have second : freeCountOffset = 36 := rfl
  obtain ⟨data, t, run, showsT, steady, word, size, same⟩ :=
    Store.setHeaderWord_run shows_ has (show offset + 4 ≤ 100 by omega) small
  refine ⟨_, t, run, showsT, steady, .put_header fun i outside => same i (by omega), word, ?_⟩
  intro i knownI other
  rw [word_put]
  unfold Disk.word Bytes.at32
  rw [same i (by omega), same (i + 1) (by omega), same (i + 2) (by omega), same (i + 3) (by omega)]

theorem putFree_run (shows_ : s.Shows d) {page : Nat} {data : Bytes} (has : d.Has page)
    (free : d.isReserved page = false) (other : page ≠ 1) (size : data.size = d.pageSize) :
    ∃ t, Store.putPage page data s = .ok () t ∧ t.Shows (d.put page data) ∧ s.Steady t ∧
      Quiet d (d.put page data) (· = page) (fun _ => False) := by
  obtain ⟨t, run, showsT, steady⟩ := Store.putPage_run shows_ has size
  exact ⟨t, run, showsT, steady, quiet_put shows_.disk_sound free fun same => absurd same other⟩

theorem putFresh_shows (page : Nat) (data : Bytes) (shows_ : s.Shows d) (has : d.Has page) :
    ∃ t, Store.putFresh page data s = .ok () t ∧ t.Shows (d.put page (data.resize d.pageSize)) ∧ s.Steady t := by
  obtain ⟨t, run, rest⟩ := Store.putPage_run shows_ has (Bytes.size_resize data d.pageSize)
  refine ⟨t, ?_, rest⟩
  unfold Store.putFresh
  rw [Action.get_bind, shows_.pageSize]
  exact run

theorem putFresh_run (page : Nat) (data : Bytes) (shows_ : s.Shows d) (has : d.Has page)
    (free : d.isReserved page = false) (other : page ≠ 1) :
    ∃ t, Store.putFresh page data s = .ok () t ∧ t.Shows (d.put page (data.resize d.pageSize)) ∧
      s.Steady t ∧ Quiet d (d.put page (data.resize d.pageSize)) (· = page) (fun _ => False) := by
  obtain ⟨t, run, showsT, steady⟩ := putFresh_shows page data shows_ has
  exact ⟨t, run, showsT, steady, quiet_put shows_.disk_sound free fun same => absurd same other⟩

theorem checkPage_run (shows_ : s.Shows d) {what : String} {page : Nat} (low : 2 ≤ page)
    (has : d.Has page) : checkPage what page s = .ok () s := by
  have inside : ¬ ((decide (page < 2) || decide (page > s.pageCount)) = true) := by
    have high := has.2
    simp only [Bool.or_eq_true, decide_eq_true_eq, shows_.count]
    omega
  unfold checkPage
  rw [Action.get_bind, if_neg inside]
  rfl

theorem checkPage_ok (shows_ : s.Shows d) {what : String} {page : Nat}
    (run : checkPage what page s = .ok () t) : 2 ≤ page ∧ d.Has page ∧ t = s := by
  unfold checkPage at run
  rw [Action.get_bind] at run
  by_cases outside : (decide (page < 2) || decide (page > s.pageCount)) = true
  · rw [if_pos outside] at run
    exact absurd run Action.throw_ok
  · rw [if_neg outside] at run
    simp only [Bool.or_eq_true, decide_eq_true_eq, not_or, shows_.count] at outside
    have high : page ≤ d.count := Nat.le_of_not_lt outside.2
    cases run
    exact ⟨by omega, ⟨by omega, high⟩, rfl⟩

theorem readCapacity_le (usableSize : Nat) : 8 + 4 * readCapacity usableSize ≤ max usableSize 8 := by
  unfold readCapacity
  have quotient := Nat.div_mul_le_self (usableSize - 8) 4
  omega

theorem readTrunk_run (shows_ : s.Shows d) {trunk : Trunk} {following : Nat}
    (at_ : d.TrunkAt trunk following) (has : d.Has trunk.page) :
    ∃ t, readTrunk trunk.page s = .ok (d.image trunk.page, trunk.leaves.length) t ∧ t.Shows d ∧
      s.Steady t := by
  obtain ⟨t, read, showsT, steady⟩ := Store.readPage_run shows_ has
  have size := shows_.disk_sound.sizes trunk.page
  have page := shows_.disk_sound.pageSize_bounds
  refine ⟨t, ?_, showsT, steady⟩
  have room : ¬ trunk.leaves.length > readCapacity t.usableSize := by
    rw [showsT.usableSize]
    exact Nat.not_lt.mpr at_.room
  unfold readTrunk
  rw [Action.bind_of_ok read, Bytes.u32?_of_le (by omega), Option.getD_some, at_.count]
  dsimp only
  rw [Action.get_bind, if_neg room]
  rfl

theorem trunk_reads (sound : d.Sound) {trunk : Trunk} {following : Nat}
    (at_ : d.TrunkAt trunk following) : next (d.image trunk.page) = following ∧
      ∀ i (h : i < trunk.leaves.length), leaf (d.image trunk.page) i = trunk.leaves[i] := by
  have size := sound.sizes trunk.page
  have page := sound.pageSize_bounds
  have usable := sound.usable_bounds
  have room := at_.room
  have fits := readCapacity_le d.usableSize
  refine ⟨?_, fun i h => ?_⟩
  · unfold next
    rw [Bytes.u32?_of_le (by omega), Option.getD_some, at_.next]
  · have inside : leafStart i + 4 ≤ (d.image trunk.page).size := by
      unfold leafStart
      omega
    unfold leaf
    rw [Bytes.u32?_of_le inside, Option.getD_some, at_.leaf i h]

structure Removed (d e : Disk) (trunks : List Trunk) (page : Nat) : Prop where
  edits : Edits d e (· ∈ Trunk.allPages trunks)
  rest : ∃ fewer, e.Shelf fewer ∧ (Trunk.allPages trunks).Perm (page :: Trunk.allPages fewer)

theorem trunkAt_trim (sound : d.Sound) {page following : Nat} {leaves : List Nat} {last : Nat}
    (at_ : d.TrunkAt ⟨page, leaves ++ [last]⟩ following) :
    (d.put page ((d.image page).overwrite 4 (Bytes.ofNat32 leaves.length))).TrunkAt ⟨page, leaves⟩
      following := by
  have size := sound.sizes page
  have bounds := sound.pageSize_bounds
  have usable := sound.usable_bounds
  have room : leaves.length + 1 ≤ readCapacity d.usableSize := by
    have room := at_.room
    rw [List.length_append] at room
    exact room
  have capacity := readCapacity_le d.usableSize
  have four : (Bytes.ofNat32 leaves.length).size = 4 := rfl
  have fits : 4 + (Bytes.ofNat32 leaves.length).size ≤ (d.image page).size := by omega
  refine ⟨?_, ?_, fun i h => ?_, Nat.le_trans (Nat.le_succ _) room⟩
  · rw [put_self, Bytes.at32_overwrite fits (by omega)]
    exact at_.next
  · rw [put_self, Bytes.at32_overwrite_same (by omega)]
    exact Nat.mod_eq_of_lt (by omega)
  · have low : 8 ≤ leafStart i := Nat.le_add_right 8 _
    have listed := at_.leaf i (by rw [List.length_append]; exact Nat.lt_succ_of_lt h)
    rw [put_self, Bytes.at32_overwrite fits (by omega), listed]
    exact List.getElem_append_left h

structure Handed (d e : Disk) (page free : Nat) : Prop where
  edits : Edits d e (· = page)
  first : e.word firstTrunkOffset = d.word firstTrunkOffset
  free : e.word freeCountOffset = free
  blank : e.image page = Bytes.resize .empty d.pageSize

theorem hand_run {page : Nat} (free : Nat) (shows_ : s.Shows d) (one : d.Has 1) (has : d.Has page) (low : 2 ≤ page)
    (small : free < 4294967296) :
    ∃ e t, (do
        Store.setHeaderWord freeCountOffset free
        Store.putFresh page .empty
        return page : StoreM PageNo) s = .ok page t ∧
      t.Shows e ∧ s.Steady t ∧ Handed d e page free := by
  obtain ⟨e, t, run, showsT, steadyT, relisted⟩ := setWord_run free shows_ one (.inr rfl) small
  obtain ⟨u, fresh, showsU, steadyU⟩ := putFresh_shows page .empty showsT (relisted.edits.has has)
  refine ⟨_, u, ?_, showsU, steadyT.trans steadyU, ?_, ?_, ?_, ?_⟩
  · rw [Action.bind_of_ok run, Action.bind_of_ok fresh]
    rfl
  · exact (relisted.edits.mono fun _ h => h.elim).trans (Edits.put _ (by omega))
  · rw [word_put_other _ _ (by omega), relisted.other _ (.inl rfl) (by decide)]
  · rw [word_put_other _ _ (by omega), relisted.word]
  · rw [put_self, relisted.edits.alike.pageSize]

theorem takeFirst_starts {trunk : Trunk} {rest : List Trunk} (shows_ : s.Shows d) (shelf : d.Shelf (trunk :: rest)) :
    ∃ t, t.Shows d ∧ s.Steady t ∧ takeFirst trunk.page s = (do
      let page ←
        if trunk.leaves.length = 0 then do
          Store.setHeaderWord firstTrunkOffset (next (d.image trunk.page))
          pure trunk.page
        else do
          let page := leaf (d.image trunk.page) (trunk.leaves.length - 1)
          checkPage "leaf" page
          Store.putPage trunk.page
            (← Action.applied (Bytes.putU32 4 (trunk.leaves.length - 1)) (d.image trunk.page))
          pure page
      Store.setHeaderWord freeCountOffset (d.word freeCountOffset - 1)
      Store.putFresh page .empty
      return page) t := by
  have listed : trunk.page ∈ Trunk.allPages (trunk :: rest) := List.mem_cons_self
  have positive : d.word freeCountOffset ≠ 0 := by
    rw [shelf.count]
    exact Nat.succ_ne_zero _
  obtain ⟨t1, run1, shows1, steady1⟩ := count_run shows_ shelf.one
  obtain ⟨t2, run2, shows2, steady2⟩ := readTrunk_run shows1 shelf.row.1 (shelf.has _ listed)
  refine ⟨t2, shows2, steady1.trans steady2, ?_⟩
  unfold takeFirst
  rw [Action.bind_of_ok (checkPage_run shows_ (shelf.low _ listed) (shelf.has _ listed)), Action.bind_of_ok run1,
    if_neg positive]
  dsimp only
  rw [Action.bind_of_ok run2]

theorem takeTrunk_run {page : Nat} {rest : List Trunk} (shows_ : s.Shows d) (shelf : d.Shelf (⟨page, []⟩ :: rest)) :
    ∃ e t, takeFirst page s = .ok page t ∧ t.Shows e ∧ s.Steady t ∧ Removed d e (⟨page, []⟩ :: rest) page ∧
      e.image page = Bytes.resize .empty d.pageSize := by
  have sound := shows_.disk_sound
  have listed : page ∈ Trunk.allPages (⟨page, []⟩ :: rest) := List.mem_cons_self
  have lengthSmall : d.word freeCountOffset < 4294967296 := Bytes.at32_lt _ _
  have nextIs : next (d.image page) = Trunk.firstOr 0 rest := (trunk_reads sound shelf.row.1).1
  have firstSmall : Trunk.firstOr 0 rest < 4294967296 := by
    cases rest with
    | nil => exact Nat.succ_pos _
    | cons t _ => exact shelf.small sound (Trunk.page_mem (List.mem_cons_of_mem _ List.mem_cons_self))
  obtain ⟨t1, shows1, steady1, starts⟩ := takeFirst_starts shows_ shelf
  obtain ⟨e1, t2, run2, shows2, steady2, relisted⟩ := setWord_run _ shows1 shelf.one (.inl rfl) firstSmall
  obtain ⟨e, t3, run3, shows3, steady3, handed⟩ := hand_run (d.word freeCountOffset - 1) shows2
    (relisted.edits.has shelf.one) (relisted.edits.has (shelf.has _ listed)) (shelf.low _ listed) (by omega)
  have edits : Edits d e (· ∈ Trunk.allPages (⟨page, []⟩ :: rest)) :=
    (relisted.edits.mono fun _ h => h.elim).trans (handed.edits.mono fun n same => same ▸ listed)
  refine ⟨e, t3, ?_, shows3, steady1.trans (steady2.trans steady3), ⟨edits, rest, ?_, .refl _⟩, ?_⟩
  · rw [starts, if_pos List.length_nil]
    dsimp only
    rw [nextIs, Action.bind_of_ok run2, Action.pure_bind_run]
    exact run3
  · refine shelf.take edits (List.Perm.refl _) (handed.first.trans relisted.word) handed.free ?_
    refine shelf.row.2.congr edits.alike.usableSize fun t member => ?_
    have inside : t.page ∈ Trunk.allPages rest := Trunk.page_mem member
    have apart := shelf.ne_one (List.mem_cons_of_mem page inside)
    have other : t.page ≠ page := fun same => (List.nodup_cons.mp shelf.once).1 (same ▸ inside)
    rw [handed.edits.images _ apart other, relisted.image _ apart]
  · rw [handed.blank, relisted.edits.alike.pageSize]

theorem takeLeaf_run {page last : Nat} {front : List Nat} {rest : List Trunk} (shows_ : s.Shows d)
    (shelf : d.Shelf (⟨page, front ++ [last]⟩ :: rest)) :
    ∃ e t, takeFirst page s = .ok last t ∧ t.Shows e ∧ s.Steady t ∧
      Removed d e (⟨page, front ++ [last]⟩ :: rest) last ∧ e.image last = Bytes.resize .empty d.pageSize := by
  have sound := shows_.disk_sound
  have listed : page ∈ Trunk.allPages (⟨page, front ++ [last]⟩ :: rest) := List.mem_cons_self
  have inside : last ∈ Trunk.allPages (⟨page, front ++ [last]⟩ :: rest) :=
    Trunk.leaf_mem List.mem_cons_self (List.mem_append_right _ List.mem_cons_self)
  have lowPage := shelf.low _ listed
  have lowLast := shelf.low _ inside
  have lengthSmall : d.word freeCountOffset < 4294967296 := Bytes.at32_lt _ _
  have length : (front ++ [last]).length = front.length + 1 := List.length_append
  have lastIs : leaf (d.image page) front.length = last := by
    have found := (trunk_reads sound shelf.row.1).2 front.length
      (Nat.lt_of_lt_of_eq (Nat.lt_succ_self _) length.symm)
    rw [List.getElem_append_right (Nat.le_refl _)] at found
    simpa using found
  have size := sound.sizes page
  have bounds := sound.pageSize_bounds
  have fits : 4 + (Bytes.ofNat32 front.length).size ≤ (d.image page).size := by
    rw [Bytes.size_ofNat32]
    omega
  obtain ⟨data, isData⟩ : ∃ data, data = (d.image page).overwrite 4 (Bytes.ofNat32 front.length) := ⟨_, rfl⟩
  have sizeData : data.size = d.pageSize := by
    rw [isData, Bytes.size_overwrite fits, size]
  have applied : Action.applied (Bytes.putU32 4 front.length) (d.image page) = .ok data :=
    Action.applied_ok.mpr (Bytes.putU32_ok.mpr ⟨fits, isData⟩)
  obtain ⟨t1, shows1, steady1, starts⟩ := takeFirst_starts shows_ shelf
  obtain ⟨t2, run2, shows2, steady2⟩ := Store.putPage_run shows1 (shelf.has _ listed) sizeData
  obtain ⟨e, t3, run3, shows3, steady3, handed⟩ := hand_run (d.word freeCountOffset - 1) shows2
    shelf.one (shelf.has _ inside) lowLast (by omega)
  have edits : Edits d e (· ∈ Trunk.allPages (⟨page, front ++ [last]⟩ :: rest)) :=
    ((Edits.put data (by omega)).mono fun n same => same ▸ listed).trans
      (handed.edits.mono fun n same => same ▸ inside)
  have perm : (Trunk.allPages (⟨page, front ++ [last]⟩ :: rest)).Perm
      (last :: Trunk.allPages (⟨page, front⟩ :: rest)) := by
    have moved : (page :: front ++ last :: Trunk.allPages rest).Perm
        (last :: (page :: front ++ Trunk.allPages rest)) := List.perm_middle
    rw [Trunk.allPages_cons, Trunk.allPages_cons]
    dsimp only
    rw [List.append_assoc]
    exact moved
  refine ⟨e, t3, ?_, shows3, steady1.trans (steady2.trans steady3), ⟨edits, ⟨page, front⟩ :: rest, ?_, perm⟩,
    handed.blank⟩
  · dsimp only at starts
    rw [starts, length, if_neg (Nat.succ_ne_zero _), Nat.add_sub_cancel, lastIs,
      Action.bind_of_ok (checkPage_run shows1 lowLast (shelf.has _ inside)), applied, Action.lift_ok_bind,
      Action.bind_of_ok run2, Action.pure_bind_run]
    exact run3
  · have once := (List.nodup_cons.mp (perm.nodup shelf.once)).1
    have other : page ≠ last := fun same => once (same ▸ List.mem_cons_self)
    refine shelf.take edits perm ?_ handed.free ⟨?_, ?_⟩
    · rw [handed.first, word_put_other _ _ (by omega)]
      exact shelf.first
    · have trimmed := trunkAt_trim sound shelf.row.1
      rw [← isData] at trimmed
      exact trimmed.congr edits.alike.usableSize (handed.edits.images _ (Nat.ne_of_gt lowPage) other)
    · refine shelf.row.2.congr edits.alike.usableSize fun t member => ?_
      have free : t.page ∈ Trunk.allPages rest := Trunk.page_mem member
      have apart := shelf.ne_one (List.mem_append_right (page :: (front ++ [last])) free)
      have notLast : t.page ≠ last := fun same =>
        once (List.mem_cons_of_mem _ (List.mem_append_right _ (same ▸ free)))
      have notPage : t.page ≠ page := fun same =>
        (List.nodup_cons.mp shelf.once).1 (List.mem_append_right _ (same ▸ free))
      rw [handed.edits.images _ apart notLast, put_other _ _ notPage]

theorem takeFirst_run {trunk : Trunk} {rest : List Trunk} (shows_ : s.Shows d) (shelf : d.Shelf (trunk :: rest)) :
    ∃ page e t, takeFirst trunk.page s = .ok page t ∧ t.Shows e ∧ s.Steady t ∧ Removed d e (trunk :: rest) page ∧
      e.image page = Bytes.resize .empty d.pageSize := by
  obtain ⟨page, leaves⟩ := trunk
  rcases List.eq_nil_or_concat' leaves with rfl | ⟨front, last, rfl⟩
  · exact ⟨page, takeTrunk_run shows_ shelf⟩
  · exact ⟨last, takeLeaf_run shows_ shelf⟩

def lengthen (d : Disk) (count : Nat) : Disk := { d with count := count }

theorem keeps_lengthen (d : Disk) (count : Nat) {P E : Nat → Prop} :
    Keeps d (lengthen d count) P E :=
  ⟨⟨rfl, rfl, rfl, rfl, rfl⟩, fun _ _ _ _ _ => rfl, fun _ _ _ => rfl, fun _ _ _ => rfl⟩

theorem extend_ok (shows_ : s.Shows d) {page : Nat} (run : Store.onPager Pager.extend s = .ok page t) :
    page = d.count + 1 ∧ t.Shows (lengthen d page) ∧ s.Steady t := by
  obtain ⟨p, extended, rfl⟩ := Store.onPager_ok.mp run
  obtain ⟨isNext, -, soundP, steadyP, count, image⟩ := Pager.extend_ok shows_.sound.pager extended
  have same : s.pager.pageCount = d.count := shows_.count
  obtain ⟨showsT, steady⟩ := Store.shows_of_pager (d := lengthen d page) shows_.sound soundP steadyP
    ⟨page, d.image, by
      rw [← shows_.same]
      change p.pages = ⟨page, s.pager.pages.image⟩
      rw [← image, ← count], by
      rw [← shows_.same]
      rfl⟩
  exact ⟨by rw [isNext, same], showsT, steady⟩

theorem extendFile_ok (shows_ : s.Shows d) {page : Nat} (run : extendFile s = .ok page t) :
    t.Shows (lengthen d page) ∧ s.Steady t ∧ d.count < page ∧ d.isReserved page = false ∧
      ∀ n, d.count < n → n < page → d.isReserved n = true := by
  unfold extendFile extendFile.go at run
  obtain ⟨page1, s1, run1, run⟩ := Action.bind_ok.mp run
  obtain ⟨is1, shows1, steady1⟩ := extend_ok shows_ run1
  rw [Action.get_bind, shows1.isReserved] at run
  have reserved1 : (lengthen d page1).isReserved page1 = d.isReserved page1 := rfl
  rw [reserved1] at run
  cases here1 : d.isReserved page1 with
  | false =>
    rw [here1] at run
    cases run
    exact ⟨shows1, steady1, by omega, here1, fun n low high => by omega⟩
  | true =>
    rw [here1, if_pos rfl] at run
    unfold extendFile.go at run
    obtain ⟨page2, s2, run2, run⟩ := Action.bind_ok.mp run
    obtain ⟨is2, shows2, steady2⟩ := extend_ok shows1 run2
    have is2 : @Eq Nat page2 (page1 + 1) := is2
    rw [Action.get_bind, shows2.isReserved] at run
    have reserved2 : (lengthen (lengthen d page1) page2).isReserved page2 = d.isReserved page2 := rfl
    rw [reserved2] at run
    cases here2 : d.isReserved page2 with
    | false =>
      rw [here2] at run
      cases run
      refine ⟨shows2, steady1.trans steady2, by omega, here2, fun n low high => ?_⟩
      rw [show n = page1 by omega]
      exact here1
    | true =>
      rw [here2, if_pos rfl] at run
      unfold extendFile.go at run
      obtain ⟨is3, shows3, steady3⟩ := extend_ok shows2 run
      have is3 : @Eq Nat page (page2 + 1) := is3
      rw [is2] at here2
      have row := isReserved_row shows_.disk_sound here1 here2
      refine ⟨shows3, steady1.trans (steady2.trans steady3), by omega, ?_, fun n low high => ?_⟩
      · rw [show page = page1 + 2 by omega]
        exact row
      · rcases Nat.lt_or_ge page1 n with behind | front
        · rw [show n = page1 + 1 by omega]
          exact here2
        · rw [show n = page1 by omega]
          exact here1

theorem listing_lengthen (listing : d.Listing trunks owned) {page : Nat} (longer : d.count < page)
    (free : d.isReserved page = false)
    (between : ∀ n, d.count < n → n < page → d.isReserved n = true) :
    (lengthen d page).Listing trunks (page :: owned) := by
  have fresh : page ∉ Trunk.allPages trunks ++ owned := fun inside => by
    have high := ((listing.part.all page).mp inside).1.2
    omega
  refine ⟨⟨?_, ?_⟩, List.mem_cons_of_mem _ listing.one, listing.first, listing.count,
    listing.row.congr rfl fun _ _ => rfl⟩
  · exact List.perm_middle.symm.nodup (List.nodup_cons.mpr ⟨fresh, listing.part.once⟩)
  · intro n
    rw [List.perm_middle.mem_iff, List.mem_cons, listing.part.all]
    have reserved : (lengthen d page).isReserved n = d.isReserved n := rfl
    have has : (lengthen d page).Has n ↔ 1 ≤ n ∧ n ≤ page := Iff.rfl
    have hasOld : d.Has n ↔ 1 ≤ n ∧ n ≤ d.count := Iff.rfl
    rw [reserved, has, hasOld]
    constructor
    · rintro (rfl | ⟨⟨low, high⟩, freeN⟩)
      · exact ⟨⟨by omega, Nat.le_refl _⟩, free⟩
      · exact ⟨⟨low, by omega⟩, freeN⟩
    · rintro ⟨⟨low, high⟩, freeN⟩
      by_cases old : n ≤ d.count
      · exact .inr ⟨⟨low, old⟩, freeN⟩
      · refine .inl (Nat.le_antisymm high (Nat.le_of_not_lt fun less => ?_))
        rw [between n (Nat.lt_of_not_le old) less] at freeN
        cases freeN

theorem shelf_lengthen (shelf : d.Shelf trunks) {page : Nat} (longer : d.count < page) :
    (lengthen d page).Shelf trunks := by
  have has : ∀ n, d.Has n → (lengthen d page).Has n := fun n old => ⟨old.1, Nat.le_trans old.2 (Nat.le_of_lt longer)⟩
  exact ⟨has 1 shelf.one, shelf.once, shelf.low, fun n free => has n (shelf.has n free), shelf.plain, shelf.first,
    shelf.count, shelf.row.congr rfl fun _ _ => rfl⟩

/-- Where an allocated page comes from: the freelist, or the end of the file if the list is empty. -/
inductive Source (d e : Disk) (page : Nat) (fewer : List Trunk) : List Trunk → Prop
  | taken {trunk : Trunk} {rest : List Trunk} (edits : Edits d e (· ∈ Trunk.allPages (trunk :: rest)))
      (perm : (Trunk.allPages (trunk :: rest)).Perm (page :: Trunk.allPages fewer))
      (blank : e.image page = Bytes.resize .empty d.pageSize) : Source d e page fewer (trunk :: rest)
  | new (longer : d.count < page) (same : e = lengthen d page) (none_ : fewer = []) (free : d.isReserved page = false)
      (between : ∀ n, d.count < n → n < page → d.isReserved n = true) : Source d e page fewer []

theorem allocate_shelf (shows_ : s.Shows d) (shelf : d.Shelf trunks) {page : Nat} (run : allocate s = .ok page t) :
    ∃ e fewer, t.Shows e ∧ s.Steady t ∧ e.Shelf fewer ∧ Source d e page fewer trunks := by
  obtain ⟨t1, run1, shows1, steady1⟩ := firstTrunk_run shows_ shelf.one
  unfold allocate at run
  rw [Action.bind_of_ok run1, shelf.first] at run
  cases trunks with
  | nil =>
    rw [if_neg (fun nonzero => nonzero rfl)] at run
    obtain ⟨showsT, steady, longer, free, between⟩ := extendFile_ok shows1 run
    exact ⟨_, [], showsT, steady1.trans steady, shelf_lengthen shelf longer, .new longer rfl rfl free between⟩
  | cons trunk rest =>
    have nonzero : trunk.page ≠ 0 := Nat.pos_iff_ne_zero.mp
      (Nat.lt_of_lt_of_le (Nat.succ_pos 1) (shelf.low _ (Trunk.page_mem List.mem_cons_self)))
    have run : (if trunk.page ≠ 0 then takeFirst trunk.page else extendFile) t1 = .ok page t := run
    rw [if_pos nonzero] at run
    obtain ⟨taken, e, u, run2, showsU, steadyU, ⟨edits, fewer, shelfE, perm⟩, blank⟩ := takeFirst_run shows1 shelf
    rw [run2] at run
    cases run
    exact ⟨e, fewer, showsU, steady1.trans steadyU, shelfE, .taken edits perm blank⟩

theorem allocate_listing (shows_ : s.Shows d) (listing : d.Listing trunks owned) {page : Nat}
    (run : allocate s = .ok page t) :
    ∃ e fewer, t.Shows e ∧ s.Steady t ∧ Keeps d e (Others owned) (fun _ => False) ∧
      e.Listing fewer (page :: owned) ∧ (∀ n ∈ Trunk.allPages fewer, n ∈ Trunk.allPages trunks) ∧
      d.count ≤ e.count := by
  have shelf := listing.shelf
  obtain ⟨e, fewer, showsT, steady, shelfE, source⟩ := allocate_shelf shows_ shelf run
  cases source with
  | new longer same none_ free between =>
    subst same none_
    exact ⟨_, [], showsT, steady, keeps_lengthen d page, listing_lengthen listing longer free between,
      fun _ inside => inside, Nat.le_of_lt longer⟩
  | taken edits perm blank =>
    refine ⟨e, fewer, showsT, steady, (edits.keeps shows_.disk_sound shelf.plain).mono (fun n free => listing.apart free)
      (fun _ h => h), listing.taken edits.alike edits.count perm shelfE, fun n inside =>
        perm.mem_iff.mpr (List.mem_cons_of_mem _ inside), Nat.le_of_eq edits.count.symm⟩

theorem allocateMany_listing (n : Nat) {pages : List PageNo} (shows_ : s.Shows d)
    (listing : d.Listing trunks owned) (run : allocateMany n s = .ok pages t) :
    ∃ e fewer, t.Shows e ∧ s.Steady t ∧ Keeps d e (Others owned) (fun _ => False) ∧
      e.Listing fewer (pages ++ owned) ∧ (∀ n ∈ Trunk.allPages fewer, n ∈ Trunk.allPages trunks) ∧
      d.count ≤ e.count ∧ pages.length = n := by
  induction n generalizing s d trunks owned pages with
  | zero =>
    cases run
    exact ⟨d, trunks, shows_, .refl _, .refl d, listing, fun _ inside => inside, Nat.le_refl _, rfl⟩
  | succ n ih =>
    unfold allocateMany at run
    obtain ⟨page, s1, run1, run⟩ := Action.bind_ok.mp run
    obtain ⟨more, s2, run2, run⟩ := Action.bind_ok.mp run
    cases run
    obtain ⟨e1, fewer1, shows1, steady1, keeps1, listing1, inside1, grows1⟩ :=
      allocate_listing shows_ listing run1
    obtain ⟨e2, fewer2, shows2, steady2, keeps2, listing2, inside2, grows2, length⟩ :=
      ih shows1 listing1 run2
    refine ⟨e2, fewer2, shows2, steady1.trans steady2, ?_, listing2.perm List.perm_middle,
      fun n inside => inside1 n (inside2 n inside), Nat.le_trans grows1 grows2, congrArg Nat.succ length⟩
    exact keeps1.trans (keeps2.mono (fun n away inside => away (List.mem_cons_of_mem _ inside))
      (fun _ h => h))

theorem allocate_ok (shows_ : s.Shows d) (books : d.Books owned) {page : Nat}
    (run : allocate s = .ok page t) :
    ∃ e, t.Shows e ∧ s.Steady t ∧ Keeps d e (Others owned) (fun _ => False) ∧
      e.Books (page :: owned) ∧ d.count ≤ e.count := by
  obtain ⟨trunks, ledger⟩ := books
  obtain ⟨e, fewer, showsT, steady, keeps, listing, inside, grows⟩ :=
    allocate_listing shows_ ledger.listing run
  exact ⟨e, showsT, steady, keeps, ⟨fewer, ledger.kept listing keeps inside⟩, grows⟩

theorem allocateMany_ok (n : Nat) {pages : List PageNo} (shows_ : s.Shows d) (books : d.Books owned)
    (run : allocateMany n s = .ok pages t) :
    ∃ e, t.Shows e ∧ s.Steady t ∧ Keeps d e (Others owned) (fun _ => False) ∧
      e.Books (pages ++ owned) ∧ d.count ≤ e.count ∧ pages.length = n := by
  obtain ⟨trunks, ledger⟩ := books
  obtain ⟨e, fewer, showsT, steady, keeps, listing, inside, grows, length⟩ :=
    allocateMany_listing n shows_ ledger.listing run
  exact ⟨e, showsT, steady, keeps, ⟨fewer, ledger.kept listing keeps inside⟩, grows, length⟩

theorem length_le_count {pages : List Nat} (once : pages.Nodup) (has : ∀ n ∈ pages, d.Has n) :
    pages.length ≤ d.count := by
  have inside : pages ⊆ List.range' 1 d.count := fun n member => by
    obtain ⟨low, high⟩ := has n member
    exact List.mem_range'_1.mpr ⟨low, by omega⟩
  have short := (List.subperm_of_subset once inside).length_le
  rw [List.length_range'] at short
  exact short

theorem trunkAt_add (sound : d.Sound) {trunk : Trunk} {following page : Nat}
    (at_ : d.TrunkAt trunk following) (room : trunk.leaves.length < writeCapacity d.usableSize)
    (small : page < 4294967296) :
    ∃ data, Action.applied (do
        Bytes.putU32 (leafStart trunk.leaves.length) page
        Bytes.putU32 4 (trunk.leaves.length + 1)) (d.image trunk.page) = .ok data ∧
      data.size = d.pageSize ∧
      (d.put trunk.page data).TrunkAt ⟨trunk.page, trunk.leaves ++ [page]⟩ following := by
  have size := sound.sizes trunk.page
  have usable := sound.usable_bounds
  have bounds := sound.pageSize_bounds
  obtain ⟨n, isLength⟩ : ∃ n, n = trunk.leaves.length := ⟨_, rfl⟩
  rw [← isLength] at room
  have wide : 8 + 4 * (n + 1) ≤ d.usableSize - 16 := by
    unfold writeCapacity at room
    have quotient := Nat.div_mul_le_self d.usableSize 4
    omega
  have start : leafStart n = 8 + 4 * n := rfl
  have fits1 : leafStart n + (Bytes.ofNat32 page).size ≤ (d.image trunk.page).size := by
    rw [Bytes.size_ofNat32]
    omega
  obtain ⟨mid, isMid⟩ : ∃ mid, mid = (d.image trunk.page).overwrite (leafStart n) (Bytes.ofNat32 page) :=
    ⟨_, rfl⟩
  have sizeMid : mid.size = d.pageSize := by
    rw [isMid, Bytes.size_overwrite fits1, size]
  have fits2 : 4 + (Bytes.ofNat32 (n + 1)).size ≤ mid.size := by
    rw [Bytes.size_ofNat32]
    omega
  obtain ⟨data, isData⟩ : ∃ data, data = mid.overwrite 4 (Bytes.ofNat32 (n + 1)) := ⟨_, rfl⟩
  have four : ∀ k, (Bytes.ofNat32 k).size = 4 := Bytes.size_ofNat32
  refine ⟨data, ?_, by rw [isData, Bytes.size_overwrite fits2, sizeMid], ?_⟩
  · rw [← isLength]
    refine Action.applied_ok.mpr (Action.bind_ok.mpr ⟨(), mid, Bytes.putU32_ok.mpr ⟨fits1, isMid⟩, ?_⟩)
    exact Bytes.putU32_ok.mpr ⟨fits2, isData⟩
  · refine ⟨?_, ?_, fun i h => ?_, ?_⟩
    · rw [put_self, isData, Bytes.at32_overwrite fits2 (by omega), isMid,
        Bytes.at32_overwrite fits1 (by omega)]
      exact at_.next
    · rw [put_self, isData, Bytes.at32_overwrite_same (by omega), List.length_append, ← isLength]
      exact Nat.mod_eq_of_lt (by omega)
    · have startI : leafStart i = 8 + 4 * i := rfl
      have short : i < n + 1 := by
        rw [List.length_append, ← isLength] at h
        exact h
      rw [put_self, isData, Bytes.at32_overwrite fits2 (by rw [four]; omega), isMid]
      rcases Nat.lt_or_eq_of_le (Nat.le_of_lt_succ short) with old | rfl
      · rw [Bytes.at32_overwrite fits1 (by omega), at_.leaf i (by omega),
          List.getElem_append_left (by omega)]
      · rw [Bytes.at32_overwrite_same (by omega), List.getElem_append_right (by omega)]
        simpa using small
    · change (trunk.leaves ++ [page]).length ≤ readCapacity d.usableSize
      rw [List.length_append, ← isLength]
      change n + 1 ≤ (d.usableSize - 8) / 4
      exact (Nat.le_div_iff_mul_le (by decide)).mpr (by omega)

theorem trunkAt_fresh (sound : d.Sound) {page following : Nat} (small : following < 4294967296) :
    (d.put page ((Bytes.ofNat32 following).resize d.pageSize)).TrunkAt ⟨page, []⟩ following := by
  have bounds := sound.pageSize_bounds
  have four := Bytes.size_ofNat32 following
  have bytes : ∀ i, i < 8 → ((Bytes.ofNat32 following).resize d.pageSize).get! i =
      (Bytes.ofNat32 following).get! i := by
    intro i low
    rw [Bytes.get_resize, if_pos (by omega)]
  refine ⟨?_, ?_, fun i h => absurd h (Nat.not_lt_zero i), Nat.zero_le _⟩
  · rw [put_self]
    have has : Bytes.HasAt ((Bytes.ofNat32 following).resize d.pageSize) 0 (Bytes.ofNat32 following) :=
      ⟨by rw [Bytes.size_resize]; omega, fun k h => by rw [Nat.zero_add, bytes k (by omega)]⟩
    rw [Bytes.at32_of_hasAt has]
    exact Nat.mod_eq_of_lt small
  · rw [put_self]
    unfold Bytes.at32
    rw [bytes 4 (by decide), bytes 5 (by decide), bytes 6 (by decide), bytes 7 (by decide),
      Bytes.get_of_ge (by omega), Bytes.get_of_ge (by omega), Bytes.get_of_ge (by omega),
      Bytes.get_of_ge (by omega)]
    rfl

structure Added (d e : Disk) (trunks more : List Trunk) (page : Nat) : Prop where
  edits : Edits d e (fun n => n = page ∨ n ∈ Trunk.allPages trunks)
  first : e.word firstTrunkOffset = Trunk.firstOr 0 more
  free : e.word freeCountOffset = d.word freeCountOffset
  row : e.Trunks 0 more
  perm : (page :: Trunk.allPages trunks).Perm (Trunk.allPages more)

theorem addLeaf_run (shows_ : s.Shows d) {trunk : Trunk} {rest : List Trunk} {page : Nat}
    (row : d.Trunks 0 (trunk :: rest)) (first : d.word firstTrunkOffset = trunk.page)
    (has : d.Has trunk.page) (low : 2 ≤ trunk.page)
    (once : (Trunk.allPages (trunk :: rest)).Nodup) (small : page < 4294967296) :
    ∃ added e t, addLeaf trunk.page page s = .ok added t ∧ t.Shows e ∧ s.Steady t ∧
      if added then ∃ more, Added d e (trunk :: rest) more page else e = d := by
  have sound := shows_.disk_sound
  obtain ⟨t1, run1, shows1, steady1⟩ := readTrunk_run shows_ row.1 has
  unfold addLeaf
  have nonzero : trunk.page ≠ 0 := Nat.pos_iff_ne_zero.mp (Nat.lt_of_lt_of_le Nat.two_pos low)
  rw [if_neg nonzero, Action.bind_of_ok (checkPage_run shows_ low has),
    Action.bind_of_ok run1]
  dsimp only
  rw [Action.get_bind, shows1.usableSize]
  by_cases room : trunk.leaves.length < writeCapacity d.usableSize
  · obtain ⟨data, applied, size, at_⟩ := trunkAt_add sound row.1 room small
    obtain ⟨t2, run2, shows2, steady2⟩ := Store.putPage_run shows1 has size
    refine ⟨true, _, t2, ?_, shows2, steady1.trans steady2, ?_⟩
    · rw [if_pos room, applied, Action.lift_ok_bind, Action.bind_of_ok run2]
      rfl
    · rw [if_pos rfl]
      have edits : Edits d (d.put trunk.page data) (· = trunk.page) := Edits.put data (by omega)
      refine ⟨⟨trunk.page, trunk.leaves ++ [page]⟩ :: rest, edits.mono fun n same => .inr ?_, ?_,
        word_put_other _ _ (by omega), ⟨at_, row.2.congr rfl fun t member => ?_⟩, ?_⟩
      · rw [same]
        exact List.mem_cons_self
      · rw [word_put_other _ _ (by omega)]
        exact first
      · refine put_other _ _ fun same => ?_
        rw [Trunk.allPages_cons] at once
        exact (List.nodup_cons.mp once).1 (List.mem_append_right _ (same ▸ Trunk.page_mem member))
      · have moved : (page :: (trunk.page :: trunk.leaves ++ Trunk.allPages rest)).Perm
            (trunk.page :: trunk.leaves ++ page :: Trunk.allPages rest) := List.perm_middle.symm
        rw [Trunk.allPages_cons, Trunk.allPages_cons]
        dsimp only
        rw [List.append_assoc]
        exact moved
  · exact ⟨false, d, t1, by rw [if_neg room]; rfl, shows1, steady1, rfl⟩

theorem addTrunk_run (shows_ : s.Shows d) {page : Nat} (row : d.Trunks 0 trunks)
    (first : d.word firstTrunkOffset = Trunk.firstOr 0 trunks) (has : d.Has page) (other : page ≠ 1) (one : d.Has 1)
    (fresh : page ∉ Trunk.allPages trunks) (low : ∀ n ∈ Trunk.allPages trunks, 2 ≤ n) :
    ∃ e t, (do
        Store.putFresh page (Bytes.ofNat32 (Trunk.firstOr 0 trunks))
        Store.setHeaderWord firstTrunkOffset page : StoreM Unit) s = .ok () t ∧
      t.Shows e ∧ s.Steady t ∧ ∃ more, Added d e trunks more page := by
  have sound := shows_.disk_sound
  have small : Trunk.firstOr 0 trunks < 4294967296 := by
    rw [← first]
    exact Bytes.at32_lt _ _
  obtain ⟨t1, run1, shows1, steady1⟩ := putFresh_shows page (Bytes.ofNat32 (Trunk.firstOr 0 trunks)) shows_ has
  have edits1 : Edits d (d.put page ((Bytes.ofNat32 (Trunk.firstOr 0 trunks)).resize d.pageSize)) (· = page) :=
    Edits.put _ other
  obtain ⟨e, t2, run2, shows2, steady2, relisted⟩ :=
    setWord_run page shows1 one (.inl rfl) (sound.has_lt has)
  have edits := edits1.trans (relisted.edits.mono fun _ h => h.elim)
  refine ⟨e, t2, by rw [Action.bind_of_ok run1]; exact run2, shows2, steady1.trans steady2,
    ⟨page, []⟩ :: trunks, edits.mono fun n same => .inl same, relisted.word, ?_, ⟨?_, ?_⟩, List.Perm.refl _⟩
  · rw [relisted.other _ (.inr rfl) (by decide), word_put_other _ _ other]
  · exact (trunkAt_fresh sound small).congr relisted.edits.alike.usableSize (relisted.image page other)
  · refine row.congr edits.alike.usableSize fun t member => ?_
    have inside := Trunk.page_mem member
    have two := low _ inside
    exact edits.images _ (by omega) fun same => fresh (same ▸ inside)

/-- The page becomes a leaf of the first trunk, or a trunk of its own if there is no room. -/
theorem enlist_run (shows_ : s.Shows d) {page : Nat} (row : d.Trunks 0 trunks)
    (first : d.word firstTrunkOffset = Trunk.firstOr 0 trunks) (has : ∀ n ∈ page :: Trunk.allPages trunks, d.Has n)
    (low : ∀ n ∈ page :: Trunk.allPages trunks, 2 ≤ n) (one : d.Has 1)
    (once : (page :: Trunk.allPages trunks).Nodup) :
    ∃ e t, (do
        if !(← addLeaf (Trunk.firstOr 0 trunks) page) then
          Store.putFresh page (Bytes.ofNat32 (Trunk.firstOr 0 trunks))
          Store.setHeaderWord firstTrunkOffset page : StoreM Unit) s = .ok () t ∧
      t.Shows e ∧ s.Steady t ∧ ∃ more, Added d e trunks more page := by
  obtain ⟨fresh, once⟩ := List.nodup_cons.mp once
  obtain ⟨hasPage, has⟩ := List.forall_mem_cons.mp has
  obtain ⟨lowPage, low⟩ := List.forall_mem_cons.mp low
  have alone : ∀ t : Store, t.Shows d → _ := fun t shown =>
    addTrunk_run shown row first hasPage (Nat.ne_of_gt lowPage) one fresh low
  cases trunks with
  | nil => exact alone s shows_
  | cons trunk rest =>
    have listed : trunk.page ∈ Trunk.allPages (trunk :: rest) := List.mem_cons_self
    obtain ⟨listed, e, t, run, showsT, steadyT, outcome⟩ := addLeaf_run shows_ row first (has _ listed)
      (low _ listed) once (shows_.disk_sound.has_lt hasPage)
    have run : addLeaf (Trunk.firstOr 0 (trunk :: rest)) page s = .ok listed t := run
    cases listed with
    | true => exact ⟨e, t, by rw [Action.bind_of_ok run]; rfl, showsT, steadyT, outcome⟩
    | false =>
      rw [if_neg (by decide)] at outcome
      subst outcome
      obtain ⟨e, u, run', showsU, steadyU, added⟩ := alone t showsT
      exact ⟨e, u, by rw [Action.bind_of_ok run]; exact run', showsU, steadyT.trans steadyU, added⟩

/-- A page that is given back is put on the freelist, and the pointer map says that it is free. -/
theorem free_shelf (shows_ : s.Shows d) (shelf : d.Shelf trunks) {page : Nat} (low : 2 ≤ page) (has : d.Has page)
    (plain : d.isMap page = false) (behind : d.mapped = true → d.mapPage page < page)
    (fresh : page ∉ Trunk.allPages trunks) :
    ∃ e1 t1 e t more, free page s = .ok () t ∧ t.Shows e ∧ s.Steady t ∧ e.Shelf more ∧
      (page :: Trunk.allPages trunks).Perm (Trunk.allPages more) ∧
      Edits d e1 (fun n => n = page ∨ n ∈ Trunk.allPages trunks) ∧ t1.Shows e1 ∧ s.Steady t1 ∧
      PointerMap.put page ⟨.free, 0⟩ t1 = .ok () t ∧ Alike e1 e ∧ e.count = e1.count ∧
      ∀ n, d.isMap n = false → e.image n = e1.image n := by
  have sound := shows_.disk_sound
  have once : (page :: Trunk.allPages trunks).Nodup := List.nodup_cons.mpr ⟨fresh, shelf.once⟩
  have hasAll : ∀ n ∈ page :: Trunk.allPages trunks, d.Has n := List.forall_mem_cons.mpr ⟨has, shelf.has⟩
  have enough : d.word freeCountOffset + 1 < 4294967296 := by
    have short := length_le_count once hasAll
    have limit := sound.bound
    have bound := sound.maxPages_lt
    rw [List.length_cons] at short
    rw [shelf.count]
    omega
  obtain ⟨t1, run1, shows1, steady1⟩ := count_run shows_ shelf.one
  obtain ⟨t2, run2, shows2, steady2⟩ := firstTrunk_run shows1 shelf.one
  obtain ⟨e1, t3, run3, shows3, steady3, relisted⟩ := setWord_run _ shows2 shelf.one (.inr rfl) enough
  have first1 : e1.word firstTrunkOffset = Trunk.firstOr 0 trunks := by
    rw [relisted.other _ (.inl rfl) (by decide), shelf.first]
  have row1 : e1.Trunks 0 trunks := shelf.row.congr relisted.edits.alike.usableSize fun t member =>
    relisted.image _ (shelf.ne_one (Trunk.page_mem member))
  obtain ⟨e2, t4, run4, shows4, steady4, more, added⟩ := enlist_run shows3 row1 first1
    (fun n inside => relisted.edits.has (hasAll n inside)) (List.forall_mem_cons.mpr ⟨low, shelf.low⟩)
    (relisted.edits.has shelf.one) once
  have edits : Edits d e2 (fun n => n = page ∨ n ∈ Trunk.allPages trunks) :=
    (relisted.edits.mono fun _ h => h.elim).trans added.edits
  obtain ⟨e3, t5, run5, shows5, steady5, alike, count, images⟩ :=
    PointerMap.put_images ⟨.free, 0⟩ shows4 low (edits.has has) fun mapped => by
      rw [edits.alike.mapPage]
      exact behind (edits.alike.mapped.symm.trans mapped)
  have steady := steady1.trans (steady2.trans (steady3.trans steady4))
  have listed : e2.Shelf more := by
    have member : ∀ n ∈ Trunk.allPages more, n = page ∨ n ∈ Trunk.allPages trunks := fun n inside =>
      List.mem_cons.mp (added.perm.mem_iff.mpr inside)
    refine ⟨edits.has shelf.one, added.perm.nodup once, ?_, ?_, ?_, added.first, ?_, added.row⟩
    · exact fun n inside => (member n inside).elim (fun same => same ▸ low) (shelf.low n)
    · exact fun n inside => edits.has ((member n inside).elim (fun same => same ▸ has) (shelf.has n))
    · intro n inside
      rw [edits.alike.isMap]
      exact (member n inside).elim (fun same => same ▸ plain) (shelf.plain n)
    · rw [added.free, relisted.word, shelf.count, ← added.perm.length_eq]
      rfl
  have images : ∀ n, d.isMap n = false → e3.image n = e2.image n := fun n plain =>
    images n ((edits.alike.isMap n).trans plain)
  refine ⟨e2, t4, e3, t5, more, ?_, shows5, steady.trans steady5, ?_, added.perm, edits, shows4, steady, run5, alike,
    count, images⟩
  · unfold free
    rw [Action.bind_of_ok (checkPage_run shows_ low has), Action.bind_of_ok run1,
      Action.bind_of_ok run2, Action.bind_of_ok run3, shelf.first]
    obtain ⟨listed, u, runA, run4⟩ := Action.bind_ok.mp run4
    rw [Action.bind_of_ok runA]
    cases listed with
    | true =>
      cases run4
      exact run5
    | false =>
      obtain ⟨_, v, runB, runC⟩ := Action.bind_ok.mp run4
      change (Store.putFresh page _ >>= _) u = _
      rw [Action.bind_of_ok runB, Action.bind_of_ok runC]
      exact run5
  · refine listed.of_images alike count fun n inside => images n ?_
    rcases inside with rfl | free
    · exact isMap_of_free (isReserved_one sound)
    · rw [← edits.alike.isMap]
      exact listed.plain n free

theorem free_listing (shows_ : s.Shows d) {page : Nat} (listing : d.Listing trunks (page :: owned))
    (other : page ≠ 1) :
    ∃ e t more, free page s = .ok () t ∧ t.Shows e ∧ s.Steady t ∧ Keeps d e (Others owned) (· = page) ∧
      e.Listing more owned ∧ (page :: Trunk.allPages trunks).Perm (Trunk.allPages more) ∧
      e.count = d.count ∧ (d.mapped = true → e.entry page = some ⟨.free, 0⟩) := by
  have sound := shows_.disk_sound
  obtain ⟨has, notReserved⟩ := listing.has_owned (n := page) List.mem_cons_self
  have low : 2 ≤ page := by
    have positive := has.1
    omega
  have once := List.nodup_append.mp listing.part.once
  have fresh : page ∉ Trunk.allPages trunks := fun inside =>
    once.2.2 page inside page List.mem_cons_self rfl
  have notOwned : page ∉ owned := (List.nodup_cons.mp once.2.1).1
  have one : 1 ∈ owned := by
    rcases List.mem_cons.mp listing.one with same | inside
    · exact absurd same.symm other
    · exact inside
  have plain := isMap_of_free notReserved
  obtain ⟨e1, t1, e, t, more, run, showsT, steady, shelf, perm, edits, shows1, steady1, put, -, count, -⟩ :=
    free_shelf shows_ listing.shelf low has plain
      (fun mapped => (Described.bounds ⟨low, has, notReserved⟩ sound mapped).2.1) fresh
  have described : e1.Described page :=
    ⟨low, edits.has has, (edits.alike.isReserved page).trans notReserved⟩
  obtain ⟨e', t', put', showsT', -, quiet, entry⟩ := PointerMap.put_run shows1 described (e := ⟨.free, 0⟩) (by decide)
  cases put.symm.trans put'
  cases showsT.same.symm.trans showsT'.same
  have keeps1 := edits.keeps sound fun n changed =>
    changed.elim (fun same => same ▸ plain) (listing.shelf.plain n)
  have keeps : Keeps d e (Others owned) (· = page) := by
    refine (keeps1.mono ?_ (fun _ h => h.elim)).trans (quiet.toKeeps.mono (fun _ h => h.elim) fun _ => id)
    rintro n (rfl | inside)
    · exact notOwned
    · exact fun owns => once.2.2 n inside n (List.mem_cons_of_mem _ owns) rfl
  have count := count.trans edits.count
  refine ⟨e, t, more, run, showsT, steady, keeps, ?_, perm, count, fun mapped =>
    entry (edits.alike.mapped.trans mapped)⟩
  refine ⟨(listing.part.perm ?_).congr keeps.alike count, one, shelf.first, shelf.count, shelf.row⟩
  exact List.perm_middle.trans (perm.append_right owned)

theorem free_run (shows_ : s.Shows d) {page : Nat} (books : d.Books (page :: owned))
    (other : page ≠ 1) :
    ∃ e t, free page s = .ok () t ∧ t.Shows e ∧ s.Steady t ∧
      Keeps d e (Others owned) (Others owned) ∧ e.Books owned ∧ e.count = d.count := by
  obtain ⟨trunks, ledger⟩ := books
  obtain ⟨e, t, more, run, showsT, steady, keeps, listing, perm, count, entry⟩ :=
    free_listing shows_ ledger.listing other
  have fresh : page ∉ owned := (List.nodup_cons.mp ledger.listing.once).1
  refine ⟨e, t, run, showsT, steady, keeps.mono (fun _ => id) (fun n same => same ▸ fresh),
    ⟨more, listing.ledger fun mapped n inside => ?_⟩, count⟩
  have mapped := keeps.alike.mapped.symm.trans mapped
  by_cases same : n = page
  · subst same
    exact entry mapped
  · have old : n ∈ Trunk.allPages trunks := by
      rcases List.mem_cons.mp (perm.mem_iff.mpr inside) with new | old
      · exact absurd new same
      · exact old
    rw [keeps.entries n (ledger.has_free old).2 same]
    exact ledger.mapped mapped n old

theorem contains_insert (seen : PageSet) (page n : Nat) :
    (seen.insert page).contains n = true ↔ n = page ∨ seen.contains n = true := by
  rw [Std.TreeSet.contains_insert, Bool.or_eq_true, beq_iff_eq]
  exact or_congr_left (Nat.compare_eq_eq.trans eq_comm)

theorem walkLeaves_run (shows_ : s.Shows d) {data : Bytes} (leaves : List Nat) {i : Nat} {seen : PageSet}
    (listed : ∀ k (h : k < leaves.length), leaf data (i + k) = leaves[k])
    (has : ∀ n ∈ leaves, 2 ≤ n ∧ d.Has n) (once : leaves.Nodup)
    (unseen : ∀ n ∈ leaves, ¬ seen.contains n = true) :
    ∃ more, walkLeaves data leaves.length i seen s = .ok (leaves, more) s ∧
      ∀ n, more.contains n = true ↔ n ∈ leaves ∨ seen.contains n = true := by
  induction leaves generalizing i seen with
  | nil => exact ⟨seen, rfl, fun n => by simp⟩
  | cons page rest ih =>
    have first : leaf data i = page := listed 0 (Nat.succ_pos _)
    obtain ⟨low, hasPage⟩ := has page List.mem_cons_self
    obtain ⟨fresh, once⟩ := List.nodup_cons.mp once
    have later : ∀ k (h : k < rest.length), leaf data (i + 1 + k) = rest[k] := fun k h => by
      have found := listed (k + 1) (Nat.succ_lt_succ h)
      rw [show i + (k + 1) = i + 1 + k by omega] at found
      exact found
    have unseenRest : ∀ n ∈ rest, ¬ (seen.insert page).contains n = true := fun n inside => by
      rw [contains_insert]
      rintro (rfl | old)
      · exact fresh inside
      · exact unseen n (List.mem_cons_of_mem _ inside) old
    obtain ⟨more, run, same⟩ :=
      ih later (fun n inside => has n (List.mem_cons_of_mem _ inside)) once unseenRest
    refine ⟨more, ?_, fun n => ?_⟩
    · rw [List.length_cons]
      unfold walkLeaves
      rw [first, Action.bind_of_ok (checkPage_run shows_ low hasPage),
        if_neg (unseen page List.mem_cons_self)]
      dsimp only
      rw [Action.bind_of_ok run]
      rfl
    · rw [same, contains_insert, List.mem_cons]
      constructor
      · rintro (inside | rfl | old)
        · exact .inl (.inr inside)
        · exact .inl (.inl rfl)
        · exact .inr old
      · rintro ((rfl | inside) | old)
        · exact .inr (.inl rfl)
        · exact .inl inside
        · exact .inr (.inr old)

theorem walkFrom_run (row : List Trunk) {left : Nat} {seen : PageSet} (shows_ : s.Shows d)
    (trunks : d.Trunks 0 row) (has : ∀ n ∈ Trunk.allPages row, 2 ≤ n ∧ d.Has n)
    (once : (Trunk.allPages row).Nodup) (unseen : ∀ n ∈ Trunk.allPages row, ¬ seen.contains n = true)
    (enough : row.length ≤ left) :
    ∃ t, walkFrom left (Trunk.firstOr 0 row) seen s =
        .ok ⟨row.map Trunk.page, row.flatMap Trunk.leaves⟩ t ∧ t.Shows d ∧ s.Steady t := by
  induction row generalizing s left seen with
  | nil =>
    refine ⟨s, ?_, shows_, .refl s⟩
    cases left <;> rfl
  | cons trunk rest ih =>
    obtain ⟨low, hasTrunk⟩ := has trunk.page List.mem_cons_self
    obtain ⟨fresh, once⟩ := List.nodup_cons.mp once
    obtain ⟨onceLeaves, onceRest, apart⟩ := List.nodup_append.mp once
    obtain ⟨t1, run1, shows1, steady1⟩ := readTrunk_run shows_ trunks.1 hasTrunk
    obtain ⟨nextIs, leafIs⟩ := trunk_reads shows_.disk_sound trunks.1
    have leafIs0 : ∀ k (h : k < trunk.leaves.length),
        leaf (d.image trunk.page) (0 + k) = trunk.leaves[k] := fun k h => by
      rw [Nat.zero_add]
      exact leafIs k h
    have unseenLeaves : ∀ n ∈ trunk.leaves, ¬ (seen.insert trunk.page).contains n = true := by
      intro n inside
      rw [contains_insert]
      rintro (rfl | old)
      · exact fresh (List.mem_append_left _ inside)
      · exact unseen n (List.mem_cons_of_mem _ (List.mem_append_left _ inside)) old
    obtain ⟨more, run2, same⟩ := walkLeaves_run shows1 trunk.leaves leafIs0
      (fun n inside => has n (List.mem_cons_of_mem _ (List.mem_append_left _ inside))) onceLeaves
      unseenLeaves
    have unseenRest : ∀ n ∈ Trunk.allPages rest, ¬ more.contains n = true := by
      intro n inside
      rw [same, contains_insert]
      rintro (leaf | rfl | old)
      · exact apart n leaf n inside rfl
      · exact fresh (List.mem_append_right _ inside)
      · exact unseen n (List.mem_cons_of_mem _ (List.mem_append_right _ inside)) old
    cases left with
    | zero => exact absurd enough (Nat.not_succ_le_zero _)
    | succ left =>
      obtain ⟨t2, run3, shows2, steady2⟩ := ih shows1 trunks.2
        (fun n inside => has n (List.mem_cons_of_mem _ (List.mem_append_right _ inside))) onceRest
        unseenRest (Nat.le_of_succ_le_succ enough)
      refine ⟨t2, ?_, shows2, steady1.trans steady2⟩
      have nonzero : trunk.page ≠ 0 :=
        Nat.pos_iff_ne_zero.mp (Nat.lt_of_lt_of_le Nat.two_pos low)
      have first : Trunk.firstOr 0 (trunk :: rest) = trunk.page := rfl
      unfold walkFrom
      rw [first, if_neg nonzero, Action.bind_of_ok (checkPage_run shows_ low hasTrunk),
        if_neg (unseen trunk.page List.mem_cons_self)]
      dsimp only
      rw [Action.bind_of_ok run1, Action.bind_of_ok run2]
      dsimp only
      rw [nextIs, Action.bind_of_ok run3]
      rfl

theorem trunks_le (shows_ : s.Shows d) (shelf : d.Shelf trunks) : trunks.length ≤ s.pageCount := by
  rw [shows_.count]
  exact Nat.le_trans (Trunk.length_le trunks) (length_le_count shelf.once shelf.has)

theorem walk_shelf (shows_ : s.Shows d) (shelf : d.Shelf trunks) :
    ∃ t, walk s = .ok ⟨trunks.map Trunk.page, trunks.flatMap Trunk.leaves⟩ t ∧ t.Shows d ∧ s.Steady t := by
  obtain ⟨t1, run1, shows1, steady1⟩ := firstTrunk_run shows_ shelf.one
  have unseen : ∀ n ∈ Trunk.allPages trunks, ¬ ({} : PageSet).contains n = true := by simp
  obtain ⟨t2, run2, shows2, steady2⟩ := walkFrom_run trunks shows1 shelf.row
    (fun n inside => ⟨shelf.low n inside, shelf.has n inside⟩) shelf.once unseen (trunks_le shows_ shelf)
  refine ⟨t2, ?_, shows2, steady1.trans steady2⟩
  unfold walk
  rw [Action.get_bind, Action.bind_of_ok run1, shelf.first]
  exact run2

theorem walk_run (shows_ : s.Shows d) (ledger : d.Ledger trunks owned) :
    ∃ t, walk s = .ok ⟨trunks.map Trunk.page, trunks.flatMap Trunk.leaves⟩ t ∧ t.Shows d ∧ s.Steady t :=
  walk_shelf shows_ ledger.listing.shelf

/-- Another page follows a row of trunks, and so many pages are counted as free. -/
structure Relinked (d e : Disk) (row : List Trunk) (last free : Nat) : Prop where
  edits : Edits d e (· ∈ row.map Trunk.page)
  first : e.word firstTrunkOffset = Trunk.firstOr last row
  free : e.word freeCountOffset = free
  trunks : e.Trunks last row

theorem linkTrunk_run {row : List Trunk} {old : Nat} (new : Nat) (shows_ : s.Shows d) (trunks : d.Trunks old row)
    (first : d.word firstTrunkOffset = Trunk.firstOr old row) (one : d.Has 1)
    (has : ∀ t ∈ row, d.Has t.page ∧ 2 ≤ t.page)
    (once : (row.map Trunk.page).Nodup) (small : new < 4294967296) :
    ∃ e t, linkTrunk (row.getLast?.map Trunk.page) new s = .ok () t ∧ t.Shows e ∧ s.Steady t ∧
      Relinked d e row new (d.word freeCountOffset) := by
  have sound := shows_.disk_sound
  rcases List.eq_nil_or_concat' row with rfl | ⟨front, before, rfl⟩
  · obtain ⟨e, t, run, showsT, steady, relisted⟩ := setWord_run new shows_ one (.inl rfl) small
    exact ⟨e, t, run, showsT, steady, relisted.edits.mono fun _ h => h.elim, relisted.word,
      relisted.other _ (.inr rfl) (by decide), trivial⟩
  · obtain ⟨hasBefore, low⟩ := has before (List.mem_append_right _ List.mem_cons_self)
    obtain ⟨trunksFront, at_, -⟩ := Trunks.append.mp trunks
    have bounds := sound.pageSize_bounds
    have size := sound.sizes before.page
    have fits : 0 + (Bytes.ofNat32 new).size ≤ (d.image before.page).size := by
      rw [Bytes.size_ofNat32]
      omega
    obtain ⟨data, isData⟩ :
        ∃ data, data = (d.image before.page).overwrite 0 (Bytes.ofNat32 new) := ⟨_, rfl⟩
    have sizeData : data.size = d.pageSize := by
      rw [isData, Bytes.size_overwrite fits, size]
    obtain ⟨t1, run1, shows1, steady1⟩ := Store.readPage_run shows_ hasBefore
    obtain ⟨t2, run2, shows2, steady2⟩ := Store.putPage_run shows1 hasBefore sizeData
    refine ⟨_, t2, ?_, shows2, steady1.trans steady2, ?_⟩
    · rw [List.getLast?_append, List.getLast?_singleton]
      change (Store.readPage before.page >>= _) s = _
      rw [Action.bind_of_ok run1, Action.applied_ok.mpr (Bytes.putU32_ok.mpr ⟨fits, isData⟩),
        Action.lift_ok_bind]
      exact run2
    · rw [List.map_append] at once
      obtain ⟨-, -, apart⟩ := List.nodup_append.mp once
      have inside : before.page ∈ (front ++ [before]).map Trunk.page :=
        List.mem_map_of_mem (List.mem_append_right _ List.mem_cons_self)
      refine ⟨(Edits.put data (by omega)).mono fun n same => same ▸ inside, ?_,
        word_put_other _ _ (by omega), Trunks.append.mpr ⟨?_, ?_, trivial⟩⟩
      · rw [word_put_other _ _ (by omega), first, Trunk.firstOr_append, Trunk.firstOr_append]
        rfl
      · refine trunksFront.congr rfl fun t member => put_other _ _ fun same => ?_
        exact apart t.page (List.mem_map_of_mem member) before.page List.mem_cons_self same
      · have four := Bytes.size_ofNat32 new
        refine ⟨?_, ?_, fun i h => ?_, at_.room⟩
        · rw [put_self, isData, Bytes.at32_overwrite_same (by omega)]
          exact Nat.mod_eq_of_lt small
        · rw [put_self, isData, Bytes.at32_overwrite fits (by omega)]
          exact at_.count
        · have behind : 8 ≤ leafStart i := Nat.le_add_right 8 _
          rw [put_self, isData, Bytes.at32_overwrite fits (by omega)]
          exact at_.leaf i h

theorem decrementCount_run (shows_ : s.Shows d) (one : d.Has 1)
    (positive : d.word freeCountOffset ≠ 0) :
    ∃ e t, decrementCount s = .ok () t ∧ t.Shows e ∧ s.Steady t ∧
      Relisted d e freeCountOffset (d.word freeCountOffset - 1) := by
  have small : d.word freeCountOffset < 4294967296 := Bytes.at32_lt _ _
  obtain ⟨t1, run1, shows1, steady1⟩ := count_run shows_ one
  obtain ⟨e, t2, run2, shows2, steady2, relisted⟩ :=
    setWord_run (d.word freeCountOffset - 1) shows1 one (.inr rfl) (by omega)
  refine ⟨e, t2, ?_, shows2, steady1.trans steady2, relisted⟩
  unfold decrementCount
  rw [Action.bind_of_ok run1, if_neg positive]
  exact run2

theorem apart_of_shelf {front rest : List Trunk} (shelf : d.Shelf (front ++ rest)) :
    (Trunk.allPages front).Nodup ∧ (Trunk.allPages rest).Nodup ∧
      (∀ n ∈ Trunk.allPages front, n ∉ Trunk.allPages rest) ∧
      (front.map Trunk.page).Nodup := by
  have once := shelf.once
  rw [Trunk.allPages_append] at once
  obtain ⟨first, second, apart⟩ := List.nodup_append.mp once
  have heads : ∀ row : List Trunk, (row.map Trunk.page).Sublist (Trunk.allPages row) := by
    intro row
    induction row with
    | nil => exact List.Sublist.refl _
    | cons t rest ih =>
      rw [Trunk.allPages_cons]
      exact (ih.trans (List.sublist_append_right t.leaves _)).cons_cons t.page
  exact ⟨first, second, fun n inside other => apart n inside n other rfl, first.sublist (heads front)⟩

theorem trunkAt_heir (sound : d.Sound) {page following heir : Nat} {others : List Nat}
    (at_ : d.TrunkAt ⟨page, heir :: others⟩ following) (small : following < 4294967296) :
    ∃ rest, (d.image page).slice (leafStart 1) (leafStart (others.length + 1)) = .ok rest ∧
      (d.put heir ((Bytes.ofNat32 following ++ Bytes.ofNat32 others.length ++ rest).resize
        d.pageSize)).TrunkAt ⟨heir, others⟩ following := by
  have size := sound.sizes page
  have bounds := sound.pageSize_bounds
  have usable := sound.usable_bounds
  have room : others.length + 1 ≤ readCapacity d.usableSize := at_.room
  have capacity := readCapacity_le d.usableSize
  obtain ⟨n, isLength⟩ : ∃ n, n = others.length := ⟨_, rfl⟩
  rw [← isLength] at room
  have low : leafStart 1 = 12 := rfl
  have high : leafStart (n + 1) = 12 + 4 * n := by
    unfold leafStart
    omega
  have inside : 12 + 4 * n ≤ (d.image page).size := by omega
  obtain ⟨rest, isRest⟩ : ∃ rest, rest = (d.image page).extract 12 (12 + 4 * n) := ⟨_, rfl⟩
  have sizeRest : rest.size = 4 * n := by
    rw [isRest, Bytes.size_extract_of_le inside]
    omega
  rw [low, ← isLength, high]
  refine ⟨rest, Bytes.slice_ok.mpr ⟨⟨by omega, inside⟩, isRest.symm⟩, ?_⟩
  obtain ⟨whole, isWhole⟩ : ∃ whole,
      whole = (Bytes.ofNat32 following ++ Bytes.ofNat32 n ++ rest).resize d.pageSize := ⟨_, rfl⟩
  rw [← isWhole]
  have four := Bytes.size_ofNat32
  have get : ∀ i, i < 8 + 4 * n → whole.get! i =
      (Bytes.ofNat32 following ++ Bytes.ofNat32 n ++ rest).get! i := by
    intro i below
    rw [isWhole, Bytes.get_resize, if_pos (by omega)]
  have sizeWhole : whole.size = d.pageSize := by rw [isWhole, Bytes.size_resize]
  have hasBoth : whole.HasAt 0 (Bytes.ofNat32 following ++ Bytes.ofNat32 n) := by
    refine ⟨?_, fun k below => ?_⟩
    · rw [ByteArray.size_append, four, four]
      omega
    · have short : k < 8 := by
        rw [ByteArray.size_append, four, four] at below
        exact below
      rw [Nat.zero_add, get k (by omega), Bytes.get_append, if_pos below]
  have second := Bytes.at32_of_hasAt hasBoth.append_right
  rw [four, Nat.zero_add, Nat.mod_eq_of_lt (show n < 4294967296 by omega)] at second
  refine ⟨?_, ?_, fun i h => ?_, Nat.le_trans (Nat.le_succ _) (isLength ▸ room)⟩
  · rw [put_self, Bytes.at32_of_hasAt hasBoth.append_left]
    exact Nat.mod_eq_of_lt small
  · rw [put_self, second, isLength]
  · have start : leafStart i = 8 + 4 * i := rfl
    have h : i < n := isLength ▸ h
    have byte : ∀ k, k < 4 → whole.get! (leafStart i + k) =
        (d.image page).get! (leafStart (i + 1) + k) := by
      intro k short
      have next : leafStart (i + 1) = 12 + 4 * i := by
        unfold leafStart
        omega
      rw [get _ (by omega), Bytes.get_append, if_neg (by rw [ByteArray.size_append, four, four]; omega),
        ByteArray.size_append, four, four, isRest, Bytes.get_extract, if_pos (by omega)]
      congr 1
      omega
    have found := at_.leaf (i + 1) (Nat.succ_lt_succ (isLength ▸ h))
    rw [put_self]
    unfold Bytes.at32 at found ⊢
    have zero := byte 0 (by decide)
    rw [Nat.add_zero, Nat.add_zero] at zero
    rw [zero, byte 1 (by decide), byte 2 (by decide), byte 3 (by decide), found]
    rfl

/-- A trunk that is taken off the list is passed over by the trunks before it, and counted no more. -/
theorem unlink_run {row : List Trunk} {old : Nat} (new : Nat) (shows_ : s.Shows d) (trunks : d.Trunks old row)
    (first : d.word firstTrunkOffset = Trunk.firstOr old row) (one : d.Has 1)
    (has : ∀ t ∈ row, d.Has t.page ∧ 2 ≤ t.page) (once : (row.map Trunk.page).Nodup) (small : new < 4294967296)
    (positive : d.word freeCountOffset ≠ 0) :
    ∃ e t, (do linkTrunk (row.getLast?.map Trunk.page) new; decrementCount : StoreM Unit) s = .ok () t ∧
      t.Shows e ∧ s.Steady t ∧ Relinked d e row new (d.word freeCountOffset - 1) := by
  obtain ⟨e1, t1, run1, shows1, steady1, linked⟩ := linkTrunk_run new shows_ trunks first one has once small
  obtain ⟨e2, t2, run2, shows2, steady2, relisted⟩ :=
    decrementCount_run shows1 (linked.edits.has one) (by rw [linked.free]; exact positive)
  refine ⟨e2, t2, (Action.bind_of_ok run1).trans run2, shows2, steady1.trans steady2, ?_, ?_, ?_, ?_⟩
  · exact linked.edits.trans (relisted.edits.mono fun _ h => h.elim)
  · rw [relisted.other _ (.inl rfl) (by decide), linked.first]
  · rw [relisted.word, linked.free]
  · refine linked.trunks.congr relisted.edits.alike.usableSize fun t member => ?_
    have low := (has t member).2
    exact relisted.image _ (by omega)

structure Amid (d : Disk) (front rest : List Trunk) (trunk : Trunk) : Prop where
  has : ∀ t ∈ front, d.Has t.page ∧ 2 ≤ t.page
  listed : ∀ n ∈ front.map Trunk.page, n ∈ Trunk.allPages (front ++ trunk :: rest)
  apart : ∀ n ∈ front.map Trunk.page, n ∉ Trunk.allPages (trunk :: rest)
  once : (front.map Trunk.page).Nodup
  low : ∀ t ∈ rest, t.page ≠ 1
  first : d.word firstTrunkOffset = Trunk.firstOr trunk.page front
  free : d.word freeCountOffset ≠ 0
  small : Trunk.firstOr 0 rest < 4294967296

theorem Amid.of_shelf {front rest : List Trunk} {trunk : Trunk} (shelf : d.Shelf (front ++ trunk :: rest)) :
    Amid d front rest trunk := by
  obtain ⟨-, -, apart, once⟩ := apart_of_shelf shelf
  obtain ⟨-, at_, -⟩ := Trunks.append.mp shelf.row
  have listed : ∀ t ∈ front, t.page ∈ Trunk.allPages (front ++ trunk :: rest) :=
    fun t member => Trunk.page_mem (List.mem_append_left _ member)
  refine ⟨fun t member => ⟨shelf.has _ (listed t member), shelf.low _ (listed t member)⟩, ?_, ?_, once, ?_, ?_, ?_, ?_⟩
  · intro n inside
    obtain ⟨t, member, rfl⟩ := List.mem_map.mp inside
    exact listed t member
  · intro n inside
    obtain ⟨t, member, rfl⟩ := List.mem_map.mp inside
    exact apart t.page (Trunk.page_mem member)
  · exact fun t member =>
      shelf.ne_one (Trunk.page_mem (List.mem_append_right front (List.mem_cons_of_mem trunk member)))
  · rw [shelf.first, Trunk.firstOr_append]
    rfl
  · rw [shelf.count, Trunk.allPages_append, List.length_append, Trunk.allPages_cons, List.length_cons]
    omega
  · rw [← at_.next]
    exact Bytes.at32_lt _ _

theorem removeBare_run {front rest : List Trunk} {page : Nat} (shows_ : s.Shows d)
    (shelf : d.Shelf (front ++ ⟨page, []⟩ :: rest)) :
    ∃ e t, removeTrunk (front.getLast?.map Trunk.page) (d.image page) 0 s = .ok () t ∧
      t.Shows e ∧ s.Steady t ∧ Removed d e (front ++ ⟨page, []⟩ :: rest) page := by
  have amid := Amid.of_shelf shelf
  obtain ⟨trunksFront, at_, trunksRest⟩ := Trunks.append.mp shelf.row
  have nextIs : next (d.image page) = Trunk.firstOr 0 rest := (trunk_reads shows_.disk_sound at_).1
  obtain ⟨e, t, run, showsT, steady, unlinked⟩ :=
    unlink_run _ shows_ trunksFront amid.first shelf.one amid.has amid.once amid.small amid.free
  have edits := unlinked.edits.mono amid.listed
  have perm : (Trunk.allPages (front ++ ⟨page, []⟩ :: rest)).Perm (page :: Trunk.allPages (front ++ rest)) := by
    rw [Trunk.allPages_append, Trunk.allPages_append]
    exact List.perm_middle
  refine ⟨e, t, ?_, showsT, steady, edits, front ++ rest, ?_, perm⟩
  · unfold removeTrunk
    rw [if_pos rfl, nextIs]
    exact run
  · refine shelf.take edits perm ?_ unlinked.free (Trunks.append.mpr ⟨unlinked.trunks, ?_⟩)
    · rw [unlinked.first, Trunk.firstOr_append]
    · refine trunksRest.congr edits.alike.usableSize fun t member => ?_
      exact unlinked.edits.images _ (amid.low t member) fun inside =>
        amid.apart _ inside (List.mem_cons_of_mem _ (Trunk.page_mem member))

theorem removeHeaded_run {front rest : List Trunk} {page heir : Nat} {others : List Nat} (shows_ : s.Shows d)
    (shelf : d.Shelf (front ++ ⟨page, heir :: others⟩ :: rest)) :
    ∃ e t, removeTrunk (front.getLast?.map Trunk.page) (d.image page) (others.length + 1) s = .ok () t ∧
      t.Shows e ∧ s.Steady t ∧ Removed d e (front ++ ⟨page, heir :: others⟩ :: rest) page := by
  have sound := shows_.disk_sound
  have amid := Amid.of_shelf shelf
  obtain ⟨trunksFront, at_, trunksRest⟩ := Trunks.append.mp shelf.row
  have nextIs : next (d.image page) = Trunk.firstOr 0 rest := (trunk_reads sound at_).1
  have heirIs : leaf (d.image page) 0 = heir := (trunk_reads sound at_).2 0 (Nat.succ_pos _)
  have inHeir : heir ∈ Trunk.allPages (front ++ ⟨page, heir :: others⟩ :: rest) :=
    Trunk.leaf_mem (List.mem_append_right _ List.mem_cons_self) List.mem_cons_self
  have lowHeir := shelf.low _ inHeir
  have hasHeir := shelf.has _ inHeir
  have notFront : heir ∉ front.map Trunk.page := fun inside =>
    amid.apart _ inside (List.mem_cons_of_mem _ List.mem_cons_self)
  obtain ⟨tail, sliced, heirAt⟩ := trunkAt_heir sound at_ amid.small
  obtain ⟨t1, run1, shows1, steady1⟩ := putFresh_shows heir
    (Bytes.ofNat32 (Trunk.firstOr 0 rest) ++ Bytes.ofNat32 others.length ++ tail) shows_ hasHeir
  obtain ⟨data, isData⟩ : ∃ data, data = (Bytes.ofNat32 (Trunk.firstOr 0 rest) ++
    Bytes.ofNat32 others.length ++ tail).resize d.pageSize := ⟨_, rfl⟩
  rw [← isData] at heirAt shows1
  have word : ∀ offset, (d.put heir data).word offset = d.word offset := fun offset =>
    word_put_other _ _ (by omega)
  have trunksFront : (d.put heir data).Trunks page front := trunksFront.congr rfl fun t member =>
    put_other _ _ fun same => notFront (same ▸ List.mem_map_of_mem member)
  obtain ⟨e, t2, run2, shows2, steady2, unlinked⟩ := unlink_run heir shows1 trunksFront
    ((word _).trans amid.first) shelf.one amid.has amid.once (sound.has_lt hasHeir)
    (by rw [word]; exact amid.free)
  have edits : Edits d e (· ∈ Trunk.allPages (front ++ ⟨page, heir :: others⟩ :: rest)) :=
    ((Edits.put data (by omega)).mono fun n same => same ▸ inHeir).trans (unlinked.edits.mono amid.listed)
  have perm : (Trunk.allPages (front ++ ⟨page, heir :: others⟩ :: rest)).Perm
      (page :: Trunk.allPages (front ++ ⟨heir, others⟩ :: rest)) := by
    rw [Trunk.allPages_append, Trunk.allPages_append, Trunk.allPages_cons, Trunk.allPages_cons]
    exact List.perm_middle
  refine ⟨e, t2, ?_, shows2, steady1.trans steady2, edits, front ++ ⟨heir, others⟩ :: rest, ?_, perm⟩
  · unfold removeTrunk
    rw [if_neg (Nat.succ_ne_zero _), heirIs]
    dsimp only
    rw [Action.bind_of_ok (checkPage_run shows_ lowHeir hasHeir), sliced, Action.lift_ok_bind, nextIs,
      Nat.add_sub_cancel, Action.bind_of_ok run1]
    exact run2
  · refine shelf.take edits perm ?_ (by rw [unlinked.free, word]) (Trunks.append.mpr ⟨unlinked.trunks, ?_, ?_⟩)
    · rw [unlinked.first, Trunk.firstOr_append]
      rfl
    · exact heirAt.congr edits.alike.usableSize (unlinked.edits.images _ (Nat.ne_of_gt lowHeir) notFront)
    · obtain ⟨-, onceRest, -, -⟩ := apart_of_shelf shelf
      have once := (List.nodup_cons.mp (List.nodup_cons.mp onceRest).2).1
      refine trunksRest.congr edits.alike.usableSize fun t member => ?_
      have inside : t.page ∈ others ++ Trunk.allPages rest :=
        List.mem_append_right _ (Trunk.page_mem member)
      have other : t.page ≠ heir := fun same => once (same ▸ inside)
      have away : t.page ∉ front.map Trunk.page := fun before =>
        amid.apart _ before (List.mem_cons_of_mem _ (List.mem_cons_of_mem _ inside))
      rw [unlinked.edits.images _ (amid.low t member) away, put_other _ _ other]

theorem removeTrunk_run {front rest : List Trunk} {page : Nat} {leaves : List Nat} (shows_ : s.Shows d)
    (shelf : d.Shelf (front ++ ⟨page, leaves⟩ :: rest)) :
    ∃ e t, removeTrunk (front.getLast?.map Trunk.page) (d.image page) leaves.length s = .ok () t ∧
      t.Shows e ∧ s.Steady t ∧ Removed d e (front ++ ⟨page, leaves⟩ :: rest) page := by
  cases leaves with
  | nil => exact removeBare_run shows_ shelf
  | cons heir others => exact removeHeaded_run shows_ shelf

theorem leaves_perm {front : List Nat} {last i : Nat} (h : i < (front ++ [last]).length) :
    (front ++ [last]).Perm ((front ++ [last])[i] :: front.set i last) := by
  rw [List.length_append, List.length_singleton] at h
  rcases Nat.lt_or_eq_of_le (Nat.le_of_lt_succ h) with inside | rfl
  · rw [List.getElem_append_left inside]
    have moved : (front ++ [last]).Perm (last :: front) := List.perm_append_comm
    have erased := (List.getElem_cons_eraseIdx_perm inside).symm
    have set_ := List.set_perm_cons_eraseIdx inside last
    exact moved.trans ((erased.cons last).trans
      ((List.Perm.swap _ _ _).trans (set_.symm.cons _)))
  · rw [List.getElem_append_right (Nat.le_refl _), List.set_eq_of_length_le (Nat.le_refl _)]
    simp

theorem trunkAt_strike (sound : d.Sound) {page following last i : Nat} {leaves : List Nat}
    (at_ : d.TrunkAt ⟨page, leaves ++ [last]⟩ following) (small : last < 4294967296)
    (inside : i ≤ leaves.length) :
    ∃ data, Action.applied (do
        Bytes.putU32 (leafStart i) last
        Bytes.putU32 4 leaves.length) (d.image page) = .ok data ∧ data.size = d.pageSize ∧
      (d.put page data).TrunkAt ⟨page, leaves.set i last⟩ following := by
  have size := sound.sizes page
  have usable := sound.usable_bounds
  have bounds := sound.pageSize_bounds
  obtain ⟨n, isLength⟩ : ∃ n, n = leaves.length := ⟨_, rfl⟩
  have room : n + 1 ≤ readCapacity d.usableSize := by
    have room := at_.room
    rw [List.length_append, ← isLength] at room
    exact room
  have capacity := readCapacity_le d.usableSize
  rw [← isLength] at inside
  have start : leafStart i = 8 + 4 * i := rfl
  have four := Bytes.size_ofNat32
  have fits1 : leafStart i + (Bytes.ofNat32 last).size ≤ (d.image page).size := by
    rw [four]
    omega
  obtain ⟨mid, isMid⟩ : ∃ mid, mid = (d.image page).overwrite (leafStart i) (Bytes.ofNat32 last) :=
    ⟨_, rfl⟩
  have sizeMid : mid.size = d.pageSize := by
    rw [isMid, Bytes.size_overwrite fits1, size]
  have fits2 : 4 + (Bytes.ofNat32 n).size ≤ mid.size := by
    rw [four]
    omega
  obtain ⟨data, isData⟩ : ∃ data, data = mid.overwrite 4 (Bytes.ofNat32 n) := ⟨_, rfl⟩
  refine ⟨data, ?_, by rw [isData, Bytes.size_overwrite fits2, sizeMid], ?_⟩
  · rw [← isLength]
    refine Action.applied_ok.mpr (Action.bind_ok.mpr ⟨(), mid, Bytes.putU32_ok.mpr ⟨fits1, isMid⟩, ?_⟩)
    exact Bytes.putU32_ok.mpr ⟨fits2, isData⟩
  · refine ⟨?_, ?_, fun j h => ?_, ?_⟩
    · rw [put_self, isData, Bytes.at32_overwrite fits2 (by omega), isMid,
        Bytes.at32_overwrite fits1 (by omega)]
      exact at_.next
    · rw [put_self, isData, Bytes.at32_overwrite_same (by omega), List.length_set, ← isLength]
      exact Nat.mod_eq_of_lt (by omega)
    · have startJ : leafStart j = 8 + 4 * j := rfl
      rw [List.length_set, ← isLength] at h
      rw [put_self, isData, Bytes.at32_overwrite fits2 (by rw [four]; omega), isMid]
      by_cases same : j = i
      · subst same
        rw [Bytes.at32_overwrite_same (by omega), List.getElem_set_self]
        exact Nat.mod_eq_of_lt small
      · have listed := at_.leaf j (by rw [List.length_append, ← isLength]; exact Nat.lt_succ_of_lt h)
        rw [Bytes.at32_overwrite fits1 (by rw [four]; omega), listed,
          List.getElem_set_ne (fun other => same other.symm)]
        exact List.getElem_append_left (isLength ▸ h)
    · change (leaves.set i last).length ≤ readCapacity d.usableSize
      rw [List.length_set, ← isLength]
      omega

theorem removeLeaf_run {front rest : List Trunk} {trunk i : Nat} {leaves : List Nat} (shows_ : s.Shows d)
    (shelf : d.Shelf (front ++ ⟨trunk, leaves⟩ :: rest)) (h : i < leaves.length) :
    ∃ e t, removeLeaf trunk (d.image trunk) leaves.length i s = .ok () t ∧ t.Shows e ∧ s.Steady t ∧
      Removed d e (front ++ ⟨trunk, leaves⟩ :: rest) leaves[i] := by
  have sound := shows_.disk_sound
  rcases List.eq_nil_or_concat' leaves with rfl | ⟨others, last, rfl⟩
  · exact absurd h (Nat.not_lt_zero _)
  obtain ⟨-, onceRest, apart, -⟩ := apart_of_shelf shelf
  obtain ⟨trunksFront, at_, trunksRest⟩ := Trunks.append.mp shelf.row
  have inTrunk : trunk ∈ Trunk.allPages (front ++ ⟨trunk, others ++ [last]⟩ :: rest) := by
    rw [Trunk.allPages_append]
    exact List.mem_append_right _ List.mem_cons_self
  have inLast : last ∈ Trunk.allPages (front ++ ⟨trunk, others ++ [last]⟩ :: rest) :=
    Trunk.leaf_mem (List.mem_append_right _ List.mem_cons_self)
      (List.mem_append_right _ List.mem_cons_self)
  have lowTrunk := shelf.low _ inTrunk
  have length : (others ++ [last]).length = others.length + 1 := List.length_append
  have lastIs : leaf (d.image trunk) others.length = last := by
    have found := (trunk_reads sound at_).2 others.length
      (Nat.lt_of_lt_of_eq (Nat.lt_succ_self _) length.symm)
    dsimp only at found
    rw [found, List.getElem_append_right (Nat.le_refl _)]
    simp
  obtain ⟨data, applied, size, strikeAt⟩ := trunkAt_strike sound at_ (shelf.small sound inLast)
    (Nat.le_of_lt_succ (length ▸ h))
  obtain ⟨t1, run1, shows1, steady1⟩ := Store.putPage_run shows_ (shelf.has _ inTrunk) size
  have edits1 : Edits d (d.put trunk data) (· ∈ Trunk.allPages (front ++ ⟨trunk, others ++ [last]⟩ :: rest)) :=
    (Edits.put data (by omega)).mono fun n same => same ▸ inTrunk
  have word1 : ∀ offset, (d.put trunk data).word offset = d.word offset := fun offset =>
    word_put_other _ _ (by omega)
  obtain ⟨e, t2, run2, shows2, steady2, relisted⟩ :=
    decrementCount_run shows1 (edits1.has shelf.one) (by rw [word1]; exact (Amid.of_shelf shelf).free)
  have edits := edits1.trans (relisted.edits.mono fun _ h => h.elim)
  have perm : (Trunk.allPages (front ++ ⟨trunk, others ++ [last]⟩ :: rest)).Perm
      ((others ++ [last])[i] :: Trunk.allPages (front ++ ⟨trunk, others.set i last⟩ :: rest)) := by
    rw [Trunk.allPages_append, Trunk.allPages_append, Trunk.allPages_cons, Trunk.allPages_cons]
    have moved := (((leaves_perm h).append_right (Trunk.allPages rest)).cons trunk).append_left
      (Trunk.allPages front)
    have swapped : (trunk :: ((others ++ [last])[i] :: others.set i last ++ Trunk.allPages rest)).Perm
        ((others ++ [last])[i] :: trunk :: (others.set i last ++ Trunk.allPages rest)) :=
      List.Perm.swap _ _ _
    exact moved.trans ((swapped.append_left _).trans List.perm_middle)
  refine ⟨e, t2, ?_, shows2, steady1.trans steady2, edits, front ++ ⟨trunk, others.set i last⟩ :: rest, ?_, perm⟩
  · unfold removeLeaf
    rw [length, Nat.add_sub_cancel, lastIs, applied, Action.lift_ok_bind, Action.bind_of_ok run1]
    exact run2
  · refine shelf.take edits perm ?_ (by rw [relisted.word, word1]) ?_
    · rw [relisted.other _ (.inl rfl) (by decide), word1, shelf.first,
        Trunk.firstOr_append, Trunk.firstOr_append]
      rfl
    · have image : ∀ t : Trunk, t.page ∈ Trunk.allPages (front ++ ⟨trunk, others ++ [last]⟩ :: rest) →
          t.page ≠ trunk → e.image t.page = d.image t.page := by
        intro t inside other
        rw [relisted.image _ (shelf.ne_one inside), put_other _ _ other]
      refine Trunks.append.mpr ⟨?_, ?_, ?_⟩
      · refine trunksFront.congr edits.alike.usableSize fun t member => ?_
        refine image t (Trunk.page_mem (List.mem_append_left _ member)) fun same => ?_
        exact apart t.page (Trunk.page_mem member) (same ▸ List.mem_cons_self)
      · exact strikeAt.congr edits.alike.usableSize (relisted.image trunk (by omega))
      · refine trunksRest.congr edits.alike.usableSize fun t member => ?_
        refine image t (Trunk.page_mem (List.mem_append_right _ (List.mem_cons_of_mem _ member)))
          fun same => ?_
        have listed := Trunk.page_mem member
        rw [same] at listed
        exact (List.nodup_cons.mp onceRest).1 (List.mem_append_right _ listed)

theorem findLeaf_cases {data : Bytes} {leaves : List Nat} (page : Nat)
    (listed : ∀ i (h : i < leaves.length), leaf data i = leaves[i]) :
    (findLeaf data leaves.length page = none ∧ page ∉ leaves) ∨
      ∃ i, findLeaf data leaves.length page = some i ∧ ∃ h : i < leaves.length, leaves[i] = page := by
  unfold findLeaf
  cases found : (List.range leaves.length).find? fun i => leaf data i == page with
  | none =>
    refine .inl ⟨rfl, fun inside => ?_⟩
    obtain ⟨i, h, same⟩ := List.getElem_of_mem inside
    have different := List.find?_eq_none.mp found i (List.mem_range.mpr h)
    rw [listed i h, same] at different
    exact different BEq.rfl
  | some i =>
    have h : i < leaves.length := List.mem_range.mp (List.mem_of_find?_eq_some found)
    have same := List.find?_some found
    rw [beq_iff_eq, listed i h] at same
    exact .inr ⟨i, rfl, h, same⟩

/-- What removing a page comes to, in a part of the list that has the pages of `row`. -/
def Removal (d : Disk) (trunks : List Trunk) (page : Nat) (row : List Trunk) (act : StoreM Bool)
    (s : Store) : Prop :=
  (page ∈ Trunk.allPages row ∧
      ∃ e t, act s = .ok true t ∧ t.Shows e ∧ s.Steady t ∧ Removed d e trunks page) ∨
    page ∉ Trunk.allPages row ∧ ∃ t, act s = .ok false t ∧ t.Shows d ∧ s.Steady t

theorem removeFrom_run (page : Nat) (rest : List Trunk) {front : List Trunk} {left : Nat}
    (shows_ : s.Shows d) (shelf : d.Shelf (front ++ rest)) (enough : rest.length ≤ left) :
    Removal d (front ++ rest) page rest
      (removeFrom page left (front.getLast?.map Trunk.page) (Trunk.firstOr 0 rest)) s := by
  induction rest generalizing front left s with
  | nil =>
    refine .inr ⟨List.not_mem_nil, s, ?_, shows_, .refl s⟩
    cases left <;> rfl
  | cons trunk rest ih =>
    have inTrunk : trunk.page ∈ Trunk.allPages (front ++ trunk :: rest) :=
      Trunk.page_mem (List.mem_append_right _ List.mem_cons_self)
    have hasTrunk := shelf.has _ inTrunk
    have low := shelf.low _ inTrunk
    have nonzero : trunk.page ≠ 0 := Nat.pos_iff_ne_zero.mp (Nat.lt_of_lt_of_le Nat.two_pos low)
    obtain ⟨-, at_, -⟩ := Trunks.append.mp shelf.row
    obtain ⟨nextIs, leafIs⟩ := trunk_reads shows_.disk_sound at_
    obtain ⟨t1, run1, shows1, steady1⟩ := readTrunk_run shows_ at_ hasTrunk
    have first : Trunk.firstOr 0 (trunk :: rest) = trunk.page := rfl
    cases left with
    | zero => exact absurd enough (Nat.not_succ_le_zero _)
    | succ left =>
      have start : removeFrom page (left + 1) (front.getLast?.map Trunk.page)
          (Trunk.firstOr 0 (trunk :: rest)) s = (if trunk.page = page then do
            removeTrunk (front.getLast?.map Trunk.page) (d.image trunk.page) trunk.leaves.length
            return true
          else (findLeaf (d.image trunk.page) trunk.leaves.length page).elim
            (removeFrom page left (some trunk.page) (Trunk.firstOr 0 rest)) fun i => do
              removeLeaf trunk.page (d.image trunk.page) trunk.leaves.length i
              return true : StoreM Bool) t1 := by
        rw [first]
        conv_lhs => unfold removeFrom
        rw [if_neg nonzero, Action.bind_of_ok (checkPage_run shows_ low hasTrunk)]
        dsimp only
        refine (Action.bind_of_ok run1).trans ?_
        rw [← nextIs]
        cases findLeaf (d.image trunk.page) trunk.leaves.length page <;> rfl
      unfold Removal
      rw [start]
      by_cases same : trunk.page = page
      · obtain ⟨e, t2, run2, shows2, steady2, removed⟩ := removeTrunk_run shows1 shelf
        refine .inl ⟨same ▸ List.mem_cons_self, e, t2, ?_, shows2, steady1.trans steady2, same ▸ removed⟩
        rw [if_pos same, Action.bind_of_ok run2]
        rfl
      · rw [if_neg same]
        rcases findLeaf_cases page leafIs with ⟨notFound, away⟩ | ⟨i, found, h, isPage⟩
        · have split : (front ++ [trunk]) ++ rest = front ++ trunk :: rest := List.append_assoc _ _ _
          have passed := ih shows1 (split ▸ shelf) (Nat.le_of_succ_le_succ enough)
          rw [List.getLast?_append, List.getLast?_singleton, split] at passed
          have member : page ∈ Trunk.allPages (trunk :: rest) ↔ page ∈ Trunk.allPages rest := by
            rw [Trunk.allPages_cons, List.mem_cons, List.mem_append]
            constructor
            · rintro (here | leaf | later)
              · exact absurd here.symm same
              · exact absurd leaf away
              · exact later
            · exact fun later => .inr (.inr later)
          rw [notFound, member]
          rcases passed with ⟨inside, e, t2, run2, shows2, steady2, removed⟩ |
            ⟨outside, t2, run2, shows2, steady2⟩
          · exact .inl ⟨inside, e, t2, run2, shows2, steady1.trans steady2, removed⟩
          · exact .inr ⟨outside, t2, run2, shows2, steady1.trans steady2⟩
        · have inside : page ∈ Trunk.allPages (trunk :: rest) :=
            Trunk.leaf_mem List.mem_cons_self (isPage ▸ List.getElem_mem h)
          obtain ⟨e, t2, run2, shows2, steady2, removed⟩ := removeLeaf_run shows1 shelf h
          refine .inl ⟨inside, e, t2, ?_, shows2, steady1.trans steady2, isPage ▸ removed⟩
          rw [found]
          exact Action.bind_of_ok run2

theorem remove_shelf (page : Nat) (shows_ : s.Shows d) (shelf : d.Shelf trunks) :
    Removal d trunks page trunks (remove page) s := by
  obtain ⟨t1, run1, shows1, steady1⟩ := firstTrunk_run shows_ shelf.one
  have whole : d.Shelf ([] ++ trunks) := shelf
  have start : remove page s = removeFrom page s.pageCount none (Trunk.firstOr 0 trunks) t1 := by
    unfold remove
    rw [Action.get_bind, Action.bind_of_ok run1, shelf.first]
  unfold Removal
  rw [start]
  rcases removeFrom_run page trunks shows1 whole (trunks_le shows_ shelf) with
    ⟨inside, e, t2, run2, shows2, steady2, removed⟩ | ⟨outside, t2, run2, shows2, steady2⟩
  · exact .inl ⟨inside, e, t2, run2, shows2, steady1.trans steady2, removed⟩
  · exact .inr ⟨outside, t2, run2, shows2, steady1.trans steady2⟩

end Freelist

end TreeFile
