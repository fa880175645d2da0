import TreeFile.Proofs.Freelist.Sets
import TreeFile.Proofs.Overflow.RangedReads

/-!
What becomes of an overflow chain. A tail that was written is read back from its chain, is not read under
another length, and all pages of the chain go to the freelist when it is freed.
-/

namespace TreeFile

namespace Freelist

open Disk

variable {s t : Store} {d e : Disk} {trunks fewer : List Trunk}

structure Drawn (d : Disk) (trunks : List Trunk) (e : Disk) (fewer : List Trunk) (pages : List Nat) : Prop where
  alike : Alike d e
  grows : d.count ≤ e.count
  inside : ∀ n ∈ Trunk.allPages fewer, n ∈ Trunk.allPages trunks
  source : ∀ n ∈ pages, n ∈ Trunk.allPages trunks ∨ d.count < n ∧ d.isReserved n = false
  has : ∀ n ∈ pages, e.Has n
  once : (pages ++ Trunk.allPages fewer).Nodup

theorem Source.drawn {page : Nat} (shelf : d.Shelf trunks) (source : Source d e page fewer trunks) :
    Drawn d trunks e fewer [page] := by
  cases source with
  | taken edits perm blank =>
    have listed := perm.mem_iff.mpr List.mem_cons_self
    exact ⟨edits.alike, Nat.le_of_eq edits.count.symm, fun n inside => perm.mem_iff.mpr (List.mem_cons_of_mem _ inside),
      List.forall_mem_singleton.mpr (.inl listed), List.forall_mem_singleton.mpr (edits.has (shelf.has _ listed)),
      perm.nodup shelf.once⟩
  | new longer same none_ free between =>
    subst same none_
    exact ⟨⟨rfl, rfl, rfl, rfl, rfl⟩, Nat.le_of_lt longer, fun _ => id, List.forall_mem_singleton.mpr (.inr ⟨longer, free⟩),
      List.forall_mem_singleton.mpr ⟨Nat.lt_of_le_of_lt (Nat.zero_le _) longer, Nat.le_refl _⟩, List.nodup_cons.mpr ⟨List.not_mem_nil, List.nodup_nil⟩⟩

theorem Drawn.append {f : Disk} {least : List Trunk} {front back : List Nat} (first : Drawn d trunks e fewer front)
    (second : Drawn e fewer f least back) : Drawn d trunks f least (front ++ back) := by
  have apart : ∀ n ∈ front, n ∉ back := fun n here there => by
    rcases second.source n there with listed | ⟨longer, -⟩
    · exact (List.nodup_append.mp first.once).2.2 n here n listed rfl
    · exact absurd (first.has n here).2 (Nat.not_le.mpr longer)
  refine ⟨first.alike.trans second.alike, Nat.le_trans first.grows second.grows,
    fun n listed => first.inside n (second.inside n listed), fun n drawn => ?_, fun n drawn => ?_, ?_⟩
  · rcases List.mem_append.mp drawn with here | there
    · exact first.source n here
    · rcases second.source n there with listed | ⟨longer, free⟩
      · exact .inl (first.inside n listed)
      · exact .inr ⟨Nat.lt_of_le_of_lt first.grows longer, (first.alike.isReserved n).symm.trans free⟩
  · rcases List.mem_append.mp drawn with here | there
    · exact ⟨(first.has n here).1, Nat.le_trans (first.has n here).2 second.grows⟩
    · exact second.has n there
  · rw [List.append_assoc]
    refine List.nodup_append.mpr ⟨(List.nodup_append.mp first.once).1, second.once, fun a here b there same => ?_⟩
    subst same
    rcases List.mem_append.mp there with drawn | listed
    · exact apart a here drawn
    · exact (List.nodup_append.mp first.once).2.2 a here a (second.inside a listed) rfl

theorem allocateMany_shelf (n : Nat) {pages : List PageNo} (shows_ : s.Shows d) (shelf : d.Shelf trunks)
    (run : allocateMany n s = .ok pages t) :
    pages.length = n ∧ ∃ e fewer, t.Shows e ∧ e.Shelf fewer ∧ Drawn d trunks e fewer pages := by
  induction n generalizing s d trunks pages with
  | zero =>
    cases run
    exact ⟨rfl, d, trunks, shows_, shelf, .refl d, Nat.le_refl _, fun _ => id, nofun, nofun, shelf.once⟩
  | succ n ih =>
    unfold allocateMany at run
    obtain ⟨page, s1, run1, run⟩ := Action.bind_ok.mp run
    obtain ⟨more, s2, run2, run⟩ := Action.bind_ok.mp run
    cases run
    obtain ⟨e1, fewer1, shows1, -, shelf1, source⟩ := allocate_shelf shows_ shelf run1
    obtain ⟨length, e2, fewer2, shows2, shelf2, drawn⟩ := ih shows1 shelf1 run2
    exact ⟨congrArg Nat.succ length, e2, fewer2, shows2, shelf2, (source.drawn shelf).append drawn⟩

/-- What is on the freelist can be allocated. -/
theorem allocateMany_runs (n : Nat) (shows_ : s.Shows d) (shelf : d.Shelf trunks)
    (enough : n ≤ (Trunk.allPages trunks).length) : Action.Runs (allocateMany n) s := by
  induction n generalizing s d trunks with
  | zero => exact .pure []
  | succ n ih =>
    unfold allocateMany
    cases trunks with
    | nil => cases enough
    | cons trunk rest =>
      obtain ⟨t, first, showsT, -⟩ := firstTrunk_run shows_ shelf.one
      obtain ⟨page, -, u, taken, -⟩ := takeFirst_run showsT shelf
      have nonzero : trunk.page ≠ 0 := by
        have low := shelf.low _ (Trunk.page_mem List.mem_cons_self)
        omega
      have run : allocate s = .ok page u := by
        unfold allocate
        rw [Action.bind_of_ok first, shelf.first]
        exact (congrFun (if_pos nonzero) t).trans taken
      obtain ⟨e, fewer, showsU, -, shelfE, source⟩ := allocate_shelf shows_ shelf run
      have less : n ≤ (Trunk.allPages fewer).length := by
        cases source with
        | taken edits perm blank =>
          rw [perm.length_eq, List.length_cons] at enough
          omega
      exact .after run ((ih showsU shelfE less).bind fun more v _ => .pure (page :: more))

theorem Drawn.plain {pages : List Nat} (drawn : Drawn d trunks e fewer pages) (shelf : d.Shelf trunks) :
    ∀ n ∈ pages, 2 ≤ n ∧ e.isMap n = false := by
  intro n inside
  rw [drawn.alike.isMap]
  rcases drawn.source n inside with listed | ⟨longer, free⟩
  · exact ⟨shelf.low n listed, shelf.plain n listed⟩
  · have one := shelf.one.2
    exact ⟨by omega, isMap_of_free free⟩

end Freelist

namespace Overflow

open Disk

variable {s t : Store} {d e : Disk} {trunks : List Trunk} {pages : List Nat} {tail : Bytes} {start : Nat}
  {owner first : PageNo}

structure Laid (d : Disk) (trunks : List Trunk) (tail : Bytes) (pages : List Nat) (start : Nat) : Prop where
  shelf : d.Shelf trunks
  chain : Chain d tail pages start
  once : (pages ++ Trunk.allPages trunks).Nodup
  has : ∀ n ∈ pages, 2 ≤ n ∧ d.Has n
  plain : ∀ n ∈ pages, d.isMap n = false
  behind : d.mapped = true → ∀ n ∈ pages, d.mapPage n < n

/-- What is written to some pages makes a chain of them, and changes no other page but those of the pointer map. -/
theorem writePages_ok {owner : PointerEntry} (shows_ : s.Shows d) (has : ∀ n ∈ pages, 2 ≤ n ∧ d.Has n)
    (plain : ∀ n ∈ pages, d.isMap n = false) (once : pages.Nodup)
    (length : pages.length = needed (overflowCapacity d.usableSize) (tail.size - start))
    (run : writePages tail pages owner start s = .ok () t) :
    ∃ e, t.Shows e ∧ Alike d e ∧ e.count = d.count ∧ Chain e tail pages start ∧
      (d.mapped = true → ∀ n ∈ pages, d.mapPage n < n) ∧
      ∀ n, d.isMap n = false → n ∉ pages → e.image n = d.image n := by
  have sound := shows_.disk_sound
  have positive := capacity_pos sound
  induction pages generalizing s d owner start with
  | nil =>
    cases run
    refine ⟨d, shows_, .refl d, rfl, Nat.le_of_not_lt fun left => ?_, fun _ => nofun, fun _ _ _ => rfl⟩
    rw [needed_step positive (by omega)] at length
    exact Nat.succ_ne_zero _ length.symm
  | cons page rest ih =>
    have left : start < tail.size := by
      refine Nat.lt_of_not_le fun done => ?_
      rw [show tail.size - start = 0 by omega, needed_zero positive] at length
      exact Nat.succ_ne_zero _ length
    obtain ⟨low, hasPage⟩ := has page List.mem_cons_self
    obtain ⟨fresh, onceRest⟩ := List.nodup_cons.mp once
    obtain ⟨stop, isStop⟩ : ∃ stop, stop = start + overflowCapacity d.usableSize := ⟨_, rfl⟩
    have following : rest.headD 0 < 4294967296 := by
      cases rest with
      | nil => exact Nat.succ_pos _
      | cons next more => exact sound.has_lt (has next (List.mem_cons_of_mem _ List.mem_cons_self)).2
    obtain ⟨t1, run1, shows1, -⟩ := Freelist.putFresh_shows page (Bytes.ofNat32 (rest.headD 0) ++ tail.extract start stop)
      shows_ hasPage
    obtain ⟨data, isData⟩ : ∃ data, data = (Bytes.ofNat32 (rest.headD 0) ++ tail.extract start stop).resize d.pageSize :=
      ⟨_, rfl⟩
    rw [← isData] at shows1
    obtain ⟨link, content⟩ := chain_page tail sound following isStop
    rw [← isData] at link content
    unfold writePages at run
    rw [Action.bind_of_ok (capacity_run shows_)] at run
    rw [← isStop, Action.bind_of_ok run1] at run
    obtain ⟨_, t2, put, run⟩ := Action.bind_ok.mp run
    have behind : (d.put page data).mapped = true → (d.put page data).mapPage page < page :=
      PointerMap.put_behind shows1 put
    obtain ⟨d2, t2', put', shows2, -, alike2, count2, images2⟩ := PointerMap.put_images owner shows1 low hasPage behind
    cases put.symm.trans put'
    have alike : Alike d d2 := (alike_put d page data).trans alike2
    have usable := alike.usableSize
    have shorter : rest.length = needed (overflowCapacity d2.usableSize) (tail.size - stop) := by
      rw [needed_step positive (by omega), List.length_cons, Nat.sub_sub, ← isStop] at length
      rw [usable]
      exact Nat.succ.inj length
    have has2 : ∀ n, d.Has n → d2.Has n := fun n old => ⟨old.1, count2.symm ▸ old.2⟩
    obtain ⟨e, showsT, alikeT, countT, chain, behindRest, images⟩ := ih shows2
      (fun n inside => (has n (List.mem_cons_of_mem _ inside)).imp_right (has2 n))
      (fun n inside => (alike.isMap n).trans (plain n (List.mem_cons_of_mem _ inside))) onceRest shorter run
      shows2.disk_sound (usable ▸ positive)
    have same : ∀ n, d.isMap n = false → n ∉ rest → e.image n = (d.put page data).image n := fun n plainN away =>
      (images n ((alike.isMap n).trans plainN) away).trans (images2 n plainN)
    have here : e.image page = data := by
      rw [same page (plain page List.mem_cons_self) fresh, put_self]
    refine ⟨e, showsT, alike.trans alikeT, countT.trans count2, ⟨left, ?_, ?_, ?_⟩, fun mapped => ?_,
      fun n plainN away => ?_⟩
    · rw [here, link]
    · rw [here, alikeT.usableSize, usable, content, isStop]
    · rw [alikeT.usableSize, usable, ← isStop]
      exact chain
    · refine List.forall_mem_cons.mpr ⟨behind mapped, fun n inside => ?_⟩
      rw [← alike.mapPage]
      exact behindRest (alike.mapped.trans mapped) n inside
    · rw [List.mem_cons, not_or] at away
      rw [same n plainN away.2, put_other _ _ away.1]

theorem write_laid (shows_ : s.Shows d) (shelf : d.Shelf trunks) (run : write tail owner s = .ok first t) :
    ∃ e fewer rest, t.Shows e ∧ Alike d e ∧ Laid e fewer tail (first :: rest) 0 ∧
      ∀ n ∈ first :: rest, n ∈ Trunk.allPages trunks ∨ d.count < n ∧ d.isReserved n = false := by
  unfold write at run
  rw [Action.bind_of_ok (capacity_run shows_)] at run
  obtain ⟨pages, t1, run1, run⟩ := Action.bind_ok.mp run
  obtain ⟨length, d1, fewer, shows1, shelf1, drawn⟩ := Freelist.allocateMany_shelf _ shows_ shelf run1
  cases pages with
  | nil => exact absurd run Action.throw_ok
  | cons head rest =>
    obtain ⟨_, t2, run2, run⟩ := Action.bind_ok.mp run
    cases run
    have plain := drawn.plain shelf
    have enough : (first :: rest).length = needed (overflowCapacity d1.usableSize) (tail.size - 0) := by
      rw [length, drawn.alike.usableSize, Nat.sub_zero]
      rfl
    obtain ⟨e, showsT, alike, count, chain, behind, images⟩ := writePages_ok shows1
      (fun n inside => ⟨(plain n inside).1, drawn.has n inside⟩) (fun n inside => (plain n inside).2)
      (List.nodup_append.mp drawn.once).1 enough run2
    have apart := (List.nodup_append.mp drawn.once).2.2
    refine ⟨e, fewer, rest, showsT, drawn.alike.trans alike, ⟨?_, chain, drawn.once, fun n inside => ?_, fun n inside => ?_,
      fun mapped n inside => ?_⟩, drawn.source⟩
    · refine shelf1.of_images alike count fun n kept => ?_
      rcases kept with rfl | listed
      · exact images 1 (isMap_of_free (isReserved_one shows1.disk_sound)) fun inside =>
          absurd (plain 1 inside).1 (by decide)
      · exact images n (shelf1.plain n listed) fun inside => apart n inside n listed rfl
    · exact ⟨(plain n inside).1, (drawn.has n inside).1, count.symm ▸ (drawn.has n inside).2⟩
    · exact (alike.isMap n).trans (plain n inside).2
    · rw [alike.mapPage]
      exact behind (alike.mapped.symm.trans mapped) n inside

theorem write_runs (shows_ : s.Shows d) (ledger : d.Ledger trunks owned) (some_ : 0 < tail.size)
    (enough : needed (overflowCapacity d.usableSize) tail.size ≤ (Trunk.allPages trunks).length)
    (small : owner < 4294967296) : Action.Runs (write tail owner) s := by
  unfold write
  refine .after (capacity_run shows_) ?_
  refine (Freelist.allocateMany_runs _ shows_ ledger.listing.shelf enough).bind fun pages u run => ?_
  obtain ⟨e, showsU, -, keeps, books, -, length⟩ := Freelist.allocateMany_ok _ shows_ ⟨trunks, ledger⟩ run
  have positive := needed_step (capacity_pos shows_.disk_sound) some_
  cases pages with
  | nil => cases length.trans positive
  | cons first rest =>
    have once := List.nodup_append.mp books.nodup
    have inside : ∀ n ∈ first :: rest, n ∈ first :: rest ++ owned ∧ n ≠ 1 := fun n member =>
      ⟨List.mem_append_left _ member, fun same => once.2.2 n member 1 ledger.one same⟩
    have length : (first :: rest).length = needed (overflowCapacity e.usableSize) (tail.size - 0) := by
      rw [length, keeps.alike.usableSize]
      rfl
    obtain ⟨-, v, wrote, -⟩ :=
      writePages_run (first :: rest) ⟨.overflowHead, owner⟩ showsU books inside once.1 small length
    exact .after wrote (.pure first)

theorem readFrom_step (first : PageNo) (wanted left : Nat) (page : PageNo) (seen : PageSet) (found : Bytes) :
    ∃ go, readFrom first wanted left page seen found = readStep first wanted page seen found go := by
  cases left with
  | zero => exact ⟨_, readFrom_zero first wanted page seen found⟩
  | succ left => exact ⟨_, readFrom_next first wanted left page seen found⟩

theorem readStep_run {wanted : Nat} {page : PageNo} {seen : PageSet} {found : Bytes} (first : PageNo)
    (go : Bytes → Bytes → StoreM Bytes) (shows_ : s.Shows d) (less : found.size < wanted) (has : d.Has page)
    (unseen : ¬ seen.contains page = true) :
    ∃ part t, readStep first wanted page seen found go s = go (d.image page) part t ∧ t.Shows d ∧
      part.size = min (wanted - found.size) (overflowCapacity d.usableSize) := by
  have size := shows_.disk_sound.sizes page
  have usable := shows_.disk_sound.usable_bounds
  obtain ⟨t, read, showsT, -⟩ := Store.readPage_run shows_ has
  obtain ⟨length, isLength⟩ : ∃ length, length = min (wanted - found.size) (overflowCapacity d.usableSize) := ⟨_, rfl⟩
  have room : 4 + length ≤ (d.image page).size := by
    unfold overflowCapacity at isLength
    omega
  refine ⟨(d.image page).extract 4 (4 + length), t, ?_, showsT, ?_⟩
  · unfold readStep
    rw [if_neg (Nat.not_le.mpr less), if_neg (Nat.pos_iff_ne_zero.mp has.1)]
    dsimp only
    rw [Action.get_bind, if_neg (Nat.not_lt.mpr (shows_.count ▸ has.2)), if_neg unseen]
    rw [Action.bind_of_ok read, Action.bind_of_ok (capacity_run showsT), ← isLength,
      Bytes.slice_ok.mpr ⟨⟨Nat.le_add_right 4 length, room⟩, rfl⟩]
    rfl
  · rw [Bytes.size_extract_of_le room, isLength]
    omega

theorem readFrom_other (first : PageNo) {wanted left : Nat} {seen : PageSet} {found : Bytes} (shows_ : s.Shows d)
    (chain : Chain d tail pages start) (has : ∀ n ∈ pages, d.Has n)
    (other : needed (overflowCapacity d.usableSize) (wanted - found.size) ≠ pages.length) :
    ∃ e t, readFrom first wanted left (pages.headD 0) seen found s = .error e t ∧ e.code = .corrupt := by
  have positive := capacity_pos shows_.disk_sound
  induction pages generalizing s start left seen found with
  | nil =>
    have less : found.size < wanted := Nat.lt_of_not_le fun done =>
      other (by rw [Nat.sub_eq_zero_of_le done, needed_zero positive]; rfl)
    obtain ⟨go, step⟩ := readFrom_step first wanted left 0 seen found
    refine ⟨.chainTooShort first (wanted - found.size), s, ?_, rfl⟩
    change readFrom first wanted left 0 seen found s = _
    rw [step]
    unfold readStep
    rw [if_neg (Nat.not_le.mpr less), if_pos rfl]
    rfl
  | cons page rest ih =>
    obtain ⟨-, link, -, later⟩ := chain
    have hasPage := has page List.mem_cons_self
    have bounds := shows_.disk_sound.pageSize_bounds
    have size := shows_.disk_sound.sizes page
    obtain ⟨go, step⟩ := readFrom_step first wanted left page seen found
    change ∃ e t, readFrom first wanted left page seen found s = .error e t ∧ _
    by_cases done : wanted ≤ found.size
    · refine ⟨.chainTooLong first, s, ?_, rfl⟩
      rw [step]
      unfold readStep
      rw [if_pos done, if_pos (Nat.pos_iff_ne_zero.mp hasPage.1)]
      rfl
    have less := Nat.lt_of_not_le done
    by_cases met : seen.contains page = true
    · refine ⟨.chainRevisits first page, s, ?_, rfl⟩
      rw [step]
      unfold readStep
      rw [if_neg done, if_neg (Nat.pos_iff_ne_zero.mp hasPage.1)]
      dsimp only
      rw [Action.get_bind, if_neg (Nat.not_lt.mpr (shows_.count ▸ hasPage.2)), if_pos met]
      rfl
    cases left with
    | zero =>
      obtain ⟨part, t, run, -⟩ := readStep_run first (fun _ _ => throw (.chainRevisits first page)) shows_ less hasPage met
      exact ⟨.chainRevisits first page, t, run, rfl⟩
    | succ left =>
      obtain ⟨part, t, run, showsT, sizePart⟩ := readStep_run first
        (fun data part => readFrom first wanted left (next data) (seen.insert page) (found ++ part)) shows_ less hasPage met
      have nextIs : next (d.image page) = rest.headD 0 := by
        rw [next_eq (by omega), link]
      rw [readFrom_next, run, nextIs]
      refine ih showsT later (fun n inside => has n (List.mem_cons_of_mem _ inside)) fun same => other ?_
      rw [ByteArray.size_append, sizePart] at same
      rw [needed_step positive (by omega), List.length_cons, ← same]
      congr 2
      omega

theorem Laid.rest {more : List Trunk} {page : PageNo} {rest : List PageNo}
    (laid : Laid d trunks tail (page :: rest) start) (shelf : e.Shelf more)
    (perm : (page :: Trunk.allPages trunks).Perm (Trunk.allPages more)) (alike : Alike d e) (count : e.count = d.count)
    (same : ∀ n ∈ rest, e.image n = d.image n) :
    Laid e more tail rest (start + overflowCapacity e.usableSize) := by
  obtain ⟨-, ⟨-, -, -, later⟩, once, has, plain, behind⟩ := laid
  have moved : (page :: (rest ++ Trunk.allPages trunks)).Perm (rest ++ Trunk.allPages more) :=
    List.perm_middle.symm.trans (perm.append_left rest)
  refine ⟨shelf, ?_, moved.nodup once, fun n inside => ?_, fun n inside => ?_, fun mapped n inside => ?_⟩
  · rw [alike.usableSize]
    exact later.congr alike.usableSize same
  · exact (has n (List.mem_cons_of_mem _ inside)).imp_right fun old => ⟨old.1, count.symm ▸ old.2⟩
  · exact (alike.isMap n).trans (plain n (List.mem_cons_of_mem _ inside))
  · rw [alike.mapPage]
    exact behind (alike.mapped.symm.trans mapped) n (List.mem_cons_of_mem _ inside)

theorem freeFrom_shelf (first : PageNo) (total : Nat) {seen : PageSet} (shows_ : s.Shows d)
    (laid : Laid d trunks tail pages start) (unseen : ∀ n ∈ pages, ¬ seen.contains n = true) :
    ∃ e t more, freeFrom first total pages.length (pages.headD 0) seen s = .ok () t ∧ t.Shows e ∧ e.Shelf more ∧
      (pages ++ Trunk.allPages trunks).Perm (Trunk.allPages more) := by
  induction pages generalizing s d trunks start seen with
  | nil => exact ⟨d, s, trunks, rfl, shows_, laid.shelf, .refl _⟩
  | cons page rest ih =>
    obtain ⟨shelf, ⟨-, link, -, -⟩, once, has, plain, behind⟩ := id laid
    have bounds := shows_.disk_sound.pageSize_bounds
    have size := shows_.disk_sound.sizes page
    obtain ⟨low, hasPage⟩ := has page List.mem_cons_self
    rw [List.cons_append] at once
    obtain ⟨fresh, onceRest⟩ := List.nodup_cons.mp once
    rw [List.mem_append, not_or] at fresh
    have apart := (List.nodup_append.mp onceRest).2.2
    obtain ⟨t1, run1, shows1, -⟩ := Store.readPage_run shows_ hasPage
    obtain ⟨d1, u, d2, t2, more, run2, shows2, -, shelf2, perm, edits, -, -, -, alike, count, images⟩ :=
      Freelist.free_shelf shows1 shelf low hasPage (plain page List.mem_cons_self)
        (fun mapped => behind mapped page List.mem_cons_self) fresh.2
    have alike2 : Alike d d2 := edits.alike.trans alike
    have same : ∀ n ∈ rest, d2.image n = d.image n := fun n inside => by
      have two := (has n (List.mem_cons_of_mem _ inside)).1
      rw [images n (plain n (List.mem_cons_of_mem _ inside)), edits.images n (by omega)]
      rintro (rfl | listed)
      · exact fresh.1 inside
      · exact apart n inside n listed rfl
    have laid2 := laid.rest shelf2 perm alike2 (count.trans edits.count) same
    have unseenRest : ∀ n ∈ rest, ¬ (seen.insert page).contains n = true := by
      intro n inside
      rw [Freelist.contains_insert]
      rintro (rfl | old)
      · exact fresh.1 inside
      · exact unseen n (List.mem_cons_of_mem _ inside) old
    obtain ⟨e, t, most, run3, showsT, shelfE, perm3⟩ := ih shows2 laid2 unseenRest
    have moved : (page :: (rest ++ Trunk.allPages trunks)).Perm (rest ++ Trunk.allPages more) :=
      List.perm_middle.symm.trans (perm.append_left rest)
    refine ⟨e, t, most, ?_, showsT, shelfE, moved.trans perm3⟩
    have nextIs : next (d.image page) = rest.headD 0 := by
      rw [next_eq (by omega), link]
    have inside : ¬ ((decide (page < 2) || decide (page > s.pageCount)) = true) := by
      have high := hasPage.2
      simp only [Bool.or_eq_true, decide_eq_true_eq, shows_.count]
      omega
    have ends : ¬ (rest.length = 0 ∧ rest.headD 0 ≠ 0) := by
      rintro ⟨none_, some_⟩
      rw [List.length_eq_zero_iff] at none_
      subst none_
      exact some_ rfl
    have first_ : (page :: rest).headD 0 = page := rfl
    rw [List.length_cons, first_]
    conv_lhs => unfold freeFrom
    rw [Action.get_bind, if_neg inside]
    dsimp only
    rw [if_neg (unseen page List.mem_cons_self), Action.bind_of_ok run1, nextIs, if_neg ends, Action.bind_of_ok run2]
    exact run3

/-- A tail that was written comes back from its chain, and from no other length. Freeing the chain gives all of its
pages to the freelist, each of them once. -/
theorem write_round_trip {f : FreePages} (shows_ : s.calm.Shows d) (finds : Freelist.Finds s.calm f)
    (run : write tail owner s = .ok first t) :
    ∃ e rest g, t.calm.Shows e ∧ Freelist.Finds t.calm g ∧ Chain e tail (first :: rest) 0 ∧
      (first :: rest ++ g.pages).Nodup ∧ (∀ n ∈ first :: rest, n ∈ f.pages ∨ d.count < n ∧ d.isReserved n = false) ∧
      ((read first tail.size).run' t.calm = some tail ∧ ∀ v u, read first tail.size t = .ok v u → v = tail) ∧
      (∀ n, needed (overflowCapacity d.usableSize) n ≠ needed (overflowCapacity d.usableSize) tail.size →
        (∃ err u, read first n t.calm = .error err u ∧ err.code = .corrupt) ∧ ∀ v u, read first n t ≠ .ok v u) ∧
      (free first (needed (overflowCapacity d.usableSize) tail.size)).run' t.calm = some () ∧
      ∀ u, free first (needed (overflowCapacity d.usableSize) tail.size) t = .ok () u → ∃ e' g', u.calm.Shows e' ∧
        Freelist.Finds u.calm g' ∧ g'.pages.Nodup ∧ g'.pages.Perm (first :: rest ++ g.pages) := by
  obtain ⟨trunks, shelf, rfl⟩ := finds.shelf shows_
  obtain ⟨e, fewer, rest, showsT, alike, laid, source⟩ := write_laid shows_ shelf (Calms.run run)
  have usable : overflowCapacity e.usableSize = overflowCapacity d.usableSize := congrArg _ alike.usableSize
  have length := laid.chain.length showsT.disk_sound
  rw [usable, Nat.sub_zero] at length
  have has : ∀ n ∈ first :: rest, e.Has n := fun n inside => (laid.has n inside).2
  have oncePages := (List.nodup_append.mp laid.once).1
  have perm := (Freelist.found_perm fewer).append_left (first :: rest)
  have unseen : ∀ n ∈ first :: rest, ¬ ({} : PageSet).contains n = true := by simp
  refine ⟨e, rest, Freelist.found fewer, showsT, Freelist.finds_of_shelf showsT laid.shelf, laid.chain,
    perm.symm.nodup laid.once, fun n inside => (source n inside).imp_left Freelist.mem_found.mpr, ?_, ?_, ?_⟩
  · have enough : (first :: rest).length ≤ t.calm.pageCount := by
      rw [showsT.count]
      exact Freelist.length_le_count oncePages has
    obtain ⟨u, whole, -⟩ : ∃ u, read first tail.size t.calm = .ok (.empty ++ tail.extract 0 tail.size) u ∧ u.Shows e ∧
        t.calm.Steady u :=
      readFrom_run (first :: rest) first showsT laid.chain has oncePages unseen enough (Nat.zero_add _).symm
    rw [ByteArray.empty_append, ByteArray.extract_zero_size] at whole
    refine ⟨Action.run'_of_ok whole, fun v u' ran => ?_⟩
    cases whole.symm.trans (Calms.run ran)
    rfl
  · intro n other
    have unlike : needed (overflowCapacity e.usableSize) (n - ByteArray.empty.size) ≠ (first :: rest).length := by
      rw [usable, length]
      exact other
    obtain ⟨err, u, failed, code⟩ : ∃ err u, read first n t.calm = .error err u ∧ err.code = .corrupt :=
      readFrom_other first showsT laid.chain has unlike
    exact ⟨⟨err, u, failed, code⟩, fun v u' ran => nomatch failed.symm.trans (Calms.run ran)⟩
  · obtain ⟨e', u, more, freed, showsU, shelfU, permU⟩ := freeFrom_shelf first (first :: rest).length showsT laid unseen
    rw [length] at freed
    have freed : free first (needed (overflowCapacity d.usableSize) tail.size) t.calm = .ok () u := freed
    refine ⟨Action.run'_of_ok freed, fun u' ran => ?_⟩
    cases freed.symm.trans (Calms.run ran)
    refine ⟨e', Freelist.found more, showsU, Freelist.finds_of_shelf showsU shelfU,
      (Freelist.found_perm more).symm.nodup shelfU.once, ?_⟩
    exact (Freelist.found_perm more).trans (permU.symm.trans perm.symm)

open Integrity (stocked stocked_shows)

/-- A chain of two pages is written to a file with two free ones. -/
theorem write_round_trip_stocked : stocked.calm.Shows stocked.disk ∧ Freelist.Finds stocked.calm ⟨[4], [5]⟩ ∧
    ∃ first t, write (.zeros 600) 2 stocked = .ok first t ∧
      (read first 600).run' t.calm = some (.zeros 600) ∧
      (∃ err u, read first 508 t.calm = .error err u ∧ err.code = .corrupt) ∧
      (free first 2).run' t.calm = some () := by
  have calm : stocked.calm = stocked := Store.calm_self rfl
  have shows_ : stocked.calm.Shows stocked.disk := calm ▸ stocked_shows
  have finds : Freelist.Finds stocked.calm ⟨[4], [5]⟩ := by
    rw [calm]
    exact ⟨by decide +kernel, by decide +kernel, by decide +kernel⟩
  have capacity : overflowCapacity stocked.disk.usableSize = 508 := rfl
  have pages : needed 508 600 = 2 := rfl
  have trunk : stocked.disk.Trunks 0 [⟨4, [5]⟩] :=
    ⟨⟨by decide +kernel, by decide +kernel, by decide +kernel, by decide +kernel⟩, trivial⟩
  have ledger : stocked.disk.Ledger [⟨4, [5]⟩] [1, 2, 3] :=
    unsaved_ledger (by decide) (by decide) (by decide) (by decide +kernel) (by decide +kernel) trunk
  obtain ⟨first, t, run⟩ : Action.Runs (write (.zeros 600) 2) stocked := by
    refine write_runs stocked_shows ledger (by decide +kernel) ?_ (by decide)
    rw [capacity, Bytes.size_zeros, pages]
    exact Nat.le_refl 2
  obtain ⟨e, rest, g, -, -, -, -, -, ⟨whole, -⟩, other, freed, -⟩ := write_round_trip shows_ finds run
  rw [capacity, Bytes.size_zeros, pages] at other freed
  rw [Bytes.size_zeros] at whole
  exact ⟨shows_, finds, first, t, run, whole, (other 508 (by decide)).1, freed⟩

end Overflow

end TreeFile
