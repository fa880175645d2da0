import TreeFile.Overflow
import TreeFile.Proofs.Freelist.Changes

/-!
Overflow chains: what is written to a chain is read back from it, and freeing a chain gives back
all of its pages.
-/

namespace TreeFile

namespace Overflow

open Disk PointerMap

variable {s t : Store} {d e : Disk} {owned pages : List Nat} {tail : Bytes} {start : Nat}

def Chain (d : Disk) (tail : Bytes) : List Nat → Nat → Prop
  | [], start => tail.size ≤ start
  | page :: rest, start =>
    start < tail.size ∧ (d.image page).at32 0 = rest.headD 0 ∧
      (d.image page).extract 4 (4 + min (overflowCapacity d.usableSize) (tail.size - start)) =
        tail.extract start (start + overflowCapacity d.usableSize) ∧
      Chain d tail rest (start + overflowCapacity d.usableSize)

theorem Chain.congr (chain : Chain d tail pages start) (usable : e.usableSize = d.usableSize)
    (same : ∀ n ∈ pages, e.image n = d.image n) : Chain e tail pages start := by
  induction pages generalizing start with
  | nil => exact chain
  | cons page rest ih =>
    obtain ⟨low, link, content, later⟩ := chain
    have here := same page List.mem_cons_self
    refine ⟨low, by rw [here]; exact link, by rw [here, usable]; exact content, ?_⟩
    rw [usable]
    exact ih later fun n inside => same n (List.mem_cons_of_mem _ inside)

def chainClaims : PointerEntry → List Nat → Claims
  | _, [] => []
  | first, page :: rest => (page, first) :: chainClaims ⟨.overflowNext, page⟩ rest

theorem chainClaims_pages (first : PointerEntry) (pages : List Nat) :
    (chainClaims first pages).pages = pages := by
  induction pages generalizing first with
  | nil => rfl
  | cons page rest ih => exact congrArg (page :: ·) (ih _)

def needed (capacity size : Nat) : Nat := (size + capacity - 1) / capacity

theorem needed_zero {capacity : Nat} (positive : 0 < capacity) : needed capacity 0 = 0 :=
  Nat.div_eq_of_lt (by omega)

theorem needed_step {capacity size : Nat} (positive : 0 < capacity) (some_ : 0 < size) :
    needed capacity size = needed capacity (size - capacity) + 1 := by
  unfold needed
  by_cases large : capacity ≤ size
  · rw [show size + capacity - 1 = size - capacity + capacity - 1 + capacity by omega,
      Nat.add_div_right _ positive]
  · rw [show size - capacity = 0 by omega, Nat.div_eq_of_lt (show 0 + capacity - 1 < capacity by omega),
      show size + capacity - 1 = size - 1 + capacity by omega, Nat.add_div_right _ positive,
      Nat.div_eq_of_lt (by omega)]

theorem capacity_pos (sound : d.Sound) : 0 < overflowCapacity d.usableSize := by
  have usable := sound.usable_bounds
  unfold overflowCapacity
  omega

theorem Chain.length (chain : Chain d tail pages start) (sound : d.Sound) :
    pages.length = needed (overflowCapacity d.usableSize) (tail.size - start) := by
  have positive := capacity_pos sound
  induction pages generalizing start with
  | nil =>
    have done : tail.size ≤ start := chain
    rw [show tail.size - start = 0 by omega, needed_zero positive]
    rfl
  | cons page rest ih =>
    obtain ⟨low, -, -, later⟩ := chain
    rw [needed_step positive (by omega), List.length_cons, ih later, Nat.sub_sub]

theorem capacity_run (shows_ : s.Shows d) :
    capacity s = .ok (overflowCapacity d.usableSize) s := by
  unfold capacity
  rw [Action.get_bind, shows_.usableSize]
  rfl

theorem chain_page (tail : Bytes) (sound : d.Sound) {following stop : Nat} (small : following < 4294967296)
    (isStop : stop = start + overflowCapacity d.usableSize) :
    ((Bytes.ofNat32 following ++ tail.extract start stop).resize d.pageSize).at32 0 = following ∧
      ((Bytes.ofNat32 following ++ tail.extract start stop).resize d.pageSize).extract 4
          (4 + min (overflowCapacity d.usableSize) (tail.size - start)) = tail.extract start stop := by
  have bounds := sound.pageSize_bounds
  have usable := sound.usable_bounds
  have capacity : overflowCapacity d.usableSize = d.usableSize - 4 := rfl
  have four := Bytes.size_ofNat32 following
  obtain ⟨whole, isWhole⟩ : ∃ whole,
      whole = (Bytes.ofNat32 following ++ tail.extract start stop).resize d.pageSize := ⟨_, rfl⟩
  rw [← isWhole]
  have size : whole.size = d.pageSize := by rw [isWhole, Bytes.size_resize]
  have sizeTail : (tail.extract start stop).size =
      min (overflowCapacity d.usableSize) (tail.size - start) := by
    rw [ByteArray.size_extract]
    omega
  have has : whole.HasAt 0 (Bytes.ofNat32 following ++ tail.extract start stop) := by
    refine ⟨?_, fun k below => ?_⟩
    · rw [ByteArray.size_append, four, sizeTail]
      omega
    · have inPage : k < d.pageSize := by
        rw [ByteArray.size_append, four, sizeTail] at below
        omega
      rw [Nat.zero_add, isWhole, Bytes.get_resize, if_pos inPage]
  constructor
  · rw [Bytes.at32_of_hasAt has.append_left]
    exact Nat.mod_eq_of_lt small
  · have content := has.append_right.extract
    rw [four, Nat.zero_add, sizeTail] at content
    exact content

theorem writePages_run (pages : List Nat) (owner : PointerEntry) (shows_ : s.Shows d)
    (books : d.Books owned) (inside : ∀ n ∈ pages, n ∈ owned ∧ n ≠ 1) (once : pages.Nodup)
    (small : owner.parent < 4294967296)
    (length : pages.length = needed (overflowCapacity d.usableSize) (tail.size - start)) :
    ∃ e t, writePages tail pages owner start s = .ok () t ∧ t.Shows e ∧ s.Steady t ∧
      Quiet d e (· ∈ pages) (· ∈ pages) ∧ Chain e tail pages start ∧
      e.Mapped (chainClaims owner pages) := by
  have sound := shows_.disk_sound
  have positive := capacity_pos sound
  induction pages generalizing s d owner start with
  | nil =>
    refine ⟨d, s, rfl, shows_, .refl s, .refl d, ?_, mapped_nil⟩
    refine Nat.le_of_not_lt fun left => ?_
    rw [needed_step positive (by omega)] at length
    exact Nat.succ_ne_zero _ length.symm
  | cons page rest ih =>
    have left : start < tail.size := by
      refine Nat.lt_of_not_le fun done => ?_
      rw [show tail.size - start = 0 by omega, needed_zero positive] at length
      exact Nat.succ_ne_zero _ length
    obtain ⟨own, other⟩ := inside page List.mem_cons_self
    obtain ⟨has, free⟩ := books.has own
    obtain ⟨fresh, onceRest⟩ := List.nodup_cons.mp once
    obtain ⟨stop, isStop⟩ : ∃ stop, stop = start + overflowCapacity d.usableSize := ⟨_, rfl⟩
    have following : rest.headD 0 < 4294967296 := by
      cases rest with
      | nil => exact Nat.succ_pos _
      | cons next more =>
        exact sound.has_lt (books.has
          (inside next (List.mem_cons_of_mem _ List.mem_cons_self)).1).1
    obtain ⟨t1, run1, shows1, steady1, quiet1⟩ := Freelist.putFresh_run page
      (Bytes.ofNat32 (rest.headD 0) ++ tail.extract start stop) shows_ has free other
    obtain ⟨d1, isD1⟩ : ∃ d1, d1 = d.put page ((Bytes.ofNat32 (rest.headD 0) ++
      tail.extract start stop).resize d.pageSize) := ⟨_, rfl⟩
    rw [← isD1] at shows1 quiet1
    obtain ⟨link, content⟩ := chain_page tail sound following isStop
    have books1 : d1.Books owned :=
      books.of_quiet sound shows1.disk_sound quiet1 (fun n same => same ▸ own) (fun _ h => h.elim)
    obtain ⟨d2, t2, run2, shows2, steady2, quiet2, entry2⟩ :=
      put_run shows1 (books1.described own other) small
    have books2 : d2.Books owned := books1.of_quiet shows1.disk_sound shows2.disk_sound quiet2
      (fun _ h => h.elim) (fun n same => same ▸ own)
    have usable2 : d2.usableSize = d.usableSize :=
      quiet2.alike.usableSize.trans quiet1.alike.usableSize
    have shorter : rest.length = needed (overflowCapacity d2.usableSize) (tail.size - stop) := by
      rw [needed_step positive (by omega), List.length_cons, Nat.sub_sub, ← isStop] at length
      rw [usable2]
      exact Nat.succ.inj length
    obtain ⟨d3, t3, run3, shows3, steady3, quiet3, chain3, mapped3⟩ := ih ⟨.overflowNext, page⟩ shows2
      books2 (fun n member => inside n (List.mem_cons_of_mem _ member)) onceRest (sound.has_lt has) shorter shows2.disk_sound
      (by rw [usable2]; exact positive)
    have both := quiet1.toKeeps.alike.trans quiet2.toKeeps.alike
    refine ⟨d3, t3, ?_, shows3, steady1.trans (steady2.trans steady3), ?_, ?_, ?_⟩
    · unfold writePages
      rw [Action.bind_of_ok (capacity_run shows_)]
      rw [← isStop, Action.bind_of_ok run1, Action.bind_of_ok run2]
      exact run3
    · refine (quiet1.mono ?_ (fun _ h => h.elim)).trans ((quiet2.mono (fun _ h => h.elim) ?_).trans
        (quiet3.mono (fun n member => List.mem_cons_of_mem _ member)
          (fun n member => List.mem_cons_of_mem _ member)))
      · exact fun n same => same ▸ List.mem_cons_self
      · exact fun n same => same ▸ List.mem_cons_self
    · have image : d3.image page = d1.image page := by
        have low : page ≠ 1 := other
        have free1 := (quiet1.alike.isReserved page).trans free
        rw [(quiet3.images page ((both.isReserved page).trans free) fresh).image shows2.disk_sound
          shows3.disk_sound quiet3.alike low,
          (quiet2.images page free1 id).image shows1.disk_sound shows2.disk_sound quiet2.alike low]
      have usable3 : d3.usableSize = d.usableSize := quiet3.alike.usableSize.trans usable2
      refine ⟨left, ?_, ?_, ?_⟩
      · rw [image, isD1, put_self, link]
      · rw [image, isD1, put_self, usable3, content, isStop]
      · rw [usable3, ← isStop]
        exact chain3
    · refine mapped_cons.mpr ⟨fun mapped => ?_, mapped3⟩
      have kept := quiet3.entries page ((both.isReserved page).trans free) fresh
      rw [kept]
      exact entry2 (quiet2.alike.mapped.symm.trans (quiet3.alike.mapped.symm.trans mapped))

theorem chainLength_eq (limits : PayloadLimits) (size kept : Nat) :
    limits.chainLength size kept = needed (overflowCapacity limits.usableSize) (size - kept) := rfl

theorem write_ok {owner first : PageNo} (shows_ : s.Shows d) (books : d.Books owned)
    (small : owner < 4294967296) (run : write tail owner s = .ok first t) :
    ∃ pages e, t.Shows e ∧ s.Steady t ∧ Keeps d e (Freelist.Others owned) (Freelist.Others owned) ∧
      e.Books (first :: pages ++ owned) ∧ Chain e tail (first :: pages) 0 ∧
      e.Mapped (chainClaims ⟨.overflowHead, owner⟩ (first :: pages)) ∧ d.count ≤ e.count := by
  unfold write at run
  rw [Action.bind_of_ok (capacity_run shows_)] at run
  obtain ⟨pages, t1, run1, run⟩ := Action.bind_ok.mp run
  obtain ⟨d1, shows1, steady1, keeps1, books1, grows, length⟩ :=
    Freelist.allocateMany_ok _ shows_ books run1
  cases pages with
  | nil => exact absurd run Action.throw_ok
  | cons head rest =>
    have once := books1.nodup
    have inside : ∀ n ∈ head :: rest, n ∈ head :: rest ++ owned ∧ n ≠ 1 := by
      intro n member
      refine ⟨List.mem_append_left _ member, fun same => ?_⟩
      exact (List.nodup_append.mp once).2.2 n member 1 books.one same
    have enough : (head :: rest).length =
        needed (overflowCapacity d1.usableSize) (tail.size - 0) := by
      rw [length, keeps1.alike.usableSize, Nat.sub_zero]; rfl
    obtain ⟨d2, t2, run2, shows2, steady2, quiet, chain, mapped⟩ :=
      writePages_run (head :: rest) ⟨.overflowHead, owner⟩ shows1 books1 inside
        (List.nodup_append.mp once).1 small enough
    have run : (writePages tail (head :: rest) ⟨.overflowHead, owner⟩ 0 >>= fun _ =>
        (pure head : StoreM PageNo)) t1 = .ok first t := run
    rw [Action.bind_of_ok run2] at run
    have apart : ∀ n, n ∈ head :: rest → Freelist.Others owned n := fun n member own =>
      (List.nodup_append.mp once).2.2 n member n own rfl
    cases run
    refine ⟨rest, d2, shows2, steady1.trans steady2, ?_, ?_, chain, mapped, ?_⟩
    · exact (keeps1.mono (fun _ h => h) (fun _ h => h.elim)).trans (quiet.toKeeps.mono apart apart)
    · exact books1.of_quiet shows1.disk_sound shows2.disk_sound quiet
        (fun n member => List.mem_append_left _ member)
        (fun n member => List.mem_append_left _ member)
    · rw [quiet.count]
      exact grows

theorem extract_join {d : Bytes} {a b : Nat} (order : a ≤ b) :
    d.extract a b ++ d.extract b d.size = d.extract a d.size := by
  apply Bytes.ext_get
  · rw [ByteArray.size_append, ByteArray.size_extract, ByteArray.size_extract, ByteArray.size_extract]
    omega
  · intro i h
    rw [ByteArray.size_append, ByteArray.size_extract, ByteArray.size_extract] at h
    rw [Bytes.get_append, Bytes.get_extract, ByteArray.size_extract]
    by_cases first : i < min b d.size - a
    · rw [if_pos first, Bytes.get_extract, if_pos (by omega), if_pos (by omega)]
    · rw [if_neg first, Bytes.get_extract, Bytes.get_extract, if_pos (by omega), if_pos (by omega)]
      congr 1
      omega

theorem next_eq {data : Bytes} (large : 4 ≤ data.size) : next data = data.at32 0 := by
  unfold next
  rw [Bytes.u32?_of_le large]
  rfl

theorem readFrom_done (first : PageNo) {wanted : Nat} (left : Nat) (seen : PageSet) {found : Bytes}
    (enough : found.size ≥ wanted) (s : Store) : readFrom first wanted left 0 seen found s = .ok found s := by
  cases left with
  | zero =>
    change (if found.size ≥ wanted then _ else _ : StoreM Bytes) s = _
    rw [if_pos enough]
    rfl
  | succ left =>
    change (if found.size ≥ wanted then _ else _ : StoreM Bytes) s = _
    rw [if_pos enough]
    rfl

theorem readFrom_succ (first : PageNo) (wanted left : Nat) {page : PageNo} {seen : PageSet}
    {found : Bytes} (less : found.size < wanted) (nonzero : page ≠ 0)
    (unseen : ¬ seen.contains page = true) (inside : page ≤ s.pageCount) :
    readFrom first wanted (left + 1) page seen found s = (do
      let data ← Store.readPage page
      let length := min (wanted - found.size) (← capacity)
      let part ← data.slice 4 (4 + length)
      readFrom first wanted left (next data) (seen.insert page) (found ++ part) : StoreM Bytes) s := by
  change (if found.size ≥ wanted then _ else
    if page = 0 then _ else get >>= fun u => if page > u.pageCount then _ else
      if seen.contains page = true then _ else _ : StoreM Bytes) s = _
  rw [if_neg (Nat.not_le.mpr less), if_neg nonzero, Action.get_bind, if_neg (Nat.not_lt.mpr inside),
    if_neg unseen]

theorem readFrom_run (pages : List Nat) (first : PageNo) {wanted left : Nat} {seen : PageSet}
    {found : Bytes} (shows_ : s.Shows d) (chain : Chain d tail pages start)
    (has : ∀ n ∈ pages, d.Has n) (once : pages.Nodup)
    (unseen : ∀ n ∈ pages, ¬ seen.contains n = true) (enough : pages.length ≤ left)
    (size : wanted = found.size + (tail.size - start)) :
    ∃ t, readFrom first wanted left (pages.headD 0) seen found s =
      .ok (found ++ tail.extract start tail.size) t ∧ t.Shows d ∧ s.Steady t := by
  have sound := shows_.disk_sound
  induction pages generalizing s start left seen found with
  | nil =>
    have done : tail.size ≤ start := chain
    have enough : found.size ≥ wanted := by omega
    have nothing : tail.extract start tail.size = .empty := by
      rw [ByteArray.extract_eq_empty_iff]
      omega
    refine ⟨s, ?_, shows_, .refl s⟩
    rw [nothing, ByteArray.append_empty]
    exact readFrom_done first left seen enough s
  | cons page rest ih =>
    obtain ⟨low, link, content, later⟩ := chain
    have hasPage := has page List.mem_cons_self
    obtain ⟨fresh, onceRest⟩ := List.nodup_cons.mp once
    have size' := sound.sizes page
    have bounds := sound.pageSize_bounds
    have usable := sound.usable_bounds
    obtain ⟨capacity, isCapacity⟩ : ∃ c, c = overflowCapacity d.usableSize := ⟨_, rfl⟩
    have most : capacity + 4 ≤ d.usableSize := by
      rw [isCapacity]
      unfold overflowCapacity
      omega
    rw [← isCapacity] at content later
    obtain ⟨t1, run1, shows1, steady1⟩ := Store.readPage_run shows_ hasPage
    cases left with
    | zero => exact absurd enough (Nat.not_succ_le_zero _)
    | succ left =>
      have sliced : (d.image page).slice 4 (4 + min (wanted - found.size) capacity) =
          .ok (tail.extract start (start + capacity)) := by
        rw [← content, Nat.min_comm, show wanted - found.size = tail.size - start by omega]
        exact Bytes.slice_ok.mpr ⟨⟨Nat.le_add_right _ _, by omega⟩, rfl⟩
      have nextIs : next (d.image page) = rest.headD 0 := by
        rw [next_eq (by omega), link]
      have unseenRest : ∀ n ∈ rest, ¬ (seen.insert page).contains n = true := by
        intro n member
        rw [Freelist.contains_insert]
        rintro (rfl | old)
        · exact fresh member
        · exact unseen n (List.mem_cons_of_mem _ member) old
      have part : (tail.extract start (start + capacity)).size = min capacity (tail.size - start) := by
        rw [ByteArray.size_extract]
        omega
      have grown : wanted = (found ++ tail.extract start (start + capacity)).size +
          (tail.size - (start + capacity)) := by
        rw [ByteArray.size_append, part]
        omega
      obtain ⟨t2, run2, shows2, steady2⟩ := ih shows1 later
        (fun n member => has n (List.mem_cons_of_mem _ member)) onceRest unseenRest
        (Nat.le_of_succ_le_succ enough) grown
      refine ⟨t2, ?_, shows2, steady1.trans steady2⟩
      have first_ : (page :: rest).headD 0 = page := rfl
      have nonzero : page ≠ 0 := Nat.pos_iff_ne_zero.mp hasPage.1
      have inside : page ≤ s.pageCount := by
        rw [shows_.count]
        exact hasPage.2
      have whole : found ++ tail.extract start (start + capacity) ++
          tail.extract (start + capacity) tail.size = found ++ tail.extract start tail.size := by
        rw [ByteArray.append_assoc]
        congr 1
        exact extract_join (Nat.le_add_right _ _)
      rw [first_, readFrom_succ first wanted left (by omega) nonzero (unseen page List.mem_cons_self)
        inside, Action.bind_of_ok run1, Action.bind_of_ok (capacity_run shows1), ← isCapacity,
        sliced, Action.lift_ok_bind, nextIs, run2, whole]

end Overflow

structure Item where
  row : RowId
  payload : Bytes
  chain : List Nat
  divider : Bool
deriving DecidableEq, Inhabited

namespace Item

def kept (item : Item) (limits : PayloadLimits) (tree : TreeKind) : Nat :=
  limits.kept (.leaf tree) item.payload.size

def stub (item : Item) (limits : PayloadLimits) (tree : TreeKind) : Stub :=
  Cell.newStub limits (.leaf tree) item.row item.payload item.chain.head?

def tail (item : Item) (limits : PayloadLimits) (tree : TreeKind) : Bytes :=
  item.payload.extract (item.kept limits tree) item.payload.size

theorem size_tail (item : Item) (limits : PayloadLimits) (tree : TreeKind) :
    (item.tail limits tree).size = item.payload.size - item.kept limits tree := by
  unfold tail
  rw [ByteArray.size_extract]
  omega

end Item

theorem PayloadLimits.kept_tree (limits : PayloadLimits) (kind : PageKind) (size : Nat) :
    limits.kept kind size = limits.kept (.leaf kind.tree) size := by
  cases kind <;> rfl

theorem Cell.newStub_tree (limits : PayloadLimits) (kind : PageKind) (row : RowId) (payload : Bytes)
    (head : Option PageNo) :
    newStub limits kind row payload head = newStub limits (.leaf kind.tree) row payload head := by
  cases kind <;> rfl

theorem Cell.Holds.stub_fits {p : PayloadLimits} {kind : PageKind} {c : Bytes} {slot : Slot}
    (holds : Holds p kind c slot) : slot.stub.kept.size = p.kept kind slot.stub.size ∧
      (slot.stub.head.isSome = true ↔ p.kept kind slot.stub.size < slot.stub.size) ∧
      (kind.tree = .index → slot.stub.row = .ofStored slot.stub.size) ∧
      (kind = .tableInterior → slot.stub.size = 0) := by
  obtain ⟨info, reads, rfl⟩ := holds
  have kept : (info.slot c).stub.kept.size = info.kept :=
    (Bytes.size_extract_of_le reads.kept_inside).trans (Nat.add_sub_cancel_left _ _)
  have linked : ∀ {start size : Nat} {head : Option PageNo}, Carries p kind c start size head →
      (head.isSome = true ↔ p.kept kind size < size) := by
    intro start size head carries
    have link := carries.link
    split at link
    · obtain ⟨page, rfl, -⟩ := link
      exact iff_of_true rfl ‹_›
    · rw [link]
      exact iff_of_false Bool.false_ne_true ‹_›
  rw [kept]
  cases kind with
  | tableInterior =>
    obtain ⟨row, n, -, -, rfl⟩ := reads_tableInterior.mp reads
    have nothing : p.kept .tableInterior 0 = 0 := by
      unfold PayloadLimits.kept keptPayload
      exact if_pos (Nat.zero_le _)
    exact ⟨nothing.symm, iff_of_false Bool.false_ne_true (Nat.not_lt_zero _), nofun, fun _ => rfl⟩
  | tableLeaf =>
    obtain ⟨size, n, row, m, head, -, -, -, carries, rfl⟩ := reads_tableLeaf.mp reads
    exact ⟨rfl, linked carries, nofun, nofun⟩
  | indexLeaf =>
    obtain ⟨size, n, head, -, -, carries, rfl⟩ := reads_indexLeaf.mp reads
    exact ⟨rfl, linked carries, fun _ => rfl, nofun⟩
  | indexInterior =>
    obtain ⟨size, n, head, -, -, carries, rfl⟩ := reads_indexInterior.mp reads
    exact ⟨rfl, linked carries, fun _ => rfl, nofun⟩

/-- An item whose payload begins with what a cell keeps and is as long as the cell says has the stub of
the cell. -/
theorem Cell.Holds.stub_of {limits : PayloadLimits} {kind : PageKind} {c : Bytes} {slot : Slot} {item : Item}
    {rest : Bytes} (holds : Holds limits kind c slot) (fair : limits.Fair) (row : item.row = slot.stub.row)
    (payload : item.payload = slot.stub.kept ++ rest) (size : rest.size = slot.stub.size - slot.stub.kept.size)
    (head : item.chain.head? = slot.stub.head) : item.stub limits kind.tree = slot.stub := by
  obtain ⟨kept, -, stored, -⟩ := holds.stub_fits
  have short := fair.kept_le kind slot.stub.size
  have whole : (slot.stub.kept ++ rest).size = slot.stub.size := by
    rw [ByteArray.size_append]
    omega
  have sameKept : limits.kept (.leaf kind.tree) slot.stub.size = slot.stub.kept.size := by
    rw [← PayloadLimits.kept_tree, kept]
  have isRow : (if (PageKind.leaf kind.tree).hasRowIds then slot.stub.row else .ofStored slot.stub.size) =
      slot.stub.row := by
    cases kind with
    | tableLeaf => rfl
    | tableInterior => rfl
    | indexLeaf => exact (stored rfl).symm
    | indexInterior => exact (stored rfl).symm
  unfold Item.stub Cell.newStub
  rw [payload, whole, sameKept, ByteArray.extract_append_eq_left rfl, row, isRow, head]

def Disk.ItemAt (d : Disk) (tree : TreeKind) (item : Item) : Prop :=
  Overflow.Chain d (item.tail d.limits tree) item.chain 0

namespace Overflow

open Disk PointerMap

variable {s t : Store} {d e : Disk} {owned : List Nat} {item : Item} {kind : PageKind} {tree : TreeKind}

theorem ItemAt.chain_length (at_ : d.ItemAt tree item) (sound : d.Sound) :
    item.chain.length = d.limits.chainLength item.payload.size (item.kept d.limits tree) := by
  have length := Chain.length at_ sound
  rw [length, Item.size_tail, chainLength_eq, sound.limits_usable, Nat.sub_zero]

theorem ItemAt.congr (at_ : d.ItemAt tree item) (alike : Alike d e)
    (same : ∀ n ∈ item.chain, e.image n = d.image n) : e.ItemAt tree item := by
  unfold Disk.ItemAt
  rw [alike.limits]
  exact Chain.congr at_ alike.usableSize same

structure Tells (info : CellInfo) (limits : PayloadLimits) (tree : TreeKind) (item : Item) : Prop where
  size : info.payloadSize = item.payload.size
  kept : info.kept = item.kept limits tree
  head : info.overflowPage = item.chain.head?

section Page

variable {p : Page} {slots : List Slot} {right : Option PageNo} {i : Nat}

theorem tells_of_bears (bears : p.Bears slots right) (clear : p.parked = []) (fair : p.limits.Fair)
    (h : i < slots.length) (same : slots[i].stub = item.stub p.limits tree) :
    ∃ info, p.cellInfo i = .ok info ∧ Tells info p.limits tree item ∧
      info.leftChild = slots[i].left ∧ info.key = (item.stub p.limits tree).row ∧
      p.data.slice info.payloadStart (info.payloadStart + info.kept) =
        .ok (item.payload.extract 0 info.kept) := by
  obtain ⟨info, run, left, key, size, head, sliced, length⟩ := bears.info clear h
  rw [same] at key size head sliced length
  have kept : info.kept = item.kept p.limits tree := by
    have short : item.kept p.limits tree ≤ item.payload.size := fair.kept_le (.leaf tree) _
    have whole : (item.payload.extract 0 (item.kept p.limits tree)).size = info.kept := length
    rw [← whole, ByteArray.size_extract]
    omega
  refine ⟨info, run, ⟨size, kept, head⟩, left, key, ?_⟩
  rw [sliced, kept]
  rfl

theorem payload_run (shows_ : s.Shows d) (bears : p.Bears slots right) (clear : p.parked = [])
    (limits : p.limits = d.limits) (h : i < slots.length)
    (same : slots[i].stub = item.stub d.limits tree) (at_ : d.ItemAt tree item)
    (has : ∀ n ∈ item.chain, d.Has n) (once : item.chain.Nodup) :
    ∃ t, payload p i s = .ok item.payload t ∧ t.Shows d ∧ s.Steady t := by
  have sound := shows_.disk_sound
  have fair : p.limits.Fair := limits ▸ sound.fair
  rw [← limits] at same
  obtain ⟨info, run, tells, -, -, sliced⟩ := tells_of_bears bears clear fair h same
  have kept := tells.kept
  rw [limits] at kept
  have short : item.kept d.limits tree ≤ item.payload.size := sound.fair.kept_le (.leaf tree) _
  have size := item.size_tail d.limits tree
  unfold payload
  rw [run, Action.lift_ok_bind, sliced, Action.lift_ok_bind, tells.head]
  have whole : item.payload.extract 0 info.kept ++ item.tail d.limits tree = item.payload := by
    unfold Item.tail
    rw [kept, extract_join (Nat.zero_le _), ByteArray.extract_zero_size]
  cases chain : item.chain with
  | nil =>
    have done : (item.tail d.limits tree).size ≤ 0 := by
      have at_ := at_
      unfold Disk.ItemAt at at_
      rw [chain] at at_
      exact at_
    have nothing : item.tail d.limits tree = .empty := by
      rw [← ByteArray.size_eq_zero_iff]
      omega
    rw [nothing, ByteArray.append_empty] at whole
    exact ⟨s, by rw [whole]; rfl, shows_, .refl s⟩
  | cons first rest =>
    have wanted : info.payloadSize - info.kept = (.empty : Bytes).size +
        ((item.tail d.limits tree).size - 0) := by
      rw [tells.size, kept, size]
      exact (Nat.zero_add _).symm
    have enough : item.chain.length ≤ s.pageCount := by
      rw [shows_.count]
      exact Freelist.length_le_count once has
    have unseen : ∀ n ∈ item.chain, ¬ ({} : PageSet).contains n = true := by simp
    obtain ⟨t, found, showsT, steady⟩ :=
      readFrom_run item.chain first shows_ at_ has once unseen enough wanted
    rw [chain, ByteArray.empty_append, ByteArray.extract_zero_size] at found
    refine ⟨t, ?_, showsT, steady⟩
    have found : read first (info.payloadSize - info.kept) s = .ok (item.tail d.limits tree) t := found
    change (read first (info.payloadSize - info.kept) >>= _) s = _
    rw [Action.bind_of_ok found, whole]
    rfl

end Page

theorem freeFrom_run (pages : List Nat) (first : PageNo) (total : Nat) {start : Nat} {tail : Bytes}
    {seen : PageSet} (shows_ : s.Shows d) (chain : Chain d tail pages start)
    (books : d.Books (pages ++ owned)) (one : 1 ∈ owned)
    (unseen : ∀ n ∈ pages, ¬ seen.contains n = true) :
    ∃ e t, freeFrom first total pages.length (pages.headD 0) seen s = .ok () t ∧ t.Shows e ∧
      s.Steady t ∧ Keeps d e (Freelist.Others owned) (Freelist.Others owned) ∧ e.Books owned ∧
      e.count = d.count := by
  induction pages generalizing s d start seen with
  | nil => exact ⟨d, s, rfl, shows_, .refl s, .refl d, books, rfl⟩
  | cons page rest ih =>
    obtain ⟨-, link, -, later⟩ := chain
    have sound := shows_.disk_sound
    have bounds := sound.pageSize_bounds
    have size := sound.sizes page
    obtain ⟨has, free⟩ := books.has (n := page) List.mem_cons_self
    obtain ⟨fresh, onceRest⟩ := List.nodup_cons.mp books.nodup
    have other : page ≠ 1 := fun same => fresh (List.mem_append_right _ (same ▸ one))
    obtain ⟨t1, run1, shows1, steady1⟩ := Store.readPage_run shows_ has
    obtain ⟨d2, t2, run2, shows2, steady2, keeps2, books2, count2⟩ :=
      Freelist.free_run shows1 books other
    have chain2 : Chain d2 tail rest (start + overflowCapacity d2.usableSize) := by
      rw [keeps2.alike.usableSize]
      refine later.congr keeps2.alike.usableSize fun n inside => ?_
      have own : n ∈ rest ++ owned := List.mem_append_left _ inside
      have apart : n ≠ 1 := fun same =>
        (List.nodup_append.mp onceRest).2.2 n inside 1 one same
      exact (keeps2.images n (books.has (List.mem_cons_of_mem _ own)).2 fun away => away own).image
        sound shows2.disk_sound keeps2.alike apart
    have unseenRest : ∀ n ∈ rest, ¬ (seen.insert page).contains n = true := by
      intro n member
      rw [Freelist.contains_insert]
      rintro (rfl | old)
      · exact fresh (List.mem_append_left _ member)
      · exact unseen n (List.mem_cons_of_mem _ member) old
    obtain ⟨d3, t3, run3, shows3, steady3, keeps3, books3, count3⟩ := ih shows2 chain2 books2 unseenRest
    refine ⟨d3, t3, ?_, shows3, steady1.trans (steady2.trans steady3), ?_, books3,
      count3.trans count2⟩
    · have nextIs : next (d.image page) = rest.headD 0 := by
        rw [next_eq (by omega), link]
      have inside : ¬ ((decide (page < 2) || decide (page > s.pageCount)) = true) := by
        have low := has.1
        have high := has.2
        simp only [Bool.or_eq_true, decide_eq_true_eq, shows_.count]
        omega
      have ends : ¬ (rest.length = 0 ∧ rest.headD 0 ≠ 0) := by
        rintro ⟨none_, some_⟩
        rw [List.length_eq_zero_iff] at none_
        subst none_
        exact some_ rfl
      have first_ : (page :: rest).headD 0 = page := rfl
      rw [List.length_cons, first_]
      conv_lhs => unfold freeFrom
      rw [Action.get_bind, if_neg inside]
      dsimp only
      rw [if_neg (unseen page List.mem_cons_self), Action.bind_of_ok run1, nextIs, if_neg ends,
        Action.bind_of_ok run2]
      exact run3
    · exact (keeps2.within fun n own => List.mem_append_right _ own).trans keeps3

theorem freeOf_run {info : CellInfo} (shows_ : s.Shows d) (tells : Tells info d.limits tree item)
    (at_ : d.ItemAt tree item) (books : d.Books (item.chain ++ owned)) (one : 1 ∈ owned) :
    ∃ e t, freeOf info s = .ok () t ∧ t.Shows e ∧ s.Steady t ∧
      Keeps d e (Freelist.Others owned) (Freelist.Others owned) ∧ e.Books owned ∧
      e.count = d.count := by
  have length := ItemAt.chain_length at_ shows_.disk_sound
  have unseen : ∀ n ∈ item.chain, ¬ ({} : PageSet).contains n = true := by simp
  unfold freeOf
  rw [tells.head]
  cases chain : item.chain with
  | nil =>
    rw [chain] at books
    exact ⟨d, s, rfl, shows_, .refl s, .refl d, books, rfl⟩
  | cons first rest =>
    obtain ⟨e, t, run, effect⟩ := freeFrom_run item.chain first item.chain.length
      shows_ at_ books one unseen
    refine ⟨e, t, ?_, effect⟩
    rw [chain] at run length
    change (get >>= fun s => free first (s.limits.chainLength info.payloadSize info.kept)) s = _
    rw [Action.get_bind, shows_.limits, tells.size, tells.kept, ← length]
    exact run

theorem spill_ok {limits : PayloadLimits} {left : Option PageNo} {row : RowId} {payload : Bytes}
    {cell whole : EncodedCell} {owner : PageNo} (shows_ : s.Shows d) (books : d.Books owned)
    (isLimits : limits = d.limits) (entry : kind ≠ .tableInterior)
    (small : ∀ page, left = some page → page < 4294967296) (smallOwner : owner < 4294967296)
    (encoded : Cell.encode kind limits left row payload = .ok cell)
    (run : spill cell payload owner s = .ok whole t) :
    ∃ item e, item.row = row ∧ item.payload = payload ∧ item.divider = false ∧ t.Shows e ∧ s.Steady t ∧
      Keeps d e (Freelist.Others owned) (Freelist.Others owned) ∧ e.Books (item.chain ++ owned) ∧
      Cell.Holds e.limits kind whole.bytes
        ⟨if kind.isLeaf then none else left, item.stub e.limits kind.tree⟩ ∧
      e.ItemAt kind.tree item ∧ e.Mapped (chainClaims ⟨.overflowHead, owner⟩ item.chain) ∧
      payload.size < 4294967296 ∧ d.count ≤ e.count := by
  have sound := shows_.disk_sound
  subst isLimits
  obtain ⟨short, made⟩ := Cell.encode_holds sound.fair entry small encoded
  unfold spill at run
  by_cases spills : d.limits.kept kind payload.size < payload.size
  · rw [if_pos spills] at made
    obtain ⟨isSpilled, kept, holds⟩ := made
    rw [isSpilled, if_pos rfl, kept] at run
    obtain ⟨first, t1, run1, run⟩ := Action.bind_ok.mp run
    obtain ⟨linked, rfl⟩ := Action.lift_ok.mp run
    obtain ⟨pages, e, showsT, steady, keeps, books1, chain, mapped, grows⟩ :=
      write_ok shows_ books smallOwner run1
    obtain ⟨hasFirst, -⟩ := books1.has (n := first) List.mem_cons_self
    have nonzero : first ≠ 0 := Nat.pos_iff_ne_zero.mp hasFirst.1
    refine ⟨⟨row, payload, first :: pages, false⟩, e, rfl, rfl, rfl, showsT, steady, keeps, books1, ?_, ?_,
      mapped, short, grows⟩
    · have new := holds first whole nonzero (showsT.disk_sound.has_lt hasFirst) linked
      rw [Cell.newStub_tree] at new
      rw [keeps.alike.limits]
      exact new
    · unfold Disk.ItemAt Item.tail Item.kept
      dsimp only
      rw [keeps.alike.limits, ← PayloadLimits.kept_tree]
      exact chain
  · rw [if_neg spills] at made
    obtain ⟨isWhole, holds⟩ := made
    rw [isWhole, if_neg (by decide)] at run
    cases run
    rw [Cell.newStub_tree] at holds
    refine ⟨⟨row, payload, [], false⟩, d, rfl, rfl, rfl, shows_, .refl _, .refl d, books, holds, ?_, mapped_nil,
      short, Nat.le_refl _⟩
    unfold Disk.ItemAt
    change (Item.tail ⟨row, payload, [], false⟩ d.limits kind.tree).size ≤ 0
    rw [Item.size_tail]
    rw [PayloadLimits.kept_tree] at spills
    unfold Item.kept
    dsimp only
    omega

end Overflow

end TreeFile
