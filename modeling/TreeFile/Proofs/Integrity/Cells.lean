import TreeFile.Proofs.Integrity.Findings
import TreeFile.Proofs.Page.Audit
import TreeFile.Proofs.Tree.Order

/-!
Cells that have been checked. The overflow chain of a cell is as long as its payload needs, and the keys of
the cells of a page rise and stay inside the bounds that were set for them.
-/

namespace TreeFile

namespace Overflow

def Linked (d : Disk) : List Nat → Prop
  | [] => True
  | page :: rest => (d.image page).at32 0 = rest.headD 0 ∧ Linked d rest

def carried (d : Disk) : List Nat → (wanted : Nat) → Bytes
  | [], _ => .empty
  | page :: rest, wanted =>
    (d.image page).extract 4 (4 + min (overflowCapacity d.usableSize) wanted) ++
      carried d rest (wanted - overflowCapacity d.usableSize)

variable {d : Disk} {pages : List Nat} {wanted : Nat}

theorem size_carried (sound : d.Sound) (length : pages.length = needed (overflowCapacity d.usableSize) wanted) :
    (carried d pages wanted).size = wanted := by
  have positive := capacity_pos sound
  have usable := sound.usable_bounds
  have capacity : overflowCapacity d.usableSize = d.usableSize - 4 := rfl
  induction pages generalizing wanted with
  | nil =>
    by_cases some : 0 < wanted
    · rw [needed_step positive some] at length
      cases length
    · exact (Nat.eq_zero_of_not_pos some).symm
  | cons page rest ih =>
    have some : 0 < wanted := by
      refine Nat.pos_of_ne_zero fun zero => ?_
      rw [zero, needed_zero positive] at length
      cases length
    rw [needed_step positive some, List.length_cons] at length
    have size := sound.sizes page
    unfold carried
    rw [ByteArray.size_append, ih (Nat.succ.inj length), Bytes.size_extract_of_le (by omega)]
    omega

theorem chain_carried (sound : d.Sound) (linked : Linked d pages)
    (length : pages.length = needed (overflowCapacity d.usableSize) wanted) (before : Bytes) :
    Chain d (before ++ carried d pages wanted) pages before.size := by
  have positive := capacity_pos sound
  have usable := sound.usable_bounds
  have isCapacity : overflowCapacity d.usableSize = d.usableSize - 4 := rfl
  induction pages generalizing wanted before with
  | nil =>
    have whole : (before ++ carried d [] wanted).size ≤ before.size := by
      rw [ByteArray.size_append]
      exact Nat.le_refl _
    exact whole
  | cons page rest ih =>
    obtain ⟨link, later⟩ := linked
    have some : 0 < wanted := by
      refine Nat.pos_of_ne_zero fun zero => ?_
      rw [zero, needed_zero positive] at length
      cases length
    have total := size_carried sound length
    rw [needed_step positive some, List.length_cons] at length
    have length := Nat.succ.inj length
    have size := sound.sizes page
    obtain ⟨more, isMore⟩ : ∃ more, more = carried d rest (wanted - overflowCapacity d.usableSize) := ⟨_, rfl⟩
    obtain ⟨part, isPart⟩ : ∃ part, part =
        (d.image page).extract 4 (4 + min (overflowCapacity d.usableSize) wanted) := ⟨_, rfl⟩
    have unfolds : carried d (page :: rest) wanted = part ++ more := by
      rw [isPart, isMore]
      rfl
    have sizePart : part.size = min (overflowCapacity d.usableSize) wanted := by
      rw [isPart, Bytes.size_extract_of_le (by omega)]
      omega
    rw [unfolds] at total ⊢
    have sizeTail : (before ++ (part ++ more)).size = before.size + wanted := by
      rw [ByteArray.size_append, total]
    refine ⟨by omega, link, ?_, ?_⟩
    · rw [sizeTail, Nat.add_sub_cancel_left, ← isPart]
      apply Bytes.ext_get
      · rw [ByteArray.size_extract, sizeTail]
        omega
      · intro i inside
        rw [Bytes.get_extract, if_pos (by omega), Bytes.get_append, if_neg (by omega), Bytes.get_append,
          if_pos (by omega), Nat.add_sub_cancel_left]
    · by_cases full : overflowCapacity d.usableSize ≤ wanted
      · have sizeBefore : (before ++ part).size = before.size + overflowCapacity d.usableSize := by
          rw [ByteArray.size_append, sizePart, Nat.min_eq_left full]
        have chain := ih later length (before ++ part)
        rw [sizeBefore, ByteArray.append_assoc, ← isMore] at chain
        exact chain
      · have none : rest = [] := by
          rw [Nat.sub_eq_zero_of_le (Nat.le_of_not_le full), needed_zero positive] at length
          exact List.length_eq_zero_iff.mp length
        subst none
        have whole : (before ++ (part ++ more)).size ≤ before.size + overflowCapacity d.usableSize := by omega
        exact whole

end Overflow

def Stub.item (d : Disk) (stub : Stub) (pages : List Nat) (divider : Bool) : Item where
  row := stub.row
  payload := stub.kept ++ Overflow.carried d pages (stub.size - stub.kept.size)
  chain := pages
  divider := divider

theorem Stub.item_stands {d : Disk} (sound : d.Sound) {kind : PageKind} {c : Bytes} {slot : Slot}
    (holds : Cell.Holds d.limits kind c slot) {pages : List Nat} (divider : Bool)
    (linked : Overflow.Linked d pages)
    (length : pages.length = d.limits.chainLength slot.stub.size slot.stub.kept.size)
    (head : pages.head? = slot.stub.head) :
    slot.stub = (slot.stub.item d pages divider).stub d.limits kind.tree ∧
      d.ItemAt kind.tree (slot.stub.item d pages divider) := by
  obtain ⟨kept, -⟩ := holds.stub_fits
  have short := sound.fair.kept_le kind slot.stub.size
  rw [Overflow.chainLength_eq, sound.limits_usable] at length
  obtain ⟨rest, isRest⟩ : ∃ rest, rest =
      Overflow.carried d pages (slot.stub.size - slot.stub.kept.size) := ⟨_, rfl⟩
  have sizeRest : rest.size = slot.stub.size - slot.stub.kept.size := by
    rw [isRest]
    exact Overflow.size_carried sound length
  have payload : (slot.stub.item d pages divider).payload = slot.stub.kept ++ rest := by
    rw [isRest]
    rfl
  have size : (slot.stub.kept ++ rest).size = slot.stub.size := by
    rw [ByteArray.size_append]
    omega
  have sameKept : d.limits.kept (.leaf kind.tree) slot.stub.size = slot.stub.kept.size := by
    rw [← PayloadLimits.kept_tree, kept]
  constructor
  · exact (holds.stub_of sound.fair rfl payload sizeRest head).symm
  · unfold Disk.ItemAt Item.tail Item.kept
    rw [payload, size, sameKept, ByteArray.extract_append_eq_right rfl (by omega), isRest]
    have chain := Overflow.chain_carried sound linked length .empty
    rw [ByteArray.empty_append] at chain
    exact chain

namespace Integrity

open Overflow

structure ChainSeen (d : Disk) (seen : List PageNo) (left : Nat) (page : PageNo) (expected : PointerEntry)
    (pages : List PageNo) (t : Check) : Prop where
  length : pages.length = left
  head : left ≠ 0 → pages.head? = some page
  linked : Linked d pages
  tracks : Tracks d (pages ++ seen) t
  claims : 1 ∉ pages → d.Mapped (chainClaims expected pages)

theorem checkChain_passes (first : PageNo) (total left : Nat) (page : PageNo) (expected : PointerEntry)
    (c : Check) : Passes (checkChain first total left page expected) c fun whole t =>
      whole = true ∧ ∀ d seen, Tracks d seen c → ∃ pages, ChainSeen d seen left page expected pages t := by
  induction left generalizing page expected c with
  | zero =>
    refine .pure fun _ => ⟨rfl, fun d seen tracks => ⟨[], rfl, fun some => absurd rfl some, trivial, tracks, ?_⟩⟩
    exact fun _ => Disk.mapped_nil
  | succ left ih =>
    unfold checkChain
    refine .full (.get ?_)
    by_cases map : c.store.isMapPage page = true
    · rw [if_pos map]
      exact .report_bind _ fun t => .pure fun _ => trivial
    rw [if_neg map]
    refine (mark_passes page _).bind fun fresh c1 => ?_
    by_cases isFresh : fresh = true
    swap
    · rw [if_pos (by simpa using isFresh)]
      exact .pure fun _ marked => absurd marked.1 isFresh
    rw [if_neg (by simpa using isFresh)]
    refine (checkEntry_passes page expected).bind fun _ c2 => ?_
    refine .attempt (fun e s _ => .report_bind _ fun t => .pure fun _ => trivial) fun data s read => ?_
    dsimp only
    split
    · exact .report_bind _ fun t => .pure fun _ => trivial
    rename_i notLong
    split
    · exact .report_bind _ fun t => .pure fun _ => trivial
    rename_i notShort
    refine (ih (next data) ⟨.overflowNext, page⟩ _).imp ?_
    rintro whole t - ⟨isWhole, rest⟩ entry ⟨-, marked⟩
    refine ⟨isWhole, fun d seen tracks => ?_⟩
    obtain ⟨tracks2, claim⟩ := entry d (page :: seen) (marked d seen tracks) List.mem_cons_self
    obtain ⟨-, rfl, showsS, -⟩ := Store.readPage_ok tracks2.shows read
    obtain ⟨pages, found⟩ := rest d (page :: seen) (tracks2.withStore showsS)
    have size := showsS.disk_sound.sizes page
    have large := showsS.disk_sound.pageSize_bounds
    have link : (d.image page).at32 0 = pages.headD 0 := by
      rw [← next_eq (by omega)]
      by_cases last : left = 0
      · have none : pages = [] := List.length_eq_zero_iff.mp (found.length.trans last)
        have stops : next (d.image page) = 0 := by
          by_contra goes
          exact notLong (by simp [last, goes])
        rw [none, stops]
        rfl
      · rw [List.headD_eq_head?_getD, found.head last]
        rfl
    refine ⟨page :: pages, congrArg Nat.succ found.length, fun _ => rfl, ⟨link, found.linked⟩,
      found.tracks.perm List.perm_middle, fun away => ?_⟩
    rw [List.mem_cons, not_or] at away
    exact Disk.mapped_cons.mpr ⟨claim (Ne.symm away.1), found.claims away.2⟩

structure ItemSeen (d : Disk) (kind : PageKind) (number : PageNo) (item : Item) : Prop where
  chain : d.ItemAt kind.tree item
  divides : item.divider = true ↔ kind = .tableInterior
  plain : item.divider = true → item.payload = .empty ∧ item.chain = []
  claims : 1 ∉ item.chain → d.Mapped (chainClaims ⟨.overflowHead, number⟩ item.chain)

structure PageSeen (d : Disk) (number : PageNo) (page : Page) (slots : List Slot) : Prop where
  of_ : page.Of d number page.kind
  clear : page.parked = []
  bears : page.Bears slots page.header.rightChild

variable {c : Check} {page : Page} {i : Nat} {info : CellInfo}

def chainPages (d : Disk) (info : CellInfo) : Nat :=
  if info.overflowPage.isSome then d.limits.chainLength info.payloadSize info.kept else 0

def ChainAt (d : Disk) (seen : List PageNo) (number : PageNo) (info : CellInfo) (t : Check) : Prop :=
  ∃ pages, ChainSeen d seen (chainPages d info) (info.overflowPage.getD 0) ⟨.overflowHead, number⟩ pages t

section Item

variable {d : Disk} {seen : List PageNo} {number : PageNo} {slots : List Slot}
  (chainAt : ChainAt d seen page.number info c) (pageSeen : PageSeen d number page slots)
  (found : page.cellInfo i = .ok info)

include chainAt pageSeen found

theorem ChainAt.item : ∃ (h : i < slots.length) (item : Item), item.row = info.key ∧
    slots[i].stub = item.stub d.limits page.kind.tree ∧ ItemSeen d page.kind number item ∧
      Tracks d (item.chain ++ seen) c := by
  obtain ⟨pages, chain⟩ := chainAt
  rw [pageSeen.of_.number] at chain
  have sound := chain.tracks.shows.disk_sound
  have h := pageSeen.bears.info_inside pageSeen.clear found
  obtain ⟨info', found', -, key, size, first, -, kept⟩ := pageSeen.bears.info pageSeen.clear h
  cases found.symm.trans found'
  obtain ⟨cell, -, holds⟩ := pageSeen.bears.cell pageSeen.clear h
  rw [pageSeen.of_.limits] at holds
  obtain ⟨sizeKept, spills, -, dividing⟩ := holds.stub_fits
  have fair := sound.fair
  have short := fair.kept_le page.kind slots[i].stub.size
  have counted := chain.length
  unfold chainPages at counted
  rw [size, ← kept, first] at counted
  have length : pages.length = d.limits.chainLength slots[i].stub.size slots[i].stub.kept.size := by
    rw [counted]
    split
    · rfl
    · rename_i whole
      rw [spills, ← sizeKept] at whole
      exact ((PayloadLimits.chainLength_eq_zero fair).mpr (by omega)).symm
  have head : pages.head? = slots[i].stub.head := by
    by_cases chained : slots[i].stub.head.isSome = true
    · rw [spills, ← sizeKept] at chained
      have some : pages.length ≠ 0 := by
        rw [length, Ne, PayloadLimits.chainLength_eq_zero fair]
        omega
      rw [chain.length] at some
      rw [sizeKept, ← spills] at chained
      rw [chain.head some, first]
      obtain ⟨page, isPage⟩ := Option.isSome_iff_exists.mp chained
      rw [isPage]
      rfl
    · rw [if_neg chained] at counted
      rw [List.length_eq_zero_iff.mp counted]
      exact (Option.not_isSome_iff_eq_none.mp chained).symm
  obtain ⟨same, stands⟩ := Stub.item_stands sound holds (decide (page.kind = .tableInterior)) chain.linked length head
  refine ⟨h, _, key.symm, same, ⟨stands, decide_eq_true_iff, fun divides => ?_, chain.claims⟩, chain.tracks⟩
  have empty : slots[i].stub.size = 0 := dividing (of_decide_eq_true divides)
  have bare : slots[i].stub.kept = .empty := ByteArray.size_eq_zero_iff.mp (by omega)
  rw [empty, (PayloadLimits.chainLength_eq_zero fair).mpr (Nat.zero_le _)] at length
  obtain rfl := List.length_eq_zero_iff.mp length
  exact ⟨ByteArray.append_empty.trans bare, rfl⟩

theorem ChainAt.payload : ∃ (h : i < slots.length) (item : Item) (s : Store),
    Overflow.payload page i c.store = .ok item.payload s ∧ slots[i].stub = item.stub d.limits page.kind.tree ∧
      ItemSeen d page.kind number item ∧ Tracks d (item.chain ++ seen) { c with store := s } := by
  obtain ⟨h, item, -, same, itemSeen, tracks⟩ := chainAt.item pageSeen found
  obtain ⟨s, run, showsS, -⟩ := payload_run tracks.shows pageSeen.bears pageSeen.clear
    pageSeen.of_.limits h same itemSeen.chain
    (fun n member => (tracks.known n (List.mem_append_left _ member)).1)
    (List.nodup_append.mp tracks.once).1
  exact ⟨h, item, s, run, same, itemSeen, tracks.withStore showsS⟩

end Item

theorem cellKey_passes (found : page.cellInfo i = .ok info) : Passes (cellKey page i info) c fun key t =>
    ∀ d seen number slots, Tracks d seen c → PageSeen d number page slots →
      ∃ (h : i < slots.length) (item : Item), key = some (item.key page.kind.tree) ∧
        slots[i].stub = item.stub d.limits page.kind.tree ∧ ItemSeen d page.kind number item ∧
          Tracks d (item.chain ++ seen) t := by
  unfold cellKey
  extract_lets rest
  -- once the chain is as long as it should be, the payload can be read
  have after : ∀ whole c1, Passes (rest whole) c1 fun key t =>
      (whole = true ∧ ∀ d seen, Tracks d seen c → ChainAt d seen page.number info c1) →
      ∀ d seen number slots, Tracks d seen c → PageSeen d number page slots →
        ∃ (h : i < slots.length) (item : Item), key = some (item.key page.kind.tree) ∧
          slots[i].stub = item.stub d.limits page.kind.tree ∧ ItemSeen d page.kind number item ∧
            Tracks d (item.chain ++ seen) t := by
    intro whole c1
    cases tree : page.kind.tree with
    | table =>
      simp only [rest, tree]
      refine .pure fun _ ⟨_, chains⟩ d seen number slots tracks pageSeen => ?_
      obtain ⟨h, item, row, same, itemSeen, tracksT⟩ := (chains d seen tracks).item pageSeen found
      rw [tree] at same
      exact ⟨h, item, by rw [← row]; rfl, same, itemSeen, tracksT⟩
    | index =>
      simp only [rest, tree]
      cases whole with
      | false => exact .pure fun _ ⟨broken, _⟩ => nomatch broken
      | true =>
        rw [if_pos rfl]
        refine .attempt (fun e s failed => .pure fun _ ⟨_, chains⟩ d seen number slots tracks pageSeen => ?_)
          fun bytes s run => .pure fun _ ⟨_, chains⟩ d seen number slots tracks pageSeen => ?_
        · obtain ⟨_, _, _, read, -⟩ := (chains d seen tracks).payload pageSeen found
          cases failed.symm.trans read
        · obtain ⟨h, item, s', read, same, itemSeen, tracksT⟩ := (chains d seen tracks).payload pageSeen found
          rw [tree] at same
          cases run.symm.trans read
          exact ⟨h, item, rfl, same, itemSeen, tracksT⟩
  cases head : info.overflowPage with
  | none =>
    refine .bind (.pure fun _ => ⟨rfl, fun d seen tracks => ⟨[], ?_⟩⟩) after
    unfold chainPages
    rw [head]
    exact ⟨rfl, fun some => absurd rfl some, trivial, tracks, fun _ => Disk.mapped_nil⟩
  | some first =>
    refine .get (.bind ((checkChain_passes first _ _ first _ c).imp ?_) after)
    rintro whole t - ⟨isWhole, all⟩
    refine ⟨isWhole, fun d seen tracks => ?_⟩
    obtain ⟨pages, chain⟩ := all d seen tracks
    rw [tracks.shows.limits] at chain
    unfold ChainAt chainPages
    rw [head]
    exact ⟨pages, chain⟩

def Rising (before : Option Key) : List Key → Prop
  | [] => True
  | key :: rest => follows before key = true ∧ Rising (some key) rest

structure CellsSeen (d : Disk) (seen : List PageNo) (page : Page) (number : PageNo) (slots : List Slot)
    (range : KeyRange) (i : Nat) (before : Option Key) (items : List Item) (t : Check) : Prop where
  stubs : (slots.drop i).map Slot.stub = items.map fun item => item.stub d.limits page.kind.tree
  each : ∀ item ∈ items, ItemSeen d page.kind number item
  tracks : Tracks d (items.flatMap Item.chain ++ seen) t
  rising : Rising before (items.map (Item.key page.kind.tree))
  inside : ∀ item ∈ items, range.contains page.kind.tree (item.key page.kind.tree) = true

theorem CellsSeen.cons {d : Disk} {seen : List PageNo} {number : PageNo} {slots : List Slot} {range : KeyRange}
    {before : Option Key} {item : Item} {items : List Item} {t : Check} (h : i < slots.length)
    (stub : slots[i].stub = item.stub d.limits page.kind.tree) (itemSeen : ItemSeen d page.kind number item)
    (rises : follows before (item.key page.kind.tree) = true)
    (inside : range.contains page.kind.tree (item.key page.kind.tree) = true)
    (rest : CellsSeen d (item.chain ++ seen) page number slots range (i + 1) (some (item.key page.kind.tree))
      items t) :
    CellsSeen d seen page number slots range i before (item :: items) t := by
  refine ⟨?_, ?_, ?_, ⟨rises, rest.rising⟩, ?_⟩
  · rw [List.drop_eq_getElem_cons h, List.map_cons, List.map_cons, stub, rest.stubs]
  · exact List.forall_mem_cons.mpr ⟨itemSeen, rest.each⟩
  · rw [List.flatMap_cons]
    refine rest.tracks.perm ?_
    rw [← List.append_assoc]
    exact List.perm_append_comm.append_right seen
  · exact List.forall_mem_cons.mpr ⟨inside, rest.inside⟩

theorem checkCells_passes (page : Page) (range : KeyRange) (left i : Nat) (before : Option Key) (c : Check) :
    Passes (checkCells page range left i before) c fun found t => ∃ keys, found = some keys ∧
      ∀ d seen number slots, Tracks d seen c → PageSeen d number page slots → i + left = slots.length →
        ∃ items, keys = items.map (fun item => some (item.key page.kind.tree)) ∧
          CellsSeen d seen page number slots range i before items t := by
  induction left generalizing i before c with
  | zero =>
    refine .pure fun _ => ⟨[], rfl, fun d seen number slots tracks pageSeen length => ⟨[], rfl, ?_⟩⟩
    refine ⟨?_, fun _ member => (nomatch member), tracks, trivial, fun _ member => (nomatch member)⟩
    rw [List.drop_eq_nil_of_le (by omega)]
    rfl
  | succ left ih =>
    unfold checkCells
    extract_lets number
    refine .full ?_
    cases found : page.cellInfo i with
    | error e => exact .report_bind _ fun t => .pure fun _ => trivial
    | ok info =>
      refine (cellKey_passes found).bind fun key c1 => ?_
      extract_lets rest
      have after : ∀ c2, Passes (rest ()) c2 fun found t => ∃ keys, found = some (key :: keys) ∧
          ∀ d seen number slots, Tracks d seen c2 → PageSeen d number page slots →
            i + 1 + left = slots.length → ∃ items,
              keys = items.map (fun item => some (item.key page.kind.tree)) ∧
                CellsSeen d seen page number slots range (i + 1) (key.or before) items t := by
        refine fun c2 => (ih (i + 1) (key.or before) c2).bind fun found t => ?_
        cases found with
        | none => exact .pure fun _ ⟨_, broken, _⟩ => nomatch broken
        | some keys =>
          refine .pure fun _ ⟨_, same, all⟩ => ⟨keys, rfl, ?_⟩
          cases same
          exact all
      cases key with
      | none =>
        refine (after c1).imp ?_
        rintro found t - ⟨keys, rfl, -⟩ first
        refine ⟨_, rfl, fun d seen number slots tracks pageSeen length => ?_⟩
        obtain ⟨_, _, broken, -⟩ := first d seen number slots tracks pageSeen
        cases broken
      | some key =>
        dsimp only
        split
        · exact .report_bind _ fun t => (after t).imp fun _ _ _ _ => trivial
        rename_i rises
        split
        · exact .report_bind _ fun t => (after t).imp fun _ _ _ _ => trivial
        rename_i inside
        refine (after c1).imp ?_
        rintro found t - ⟨keys, rfl, others⟩ first
        refine ⟨_, rfl, fun d seen number slots tracks pageSeen length => ?_⟩
        obtain ⟨h, item, same, stub, itemSeen, tracks1⟩ := first d seen number slots tracks pageSeen
        obtain ⟨items, rfl, cells⟩ := others d _ number slots tracks1 pageSeen (by omega)
        cases same
        exact ⟨item :: items, rfl, .cons h stub itemSeen (by simpa using rises) (by simpa using inside) cells⟩

end Integrity

end TreeFile
