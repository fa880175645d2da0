import TreeFile.Proofs.Integrity.File
import TreeFile.Proofs.Store.CalmRuns

/-!
Reading a part of a payload. A payload that can be read as a whole can be read in parts, and each
part is what the whole has there; what reaches past the end is refused.
-/

namespace TreeFile

open Store

theorem Bytes.extract_stop {d : Bytes} {a b c : Nat} (same : min b d.size = min c d.size) :
    d.extract a b = d.extract a c := by
  apply Bytes.ext_get
  · rw [ByteArray.size_extract, ByteArray.size_extract, same]
  · intro i h
    rw [ByteArray.size_extract] at h
    rw [Bytes.get_extract, Bytes.get_extract, if_pos (by omega), if_pos (by omega)]

theorem Bytes.slice_within {d c : Bytes} {x n a b : Nat} (sliced : d.slice x (x + n) = .ok c) (order : a ≤ b)
    (inside : b ≤ n) : d.slice (x + a) (x + b) = .ok (c.extract a b) := by
  obtain ⟨⟨-, whole⟩, rfl⟩ := Bytes.slice_ok.mp sliced
  refine Bytes.slice_ok.mpr ⟨⟨by omega, by omega⟩, ?_⟩
  rw [ByteArray.extract_extract, Nat.min_eq_left (by omega)]

theorem Cell.decode_payload {w : Window} {start : Nat} {kind : PageKind} {p : PayloadLimits} {info : CellInfo}
    (fair : p.Fair) (run : Cell.decode w start kind p = .ok info) :
    info.kept ≤ info.payloadSize ∧ (info.overflowPage = none → info.kept = info.payloadSize) := by
  have of_payload {c : CellInfo} (run : decodePayload w start kind p c = .ok info) :
      info.kept ≤ info.payloadSize ∧ (info.overflowPage = none → info.kept = info.payloadSize) := by
    obtain ⟨head, link, -, rfl⟩ := decodePayload_ok.mp run
    have short := fair.kept_le kind c.payloadSize
    refine ⟨short, fun none_ => ?_⟩
    split at link
    · obtain ⟨page, some_, -⟩ := link
      exact absurd (some_.symm.trans none_) nofun
    · exact Nat.le_antisymm short (Nat.le_of_not_lt ‹_›)
  cases kind with
  | tableInterior =>
    obtain ⟨child, row, n, -, -, rfl⟩ := decode_tableInterior.mp run
    exact ⟨Nat.le_refl 0, fun _ => rfl⟩
  | tableLeaf =>
    obtain ⟨size, n, row, m, -, -, -, run⟩ := decode_tableLeaf.mp run
    exact of_payload run
  | indexLeaf =>
    obtain ⟨size, n, -, -, run⟩ := decode_indexLeaf.mp run
    exact of_payload run
  | indexInterior =>
    obtain ⟨child, size, n, -, -, -, run⟩ := decode_indexInterior.mp run
    exact of_payload run

theorem Page.cellInfo_payload {p : Page} {i : Nat} {info : CellInfo} (fair : p.limits.Fair)
    (found : p.cellInfo i = .ok info) :
    info.kept ≤ info.payloadSize ∧ (info.overflowPage = none → info.kept = info.payloadSize) := by
  unfold Page.cellInfo at found
  obtain ⟨start, -, decoded⟩ := Except.bind_ok.mp found
  exact Cell.decode_payload fair decoded

namespace Overflow

open Disk

variable {s t : Store} {d : Disk} {pages : List Nat} {tail v found : Bytes} {first page : PageNo} {left : Nat}
  {seen : PageSet}

/-- One page of a chain is read; `go` goes on with its content and the part that was taken from it. -/
def readStep (first : PageNo) (wanted : Nat) (page : PageNo) (seen : PageSet) (found : Bytes)
    (go : Bytes → Bytes → StoreM Bytes) : StoreM Bytes := do
  if found.size ≥ wanted then
    if page ≠ 0 then throw (.chainTooLong first)
    return found
  if page = 0 then throw (.chainTooShort first (wanted - found.size))
  if page > (← get).pageCount then throw (.chainPastEnd page)
  if seen.contains page then throw (.chainRevisits first page)
  let data ← readPage page
  let length := min (wanted - found.size) (← capacity)
  let part ← data.slice 4 (4 + length)
  go data part

theorem readFrom_zero (first : PageNo) (wanted : Nat) (page : PageNo) (seen : PageSet) (found : Bytes) :
    readFrom first wanted 0 page seen found =
      readStep first wanted page seen found fun _ _ => throw (.chainRevisits first page) := rfl

theorem readFrom_next (first : PageNo) (wanted left : Nat) (page : PageNo) (seen : PageSet) (found : Bytes) :
    readFrom first wanted (left + 1) page seen found = readStep first wanted page seen found fun data part =>
      readFrom first wanted left (next data) (seen.insert page) (found ++ part) := rfl

instance : Calms capacity := by
  unfold capacity
  exact .get (fun _ => rfl) inferInstance

instance (tail : Bytes) (pages : List PageNo) (owner : PointerEntry) (start : Nat) :
    Calms (writePages tail pages owner start) := by
  induction pages generalizing owner start with
  | nil => exact .pure ()
  | cons page rest ih =>
    unfold writePages
    infer_instance

instance (tail : Bytes) (owner : PageNo) : Calms (write tail owner) := by
  unfold write
  refine .andThen inferInstance fun room => .andThen inferInstance fun pages => ?_
  cases pages <;> infer_instance

instance (first : PageNo) (wanted : Nat) (page : PageNo) (seen : PageSet) (found : Bytes)
    (go : Bytes → Bytes → StoreM Bytes) [∀ data part, Calms (go data part)] :
    Calms (readStep first wanted page seen found go) := by
  unfold readStep
  dsimp only
  split
  · infer_instance
  split
  · infer_instance
  exact .get (fun _ => rfl) inferInstance

instance (first : PageNo) (wanted left : Nat) (page : PageNo) (seen : PageSet) (found : Bytes) :
    Calms (readFrom first wanted left page seen found) := by
  induction left generalizing page seen found with
  | zero =>
    rw [readFrom_zero]
    infer_instance
  | succ left ih =>
    rw [readFrom_next]
    infer_instance

instance (first : PageNo) (wanted : Nat) : Calms (read first wanted) := by
  unfold read
  exact .get (fun _ => rfl) inferInstance

instance (page : Page) (i : Nat) : Calms (payload page i) := by
  unfold payload
  refine .andThen inferInstance fun info => .andThen inferInstance fun kept => ?_
  cases info.overflowPage <;> infer_instance

instance (start stop left : Nat) (page : PageNo) (reached : Nat) (found : Bytes) :
    Calms (readRange start stop left page reached found) := by
  induction left generalizing page reached found with
  | zero =>
    unfold readRange
    dsimp only
    split
    · infer_instance
    exact .get (fun _ => rfl) inferInstance
  | succ left ih =>
    unfold readRange
    dsimp only
    split
    · infer_instance
    exact .get (fun _ => rfl) inferInstance

instance (page : Page) (i start length : Nat) : Calms (payloadRange page i start length) := by
  unfold payloadRange
  refine .andThen inferInstance fun info => ?_
  dsimp only
  split
  · infer_instance
  split
  · refine .andThen inferInstance fun kept => ?_
    split
    · infer_instance
    exact .get (fun _ => rfl) inferInstance
  · refine .andThen inferInstance fun kept => ?_
    split
    · infer_instance
    exact .get (fun _ => rfl) inferInstance

instance (first : PageNo) (total left : Nat) (page : PageNo) (seen : PageSet) :
    Calms (freeFrom first total left page seen) := by
  induction left generalizing page seen with
  | zero => exact .pure ()
  | succ left ih =>
    unfold freeFrom
    exact .get (fun _ => rfl) inferInstance

instance (first : PageNo) (count : Nat) : Calms (free first count) :=
  inferInstanceAs (Calms (freeFrom first count count first {}))

theorem readStep_cases {wanted : Nat} {go : Bytes → Bytes → StoreM Bytes}
    (run : readStep first wanted page seen found go s = .ok v t) :
    (wanted ≤ found.size ∧ page = 0 ∧ v = found ∧ t = s) ∨
      found.size < wanted ∧ page ≠ 0 ∧ ¬ seen.contains page = true ∧ ∃ data part u, readPage page s = .ok data u ∧
        data.slice 4 (4 + min (wanted - found.size) (overflowCapacity u.usableSize)) = .ok part ∧
        go data part u = .ok v t := by
  unfold readStep at run
  by_cases enough : found.size ≥ wanted
  · rw [if_pos enough] at run
    by_cases zero : page = 0
    · rw [if_neg (not_not.mpr zero)] at run
      obtain ⟨rfl, rfl⟩ := Action.pure_ok.mp run
      exact .inl ⟨enough, zero, rfl, rfl⟩
    · rw [if_pos zero] at run
      exact absurd run Action.throw_bind_ok
  · rw [if_neg enough] at run
    by_cases zero : page = 0
    · rw [if_pos zero] at run
      exact absurd run Action.throw_bind_ok
    rw [if_neg zero] at run
    dsimp only at run
    rw [Action.get_bind] at run
    split at run
    · exact absurd run Action.throw_bind_ok
    split at run
    · exact absurd run Action.throw_bind_ok
    rename_i unseen
    obtain ⟨data, u, read, run⟩ := Action.bind_ok.mp run
    obtain ⟨room, u', isRoom, run⟩ := Action.bind_ok.mp run
    cases isRoom
    obtain ⟨part, sliced, run⟩ := Action.lift_bind_ok.mp run
    exact .inr ⟨Nat.lt_of_not_le enough, zero, unseen, data, part, u, read, sliced, run⟩

theorem readFrom_ok {wanted : Nat} (shows_ : s.Shows d) (short : found.size ≤ wanted)
    (run : readFrom first wanted left page seen found s = .ok v t) :
    v.size = wanted ∧ v.extract 0 found.size = found ∧ t.Shows d ∧
      ∃ pages, pages.headD 0 = page ∧ Chain d v pages found.size ∧ pages.Nodup ∧
        ∀ n ∈ pages, d.Has n ∧ ¬ seen.contains n = true := by
  induction left generalizing page seen found s with
  | zero =>
    rw [readFrom_zero] at run
    rcases readStep_cases run with ⟨enough, rfl, rfl, rfl⟩ | ⟨-, -, -, data, part, u, -, -, run⟩
    · exact ⟨by omega, ByteArray.extract_zero_size, shows_, [], rfl, Nat.le_refl _, List.nodup_nil, nofun⟩
    · exact absurd run Action.throw_ok
  | succ left ih =>
    rw [readFrom_next] at run
    rcases readStep_cases run with ⟨enough, rfl, rfl, rfl⟩ | ⟨less, nonzero, unseen, data, part, u, read, sliced, run⟩
    · exact ⟨by omega, ByteArray.extract_zero_size, shows_, [], rfl, Nat.le_refl _, List.nodup_nil, nofun⟩
    obtain ⟨has, rfl, showsU, -⟩ := readPage_ok shows_ read
    have bounds := shows_.disk_sound.pageSize_bounds
    have size := shows_.disk_sound.sizes page
    rw [showsU.usableSize] at sliced
    obtain ⟨capacity, isCapacity⟩ : ∃ c, c = overflowCapacity d.usableSize := ⟨_, rfl⟩
    rw [← isCapacity] at sliced
    obtain ⟨⟨-, inside⟩, isPart⟩ := Bytes.slice_ok.mp sliced
    have sizePart : part.size = min (wanted - found.size) capacity := by
      rw [← isPart, Bytes.size_extract_of_le inside]
      omega
    obtain ⟨whole, begins, showsT, pages, head, chain, once, has'⟩ := ih showsU
      (by rw [ByteArray.size_append, sizePart]; omega) run
    rw [ByteArray.size_append] at begins chain
    have before : v.extract 0 found.size = found := by
      have cut := congrArg (ByteArray.extract · 0 found.size) begins
      simp only [ByteArray.extract_extract, ByteArray.extract_append_eq_left] at cut
      rwa [Nat.zero_add, Nat.zero_add, Nat.min_eq_left (Nat.le_add_right _ _)] at cut
    have here : v.extract found.size (found.size + part.size) = part := by
      have cut := congrArg (ByteArray.extract · found.size (found.size + part.size)) begins
      simp only [ByteArray.extract_extract, ByteArray.extract_append_eq_right] at cut
      rwa [Nat.zero_add, Nat.zero_add, Nat.min_self] at cut
    have unseen' : page ∉ pages := fun member => (has' page member).2 (by simp)
    refine ⟨whole, before, showsT, page :: pages, rfl, ⟨by omega, ?_, ?_, ?_⟩,
      List.nodup_cons.mpr ⟨unseen', once⟩, ?_⟩
    · rw [head, next_eq (by omega)]
    · rw [← isCapacity, whole, Nat.min_comm, isPart, ← here]
      exact Bytes.extract_stop (by omega)
    · rw [← isCapacity]
      by_cases full : part.size = capacity
      · rw [← full]
        exact chain
      · -- the last page is not full, and no page follows
        cases pages with
        | nil =>
          change v.size ≤ _
          omega
        | cons next rest => exact absurd chain.1 (by omega)
    · intro n member
      rcases List.mem_cons.mp member with rfl | later
      · exact ⟨has, unseen⟩
      · exact ⟨(has' n later).1, fun old => (has' n later).2 ((Freelist.contains_insert _ _ _).mpr (.inr old))⟩

theorem Chain.part {start a b : Nat} {rest : List Nat} (chain : Chain d tail (page :: rest) start)
    (low : b ≤ overflowCapacity d.usableSize) (inside : start + b ≤ tail.size) :
    (d.image page).extract (4 + a) (4 + b) = tail.extract (start + a) (start + b) := by
  obtain ⟨-, -, content, -⟩ := chain
  have cut := congrArg (ByteArray.extract · a b) content
  simp only [ByteArray.extract_extract] at cut
  rwa [Nat.min_eq_left (by omega), Nat.min_eq_left (by omega)] at cut

theorem readRange_done {start stop reached kept : Nat} (page : PageNo) (left : Nat) (found tail : Bytes)
    (order : start ≤ stop) (done : reached ≥ stop) (s : Store) :
    readRange start stop left page reached found s =
      .ok (found ++ tail.extract (max start reached - kept) (stop - kept)) s := by
  have nothing : tail.extract (max start reached - kept) (stop - kept) = .empty := by
    rw [ByteArray.extract_eq_empty_iff]
    omega
  rw [nothing, ByteArray.append_empty]
  cases left <;> exact congrFun (if_pos done) s

theorem readRange_succ (start : Nat) {page stop reached : Nat} (left : Nat) {found : Bytes} (more : reached < stop)
    (low : 2 ≤ page) (inside : page ≤ s.pageCount) :
    readRange start stop (left + 1) page reached found s = (do
      let data ← readPage page
      let pageStop := reached + (← capacity)
      let part ← (if pageStop > start then
          liftM (data.slice (4 + (max start reached - reached)) (4 + (min stop pageStop - reached)))
        else pure .empty : StoreM Bytes)
      readRange start stop left (next data) pageStop (found ++ part) : StoreM Bytes) s := by
  have exists_ : ¬ (decide (page < 2) || decide (page > s.pageCount)) = true := by
    simp only [Bool.or_eq_true, decide_eq_true_eq]
    omega
  conv_lhs => unfold readRange
  rw [if_neg (Nat.not_le.mpr more), Action.get_bind, if_neg exists_]
  refine congrFun (congrArg (readPage page >>= ·) (funext fun data => congrArg (capacity >>= ·)
    (funext fun room => ?_))) s
  dsimp only
  split <;> rfl

/-- The part of the range that a page of the chain has, and the rest of the range behind it. -/
theorem readPart_run {start stop reached kept at_ next capacity : Nat} {rest : List Nat} (sound : d.Sound)
    (chain : Chain d tail (page :: rest) at_) (isCapacity : capacity = overflowCapacity d.usableSize)
    (isReached : reached = kept + at_) (isNext : next = reached + capacity) (more : reached < stop)
    (order : start ≤ stop) (inside : stop ≤ kept + tail.size) (s : Store) :
    ∃ part, (if next > start then
          liftM ((d.image page).slice (4 + (max start reached - reached)) (4 + (min stop next - reached)))
        else pure .empty : StoreM Bytes) s = .ok part s ∧
      part ++ tail.extract (max start next - kept) (stop - kept) =
        tail.extract (max start reached - kept) (stop - kept) := by
  have size := sound.sizes page
  have bounds := sound.pageSize_bounds
  have usable := sound.usable_bounds
  have most : capacity + 4 = d.usableSize := by
    rw [isCapacity]
    unfold overflowCapacity
    omega
  by_cases wanted : next > start
  · refine ⟨tail.extract (max start reached - kept) (min stop next - kept), ?_, ?_⟩
    · rw [if_pos wanted]
      refine Action.lift_ok.mpr ⟨Bytes.slice_ok.mpr ⟨⟨by omega, by omega⟩, ?_⟩, rfl⟩
      rw [chain.part (by omega) (by omega)]
      congr 1 <;> omega
    · rw [Nat.max_eq_right (Nat.le_of_lt wanted)]
      by_cases last : stop ≤ next
      · have nothing : tail.extract (next - kept) (stop - kept) = .empty := by
          rw [ByteArray.extract_eq_empty_iff]
          omega
        rw [nothing, ByteArray.append_empty, Nat.min_eq_left last]
      · rw [Nat.min_eq_right (Nat.le_of_not_le last)]
        exact (ByteArray.extract_eq_extract_append_extract _ (by omega) (by omega)).symm
  · refine ⟨.empty, ?_, ?_⟩
    · rw [if_neg wanted]
      rfl
    · rw [ByteArray.empty_append, Nat.max_eq_left (by omega), Nat.max_eq_left (by omega)]

/-- A read in part along a chain that goes on from `reached`, of which `kept` bytes are in the cell. -/
theorem readRange_run {start stop reached kept at_ : Nat} (shows_ : s.Shows d) (chain : Chain d tail pages at_)
    (low : ∀ n ∈ pages, 2 ≤ n ∧ d.Has n) (enough : pages.length ≤ left) (isReached : reached = kept + at_)
    (order : start ≤ stop) (inside : stop ≤ kept + tail.size) :
    ∃ t, readRange start stop left (pages.headD 0) reached found s =
      .ok (found ++ tail.extract (max start reached - kept) (stop - kept)) t ∧ t.Shows d := by
  induction pages generalizing s at_ reached left found with
  | nil =>
    have done : tail.size ≤ at_ := chain
    exact ⟨s, readRange_done _ left found tail order (by omega) s, shows_⟩
  | cons page rest ih =>
    by_cases done : reached ≥ stop
    · exact ⟨s, readRange_done _ left found tail order done s, shows_⟩
    cases left with
    | zero => exact absurd enough (Nat.not_succ_le_zero _)
    | succ left =>
    obtain ⟨lowPage, hasPage⟩ := low page List.mem_cons_self
    obtain ⟨t1, run1, shows1, -⟩ := readPage_run shows_ hasPage
    have size := shows_.disk_sound.sizes page
    have bounds := shows_.disk_sound.pageSize_bounds
    obtain ⟨capacity, isCapacity⟩ : ∃ c, c = overflowCapacity d.usableSize := ⟨_, rfl⟩
    obtain ⟨-, link, -, later⟩ := id chain
    rw [← isCapacity] at later
    obtain ⟨part, isPart, taken⟩ :=
      readPart_run shows_.disk_sound chain isCapacity isReached rfl (Nat.lt_of_not_le done) order inside t1
    obtain ⟨t, run, showsT⟩ : ∃ t, readRange start stop left (rest.headD 0) (reached + capacity) (found ++ part) t1 =
        .ok (found ++ part ++ tail.extract (max start (reached + capacity) - kept) (stop - kept)) t ∧ t.Shows d :=
      ih shows1 later (fun n member => low n (List.mem_cons_of_mem _ member)) (Nat.le_of_succ_le_succ enough)
        (show reached + capacity = kept + (at_ + capacity) by omega)
    refine ⟨t, ?_, showsT⟩
    have nextIs : next (d.image page) = rest.headD 0 := by
      rw [next_eq (by omega), link]
    have first_ : (page :: rest).headD 0 = page := rfl
    rw [first_, readRange_succ start left (by omega) lowPage (shows_.count ▸ hasPage.2),
      Action.bind_of_ok run1, Action.bind_of_ok (capacity_run shows1), ← isCapacity,
      Action.bind_of_ok isPart, nextIs, run, ByteArray.append_assoc, taken]

theorem Chain.low {start : Nat} (chain : Chain d tail pages start) (has : ∀ n ∈ pages, d.Has n)
    (opening : d.count < d.word 0) : ∀ n ∈ pages, 2 ≤ n := by
  induction pages generalizing start with
  | nil => exact nofun
  | cons page rest ih =>
    obtain ⟨-, link, -, later⟩ := chain
    have rest_ := ih later fun n member => has n (List.mem_cons_of_mem _ member)
    intro n member
    rcases List.mem_cons.mp member with rfl | inside
    · have positive := (has n List.mem_cons_self).1
      have other : n ≠ 1 := by
        rintro rfl
        unfold Disk.word at opening
        rw [link] at opening
        cases rest with
        | nil => exact absurd opening (Nat.not_lt_zero _)
        | cons next more =>
          have inside := (has next (List.mem_cons_of_mem _ List.mem_cons_self)).2
          exact absurd opening (Nat.not_lt.mpr inside)
      omega
    · exact rest_ n inside

structure Parts (d : Disk) (p : Page) (info : CellInfo) (v : Bytes) (pages : List Nat) : Prop where
  size : v.size = info.payloadSize
  kept : info.kept ≤ v.size
  cell : p.data.slice info.payloadStart (info.payloadStart + info.kept) = .ok (v.extract 0 info.kept)
  head : pages.headD 0 = info.overflowPage.getD 0
  chain : Chain d (v.extract info.kept v.size) pages 0
  once : pages.Nodup
  has : ∀ n ∈ pages, d.Has n

theorem payload_parts {p : Page} {i : Nat} (shows_ : s.Shows d) (fair : p.limits.Fair)
    (run : payload p i s = .ok v t) :
    t.Shows d ∧ ∃ info pages, p.cellInfo i = .ok info ∧ Parts d p info v pages := by
  unfold payload at run
  obtain ⟨info, found, run⟩ := Action.lift_bind_ok.mp run
  obtain ⟨cell, sliced, run⟩ := Action.lift_bind_ok.mp run
  obtain ⟨short, whole⟩ := Page.cellInfo_payload fair found
  have sizeCell : cell.size = info.kept := by
    obtain ⟨⟨-, inside⟩, rfl⟩ := Bytes.slice_ok.mp sliced
    rw [Bytes.size_extract_of_le inside]
    omega
  have front {tail : Bytes} : (cell ++ tail).extract 0 info.kept = cell :=
    ByteArray.extract_append_eq_left sizeCell.symm
  have back {tail : Bytes} : (cell ++ tail).extract info.kept (cell ++ tail).size = tail :=
    ByteArray.extract_append_eq_right sizeCell.symm ByteArray.size_append
  cases head : info.overflowPage with
  | none =>
    rw [head] at run
    obtain ⟨rfl, rfl⟩ := Action.pure_ok.mp run
    have size := whole head
    refine ⟨shows_, info, [], found, ⟨sizeCell.trans size, Nat.le_of_eq sizeCell.symm, ?_, ?_, ?_,
      List.nodup_nil, nofun⟩⟩
    · rw [← sizeCell, ByteArray.extract_zero_size, sizeCell, sliced]
    · rw [head]
      rfl
    · change (cell.extract info.kept cell.size).size ≤ 0
      rw [ByteArray.size_extract]
      omega
  | some first =>
    rw [head] at run
    obtain ⟨tail, u, read_, run⟩ := Action.bind_ok.mp run
    obtain ⟨rfl, rfl⟩ := Action.pure_ok.mp run
    unfold read at read_
    rw [Action.get_bind] at read_
    obtain ⟨size, -, showsT, pages, isHead, chain, once, has⟩ :=
      readFrom_ok shows_ (show (.empty : Bytes).size ≤ _ from Nat.zero_le _) read_
    refine ⟨showsT, info, pages, found, ⟨?_, ?_, ?_, ?_, ?_, once, fun n member => (has n member).1⟩⟩
    · rw [ByteArray.size_append, sizeCell, size]
      omega
    · rw [ByteArray.size_append, sizeCell]
      exact Nat.le_add_right _ _
    · rw [front, sliced]
    · rw [isHead, head]
      rfl
    · rw [back]
      exact chain

theorem payloadRange_run {p : Page} {i start length : Nat} {info : CellInfo} (shows_ : s.Shows d)
    (found : p.cellInfo i = .ok info) (parts : Parts d p info v pages) (low : ∀ n ∈ pages, 2 ≤ n)
    (inside : start + length ≤ v.size) :
    ∃ t, payloadRange p i start length s = .ok (v.extract start (start + length)) t := by
  obtain ⟨size, short, cell, head, chain, once, has⟩ := parts
  obtain ⟨stop, isStop⟩ : ∃ stop, stop = start + length := ⟨_, rfl⟩
  have order : start ≤ stop := isStop ▸ Nat.le_add_right _ _
  rw [← isStop] at inside ⊢
  have accepted : ¬ stop > info.payloadSize := by
    rw [← size]
    exact Nat.not_lt.mpr inside
  have part : ∃ front, (if start < info.kept then
        p.data.slice (info.payloadStart + start) (info.payloadStart + min stop info.kept)
      else .ok .empty) = .ok front ∧ front = v.extract start (min stop info.kept) := by
    by_cases begins : start < info.kept
    · refine ⟨_, (if_pos begins).trans (Bytes.slice_within cell (by omega) (Nat.min_le_right _ _)), ?_⟩
      rw [ByteArray.extract_extract, Nat.zero_add, Nat.zero_add, Nat.min_eq_left (Nat.min_le_right _ _)]
    · refine ⟨.empty, if_neg begins, (ByteArray.extract_eq_empty_iff.mpr ?_).symm⟩
      omega
  obtain ⟨front, sliced, isFront⟩ := part
  have start_ : payloadRange p i start length s = (if stop ≤ info.kept then pure front
      else readRange start stop s.pageCount (info.overflowPage.getD 0) info.kept front : StoreM Bytes) s := by
    unfold payloadRange
    rw [found, Action.lift_ok_bind, ← isStop]
    dsimp only
    rw [if_neg accepted]
    by_cases begins : start < info.kept
    · rw [if_pos begins] at sliced ⊢
      rw [sliced, Action.lift_ok_bind]
      split <;> rfl
    · rw [if_neg begins] at sliced ⊢
      cases sliced
      rw [Action.pure_bind_run]
      split <;> rfl
  rw [start_]
  by_cases inCell : stop ≤ info.kept
  · rw [if_pos inCell, isFront, Nat.min_eq_left inCell]
    exact ⟨s, rfl⟩
  · rw [if_neg inCell, ← head]
    have tail : (v.extract info.kept v.size).size = v.size - info.kept := by
      rw [ByteArray.size_extract, Nat.min_self]
    have enough : pages.length ≤ s.pageCount := by
      rw [shows_.count]
      exact Freelist.length_le_count once has
    obtain ⟨t, run, -⟩ : ∃ t, readRange start stop s.pageCount (pages.headD 0) info.kept front s =
        .ok (front ++ (v.extract info.kept v.size).extract (max start info.kept - info.kept) (stop - info.kept)) t ∧
          t.Shows d :=
      readRange_run shows_ chain (fun n member => ⟨low n member, has n member⟩) enough (Nat.add_zero info.kept).symm
        order (by omega)
    refine ⟨t, run.trans ?_⟩
    rw [isFront, Nat.min_eq_right (by omega), ByteArray.extract_extract, Nat.min_eq_left (by omega)]
    congr 1
    by_cases begins : start < info.kept
    · rw [Nat.max_eq_right (Nat.le_of_lt begins), Nat.sub_self, Nat.add_zero,
        show info.kept + (stop - info.kept) = stop by omega]
      exact (ByteArray.extract_eq_extract_append_extract _ (by omega) (by omega)).symm
    · rw [ByteArray.extract_eq_empty_iff.mpr (show min info.kept v.size ≤ start by omega), ByteArray.empty_append]
      congr 1 <;> omega

theorem word_magic (opening : (d.image 1).extract 0 16 = FileHeader.magic) : d.word 0 = 0x53514C69 := by
  have same : Bytes.at32 ((d.image 1).extract 0 16) 0 = (d.image 1).at32 0 := by
    unfold Bytes.at32
    simp only [Bytes.get_extract]
    rfl
  unfold Disk.word
  rw [← same, opening]
  decide +kernel

/-- A payload that can be read is read in parts: any part that lies inside is what the whole has there,
and no other part is read. The file may refuse calls; then a part may not be read, but never otherwise. -/
theorem payloadRange_agrees {p : Page} {i : Nat} (shows_ : s.calm.Shows d)
    (opening : (d.image 1).extract 0 16 = FileHeader.magic) (small : d.count < 0x53514C69)
    (limits : p.limits = d.limits) (run : payload p i s = .ok v t) :
    t.calm.Shows d ∧ ∀ u : Store, u.calm.Shows d → ∀ start length,
      (start + length ≤ v.size →
        (∀ w r, payloadRange p i start length u = .ok w r → w = v.extract start (start + length)) ∧
        (u.pager.file.refusal = none →
          ∃ r, payloadRange p i start length u = .ok (v.extract start (start + length)) r)) ∧
      (v.size < start + length →
        payloadRange p i start length u = .error (.payloadRange start length v.size) u) := by
  obtain ⟨showsT, info, pages, found, parts⟩ :=
    payload_parts shows_ (limits ▸ shows_.disk_sound.fair) (Calms.run run)
  have low := parts.chain.low parts.has (word_magic opening ▸ small)
  refine ⟨showsT, fun u showsU start length => ⟨fun inside => ?_, fun past => ?_⟩⟩
  · obtain ⟨r, calm⟩ := payloadRange_run showsU found parts low inside
    refine ⟨fun w r' run => ?_, fun none_ => ⟨r, ?_⟩⟩
    · rw [Calms.run run] at calm
      cases calm
      rfl
    · rw [calm_self none_] at calm
      exact calm
  · have beyond : start + length > info.payloadSize := parts.size ▸ past
    unfold payloadRange
    rw [found, Action.lift_ok_bind]
    dsimp only
    rw [if_pos beyond, parts.size]
    rfl

open Integrity (stocked stocked_shows)

theorem stocked_payload : ∃ (p : Page) (v : Bytes) (t : Store), p.limits = stocked.disk.limits ∧
    payload p 0 stocked = .ok v t ∧ v.size = 103 := by
  have shown : (do
      let p ← Page.parse 2 (stocked.disk.image 2) (stocked.disk.geometry 2) stocked.disk.limits
      let v ← payload p 0
      return v.size : StoreM Nat).run' stocked = some 103 := by decide +kernel
  obtain ⟨t, run⟩ := Action.run_some shown
  obtain ⟨p, parsed, run⟩ := Action.lift_bind_ok.mp run
  obtain ⟨v, u, read, run⟩ := Action.bind_ok.mp run
  obtain ⟨size, rfl⟩ := Action.pure_ok.mp run
  obtain ⟨-, -, -, limits, -⟩ := Page.parse_ok parsed
  exact ⟨p, v, u, limits, read, size⟩

theorem payloadRange_agrees_stocked : ∃ (p : Page) (v : Bytes) (t : Store), stocked.calm.Shows stocked.disk ∧
    (stocked.disk.image 1).extract 0 16 = FileHeader.magic ∧ stocked.disk.count < 0x53514C69 ∧
    p.limits = stocked.disk.limits ∧ payload p 0 stocked = .ok v t ∧ v.size = 103 ∧
    t.calm.Shows stocked.disk ∧ ∀ u : Store, u.calm.Shows stocked.disk → ∀ start length,
      (start + length ≤ v.size →
        (∀ w r, payloadRange p 0 start length u = .ok w r → w = v.extract start (start + length)) ∧
        (u.pager.file.refusal = none →
          ∃ r, payloadRange p 0 start length u = .ok (v.extract start (start + length)) r)) ∧
      (v.size < start + length →
        payloadRange p 0 start length u = .error (.payloadRange start length v.size) u) := by
  have opening : (stocked.disk.image 1).extract 0 16 = FileHeader.magic := by decide +kernel
  obtain ⟨p, v, t, limits, run, size⟩ := stocked_payload
  have calm : stocked.calm.Shows stocked.disk := by
    rw [calm_self (show stocked.pager.file.refusal = none from rfl)]
    exact stocked_shows
  exact ⟨p, v, t, calm, opening, by decide, limits, run, size,
    payloadRange_agrees calm opening (by decide) limits run⟩

end Overflow

end TreeFile
