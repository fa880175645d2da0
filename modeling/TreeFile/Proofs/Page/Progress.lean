import TreeFile.Proofs.Page.Rebuild

/-!
What cannot fail on a page that is sound. If there is room for a cell then it finds a place, a cell that
is there can be dropped, and the fragments that freed space absorbs are always there to be absorbed.
-/

namespace TreeFile

open Action (Ends Runs)

theorem room_le_of_apart (low high : Nat) (runs : List Run) (order : low ≤ high)
    (inside : ∀ run ∈ runs, low ≤ run.1 ∧ run.1 + run.2 ≤ high)
    (apart : runs.Pairwise Run.Apart) : low + room runs ≤ high := by
  match runs with
  | [] => exact order
  | run :: rest =>
    obtain ⟨own, others⟩ := List.pairwise_cons.mp apart
    have bounds := inside run List.mem_cons_self
    have insideRest := fun other member => inside other (List.mem_cons_of_mem run member)
    have split := room_perm (List.filter_append_perm (fun other => other.1 + other.2 ≤ run.1) rest)
    rw [room_append] at split
    have left := room_le_of_apart low run.1
      (rest.filter fun other => other.1 + other.2 ≤ run.1) bounds.1
      (fun other member => by
        obtain ⟨isRest, before⟩ := List.mem_filter.mp member
        exact ⟨(insideRest other isRest).1, of_decide_eq_true before⟩) (others.sublist List.filter_sublist)
    have right := room_le_of_apart (run.1 + run.2) high
      (rest.filter fun other => !decide (other.1 + other.2 ≤ run.1)) bounds.2
      (fun other member => by
        obtain ⟨isRest, notBefore⟩ := List.mem_filter.mp member
        have away := own other isRest
        unfold Run.Apart at away
        simp only [Bool.not_eq_true', decide_eq_false_iff_not] at notBefore
        exact ⟨by omega, (insideRest other isRest).2⟩) (others.sublist List.filter_sublist)
    rw [room_cons]
    omega
termination_by runs.length
decreasing_by
  all_goals
    rw [List.length_cons]
    exact Nat.lt_succ_of_le (List.length_filter_le ..)

theorem room_le_of_mem {run : Run} {runs : List Run} (member : run ∈ runs) : run.2 ≤ room runs := by
  obtain ⟨pre, post, rfl⟩ := List.append_of_mem member
  rw [room_append, room_cons]
  omega

theorem Bytes.putOr_ends {e : Error} {start n : Nat} {src d : Bytes} (size : d.size = n)
    (fits : start + src.size ≤ n) :
    Ends (Bytes.putOr e start src) d (fun _ d' => d'.size = n) fun _ => False := by
  rw [← size] at fits
  exact .of_ok (Bytes.putOr_ok.mpr ⟨fits, rfl⟩) ((Bytes.size_overwrite fits).trans size)

theorem PageHeader.write_ends (h : PageHeader) {start n : Nat} {d : Bytes} (size : d.size = n)
    (room : start + 12 ≤ n) :
    Ends (h.write start) d (fun _ d' => d'.size = n) fun _ => False := by
  have low : ∀ i k, i + k ≤ 12 → start + i + k ≤ n := fun i k inside =>
    Nat.le_trans (by omega) room
  refine (Bytes.putOr_ends size (low 0 1 (by decide))).bind fun _ _ _ size => ?_
  refine (Bytes.putOr_ends size (low 1 2 (by decide))).bind fun _ _ _ size => ?_
  refine (Bytes.putOr_ends size (low 3 2 (by decide))).bind fun _ _ _ size => ?_
  refine (Bytes.putOr_ends size (low 5 2 (by decide))).bind fun _ _ _ size => ?_
  refine (Bytes.putOr_ends size (low 7 1 (by decide))).bind fun _ _ _ size => ?_
  cases h.rightChild with
  | some child => exact Bytes.putOr_ends size (low 8 4 (by decide))
  | none => exact .of_ok rfl size

namespace Page

variable {p q : Page} {taken blocks : List Run} {cells : List (Nat × Bytes)}

structure HasLength (n : Nat) (p : Page) : Prop where
  size : p.data.size = n
  header : p.headerStart + 12 ≤ n

theorem hasLength_of_sound (sound : p.geometry.Sound) (size : p.data.size = p.geometry.pageSize) :
    HasLength p.data.size p := by
  have start : p.headerStart ≤ 100 := sound.header
  have small := sound.small
  have usable := sound.usable
  exact ⟨rfl, by omega⟩

theorem Area.long (area : Area p taken blocks) : HasLength p.data.size p :=
  hasLength_of_sound area.sound area.size

section HasLength

variable {n : Nat} (long : HasLength n p)

include long

theorem HasLength.remake (header : PageHeader) (free : Nat) :
    HasLength n { p with header := header, freeBytes := free } := ⟨long.size, long.header⟩

theorem HasLength.bytes {d : Bytes} (size : d.size = n) : HasLength n { p with data := d } :=
  ⟨size, long.header⟩

theorem HasLength.edit {act : Action Bytes Unit}
    (run : ∃ d, act p.data = .ok () d ∧ d.size = p.data.size) :
    ∃ d : Bytes, edit act p = .ok () { p with data := d } ∧ d.size = n := by
  obtain ⟨d, run, size⟩ := run
  exact ⟨d, edit_ok.mpr ⟨d, run, rfl⟩, size.trans long.size⟩

theorem HasLength.put (i : Nat) (cell : Bytes) (inside : i + cell.size ≤ n) :
    ∃ d : Bytes, Page.edit (Bytes.put i cell) p = .ok () { p with data := d } ∧ d.size = n := by
  rw [← long.size] at inside
  exact long.edit ⟨_, Bytes.put_ok.mpr ⟨inside, rfl⟩, Bytes.size_overwrite inside⟩

theorem HasLength.putU16 {i : Nat} (value : Nat) (inside : i + 2 ≤ n) :
    ∃ d : Bytes, Page.edit (Bytes.putU16 i value) p = .ok () { p with data := d } ∧ d.size = n := by
  rw [← long.size] at inside
  exact long.edit ⟨_, Bytes.putU16_ok.mpr ⟨inside, rfl⟩,
    Bytes.size_overwrite (c := Bytes.ofNat16 value) inside⟩

theorem HasLength.clear {start stop : Nat} (order : start ≤ stop) (inside : stop ≤ n) :
    ∃ d : Bytes, Page.edit (Bytes.clear start stop) p = .ok () { p with data := d } ∧ d.size = n := by
  rw [← long.size] at inside
  refine long.edit ⟨_, Bytes.clear_ok.mpr ⟨⟨order, inside⟩, rfl⟩, Bytes.size_overwrite ?_⟩
  rw [Bytes.size_zeros]
  omega

theorem HasLength.move {start stop target : Nat} (order : start ≤ stop) (inside : stop ≤ n)
    (room : target + (stop - start) ≤ n) :
    ∃ d : Bytes, Page.edit (Bytes.move start stop target) p = .ok () { p with data := d } ∧
      d.size = n := by
  rw [← long.size] at inside room
  refine long.edit ⟨_, Bytes.move_ok.mpr ⟨⟨order, inside, room⟩, rfl⟩, Bytes.size_overwrite ?_⟩
  rw [Bytes.size_extract_of_le inside]
  exact room

theorem HasLength.writeHeader :
    ∃ d : Bytes, writeHeader p = .ok () { p with data := d } ∧ d.size = n :=
  by
  obtain ⟨_, d, run, size⟩ := (p.header.write_ends long.size long.header).returns
  exact long.edit ⟨d, run, size.trans long.size.symm⟩

theorem HasLength.writeHeader_runs : Runs Page.writeHeader p := by
  obtain ⟨d, run, -⟩ := long.writeHeader
  exact ⟨(), _, run⟩

theorem HasLength.setLink {link : Option Nat} (next : Nat)
    (inside : ∀ start, link = some start → start + 2 ≤ n) :
    ∃ d header, setLink link next p = .ok () { p with data := d, header := header } ∧ d.size = n := by
  cases link with
  | none =>
    obtain ⟨d, run, size⟩ := (long.remake { p.header with firstFree := next } p.freeBytes).writeHeader
    exact ⟨d, _, run, size⟩
  | some start =>
    obtain ⟨d, run, size⟩ := long.putU16 next (inside start rfl)
    exact ⟨d, _, run, size⟩

end HasLength

theorem carve_runs {size : Nat} (area : Area p taken blocks)
    (fits : p.pointersEnd + size ≤ p.header.contentStart) : Runs (carve size) p := by
  have free := area.free
  unfold carve setHeader
  refine .get ?_
  rw [if_pos (by omega)]
  refine .modify ?_
  obtain ⟨d, run, -⟩ := (area.long.remake { p.header with
    contentStart := p.header.contentStart - size } p.freeBytes).writeHeader
  have enough : size ≤ p.freeBytes := by omega
  exact .after run (.after (loseFree_ok.mpr ⟨enough, rfl⟩) (.get (.pure _)))

theorem Area.lastStart_inside {pre post : List Run} (area : Area p taken (pre ++ post)) {start : Nat}
    (last : lastStart none pre = some start) : start + 2 ≤ p.data.size := by
  rcases List.eq_nil_or_concat pre with rfl | ⟨front, block, rfl⟩
  · cases last
  · rw [List.concat_eq_append, lastStart_append] at last
    cases last
    have inside := area.inside block (List.mem_append_right _ (List.mem_append_left _
      (List.concat_eq_append ▸ List.mem_append_right _ List.mem_cons_self)))
    have usable := area.usable_le
    unfold minCellSize at inside
    omega

theorem takeBlock_runs {size : Nat} (area : Area p taken blocks) : Runs (takeBlock size) p := by
  unfold takeBlock setHeader
  refine .get (.lift area.freeBlocks ?_)
  cases best : bestFit size none blocks none with
  | none => exact .pure none
  | some block =>
    obtain ⟨link, start, found⟩ := block
    rcases bestFit_found blocks none none best with none | ⟨pre, post, rfl, fits, rfl⟩
    · cases none
    have isBlock : (start, found) ∈ pre ++ (start, found) :: post :=
      List.mem_append_right _ List.mem_cons_self
    have inside := area.inside _ (List.mem_append_right _ isBlock)
    have some := room_le_of_mem isBlock
    have usable := area.usable_le
    have free := area.free
    have long := area.long
    unfold minCellSize at inside
    dsimp only at inside some ⊢
    have enough : size ≤ p.freeBytes := by omega
    split
    · obtain ⟨d, run, -⟩ := long.putU16 (i := start + 2) (found - size) (by omega)
      exact .after run (.after (loseFree_ok.mpr ⟨enough, rfl⟩) (.pure _))
    · split
      · obtain ⟨d, header, run, size⟩ := long.setLink ((p.data.u16? start).getD 0) fun _ =>
          area.lastStart_inside
        refine .after run (.modify ?_)
        obtain ⟨e, run, -⟩ := ((long.remake header p.freeBytes).bytes size |>.remake
          { header with fragments := header.fragments + (found - _) } p.freeBytes).writeHeader
        exact .after run (.after (loseFree_ok.mpr ⟨enough, rfl⟩) (.pure _))
      · exact .pure none

theorem Packing.pointer {cells moved : List (Nat × Bytes)} {blocks : List Run} {top : Nat}
    {d : Bytes} (tidy : Tidy p cells [] blocks) (packing : Packing p cells moved top d)
    (h : moved.length < cells.length) :
    ({ p with data := d } : Page).pointer moved.length = .ok cells[moved.length].1 := by
  have inside := tidy.run_inside (List.getElem_mem h)
  have fits := tidy.slot_fits h
  have gap := tidy.area.gap
  have count := tidy.rows.count
  have size := packing.size
  have stored : ({ p with data := d } : Page).storedPointer moved.length =
      .ok cells[moved.length].1 := by
    have place : ({ p with data := d } : Page).pointersStart = p.pointersStart := rfl
    unfold Page.storedPointer
    rw [place, Bytes.u16?_of_le (by dsimp only; omega)]
    exact congrArg Except.ok (packing.later _ h (Nat.le_refl _))
  have many : ({ p with data := d } : Page).cellCount = cells.length := count
  have ends : ({ p with data := d } : Page).pointersEnd = p.pointersEnd := rfl
  have usable : ({ p with data := d } : Page).usable = p.usable := rfl
  unfold Page.pointer
  rw [many, if_neg (by omega), stored, Except.ok_bind, ends, usable, if_neg]
  · rfl
  · simp only [Bool.or_eq_true, decide_eq_true_eq]
    unfold minCellSize
    omega

theorem packCells_runs {cells : List (Nat × Bytes)} {blocks : List Run}
    (tidy : Tidy p cells [] blocks) (left : Nat) {moved : List (Nat × Bytes)} {top : Nat} {d : Bytes}
    (packing : Packing p cells moved top d) (all : moved.length + left = cells.length) :
    Runs (packCells p.window left moved.length top) { p with data := d } := by
  induction left generalizing moved top d with
  | zero => exact .pure top
  | succ left ih =>
    have short : moved.length < cells.length := by omega
    have next : cells[moved.length]? = some cells[moved.length] := List.getElem?_eq_getElem short
    obtain ⟨info, reads⟩ := tidy.rows.valid _ (List.getElem_mem short)
    have decoded := reads.decode_lies (tidy.lies (List.getElem_mem short))
    have inside := tidy.run_inside (List.getElem_mem short)
    have low := packing.room_left tidy next
    have usable := tidy.area.usable_le
    have bytes : p.window.bytes = p.data := rfl
    have gap := tidy.area.gap
    have slot := tidy.slot_fits short
    have size := packing.size
    have account := packing.account
    unfold packCells
    refine .get (.lift (packing.pointer tidy short) (.lift decoded ?_))
    dsimp only
    rw [reads.2, if_neg (by
      have same : ({ p with data := d } : Page).usable = p.usable := rfl
      simp only [Bool.or_eq_true, decide_eq_true_eq]
      omega)]
    refine .lift (Bytes.slice_ok.mpr ⟨⟨Nat.le_add_right _ _, by rw [bytes]; omega⟩, rfl⟩) ?_
    rw [bytes, (tidy.rows.lies _ (List.getElem_mem short)).extract]
    have fits : top - cells[moved.length].2.size + cells[moved.length].2.size ≤ d.size := by omega
    have put := Bytes.put_ok.mpr ⟨fits, rfl⟩
    refine .after (edit_ok.mpr ⟨_, put, rfl⟩) ?_
    have sizeE := Bytes.size_overwrite fits
    have here : p.pointersStart + moved.length * pointerSize + 2 ≤
        (d.overwrite (top - cells[moved.length].2.size) cells[moved.length].2).size := by omega
    have point : Bytes.putU16 _ (top - cells[moved.length].2.size) _ = .ok () _ :=
      Bytes.putU16_ok.mpr ⟨here, rfl⟩
    have packed := packing.step tidy next put point
    unfold setPointer
    refine .after (.trans (Action.get_bind ..) (edit_ok.mpr ⟨_, point, rfl⟩)) ?_
    have more := ih packed (by rw [List.length_append, List.length_singleton]; omega)
    rw [List.length_append, List.length_singleton] at more
    exact more

theorem defragment_runs {cells : List (Nat × Bytes)} {blocks : List Run}
    (tidy : Tidy p cells [] blocks) : Runs defragment p := by
  have count := tidy.rows.count
  have all : ([] : List (Nat × Bytes)).length + p.cellCount = cells.length := by
    rw [List.length_nil, count, Nat.zero_add]
  unfold defragment setHeader
  refine .get (.bind (packCells_runs tidy p.cellCount (packing_start tidy) all) fun top mid packed => ?_)
  obtain ⟨moved, d, packing, length, rfl⟩ := packCells_ok tidy p.cellCount (packing_start tidy) all packed
  have gap := tidy.area.gap
  have whole := tidy.area.account
  have account := packing.account
  have done := packing.done
  have usable := tidy.area.usable_le
  have size := packing.size
  rw [length, List.take_length] at done
  rw [room_runOf, done, ← room_runOf] at account
  rw [List.append_nil] at whole
  rw [if_neg (by omega)]
  have long : HasLength p.data.size { p with data := d } := tidy.area.long.bytes size
  have order : p.pointersEnd ≤ top := by omega
  obtain ⟨e, run, sizeE⟩ := long.clear order (by omega)
  exact .after run (.modify (.modify ((long.bytes sizeE).remake _ _).writeHeader_runs))

theorem defragment_fragments (run : defragment p = .ok () q) : q.header.fragments = 0 := by
  unfold defragment setHeader at run
  rw [Action.get_bind] at run
  obtain ⟨top, mid, -, run⟩ := Action.bind_ok.mp run
  split at run
  · exact absurd run Action.throw_bind_ok
  obtain ⟨_, mid', -, run⟩ := Action.bind_ok.mp run
  rw [Action.modify_bind, Action.modify_bind] at run
  obtain ⟨d, -, rfl⟩ := writeHeader_ok.mp run
  rfl

theorem defragment_gap {cells : List (Nat × Bytes)} {blocks : List Run}
    (tidy : Tidy p cells [] blocks) (run : defragment p = .ok () q) :
    q.header.contentStart = q.pointersEnd + p.freeBytes := by
  obtain ⟨moved, tidyQ, same, fields, -⟩ := defragment_ok tidy run
  have fragments := defragment_fragments run
  have gap := tidyQ.area.gap
  have account := tidyQ.area.account
  have account' := tidy.area.account
  have free := tidy.area.free
  have gap' := tidy.area.gap
  rw [List.append_nil, room_nil, fragments, fields.usable, room_runOf, same] at account
  rw [List.append_nil, room_runOf] at account'
  rw [fields.pointersEnd] at gap ⊢
  omega

theorem defragmentAndCarve_runs {cells : List (Nat × Bytes)} {blocks : List Run} {size : Nat}
    (tidy : Tidy p cells [] blocks) (enough : size + pointerSize ≤ p.freeBytes) :
    Runs (defragmentAndCarve size) p := by
  unfold defragmentAndCarve
  refine .bind (defragment_runs tidy) fun _ mid compact => .get ?_
  obtain ⟨moved, tidyMid, -⟩ := defragment_ok tidy compact
  have gap := defragment_gap tidy compact
  rw [if_neg (by omega)]
  exact carve_runs tidyMid.area (by omega)

theorem allocate_runs {cells : List (Nat × Bytes)} {blocks : List Run} {size : Nat}
    (tidy : Tidy p cells [] blocks) (wide : 4 ≤ size) (enough : size + pointerSize ≤ p.freeBytes) :
    Runs (allocate size) p := by
  have exact_ : max size minCellSize = size := Nat.max_eq_left wide
  unfold allocate
  rw [exact_]
  refine .get ?_
  split
  · refine .bind (takeBlock_runs tidy.area) fun found mid taken => ?_
    cases found with
    | some start => exact .pure start
    | none =>
      cases takeBlock_none tidy.area taken
      dsimp only
      split
      · exact carve_runs tidy.area (by omega)
      · exact defragmentAndCarve_runs tidy enough
  · exact defragmentAndCarve_runs tidy enough

theorem Area.stretch {start size low high : Nat} (area : Area p ((start, size) :: taken) blocks)
    (lower : p.header.contentStart ≤ low ∧ low ≤ start)
    (upper : start + size ≤ high ∧ high ≤ p.usable)
    (clear : ∀ run ∈ taken ++ blocks, high ≤ run.1 ∨ run.1 + run.2 ≤ low) :
    (start - low) + (high - (start + size)) ≤ p.header.fragments := by
  have account := area.account
  have others := (List.pairwise_cons.mp area.apart).2
  have insideAll : ∀ run ∈ (low, high - low) :: (taken ++ blocks),
      p.header.contentStart ≤ run.1 ∧ run.1 + run.2 ≤ p.usable := by
    intro run member
    rcases List.mem_cons.mp member with rfl | member
    · dsimp only
      omega
    · have inside := area.inside run (List.mem_cons_of_mem _ member)
      exact ⟨inside.1, inside.2.1⟩
  have total := room_le_of_apart _ _ ((low, high - low) :: (taken ++ blocks)) area.content insideAll
    (List.pairwise_cons.mpr ⟨fun run member => by
      have away := clear run member
      unfold Run.Apart
      dsimp only
      omega, others⟩)
  simp only [room_cons, room_append] at account total
  omega

section Neighbours

variable {start size next : Nat} {before : Option Run}
  (area : Area p ((start, size) :: taken) blocks)
  (around : neighbours start blocks none = (before, next))

include area

theorem Area.away {run : Run} (member : run ∈ taken ++ blocks) :
    (start + size ≤ run.1 ∨ run.1 + run.2 ≤ start) ∧ 4 ≤ run.2 :=
  ⟨(List.pairwise_cons.mp area.apart).1 run member,
    (area.inside run (List.mem_cons_of_mem _ member)).2.2⟩

include around

theorem Area.blockBehind :
    next = 0 ∨ ∃ length, (next, length) ∈ taken ++ blocks ∧ start + size ≤ next := by
  obtain ⟨pre, post, rfl, -, -, following⟩ := neighbours_split start blocks none
  rw [around] at following
  rcases following with ⟨-, none⟩ | ⟨block, rest, rfl, found, behind⟩
  · exact .inl none
  · have member : block ∈ taken ++ (pre ++ block :: rest) :=
      List.mem_append_right _ (List.mem_append_right _ List.mem_cons_self)
    have far := area.away member
    dsimp only at found
    rw [found]
    exact .inr ⟨block.2, member, by omega⟩

theorem Area.blockBefore : before = none ∨
    ∃ block, before = some block ∧ block ∈ taken ++ blocks ∧ block.1 + block.2 ≤ start := by
  obtain ⟨pre, post, rfl, low, near, -⟩ := neighbours_split start blocks none
  rw [around] at near
  rcases near with ⟨-, none⟩ | ⟨front, block, rfl, found⟩
  · exact .inl none
  · have isLast : block ∈ front ++ [block] := List.mem_append_right _ List.mem_cons_self
    have member : block ∈ taken ++ ((front ++ [block]) ++ post) :=
      List.mem_append_right _ (List.mem_append_left _ isLast)
    have far := area.away member
    have less := low block isLast
    exact .inr ⟨block, found, member, by omega⟩

theorem Area.reachRight : ∃ high, start + size ≤ high ∧ high ≤ p.usable ∧
    (∀ run ∈ taken ++ blocks, high ≤ run.1 ∨ run.1 + run.2 ≤ start) ∧
    (if next ≠ 0 ∧ next - (start + size) ≤ 3 then next - (start + size) else 0) =
      high - (start + size) := by
  have own := area.inside (start, size) List.mem_cons_self
  by_cases joins : next ≠ 0 ∧ next - (start + size) ≤ 3
  · rw [if_pos joins]
    rcases area.blockBehind around with none | ⟨length, member, past⟩
    · exact absurd none joins.1
    · have place := area.inside _ (List.mem_cons_of_mem _ member)
      dsimp only at place
      refine ⟨next, past, by omega, fun run isRun => ?_, rfl⟩
      by_cases same : run = (next, length)
      · exact .inl (same ▸ Nat.le_refl _)
      · have apart := apart_of_ne (List.pairwise_cons.mp area.apart).2 isRun member same
        have far := area.away isRun
        unfold Run.Apart at apart
        dsimp only at apart
        omega
  · rw [if_neg joins]
    exact ⟨start + size, Nat.le_refl _, own.2.1, fun run isRun => (area.away isRun).1,
      (Nat.sub_self _).symm⟩

theorem Area.reachLeft : ∃ low, p.header.contentStart ≤ low ∧ low ≤ start ∧
    (∀ run ∈ taken ++ blocks, start + size ≤ run.1 ∨ run.1 + run.2 ≤ low) ∧
    ((joinable start before).map Prod.snd).getD 0 = start - low := by
  have own := area.inside (start, size) List.mem_cons_self
  have alone : joinable start before = none → ∃ low, p.header.contentStart ≤ low ∧ low ≤ start ∧
      (∀ run ∈ taken ++ blocks, start + size ≤ run.1 ∨ run.1 + run.2 ≤ low) ∧
      ((joinable start before).map Prod.snd).getD 0 = start - low := fun none => by
    rw [none]
    exact ⟨start, own.1, Nat.le_refl _, fun run isRun => (area.away isRun).1,
      (Nat.sub_self _).symm⟩
  rcases area.blockBefore around with rfl | ⟨block, rfl, member, ends⟩
  · exact alone rfl
  · by_cases close : start - (block.1 + block.2) ≤ 3
    · have join : joinable start (some block) = some (block.1, start - (block.1 + block.2)) :=
        if_pos close
      have place := area.inside _ (List.mem_cons_of_mem _ member)
      rw [join]
      refine ⟨block.1 + block.2, by omega, ends, fun run isRun => ?_, rfl⟩
      by_cases same : run = block
      · exact .inr (same ▸ Nat.le_refl _)
      · have apart := apart_of_ne (List.pairwise_cons.mp area.apart).2 isRun member same
        have far := area.away isRun
        unfold Run.Apart at apart
        omega
    · exact alone (if_neg close)

theorem Area.absorbable : ((joinable start before).map Prod.snd).getD 0 +
    (if next ≠ 0 ∧ next - (start + size) ≤ 3 then next - (start + size) else 0) ≤
      p.header.fragments := by
  obtain ⟨high, above, inPage, clearRight, toRight⟩ := area.reachRight around
  obtain ⟨low, inContent, below, clearLeft, toLeft⟩ := area.reachLeft around
  rw [toRight, toLeft]
  refine area.stretch ⟨inContent, below⟩ ⟨above, inPage⟩ fun run member => ?_
  have right := clearRight run member
  have left := clearLeft run member
  have wide := (area.away member).2
  omega

end Neighbours

theorem HasLength.enlist_runs {n size newStart newStop after fragments : Nat} (link : Option Nat)
    {alone : Bool} (long : HasLength n p) (inside : newStart + 4 ≤ n) (linked : ∀ block, link = some block → block + 2 ≤ n) :
    Runs (enlist size newStart newStop after fragments link alone) p := by
  unfold Page.enlist setHeader gainFree
  refine .get (.modify (.modify ?_))
  split
  · exact .modify (long.remake _ _).writeHeader_runs
  · have long := long.remake { p.header with fragments := fragments } (p.freeBytes + size)
    obtain ⟨d, run, size⟩ := long.putU16 (i := newStart) after (by omega)
    refine .after run ?_
    have long := long.bytes size
    obtain ⟨e, run, size⟩ := long.putU16 (i := newStart + 2) (newStop - newStart) (by omega)
    refine .after run ?_
    have long := long.bytes size
    cases alone with
    | true =>
      obtain ⟨f, header, run, size⟩ := long.setLink newStart linked
      exact .after run ((long.remake header _).bytes size).writeHeader_runs
    | false => exact long.writeHeader_runs

theorem absorb_eq {page : PageNo} {fragments gap : Nat} (enough : gap ≤ fragments) :
    absorb page fragments gap = .ok (fragments - gap) := if_neg (by omega)

theorem freeBlock_runs {start size : Nat} (area : Area p ((start, size) :: taken) blocks) :
    Runs (freeBlock start size) p := by
  cases around : Page.neighbours start blocks none with
  | mk before next =>
    have gaps := area.absorbable around
    have right := area.blockBehind around
    have left := area.blockBefore around
    have own := area.inside (start, size) List.mem_cons_self
    have usable := area.usable_le
    unfold minCellSize at own
    dsimp only at own
    have behind : ∀ block, before = some block → block.1 + block.2 ≤ start := by
      rintro block rfl
      rcases left with none | ⟨_, found, -, ends⟩
      · cases none
      · cases found
        exact ends
    unfold freeBlock
    refine .get (.lift area.freeBlocks ?_)
    rw [around]
    dsimp -zeta only
    extract_lets joins newStop after joined newStart write finish toLeft toRight checked
    have last : ∀ fragments, Runs (finish fragments) p := by
      intro fragments
      refine area.long.enlist_runs (before.map Prod.fst) ?_ ?_
      · have low : (((joinable start before).map Prod.fst).getD start) ≤ start := by
          rcases left with rfl | ⟨block, rfl, -, ends⟩
          · exact Nat.le_refl _
          · unfold joinable
            dsimp only
            split
            · exact Nat.le_trans (Nat.le_add_right _ _) ends
            · exact Nat.le_refl _
        change newStart ≤ start at low
        omega
      · intro block same
        obtain ⟨found, isBefore, rfl⟩ := Option.map_eq_some_iff.mp same
        have ends := behind found isBefore
        omega
    have toTheLeft : ∀ fragments, ((joinable start before).map Prod.snd).getD 0 ≤ fragments →
        Runs (toLeft fragments) p := by
      intro fragments enough
      have same : joinable start before = joined := rfl
      dsimp only [toLeft]
      rw [same] at enough
      clear_value finish joined
      split
      · exact .lift (absorb_eq enough) (last _)
      · exact last fragments
    have toTheRight : Runs (toRight ()) p := by
      dsimp only [toRight]
      split
      · rename_i close
        rw [if_pos close] at gaps
        exact .lift (absorb_eq (by omega)) (toTheLeft _ (by omega))
      · exact toTheLeft _ (by omega)
    rw [if_neg (by omega)]
    dsimp only [checked]
    split
    · rename_i block length
      have ends := behind (block, length) rfl
      rw [if_neg (Nat.not_lt.mpr ends)]
      exact toTheRight
    · exact toTheRight

theorem place_runs {i : Nat} {cell : Bytes} (tidy : Tidy p cells [] blocks) (inside : i ≤ cells.length)
    (wide : 4 ≤ cell.size) (enough : cell.size + pointerSize ≤ p.freeBytes) :
    Runs (place i cell) p := by
  unfold place setHeader
  refine .bind (allocate_runs tidy wide enough) fun start r lent => ?_
  obtain ⟨⟨moved, blocks', tidyR, same⟩, fields, gap, -⟩ := allocate_lends tidy wide lent
  have length : moved.length = cells.length := by
    rw [← List.length_map (f := Prod.snd), same, List.length_map]
  have count : r.cellCount = moved.length := tidyR.rows.count
  have ends := r.pointersEnd_eq
  have area := tidyR.area
  have usable := area.usable_le
  have content := area.content
  have free := area.free
  have own := area.inside (start, cell.size) (List.mem_append_left _
    (List.mem_append_right _ List.mem_cons_self))
  unfold pointerSize at gap ends
  dsimp only at own
  have slot : r.pointersStart + i * pointerSize ≤ r.pointersEnd := by
    unfold pointerSize
    omega
  have long := area.long
  obtain ⟨d1, run, size1⟩ := long.put start cell (by omega)
  refine .after run (.get ?_)
  have long := long.bytes size1
  have shift : r.pointersStart + i * pointerSize + pointerSize +
      (r.pointersEnd - (r.pointersStart + i * pointerSize)) ≤ r.data.size := by
    unfold pointerSize at slot ⊢
    omega
  obtain ⟨d2, run, size2⟩ := long.move slot (by omega) shift
  refine .after run ?_
  have long := long.bytes size2
  have here : r.pointersStart + i * pointerSize + 2 ≤ r.data.size := by
    unfold pointerSize at slot ⊢
    omega
  obtain ⟨d3, run, size3⟩ := long.putU16 start here
  refine .after run (.modify ?_)
  have long := long.bytes size3
  have two : pointerSize ≤ r.freeBytes := by
    unfold pointerSize
    omega
  exact .after (loseFree_ok.mpr ⟨two, rfl⟩) (long.remake _ _).writeHeader_runs

theorem HasLength.clearContent {n : Nat} (long : HasLength n p) (order : p.pointersStart ≤ p.usable)
    (inside : p.usable ≤ n) : ∃ q, clearContent p = .ok () q ∧ HasLength n q := by
  obtain ⟨d, run, size⟩ := long.clear order inside
  exact ⟨_, Action.bind_of_ok run, (long.bytes size).remake _ _⟩

theorem free_runs {i : Nat} (tidy : Tidy p cells [] blocks) (inside : i < cells.length) :
    Runs (free cells[i].1 cells[i].2.size) p := by
  have place := tidy.run_inside (List.getElem_mem inside)
  have perm : (cells.map runOf ++ []).Perm (runOf cells[i] :: (cells.eraseIdx i).map runOf) := by
    rw [List.append_nil]
    exact ((List.getElem_cons_eraseIdx_perm inside).map runOf).symm
  have within : ¬ ((decide (cells[i].1 < p.header.contentStart) ||
      decide (cells[i].1 + cells[i].2.size > p.usable)) = true) := by
    simp only [Bool.or_eq_true, decide_eq_true_eq]
    omega
  unfold free
  refine .get ?_
  rw [if_neg within]
  dsimp only
  rw [if_neg (by omega)]
  exact freeBlock_runs (tidy.area.perm perm)

theorem drop_runs {i : Nat} (tidy : Tidy p cells [] blocks) (inside : i < cells.length) :
    Runs (drop i) p := by
  obtain ⟨info, reads⟩ := tidy.rows.valid _ (List.getElem_mem inside)
  have slot := tidy.slot_fits inside
  unfold drop setHeader gainFree
  refine .get (.lift (tidy.pointer inside) (.lift (tidy.cellInfo inside reads) ?_))
  dsimp only
  rw [reads.2]
  refine .bind (free_runs tidy inside) fun _ r freed => ?_
  obtain ⟨blocks', area, fields, -, -⟩ := free_ok tidy inside freed
  have long := area.long
  have size : r.data.size = p.data.size := by
    rw [area.size, tidy.area.size, fields.geometry]
  unfold pointerSize at slot ⊢
  have shift : p.pointersStart + i * 2 + (p.pointersEnd - (p.pointersStart + i * 2 + 2)) ≤
      r.data.size := by omega
  obtain ⟨d1, run, size1⟩ := long.move (slot.1) (by omega) shift
  refine .after run ?_
  have long := long.bytes size1
  obtain ⟨d2, run, size2⟩ := long.clear (Nat.sub_le p.pointersEnd 2) (by omega)
  refine .after run (.modify (.modify (.get ?_)))
  have long := (long.bytes size2).remake
    { r.header with cellCount := r.header.cellCount - 1 } (r.freeBytes + 2)
  have usable := area.usable_le
  have gap := area.gap
  have content := area.content
  have order := area.start_bounds
  split
  · obtain ⟨q, run, long⟩ := long.clearContent (show r.pointersStart ≤ r.usable by omega) usable
    exact .after run long.writeHeader_runs
  · exact long.writeHeader_runs

theorem reset_runs (kind : PageKind) (sound : p.geometry.Sound)
    (size : p.data.size = p.geometry.pageSize) : Runs (reset kind) p := by
  have long := hasLength_of_sound sound size
  have start : p.headerStart ≤ 100 := sound.header
  have small : 480 ≤ p.usable := sound.small
  have usable : p.usable ≤ p.data.size := size ▸ sound.usable
  have order : p.headerStart ≤ p.usable := by omega
  unfold reset
  obtain ⟨d, run, sizeD⟩ := long.clear order usable
  refine .get (.after run (.modify ?_))
  exact HasLength.writeHeader_runs ⟨sizeD, long.header⟩

theorem empty_run (number : PageNo) (kind : PageKind) {geometry : Geometry} (limits : PayloadLimits)
    (sound : geometry.Sound) :
    ∃ page, Page.empty number kind geometry limits = .ok page ∧ page.data.size = geometry.pageSize := by
  obtain ⟨_, page, run⟩ := reset_runs (p := blank number kind geometry limits) kind sound
    (Bytes.size_zeros _)
  obtain ⟨tidy, remade, -⟩ := reset_ok (p := blank number kind geometry limits) sound
    (Bytes.size_zeros _) run
  exact ⟨page, Action.applied_ok.mpr run,
    tidy.area.size.trans (congrArg Geometry.pageSize remade.alike.geometry)⟩

theorem HasLength.layOut {n : Nat} (long : HasLength n p) (cells : List Bytes) {top : Nat} (i : Nat)
    (low : p.pointersStart + i * pointerSize + weight cells ≤ top) (high : top ≤ n) :
    ∃ last q, layOut cells i top p = .ok last q ∧ HasLength n q := by
  induction cells generalizing i top p with
  | nil => exact ⟨top, p, rfl, long⟩
  | cons cell rest ih =>
    rw [weight_cons] at low
    have here : p.pointersStart + i * pointerSize + 2 ≤ n := by
      unfold pointerSize at low ⊢
      omega
    obtain ⟨d, put, size⟩ := long.put (top - cell.size) cell (by omega)
    have long := long.bytes size
    obtain ⟨e, point, size⟩ := long.putU16 (top - cell.size) here
    have long := long.bytes size
    have less : p.pointersStart + (i + 1) * pointerSize + weight rest ≤ top - cell.size := by
      rw [Nat.succ_mul]
      omega
    obtain ⟨last, q, run, long⟩ := ih long (i + 1) less (by omega)
    refine ⟨last, q, ?_, long⟩
    unfold Page.layOut setPointer
    rw [if_neg (by omega)]
    exact (Action.bind_of_ok put).trans ((Action.bind_of_ok point).trans run)

theorem rebuild_runs {kind : PageKind} {cells : List Bytes} (rightChild : Option PageNo)
    (sound : p.geometry.Sound) (size : p.data.size = p.geometry.pageSize)
    (fits : p.fits cells kind = true) : Runs (rebuild kind cells rightChild) p := by
  obtain ⟨light, -⟩ := fits_eq.mp fits
  have start : p.headerStart ≤ 100 := sound.header
  have small : 480 ≤ p.usable := sound.small
  have bounds := kind.headerSize_bounds
  unfold rebuild setHeader
  refine .get ?_
  rw [fits, if_neg (by decide)]
  refine .bind (reset_runs kind sound size) fun _ r cleared => ?_
  obtain ⟨tidy, remade, emptied⟩ := reset_ok sound size cleared
  have geometry := remade.alike.geometry
  have first := r.pointersStart_eq
  have header : r.headerStart = p.headerStart := congrArg Geometry.headerStart geometry
  have usable : r.usable = p.usable := congrArg Geometry.usableSize geometry
  have inPage := tidy.area.usable_le
  rw [remade.kind] at first
  have low : r.pointersStart + 0 * pointerSize + weight cells ≤ p.usable := by omega
  obtain ⟨top, s, laid, long⟩ := tidy.area.long.layOut cells 0 low (by omega)
  exact .after laid (.modify (.modify (long.remake _ _).writeHeader_runs))

end Page

end TreeFile
