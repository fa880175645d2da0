import TreeFile.Proofs.Page.Space

/-!
Taking space back. A run that is given back joins the free blocks next to it, and the content area
is sound again.
-/

namespace TreeFile

namespace Page

variable {p q : Page}

theorem neighbours_split (start : Nat) (blocks : List Run) (before : Option Run) :
    ∃ pre post, blocks = pre ++ post ∧ (∀ block ∈ pre, block.1 < start) ∧
      (pre = [] ∧ (neighbours start blocks before).1 = before ∨
        ∃ front block, pre = front ++ [block] ∧
          (neighbours start blocks before).1 = some block) ∧
      (post = [] ∧ (neighbours start blocks before).2 = 0 ∨
        ∃ block rest, post = block :: rest ∧ (neighbours start blocks before).2 = block.1 ∧
          start ≤ block.1) := by
  induction blocks generalizing before with
  | nil => exact ⟨[], [], rfl, nofun, .inl ⟨rfl, rfl⟩, .inl ⟨rfl, rfl⟩⟩
  | cons block rest ih =>
    unfold neighbours
    by_cases behind : block.1 ≥ start
    · rw [if_pos behind]
      exact ⟨[], block :: rest, rfl, nofun, .inl ⟨rfl, rfl⟩, .inr ⟨block, rest, rfl, rfl, behind⟩⟩
    · rw [if_neg behind]
      obtain ⟨pre, post, rfl, low, first, last⟩ := ih (some block)
      refine ⟨block :: pre, post, rfl, ?_, .inr ?_, last⟩
      · intro other member
        rcases List.mem_cons.mp member with rfl | member
        · exact Nat.lt_of_not_le behind
        · exact low other member
      · rcases first with ⟨rfl, found⟩ | ⟨front, nearest, rfl, found⟩
        · exact ⟨[], block, rfl, found⟩
        · exact ⟨block :: front, nearest, rfl, found⟩

theorem absorb_ok {page : PageNo} {fragments gap left : Nat}
    (run : absorb page fragments gap = .ok left) : left + gap = fragments := by
  unfold absorb at run
  split at run
  · cases run
  · cases run
    omega

/-- The run from `start` to `stop` grows to the right over the block that comes next, if that is
close. -/
structure JoinsRight (p : Page) (start stop newStop after fragments left : Nat)
    (post rest : List Run) : Prop where
  grows : stop ≤ newStop
  less : left ≤ fragments
  inside : ∀ limit, stop ≤ limit → (∀ block ∈ post, block.1 + block.2 ≤ limit) → newStop ≤ limit
  account : left + (newStop - stop) + room rest = fragments + room post
  chain : FreeChain p.data after rest 0
  small : after < 65536
  sub : rest.Sublist post
  later : ∀ block ∈ rest, newStop ≤ block.1
  apart : ∀ run : Run, 4 ≤ run.2 → (stop ≤ run.1 ∨ run.1 + run.2 ≤ start) →
    (∀ block ∈ post, block ∉ rest → Run.Apart block run) → newStop ≤ run.1 ∨ run.1 + run.2 ≤ start

theorem joinsRight (start : Nat) {stop next fragments left : Nat} {post : List Run}
    (usable : p.usable ≤ p.data.size)
    (chain : FreeChain p.data next post 0)
    (wide : ∀ block ∈ post, stop ≤ block.1 ∧ block.1 + block.2 ≤ p.usable ∧ 4 ≤ block.2)
    (ascending : post.Pairwise fun a b => a.1 + a.2 ≤ b.1)
    (small : next < 65536)
    (run : (if next ≠ 0 ∧ next - stop ≤ 3 then absorb p.number fragments (next - stop)
      else pure fragments) = .ok left) :
    ∃ rest, JoinsRight p start stop
      (if next ≠ 0 ∧ next - stop ≤ 3 then next + (p.data.u16? (next + 2)).getD 0 else stop)
      (if next ≠ 0 ∧ next - stop ≤ 3 then (p.data.u16? next).getD 0 else next)
      fragments left post rest := by
  by_cases joins : next ≠ 0 ∧ next - stop ≤ 3
  · rw [if_pos joins] at run
    rw [if_pos joins, if_pos joins]
    have sum := absorb_ok run
    cases post with
    | nil => exact absurd chain joins.1
    | cons block rest =>
      obtain ⟨rfl, length, chain⟩ := chain
      obtain ⟨past, inPage, least⟩ := wide block List.mem_cons_self
      have after := (List.pairwise_cons.mp ascending).1
      have size : (p.data.u16? (block.1 + 2)).getD 0 = block.2 := by
        rw [Bytes.u16?_of_le (by omega), Option.getD_some, length]
      have link : (p.data.u16? block.1).getD 0 = p.data.at16 block.1 := by
        rw [Bytes.u16?_of_le (by omega), Option.getD_some]
      rw [size, link]
      refine ⟨rest, by omega, by omega, ?_, ?_, chain, Bytes.at16_lt _ _, List.sublist_cons_self _ _,
        after, ?_⟩
      · intro limit _ ends
        exact ends block List.mem_cons_self
      · rw [room_cons]
        omega
      · intro run large away others
        have notRest : block ∉ rest := by
          intro member
          have later := after block member
          omega
        have apart := others block List.mem_cons_self notRest
        unfold Run.Apart at apart
        omega
  · rw [if_neg joins] at run
    rw [if_neg joins, if_neg joins]
    cases run
    refine ⟨post, Nat.le_refl _, Nat.le_refl _, fun _ le _ => le, ?_, chain, small, List.Sublist.refl _,
      fun block member => (wide block member).1, fun _ _ away _ => away⟩
    omega

/-- The run grows to the left over the block before it, if that is close. -/
structure JoinsLeft (p : Page) (newStart start stop fragments left : Nat) (joined : Bool)
    (pre rest : List Run) : Prop where
  grows : newStart ≤ start
  less : left ≤ fragments
  place : newStart = start ∨ ∃ block ∈ pre, block.1 = newStart
  inside : ∀ limit, limit ≤ start → (∀ block ∈ pre, limit ≤ block.1) → limit ≤ newStart
  account : left + (start - newStart) + room rest = fragments + room pre
  chain : ∃ middle, FreeChain p.data p.header.firstFree rest middle ∧
    (joined = true → middle = newStart)
  alone : joined = false → rest = pre
  sub : rest.Sublist pre
  behind : ∀ block ∈ rest, block.1 + block.2 ≤ newStart
  apart : ∀ run : Run, 4 ≤ run.2 → (stop ≤ run.1 ∨ run.1 + run.2 ≤ start) →
    (∀ block ∈ pre, block ∉ rest → Run.Apart block run) → stop ≤ run.1 ∨ run.1 + run.2 ≤ newStart

/-- The block before the run, if it is close enough to be joined, and the gap between the two. -/
def joinable (start : Nat) (before : Option Run) : Option (Nat × Nat) :=
  match before with
  | some (block, size) =>
    if start - (block + size) ≤ 3 then some (block, start - (block + size)) else none
  | none => none

theorem joinsLeft (stop : Nat) {start fragments left middle : Nat} {before : Option Run}
    {pre : List Run}
    (chain : FreeChain p.data p.header.firstFree pre middle)
    (near : pre = [] ∧ before = none ∨ ∃ front block, pre = front ++ [block] ∧ before = some block)
    (wide : ∀ block ∈ pre, block.1 + block.2 ≤ start ∧ 4 ≤ block.2)
    (ascending : pre.Pairwise fun a b => a.1 + a.2 ≤ b.1)
    (run : (match joinable start before with
      | some (_, gap) => absorb p.number fragments gap
      | none => pure fragments) = .ok left) :
    ∃ rest, JoinsLeft p (((joinable start before).map Prod.fst).getD start) start stop fragments
      left (joinable start before).isSome pre rest := by
  rcases near with ⟨rfl, rfl⟩ | ⟨front, block, rfl, rfl⟩
  · have alone : joinable start none = none := rfl
    rw [alone] at run ⊢
    cases run
    exact ⟨[], Nat.le_refl _, Nat.le_refl _, .inl rfl, fun _ le _ => le, by
      dsimp only [Option.map_none, Option.getD_none]
      omega, ⟨middle, chain, nofun⟩, fun _ => rfl,
      List.Sublist.refl _, nofun, fun _ _ away _ => away⟩
  · have last : block ∈ front ++ [block] := List.mem_append_right _ List.mem_cons_self
    obtain ⟨behind, least⟩ := wide block last
    have across := (List.pairwise_append.mp ascending).2.2
    by_cases close : start - (block.1 + block.2) ≤ 3
    · have join : joinable start (some block) =
          some (block.1, start - (block.1 + block.2)) := if_pos close
      rw [join] at run ⊢
      have sum := absorb_ok run
      obtain ⟨between, first, here, -⟩ := FreeChain.append.mp chain
      refine ⟨front, ?_, by omega, .inr ⟨block, last, rfl⟩, ?_, ?_,
        ⟨between, first, fun _ => here⟩, nofun,
        List.sublist_append_left _ _, ?_, ?_⟩
      all_goals dsimp only [Option.map_some, Option.getD_some]
      · omega
      · exact fun limit _ starts => starts block last
      · rw [room_append, room_cons, room_nil]
        omega
      · exact fun other member => across other member block List.mem_cons_self
      · intro run large away others
        have notFront : block ∉ front := by
          intro member
          have earlier := across block member block List.mem_cons_self
          omega
        have apart := others block last notFront
        unfold Run.Apart at apart
        omega
    · have alone : joinable start (some block) = none := if_neg close
      rw [alone] at run ⊢
      cases run
      exact ⟨_, Nat.le_refl _, Nat.le_refl _, .inl rfl, fun _ le _ => le, by
        dsimp only [Option.map_none, Option.getD_none]
        omega, ⟨middle, chain, nofun⟩, fun _ => rfl,
        List.Sublist.refl _, fun other member => (wide other member).1, fun _ _ away _ => away⟩

/-- What is left to do once it is known what the run joins: `link` is the block before it, if it
does not join that one. -/
def enlist (size newStart newStop after fragments : Nat) (link : Option Nat) (alone : Bool) :
    Action Page Unit := do
  let p ← get
  setHeader fun h => { h with fragments }
  gainFree size
  if newStart = p.header.contentStart then
    setHeader fun h => { h with firstFree := after, contentStart := newStop }
    writeHeader
  else
    edit (Bytes.putU16 newStart after)
    edit (Bytes.putU16 (newStart + 2) (newStop - newStart))
    if alone then setLink link newStart
    writeHeader

theorem freeBlock_parts {blocks : List Run} {start size next : Nat} {before : Option Run}
    (found : p.freeBlocks = .ok blocks) (around : neighbours start blocks none = (before, next))
    (run : freeBlock start size p = .ok () q) :
    (next = 0 ∨ start + size ≤ next) ∧ (∀ block, before = some block → block.1 + block.2 ≤ start) ∧
      ∃ between left,
        (if next ≠ 0 ∧ next - (start + size) ≤ 3 then
          absorb p.number p.header.fragments (next - (start + size))
        else pure p.header.fragments) = .ok between ∧
        (match joinable start before with
        | some (_, gap) => absorb p.number between gap
        | none => pure between) = .ok left ∧
        enlist size (((joinable start before).map Prod.fst).getD start)
          (if next ≠ 0 ∧ next - (start + size) ≤ 3 then next + (p.data.u16? (next + 2)).getD 0
            else start + size)
          (if next ≠ 0 ∧ next - (start + size) ≤ 3 then (p.data.u16? next).getD 0 else next)
          left (before.map Prod.fst) (joinable start before).isNone p = .ok () q := by
  unfold freeBlock at run
  rw [Action.get_bind, Action.lift_bind_ok] at run
  obtain ⟨_, same, run⟩ := run
  cases found.symm.trans same
  rw [around] at run
  dsimp -zeta only at run
  extract_lets joins newStop after joined newStart write finish toLeft toRight checked at run
  by_cases overlap : next ≠ 0 ∧ next < start + size
  · rw [if_pos overlap] at run
    exact absurd run Action.throw_bind_ok
  rw [if_neg overlap] at run
  have behind : (∀ block, before = some block → block.1 + block.2 ≤ start) ∧
      toRight () p = .ok () q := by
    dsimp only [checked] at run
    split at run
    · split at run
      · exact absurd run Action.throw_bind_ok
      · rename_i low
        refine ⟨?_, run⟩
        rintro _ ⟨⟩
        exact Nat.le_of_not_lt low
    · exact ⟨nofun, run⟩
  have right : ∃ between, (if joins then
        absorb p.number p.header.fragments (next - (start + size))
      else pure p.header.fragments) = .ok between ∧ toLeft between p = .ok () q := by
    have run := behind.2
    dsimp only [toRight] at run
    split at run
    · rename_i close
      rw [Action.lift_bind_ok] at run
      obtain ⟨between, absorbed, run⟩ := run
      exact ⟨between, by rw [if_pos close]; exact absorbed, run⟩
    · rename_i far
      exact ⟨_, by rw [if_neg far]; rfl, run⟩
  obtain ⟨between, absorbed, run⟩ := right
  have left : ∃ left, (match joinable start before with
        | some (_, gap) => absorb p.number between gap
        | none => pure between) = .ok left ∧ finish left p = .ok () q := by
    have run : (match joinable start before with
        | some (_, gap) => liftM (absorb p.number between gap) >>= fun left => finish left
        | none => pure between >>= fun left => finish left) p = .ok () q := run
    clear_value finish
    cases found : joinable start before with
    | none =>
      rw [found] at run
      exact ⟨between, rfl, run⟩
    | some close =>
      rw [found] at run
      rw [Action.lift_bind_ok] at run
      exact run
  obtain ⟨left, absorbed', run⟩ := left
  exact ⟨by omega, behind.1, between, left, absorbed, absorbed', run⟩

structure Marked (d e : Bytes) (newStart newStop after : Nat) : Prop where
  size : e.size = d.size
  keep : ∀ i, i < newStart ∨ newStart + 4 ≤ i → e.get! i = d.get! i
  next : e.at16 newStart = after
  length : e.at16 (newStart + 2) = newStop - newStart

theorem marked_of_puts {d e f : Bytes} {newStart newStop after : Nat} (small : after < 65536) (short : newStop - newStart < 65536)
    (first : Bytes.putU16 newStart after d = .ok () e)
    (second : Bytes.putU16 (newStart + 2) (newStop - newStart) e = .ok () f) :
    Marked d f newStart newStop after := by
  obtain ⟨fits, sameE⟩ := Bytes.putU16_ok.mp first
  obtain ⟨fits', sameF⟩ := Bytes.putU16_ok.mp second
  refine ⟨?_, ?_, ?_, ?_⟩
  · rw [sameF, Bytes.size_overwrite (c := Bytes.ofNat16 _) fits', sameE,
      Bytes.size_overwrite (c := Bytes.ofNat16 _) fits]
  · intro i outside
    rw [sameF, Bytes.get_overwrite_outside (c := Bytes.ofNat16 _) fits'
      (by rw [Bytes.size_ofNat16]; omega), sameE,
      Bytes.get_overwrite_outside (c := Bytes.ofNat16 _) fits
        (by rw [Bytes.size_ofNat16]; omega)]
  · rw [sameF, Bytes.at16_overwrite (c := Bytes.ofNat16 _) fits' (.inl (Nat.le_refl _)), sameE,
      Bytes.at16_overwrite_same fits, Nat.mod_eq_of_lt small]
  · rw [sameF, Bytes.at16_overwrite_same fits', Nat.mod_eq_of_lt short]

theorem enchain_ok {d : Bytes} {newStart newStop after left free middle : Nat} {link : Option Nat} {joined : Bool}
    {pre restPre restPost : List Run} (header : PageHeader.Valid { p.header with fragments := left })
    (marked : Marked p.data d newStart newStop after) (small : newStart < 65536)
    (startPast : p.pointersStart ≤ newStart) (wide : newStart + 4 ≤ newStop)
    (chain : FreeChain p.data p.header.firstFree restPre middle) (joinedTo : joined = true → middle = newStart)
    (alone : joined = false → restPre = pre ∧ link = lastStart none pre)
    (next : FreeChain p.data after restPost 0) (linkable : Linkable p restPre)
    (behind : ∀ block ∈ restPre, block.1 + block.2 ≤ newStart) (later : ∀ block ∈ restPost, newStop ≤ block.1)
    (run : (do
      if !joined then setLink link newStart
      writeHeader : Action Page Unit) { p with
        header := { p.header with fragments := left }
        data := d
        freeBytes := free } = .ok () q) :
    ∃ f first, q = { p with
        header := { p.header with fragments := left, firstFree := first }
        data := f
        freeBytes := free } ∧ first < 65536 ∧
      FreeChain f first (restPre ++ (newStart, newStop - newStart) :: restPost) 0 ∧
      SameBut p f ((newStart, 4) :: restPre) ∧ PageHeader.At f p.headerStart q.header := by
  have before : SameBut p d ((newStart, 4) :: restPre) := by
    refine ⟨marked.size, fun i _ outside => marked.keep i ?_⟩
    have away := outside _ List.mem_cons_self
    dsimp only at away
    omega
  have keepPre : ∀ run ∈ restPre, Bytes.SameOn p.data d run.1 (run.1 + 4) := by
    intro run member i lower upper
    have ends := behind run member
    have least := (linkable.past run member).2
    unfold minCellSize at least
    exact marked.keep i (by omega)
  have chainPre : FreeChain d p.header.firstFree restPre middle := chain.of_same keepPre
  -- The link to the joined run is there already, or it is made now.
  have linkMade : ∃ e first mid, first < 65536 ∧ FreeChain e first restPre newStart ∧
      SameBut { p with data := d } e restPre ∧ mid = { p with
        header := { p.header with fragments := left, firstFree := first }
        data := e
        freeBytes := free } ∧ writeHeader mid = .ok () q := by
    cases joined with
    | true =>
      refine ⟨d, p.header.firstFree, _, header.firstFree, ?_, ⟨rfl, fun _ _ _ => rfl⟩, rfl, run⟩
      rw [← joinedTo rfl]
      exact chainPre
    | false =>
      obtain ⟨rfl, linked⟩ := alone rfl
      obtain ⟨_, mid, made, run⟩ := Action.bind_ok.mp run
      rw [linked] at made
      obtain ⟨e, first, shape, low, chainE, same⟩ := setLink_ok
        (p := { p with
          header := { p.header with fragments := left }
          data := d
          freeBytes := free })
        small header chainPre ⟨linkable.past, linkable.ascending⟩ made
      exact ⟨e, first, mid, low, chainE, same, shape, run⟩
  obtain ⟨e, first, mid, low, chainE, made, rfl, written⟩ := linkMade
  have valid : PageHeader.Valid { p.header with fragments := left, firstFree := first } :=
    { header with firstFree := low }
  obtain ⟨f, last, here, rfl⟩ := writeHeader_at valid written
  have last : SameBut { p with data := e } f [] := last
  have made' : SameBut p e ((newStart, 4) :: restPre) :=
    before.trans (q := { p with data := d }) ⟨rfl, rfl, rfl, rfl, rfl, rfl, rfl⟩
      (made.mono fun run member => List.mem_cons_of_mem _ member)
  have same : SameBut p f ((newStart, 4) :: restPre) :=
    made'.trans (q := { p with data := e }) ⟨rfl, rfl, rfl, rfl, rfl, rfl, rfl⟩ (last.mono nofun)
  -- From the marked bytes on, only the blocks before the joined run are touched.
  have keepLater : ∀ i, newStart ≤ i → f.get! i = d.get! i := by
    intro i past
    rw [last.2 i (.inr (Nat.le_trans startPast past)) nofun]
    exact made.2 i (.inr (Nat.le_trans startPast past)) fun block member => .inr (by
      have ends := behind block member
      omega)
  refine ⟨f, first, rfl, low, FreeChain.append.mpr ⟨newStart, ?_, rfl, ?_, ?_⟩, same, here⟩
  · apply chainE.of_same
    intro block member
    exact last.sameOn (linkable.past block member).1 nofun
  · rw [← marked.length]
    unfold Bytes.at16
    rw [keepLater _ (by omega), keepLater _ (by omega)]
  · have next' : f.at16 newStart = after := by
      rw [← marked.next]
      unfold Bytes.at16
      rw [keepLater _ (by omega), keepLater _ (by omega)]
    dsimp only
    rw [next']
    apply next.of_same
    intro block member i lower upper
    have past := later block member
    rw [keepLater i (by omega)]
    exact marked.keep i (by omega)

/-- A run that is given back, together with the free blocks that it joins. -/
structure Merged (p : Page) (taken : List Run) (start size newStart newStop after left : Nat)
    (joined : Bool) (pre post restPre restPost : List Run) : Prop where
  area : Area p ((start, size) :: taken) (pre ++ post)
  between : ∃ between,
    JoinsRight p start (start + size) newStop after p.header.fragments between post restPost ∧
      JoinsLeft p newStart start (start + size) between left joined pre restPre

section Merged

variable {taken pre post restPre restPost : List Run}
variable {start size newStart newStop after left : Nat} {joined : Bool}
variable (merged : Merged p taken start size newStart newStop after left joined pre post restPre
  restPost)

include merged

theorem Merged.sub : (restPre ++ restPost).Sublist (pre ++ post) := by
  obtain ⟨_, right, left⟩ := merged.between
  exact left.sub.append right.sub

theorem Merged.bounds : p.header.contentStart ≤ newStart ∧ newStart ≤ start ∧
    start + size ≤ newStop ∧ newStop ≤ p.usable ∧ 4 ≤ size := by
  obtain ⟨_, right, left⟩ := merged.between
  have inside := merged.area.inside
  have own := inside (start, size) List.mem_cons_self
  refine ⟨?_, left.grows, right.grows, ?_, own.2.2⟩
  · exact left.inside _ own.1 fun block member => (inside block
      (List.mem_append_right _ (List.mem_append_left _ member))).1
  · exact right.inside _ own.2.1 fun block member => (inside block
      (List.mem_append_right _ (List.mem_append_right _ member))).2.1

theorem Merged.account : left ≤ p.header.fragments ∧
    left + (newStop - newStart) + room restPre + room restPost =
      p.header.fragments + size + room pre + room post := by
  obtain ⟨_, right, left⟩ := merged.between
  have first := right.account
  have second := left.account
  have less := right.less
  have less' := left.less
  have bounds := merged.bounds
  omega

theorem Merged.apart {run : Run} (member : run ∈ taken ++ (restPre ++ restPost)) :
    newStop ≤ run.1 ∨ run.1 + run.2 ≤ newStart := by
  obtain ⟨_, right, left⟩ := merged.between
  have area := merged.area
  have ascending := List.pairwise_append.mp area.ascending
  have whole : run ∈ (start, size) :: taken ++ (pre ++ post) := by
    rcases List.mem_append.mp member with inTaken | inBlocks
    · exact List.mem_append_left _ (List.mem_cons_of_mem _ inTaken)
    · exact List.mem_append_right _ (merged.sub.subset inBlocks)
  have wide : 4 ≤ run.2 := (area.inside run whole).2.2
  obtain ⟨own, others⟩ := List.pairwise_cons.mp area.apart
  have away : start + size ≤ run.1 ∨ run.1 + run.2 ≤ start := by
    apply own run
    rcases List.mem_append.mp member with inTaken | inBlocks
    · exact List.mem_append_left _ inTaken
    · exact List.mem_append_right _ (merged.sub.subset inBlocks)
  obtain ⟨-, blocksApart, across⟩ := List.pairwise_append.mp others
  have gone : ∀ block ∈ pre ++ post, block ∉ restPre ++ restPost → Run.Apart block run := by
    intro block isBlock notRest
    rcases List.mem_append.mp member with inTaken | inBlocks
    · exact (across run inTaken block isBlock).symm
    · apply apart_of_ne blocksApart isBlock (merged.sub.subset inBlocks)
      rintro rfl
      exact notRest inBlocks
  have order : ∀ a ∈ pre, ∀ b ∈ post, a ≠ b := by
    rintro a inPre _ inPost rfl
    have before := ascending.2.2 a inPre a inPost
    have least := (area.inside a (List.mem_append_right _ (List.mem_append_left _ inPre))).2.2
    unfold minCellSize at least
    omega
  have toRight := right.apart run wide away fun block inPost notRest => by
    apply gone block (List.mem_append_right _ inPost)
    intro inRest
    rcases List.mem_append.mp inRest with inPre | inRest
    · exact order block (left.sub.subset inPre) block inPost rfl
    · exact notRest inRest
  have toLeft := left.apart run wide away fun block inPre notRest => by
    apply gone block (List.mem_append_left _ inPre)
    intro inRest
    rcases List.mem_append.mp inRest with inRest | inPost
    · exact notRest inRest
    · exact order block inPre block (right.sub.subset inPost) rfl
  omega

theorem Merged.apart_others :
    ∀ run ∈ taken ++ (restPre ++ restPost), Run.Apart (newStart, newStop - newStart) run := by
  intro run member
  have away := merged.apart member
  have bounds := merged.bounds
  unfold Run.Apart
  dsimp only
  omega

theorem Merged.others_apart : (taken ++ (restPre ++ restPost)).Pairwise Run.Apart :=
  (List.pairwise_cons.mp merged.area.apart).2.sublist ((List.Sublist.refl taken).append merged.sub)

theorem Merged.ascending : (restPre ++ restPost).Pairwise fun a b => a.1 + a.2 ≤ b.1 :=
  merged.area.ascending.sublist merged.sub

theorem Merged.inside : ∀ run ∈ taken ++ (restPre ++ restPost),
    p.header.contentStart ≤ run.1 ∧ run.1 + run.2 ≤ p.usable ∧ minCellSize ≤ run.2 := by
  intro run member
  apply merged.area.inside run
  rcases List.mem_append.mp member with inTaken | inBlocks
  · exact List.mem_append_left _ (List.mem_cons_of_mem _ inTaken)
  · exact List.mem_append_right _ (merged.sub.subset inBlocks)

theorem Merged.toGap (first : newStart = p.header.contentStart)
    (run : writeHeader { p with
      header := { p.header with fragments := left, firstFree := after, contentStart := newStop }
      freeBytes := p.freeBytes + size } = .ok () q) :
    Area q taken restPost ∧ KeepsFields p q ∧ SameBut p q.data [] ∧
      p.header.contentStart ≤ q.header.contentStart := by
  obtain ⟨_, right, joins⟩ := merged.between
  have bounds := merged.bounds
  have account := merged.account
  have inside := merged.inside
  have usable := merged.area.usable_bounds
  have area := merged.area
  have header := area.header.valid
  have none : restPre = [] := by
    cases pre' : restPre with
    | nil => rfl
    | cons block rest =>
      have member : block ∈ restPre := pre' ▸ List.mem_cons_self
      have behind := joins.behind block member
      have place := inside block (List.mem_append_right _ (List.mem_append_left _ member))
      unfold minCellSize at place
      omega
  subst none
  have fragments := header.fragments
  have valid : PageHeader.Valid { p.header with
      fragments := left
      firstFree := after
      contentStart := newStop } :=
    { header with
      fragments := show left < 256 by omega
      firstFree := right.small
      contentPos := show 0 < newStop by omega
      contentLe := show newStop ≤ 65536 by omega }
  obtain ⟨d, same, here, rfl⟩ := writeHeader_at valid run
  have same : SameBut p d [] := same
  have gap := area.gap
  have whole := area.account
  have free := area.free
  simp only [room_append, room_cons, room_nil] at whole free account
  refine ⟨?_, ⟨rfl, rfl, rfl, rfl, rfl, rfl, rfl⟩, same, show p.header.contentStart ≤ newStop by omega⟩
  refine area.remake ⟨rfl, rfl, rfl, rfl, rfl, rfl, rfl⟩ same.1 here ?_ ?_ ?_ ?_ ?_ ?_ ?_ ?_
  all_goals try dsimp only
  · omega
  · omega
  · apply right.chain.of_same
    intro block member
    exact same.sameOn (area.past_pointers (List.mem_append_right _ (List.mem_append_right _
      (right.sub.subset member)))).2 nofun
  · intro run member
    have away := merged.apart member
    have place := inside run member
    unfold minCellSize at place ⊢
    omega
  · exact merged.others_apart
  · exact merged.ascending
  · omega
  · omega

theorem Merged.toBlock {d : Bytes} {link : Option Nat}
    (marked : Marked p.data d newStart newStop after)
    (linked : joined = false → link = lastStart none pre)
    (run : (do
      if !joined then setLink link newStart
      writeHeader : Action Page Unit) { p with
        header := { p.header with fragments := left }
        data := d
        freeBytes := p.freeBytes + size } = .ok () q) :
    Area q taken (restPre ++ (newStart, newStop - newStart) :: restPost) ∧ KeepsFields p q ∧
      SameBut p q.data ((start, size) :: (pre ++ post)) ∧
      p.header.contentStart ≤ q.header.contentStart := by
  obtain ⟨_, right, joins⟩ := merged.between
  have bounds := merged.bounds
  have account := merged.account
  have inside := merged.inside
  have apart := merged.apart_others
  have usable := merged.area.usable_bounds
  have area := merged.area
  have header := area.header.valid
  have fragments := header.fragments
  have ascending := merged.ascending
  have headerLeft : PageHeader.Valid { p.header with fragments := left } :=
    { header with fragments := show left < 256 by omega }
  obtain ⟨middle, chain, joinedTo⟩ := joins.chain
  have startPast : p.pointersStart ≤ newStart := by
    have gap := area.gap
    have order := area.start_bounds
    omega
  obtain ⟨f, first, rfl, low, chainF, changed, here⟩ := enchain_ok headerLeft marked (by omega) startPast (by omega)
    chain joinedTo (fun lone => ⟨joins.alone lone, linked lone⟩) right.chain
    (area.linkable (joins.sub.trans (List.sublist_append_left pre post))) joins.behind right.later run
  have same : SameBut p f ((start, size) :: (pre ++ post)) := by
    refine ⟨changed.1, fun i away outside => changed.2 i away fun run member => ?_⟩
    rcases List.mem_cons.mp member with rfl | member
    · rcases joins.place with rfl | ⟨block, inPre, rfl⟩
      · have far := outside _ List.mem_cons_self
        dsimp only at far ⊢
        omega
      · have isBlock := List.mem_append_left post inPre
        have far := outside block (List.mem_cons_of_mem _ isBlock)
        have wide := (area.inside block (List.mem_append_right _ isBlock)).2.2
        unfold minCellSize at wide
        dsimp only
        omega
    · exact outside run (List.mem_cons_of_mem _ (List.mem_append_left _ (joins.sub.subset member)))
  refine ⟨?_, ⟨rfl, rfl, rfl, rfl, rfl, rfl, rfl⟩, same, Nat.le_refl _⟩
  refine area.remake ⟨rfl, rfl, rfl, rfl, rfl, rfl, rfl⟩ same.1 here area.gap area.content chainF
    ?_ ?_ ?_ ?_ ?_
  all_goals try dsimp only
  · intro run member
    rcases mem_middle_right.mp member with rfl | other
    · unfold minCellSize
      dsimp only
      omega
    · exact inside run other
  · exact pairwise_apart_middle.mpr ⟨apart, merged.others_apart⟩
  · obtain ⟨front, back, across⟩ := List.pairwise_append.mp ascending
    refine List.pairwise_append.mpr ⟨front, List.pairwise_cons.mpr ⟨?_, back⟩, ?_⟩
    · intro block member
      have later := right.later block member
      dsimp only
      omega
    · intro a inPre b member
      rcases List.mem_cons.mp member with rfl | inPost
      · exact joins.behind a inPre
      · exact across a inPre b inPost
  · have whole := area.account
    simp only [room_append, room_cons] at whole ⊢
    omega
  · have free := area.free
    simp only [room_append, room_cons] at free ⊢
    omega

end Merged

theorem around_ok {d : Bytes} {blocks : List Run} {first limit start stop next : Nat} {before : Option Run}
    (chain : FreeChain d first blocks 0) (small : limit ≤ 65536)
    (inside : ∀ block ∈ blocks, 0 < block.1 ∧ block.1 + block.2 ≤ limit ∧ 4 ≤ block.2)
    (ascending : blocks.Pairwise fun a b => a.1 + a.2 ≤ b.1)
    (around : neighbours start blocks none = (before, next)) (clear : next = 0 ∨ stop ≤ next)
    (behind : ∀ block, before = some block → block.1 + block.2 ≤ start) :
    ∃ pre post, blocks = pre ++ post ∧
      (pre = [] ∧ before = none ∨ ∃ front block, pre = front ++ [block] ∧ before = some block) ∧
      FreeChain d first pre next ∧ FreeChain d next post 0 ∧
      (∀ block ∈ pre, block.1 + block.2 ≤ start ∧ 4 ≤ block.2) ∧
      (∀ block ∈ post, stop ≤ block.1 ∧ block.1 + block.2 ≤ limit ∧ 4 ≤ block.2) ∧ next < 65536 := by
  obtain ⟨pre, post, rfl, low, near, following⟩ := neighbours_split start blocks none
  rw [around] at near following
  have ⟨ascendingPre, ascendingPost, across⟩ := List.pairwise_append.mp ascending
  obtain ⟨middle, chainPre, chainPost⟩ := FreeChain.append.mp chain
  dsimp only at near following
  have insidePost : ∀ block ∈ post, stop ≤ block.1 ∧ block.1 + block.2 ≤ limit ∧ 4 ≤ block.2 := by
    intro block member
    have place := inside block (List.mem_append_right _ member)
    refine ⟨?_, place.2⟩
    rcases following with ⟨rfl, -⟩ | ⟨nearest, rest, rfl, rfl, -⟩
    · nomatch member
    · have first := (inside nearest (List.mem_append_right _ List.mem_cons_self)).1
      rcases List.mem_cons.mp member with rfl | inRest
      · omega
      · have after := (List.pairwise_cons.mp ascendingPost).1 block inRest
        omega
  have insidePre : ∀ block ∈ pre, block.1 + block.2 ≤ start ∧ 4 ≤ block.2 := by
    intro block member
    have place := inside block (List.mem_append_left _ member)
    refine ⟨?_, place.2.2⟩
    rcases near with ⟨rfl, -⟩ | ⟨front, nearest, rfl, rfl⟩
    · nomatch member
    · have close := behind nearest rfl
      rcases List.mem_append.mp member with inFront | isLast
      · have before := (List.pairwise_append.mp ascendingPre).2.2 block inFront nearest
          List.mem_cons_self
        omega
      · rw [List.mem_singleton.mp isLast]
        exact close
  have nextIs : middle = next := by
    rcases following with ⟨rfl, rfl⟩ | ⟨nearest, rest, rfl, rfl, -⟩
    · exact chainPost
    · exact chainPost.1
  subst nextIs
  refine ⟨pre, post, rfl, near, chainPre, chainPost, insidePre, insidePost, ?_⟩
  rcases following with ⟨rfl, rfl⟩ | ⟨nearest, rest, rfl, rfl, -⟩
  · decide
  · have place := insidePost nearest List.mem_cons_self
    omega

theorem before_eq_lastStart {pre : List Run} {before : Option Run}
    (near : pre = [] ∧ before = none ∨ ∃ front block, pre = front ++ [block] ∧ before = some block) :
    before.map Prod.fst = lastStart none pre := by
  rcases near with ⟨rfl, rfl⟩ | ⟨front, nearest, rfl, rfl⟩
  · rfl
  · exact (lastStart_append none front nearest).symm

theorem freeBlock_ok {taken blocks : List Run} {start size : Nat}
    (area : Area p ((start, size) :: taken) blocks) (run : freeBlock start size p = .ok () q) :
    ∃ blocks', Area q taken blocks' ∧ KeepsFields p q ∧ SameBut p q.data ((start, size) :: blocks) ∧
      p.header.contentStart ≤ q.header.contentStart := by
  cases around : neighbours start blocks none with
  | mk before next =>
    obtain ⟨clear, behind, between, left, absorbed, absorbed', run⟩ :=
      freeBlock_parts area.freeBlocks around run
    have own := area.inside (start, size) List.mem_cons_self
    have usable := area.usable_le
    have bounds := area.usable_bounds
    have positive := area.header.contentPos
    unfold minCellSize at own
    dsimp only at own
    obtain ⟨pre, post, rfl, near, chainPre, chainPost, insidePre, insidePost, small⟩ := around_ok area.chain bounds.2
      (fun block member =>
        have place := area.inside block (List.mem_append_right _ member)
        ⟨Nat.lt_of_lt_of_le positive place.1, place.2⟩) area.ascending around clear behind
    have ⟨ascendingPre, ascendingPost, across⟩ := List.pairwise_append.mp area.ascending
    obtain ⟨restPost, right⟩ := joinsRight start usable chainPost insidePost
      ascendingPost small absorbed
    obtain ⟨restPre, joins⟩ := joinsLeft (start + size) chainPre near insidePre ascendingPre
      absorbed'
    have merged : Merged p taken start size _ _ _ left _ pre post restPre restPost :=
      ⟨area, between, right, joins⟩
    have limits := merged.bounds
    unfold enlist at run
    rw [Action.get_bind] at run
    unfold setHeader gainFree at run
    rw [Action.modify_bind, Action.modify_bind] at run
    split at run
    · rename_i first
      rw [Action.modify_bind] at run
      obtain ⟨freed, fields, same, content⟩ := merged.toGap first run
      exact ⟨restPost, freed, fields, same.mono nofun, content⟩
    · obtain ⟨_, mid, put, run⟩ := Action.bind_ok.mp run
      obtain ⟨_, mid', put', run⟩ := Action.bind_ok.mp run
      obtain ⟨d, putData, rfl⟩ := edit_ok.mp put
      obtain ⟨e, putData', rfl⟩ := edit_ok.mp put'
      have marked := marked_of_puts right.small (by omega) putData putData'
      have linked : (joinable start before).isSome = false →
          before.map Prod.fst = lastStart none pre := fun _ => before_eq_lastStart near
      have alone : (joinable start before).isNone = !(joinable start before).isSome := by
        cases joinable start before <;> rfl
      rw [alone] at run
      obtain ⟨freed, fields, same, content⟩ := merged.toBlock marked linked run
      exact ⟨_, freed, fields, same, content⟩

end Page

end TreeFile
