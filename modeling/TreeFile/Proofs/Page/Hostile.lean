import TreeFile.Proofs.Page.Guarded

/-!
Pages made to do harm. Whatever bytes are read as a page, its cells may be inserted, dropped and moved in any
order: no access leaves the page and no difference drops below zero, also after a change that failed. Until one
fails, the free space is accounted for, even where cells lie on each other.
-/

namespace TreeFile

namespace Page

variable {p q : Page} {blocks : List Run}

/-- The free blocks of a page within its bounds can be followed, and with the gap and the fragments they are all
that is free. Nothing is said of the cells. -/
structure Charted (p : Page) (blocks : List Run) : Prop where
  bounded : p.Bounded
  chain : FreeChain p.data p.header.firstFree blocks 0
  inside : ∀ block ∈ blocks,
    p.header.contentStart ≤ block.1 ∧ block.1 + block.2 ≤ p.usable ∧ minCellSize ≤ block.2
  ascending : blocks.Pairwise fun a b => a.1 + a.2 ≤ b.1
  free : p.freeBytes = p.header.contentStart - p.pointersEnd + room blocks + p.header.fragments

section Charted

variable (charted : p.Charted blocks)

include charted

theorem Charted.past {block : Run} (member : block ∈ blocks) :
    p.pointersEnd ≤ block.1 ∧ p.pointersStart ≤ block.1 := by
  have inside := charted.inside block member
  have gap := charted.bounded.gap
  have order := p.pointers_order
  omega

theorem Charted.freeBlocks : p.freeBlocks = .ok blocks := by
  have positive := charted.bounded.valid.contentPos
  have wide := room_ge_length fun block member => (charted.inside block member).2.2
  have whole := room_le_of_apart p.header.contentStart p.usable blocks charted.bounded.content
    (fun block member => ⟨(charted.inside block member).1, (charted.inside block member).2.1⟩)
    (charted.ascending.imp fun before => .inl before)
  refine freeBlocksFrom_chain _ _ _ charted.chain charted.bounded.usable_le positive ?_ charted.inside
    charted.ascending
  unfold minCellSize at wide ⊢
  omega

theorem Charted.linkable {pre : List Run} (sub : pre.Sublist blocks) : Linkable p pre where
  past := fun _ member =>
    ⟨(charted.past (sub.subset member)).2, (charted.inside _ (sub.subset member)).2.2⟩
  ascending := charted.ascending.sublist sub

theorem Charted.of_same (bounded : q.Bounded) (first : q.header.firstFree = p.header.firstFree)
    (content : q.header.contentStart = p.header.contentStart) (usable : q.usable = p.usable)
    (same : ∀ block ∈ blocks, Bytes.SameOn p.data q.data block.1 (block.1 + block.2))
    (free : q.freeBytes = q.header.contentStart - q.pointersEnd + room blocks + q.header.fragments) :
    q.Charted blocks where
  bounded := bounded
  chain := by
    rw [first]
    refine charted.chain.of_same fun block member => (same block member).mono (Nat.le_refl _) ?_
    have wide := (charted.inside block member).2.2
    unfold minCellSize at wide
    omega
  inside := by
    rw [content, usable]
    exact charted.inside
  ascending := charted.ascending
  free := free

def Clear (p : Page) (blocks : List Run) (start size : Nat) : Prop :=
  p.header.contentStart ≤ start ∧ ∀ block ∈ blocks, Run.Apart (start, size) block

theorem Charted.carve {size start : Nat} (fits : p.pointersEnd + pointerSize + size ≤ p.header.contentStart)
    (enough : size + pointerSize ≤ p.freeBytes) (run : carve size p = .ok start q) :
    q.Charted blocks ∧ Clear q blocks start size := by
  obtain ⟨start', q', run', hands⟩ := charted.bounded.carve size fits enough
  cases run.symm.trans run'
  have ⟨positive, order⟩ := p.pointers_order
  have valid : PageHeader.Valid { p.header with contentStart := p.header.contentStart - size } :=
    { charted.bounded.valid with
      contentPos := show 0 < p.header.contentStart - size by omega
      contentLe := Nat.le_trans (Nat.sub_le _ _) charted.bounded.valid.contentLe }
  unfold Page.carve setHeader at run
  rw [Action.get_bind, if_pos (by omega), Action.modify_bind] at run
  obtain ⟨_, mid, written, run⟩ := Action.bind_ok.mp run
  obtain ⟨_, last, lost, run⟩ := Action.bind_ok.mp run
  rw [Action.get_bind] at run
  obtain ⟨rfl, rfl⟩ := Action.pure_ok.mp run
  obtain ⟨d, same, -, rfl⟩ := writeHeader_at valid written
  obtain ⟨-, rfl⟩ := loseFree_ok.mp lost
  have same : SameBut p d [] := same
  have free := charted.free
  refine ⟨⟨hands.bounded, ?_, ?_, charted.ascending, ?_⟩, Nat.le_refl _, ?_⟩
  · refine charted.chain.of_same fun block member => ?_
    exact same.sameOn (charted.past member).2 nofun
  · intro block member
    have inside := charted.inside block member
    exact ⟨Nat.le_trans (Nat.sub_le _ _) inside.1, inside.2⟩
  · change p.freeBytes - size = p.header.contentStart - size - p.pointersEnd + room blocks + p.header.fragments
    omega
  · intro block member
    have inside := charted.inside block member
    left
    dsimp only
    omega

theorem Charted.takeBlock {size start : Nat} (wide : 4 ≤ size) (enough : size ≤ p.freeBytes)
    (run : takeBlock size p = .ok (some start) q) :
    ∃ blocks', q.Charted blocks' ∧ Clear q blocks' start size := by
  have bounded : q.Bounded := by
    rcases (takeBlock_keeps charted.bounded enough).ok run with ⟨-, none⟩ | ⟨_, -, follows, -⟩
    · cases none
    · exact follows.bounded
  unfold Page.takeBlock at run
  rw [Action.get_bind, charted.freeBlocks, Action.lift_ok_bind] at run
  cases best : bestFit size none blocks none with
  | none =>
    rw [best] at run
    cases run
  | some block =>
    obtain ⟨link, start, found⟩ := block
    rcases bestFit_found blocks none none best with none | ⟨pre, post, rfl, fits, rfl⟩
    · cases none
    rw [best] at run
    have isBlock : (start, found) ∈ pre ++ (start, found) :: post :=
      List.mem_append_right _ List.mem_cons_self
    have place := charted.inside _ isBlock
    have inPage := charted.bounded.usable_le
    have limits := charted.bounded.usable_bounds
    have positive := charted.bounded.valid.contentPos
    have free := charted.free
    have order := List.pairwise_append.mp charted.ascending
    simp only [room_append, room_cons] at free
    unfold minCellSize at place
    dsimp only at run place
    split at run
    · obtain ⟨_, mid, put, run⟩ := Action.bind_ok.mp run
      obtain ⟨_, last, lost, run⟩ := Action.bind_ok.mp run
      obtain ⟨same, rfl⟩ := Action.pure_ok.mp run
      cases same
      obtain ⟨d, written, rfl⟩ := edit_ok.mp put
      obtain ⟨-, rfl⟩ := loseFree_ok.mp lost
      obtain ⟨fits', rfl⟩ := Bytes.putU16_ok.mp written
      refine ⟨pre ++ (start, found - size) :: post, ⟨bounded, ?_, ?_, ?_, ?_⟩, ?_, ?_⟩
      · exact charted.chain.shrink charted.ascending (fun block member => (charted.inside block member).2.2)
          (by omega) fits'
      · intro block member
        rcases List.mem_append.mp member with inPre | member
        · exact charted.inside block (List.mem_append_left _ inPre)
        · rcases List.mem_cons.mp member with rfl | inPost
          · unfold minCellSize
            exact ⟨place.1, show start + (found - size) ≤ p.usable by omega, show 4 ≤ found - size by omega⟩
          · exact charted.inside block (List.mem_append_right _ (List.mem_cons_of_mem _ inPost))
      · exact ascending_middle (Nat.sub_le found size) charted.ascending
      · simp only [room_append, room_cons]
        change p.freeBytes - size = p.header.contentStart - p.pointersEnd +
          (room pre + (found - size + room post)) + p.header.fragments
        omega
      · change p.header.contentStart ≤ start + (found - size)
        omega
      · intro block member
        rcases List.mem_append.mp member with inPre | member
        · have before := order.2.2 block inPre _ List.mem_cons_self
          right
          dsimp only at before ⊢
          omega
        · rcases List.mem_cons.mp member with rfl | inPost
          · exact .inr (Nat.le_refl _)
          · have after := (List.pairwise_cons.mp order.2.1).1 block inPost
            left
            dsimp only at after ⊢
            omega
    · split at run
      · rename_i few
        obtain ⟨_, mid, link, run⟩ := Action.bind_ok.mp run
        unfold setHeader at run
        rw [Action.modify_bind] at run
        obtain ⟨_, last, written, run⟩ := Action.bind_ok.mp run
        obtain ⟨_, end_, lost, run⟩ := Action.bind_ok.mp run
        obtain ⟨same, rfl⟩ := Action.pure_ok.mp run
        cases same
        obtain ⟨-, rfl⟩ := loseFree_ok.mp lost
        unfold maxFragments at few
        obtain ⟨e, head, rfl, -, chain, -⟩ := unlink_ok charted.bounded.valid (charted.linkable (List.Sublist.refl _))
          charted.chain (by omega) (by omega) link written
        have rest : ∀ block ∈ pre ++ post, block ∈ pre ++ (start, found) :: post := fun block member => by
          rcases List.mem_append.mp member with inPre | inPost
          · exact List.mem_append_left _ inPre
          · exact List.mem_append_right _ (List.mem_cons_of_mem _ inPost)
        refine ⟨pre ++ post, ⟨bounded, chain, fun block member => charted.inside block (rest block member), ?_, ?_⟩,
          place.1, ?_⟩
        · exact List.pairwise_append.mpr ⟨order.1, (List.pairwise_cons.mp order.2.1).2,
            fun a inPre b inPost => order.2.2 a inPre b (List.mem_cons_of_mem _ inPost)⟩
        · simp only [room_append]
          change p.freeBytes - size = p.header.contentStart - p.pointersEnd + (room pre + room post) +
            (p.header.fragments + (found - size))
          omega
        · intro block member
          rcases List.mem_append.mp member with inPre | inPost
          · have before := order.2.2 block inPre _ List.mem_cons_self
            exact .inr before
          · have after := (List.pairwise_cons.mp order.2.1).1 block inPost
            left
            dsimp only at after ⊢
            omega
      · cases run

omit charted in
theorem defragment_charts (bounded : p.Bounded) (run : defragment p = .ok () q) : q.Charted [] := by
  have compact := (defragment_keeps bounded).ok run
  refine ⟨compact.bounded, compact.firstFree, nofun, .nil, ?_⟩
  rw [compact.free, compact.fragments, room_nil]
  rfl

omit charted in
theorem defragmentAndCarve_charts {size start : Nat} (bounded : p.Bounded)
    (run : defragmentAndCarve size p = .ok start q) : q.Charted [] ∧ Clear q [] start size := by
  unfold defragmentAndCarve at run
  obtain ⟨_, mid, packed, run⟩ := Action.bind_ok.mp run
  have charted := defragment_charts bounded packed
  have compact := (defragment_keeps bounded).ok packed
  have free := compact.free
  rw [Action.get_bind] at run
  split at run
  · exact absurd run Action.throw_bind_ok
  · exact charted.carve (by omega) (by omega) run

theorem Charted.allocate {size start : Nat} (wide : 4 ≤ size) (enough : size + pointerSize ≤ p.freeBytes)
    (run : allocate size p = .ok start q) : ∃ blocks', q.Charted blocks' ∧ Clear q blocks' start size := by
  unfold Page.allocate at run
  rw [Nat.max_eq_left (show minCellSize ≤ size from wide), Action.get_bind] at run
  split at run
  · obtain ⟨found, mid, taken, run⟩ := Action.bind_ok.mp run
    cases found with
    | some start =>
      obtain ⟨rfl, rfl⟩ := Action.pure_ok.mp run
      exact charted.takeBlock wide (by omega) taken
    | none =>
      rcases (takeBlock_keeps charted.bounded (by omega)).ok taken with ⟨rfl, -⟩ | ⟨_, none, -⟩
      · dsimp only at run
        split at run
        · exact ⟨blocks, charted.carve (by omega) enough run⟩
        · exact ⟨[], defragmentAndCarve_charts charted.bounded run⟩
      · cases none
  · exact ⟨[], defragmentAndCarve_charts charted.bounded run⟩

omit charted in
theorem Charted.enlist {pre post restPre restPost : List Run} {start size newStart newStop after between left : Nat}
    {before : Option Run} {joined : Bool} (charted : p.Charted (pre ++ post)) (bounded : q.Bounded)
    (lower : p.header.contentStart ≤ start) (upper : start + size ≤ p.usable) (wide : 4 ≤ size)
    (near : pre = [] ∧ before = none ∨ ∃ front block, pre = front ++ [block] ∧ before = some block)
    (right : JoinsRight p start (start + size) newStop after p.header.fragments between post restPost)
    (joins : JoinsLeft p newStart start (start + size) between left joined pre restPre)
    (run : enlist size newStart newStop after left (before.map Prod.fst) (!joined) p = .ok () q) :
    ∃ blocks', q.Charted blocks' := by
  have limits := charted.bounded.usable_bounds
  have header := charted.bounded.valid
  have few := header.fragments
  have free := charted.free
  have ⟨positive, order⟩ := p.pointers_order
  have ends := charted.bounded.gap
  have low := joins.inside p.header.contentStart lower fun block member =>
    (charted.inside block (List.mem_append_left _ member)).1
  have high := right.inside p.usable upper fun block member => (charted.inside block (List.mem_append_right _ member)).2.1
  have grows := joins.grows
  have grows' := right.grows
  have less := right.less
  have less' := joins.less
  have first := right.account
  have second := joins.account
  have rest := charted.ascending.sublist (joins.sub.append right.sub)
  have headerLeft : PageHeader.Valid { p.header with fragments := left } :=
    { header with fragments := show left < 256 by omega }
  simp only [room_append] at free
  unfold Page.enlist at run
  rw [Action.get_bind] at run
  unfold setHeader gainFree at run
  rw [Action.modify_bind, Action.modify_bind] at run
  split at run
  · rename_i border
    -- The run begins where the cells begin, so there is no block in front of it.
    have none : restPre = [] := by
      refine List.eq_nil_iff_forall_not_mem.mpr fun block member => ?_
      have behind := joins.behind block member
      have place := charted.inside block (List.mem_append_left _ (joins.sub.subset member))
      unfold minCellSize at place
      omega
    subst none
    have valid : PageHeader.Valid { p.header with fragments := left, firstFree := after, contentStart := newStop } :=
      { headerLeft with
        firstFree := right.small
        contentPos := Nat.lt_of_lt_of_le (show 0 < start + size by omega) grows'
        contentLe := Nat.le_trans high limits.2 }
    rw [Action.modify_bind] at run
    obtain ⟨d, same, -, rfl⟩ := writeHeader_at valid run
    have same : SameBut p d [] := same
    rw [room_nil] at second
    refine ⟨restPost, bounded, ?_, fun block member => ⟨right.later block member, ?_⟩, rest, ?_⟩
    · refine right.chain.of_same fun block member => ?_
      exact same.sameOn (charted.past (List.mem_append_right _ (right.sub.subset member))).2 nofun
    · exact (charted.inside block (List.mem_append_right _ (right.sub.subset member))).2
    · change p.freeBytes + size = newStop - p.pointersEnd + room restPost + left
      omega
  · obtain ⟨_, mid, put, run⟩ := Action.bind_ok.mp run
    obtain ⟨_, mid', put', run⟩ := Action.bind_ok.mp run
    obtain ⟨d, putData, rfl⟩ := edit_ok.mp put
    obtain ⟨e, putData', rfl⟩ := edit_ok.mp put'
    have marked := marked_of_puts right.small (by omega) putData putData'
    obtain ⟨middle, chainRest, joinedTo⟩ := joins.chain
    obtain ⟨f, head, rfl, -, chain, -⟩ := enchain_ok headerLeft marked (by omega) (by omega) (by omega) chainRest
      joinedTo (fun lone => ⟨joins.alone lone, before_eq_lastStart near⟩) right.chain
      (charted.linkable (joins.sub.trans (List.sublist_append_left pre post))) joins.behind right.later run
    refine ⟨_, bounded, chain, ?_, ascending_insert rest joins.behind right.later (by omega), ?_⟩
    · intro block member
      rcases List.mem_append.mp member with inPre | member
      · exact charted.inside block (List.mem_append_left _ (joins.sub.subset inPre))
      · rcases List.mem_cons.mp member with rfl | inPost
        · unfold minCellSize
          exact ⟨low, show _ + (_ - _) ≤ p.usable by omega, show 4 ≤ _ - _ by omega⟩
        · exact charted.inside block (List.mem_append_right _ (right.sub.subset inPost))
    · simp only [room_append, room_cons]
      change p.freeBytes + size = p.header.contentStart - p.pointersEnd + (room restPre + (_ + room restPost)) + left
      omega

theorem Charted.freeBlock {start size : Nat} (lower : p.header.contentStart ≤ start)
    (upper : start + size ≤ p.usable) (wide : 4 ≤ size) (run : freeBlock start size p = .ok () q) :
    ∃ blocks', q.Charted blocks' := by
  have bounded := ((freeBlock_keeps charted.bounded upper wide).ok run).bounded
  have limits := charted.bounded.usable_bounds
  cases around : Page.neighbours start blocks none with
  | mk before next =>
    obtain ⟨clear, behind, between, left, absorbed, absorbed', run⟩ :=
      freeBlock_parts charted.freeBlocks around run
    obtain ⟨pre, post, rfl, near, chainPre, chainPost, insidePre, insidePost, small⟩ := around_ok charted.chain
      limits.2 (fun block member =>
        have place := charted.inside block member
        ⟨Nat.lt_of_lt_of_le charted.bounded.valid.contentPos place.1, place.2⟩) charted.ascending around clear behind
    have ⟨ascendingPre, ascendingPost, across⟩ := List.pairwise_append.mp charted.ascending
    obtain ⟨restPost, right⟩ := joinsRight start charted.bounded.usable_le chainPost insidePost ascendingPost small absorbed
    obtain ⟨restPre, joins⟩ := joinsLeft (start + size) chainPre near insidePre ascendingPre absorbed'
    have alone : (joinable start before).isNone = !(joinable start before).isSome := by
      cases joinable start before <;> rfl
    rw [alone] at run
    exact charted.enlist bounded lower upper wide near right joins run

theorem Charted.giveBack {start size : Nat} (run : Page.free start size p = .ok () q) :
    ∃ blocks', q.Charted blocks' := by
  have follows := (free_keeps charted.bounded).ok run
  unfold Page.free at run
  rw [Action.get_bind] at run
  by_cases outside : (decide (start < p.header.contentStart) || decide (start + size > p.usable)) = true
  · rw [if_pos outside] at run
    exact absurd run Action.throw_bind_ok
  rw [if_neg outside] at run
  simp only [Bool.or_eq_true, decide_eq_true_eq, not_or] at outside
  dsimp only at run
  split at run
  · obtain ⟨-, header, more⟩ := (freeFragment_keeps charted.bounded).ok run
    unfold Page.freeFragment setHeader gainFree at run
    rw [Action.get_bind] at run
    dsimp only at run
    split at run
    · exact absurd run Action.throw_bind_ok
    rename_i few
    have valid : PageHeader.Valid { p.header with fragments := p.header.fragments + size } :=
      { charted.bounded.valid with fragments := show p.header.fragments + size < 256 by omega }
    rw [Action.modify_bind, Action.modify_bind] at run
    obtain ⟨d, same, -, rfl⟩ := writeHeader_at valid run
    have same : SameBut p d [] := same
    have free := charted.free
    refine ⟨blocks, charted.of_same follows.bounded rfl rfl rfl (fun block member => ?_) ?_⟩
    · exact same.sameOn (charted.past member).2 nofun
    · change p.freeBytes + size = p.header.contentStart - p.pointersEnd + room blocks + (p.header.fragments + size)
      omega
  · exact charted.freeBlock (by omega) (by omega) (by omega) run

theorem Charted.place {i : Nat} {cell : Bytes} (order : i ≤ p.cellCount) (wide : 4 ≤ cell.size)
    (enough : cell.size + pointerSize ≤ p.freeBytes) (few : p.cellCount + 1 ≤ p.geometry.maxCells)
    (run : place i cell p = .ok () q) : ∃ blocks', q.Charted blocks' := by
  have bounded := (place_keeps charted.bounded order wide enough few).ok run
  unfold Page.place setHeader at run
  obtain ⟨start, r, lent, run⟩ := Action.bind_ok.mp run
  have hands := (allocate_keeps charted.bounded wide enough).ok lent
  obtain ⟨blocks', chartedR, past, apart⟩ := charted.allocate wide enough lent
  obtain ⟨_, r1, put, run⟩ := Action.bind_ok.mp run
  obtain ⟨d1, put1, rfl⟩ := edit_ok.mp put
  rw [Action.get_bind] at run
  obtain ⟨_, r2, put, run⟩ := Action.bind_ok.mp run
  obtain ⟨d2, put2, rfl⟩ := edit_ok.mp put
  obtain ⟨_, r3, put, run⟩ := Action.bind_ok.mp run
  obtain ⟨d3, put3, rfl⟩ := edit_ok.mp put
  rw [Action.modify_bind] at run
  obtain ⟨_, r4, lost, run⟩ := Action.bind_ok.mp run
  obtain ⟨-, rfl⟩ := loseFree_ok.mp lost
  have gap := hands.gap
  have spare := hands.spare
  have inside := hands.inside
  have limits := chartedR.bounded.usable_bounds
  have content := chartedR.bounded.content
  have large := charted.bounded.sound.large
  have count : r.cellCount = p.cellCount := hands.fields.cellCount
  have ends := r.pointersEnd_eq
  have startOrder := r.pointers_order
  unfold pointerSize at gap ends spare
  unfold Geometry.maxCells at few
  obtain ⟨fits1, same1⟩ := Bytes.put_ok.mp put1
  have keep1 : ∀ k, k < start ∨ start + cell.size ≤ k → d1.get! k = r.data.get! k := fun k outside =>
    same1 ▸ Bytes.get_overwrite_outside fits1 outside
  obtain ⟨-, keep3, -, -⟩ := insertPointer (r.pointersStart + i * pointerSize) r.pointersEnd
    (by unfold pointerSize; omega) (by omega) put2 put3
  have valid : PageHeader.Valid { r.header with cellCount := r.header.cellCount + 1 } :=
    { chartedR.bounded.valid with cellCount := show r.cellCount + 1 < 65536 by omega }
  obtain ⟨d4, last, -, rfl⟩ := writeHeader_at valid run
  have last : SameBut { r with data := d3 } d4 [] := last
  have free := chartedR.free
  refine ⟨blocks', chartedR.of_same bounded rfl rfl rfl (fun block member k low high => ?_) ?_⟩
  · have away := apart block member
    have behind := (chartedR.past member).1
    unfold Run.Apart at away
    dsimp only at away
    rw [last.2 k (.inr (Nat.le_trans startOrder.2 (Nat.le_trans behind low))) nofun]
    have content := (chartedR.inside block member).1
    change d3.get! k = _
    rw [keep3 k (by omega), keep1 k (by omega)]
  · change r.freeBytes - 2 = r.header.contentStart - (r.pointersStart + (r.cellCount + 1) * 2) + room blocks' +
      r.header.fragments
    omega

theorem Charted.insert {i : Nat} {cell : Bytes} (wide : 4 ≤ cell.size) (run : insert i cell p = .ok () q) :
    ∃ blocks', q.Charted blocks' := by
  unfold Page.insert at run
  rw [Action.get_bind] at run
  by_cases past : i > p.logicalCount
  · rw [if_pos past] at run
    exact absurd run Action.throw_bind_ok
  rw [if_neg past] at run
  by_cases parks : (p.hasParked || decide (cell.size + pointerSize > p.freeBytes) ||
      decide (p.cellCount + 1 > p.geometry.maxCells)) = true
  · rw [if_pos parks] at run
    cases run
    exact ⟨blocks, { charted with bounded := { charted.bounded with } }⟩
  · rw [if_neg parks] at run
    simp only [Bool.or_eq_true, decide_eq_true_eq, not_or, Nat.not_lt] at parks
    have clear : p.parked = [] := by
      have none := parks.1.1
      unfold hasParked at none
      simpa using none
    unfold logicalCount at past
    rw [clear, List.length_nil] at past
    exact charted.place (by omega) wide parks.1.2 parks.2 run

theorem Charted.drop {i : Nat} (run : drop i p = .ok () q) : ∃ blocks', q.Charted blocks' := by
  have bounded := (drop_keeps charted.bounded).ok run
  unfold Page.drop setHeader gainFree at run
  rw [Action.get_bind] at run
  obtain ⟨start, pointed, run⟩ := Action.lift_bind_ok.mp run
  obtain ⟨info, -, run⟩ := Action.lift_bind_ok.mp run
  have inside := pointer_inside pointed
  obtain ⟨_, r, freed, run⟩ := Action.bind_ok.mp run
  have follows := (free_keeps charted.bounded).ok freed
  obtain ⟨blocks', chartedR⟩ := charted.giveBack freed
  obtain ⟨_, r1, moved, run⟩ := Action.bind_ok.mp run
  obtain ⟨d1, move, rfl⟩ := edit_ok.mp moved
  obtain ⟨_, r2, cleared, run⟩ := Action.bind_ok.mp run
  obtain ⟨d2, clear, rfl⟩ := edit_ok.mp cleared
  rw [Action.modify_bind, Action.modify_bind, Action.get_bind] at run
  have ends := r.pointersEnd_eq
  have endsP := p.pointersEnd_eq
  have count : r.cellCount = p.cellCount := follows.fields.cellCount
  have sameEnd := follows.fields.pointersEnd
  have gap := chartedR.bounded.gap
  have free := chartedR.free
  unfold pointerSize at ends endsP
  obtain ⟨-, keep, -⟩ := removePointer (p.pointersStart + i * pointerSize) p.pointersEnd
    (by unfold pointerSize; omega) move clear
  have fewer : PageHeader.Valid { r.header with cellCount := r.header.cellCount - 1 } :=
    { chartedR.bounded.valid with
      cellCount := Nat.lt_of_le_of_lt (Nat.sub_le _ 1) chartedR.bounded.valid.cellCount }
  split at run
  · rename_i none
    change r.cellCount - 1 = 0 at none
    obtain ⟨_, s, emptied, run⟩ := Action.bind_ok.mp run
    unfold clearContent setHeader at emptied
    rw [Action.get_bind] at emptied
    obtain ⟨_, s1, cleared, emptied⟩ := Action.bind_ok.mp emptied
    obtain ⟨d3, -, rfl⟩ := edit_ok.mp cleared
    cases emptied
    obtain ⟨d4, -, rfl⟩ := writeHeader_ok.mp run
    refine ⟨[], bounded, rfl, nofun, .nil, ?_⟩
    change r.usable - r.pointersStart = r.usable - (r.pointersStart + (r.cellCount - 1) * 2) + 0 + 0
    rw [none]
    omega
  · obtain ⟨d4, last, -, rfl⟩ := writeHeader_at (p := { r with
      data := d2
      header := { r.header with cellCount := r.header.cellCount - 1 }
      freeBytes := r.freeBytes + pointerSize }) fewer run
    refine ⟨blocks', chartedR.of_same bounded rfl rfl rfl (fun block member k low high => ?_) ?_⟩
    · have behind := chartedR.past member
      rw [last.2 k (.inr (Nat.le_trans behind.2 low)) nofun]
      exact keep k (.inr (by omega))
    · change r.freeBytes + 2 = r.header.contentStart - (r.pointersStart + (r.cellCount - 1) * 2) + room blocks' +
        r.header.fragments
      omega

end Charted

theorem parse_long {number : PageNo} {data : Bytes} {g : Geometry} {limits : PayloadLimits}
    (run : parse number data g limits = .ok p) : g.pageSize ≤ data.size := by
  unfold parse at run
  dsimp only at run
  split at run
  · exact absurd run Except.throw_bind_ok
  · rename_i long
    simp only [Bool.or_eq_true, decide_eq_true_eq, not_or, Nat.not_lt] at long
    exact long.1

theorem parse_charts {number : PageNo} {data : Bytes} {g : Geometry} {limits : PayloadLimits} (sound : g.Sound)
    (fair : limits.Fair) (run : parse number data g limits = .ok p) : ∃ blocks, p.Charted blocks := by
  have long := parse_long run
  obtain ⟨-, rfl, rfl, rfl, parsed⟩ := parse_ok run
  have bounded : p.Bounded :=
    ⟨sound, long, parsed.header.valid, parsed.gap, parsed.content, fair⟩
  have free := parsed.free
  unfold countFreeBytes at free
  obtain ⟨blocks, found, free⟩ := Except.bind_ok.mp free
  dsimp only at free
  split at free
  · exact absurd free Except.throw_bind_ok
  obtain ⟨chain, inside, ascending⟩ := bounded.blocks found
  exact ⟨blocks, bounded, chain, inside, ascending, (Except.pure_ok.mp free).symm⟩

end Page

namespace Cell

/-- The bytes of a cell that was made for insertion, before or after its chain was named in it. -/
inductive Encoded : Bytes → Prop
  | whole {kind : PageKind} {limits : PayloadLimits} {left : Option PageNo} {row : RowId} {payload : Bytes}
      {cell : EncodedCell} : encode kind limits left row payload = .ok cell → Encoded cell.bytes
  | linked {kind : PageKind} {limits : PayloadLimits} {left : Option PageNo} {row : RowId} {payload : Bytes}
      {cell done : EncodedCell} {page : PageNo} : encode kind limits left row payload = .ok cell →
      cell.linkTo page = .ok done → Encoded done.bytes

section Size

variable {kind : PageKind} {limits : PayloadLimits} {left : Option PageNo} {row : RowId} {payload : Bytes}
  {cell : EncodedCell}

theorem size_pad_ge (d : Bytes) : d.size ≤ (pad d).size ∧ minCellSize ≤ (pad d).size := by
  rw [size_pad]
  exact ⟨Nat.le_max_left _ _, Nat.le_max_right _ _⟩

theorem encode_size (run : encode kind limits left row payload = .ok cell) :
    minCellSize ≤ cell.bytes.size ∧ ∀ slot, cell.slot = some slot → slot + 4 ≤ cell.bytes.size := by
  by_cases entry : kind = .tableInterior
  · subst entry
    cases left with
    | none => cases run
    | some page =>
      cases run
      refine ⟨?_, nofun⟩
      rw [ByteArray.size_append]
      exact Nat.le_add_right 4 _
  · obtain ⟨child, -, -, made⟩ := encode_ok entry run
    split at made
    · subst made
      refine ⟨(size_pad_ge _).2, fun slot same => ?_⟩
      cases same
      refine Nat.le_trans (Nat.le_of_eq ?_) (size_pad_ge _).1
      rw [ByteArray.size_append, Bytes.size_zeros]
    · subst made
      exact ⟨(size_pad_ge _).2, nofun⟩

end Size

theorem Encoded.size_ge {cell : Bytes} (encoded : Encoded cell) : minCellSize ≤ cell.size := by
  cases encoded with
  | whole run => exact (encode_size run).1
  | linked run link =>
    obtain ⟨wide, slots⟩ := encode_size run
    unfold EncodedCell.linkTo at link
    split at link
    · rename_i slot same
      cases link
      rw [Bytes.size_overwrite (slots slot same)]
      exact wide
    · cases link

end Cell

namespace PageChange

/-- Cells may come and go and be moved together. New cells are cells as they are made for insertion, of any kind. -/
def Admitted : PageChange → Prop
  | insert _ cell => Cell.Encoded cell
  | drop _ => True
  | defragment => True
  | rebuild .. => False

end PageChange

def Guarded.onPage : PageChange → Action Page Unit
  | .insert i cell => insert i cell
  | .drop i => drop i
  | .defragment => defragment
  | .rebuild kind cells rightChild => Page.rebuild kind cells rightChild

namespace Page

variable {p q : Page}

/-- How the changes end one after the other, and what each leaves for the next. A failure stops none of those
behind it. -/
def trail (run : PageChange → Action Page Unit) : Page → List PageChange → List (Except Error Unit × Page)
  | _, [] => []
  | p, change :: rest =>
    let step := (run change).outcome p
    step :: trail run step.2 rest

/-- The free blocks can be followed, lie in the content area in ascending order and without overlap, and with the gap
and the fragments they are what is free. -/
def Reckoned (p : Page) : Prop :=
  p.pointersEnd ≤ p.header.contentStart ∧ ∃ blocks, p.freeBlocks = .ok blocks ∧
    (∀ block ∈ blocks, p.header.contentStart ≤ block.1 ∧ block.1 + block.2 ≤ p.usable) ∧
    blocks.Pairwise (fun a b => a.1 + a.2 ≤ b.1) ∧
    p.freeBytes = p.header.contentStart - p.pointersEnd + room blocks + p.header.fragments

theorem Charted.reckoned {blocks : List Run} (charted : p.Charted blocks) : p.Reckoned :=
  ⟨charted.bounded.gap, blocks, charted.freeBlocks,
    fun block member => ⟨(charted.inside block member).1, (charted.inside block member).2.1⟩, charted.ascending,
    charted.free⟩

section Changes

variable {change : PageChange} {changes : List PageChange}

theorem Bounded.step (bounded : p.Bounded) (admitted : change.Admitted) :
    Guarded.onPage change p = change.onPage p ∧ Keeps change.onPage p fun _ q => q.Bounded := by
  cases change with
  | insert i cell =>
    have wide : 4 ≤ cell.size := Cell.Encoded.size_ge admitted
    exact ⟨Guarded.insert_eq bounded wide, insert_keeps bounded wide⟩
  | drop i => exact ⟨Guarded.drop_eq bounded i, drop_keeps bounded⟩
  | defragment => exact ⟨Guarded.defragment_eq bounded, (defragment_keeps bounded).imp fun _ _ done => done.bounded⟩
  | rebuild => exact admitted.elim

theorem Charted.step {blocks : List Run} (charted : p.Charted blocks) (admitted : change.Admitted)
    (run : change.onPage p = .ok () q) : ∃ blocks', q.Charted blocks' := by
  cases change with
  | insert i cell => exact charted.insert (Cell.Encoded.size_ge admitted) run
  | drop i => exact charted.drop run
  | defragment => exact ⟨[], defragment_charts charted.bounded run⟩
  | rebuild => exact admitted.elim

theorem Bounded.trail (bounded : p.Bounded) (admitted : ∀ change ∈ changes, change.Admitted) :
    p.trail Guarded.onPage changes = p.trail PageChange.onPage changes ∧
      ∀ step ∈ p.trail PageChange.onPage changes, ∀ e, step.1 = .error e → e.Reported := by
  induction changes generalizing p with
  | nil => exact ⟨rfl, nofun⟩
  | cons change rest ih =>
    obtain ⟨same, keeps⟩ := bounded.step (admitted change List.mem_cons_self)
    have later := fun {q : Page} (bounded : q.Bounded) =>
      ih bounded fun change member => admitted change (List.mem_cons_of_mem _ member)
    unfold Page.trail Action.outcome
    rw [same]
    cases run : change.onPage p with
    | ok a q =>
      obtain ⟨agree, reported⟩ := later (keeps.ok run)
      refine ⟨congrArg _ agree, fun step member e failed => ?_⟩
      rcases List.mem_cons.mp member with rfl | member
      · cases failed
      · exact reported step member e failed
    | error e q =>
      obtain ⟨bounded', names⟩ := keeps.error run
      obtain ⟨agree, reported⟩ := later bounded'
      refine ⟨congrArg _ agree, fun step member e failed => ?_⟩
      rcases List.mem_cons.mp member with rfl | member
      · cases failed
        exact names
      · exact reported step member e failed

theorem Charted.after {blocks : List Run} (charted : p.Charted blocks)
    (admitted : ∀ change ∈ changes, change.Admitted)
    (well : ∀ step ∈ p.trail PageChange.onPage changes, step.1 = .ok ()) : (p.after changes).Reckoned := by
  induction changes generalizing p blocks with
  | nil => exact charted.reckoned
  | cons change rest ih =>
    unfold Page.trail Action.outcome at well
    unfold Page.after
    rw [List.foldl_cons]
    cases run : change.onPage p with
    | ok a q =>
      rw [run] at well
      obtain ⟨blocks', charted'⟩ := charted.step (admitted change List.mem_cons_self) run
      rw [Action.final_of_ok run]
      exact ih charted' (fun change member => admitted change (List.mem_cons_of_mem _ member))
        fun step member => well step (List.mem_cons_of_mem _ member)
    | error e q =>
      rw [run] at well
      exact nomatch well _ List.mem_cons_self

theorem take_trail (run : PageChange → Action Page Unit) (p : Page) (changes : List PageChange) (k : Nat) :
    (p.trail run changes).take k = p.trail run (changes.take k) := by
  induction changes generalizing p k with
  | nil =>
    rw [List.take_nil]
    exact List.take_nil
  | cons change rest ih =>
    cases k with
    | zero => rfl
    | succ k => exact congrArg _ (ih _ k)

end Changes

/-- Any bytes that are read as a page stay a page in bounds. Cells may come, go and be moved, and a change may fail
on what it finds: no access lies outside and no difference falls below zero, and whatever fails names the rule that
the page breaks. As long as nothing has failed, the free space is accounted for. -/
theorem hostile_in_bounds {c : Config} (valid : c.validate = .ok ()) {number : PageNo} {data : Bytes} {p : Page}
    (read : parse number data (Geometry.ofPage number c.pageSize c.usableSize) (PayloadLimits.ofConfig c) = .ok p)
    {changes : List PageChange} (admitted : ∀ change ∈ changes, change.Admitted) :
    p.trail Guarded.onPage changes = p.trail PageChange.onPage changes ∧
      (∀ step ∈ p.trail PageChange.onPage changes, ∀ e, step.1 = .error e → e.Reported) ∧
      ∀ k, (∀ step ∈ (p.trail PageChange.onPage changes).take k, step.1 = .ok ()) →
        (p.after (changes.take k)).Reckoned := by
  obtain ⟨blocks, charted⟩ := parse_charts (Config.geometry_sound valid number)
    (PayloadLimits.fair_of_config valid) read
  obtain ⟨same, reported⟩ := charted.bounded.trail admitted
  refine ⟨same, reported, fun k well => ?_⟩
  rw [take_trail] at well
  exact charted.after (fun change member => admitted change (List.mem_of_mem_take member)) well

/-- A page on which two pointers name one cell. Once it was dropped, the second one points into the gap. -/
def twice : Bytes :=
  Bytes.ofList [13, 0, 0, 0, 2, 1, 244, 0, 1, 244, 1, 244] ++ Bytes.zeros 488 ++ Bytes.ofList [3, 1, 97, 98, 99] ++
    Bytes.zeros 7

def twiceDropped : List PageChange :=
  [.drop 0, .insert 0 (Bytes.ofList [3, 2, 100, 101, 102]), .drop 1, .defragment]

theorem twice_in_bounds : ∃ p, Config.validate { pageSize := 512 } = .ok () ∧
    parse 2 twice (Geometry.ofPage 2 512 512) (PayloadLimits.ofConfig { pageSize := 512 }) = .ok p ∧
    (∀ change ∈ twiceDropped, change.Admitted) ∧
    p.trail Guarded.onPage twiceDropped = p.trail PageChange.onPage twiceDropped ∧
    ∀ step ∈ p.trail PageChange.onPage twiceDropped, ∀ e, step.1 = .error e → e.Reported := by
  have reads : (parse 2 twice (Geometry.ofPage 2 512 512)
      (PayloadLimits.ofConfig { pageSize := 512 })).isOk = true := by decide +kernel
  cases read : parse 2 twice (Geometry.ofPage 2 512 512) (PayloadLimits.ofConfig { pageSize := 512 }) with
  | error e =>
    rw [read] at reads
    cases reads
  | ok p =>
    have admitted : ∀ change ∈ twiceDropped, change.Admitted := by
      intro change member
      rcases List.mem_cons.mp member with rfl | member
      · trivial
      rcases List.mem_cons.mp member with rfl | member
      · exact @Cell.Encoded.whole .tableLeaf (.ofConfig { pageSize := 512 }) none 2 (Bytes.ofList [100, 101, 102])
          ⟨Bytes.ofList [3, 2, 100, 101, 102], 3, [], none⟩ rfl
      rcases List.mem_cons.mp member with rfl | member
      · trivial
      · cases List.mem_singleton.mp member
        trivial
    obtain ⟨same, reported, -⟩ := hostile_in_bounds (c := { pageSize := 512 }) rfl read admitted
    exact ⟨p, rfl, rfl, admitted, same, reported⟩

end Page

end TreeFile
