import TreeFile.Page.Space
import TreeFile.Proofs.Page.Layout

/-!
Giving out space on a page and taking it back. Both keep the content area made up of runs that do
not meet, and leave the runs of others as they are.
-/

namespace TreeFile

namespace FreeChain

variable {d e : Bytes} {blocks pre post : List Run} {start stop middle : Nat}

theorem append : FreeChain d start (pre ++ post) stop ↔
    ∃ middle, FreeChain d start pre middle ∧ FreeChain d middle post stop := by
  induction pre generalizing start with
  | nil =>
    constructor
    · exact fun chain => ⟨start, rfl, chain⟩
    · rintro ⟨_, rfl, chain⟩
      exact chain
  | cons block rest ih =>
    constructor
    · rintro ⟨here, size, chain⟩
      obtain ⟨middle, first, second⟩ := ih.mp chain
      exact ⟨middle, ⟨here, size, first⟩, second⟩
    · rintro ⟨middle, ⟨here, size, first⟩, second⟩
      exact ⟨here, size, ih.mpr ⟨middle, first, second⟩⟩

theorem of_same (chain : FreeChain d start blocks stop)
    (same : ∀ block ∈ blocks, Bytes.SameOn d e block.1 (block.1 + 4)) :
    FreeChain e start blocks stop := by
  induction blocks generalizing start with
  | nil => exact chain
  | cons block rest ih =>
    obtain ⟨here, size, chain⟩ := chain
    have head := same block List.mem_cons_self
    refine ⟨here, ?_, ?_⟩
    · rw [head.at16 (by omega) (by omega)]
      exact size
    · rw [head.at16 (by omega) (by omega)]
      exact ih chain fun other member => same other (List.mem_cons_of_mem block member)

theorem shrink {size less : Nat} (chain : FreeChain d start (pre ++ (middle, size) :: post) stop)
    (order : (pre ++ (middle, size) :: post).Pairwise fun a b => a.1 + a.2 ≤ b.1)
    (wide : ∀ block ∈ pre ++ (middle, size) :: post, 4 ≤ block.2) (small : less < 65536)
    (fits : middle + 2 + 2 ≤ d.size) :
    FreeChain (d.overwrite (middle + 2) (Bytes.ofNat16 less)) start (pre ++ (middle, less) :: post) stop := by
  have keep : ∀ i, i < middle + 2 ∨ middle + 4 ≤ i →
      (d.overwrite (middle + 2) (Bytes.ofNat16 less)).get! i = d.get! i :=
    fun i outside => Bytes.get_overwrite_outside fits outside
  have own := wide _ (List.mem_append_right pre List.mem_cons_self)
  obtain ⟨between, first, here, length, second⟩ := append.mp chain
  have across := List.pairwise_append.mp order
  refine append.mpr ⟨between, first.of_same ?_, here, ?_, ?_⟩
  · intro other inPre i lower upper
    have before := across.2.2 other inPre _ List.mem_cons_self
    have otherWide := wide other (List.mem_append_left _ inPre)
    exact keep i (by dsimp only at before; omega)
  · rw [Bytes.at16_overwrite_same fits, Nat.mod_eq_of_lt small]
  · have next := Bytes.at16_overwrite (i := middle) (c := Bytes.ofNat16 less) fits (.inl (Nat.le_refl _))
    dsimp only at second own ⊢
    rw [next]
    apply second.of_same
    intro other inPost i lower upper
    have after := (List.pairwise_cons.mp across.2.1).1 other inPost
    exact keep i (by dsimp only at after; omega)

end FreeChain

def lastStart : (link : Option Nat) → List Run → Option Nat
  | link, [] => link
  | _, block :: rest => lastStart (some block.1) rest

theorem lastStart_append (link : Option Nat) (pre : List Run) (block : Run) :
    lastStart link (pre ++ [block]) = some block.1 := by
  induction pre generalizing link with
  | nil => rfl
  | cons first rest ih => exact ih (some first.1)

namespace Page

variable {p q : Page}

theorem edit_ok {α : Type} {act : Action Bytes α} {a : α} :
    edit act p = .ok a q ↔ ∃ d, act p.data = .ok a d ∧ q = { p with data := d } :=
  Action.zoom_ok

theorem writeHeader_ok : writeHeader p = .ok () q ↔
    ∃ d, p.header.write p.headerStart p.data = .ok () d ∧ q = { p with data := d } := edit_ok

theorem loseFree_ok {n : Nat} : loseFree n p = .ok () q ↔
    n ≤ p.freeBytes ∧ q = { p with freeBytes := p.freeBytes - n } := by
  unfold loseFree
  rw [Action.get_bind]
  split
  · rename_i enough
    constructor
    · intro run
      cases run
      exact ⟨enough, rfl⟩
    · rintro ⟨-, rfl⟩
      rfl
  · rename_i few
    constructor
    · intro run
      cases run
    · rintro ⟨enough, -⟩
      exact absurd enough few

structure KeepsFields (p q : Page) : Prop where
  number : q.number = p.number
  geometry : q.geometry = p.geometry
  limits : q.limits = p.limits
  parked : q.parked = p.parked
  kind : q.header.kind = p.header.kind
  rightChild : q.header.rightChild = p.header.rightChild
  cellCount : q.header.cellCount = p.header.cellCount

theorem KeepsFields.trans {r : Page} (first : KeepsFields p q) (second : KeepsFields q r) : KeepsFields p r :=
  ⟨second.number.trans first.number, second.geometry.trans first.geometry,
    second.limits.trans first.limits, second.parked.trans first.parked,
    second.kind.trans first.kind, second.rightChild.trans first.rightChild,
    second.cellCount.trans first.cellCount⟩

section KeepsFields

variable (fields : KeepsFields p q)

include fields

theorem KeepsFields.headerStart : q.headerStart = p.headerStart := congrArg Geometry.headerStart fields.geometry

theorem KeepsFields.usable : q.usable = p.usable := congrArg Geometry.usableSize fields.geometry

theorem KeepsFields.pointersStart : q.pointersStart = p.pointersStart := by
  unfold Page.pointersStart Page.kind
  rw [fields.headerStart, fields.kind]

theorem KeepsFields.pointersEnd : q.pointersEnd = p.pointersEnd := by
  unfold Page.pointersEnd Page.cellCount
  rw [fields.pointersStart, fields.cellCount]

end KeepsFields

def SameBut (p : Page) (d : Bytes) (runs : List Run) : Prop :=
  d.size = p.data.size ∧
    ∀ i, i < p.headerStart ∨ p.pointersStart ≤ i →
      (∀ run ∈ runs, i < run.1 ∨ run.1 + run.2 ≤ i) → d.get! i = p.data.get! i

theorem SameBut.sameOn {d : Bytes} {runs : List Run} (same : SameBut p d runs) {a b : Nat}
    (outside : p.pointersStart ≤ a) (apart : ∀ run ∈ runs, b ≤ run.1 ∨ run.1 + run.2 ≤ a) :
    Bytes.SameOn p.data d a b := by
  intro i lower upper
  apply same.2 i (by omega)
  intro run member
  have away := apart run member
  omega

theorem SameBut.mono {d : Bytes} {runs more : List Run} (same : SameBut p d runs)
    (sub : ∀ run ∈ runs, run ∈ more) : SameBut p d more :=
  ⟨same.1, fun i outside apart => same.2 i outside fun run member => apart run (sub run member)⟩

theorem SameBut.trans {e : Bytes} {runs : List Run} (first : SameBut p q.data runs)
    (fields : KeepsFields p q) (second : SameBut q e runs) : SameBut p e runs := by
  refine ⟨second.1.trans first.1, fun i outside apart => ?_⟩
  rw [second.2 i (by rw [fields.headerStart, fields.pointersStart]; exact outside) apart]
  exact first.2 i outside apart

theorem writeHeader_at (valid : p.header.Valid) (run : writeHeader p = .ok () q) :
    ∃ d, SameBut p d [] ∧ PageHeader.At d p.headerStart p.header ∧ q = { p with data := d } := by
  obtain ⟨d, written, rfl⟩ := writeHeader_ok.mp run
  obtain ⟨⟨size, outside⟩, here⟩ := PageHeader.write_ok valid written
  exact ⟨d, ⟨size, fun i away _ => outside i away⟩, here, rfl⟩

theorem Area.remake {taken blocks taken' blocks' : List Run} (area : Area p taken blocks)
    (fields : KeepsFields p q) (size : q.data.size = p.data.size)
    (header : PageHeader.At q.data p.headerStart q.header)
    (gap : p.pointersEnd ≤ q.header.contentStart) (content : q.header.contentStart ≤ p.usable)
    (chain : FreeChain q.data q.header.firstFree blocks' 0)
    (inside : ∀ run ∈ taken' ++ blocks',
      q.header.contentStart ≤ run.1 ∧ run.1 + run.2 ≤ p.usable ∧ minCellSize ≤ run.2)
    (apart : (taken' ++ blocks').Pairwise Run.Apart)
    (ascending : blocks'.Pairwise fun a b => a.1 + a.2 ≤ b.1)
    (account : q.header.contentStart + room taken' + room blocks' + q.header.fragments = p.usable)
    (free : q.freeBytes =
      q.header.contentStart - p.pointersEnd + room blocks' + q.header.fragments) :
    Area q taken' blocks' where
  sound := by
    rw [fields.geometry]
    exact area.sound
  size := by
    rw [size, fields.geometry]
    exact area.size
  header := by
    rw [fields.headerStart]
    exact header
  gap := by
    rw [fields.pointersEnd]
    exact gap
  content := by
    rw [fields.usable]
    exact content
  chain := chain
  inside := by
    rw [fields.usable]
    exact inside
  apart := apart
  ascending := ascending
  account := by
    rw [fields.usable]
    exact account
  free := by
    rw [fields.pointersEnd]
    exact free

theorem Area.past_pointers {taken blocks : List Run} (area : Area p taken blocks) {run : Run}
    (member : run ∈ taken ++ blocks) : p.pointersEnd ≤ run.1 ∧ p.pointersStart ≤ run.1 := by
  have inside := area.inside run member
  have gap := area.gap
  have ends := p.pointersEnd_eq
  omega

theorem Area.start_bounds {taken blocks : List Run} (_ : Area p taken blocks) :
    8 ≤ p.pointersStart ∧ p.pointersStart ≤ p.pointersEnd := by
  have bounds := p.kind.headerSize_bounds
  have first := p.pointersStart_eq
  have last := p.pointersEnd_eq
  omega

theorem carve_ok {taken blocks : List Run} {size start : Nat} (area : Area p taken blocks)
    (wide : 4 ≤ size) (fits : p.pointersEnd + size ≤ p.header.contentStart)
    (run : carve size p = .ok start q) :
    Area q ((start, size) :: taken) blocks ∧ KeepsFields p q ∧ SameBut p q.data [] ∧
      q.header.contentStart + size = p.header.contentStart := by
  have ⟨positive, order⟩ := area.start_bounds
  have valid : PageHeader.Valid { p.header with
      contentStart := p.header.contentStart - size } :=
    { area.header.valid with
      contentPos := show 0 < p.header.contentStart - size by omega
      contentLe := Nat.le_trans (Nat.sub_le _ _) area.header.contentLe }
  unfold carve at run
  rw [Action.get_bind, if_pos (by omega)] at run
  unfold setHeader at run
  rw [Action.modify_bind] at run
  obtain ⟨_, mid, written, run⟩ := Action.bind_ok.mp run
  obtain ⟨_, last, lost, run⟩ := Action.bind_ok.mp run
  rw [Action.get_bind] at run
  obtain ⟨rfl, rfl⟩ := Action.pure_ok.mp run
  obtain ⟨d, same, here, rfl⟩ := writeHeader_at valid written
  obtain ⟨enough, rfl⟩ := loseFree_ok.mp lost
  have same : SameBut p d [] := same
  have account := area.account
  have free := area.free
  dsimp only at enough ⊢
  refine ⟨?_, ⟨rfl, rfl, rfl, rfl, rfl, rfl, rfl⟩, same, by omega⟩
  refine area.remake ⟨rfl, rfl, rfl, rfl, rfl, rfl, rfl⟩ same.1 here ?_ ?_ ?_ ?_ ?_ ?_ ?_ ?_
  all_goals try dsimp only
  · omega
  · have content := area.content
    omega
  · apply area.chain.of_same
    intro block member
    exact same.sameOn (area.past_pointers (List.mem_append_right _ member)).2 nofun
  · intro run member
    have content := area.content
    rcases List.mem_cons.mp member with rfl | member
    · dsimp only
      unfold minCellSize
      omega
    · have inside := area.inside run member
      omega
  · apply List.pairwise_cons.mpr
    refine ⟨fun run member => ?_, area.apart⟩
    have inside := area.inside run member
    left
    dsimp only
    omega
  · exact area.ascending
  · rw [room_cons]
    dsimp only
    omega
  · omega

theorem bestFit_cons (size : Nat) (link : Option Nat) (block : Run) (rest : List Run)
    (best : Option (Option Nat × Nat × Nat)) :
    ∃ better : Bool, (better = true → size ≤ block.2) ∧
      bestFit size link (block :: rest) best = bestFit size (some block.1) rest
        (if better = true then some (link, block.1, block.2) else best) :=
  ⟨_, fun better => of_decide_eq_true (Bool.and_eq_true_iff.mp better).1, rfl⟩

theorem bestFit_found {size start found : Nat} {l : Option Nat} (blocks : List Run)
    (link : Option Nat) (best : Option (Option Nat × Nat × Nat))
    (run : bestFit size link blocks best = some (l, start, found)) :
    best = some (l, start, found) ∨
      ∃ pre post, blocks = pre ++ (start, found) :: post ∧ size ≤ found ∧
        l = lastStart link pre := by
  induction blocks generalizing link best with
  | nil => exact .inl run
  | cons block rest ih =>
    obtain ⟨better, enough, shape⟩ := bestFit_cons size link block rest best
    rw [shape] at run
    rcases ih _ _ run with taken | ⟨pre, post, rfl, fits, rfl⟩
    · split at taken
      · rename_i chosen
        cases taken
        exact .inr ⟨[], rest, rfl, enough chosen, rfl⟩
      · exact .inl taken
    · exact .inr ⟨block :: pre, post, rfl, fits, rfl⟩

structure Linkable (p : Page) (blocks : List Run) : Prop where
  past : ∀ block ∈ blocks, p.pointersStart ≤ block.1 ∧ minCellSize ≤ block.2
  ascending : blocks.Pairwise fun a b => a.1 + a.2 ≤ b.1

theorem setLink_ok {pre : List Run} {middle next : Nat} (small : next < 65536)
    (header : p.header.Valid)
    (chain : FreeChain p.data p.header.firstFree pre middle) (linkable : Linkable p pre)
    (run : setLink (lastStart none pre) next p = .ok () q) :
    ∃ d first, q = { p with data := d, header := { p.header with firstFree := first } } ∧
      first < 65536 ∧ FreeChain d first pre next ∧ SameBut p d pre := by
  rcases List.eq_nil_or_concat pre with rfl | ⟨front, block, rfl⟩
  · have run : (setHeader (fun h => { h with firstFree := next }) >>= fun _ => writeHeader) p =
        .ok () q := run
    unfold setHeader at run
    rw [Action.modify_bind] at run
    have valid : PageHeader.Valid { p.header with firstFree := next } :=
      { header with firstFree := small }
    obtain ⟨d, same, -, rfl⟩ := writeHeader_at valid run
    exact ⟨d, next, rfl, small, rfl, same⟩
  · rw [List.concat_eq_append] at chain linkable run ⊢
    rw [lastStart_append] at run
    obtain ⟨d, put, rfl⟩ := edit_ok.mp run
    obtain ⟨fits, rfl⟩ := Bytes.putU16_ok.mp put
    have last : block ∈ front ++ [block] := List.mem_append_right _ List.mem_cons_self
    obtain ⟨past, wide⟩ := linkable.past block last
    unfold minCellSize at wide
    have size := Bytes.size_overwrite (c := Bytes.ofNat16 next) fits
    have keep : ∀ i, i < block.1 ∨ block.1 + 2 ≤ i →
        (p.data.overwrite block.1 (Bytes.ofNat16 next)).get! i = p.data.get! i := fun i outside =>
      Bytes.get_overwrite_outside fits outside
    refine ⟨_, p.header.firstFree, rfl, header.firstFree, ?_, size, ?_⟩
    · obtain ⟨at_, first, here, length, -⟩ := FreeChain.append.mp chain
      refine FreeChain.append.mpr ⟨at_, first.of_same ?_, here, ?_, ?_⟩
      · intro other member i lower upper
        have before := (List.pairwise_append.mp linkable.ascending).2.2 other member block
          List.mem_cons_self
        have otherWide := (linkable.past other (List.mem_append_left _ member)).2
        unfold minCellSize at otherWide
        exact keep i (by omega)
      · have apart := Bytes.at16_overwrite (i := block.1 + 2) (c := Bytes.ofNat16 next) fits
          (.inr (Nat.le_refl _))
        rw [apart]
        exact length
      · rw [Bytes.at16_overwrite_same fits, Nat.mod_eq_of_lt small]
        rfl
    · intro i _ apart
      have away := apart block last
      exact keep i (by omega)

theorem Area.linkable {taken blocks pre : List Run} (area : Area p taken blocks)
    (sub : pre.Sublist blocks) : Linkable p pre where
  past := fun _ member =>
    have inBlocks := List.mem_append_right _ (sub.subset member)
    ⟨(area.past_pointers inBlocks).2, (area.inside _ inBlocks).2.2⟩
  ascending := area.ascending.sublist sub

theorem Area.shrink {taken pre post : List Run} {start found size : Nat} {d : Bytes}
    (area : Area p taken (pre ++ (start, found) :: post)) (wide : 4 ≤ size)
    (fits : size + 4 ≤ found)
    (put : Bytes.putU16 (start + 2) (found - size) p.data = .ok () d) (enough : size ≤ p.freeBytes) :
    Area { p with data := d, freeBytes := p.freeBytes - size }
      ((start + (found - size), size) :: taken) (pre ++ (start, found - size) :: post) ∧
      SameBut p d [(start, found)] := by
  obtain ⟨room, rfl⟩ := Bytes.putU16_ok.mp put
  have member : (start, found) ∈ taken ++ (pre ++ (start, found) :: post) :=
    List.mem_append_right _ (List.mem_append_right _ List.mem_cons_self)
  have inside := area.inside _ member
  have past := area.past_pointers member
  have usable := area.usable_bounds
  have account := area.account
  have free := area.free
  have header := p.pointersStart_eq
  simp only [room_append, room_cons] at account free
  have size' := Bytes.size_overwrite (c := Bytes.ofNat16 (found - size)) room
  have keep : ∀ i, i < start + 2 ∨ start + 4 ≤ i →
      (p.data.overwrite (start + 2) (Bytes.ofNat16 (found - size))).get! i = p.data.get! i :=
    fun i outside => Bytes.get_overwrite_outside room outside
  have same : SameBut p (p.data.overwrite (start + 2) (Bytes.ofNat16 (found - size)))
      [(start, found)] := by
    refine ⟨size', fun i _ apart => keep i ?_⟩
    have away := apart _ List.mem_cons_self
    dsimp only at away
    omega
  dsimp only at inside past
  have apart := pairwise_apart_middle.mp area.apart
  have block : Run.Apart (start + (found - size), size) (start, found - size) := .inr (Nat.le_refl _)
  have isBlock : (start, found) ∈ pre ++ (start, found) :: post :=
    List.mem_append_right _ List.mem_cons_self
  refine ⟨?_, same⟩
  refine area.remake ⟨rfl, rfl, rfl, rfl, rfl, rfl, rfl⟩ size' ?_ area.gap area.content ?_ ?_ ?_ ?_
    ?_ ?_
  all_goals try dsimp only
  · exact area.header.of_sameOn size' fun i lower upper => keep i (by
      have kind : p.kind = p.header.kind := rfl
      rw [kind] at header
      omega)
  · exact area.chain.shrink area.ascending (fun block isBlock => (area.inside block
      (List.mem_append_right _ isBlock)).2.2) (by omega) room
  · intro run member
    unfold minCellSize
    rw [List.cons_append, List.mem_cons, mem_middle_right] at member
    rcases member with rfl | rfl | other
    · dsimp only
      omega
    · dsimp only
      omega
    · exact area.inside run (mem_middle_right.mpr (.inr other))
  · rw [List.cons_append, List.pairwise_cons, pairwise_apart_middle]
    refine ⟨fun run member => ?_, fun other member => ?_, apart.2⟩
    · rcases mem_middle_right.mp member with rfl | other
      · exact block
      · exact (apart.1 run other).of_inside (show start ≤ start + (found - size) by omega)
          (show start + (found - size) + size ≤ start + found by omega)
    · exact (apart.1 other member).of_inside (Nat.le_refl start)
        (show start + (found - size) ≤ start + found by omega)
  · exact ascending_middle (Nat.sub_le found size) area.ascending
  · simp only [room_append, room_cons]
    omega
  · simp only [room_append, room_cons]
    omega

theorem unlink_ok {pre post : List Run} {start found more : Nat} {q r : Page} (header : p.header.Valid)
    (linkable : Linkable p (pre ++ (start, found) :: post))
    (chain : FreeChain p.data p.header.firstFree (pre ++ (start, found) :: post) 0)
    (inPage : start + 2 ≤ p.data.size) (few : p.header.fragments + more < 256)
    (link : setLink (lastStart none pre) ((p.data.u16? start).getD 0) p = .ok () q)
    (written : writeHeader { q with
      header := { q.header with fragments := q.header.fragments + more } } = .ok () r) :
    ∃ e head, r = { p with
        data := e
        header := { p.header with firstFree := head, fragments := p.header.fragments + more } } ∧
      head < 65536 ∧ FreeChain e head (pre ++ post) 0 ∧ SameBut p e pre ∧
      PageHeader.At e p.headerStart r.header := by
  obtain ⟨middle, first, here, length, second⟩ := FreeChain.append.mp chain
  have order := List.pairwise_append.mp linkable.ascending
  have linkablePre : Linkable p pre :=
    ⟨fun block member => linkable.past block (List.mem_append_left _ member), order.1⟩
  rw [Bytes.u16?_of_le inPage, Option.getD_some] at link
  obtain ⟨d, head, rfl, small, chainD, same⟩ :=
    setLink_ok (Bytes.at16_lt p.data start) header first linkablePre link
  have valid : PageHeader.Valid { p.header with
      firstFree := head
      fragments := p.header.fragments + more } :=
    { header with firstFree := small, fragments := few }
  obtain ⟨e, last, lastAt, rfl⟩ := writeHeader_at valid written
  have last : SameBut { p with data := d, header := { p.header with firstFree := head } } e [] := last
  have whole : SameBut p e pre := same.trans
    (q := { p with data := d, header := { p.header with firstFree := head } })
    ⟨rfl, rfl, rfl, rfl, rfl, rfl, rfl⟩ (last.mono nofun)
  refine ⟨e, head, rfl, small, FreeChain.append.mpr ⟨p.data.at16 start, ?_, ?_⟩, whole, lastAt⟩
  · apply chainD.of_same
    intro block inPre
    exact last.sameOn (linkablePre.past block inPre).1 nofun
  · apply second.of_same
    intro block inPost
    have past := linkable.past block (List.mem_append_right _ (List.mem_cons_of_mem _ inPost))
    apply whole.sameOn past.1
    intro other inPre
    exact .inr (order.2.2 other inPre block (List.mem_cons_of_mem _ inPost))

theorem Area.unlink {taken pre post : List Run} {start found size : Nat} {q r : Page}
    (area : Area p taken (pre ++ (start, found) :: post)) (wide : 4 ≤ size) (fits : size ≤ found)
    (few : p.header.fragments + (found - size) ≤ maxFragments)
    (link : setLink (lastStart none pre) ((p.data.u16? start).getD 0) p = .ok () q)
    (written : writeHeader { q with
      header := { q.header with fragments := q.header.fragments + (found - size) } } = .ok () r) :
    Area { r with freeBytes := r.freeBytes - size } ((start, size) :: taken) (pre ++ post) ∧
      KeepsFields p r ∧ SameBut p r.data (pre ++ (start, found) :: post) ∧
      r.header.contentStart = p.header.contentStart := by
  have isBlock : (start, found) ∈ pre ++ (start, found) :: post :=
    List.mem_append_right _ List.mem_cons_self
  have member : (start, found) ∈ taken ++ (pre ++ (start, found) :: post) :=
    List.mem_append_right _ isBlock
  have inside := area.inside _ member
  have past := area.past_pointers member
  have usable := area.usable_le
  have account := area.account
  have free := area.free
  simp only [room_append, room_cons] at account free
  dsimp only at inside past
  have inPage : start + 2 ≤ p.data.size := by
    unfold minCellSize at inside
    omega
  unfold maxFragments at few
  obtain ⟨e, head, rfl, -, chain, whole, lastAt⟩ := unlink_ok area.header.valid
    (area.linkable (List.Sublist.refl _)) area.chain inPage (by omega) link written
  have apart := pairwise_apart_middle.mp area.apart
  refine ⟨?_, ⟨rfl, rfl, rfl, rfl, rfl, rfl, rfl⟩,
    whole.mono fun run member => List.mem_append_left _ member, rfl⟩
  refine area.remake ⟨rfl, rfl, rfl, rfl, rfl, rfl, rfl⟩ whole.1 lastAt area.gap area.content
    chain ?_ ?_ ?_ ?_ ?_
  all_goals try dsimp only
  · intro run member
    rcases List.mem_cons.mp member with rfl | other
    · unfold minCellSize
      dsimp only
      omega
    · exact area.inside run (mem_middle_right.mpr (.inr other))
  · refine List.pairwise_cons.mpr ⟨fun other member => ?_, apart.2⟩
    exact (apart.1 other member).of_inside (Nat.le_refl start)
      (show start + size ≤ start + found by omega)
  · have order := List.pairwise_append.mp area.ascending
    exact List.pairwise_append.mpr ⟨order.1, (List.pairwise_cons.mp order.2.1).2,
      fun a inPre b inPost => order.2.2 a inPre b (List.mem_cons_of_mem _ inPost)⟩
  · simp only [room_append, room_cons]
    omega
  · simp only [room_append]
    omega

theorem takeBlock_ok {taken blocks : List Run} {size start : Nat} (area : Area p taken blocks)
    (wide : 4 ≤ size) (run : takeBlock size p = .ok (some start) q) :
    ∃ blocks', Area q ((start, size) :: taken) blocks' ∧ KeepsFields p q ∧ SameBut p q.data blocks ∧
      q.header.contentStart = p.header.contentStart := by
  unfold takeBlock at run
  rw [Action.get_bind, Action.lift_bind_ok] at run
  obtain ⟨_, found, run⟩ := run
  cases found.symm.trans area.freeBlocks
  cases best : bestFit size none blocks none with
  | none =>
    rw [best] at run
    cases run
  | some block =>
    obtain ⟨link, start, found⟩ := block
    rcases bestFit_found blocks none none best with none | ⟨pre, post, rfl, fits, rfl⟩
    · cases none
    rw [best] at run
    dsimp only at run
    split at run
    · obtain ⟨_, mid, put, run⟩ := Action.bind_ok.mp run
      obtain ⟨_, last, lost, run⟩ := Action.bind_ok.mp run
      obtain ⟨same, rfl⟩ := Action.pure_ok.mp run
      cases same
      obtain ⟨d, written, rfl⟩ := edit_ok.mp put
      obtain ⟨enough, rfl⟩ := loseFree_ok.mp lost
      obtain ⟨shrunk, same⟩ := area.shrink wide (by omega) written enough
      refine ⟨_, shrunk, ⟨rfl, rfl, rfl, rfl, rfl, rfl, rfl⟩, same.mono ?_, rfl⟩
      intro run member
      rw [List.mem_singleton.mp member]
      exact List.mem_append_right _ List.mem_cons_self
    · split at run
      · rename_i few
        obtain ⟨_, mid, link, run⟩ := Action.bind_ok.mp run
        unfold setHeader at run
        rw [Action.modify_bind] at run
        obtain ⟨_, last, written, run⟩ := Action.bind_ok.mp run
        obtain ⟨_, end_, lost, run⟩ := Action.bind_ok.mp run
        obtain ⟨same, rfl⟩ := Action.pure_ok.mp run
        cases same
        obtain ⟨-, rfl⟩ := loseFree_ok.mp lost
        obtain ⟨unlinked, fields, same, content⟩ := area.unlink wide fits few link written
        exact ⟨_, unlinked, fields.trans ⟨rfl, rfl, rfl, rfl, rfl, rfl, rfl⟩, same, content⟩
      · cases run

/-- Some cells lie at the end of the page, from `top` on, and the first pointers point at them. -/
structure Stacked (p : Page) (moved : List (Nat × Bytes)) (top : Nat) (d : Bytes) : Prop where
  size : d.size = p.data.size
  before : ∀ i, i < p.pointersStart → d.get! i = p.data.get! i
  pointers : ∀ j (h : j < moved.length), d.at16 (p.pointersStart + j * pointerSize) = moved[j].1
  lies : ∀ cell ∈ moved, d.HasAt cell.1 cell.2
  inside : ∀ cell ∈ moved, top ≤ cell.1 ∧ cell.1 + cell.2.size ≤ p.usable
  apart : (moved.map runOf).Pairwise Run.Apart
  account : top + room (moved.map runOf) = p.usable

theorem Stacked.step {moved : List (Nat × Bytes)} {top : Nat} {d e f cell : Bytes}
    (stacked : Stacked p moved top d) (large : p.usable ≤ 65536) (wide : 4 ≤ cell.size)
    (enough : p.pointersStart + (moved.length + 1) * pointerSize + cell.size ≤ top)
    (put : Bytes.put (top - cell.size) cell d = .ok () e)
    (point : Bytes.putU16 (p.pointersStart + moved.length * pointerSize) (top - cell.size) e =
      .ok () f) :
    Stacked p (moved ++ [(top - cell.size, cell)]) (top - cell.size) f ∧
      ∀ i, p.pointersStart + (moved.length + 1) * pointerSize ≤ i → i < top - cell.size →
        f.get! i = d.get! i := by
  obtain ⟨fits, sameE⟩ := Bytes.put_ok.mp put
  obtain ⟨slot, sameF⟩ := Bytes.putU16_ok.mp point
  have account := stacked.account
  unfold pointerSize at slot sameF enough ⊢
  have sizeE : e.size = d.size := by rw [sameE, Bytes.size_overwrite fits]
  have sizeF : f.size = e.size := by
    rw [sameF, Bytes.size_overwrite (c := Bytes.ofNat16 (top - cell.size)) slot]
  have keepE : ∀ i, i < top - cell.size ∨ top ≤ i → e.get! i = d.get! i := by
    intro i outside
    rw [sameE, Bytes.get_overwrite_outside fits (by omega)]
  have keepF : ∀ i, i < p.pointersStart + moved.length * 2 ∨
      p.pointersStart + moved.length * 2 + 2 ≤ i → f.get! i = e.get! i := fun i outside =>
    sameF ▸ Bytes.get_overwrite_outside slot outside
  refine ⟨⟨by rw [sizeF, sizeE, stacked.size], ?_, ?_, ?_, ?_, ?_, ?_⟩, ?_⟩
  · intro i low
    rw [keepF i (by omega), keepE i (by omega), stacked.before i low]
  · intro j h
    rw [List.length_append, List.length_singleton] at h
    rcases Nat.lt_succ_iff_lt_or_eq.mp h with old | rfl
    · rw [List.getElem_append_left old, ← stacked.pointers j old]
      unfold pointerSize Bytes.at16
      rw [keepF _ (by omega), keepF _ (by omega), keepE _ (by omega), keepE _ (by omega)]
    · have here : f.at16 (p.pointersStart + moved.length * 2) = top - cell.size := by
        rw [sameF, Bytes.at16_overwrite_same slot, Nat.mod_eq_of_lt (by omega)]
      rw [List.getElem_concat_length rfl]
      exact here
  · intro other member
    rcases List.mem_append.mp member with old | new
    · have inside := stacked.inside other old
      apply (stacked.lies other old).of_sameOn (by omega)
      intro i lower upper
      rw [keepF i (by omega), keepE i (by omega)]
    · rw [List.mem_singleton.mp new]
      have here := Bytes.hasAt_overwrite fits
      rw [← sameE] at here
      exact here.of_sameOn sizeF fun i lower upper => keepF i (by omega)
  · intro other member
    rcases List.mem_append.mp member with old | new
    · have inside := stacked.inside other old
      omega
    · rw [List.mem_singleton.mp new]
      dsimp only
      omega
  · rw [List.map_append]
    refine List.pairwise_append.mpr ⟨stacked.apart, List.pairwise_singleton _ _, ?_⟩
    intro run old last new
    obtain ⟨other, member, rfl⟩ := List.mem_map.mp old
    have inside := stacked.inside other member
    rw [List.mem_singleton.mp new]
    right
    dsimp only [runOf]
    omega
  · simp only [List.map_append, List.map_cons, List.map_nil, room_append, room_cons, room_nil, runOf]
    omega
  · intro i lower upper
    rw [keepF i (by omega), keepE i (by omega)]

/-- The first cells of `cells` have been moved to the end of the page, and the others are still to
be moved. -/
structure Packing (p : Page) (cells moved : List (Nat × Bytes)) (top : Nat) (d : Bytes) : Prop
    extends Stacked p moved top d where
  done : moved.map Prod.snd = (cells.take moved.length).map Prod.snd
  few : moved.length ≤ cells.length
  later : ∀ j (h : j < cells.length), moved.length ≤ j →
    d.at16 (p.pointersStart + j * pointerSize) = cells[j].1

theorem room_runOf (cells : List (Nat × Bytes)) :
    room (cells.map runOf) = total ((cells.map Prod.snd).map ByteArray.size) := by
  unfold room
  rw [List.map_map, List.map_map]
  rfl

theorem total_take_le (sizes : List Nat) (n : Nat) : total (sizes.take n) ≤ total sizes := by
  have whole := total_append (sizes.take n) (sizes.drop n)
  rw [List.take_append_drop] at whole
  omega

theorem Packing.room_left {cells moved : List (Nat × Bytes)} {blocks : List Run} {top : Nat}
    {d : Bytes} {cell : Nat × Bytes} (tidy : Tidy p cells [] blocks)
    (packing : Packing p cells moved top d) (next : cells[moved.length]? = some cell) :
    p.header.contentStart + cell.2.size ≤ top := by
  have whole := tidy.area.account
  have account := packing.account
  have more := total_take_le ((cells.map Prod.snd).map ByteArray.size) (moved.length + 1)
  rw [List.take_add_one, total_append, List.getElem?_map, List.getElem?_map, next] at more
  rw [room_runOf, packing.done, List.map_take, List.map_take] at account
  rw [List.append_nil, room_runOf] at whole
  have last : total (Option.map ByteArray.size (Option.map Prod.snd (some cell))).toList =
      cell.2.size := rfl
  rw [last] at more
  omega

theorem Packing.step {cells moved : List (Nat × Bytes)} {blocks : List Run} {top : Nat}
    {d e f : Bytes} {cell : Nat × Bytes} (tidy : Tidy p cells [] blocks)
    (packing : Packing p cells moved top d) (next : cells[moved.length]? = some cell)
    (put : Bytes.put (top - cell.2.size) cell.2 d = .ok () e)
    (point : Bytes.putU16 (p.pointersStart + moved.length * pointerSize) (top - cell.2.size) e =
      .ok () f) :
    Packing p cells (moved ++ [(top - cell.2.size, cell.2)]) (top - cell.2.size) f := by
  obtain ⟨short, found⟩ := List.getElem?_eq_some_iff.mp next
  have bound := packing.room_left tidy next
  have gap := tidy.area.gap
  have ends := p.pointersEnd_eq
  have count := tidy.rows.count
  have wide := (tidy.run_inside (List.getElem_mem short)).2.2
  rw [found] at wide
  have slots : (moved.length + 1) * pointerSize ≤ p.cellCount * pointerSize :=
    Nat.mul_le_mul_right _ (by omega)
  obtain ⟨stacked, keep⟩ := packing.toStacked.step tidy.area.usable_bounds.2 wide (by omega) put
    point
  refine ⟨stacked, ?_, ?_, ?_⟩
  · rw [List.length_append, List.length_singleton, List.take_add_one, next, List.map_append,
      List.map_append, packing.done]
    rfl
  · rw [List.length_append, List.length_singleton]
    exact short
  · intro j h later
    rw [List.length_append, List.length_singleton] at later
    rw [← packing.later j h (by omega)]
    unfold pointerSize at keep ends slots ⊢
    unfold Bytes.at16
    rw [keep _ (by omega) (by omega), keep _ (by omega) (by omega)]

theorem pointer_eq {i start : Nat} (run : p.pointer i = .ok start) :
    p.data.at16 (p.pointersStart + i * pointerSize) = start := by
  unfold pointer at run
  split at run
  · exact absurd run Except.throw_bind_ok
  · dsimp only at run
    obtain ⟨stored, found, run⟩ := Except.bind_ok.mp run
    have same : stored = start := by
      split at run
      · exact absurd run Except.throw_bind_ok
      · exact Except.pure_ok.mp run
    rw [← same]
    unfold storedPointer at found
    rw [Bytes.u16?_eq] at found
    split at found
    · rename_i value read
      split at read
      · cases read
        cases found
        rfl
      · cases read
    · cases found

theorem packCells_ok {cells : List (Nat × Bytes)} {blocks : List Run} (tidy : Tidy p cells [] blocks)
    (left : Nat) {moved : List (Nat × Bytes)} {top last : Nat} {d : Bytes}
    (packing : Packing p cells moved top d) (all : moved.length + left = cells.length)
    (run : packCells p.window left moved.length top { p with data := d } = .ok last q) :
    ∃ moved' d', Packing p cells moved' last d' ∧ moved'.length = cells.length ∧
      q = { p with data := d' } := by
  induction left generalizing moved top d with
  | zero =>
    obtain ⟨rfl, rfl⟩ := Action.pure_ok.mp run
    exact ⟨moved, d, packing, by omega, rfl⟩
  | succ left ih =>
    have short : moved.length < cells.length := by omega
    have next : cells[moved.length]? = some cells[moved.length] := List.getElem?_eq_getElem short
    obtain ⟨info, reads⟩ := tidy.rows.valid _ (List.getElem_mem short)
    have lies := tidy.lies (List.getElem_mem short)
    have decoded := reads.decode_lies lies
    unfold packCells at run
    rw [Action.get_bind, Action.lift_bind_ok] at run
    obtain ⟨start, pointed, run⟩ := run
    have place := pointer_eq pointed
    have place : start = cells[moved.length].1 := place.symm.trans (packing.later _ short (Nat.le_refl _))
    subst place
    rw [Action.lift_bind_ok] at run
    obtain ⟨_, same, run⟩ := run
    cases decoded.symm.trans same
    dsimp only at run
    split at run
    · exact absurd run Action.throw_bind_ok
    rw [reads.2, Action.lift_bind_ok] at run
    obtain ⟨_, sliced, run⟩ := run
    obtain ⟨-, rfl⟩ := Bytes.slice_ok.mp sliced
    have bytes : p.window.bytes = p.data := rfl
    rw [bytes, (tidy.rows.lies _ (List.getElem_mem short)).extract] at run
    obtain ⟨_, mid, put, run⟩ := Action.bind_ok.mp run
    obtain ⟨_, mid', point, run⟩ := Action.bind_ok.mp run
    obtain ⟨e, putData, rfl⟩ := edit_ok.mp put
    unfold setPointer at point
    rw [Action.get_bind] at point
    obtain ⟨f, pointData, rfl⟩ := edit_ok.mp point
    have packed := packing.step tidy next putData pointData
    refine ih packed ?_ ?_
    · rw [List.length_append, List.length_singleton]
      omega
    · rw [List.length_append, List.length_singleton]
      exact run

theorem packing_start {cells : List (Nat × Bytes)} {blocks : List Run} (tidy : Tidy p cells [] blocks) :
    Packing p cells [] p.usable p.data :=
  ⟨⟨rfl, fun _ _ => rfl, nofun, nofun, nofun, List.Pairwise.nil, rfl⟩, rfl, Nat.zero_le _,
    fun j h _ => tidy.rows.pointers j h⟩

theorem defragment_ok {cells : List (Nat × Bytes)} {blocks : List Run} (tidy : Tidy p cells [] blocks)
    (run : defragment p = .ok () q) :
    ∃ moved, Tidy q moved [] [] ∧ moved.map Prod.snd = cells.map Prod.snd ∧ KeepsFields p q ∧
      ∀ i, i < p.headerStart → q.data.get! i = p.data.get! i := by
  unfold defragment at run
  rw [Action.get_bind] at run
  obtain ⟨top, mid, packed, run⟩ := Action.bind_ok.mp run
  obtain ⟨moved, d, packing, length, rfl⟩ := packCells_ok tidy p.cellCount
    (packing_start tidy) (by rw [List.length_nil, tidy.rows.count, Nat.zero_add]) packed
  have gap := tidy.area.gap
  have ⟨positive, order⟩ := tidy.area.start_bounds
  have usable := tidy.area.usable_bounds
  have account := packing.account
  have done := packing.done
  rw [length, List.take_length] at done
  split at run
  · exact absurd run Action.throw_bind_ok
  rename_i low
  obtain ⟨_, mid', cleared, run⟩ := Action.bind_ok.mp run
  obtain ⟨e, clearedData, rfl⟩ := edit_ok.mp cleared
  obtain ⟨⟨-, inPage⟩, rfl⟩ := Bytes.clear_ok.mp clearedData
  unfold setHeader at run
  rw [Action.modify_bind, Action.modify_bind] at run
  have fits : p.pointersEnd + (Bytes.zeros (top - p.pointersEnd)).size ≤ d.size := by
    rw [Bytes.size_zeros]
    change top ≤ d.size at inPage
    omega
  have keep : ∀ i, i < p.pointersEnd ∨ top ≤ i →
      (d.overwrite p.pointersEnd (Bytes.zeros (top - p.pointersEnd))).get! i = d.get! i :=
    fun i outside => Bytes.get_overwrite_outside fits (by rw [Bytes.size_zeros]; omega)
  have size := Bytes.size_overwrite fits
  have valid : PageHeader.Valid { p.header with
      firstFree := 0
      fragments := 0
      contentStart := top } :=
    { tidy.area.header.valid with
      firstFree := show 0 < 65536 by decide
      fragments := show 0 < 256 by decide
      contentPos := show 0 < top by omega
      contentLe := show top ≤ 65536 by omega }
  obtain ⟨f, same, here, rfl⟩ := writeHeader_at valid run
  have sizeF : f.size = d.size := same.1.trans size
  have sameF : ∀ i, i < p.headerStart ∨ p.pointersStart ≤ i →
      f.get! i = (d.overwrite p.pointersEnd (Bytes.zeros (top - p.pointersEnd))).get! i :=
    fun i outside => same.2 i outside nofun
  have within : ∀ cell ∈ moved, top ≤ cell.1 ∧ cell.1 + cell.2.size ≤ p.usable ∧ 4 ≤ cell.2.size := by
    intro cell member
    have inside := packing.inside cell member
    have old : cell.2 ∈ cells.map Prod.snd := done ▸ List.mem_map_of_mem member
    obtain ⟨other, isCell, same⟩ := List.mem_map.mp old
    have wide := (tidy.run_inside isCell).2.2
    rw [same] at wide
    exact ⟨inside.1, inside.2, wide⟩
  refine ⟨moved, ⟨?_, ?_⟩, done, ⟨rfl, rfl, rfl, rfl, rfl, rfl, rfl⟩, ?_⟩
  · refine tidy.area.remake ⟨rfl, rfl, rfl, rfl, rfl, rfl, rfl⟩ (sizeF.trans packing.size) here
      ?_ ?_ rfl ?_ ?_ List.Pairwise.nil ?_ ?_
    all_goals try dsimp only
    · exact Nat.le_of_not_lt low
    · omega
    · intro run member
      rw [List.append_nil, List.append_nil] at member
      obtain ⟨cell, isCell, rfl⟩ := List.mem_map.mp member
      exact within cell isCell
    · rw [List.append_nil, List.append_nil]
      exact packing.apart
    · rw [List.append_nil, room_nil]
      omega
    · rw [room_nil]
      rfl
  · refine ⟨?_, ?_, ?_, ?_, ?_⟩
    all_goals try dsimp only
    · exact tidy.rows.count.trans length.symm
    · rw [length]
      exact tidy.rows.few
    · intro i h
      have slot := tidy.slot_fits (i := i) (by omega)
      rw [← packing.pointers i h]
      have low' : p.pointersEnd ≤ top := Nat.le_of_not_lt low
      change f.at16 (p.pointersStart + i * pointerSize) = _
      unfold Bytes.at16
      rw [sameF _ (by omega), sameF _ (by omega), keep _ (by omega), keep _ (by omega)]
    · intro cell member
      have inside := within cell member
      have low' : p.pointersEnd ≤ top := Nat.le_of_not_lt low
      apply (packing.lies cell member).of_sameOn sizeF
      intro i lower upper
      rw [sameF _ (by omega), keep _ (by omega)]
    · intro cell member
      have old : cell.2 ∈ cells.map Prod.snd := done ▸ List.mem_map_of_mem member
      obtain ⟨other, isCell, same⟩ := List.mem_map.mp old
      rw [← same]
      exact tidy.rows.valid other isCell
  · intro i low'
    have first := p.pointersStart_eq
    dsimp only
    rw [sameF _ (.inl low'), keep _ (by omega), packing.before _ (by omega)]

theorem Rows.of_same {cells : List (Nat × Bytes)} {lent blocks : List Run} (rows : Rows p cells)
    (area : Area p (cells.map runOf ++ lent) blocks) (fields : KeepsFields p q)
    (same : SameBut p q.data blocks) : Rows q cells where
  count := by
    rw [← rows.count]
    exact fields.cellCount
  few := by
    rw [fields.geometry]
    exact rows.few
  pointers := by
    intro i h
    rw [fields.pointersStart, ← rows.pointers i h]
    have gap := area.gap
    have ends := p.pointersEnd_eq
    have count := rows.count
    unfold pointerSize at ends ⊢
    apply (same.sameOn (Nat.le_add_right p.pointersStart (i * 2)) ?_).at16 (Nat.le_refl _)
      (Nat.le_refl _)
    intro block member
    have past := area.past_pointers (List.mem_append_right _ member)
    omega
  lies := by
    intro cell member
    have taken : runOf cell ∈ cells.map runOf ++ lent :=
      List.mem_append_left _ (List.mem_map_of_mem member)
    have past := area.past_pointers (List.mem_append_left _ taken)
    apply (rows.lies cell member).of_sameOn same.1
    apply same.sameOn past.2
    intro block isBlock
    exact ((List.pairwise_append.mp area.apart).2.2 _ taken block isBlock)
  valid := by
    intro cell member
    have kind : q.kind = p.kind := fields.kind
    rw [fields.limits, kind]
    exact rows.valid cell member

theorem SameBut.before {d : Bytes} {runs : List Run} (same : SameBut p d runs)
    (past : ∀ run ∈ runs, p.pointersStart ≤ run.1) :
    ∀ i, i < p.headerStart → d.get! i = p.data.get! i := by
  intro i low
  have first := p.pointersStart_eq
  exact same.2 i (.inl low) fun run member => .inl (by have place := past run member; omega)

theorem takeBlock_none {taken blocks : List Run} {size : Nat} (area : Area p taken blocks)
    (run : takeBlock size p = .ok none q) : q = p := by
  unfold takeBlock at run
  rw [Action.get_bind, Action.lift_bind_ok] at run
  obtain ⟨_, found, run⟩ := run
  cases found.symm.trans area.freeBlocks
  cases best : bestFit size none blocks none with
  | none =>
    rw [best] at run
    cases run
    rfl
  | some block =>
    obtain ⟨link, start, found⟩ := block
    rw [best] at run
    dsimp only at run
    split at run
    · obtain ⟨_, mid, -, run⟩ := Action.bind_ok.mp run
      obtain ⟨_, last, -, run⟩ := Action.bind_ok.mp run
      cases (Action.pure_ok.mp run).1
    · split at run
      · obtain ⟨_, mid, -, run⟩ := Action.bind_ok.mp run
        unfold setHeader at run
        rw [Action.modify_bind] at run
        obtain ⟨_, last, -, run⟩ := Action.bind_ok.mp run
        obtain ⟨_, end_, -, run⟩ := Action.bind_ok.mp run
        cases (Action.pure_ok.mp run).1
      · cases run
        rfl

/-- A run lent for a new cell. The other cells may have moved, but they are the same. -/
structure LendsRun (p q : Page) (cells : List (Nat × Bytes)) (start size : Nat) : Prop where
  tidy : ∃ moved blocks, Tidy q moved [(start, size)] blocks ∧
    moved.map Prod.snd = cells.map Prod.snd
  fields : KeepsFields p q
  gap : q.pointersEnd + pointerSize ≤ q.header.contentStart
  before : ∀ i, i < p.headerStart → q.data.get! i = p.data.get! i

theorem carve_lends {cells : List (Nat × Bytes)} {blocks : List Run} {size start : Nat}
    (tidy : Tidy p cells [] blocks) (wide : 4 ≤ size)
    (fits : p.pointersEnd + pointerSize + size ≤ p.header.contentStart)
    (run : carve size p = .ok start q) : LendsRun p q cells start size := by
  obtain ⟨area, fields, same, content⟩ := carve_ok tidy.area wide (by omega) run
  refine ⟨⟨cells, blocks, ⟨?_, ?_⟩, rfl⟩, fields, ?_, same.before nofun⟩
  · rw [List.append_nil] at area
    exact area.perm (List.perm_append_singleton _ _).symm
  · exact tidy.rows.of_same tidy.area fields (same.mono nofun)
  · rw [fields.pointersEnd]
    omega

theorem defragmentAndCarve_lends {cells : List (Nat × Bytes)} {blocks : List Run}
    {size start : Nat} (tidy : Tidy p cells [] blocks) (wide : 4 ≤ size)
    (run : defragmentAndCarve size p = .ok start q) : LendsRun p q cells start size := by
  unfold defragmentAndCarve at run
  obtain ⟨_, mid, compact, run⟩ := Action.bind_ok.mp run
  obtain ⟨moved, tidyMid, same, fields, before⟩ := defragment_ok tidy compact
  rw [Action.get_bind] at run
  split at run
  · exact absurd run Action.throw_bind_ok
  rename_i enough
  obtain ⟨tidy', fields', gap, before'⟩ := carve_lends tidyMid wide (Nat.le_of_not_lt enough) run
  obtain ⟨moved', blocks', tidy', same'⟩ := tidy'
  refine ⟨⟨moved', blocks', tidy', same'.trans same⟩, fields.trans fields', gap, fun i low => ?_⟩
  rw [before' i (by rw [fields.headerStart]; exact low), before i low]

theorem allocate_lends {cells : List (Nat × Bytes)} {blocks : List Run} {size start : Nat}
    (tidy : Tidy p cells [] blocks) (wide : 4 ≤ size) (run : allocate size p = .ok start q) :
    LendsRun p q cells start size := by
  have exact_ : max size minCellSize = size := Nat.max_eq_left wide
  unfold allocate at run
  rw [exact_, Action.get_bind] at run
  split at run
  · rename_i gap
    obtain ⟨found, mid, taken, run⟩ := Action.bind_ok.mp run
    cases found with
    | some place =>
      obtain ⟨rfl, rfl⟩ := Action.pure_ok.mp run
      obtain ⟨blocks', area, fields, same, content⟩ := takeBlock_ok tidy.area wide taken
      refine ⟨⟨cells, blocks', ⟨?_, ?_⟩, rfl⟩, fields, ?_, same.before ?_⟩
      · rw [List.append_nil] at area
        exact area.perm (List.perm_append_singleton _ _).symm
      · exact tidy.rows.of_same tidy.area fields same
      · rw [fields.pointersEnd, content]
        exact gap
      · exact fun block member => (tidy.area.past_pointers (List.mem_append_right _ member)).2
    | none =>
      cases takeBlock_none tidy.area taken
      dsimp only at run
      split at run
      · rename_i enough
        exact carve_lends tidy wide enough run
      · exact defragmentAndCarve_lends tidy wide run
  · exact defragmentAndCarve_lends tidy wide run

end Page

end TreeFile
