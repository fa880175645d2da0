import TreeFile.Proofs.Page.Audit
import TreeFile.Proofs.Page.Changes

/-!
Pages that nobody vouches for. Cells may overlap and free blocks may be taken by cells: as long as the fields
of the header lie where they may, no change to the cells leaves the page or takes more than there is, and the
fields stay where they may, also when a change fails half way.
-/

namespace TreeFile

variable {α β : Type}

def Error.Reported (e : Error) : Prop := e.code ≠ .internal ∧ e.detail ≠ none

theorem Error.Reported.corrupt (what : String) : (Error.corrupt what).Reported := ⟨nofun, nofun⟩

theorem Error.Reported.range (what : String) : (Error.range what).Reported := ⟨nofun, nofun⟩

def Reports (x : Except Error α) : Prop := ∀ e, x = .error e → e.Reported

theorem Reports.ok (a : α) : Reports (.ok a) := nofun

theorem Reports.error {e : Error} (reported : e.Reported) : Reports (.error e : Except Error α) := by
  rintro _ ⟨⟩
  exact reported

theorem Reports.bind {x : Except Error α} {f : α → Except Error β} (first : Reports x)
    (next : ∀ a, x = .ok a → Reports (f a)) : Reports (x >>= f) := by
  cases x with
  | ok a => exact next a rfl
  | error e => exact .error (first e rfl)

theorem Reports.ite {c : Prop} [Decidable c] {x y : Except Error α} (yes : c → Reports x)
    (no : ¬ c → Reports y) : Reports (if c then x else y) := by
  split
  · exact yes ‹_›
  · exact no ‹_›

theorem Varint.read_reports (w : Window) (i : Nat) : Reports (read w i) := by
  unfold read
  refine .ite (fun _ => ?_) fun _ => .error (.corrupt _)
  cases decode? w i with
  | some found => exact .ok found
  | none => exact .error (.corrupt _)

theorem Varint.read32_reports (w : Window) (i : Nat) : Reports (read32 w i) :=
  (read_reports w i).bind fun _ _ => .ite (fun _ => .ok _) fun _ => .error (.corrupt _)

namespace Cell

theorem decodeChild_reports (w : Window) (start : Nat) (kind : PageKind) :
    Reports (decodeChild w start kind) := by
  unfold decodeChild
  refine .ite (fun _ => .ok _) fun _ => ?_
  cases w.u32? start with
  | some child => exact .ok _
  | none => exact .error (.corrupt _)

theorem decodePayload_reports (w : Window) (start : Nat) (kind : PageKind) (limits : PayloadLimits)
    (c : CellInfo) : Reports (decodePayload w start kind limits c) := by
  have last : ∀ (page : Option PageNo) (stop : Nat), Reports (do
      if stop > w.size then throw (.cellPastEnd start)
      return { c with
        kept := limits.kept kind c.payloadSize
        overflowPage := page
        size := max (stop - start) minCellSize } : Except Error CellInfo) := fun _ _ =>
    .ite (fun _ => .error (.corrupt _)) fun _ => .ok _
  unfold decodePayload
  refine .ite (fun _ => ?_) fun _ => last _ _
  split
  · exact .error (.corrupt _)
  · exact .ite (fun _ => .error (.corrupt _)) fun _ => last _ _

theorem decode_reports (w : Window) (start : Nat) (kind : PageKind) (limits : PayloadLimits) :
    Reports (decode w start kind limits) := by
  refine (decodeChild_reports w start kind).bind fun _ _ => ?_
  cases kind with
  | tableInterior => exact (Varint.read_reports _ _).bind fun _ _ => .ok _
  | tableLeaf =>
    exact (Varint.read32_reports _ _).bind fun _ _ => (Varint.read_reports _ _).bind fun _ _ =>
      decodePayload_reports _ _ _ _ _
  | indexLeaf | indexInterior =>
    exact (Varint.read32_reports _ _).bind fun _ _ => decodePayload_reports _ _ _ _ _

end Cell

namespace Page

variable {p q : Page}

theorem pointer_reports (p : Page) (i : Nat) : Reports (p.pointer i) := by
  refine .ite (fun _ => .error (.range _)) fun _ => .bind ?_ fun _ _ =>
    .ite (fun _ => .error (.corrupt _)) fun _ => .ok _
  unfold storedPointer
  split
  · exact .ok _
  · exact .error (.corrupt _)

theorem cellInfo_reports (p : Page) (i : Nat) : Reports (p.cellInfo i) :=
  (p.pointer_reports i).bind fun _ _ => Cell.decode_reports _ _ _ _

theorem freeBlocksFrom_reports (p : Page) (left lastEnd start : Nat) :
    Reports (p.freeBlocksFrom left lastEnd start) := by
  induction left generalizing lastEnd start with
  | zero =>
    unfold freeBlocksFrom
    exact .ite (fun _ => .ok _) fun _ => .ite (fun _ => .error (.corrupt _)) fun _ =>
      .ite (fun _ => .error (.corrupt _)) fun _ => .error (.corrupt _)
  | succ left ih =>
    unfold freeBlocksFrom
    exact .ite (fun _ => .ok _) fun _ => .ite (fun _ => .error (.corrupt _)) fun _ =>
      .ite (fun _ => .error (.corrupt _)) fun _ => (ih _ _).bind fun _ _ => .ok _

theorem freeBlocks_reports (p : Page) : Reports p.freeBlocks := p.freeBlocksFrom_reports _ _ _

theorem absorb_reports (page : PageNo) (fragments gap : Nat) : Reports (absorb page fragments gap) :=
  .ite (fun _ => .error (.corrupt _)) fun _ => .ok _

/-- The fields of the header lie where they may on a page of a file that can exist. What its pointers and
its free blocks say is open. -/
structure Bounded (p : Page) : Prop where
  sound : p.geometry.Sound
  long : p.geometry.pageSize ≤ p.data.size
  valid : p.header.Valid
  gap : p.pointersEnd ≤ p.header.contentStart
  content : p.header.contentStart ≤ p.usable
  fair : p.limits.Fair

theorem pointers_order (p : Page) : 8 ≤ p.pointersStart ∧ p.pointersStart ≤ p.pointersEnd := by
  have bounds := p.kind.headerSize_bounds
  have first := p.pointersStart_eq
  have last := p.pointersEnd_eq
  omega

section Bounded

variable (bounded : p.Bounded)

include bounded

theorem Bounded.usable_le : p.usable ≤ p.data.size := Nat.le_trans bounded.sound.usable bounded.long

theorem Bounded.usable_bounds : 480 ≤ p.usable ∧ p.usable ≤ 65536 :=
  ⟨bounded.sound.small, Nat.le_trans bounded.sound.usable bounded.sound.large⟩

theorem Bounded.toHasLength : HasLength p.data.size p := by
  have start : p.headerStart ≤ 100 := bounded.sound.header
  have usable := bounded.usable_le
  have small : 480 ≤ p.usable := bounded.sound.small
  exact ⟨rfl, by omega⟩

theorem Bounded.bytes {d : Bytes} (size : d.size = p.data.size) : Bounded { p with data := d } :=
  { bounded with long := size ▸ bounded.long }

theorem Bounded.remake {h : PageHeader} (valid : h.Valid) (kind : h.kind = p.header.kind)
    (gap : p.pointersStart + h.cellCount * pointerSize ≤ h.contentStart) (content : h.contentStart ≤ p.usable)
    (free : Nat) : Bounded { p with header := h, freeBytes := free } := by
  refine { bounded with valid := valid, gap := ?_, content := content }
  have start : pointersStart { p with header := h, freeBytes := free } = p.pointersStart := by
    unfold pointersStart Page.kind
    rw [kind]
    rfl
  rw [pointersEnd_eq, start]
  exact gap

theorem Bounded.blocks {blocks : List Run} (found : p.freeBlocks = .ok blocks) :
    FreeChain p.data p.header.firstFree blocks 0 ∧
      (∀ block ∈ blocks,
        p.header.contentStart ≤ block.1 ∧ block.1 + block.2 ≤ p.usable ∧ minCellSize ≤ block.2) ∧
      blocks.Pairwise fun a b => a.1 + a.2 ≤ b.1 := freeBlocksFrom_ok bounded.usable_le found

end Bounded

/-- A run of `act` ends well, with an answer and a page like this, or it fails for a reason that it names and
leaves a page within its bounds. -/
def Keeps (act : Action Page α) (p : Page) (good : α → Page → Prop) : Prop :=
  match act p with
  | .ok a q => good a q
  | .error e q => q.Bounded ∧ e.Reported

namespace Keeps

variable {act : Action Page α} {f : α → Action Page β} {a : α} {good good' : α → Page → Prop}
  {last : β → Page → Prop}

theorem of_ok (run : act p = .ok a q) (holds : good a q) : Keeps act p good := by
  unfold Keeps
  rw [run]
  exact holds

theorem ok (keeps : Keeps act p good) (run : act p = .ok a q) : good a q := by
  unfold Keeps at keeps
  rw [run] at keeps
  exact keeps

theorem error {e : Error} (keeps : Keeps act p good) (run : act p = .error e q) :
    q.Bounded ∧ e.Reported := by
  unfold Keeps at keeps
  rw [run] at keeps
  exact keeps

theorem imp (keeps : Keeps act p good) (well : ∀ a q, good a q → good' a q) : Keeps act p good' := by
  unfold Keeps at keeps ⊢
  split at keeps
  · exact well _ _ keeps
  · exact keeps

theorem after (run : act p = .ok a q) (next : Keeps (f a) q last) : Keeps (act >>= f) p last := by
  unfold Keeps at next ⊢
  rw [Action.bind_of_ok run]
  exact next

theorem bind (keeps : Keeps act p good) (next : ∀ a q, act p = .ok a q → good a q → Keeps (f a) q last) :
    Keeps (act >>= f) p last := by
  cases run : act p with
  | ok a q => exact after run (next a q run (keeps.ok run))
  | error e q =>
    unfold Keeps
    rw [Action.bind_of_error run]
    exact keeps.error run

theorem get {f : Page → Action Page β} (next : Keeps (f p) p last) : Keeps (MonadState.get >>= f) p last := next

theorem modify {g : Page → Page} {f : PUnit → Action Page β} (next : Keeps (f ⟨⟩) (g p) last) :
    Keeps (modify g >>= f) p last := next

theorem lift {x : Except Error α} (bounded : p.Bounded) (reports : Reports x)
    (next : ∀ a, x = .ok a → Keeps (f a) p last) : Keeps ((liftM x : Action Page α) >>= f) p last := by
  cases x with
  | ok a => exact next a rfl
  | error e => exact ⟨bounded, reports e rfl⟩

theorem known {x : Except Error α} (done : x = .ok a) (next : Keeps (f a) p last) :
    Keeps ((liftM x : Action Page α) >>= f) p last := by
  rw [done]
  exact next

theorem throw {e : Error} (bounded : p.Bounded) (reported : e.Reported) :
    Keeps (throw e : Action Page α) p good := ⟨bounded, reported⟩

theorem throw_bind {e : Error} (bounded : p.Bounded) (reported : e.Reported) :
    Keeps ((MonadExcept.throw e : Action Page α) >>= f) p last := ⟨bounded, reported⟩

end Keeps

theorem bind_congr_ok {x y : Action Page α} {f g : α → Action Page β} (first : x p = y p)
    (next : ∀ a q, y p = .ok a q → f a q = g a q) : (x >>= f) p = (y >>= g) p := by
  cases run : y p with
  | ok a q => rw [Action.bind_of_ok (first.trans run), Action.bind_of_ok run, next a q run]
  | error e q => rw [Action.bind_of_error (first.trans run), Action.bind_of_error run]

/-- A page within its bounds that has the same cells, or at least as many. -/
structure Follows (p q : Page) : Prop where
  bounded : q.Bounded
  fields : KeepsFields p q
  long : q.data.size = p.data.size

theorem Follows.trans {r : Page} (first : Follows p q) (second : Follows q r) : Follows p r :=
  ⟨second.bounded, first.fields.trans second.fields, second.long.trans first.long⟩

theorem Bounded.follows {h : PageHeader} {d : Bytes} (bounded : p.Bounded) (valid : h.Valid)
    (same : h.kind = p.header.kind ∧ h.rightChild = p.header.rightChild ∧ h.cellCount = p.header.cellCount)
    (gap : p.pointersEnd ≤ h.contentStart) (content : h.contentStart ≤ p.usable) (long : d.size = p.data.size)
    (free : Nat) : Follows p { p with header := h, data := d, freeBytes := free } := by
  refine ⟨(bounded.bytes long).remake valid same.1 ?_ content free,
    ⟨rfl, rfl, rfl, rfl, same.1, same.2.1, same.2.2⟩, long⟩
  rw [same.2.2]
  exact gap

/-- A run of bytes that was given out for a cell, with room left for its pointer. -/
structure Hands (p q : Page) (start size : Nat) : Prop extends Follows p q where
  gap : q.pointersEnd + pointerSize ≤ q.header.contentStart
  inside : start + size ≤ q.usable
  spare : pointerSize ≤ q.freeBytes

theorem Bounded.carve (bounded : p.Bounded) (size : Nat)
    (fits : p.pointersEnd + pointerSize + size ≤ p.header.contentStart)
    (enough : size + pointerSize ≤ p.freeBytes) :
    ∃ start q, carve size p = .ok start q ∧ Hands p q start size := by
  have ⟨positive, order⟩ := p.pointers_order
  have content := bounded.content
  have usable := bounded.usable_bounds
  have valid : PageHeader.Valid { p.header with contentStart := p.header.contentStart - size } :=
    { bounded.valid with
      contentPos := show 0 < p.header.contentStart - size by omega
      contentLe := show p.header.contentStart - size ≤ 65536 by omega }
  have lower := bounded.remake valid rfl (show p.pointersEnd ≤ p.header.contentStart - size by omega)
    (show p.header.contentStart - size ≤ p.usable by omega) p.freeBytes
  obtain ⟨d, written, sizeD⟩ := lower.toHasLength.writeHeader
  have sizeD : d.size = p.data.size := sizeD
  have lost := loseFree_ok (p := { p with
    header := { p.header with contentStart := p.header.contentStart - size }
    data := d }).mpr ⟨show size ≤ p.freeBytes by omega, rfl⟩
  refine ⟨p.header.contentStart - size, { p with
    header := { p.header with contentStart := p.header.contentStart - size }
    data := d
    freeBytes := p.freeBytes - size }, ?_, ⟨?_, ⟨rfl, rfl, rfl, rfl, rfl, rfl, rfl⟩, sizeD⟩, ?_, ?_, ?_⟩
  · unfold Page.carve setHeader
    rw [Action.get_bind, if_pos (by omega), Action.modify_bind]
    exact (Action.bind_of_ok written).trans (Action.bind_of_ok lost)
  · exact (bounded.bytes sizeD).remake valid rfl (show p.pointersEnd ≤ p.header.contentStart - size by omega)
      (show p.header.contentStart - size ≤ p.usable by omega) (p.freeBytes - size)
  · change p.pointersEnd + pointerSize ≤ p.header.contentStart - size
    omega
  · change p.header.contentStart - size + size ≤ p.usable
    omega
  · change pointerSize ≤ p.freeBytes - size
    omega

theorem Bounded.setLink (bounded : p.Bounded) (link : Option Nat) {next : Nat} (small : next < 65536)
    (inside : ∀ start, link = some start → start + 2 ≤ p.usable) :
    ∃ d first, setLink link next p = .ok () { p with
        data := d
        header := { p.header with firstFree := first } } ∧ first < 65536 ∧ d.size = p.data.size := by
  cases link with
  | none =>
    obtain ⟨d, run, size⟩ := (bounded.toHasLength.remake { p.header with firstFree := next } p.freeBytes).writeHeader
    exact ⟨d, next, run, small, size⟩
  | some start =>
    have usable := bounded.usable_le
    have low := inside start rfl
    obtain ⟨d, run, size⟩ := bounded.toHasLength.putU16 (i := start) next (by omega)
    exact ⟨d, p.header.firstFree, run, bounded.valid.firstFree, size⟩

theorem lastStart_inside {pre : List Run} {start stop : Nat}
    (inside : ∀ block ∈ pre, block.1 + block.2 ≤ stop ∧ minCellSize ≤ block.2)
    (last : lastStart none pre = some start) : start + 2 ≤ stop := by
  rcases List.eq_nil_or_concat pre with rfl | ⟨front, block, rfl⟩
  · cases last
  · rw [List.concat_eq_append, lastStart_append] at last
    cases last
    have place := inside block (List.concat_eq_append ▸ List.mem_append_right _ List.mem_cons_self)
    unfold minCellSize at place
    omega

theorem takeBlock_keeps {size : Nat} (bounded : p.Bounded) (enough : size ≤ p.freeBytes) :
    Keeps (takeBlock size) p fun found q => q = p ∧ found = none ∨
      ∃ start, found = some start ∧ Follows p q ∧ q.header.contentStart = p.header.contentStart ∧
        start + size ≤ p.usable ∧ q.freeBytes = p.freeBytes - size := by
  unfold takeBlock setHeader
  refine .get (.lift bounded p.freeBlocks_reports fun blocks found => ?_)
  obtain ⟨-, inside, -⟩ := bounded.blocks found
  have usable := bounded.usable_le
  cases best : bestFit size none blocks none with
  | none => exact .of_ok rfl (.inl ⟨rfl, rfl⟩)
  | some block =>
    obtain ⟨link, start, room⟩ := block
    rcases bestFit_found blocks none none best with none | ⟨pre, post, rfl, fits, rfl⟩
    · cases none
    have place := inside _ (List.mem_append_right pre List.mem_cons_self)
    unfold minCellSize at place
    dsimp only at place ⊢
    split
    · obtain ⟨d, run, long⟩ := bounded.toHasLength.putU16 (i := start + 2) (room - size) (by omega)
      refine .after run (.after (loseFree_ok.mpr ⟨enough, rfl⟩) (.of_ok rfl (.inr ⟨_, rfl, ?_, rfl, ?_, rfl⟩)))
      · exact ⟨(bounded.bytes long).remake bounded.valid rfl bounded.gap bounded.content _,
          ⟨rfl, rfl, rfl, rfl, rfl, rfl, rfl⟩, long⟩
      · omega
    · split
      · rename_i few
        unfold maxFragments at few
        have next : (p.data.u16? start).getD 0 < 65536 := by
          rw [Bytes.u16?_of_le (by omega)]
          exact Bytes.at16_lt p.data start
        obtain ⟨d, first, run, small, long⟩ := bounded.setLink (lastStart none pre) next
          fun _ => lastStart_inside fun block member =>
            (inside block (List.mem_append_left _ member)).2
        have valid : PageHeader.Valid { p.header with
            firstFree := first
            fragments := p.header.fragments + (room - size) } :=
          { bounded.valid with
            firstFree := small
            fragments := show p.header.fragments + (room - size) < 256 by omega }
        have linked := (bounded.bytes long).remake valid rfl bounded.gap bounded.content p.freeBytes
        obtain ⟨e, written, longE⟩ := linked.toHasLength.writeHeader
        refine .after run (.modify (.after written (.after (loseFree_ok.mpr ⟨enough, rfl⟩) (.of_ok rfl
          (.inr ⟨_, rfl, ⟨?_, ⟨rfl, rfl, rfl, rfl, rfl, rfl, rfl⟩, longE.trans long⟩, rfl, ?_, rfl⟩)))))
        · exact (bounded.bytes (longE.trans long)).remake valid rfl bounded.gap bounded.content _
        · omega
      · exact .of_ok rfl (.inl ⟨rfl, rfl⟩)

theorem packCells_keeps {before : Window} (bounded : p.Bounded) (size : before.bytes.size = p.data.size)
    (left : Nat) {i top : Nat} (d : Bytes) (long : d.size = p.data.size) (few : i + left = p.cellCount)
    (high : top ≤ p.usable) :
    Keeps (packCells before left i top) { p with data := d } fun last q =>
      ∃ e : Bytes, q = { p with data := e } ∧ e.size = p.data.size ∧ last ≤ top := by
  have inPage := bounded.usable_le
  have gap := bounded.gap
  have content := bounded.content
  have ends := p.pointersEnd_eq
  unfold pointerSize at ends
  have same : Page.usable { p with data := d } = p.usable := rfl
  induction left generalizing i top d with
  | zero => exact .of_ok rfl ⟨d, rfl, long, Nat.le_refl top⟩
  | succ left ih =>
    have here := bounded.bytes long
    unfold packCells
    refine .get (.lift here (pointer_reports _ _) fun start pointed => .lift here (Cell.decode_reports _ _ _ _)
      fun info decoded => ?_)
    dsimp only
    split
    · exact .throw_bind here (.corrupt _)
    rename_i fits
    simp only [Bool.or_eq_true, decide_eq_true_eq, not_or] at fits
    have slice := (Bytes.slice_ok (d := before.bytes)).mpr ⟨⟨Nat.le_add_right start info.size, by omega⟩, rfl⟩
    have length := Bytes.size_extract_of_le (d := before.bytes) (a := start) (b := start + info.size) (by omega)
    obtain ⟨e, put, longE⟩ := here.toHasLength.put (top - info.size) _ (by
      rw [length]
      change _ ≤ d.size
      omega)
    have longE : e.size = p.data.size := longE.trans long
    obtain ⟨f, point, longF⟩ := (bounded.bytes longE).toHasLength.putU16
      (i := p.pointersStart + i * pointerSize) (top - info.size) (by
        unfold pointerSize
        change _ ≤ e.size
        omega)
    have longF : f.size = p.data.size := longF.trans longE
    refine .known slice (.after put (.after (.trans (Action.get_bind ..) point) ?_))
    refine (ih f longF (by omega) (by omega) rfl).imp ?_
    rintro last q ⟨g, shape, longG, low⟩
    exact ⟨g, shape, longG, by omega⟩

structure Compact (p q : Page) : Prop extends Follows p q where
  firstFree : q.header.firstFree = 0
  fragments : q.header.fragments = 0
  free : q.freeBytes = q.header.contentStart - q.pointersEnd

theorem defragment_keeps (bounded : p.Bounded) : Keeps defragment p fun _ q => Compact p q := by
  have inPage := bounded.usable_le
  have limits := bounded.usable_bounds
  have ⟨positive, order⟩ := p.pointers_order
  unfold defragment setHeader
  refine .get (.bind (packCells_keeps bounded rfl p.cellCount p.data rfl (Nat.zero_add _) (Nat.le_refl _)) ?_)
  rintro top _ - ⟨d, rfl, long, high⟩
  split
  · exact .throw_bind (bounded.bytes long) (.corrupt _)
  rename_i low
  have low : p.pointersEnd ≤ top := Nat.le_of_not_lt low
  obtain ⟨e, cleared, longE⟩ := (bounded.bytes long).toHasLength.clear low (by
    change top ≤ d.size
    omega)
  have longE : e.size = p.data.size := longE.trans long
  have valid : PageHeader.Valid { p.header with firstFree := 0, fragments := 0, contentStart := top } :=
    { bounded.valid with
      firstFree := show 0 < 65536 by decide
      fragments := show 0 < 256 by decide
      contentPos := show 0 < top by omega
      contentLe := show top ≤ 65536 by omega }
  have packed := (bounded.bytes longE).remake valid rfl low high (top - p.pointersEnd)
  obtain ⟨f, written, longF⟩ := packed.toHasLength.writeHeader
  have longF : f.size = p.data.size := longF.trans longE
  refine .after cleared (.modify (.modify (.of_ok written ⟨⟨?_, ⟨rfl, rfl, rfl, rfl, rfl, rfl, rfl⟩, longF⟩, rfl, rfl, rfl⟩)))
  exact (bounded.bytes longF).remake valid rfl low high _

theorem defragmentAndCarve_keeps {size : Nat} (bounded : p.Bounded) :
    Keeps (defragmentAndCarve size) p fun start q => Hands p q start size := by
  unfold defragmentAndCarve
  refine (defragment_keeps bounded).bind fun _ q _ compact => .get ?_
  split
  · exact .throw_bind compact.bounded (.corrupt _)
  rename_i room
  have free := compact.free
  obtain ⟨start, r, run, hands⟩ := compact.bounded.carve size (by omega) (by omega)
  exact .of_ok run { hands with toFollows := compact.toFollows.trans hands.toFollows }

theorem allocate_keeps {size : Nat} (bounded : p.Bounded) (wide : 4 ≤ size)
    (enough : size + pointerSize ≤ p.freeBytes) :
    Keeps (allocate size) p fun start q => Hands p q start size := by
  unfold allocate
  rw [Nat.max_eq_left (show minCellSize ≤ size from wide)]
  refine .get ?_
  split
  · rename_i gap
    refine (takeBlock_keeps bounded (by omega)).bind ?_
    rintro _ q - (⟨rfl, rfl⟩ | ⟨start, rfl, follows, content, inside, free⟩)
    · dsimp only
      split
      · obtain ⟨start, r, run, hands⟩ := bounded.carve size (by omega) enough
        exact .of_ok run hands
      · exact defragmentAndCarve_keeps bounded
    · refine .of_ok rfl { follows with gap := ?_, inside := ?_, spare := by omega }
      · rw [follows.fields.pointersEnd, content]
        exact gap
      · rw [follows.fields.usable]
        exact inside
  · exact defragmentAndCarve_keeps bounded

theorem freeFragment_keeps {size : Nat} (bounded : p.Bounded) : Keeps (freeFragment size) p fun _ q =>
    Follows p q ∧ q.header = { p.header with fragments := p.header.fragments + size } ∧
      q.freeBytes = p.freeBytes + size := by
  unfold freeFragment setHeader gainFree
  refine .get ?_
  dsimp only
  split
  · exact .throw_bind bounded (.corrupt _)
  rename_i few
  have valid : PageHeader.Valid { p.header with fragments := p.header.fragments + size } :=
    { bounded.valid with fragments := show p.header.fragments + size < 256 by omega }
  have more := bounded.remake valid rfl bounded.gap bounded.content (p.freeBytes + size)
  obtain ⟨d, written, long⟩ := more.toHasLength.writeHeader
  have long : d.size = p.data.size := long
  exact .modify (.modify (.of_ok written ⟨⟨more.bytes long, ⟨rfl, rfl, rfl, rfl, rfl, rfl, rfl⟩, long⟩, rfl, rfl⟩))

theorem enlist_keeps {size newStart newStop after fragments : Nat} {link : Option Nat} (alone : Bool)
    (bounded : p.Bounded) (few : fragments < 256) (small : after < 65536)
    (wide : newStart + 4 ≤ newStop) (upper : newStop ≤ p.usable) (linked : ∀ block, link = some block → block + 2 ≤ p.usable) :
    Keeps (enlist size newStart newStop after fragments link alone) p fun _ q => Follows p q := by
  have gap := bounded.gap
  have content := bounded.content
  have inPage := bounded.usable_le
  have limits := bounded.usable_bounds
  have valid : PageHeader.Valid { p.header with fragments := fragments } := { bounded.valid with fragments := few }
  unfold enlist setHeader gainFree
  refine .get (.modify (.modify ?_))
  split
  · have lowered : PageHeader.Valid { p.header with
        fragments := fragments
        firstFree := after
        contentStart := newStop } :=
      { valid with
        firstFree := small
        contentPos := show 0 < newStop by omega
        contentLe := show newStop ≤ 65536 by omega }
    have grown := fun d long => bounded.follows (d := d) lowered ⟨rfl, rfl, rfl⟩
      (show p.pointersEnd ≤ newStop by omega) upper long (p.freeBytes + size)
    obtain ⟨d, written, long⟩ := (grown p.data rfl).bounded.toHasLength.writeHeader
    exact .modify (.of_ok written (grown d long))
  · have more := fun d long => bounded.follows (d := d) valid ⟨rfl, rfl, rfl⟩ gap content long (p.freeBytes + size)
    obtain ⟨d, put, longD⟩ := (more p.data rfl).bounded.toHasLength.putU16 (i := newStart) after
      (show newStart + 2 ≤ p.data.size by omega)
    have longD : d.size = p.data.size := longD
    obtain ⟨e, put', longE⟩ := (more d longD).bounded.toHasLength.putU16 (i := newStart + 2) (newStop - newStart)
      (show newStart + 2 + 2 ≤ d.size by omega)
    have longE : e.size = p.data.size := longE.trans longD
    refine .after put (.after put' ?_)
    cases alone with
    | true =>
      obtain ⟨f, first, run, low, longF⟩ := (more e longE).bounded.setLink link (show newStart < 65536 by omega)
        linked
      have longF : f.size = p.data.size := longF.trans longE
      have linkedTo : PageHeader.Valid { p.header with fragments := fragments, firstFree := first } :=
        { valid with firstFree := low }
      have last := fun d long => bounded.follows (d := d) linkedTo ⟨rfl, rfl, rfl⟩ gap content long
        (p.freeBytes + size)
      obtain ⟨g, written, longG⟩ := (last f longF).bounded.toHasLength.writeHeader
      exact .after run (.of_ok written (last g (longG.trans longF)))
    | false =>
      obtain ⟨g, written, longG⟩ := (more e longE).bounded.toHasLength.writeHeader
      exact .of_ok written (more g (longG.trans longE))

theorem neighbours_mem {blocks : List Run} {start next : Nat} {before : Option Run}
    (around : neighbours start blocks none = (before, next)) :
    (∀ block, before = some block → block ∈ blocks) ∧ (next = 0 ∨ ∃ length, (next, length) ∈ blocks) := by
  obtain ⟨pre, post, rfl, -, near, following⟩ := neighbours_split start blocks none
  rw [around] at near following
  constructor
  · rintro block rfl
    rcases near with ⟨-, none⟩ | ⟨front, nearest, rfl, found⟩
    · cases none
    · cases found
      exact List.mem_append_left _ (List.mem_append_right _ List.mem_cons_self)
  · rcases following with ⟨-, none⟩ | ⟨block, rest, rfl, rfl, -⟩
    · exact .inl none
    · exact .inr ⟨block.2, List.mem_append_right _ List.mem_cons_self⟩

end Page

theorem FreeChain.length_at {d : Bytes} {blocks : List Run} {start stop : Nat} {block : Run}
    (chain : FreeChain d start blocks stop) (member : block ∈ blocks) : d.at16 (block.1 + 2) = block.2 := by
  induction blocks generalizing start with
  | nil => nomatch member
  | cons first rest ih =>
    obtain ⟨-, length, chain⟩ := chain
    rcases List.mem_cons.mp member with rfl | later
    · exact length
    · exact ih chain later

namespace Page

variable {p q : Page}

/-- Where a run ends once it has joined the block behind it, if that is close. -/
def joinedStop (p : Page) (stop next : Nat) : Nat :=
  if next ≠ 0 ∧ next - stop ≤ 3 then next + (p.data.u16? (next + 2)).getD 0 else stop

def joinedNext (p : Page) (stop next : Nat) : Nat :=
  if next ≠ 0 ∧ next - stop ≤ 3 then (p.data.u16? next).getD 0 else next

/-- The fragments left when those on the right of a run are no fragments any more. -/
def joinRight (p : Page) (stop next : Nat) : Except Error Nat :=
  if next ≠ 0 ∧ next - stop ≤ 3 then absorb p.number p.header.fragments (next - stop) else pure p.header.fragments

def joinLeft (p : Page) (start : Nat) (before : Option Run) (fragments : Nat) : Except Error Nat :=
  match joinable start before with
  | some (_, gap) => absorb p.number fragments gap
  | none => pure fragments

section FreeBlock

variable {blocks : List Run} {start size next : Nat} {before : Option Run} (found : p.freeBlocks = .ok blocks)
  (around : neighbours start blocks none = (before, next))

include found around

theorem freeBlock_overlaps (meets : (next ≠ 0 ∧ next < start + size) ∨
    ∃ block, before = some block ∧ start < block.1 + block.2) :
    freeBlock start size p = .error (.freeOverlap p.number start (start + size)) p := by
  unfold freeBlock
  rw [Action.get_bind, found, Action.lift_ok_bind, around]
  dsimp -zeta only
  extract_lets joins newStop after joined newStart write finish toLeft toRight checked
  by_cases overlap : next ≠ 0 ∧ next < start + size
  · rw [if_pos overlap]
    rfl
  · rw [if_neg overlap]
    obtain ⟨block, rfl, late⟩ := meets.resolve_left overlap
    dsimp only [checked]
    rw [if_pos late]
    rfl

theorem freeBlock_apart (clear : ¬ (next ≠ 0 ∧ next < start + size))
    (behind : ∀ block, before = some block → block.1 + block.2 ≤ start) :
    freeBlock start size p = (do
      let between ← p.joinRight (start + size) next
      let left ← p.joinLeft start before between
      enlist size (((joinable start before).map Prod.fst).getD start) (p.joinedStop (start + size) next)
        (p.joinedNext (start + size) next) left (before.map Prod.fst) (joinable start before).isNone : Action Page Unit) p := by
  unfold freeBlock
  rw [Action.get_bind, found, Action.lift_ok_bind, around]
  dsimp -zeta only
  extract_lets joins newStop after joined newStart write finish toLeft toRight checked
  rw [if_neg clear]
  have left : ∀ between, toLeft between = (do
      let left ← p.joinLeft start before between
      finish left : Action Page Unit) := by
    intro between
    have same : joined = joinable start before := rfl
    unfold joinLeft
    dsimp only [toLeft]
    clear_value finish
    rw [same]
    cases joinable start before <;> rfl
  have right : toRight () p = (do
      let between ← p.joinRight (start + size) next
      toLeft between : Action Page Unit) p := by
    unfold joinRight
    dsimp only [toRight]
    clear_value toLeft
    by_cases close : joins
    · rw [if_pos close, if_pos close]
    · rw [if_neg close, if_neg close]
      rfl
  have all : checked () p = toRight () p := by
    dsimp only [checked]
    clear_value toRight
    cases before with
    | none => rfl
    | some block => exact congrFun (if_neg (Nat.not_lt.mpr (behind block rfl))) p
  rw [all, right]
  refine bind_congr_ok rfl fun between q absorbed => ?_
  obtain ⟨-, rfl⟩ := Action.lift_ok.mp absorbed
  rw [left]
  refine bind_congr_ok rfl fun fragments q absorbed => ?_
  obtain ⟨-, rfl⟩ := Action.lift_ok.mp absorbed
  rfl

end FreeBlock

theorem joinRight_le {stop next left : Nat} (run : p.joinRight stop next = .ok left) :
    left ≤ p.header.fragments := by
  unfold joinRight at run
  split at run
  · have sum := absorb_ok run
    omega
  · cases run
    exact Nat.le_refl _

theorem joinLeft_le {start fragments left : Nat} {before : Option Run}
    (run : p.joinLeft start before fragments = .ok left) : left ≤ fragments := by
  unfold joinLeft at run
  split at run
  · have sum := absorb_ok run
    omega
  · cases run
    exact Nat.le_refl _

theorem joinRight_reports (p : Page) (stop next : Nat) : Reports (p.joinRight stop next) :=
  .ite (fun _ => absorb_reports _ _ _) fun _ => .ok _

theorem joinLeft_reports (p : Page) (start : Nat) (before : Option Run) (fragments : Nat) :
    Reports (p.joinLeft start before fragments) := by
  unfold joinLeft
  split
  · exact absorb_reports _ _ _
  · exact .ok _

theorem joinable_le {start : Nat} {before : Option Run}
    (behind : ∀ block, before = some block → block.1 + block.2 ≤ start) :
    ((joinable start before).map Prod.fst).getD start ≤ start := by
  cases before with
  | none => exact Nat.le_refl start
  | some block =>
    have ends := behind block rfl
    unfold joinable
    dsimp only
    split
    · exact Nat.le_trans (Nat.le_add_right block.1 block.2) ends
    · exact Nat.le_refl start

theorem Bounded.joinedStop {blocks : List Run} {stop next : Nat} (bounded : p.Bounded)
    (found : p.freeBlocks = .ok blocks) (isNext : next = 0 ∨ ∃ length, (next, length) ∈ blocks)
    (clear : ¬ (next ≠ 0 ∧ next < stop)) (upper : stop ≤ p.usable) :
    stop ≤ p.joinedStop stop next ∧ p.joinedStop stop next ≤ p.usable ∧ p.joinedNext stop next < 65536 := by
  obtain ⟨chain, inside, -⟩ := bounded.blocks found
  have inPage := bounded.usable_le
  have limits := bounded.usable_bounds
  unfold Page.joinedStop Page.joinedNext
  rcases isNext with rfl | ⟨length, member⟩
  · rw [if_neg (fun close => close.1 rfl), if_neg (fun close => close.1 rfl)]
    exact ⟨Nat.le_refl stop, upper, by decide⟩
  · have place := inside _ member
    have stored := chain.length_at member
    have small := p.data.at16_lt next
    unfold minCellSize at place
    dsimp only at place stored
    rw [Bytes.u16?_of_le (by omega), Bytes.u16?_of_le (by omega), Option.getD_some, Option.getD_some, stored]
    split <;> omega

theorem freeBlock_keeps {start size : Nat} (bounded : p.Bounded) (upper : start + size ≤ p.usable)
    (wide : 4 ≤ size) : Keeps (freeBlock start size) p fun _ q => Follows p q := by
  cases found : p.freeBlocks with
  | error e =>
    unfold freeBlock
    refine .get (.lift bounded p.freeBlocks_reports fun blocks same => ?_)
    cases found.symm.trans same
  | ok blocks =>
    cases around : Page.neighbours start blocks none with
    | mk before next =>
      obtain ⟨isBlock, isNext⟩ := neighbours_mem around
      by_cases meets : (next ≠ 0 ∧ next < start + size) ∨ ∃ block, before = some block ∧ start < block.1 + block.2
      · unfold Keeps
        rw [freeBlock_overlaps found around meets]
        exact ⟨bounded, .corrupt _⟩
      · obtain ⟨clear, before_⟩ := not_or.mp meets
        have behind : ∀ block, before = some block → block.1 + block.2 ≤ start := fun block same =>
          Nat.le_of_not_lt fun late => before_ ⟨block, same, late⟩
        obtain ⟨grows, inPage, small⟩ := bounded.joinedStop found isNext clear upper
        have starts := joinable_le behind
        unfold Keeps
        rw [freeBlock_apart found around clear behind]
        refine Keeps.lift bounded (joinRight_reports _ _ _) fun between right =>
          .lift bounded (joinLeft_reports _ _ _ _) fun left toLeft => ?_
        have less := joinRight_le right
        have less' := joinLeft_le toLeft
        have few := bounded.valid.fragments
        refine enlist_keeps _ bounded (by omega) small (by omega) inPage fun block same => ?_
        obtain ⟨other, isBefore, rfl⟩ := Option.map_eq_some_iff.mp same
        have place := (bounded.blocks found).2.1 _ (isBlock other isBefore)
        unfold minCellSize at place
        omega

theorem free_keeps {start size : Nat} (bounded : p.Bounded) :
    Keeps (free start size) p fun _ q => Follows p q := by
  unfold free
  refine .get ?_
  by_cases outside : (decide (start < p.header.contentStart) || decide (start + size > p.usable)) = true
  · rw [if_pos outside]
    exact .throw_bind bounded (.corrupt _)
  · rw [if_neg outside]
    simp only [Bool.or_eq_true, decide_eq_true_eq, not_or] at outside
    dsimp only
    split
    · exact (freeFragment_keeps bounded).imp fun _ _ found => found.1
    · exact freeBlock_keeps bounded (by omega) (by omega)

theorem place_keeps {i : Nat} {cell : Bytes} (bounded : p.Bounded) (order : i ≤ p.cellCount)
    (wide : 4 ≤ cell.size) (enough : cell.size + pointerSize ≤ p.freeBytes)
    (few : p.cellCount + 1 ≤ p.geometry.maxCells) : Keeps (place i cell) p fun _ q => q.Bounded := by
  unfold place setHeader
  refine (allocate_keeps bounded wide enough).bind fun start r _ hands => ?_
  have content := hands.bounded.content
  have inPage := hands.bounded.usable_le
  have inside := hands.inside
  have gap := hands.gap
  have ends := r.pointersEnd_eq
  have count : r.cellCount = p.cellCount := hands.fields.cellCount
  have large := bounded.sound.large
  unfold Geometry.maxCells at few
  unfold pointerSize at gap ends
  have slot : r.pointersStart + i * pointerSize ≤ r.pointersEnd := by
    unfold pointerSize
    omega
  have long := hands.bounded.toHasLength
  obtain ⟨d1, run, size1⟩ := long.put start cell (by omega)
  refine .after run (.get ?_)
  have long := long.bytes size1
  have shift : r.pointersStart + i * pointerSize + pointerSize +
      (r.pointersEnd - (r.pointersStart + i * pointerSize)) ≤ r.data.size := by
    unfold pointerSize at slot ⊢
    omega
  obtain ⟨d2, run, size2⟩ := long.move slot (by omega) shift
  refine .after run ?_
  have long := long.bytes size2
  have here : r.pointersStart + i * pointerSize + 2 ≤ r.data.size := by
    unfold pointerSize at slot ⊢
    omega
  obtain ⟨d3, run, size3⟩ := long.putU16 start here
  refine .after run (.modify (.after (loseFree_ok.mpr ⟨hands.spare, rfl⟩) ?_))
  have valid : PageHeader.Valid { r.header with cellCount := r.header.cellCount + 1 } :=
    { hands.bounded.valid with cellCount := show r.cellCount + 1 < 65536 by omega }
  have grown := (hands.bounded.bytes size3).remake valid rfl
    (show r.pointersStart + (r.cellCount + 1) * 2 ≤ r.header.contentStart by omega) content (r.freeBytes - pointerSize)
  obtain ⟨d4, written, size4⟩ := grown.toHasLength.writeHeader
  exact .of_ok written (grown.bytes size4)

theorem insert_keeps {i : Nat} {cell : Bytes} (bounded : p.Bounded) (wide : 4 ≤ cell.size) :
    Keeps (insert i cell) p fun _ q => q.Bounded := by
  unfold insert
  refine .get ?_
  by_cases past : i > p.logicalCount
  · rw [if_pos past]
    exact .throw_bind bounded (.range _)
  rw [if_neg past]
  by_cases parks : (p.hasParked || decide (cell.size + pointerSize > p.freeBytes) ||
      decide (p.cellCount + 1 > p.geometry.maxCells)) = true
  · rw [if_pos parks]
    exact .of_ok (Action.modify_run ..) { bounded with }
  · rw [if_neg parks]
    simp only [Bool.or_eq_true, decide_eq_true_eq, not_or, Nat.not_lt] at parks
    have clear : p.parked = [] := by
      have := parks.1.1
      unfold hasParked at this
      simpa using this
    refine place_keeps bounded ?_ wide parks.1.2 parks.2
    unfold logicalCount at past
    rw [clear, List.length_nil] at past
    omega

theorem clearContent_keeps (bounded : p.Bounded) (none : p.cellCount = 0) :
    ∃ q, clearContent p = .ok () q ∧ q.Bounded := by
  have limits := bounded.usable_bounds
  have ⟨positive, order⟩ := p.pointers_order
  have gap := bounded.gap
  have content := bounded.content
  obtain ⟨d, run, size⟩ := bounded.toHasLength.clear (show p.pointersStart ≤ p.usable by omega)
    bounded.usable_le
  have valid : PageHeader.Valid { p.header with firstFree := 0, fragments := 0, contentStart := p.usable } :=
    { bounded.valid with
      firstFree := show 0 < 65536 by decide
      fragments := show 0 < 256 by decide
      contentPos := show 0 < p.usable by omega
      contentLe := limits.2 }
  refine ⟨_, Action.bind_of_ok run, (bounded.bytes size).remake valid rfl ?_ (Nat.le_refl p.usable) _⟩
  change p.pointersStart + p.cellCount * pointerSize ≤ p.usable
  rw [none]
  omega

theorem pointer_inside {i start : Nat} (run : p.pointer i = .ok start) : i < p.cellCount := by
  unfold pointer at run
  split at run
  · exact absurd run Except.throw_bind_ok
  · omega

theorem drop_keeps {i : Nat} (bounded : p.Bounded) : Keeps (drop i) p fun _ q => q.Bounded := by
  unfold drop setHeader gainFree
  refine .get (.lift bounded (p.pointer_reports i) fun start pointed => .lift bounded (p.cellInfo_reports i)
    fun info read => ?_)
  have inside := pointer_inside pointed
  refine (free_keeps bounded).bind fun _ r _ follows => ?_
  have gap := follows.bounded.gap
  have content := follows.bounded.content
  have inPage := follows.bounded.usable_le
  have ends := p.pointersEnd_eq
  have valid := follows.bounded.valid
  rw [follows.fields.pointersEnd] at gap
  unfold pointerSize at ends ⊢
  have long := follows.bounded.toHasLength
  obtain ⟨d1, run, size1⟩ := long.move (show p.pointersStart + i * 2 + 2 ≤ p.pointersEnd by omega) (by omega)
    (show p.pointersStart + i * 2 + _ ≤ _ by omega)
  refine .after run ?_
  have long := long.bytes size1
  obtain ⟨d2, run, size2⟩ := long.clear (Nat.sub_le p.pointersEnd 2) (by omega)
  refine .after run (.modify (.modify (.get ?_)))
  have count : r.cellCount = p.cellCount := follows.fields.cellCount
  have fewer : PageHeader.Valid { r.header with cellCount := r.header.cellCount - 1 } :=
    { valid with cellCount := Nat.lt_of_le_of_lt (Nat.sub_le _ 1) valid.cellCount }
  have start := follows.fields.pointersStart
  have less := (follows.bounded.bytes size2).remake fewer rfl
    (show r.pointersStart + (r.cellCount - 1) * 2 ≤ r.header.contentStart by omega) content (r.freeBytes + 2)
  split
  · rename_i none
    obtain ⟨q, run, cleared⟩ := clearContent_keeps less none
    obtain ⟨e, written, long⟩ := cleared.toHasLength.writeHeader
    exact .after run (.of_ok written (cleared.bytes long))
  · obtain ⟨e, written, long⟩ := less.toHasLength.writeHeader
    exact .of_ok written (less.bytes long)

end Page

end TreeFile
