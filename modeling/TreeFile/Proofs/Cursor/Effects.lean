import TreeFile.Cursor.Edit
import TreeFile.Cursor.Position
import TreeFile.Database
import TreeFile.Proofs.Store.Effects

/-!
What cursors, checks and other reading calls do to the pager. All but inserting and deleting only
read pages.
-/

namespace TreeFile

variable {P : Trait}

-- the search follows an action step by step, and some have many steps
set_option synthInstance.maxSize 512

open Store

namespace Walk

instance {α : Type} [P.Reading] (act : StoreM α) [Obeys P act] : Obeys P (onStore act) :=
  .zoom (fun _ => rfl) fun _ _ => rfl

theorem startAt_inside {α : Type} (path : Path) (act : WalkM α) :
    startAt path act = act.inside (fun s => ⟨path, s⟩) (fun a w => (a, w.path)) fun _ w => w.store := by
  funext s
  unfold startAt Action.inside
  cases act ⟨path, s⟩ <;> rfl

instance {α : Type} [P.Reading] (path : Path) (act : WalkM α) [Obeys P act] : Obeys P (startAt path act) := by
  rw [startAt_inside]
  exact .inside (fun _ => rfl) fun _ _ => rfl

instance [P.Reading] (path : Path) : Obeys P (setPath path) :=
  .modify (fun _ => rfl) fun w => .refl w.store

instance [P.Reading] (index : Nat) : Obeys P (setIndex index) :=
  .modify (fun _ => rfl) fun w => .refl w.store

instance [P.Reading] : Obeys P top := by
  unfold top
  refine .andThen inferInstance fun w => ?_
  split <;> infer_instance

instance [P.Reading] (t : TreeRef) (number : PageNo) : Obeys P (push t number) := by
  unfold push
  refine .andThen inferInstance fun page => ?_
  dsimp only
  split
  · infer_instance
  · exact .modify (fun _ => rfl) fun w => .refl w.store

instance [P.Reading] (t : TreeRef) : Obeys P (toRoot t) := by
  unfold toRoot
  infer_instance

instance [P.Reading] (t : TreeRef) (child : PageNo) : Obeys P (toChild t child) := by
  unfold toChild
  infer_instance

instance [P.Reading] (t : TreeRef) : Obeys P (checkLeaf t) := by
  unfold checkLeaf
  infer_instance

instance [P.Reading] (t : TreeRef) (left : Nat) : Obeys P (descendFirst t left) := by
  induction left with
  | zero =>
    unfold descendFirst
    infer_instance
  | succ left ih =>
    unfold descendFirst
    infer_instance

instance [P.Reading] (t : TreeRef) : Obeys P (toFirst t) := by
  unfold toFirst
  infer_instance

instance [P.Reading] (t : TreeRef) (left : Nat) : Obeys P (descendLast t left) := by
  induction left with
  | zero =>
    unfold descendLast
    infer_instance
  | succ left ih =>
    unfold descendLast
    infer_instance

instance [P.Reading] (t : TreeRef) : Obeys P (toLast t) := by
  unfold toLast
  infer_instance

instance [P.Reading] (t : TreeRef) (page : Page) (i : Nat) (key : Key) : Obeys P (compareCell t page i key) := by
  unfold compareCell
  cases key <;> infer_instance

instance [P.Reading] (t : TreeRef) (page : Page) (key : Key) (left lo hi : Nat) :
    Obeys P (search t page key left lo hi) := by
  induction left generalizing lo hi with
  | zero =>
    unfold search
    infer_instance
  | succ left ih =>
    unfold search
    split
    · refine .andThen inferInstance fun ordering => ?_
      cases ordering <;> infer_instance
    · infer_instance

instance [P.Reading] (t : TreeRef) (page : Page) (slot : Slot) : Obeys P (landOnLeaf t page slot) := by
  unfold landOnLeaf
  cases slot <;> infer_instance

instance [P.Reading] (t : TreeRef) (key : Key) (left : Nat) : Obeys P (descend t key left) := by
  induction left with
  | zero =>
    unfold descend
    infer_instance
  | succ left ih =>
    unfold descend
    refine .andThen inferInstance fun frame => .andThen inferInstance fun slot => ?_
    split
    · infer_instance
    split <;> infer_instance

instance [P.Reading] (t : TreeRef) (key : Key) : Obeys P (toKey t key) := by
  unfold toKey
  infer_instance

instance [P.Reading] (t : TreeRef) : Obeys P (next t) := by
  unfold next
  refine .andThen inferInstance fun top => ?_
  dsimp only
  refine .andThen inferInstance fun _ => ?_
  split
  · infer_instance
  split
  · infer_instance
  refine .andThen inferInstance fun w => ?_
  split <;> infer_instance

instance [P.Reading] (t : TreeRef) : Obeys P (previous t) := by
  unfold previous
  refine .andThen inferInstance fun top => ?_
  split
  · infer_instance
  split
  · infer_instance
  refine .andThen inferInstance fun w => ?_
  split <;> infer_instance

end Walk

namespace Edit

instance [P.Writing] (frame : Frame) (landing : Landing) : Obeys P (makeWay frame landing) := by
  unfold makeWay
  cases landing <;> infer_instance

instance [P.Writing] (t : TreeRef) (key : Key) (body : Bytes) : Obeys P (insert t key body) := by
  unfold insert
  refine .andThen inferInstance fun (landing, path) => ?_
  dsimp only
  split
  · infer_instance
  refine .andThen inferInstance fun (index, leftChild, page) => ?_
  infer_instance

instance [P.Writing] (frame : Frame) (above : Path) : Obeys P (deleteOnLeaf frame above) := by
  unfold deleteOnLeaf
  infer_instance

instance [P.Writing] (t : TreeRef) (path : Path) (child : PageNo) : Obeys P (takePredecessor t path child) := by
  unfold takePredecessor
  refine .andThen inferInstance fun (leaf, path) => ?_
  infer_instance

instance [P.Writing] (t : TreeRef) (key : Bytes) : Obeys P (balanceBelow t key) := by
  unfold balanceBelow
  refine .andThen inferInstance fun (done, path) => ?_
  infer_instance

instance [P.Writing] (t : TreeRef) (frame : Frame) (above : Path) :
    Obeys P (deleteOnInterior t frame above) := by
  unfold deleteOnInterior
  refine .andThen inferInstance fun info => ?_
  dsimp only
  split
  · refine .andThen inferInstance fun (predecessor, key) => .andThen inferInstance fun _ =>
      .andThen inferInstance fun page => .andThen inferInstance fun s =>
      .andThen inferInstance fun cell => .andThen inferInstance fun moved => ?_
    cases moved.overflowPage <;> infer_instance
  · infer_instance

instance [P.Writing] (t : TreeRef) (path : Path) : Obeys P (delete t path) := by
  unfold delete
  cases path with
  | nil => infer_instance
  | cons frame above => infer_instance

end Edit

namespace Cursor

instance {α : Type} [P.Reading] (act : StoreM α) [Obeys P act] : Obeys P (onStore act) :=
  .zoom (fun _ => rfl) fun _ _ => rfl

instance {α : Type} [P.Reading] (act : WalkM α) [Obeys P act] : Obeys P (walk act) :=
  .zoom (fun _ => rfl) fun _ _ => rfl

instance [P.Reading] (f : Cursor → Cursor) : Obeys P (update f) :=
  .modify (fun _ => rfl) fun s => .refl s.store

instance [P.Reading] : Obeys P current := by
  unfold current
  infer_instance

instance [P.Reading] : Obeys P target := by
  unfold target
  infer_instance

instance [P.Reading] : Obeys P storeGeneration := by
  unfold storeGeneration
  infer_instance

instance [P.Reading] : Obeys P checkOpen := by
  unfold checkOpen
  infer_instance

instance [P.Reading] : Obeys P checkWritable := by
  unfold checkWritable
  infer_instance

instance [P.Reading] (key : Key) : Obeys P (reseek key) := by
  unfold reseek
  refine .andThen inferInstance fun tree => .andThen inferInstance fun landing => ?_
  cases landing <;> infer_instance

instance [P.Reading] : Obeys P restore := by
  unfold restore
  refine .andThen inferInstance fun c => ?_
  cases c.savedKey <;> infer_instance

instance [P.Reading] : Obeys P keyHere := by
  unfold keyHere
  refine .andThen inferInstance fun top => .andThen inferInstance fun tree => ?_
  split <;> infer_instance

instance [P.Reading] (found : Bool) : Obeys P (settle found) := by
  unfold settle
  infer_instance

theorem fromRoot_obeys [P.Reading] {go : TreeRef → WalkM Unit} (walks : ∀ t, Obeys P (go t)) :
    Obeys P (fromRoot go) := by
  unfold fromRoot
  infer_instance

instance [P.Reading] : Obeys P first := fromRoot_obeys inferInstance

instance [P.Reading] : Obeys P last := fromRoot_obeys inferInstance

theorem step_obeys [P.Reading] (taken : Skip) {go : TreeRef → WalkM Bool}
    (walks : ∀ t, Obeys P (go t)) : Obeys P (step taken go) := by
  unfold step
  refine .andThen inferInstance fun _ => .andThen inferInstance fun _ =>
    .andThen inferInstance fun c => ?_
  split <;> infer_instance

instance [P.Reading] : Obeys P next := step_obeys .next inferInstance

instance [P.Reading] : Obeys P previous := step_obeys .previous inferInstance

instance [P.Reading] (t : TreeRef) (bias : SeekBias) (landing : Landing) :
    Obeys P (accept t bias landing) := by
  unfold accept
  cases landing <;> cases bias <;> infer_instance

instance [P.Reading] (key : Key) (bias : SeekBias) : Obeys P (seek key bias) := by
  unfold seek
  infer_instance

instance [P.Reading] : Obeys P requireEntry := by
  unfold requireEntry
  refine .andThen inferInstance fun _ => .andThen inferInstance fun c => ?_
  split <;> infer_instance

instance [P.Reading] : Obeys P entryFrame := by
  unfold entryFrame
  infer_instance

instance [P.Reading] : Obeys P rowId := by
  unfold rowId
  infer_instance

instance [P.Reading] : Obeys P payload := by
  unfold payload
  infer_instance

instance [P.Reading] : Obeys P key := by
  unfold key
  infer_instance

instance [P.Reading] : Obeys P payloadSize := by
  unfold payloadSize
  infer_instance

instance [P.Reading] (start length : Nat) : Obeys P (payloadRange start length) := by
  unfold payloadRange
  infer_instance

instance [P.Reading] (t : TreeRef) (left : Nat) (page : PageNo) : Obeys P (countFrom t left page) := by
  induction left generalizing page with
  | zero =>
    unfold countFrom
    infer_instance
  | succ left ih =>
    unfold countFrom
    infer_instance

instance [P.Reading] : Obeys P count := by
  unfold count
  infer_instance

instance [P.Reading] : Obeys P entryHere := by
  unfold entryHere
  infer_instance

instance [P.Reading] (started : Bool) : Obeys P (scanStep started) := by
  unfold scanStep
  infer_instance

instance [P.Reading] (started : Bool) (limit : Nat) : Obeys P (scan started limit) := by
  induction limit generalizing started with
  | zero =>
    unfold scan
    infer_instance
  | succ limit ih =>
    unfold scan
    refine .andThen inferInstance fun result => ?_
    split
    · infer_instance
    · infer_instance
    · refine .andThen inferInstance fun (entries, e) => ?_
      infer_instance

end Cursor

namespace Integrity

instance : HasStore Check := ⟨Check.store⟩

instance {α : Type} [P.Reading] (act : StoreM α) [Obeys P act] : Obeys P (onStore act) :=
  .zoom (fun _ => rfl) fun _ _ => rfl

instance {α : Type} [P.Reading] (act : StoreM α) [Obeys P act] : Obeys P (attempt act) := by
  unfold attempt
  infer_instance

instance [P.Reading] : Obeys P isFull := by
  unfold isFull
  infer_instance

instance [P.Reading] (finding : String) : Obeys P (report finding) := by
  refine .modify (fun c => ?_) fun c => ?_
  · split <;> rfl
  · split <;> exact .refl c.store

instance [P.Reading] (page : PageNo) (what : String) : Obeys P (mark page what) := by
  unfold mark
  refine .andThen inferInstance fun c => ?_
  split
  · infer_instance
  split
  · exact .andThen (.modify (fun _ => rfl) fun c => .refl c.store) fun _ => inferInstance
  · exact .andThen (.modify (fun _ => rfl) fun c => .refl c.store) fun _ => inferInstance

instance [P.Reading] (page : PageNo) (expected : PointerEntry) : Obeys P (checkEntry page expected) := by
  unfold checkEntry
  refine .andThen inferInstance fun c => ?_
  split
  · refine .andThen inferInstance fun found => ?_
    split <;> infer_instance
  · infer_instance

instance [P.Reading] (first : PageNo) (total left : Nat) (page : PageNo) (expected : PointerEntry) :
    Obeys P (checkChain first total left page expected) := by
  induction left generalizing page expected with
  | zero =>
    unfold checkChain
    infer_instance
  | succ left ih =>
    unfold checkChain
    refine .andThen inferInstance fun full => ?_
    split
    · infer_instance
    refine .andThen inferInstance fun c => ?_
    split
    · infer_instance
    refine .andThen inferInstance fun marked => ?_
    split
    · infer_instance
    refine .andThen inferInstance fun _ => .andThen inferInstance fun data => ?_
    split <;> infer_instance

instance [P.Reading] (page : Page) (i : Nat) (info : CellInfo) : Obeys P (cellKey page i info) := by
  have named : ∀ chainOk : Bool, Obeys P (
      match page.kind.tree with
      | .table => pure (some (.row info.key))
      | .index => do
        if chainOk then
          match ← attempt (Overflow.payload page i) with
          | .ok payload => return some (.bytes payload)
          | .error _ => return none
        else return none : CheckM (Option Key)) := by
    intro chainOk
    split
    · infer_instance
    split
    · refine .andThen inferInstance fun result => ?_
      split <;> infer_instance
    · infer_instance
  unfold cellKey
  cases info.overflowPage with
  | none => exact .andThen inferInstance named
  | some first => exact .andThen inferInstance fun c => .andThen inferInstance named

instance [P.Reading] (page : Page) (range : KeyRange) (left i : Nat) (before : Option Key) :
    Obeys P (checkCells page range left i before) := by
  induction left generalizing i before with
  | zero =>
    unfold checkCells
    infer_instance
  | succ left ih =>
    unfold checkCells
    dsimp only
    refine .andThen inferInstance fun full => ?_
    split
    · infer_instance
    split
    · infer_instance
    refine .andThen inferInstance fun key => ?_
    have rest : Obeys P (do
        match ← checkCells page range left (i + 1) (key.or before) with
        | some keys => return some (key :: keys)
        | none => return none : CheckM (Option (List (Option Key)))) := by
      refine .andThen inferInstance fun keys => ?_
      cases keys <;> infer_instance
    cases key <;> infer_instance

instance [P.Reading] (page : Page) : Obeys P (checkLayout page) := by
  unfold checkLayout
  split <;> infer_instance

theorem checkChildren_obeys [P.Reading] (page : Page)
    {visit : PageNo → KeyRange → CheckM (Option Nat)} (visits : ∀ child range, Obeys P (visit child range))
    (i : Nat) (ranges : List KeyRange) (depth : Option Nat) :
    Obeys P (checkChildren page visit i ranges depth) := by
  induction ranges generalizing i depth with
  | nil =>
    unfold checkChildren
    infer_instance
  | cons range rest ih =>
    unfold checkChildren
    dsimp only
    refine .andThen inferInstance fun full => ?_
    split
    · infer_instance
    split
    · infer_instance
    · refine .andThen inferInstance fun found => ?_
      split <;> infer_instance

instance [P.Reading] (kind : TreeKind) (left : Nat) (number : PageNo) (parent : Option PageNo)
    (range : KeyRange) : Obeys P (checkTree kind left number parent range) := by
  induction left generalizing number parent range with
  | zero =>
    unfold checkTree
    infer_instance
  | succ left ih =>
    unfold checkTree
    dsimp only
    refine .andThen inferInstance fun full => ?_
    split
    · infer_instance
    refine .andThen inferInstance fun c => ?_
    split
    · infer_instance
    refine .andThen inferInstance fun marked => ?_
    split
    · infer_instance
    refine .andThen inferInstance fun _ => .andThen inferInstance fun loaded => ?_
    split
    · infer_instance
    rename_i page
    have children := fun ranges => checkChildren_obeys (P := P) page
      (fun child range => ih child (some number) range) 0 ranges none
    have rest : Obeys P (do
        checkLayout page
        match ← checkCells page range page.cellCount 0 none with
        | none => return none
        | some keys =>
          if page.isLeaf then return some (maxDepth - left)
          checkChildren page (fun child range => checkTree kind left child (some number) range)
            0 (childRanges range.lower range.upper keys) none : CheckM (Option Nat)) := by
      refine .andThen inferInstance fun _ => .andThen inferInstance fun keys => ?_
      cases keys with
      | none => infer_instance
      | some keys => infer_instance
    infer_instance

instance [P.Reading] (root : PageNo) : Obeys P (checkRoot root) := by
  unfold checkRoot
  refine .andThen inferInstance fun full => ?_
  split
  · infer_instance
  refine .andThen inferInstance fun c => ?_
  split
  · infer_instance
  refine .andThen inferInstance fun loaded => ?_
  split <;> infer_instance

instance [P.Reading] (pages : List PageNo) : Obeys P (checkFreePages pages) := by
  induction pages with
  | nil =>
    unfold checkFreePages
    infer_instance
  | cons page rest ih =>
    unfold checkFreePages
    infer_instance

instance [P.Reading] : Obeys P checkFreelist := by
  unfold checkFreelist
  refine .andThen inferInstance fun free => ?_
  split <;> infer_instance

instance [P.Reading] (roots : List PageNo) : Obeys P (checkLargestRoot roots) := by
  unfold checkLargestRoot
  infer_instance

instance [P.Reading] (left page : Nat) : Obeys P (checkUnused left page) := by
  induction left generalizing page with
  | zero =>
    unfold checkUnused
    infer_instance
  | succ left ih =>
    unfold checkUnused
    infer_instance

instance [P.Reading] (roots : List PageNo) : Obeys P (checkAll roots) := by
  unfold checkAll
  infer_instance

theorem check_inside (roots : List PageNo) (maxErrors : Nat) :
    check roots maxErrors = (checkAll roots).inside
      (fun s => {
        store := s, maxErrors, pageCount := s.pageCount
        reached := markReserved s (s.pageCount + 1) 0 (BitSet.empty (s.pageCount + 1)) })
      (fun _ c => ⟨c.errors.reverse, c.pagesChecked⟩) fun _ c => c.store := by
  funext s
  unfold check Action.inside
  dsimp only
  cases checkAll roots _ <;> rfl

instance [P.Reading] (roots : List PageNo) (maxErrors : Nat) : Obeys P (check roots maxErrors) := by
  rw [check_inside]
  exact .inside (fun _ => rfl) fun _ _ => rfl

end Integrity

namespace Database

instance [P.Reading] (root : PageNo) : Obeys P (checkRoot root) := by
  unfold checkRoot
  infer_instance

instance [P.Reading] (root : PageNo) (order : KeyOrder) : Obeys P (findTree root order) := by
  unfold findTree
  infer_instance

instance [P.Reading] (i : Nat) : Obeys P (metaValue i) := by
  unfold metaValue
  infer_instance

instance [P.Reading] : Obeys P header := by
  unfold header
  infer_instance

instance [P.Reading] : Obeys P freeCount := by
  unfold freeCount
  infer_instance

instance [P.Reading] (page : PageNo) : Obeys P (pageData page) := by
  unfold pageData
  infer_instance

instance [P.Reading] (page : PageNo) : Obeys P (pointerEntry page) := by
  unfold pointerEntry
  infer_instance

instance [P.Reading] (roots : List PageNo) (maxErrors : Nat) :
    Obeys P (checkIntegrity roots maxErrors) := by
  unfold checkIntegrity
  infer_instance

end Database

end TreeFile
