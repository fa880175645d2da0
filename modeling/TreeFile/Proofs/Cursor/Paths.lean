import TreeFile.Proofs.Cell.Stubs
import TreeFile.Proofs.Cursor.Effects
import TreeFile.Proofs.Page.Audit

/-!
Paths that lead to an entry. A walk that succeeds ends on one if it began on one: each page it goes
down to is the child that the page above names, and the index it leaves is that of a cell. Nothing is
asked of the file, so this holds in a damaged one, too.
-/

namespace TreeFile

open Store

class KeepsGeneration {α : Type} (act : StoreM α) : Prop where
  stays : act.Stays fun s t => t.generation = s.generation

namespace KeepsGeneration

variable {α β : Type}

instance pure (a : α) : KeepsGeneration (pure a) := ⟨fun _ => rfl⟩

instance get : KeepsGeneration (get : StoreM Store) := ⟨fun _ => rfl⟩

instance throw (e : Error) : KeepsGeneration (throw e : StoreM α) := ⟨fun _ => rfl⟩

instance lift (x : Except Error α) : KeepsGeneration (liftM x : StoreM α) := by
  cases x <;> exact ⟨fun _ => rfl⟩

instance bind (x : StoreM α) (f : α → StoreM β) [first : KeepsGeneration x] [second : ∀ a, KeepsGeneration (f a)] :
    KeepsGeneration (x >>= f) :=
  ⟨Action.Stays.bind (fun one two => two.trans one) first.stays fun a => (second a).stays⟩

instance guard (e : Error) (f : α → StoreM β) : KeepsGeneration ((MonadExcept.throw e : StoreM α) >>= f) := throw e

instance ite (c : Prop) [Decidable c] (x y : StoreM α) [KeepsGeneration x] [KeepsGeneration y] :
    KeepsGeneration (if c then x else y) := by
  split <;> infer_instance

instance onPager (act : Action Pager α) : KeepsGeneration (onPager act) := by
  refine ⟨fun s => ?_⟩
  rw [onPager_final]

instance readPage (page : PageNo) : KeepsGeneration (readPage page) := by
  unfold Store.readPage
  infer_instance

instance loadPage (page : PageNo) : KeepsGeneration (loadPage page) := by
  unfold Store.loadPage
  infer_instance

instance readFrom (first : PageNo) (wanted left page : Nat) (seen : PageSet) (found : Bytes) :
    KeepsGeneration (Overflow.readFrom first wanted left page seen found) := by
  have capacity : KeepsGeneration Overflow.capacity := by
    unfold Overflow.capacity
    infer_instance
  induction left generalizing page seen found with
  | zero =>
    rw [Overflow.readFrom_zero_eq]
    infer_instance
  | succ left ih =>
    rw [Overflow.readFrom_succ_eq]
    infer_instance

instance payload (page : Page) (i : Nat) : KeepsGeneration (Overflow.payload page i) := by
  have read (first : PageNo) (wanted : Nat) : KeepsGeneration (Overflow.read first wanted) := by
    unfold Overflow.read
    infer_instance
  have rest (info : CellInfo) (kept : Bytes) : KeepsGeneration (match info.overflowPage with
      | some first => return kept ++ (← Overflow.read first (info.payloadSize - info.kept))
      | none => return kept : StoreM Bytes) := by
    cases info.overflowPage <;> infer_instance
  unfold Overflow.payload
  infer_instance

instance compareCell (t : TreeRef) (page : Page) (i : Nat) (key : Key) : KeepsGeneration (Walk.compareCell t page i key) := by
  unfold Walk.compareCell
  cases key <;> infer_instance

end KeepsGeneration

structure Store.Reads (s t : Store) : Prop where
  within : Store.Within Pager.Browses s t
  generation : t.generation = s.generation

namespace Store.Reads

variable {α : Type} {s t u : Store}

theorem refl (s : Store) : Reads s s := ⟨.refl s, rfl⟩

theorem trans (first : Reads s t) (second : Reads t u) : Reads s u :=
  ⟨first.within.trans second.within, second.generation.trans first.generation⟩

theorem of_ok {act : StoreM α} [reads : Respects Pager.Browses act] [kept : KeepsGeneration act] {a : α}
    (run : act s = .ok a t) : Reads s t := by
  have within := reads.stays s
  have generation := kept.stays s
  rw [Action.final_of_ok run] at within generation
  exact ⟨within, generation⟩

end Store.Reads

/-- The page of a frame is one of the tree, as it was read from a store like this. -/
structure Frame.Read (seen : Store → Prop) (t : TreeRef) (f : Frame) : Prop where
  kind : f.page.kind.tree = t.kind
  loaded : ∃ s u, seen s ∧ loadPage f.page.number s = .ok f.page u

namespace Path

/-- A path down from the root of the tree, each page the child at the index of the one above. -/
inductive Descends (seen : Store → Prop) (t : TreeRef) : Path → Prop
  | root {f : Frame} (read : f.Read seen t) (isRoot : f.page.number = t.root) : Descends seen t [f]
  | child {f parent : Frame} {rest : Path} (read : f.Read seen t)
      (isChild : parent.page.child parent.index = .ok f.page.number) (room : (parent :: rest).length < maxDepth)
      (above : Descends seen t (parent :: rest)) : Descends seen t (f :: parent :: rest)

/-- The path ends at the cell of an entry, on the page of `f`. -/
structure Arrives (seen : Store → Prop) (t : TreeRef) (f : Frame) (above : Path) : Prop where
  descends : Descends seen t (f :: above)
  inside : f.index < f.page.cellCount
  leaf : t.kind = .table → f.page.isLeaf = true

variable {seen : Store → Prop} {t : TreeRef} {f : Frame} {above path : Path}

theorem Descends.withIndex (descends : Descends seen t (f :: above)) (index : Nat) :
    Descends seen t ({ f with index } :: above) := by
  cases descends with
  | root read isRoot => exact .root ⟨read.kind, read.loaded⟩ isRoot
  | child read isChild room above => exact .child ⟨read.kind, read.loaded⟩ isChild room above

theorem child_inside {p : Page} {i : Nat} {child : PageNo} (run : p.child i = .ok child) : i ≤ p.cellCount := by
  unfold Page.child at run
  dsimp only at run
  by_cases leaf : p.isLeaf = true
  · rw [if_pos leaf] at run
    exact absurd run Except.throw_bind_ok
  rw [if_neg leaf] at run
  by_contra outside
  rw [if_neg (by omega), if_neg (by omega)] at run
  exact absurd run Except.throw_bind_ok

theorem Descends.ascend {stop : Frame → Bool} (descends : Descends seen t path) {rest : Path}
    (found : Path.ascend stop path = some (f :: rest)) :
    stop f = true ∧ f.index ≤ f.page.cellCount ∧ Descends seen t (f :: rest) := by
  induction descends with
  | root read isRoot =>
    unfold Path.ascend at found
    cases found
  | child read isChild room above ih =>
    unfold Path.ascend at found
    split at found
    · cases found
      exact ⟨‹_›, child_inside isChild, above⟩
    · exact ih found

end Path

namespace Walk

structure On (seen : Store → Prop) (t : TreeRef) (f : Frame) (above : Path) (w : Walk) : Prop where
  isSeen : seen w.store
  path : w.path = f :: above
  descends : Path.Descends seen t (f :: above)

def Arrived (seen : Store → Prop) (t : TreeRef) (w : Walk) : Prop :=
  seen w.store ∧ ∃ f above, w.path = f :: above ∧ Path.Arrives seen t f above

variable {seen : Store → Prop} {t : TreeRef} {f : Frame} {above : Path} {w v : Walk}

theorem top_ok (run : top w = .ok f v) : v = w ∧ ∃ above, w.path = f :: above := by
  unfold top at run
  rw [Action.get_bind] at run
  cases path : w.path with
  | nil =>
    rw [path] at run
    exact absurd run Action.throw_ok
  | cons g above =>
    rw [path] at run
    obtain ⟨rfl, rfl⟩ := Action.pure_ok.mp run
    exact ⟨rfl, above, rfl⟩

theorem top_run (path : w.path = f :: above) : top w = .ok f w := by
  unfold top
  rw [Action.get_bind, path]
  rfl

theorem On.top (on : On seen t f above w) : Walk.top w = .ok f w := top_run on.path

theorem On.withIndex (on : On seen t f above w) (index : Nat) :
    On seen t { f with index } above { w with path := w.path.setIndex index } where
  isSeen := on.isSeen
  path := by
    rw [on.path]
    rfl
  descends := on.descends.withIndex index

theorem On.arrived (on : On seen t f above w) (inside : f.index < f.page.cellCount)
    (leaf : t.kind = .table → f.page.isLeaf = true) : Arrived seen t w :=
  ⟨on.isSeen, f, above, on.path, on.descends, inside, leaf⟩

theorem onStore_ok {α : Type} {act : StoreM α} {a : α} (run : onStore act w = .ok a v) :
    ∃ s, act w.store = .ok a s ∧ v = { w with store := s } := Action.zoom_ok.mp run

theorem push_ok {number : PageNo} (run : push t number w = .ok () v) : ∃ page s,
    loadPage number w.store = .ok page s ∧ page.kind.tree = t.kind ∧ v = ⟨⟨page, 0⟩ :: w.path, s⟩ := by
  unfold push at run
  obtain ⟨page, u, load, run⟩ := Action.bind_ok.mp run
  obtain ⟨s, loaded, rfl⟩ := onStore_ok load
  dsimp only at run
  split at run
  · exact absurd run Action.throw_bind_ok
  · cases run
    exact ⟨page, s, loaded, not_not.mp ‹_›, rfl⟩

theorem checkLeaf_ok (path : w.path = f :: above) (run : checkLeaf t w = .ok () v) :
    v = w ∧ (above ≠ [] → 0 < f.page.cellCount) := by
  unfold checkLeaf at run
  rw [Action.bind_of_ok (top_run path), Action.get_bind, path] at run
  split at run
  · exact absurd run Action.throw_ok
  · rename_i some
    obtain ⟨-, rfl⟩ := Action.pure_ok.mp run
    refine ⟨rfl, fun inner => Nat.pos_of_ne_zero fun none => some ⟨none, ?_⟩⟩
    rw [List.length_cons]
    exact Nat.succ_lt_succ (List.length_pos_of_ne_nil inner)

section Down

variable (closed : ∀ {s u : Store}, seen s → s.Reads u → seen u)

include closed

theorem toRoot_on (isSeen : seen w.store) (run : toRoot t w = .ok () v) : ∃ page, On seen t ⟨page, 0⟩ [] v := by
  unfold toRoot setPath at run
  rw [Action.modify_bind] at run
  obtain ⟨page, s, load, kind, rfl⟩ := push_ok run
  have number := loadPage_number load
  exact ⟨page, closed isSeen (.of_ok load), rfl, .root ⟨kind, _, s, isSeen, number ▸ load⟩ number⟩

theorem toChild_on {child : PageNo} (on : On seen t f above w) (isChild : f.page.child f.index = .ok child)
    (run : toChild t child w = .ok () v) : ∃ page, On seen t ⟨page, 0⟩ (f :: above) v := by
  unfold toChild at run
  rw [Action.get_bind] at run
  dsimp only at run
  split at run
  · exact absurd run Action.throw_bind_ok
  rename_i room
  rw [on.path] at room
  obtain ⟨page, s, load, kind, rfl⟩ := push_ok run
  have number := loadPage_number load
  refine ⟨page, closed on.isSeen (.of_ok load), by rw [on.path], .child ⟨kind, _, s, on.isSeen, number ▸ load⟩ ?_
    (Nat.lt_of_not_le room) on.descends⟩
  rw [isChild, number]

theorem descendFirst_arrives {left : Nat} (on : On seen t f above w) (first : f.index = 0)
    (some_ : above = [] → 0 < f.page.cellCount) (run : descendFirst t left w = .ok () v) : Arrived seen t v := by
  induction left generalizing f above w with
  | zero => exact absurd run Action.throw_ok
  | succ left ih =>
    unfold descendFirst at run
    rw [Action.bind_of_ok on.top] at run
    split at run
    · rename_i leaf
      obtain ⟨rfl, inner⟩ := checkLeaf_ok on.path run
      refine on.arrived ?_ fun _ => leaf
      rw [first]
      by_cases root : above = []
      · exact some_ root
      · exact inner root
    · obtain ⟨child, isChild, run⟩ := Action.lift_bind_ok.mp run
      obtain ⟨_, u, down, run⟩ := Action.bind_ok.mp run
      obtain ⟨page, onChild⟩ := toChild_on closed on isChild down
      exact ih onChild rfl nofun run

theorem descendLast_on {left : Nat} (on : On seen t f above w) (some_ : above = [] → 0 < f.page.cellCount)
    (run : descendLast t left w = .ok () v) : ∃ g rest, On seen t g rest v ∧ g.page.isLeaf = true ∧
      g.index = g.page.cellCount - 1 ∧ (rest = [] → 0 < g.page.cellCount) := by
  induction left generalizing f above w with
  | zero => exact absurd run Action.throw_ok
  | succ left ih =>
    unfold descendLast at run
    rw [Action.bind_of_ok on.top] at run
    split at run
    · cases run
      exact ⟨_, above, on.withIndex _, ‹_›, rfl, some_⟩
    · rw [setIndex, Action.modify_bind] at run
      obtain ⟨child, isChild, run⟩ := Action.lift_bind_ok.mp run
      obtain ⟨_, u, down, run⟩ := Action.bind_ok.mp run
      obtain ⟨page, onChild⟩ := toChild_on closed (on.withIndex f.page.cellCount) isChild down
      exact ih onChild nofun run

theorem toLast_arrives (on : On seen t f above w) (some_ : above = [] → 0 < f.page.cellCount)
    (run : toLast t w = .ok () v) : Arrived seen t v := by
  unfold toLast at run
  obtain ⟨_, u, down, run⟩ := Action.bind_ok.mp run
  obtain ⟨g, rest, onLast, leaf, last, root⟩ := descendLast_on closed on some_ down
  obtain ⟨rfl, inner⟩ := checkLeaf_ok onLast.path run
  refine onLast.arrived ?_ fun _ => leaf
  have positive : 0 < g.page.cellCount := by
    by_cases isRoot : rest = []
    · exact root isRoot
    · exact inner isRoot
  omega

omit closed in
theorem search_ok {page : Page} {key : Key} {left lo hi : Nat} {s u : Store} {slot : Slot}
    (run : search t page key left lo hi s = .ok slot u) :
    s.Reads u ∧ ∀ i, slot = .cell i → i < hi ∧
      ∃ r v, s.Reads r ∧ compareCell t page i key r = .ok .eq v := by
  induction left generalizing lo hi s with
  | zero =>
    obtain ⟨rfl, rfl⟩ := Action.pure_ok.mp run
    exact ⟨.refl s, fun _ => nofun⟩
  | succ left ih =>
    unfold search at run
    split at run
    · dsimp only at run
      obtain ⟨order, r, compared, run⟩ := Action.bind_ok.mp run
      have reads := Reads.of_ok compared
      cases order with
      | lt =>
        obtain ⟨later, found⟩ := ih run
        refine ⟨reads.trans later, fun i isCell => ?_⟩
        obtain ⟨inside, r', v, reads', equal⟩ := found i isCell
        exact ⟨inside, r', v, reads.trans reads', equal⟩
      | gt =>
        obtain ⟨later, found⟩ := ih run
        refine ⟨reads.trans later, fun i isCell => ?_⟩
        obtain ⟨inside, r', v, reads', equal⟩ := found i isCell
        exact ⟨by omega, r', v, reads.trans reads', equal⟩
      | eq =>
        obtain ⟨rfl, rfl⟩ := Action.pure_ok.mp run
        refine ⟨reads, fun i isCell => ?_⟩
        cases isCell
        exact ⟨by omega, s, r, .refl s, compared⟩
    · obtain ⟨rfl, rfl⟩ := Action.pure_ok.mp run
      exact ⟨.refl s, fun _ => nofun⟩

/-- The walk has ended its search for a key: at an entry, unless there is none. -/
def Landed (seen : Store → Prop) (t : TreeRef) (key : Key) (landing : Landing) (w : Walk) : Prop :=
  seen w.store ∧ (landing ≠ .empty → ∃ f above, w.path = f :: above ∧ Path.Arrives seen t f above ∧
    (landing = .equal → ∃ s u, seen s ∧ compareCell t f.page f.index key s = .ok .eq u))

omit closed in
theorem Landed.arrived {key : Key} {landing : Landing} (landed : Landed seen t key landing w)
    (some_ : landing ≠ .empty) : Arrived seen t w := by
  obtain ⟨f, above, path, arrives, -⟩ := landed.2 some_
  exact ⟨landed.1, f, above, path, arrives⟩

omit closed in
theorem Arrived.landed {key : Key} {landing : Landing} (arrived : Arrived seen t w) (other : landing ≠ .equal) :
    Landed seen t key landing w := by
  obtain ⟨isSeen, f, above, path, arrives⟩ := arrived
  exact ⟨isSeen, fun _ => ⟨f, above, path, arrives, fun equal => absurd equal other⟩⟩

omit closed in
theorem On.landed {key : Key} {i : Nat} (on : On seen t f above w) (inside : i < f.page.cellCount)
    (leaf : t.kind = .table → f.page.isLeaf = true)
    (equal : ∃ s u, seen s ∧ compareCell t f.page i key s = .ok .eq u) :
    Landed seen t key .equal { w with path := w.path.setIndex i } := by
  have there := on.withIndex i
  exact ⟨there.isSeen, fun _ => ⟨_, above, there.path, ⟨there.descends, inside, leaf⟩, fun _ => equal⟩⟩

omit closed in
theorem landOnLeaf_lands {key : Key} {slot : Slot} {landing : Landing} (on : On seen t f above w)
    (leaf : f.page.isLeaf = true)
    (found : ∀ i, slot = .cell i → i < f.page.cellCount ∧
      ∃ s u, seen s ∧ compareCell t f.page i key s = .ok .eq u)
    (run : landOnLeaf t f.page slot w = .ok landing v) : Landed seen t key landing v := by
  unfold landOnLeaf at run
  split at run
  · obtain ⟨_, u, checked, last⟩ := Action.bind_ok.mp run
    obtain ⟨rfl, -⟩ := checkLeaf_ok on.path checked
    obtain ⟨rfl, rfl⟩ := Action.pure_ok.mp last
    exact ⟨on.isSeen, fun some_ => absurd rfl some_⟩
  rename_i some_
  split at run
  · rename_i i
    obtain ⟨inside, equal⟩ := found i rfl
    cases run
    exact on.landed inside (fun _ => leaf) equal
  · split at run
    · rename_i inside
      cases run
      exact ((on.withIndex _).arrived inside fun _ => leaf).landed nofun
    · cases run
      exact ((on.withIndex _).arrived (Nat.sub_one_lt some_) fun _ => leaf).landed nofun

theorem descend_lands {key : Key} {left : Nat} {landing : Landing} (on : On seen t f above w)
    (run : descend t key left w = .ok landing v) : Landed seen t key landing v := by
  induction left generalizing f above w with
  | zero => exact absurd run Action.throw_ok
  | succ left ih =>
    unfold descend at run
    rw [Action.bind_of_ok on.top] at run
    obtain ⟨slot, u, stored, run⟩ := Action.bind_ok.mp run
    obtain ⟨s, searched, rfl⟩ := onStore_ok stored
    obtain ⟨reads, found⟩ := search_ok searched
    have onLater : On seen t f above { w with store := s } := ⟨closed on.isSeen reads, on.path, on.descends⟩
    have found' : ∀ i, slot = .cell i → i < f.page.cellCount ∧
        ∃ s u, seen s ∧ compareCell t f.page i key s = .ok .eq u := by
      intro i isCell
      obtain ⟨inside, r, v, reads, equal⟩ := found i isCell
      exact ⟨inside, r, v, closed on.isSeen reads, equal⟩
    have further {i : Nat} (run : (do
        let child ← f.page.child i
        setIndex i
        toChild t child
        descend t key left : WalkM Landing) { w with store := s } = .ok landing v) :
        Landed seen t key landing v := by
      obtain ⟨child, isChild, run⟩ := Action.lift_bind_ok.mp run
      rw [setIndex, Action.modify_bind] at run
      obtain ⟨_, u, down, run⟩ := Action.bind_ok.mp run
      obtain ⟨page, onChild⟩ := toChild_on closed (onLater.withIndex i) isChild down
      exact ih onChild run
    split at run
    · exact landOnLeaf_lands onLater ‹_› found' run
    cases slot with
    | before i => exact further run
    | cell i =>
      cases kind : t.kind with
      | table =>
        rw [kind] at run
        exact further run
      | index =>
        rw [kind] at run
        cases run
        obtain ⟨inside, equal⟩ := found' i rfl
        refine onLater.landed inside (fun isTable => ?_) equal
        rw [kind] at isTable
        cases isTable

theorem toKey_lands {key : Key} {landing : Landing} (isSeen : seen w.store) (run : toKey t key w = .ok landing v) :
    Landed seen t key landing v := by
  unfold toKey at run
  obtain ⟨_, u, atRoot, run⟩ := Action.bind_ok.mp run
  obtain ⟨page, on⟩ := toRoot_on closed isSeen atRoot
  exact descend_lands closed on run

theorem belowFirst_arrives {found : Bool} (on : On seen t f above w) (run : (do
      toChild t (← f.page.child f.index)
      toFirst t
      return true : WalkM Bool) w = .ok found v) : Arrived seen t v := by
  obtain ⟨child, isChild, run⟩ := Action.lift_bind_ok.mp run
  obtain ⟨_, u, down, run⟩ := Action.bind_ok.mp run
  obtain ⟨page, onChild⟩ := toChild_on closed on isChild down
  obtain ⟨_, u, first, run⟩ := Action.bind_ok.mp run
  obtain ⟨-, rfl⟩ := Action.pure_ok.mp run
  exact descendFirst_arrives closed onChild rfl nofun first

theorem belowLast_arrives {found : Bool} (on : On seen t f above w) (run : (do
      toChild t (← f.page.child f.index)
      toLast t
      return true : WalkM Bool) w = .ok found v) : Arrived seen t v := by
  obtain ⟨child, isChild, run⟩ := Action.lift_bind_ok.mp run
  obtain ⟨_, u, down, run⟩ := Action.bind_ok.mp run
  obtain ⟨page, onChild⟩ := toChild_on closed on isChild down
  obtain ⟨_, u, last, run⟩ := Action.bind_ok.mp run
  obtain ⟨-, rfl⟩ := Action.pure_ok.mp run
  exact toLast_arrives closed onChild nofun last

omit closed in
theorem On.ascend {stop : Frame → Bool} {g : Frame} {rest : Path} (on : On seen t f above w)
    (found : Path.ascend stop w.path = some (g :: rest)) :
    stop g = true ∧ g.index ≤ g.page.cellCount ∧ On seen t g rest { w with path := g :: rest } := by
  rw [on.path] at found
  obtain ⟨stops, inside, descends⟩ := on.descends.ascend found
  exact ⟨stops, inside, on.isSeen, rfl, descends⟩

theorem next_arrives {found : Bool} (arrived : Arrived seen t w) (run : next t w = .ok found v)
    (isFound : found = true) : Arrived seen t v := by
  subst isFound
  obtain ⟨isSeen, f, above, path, descends, inside, leaf⟩ := arrived
  have on : On seen t f above w := ⟨isSeen, path, descends⟩
  unfold next at run
  rw [Action.bind_of_ok on.top, setIndex, Action.modify_bind] at run
  have onNext := on.withIndex (f.index + 1)
  split at run
  · exact belowFirst_arrives closed onNext run
  rename_i isLeaf
  simp only [Bool.not_eq_true', Bool.not_eq_false] at isLeaf
  split at run
  · obtain ⟨-, rfl⟩ := Action.pure_ok.mp run
    exact onNext.arrived ‹_› fun _ => isLeaf
  rw [Action.get_bind] at run
  dsimp only at run
  generalize up : Path.ascend _ _ = higher at run
  match higher with
  | none => cases run
  | some [] => cases run
  | some (parent :: rest) =>
    obtain ⟨less, -, onParent⟩ := onNext.ascend up
    dsimp only at run
    rw [setPath, Action.modify_bind] at run
    split at run
    · rename_i isIndex
      obtain ⟨-, rfl⟩ := Action.pure_ok.mp run
      refine onParent.arrived (of_decide_eq_true less) fun isTable => ?_
      rw [isIndex] at isTable
      cases isTable
    · rw [setIndex, Action.modify_bind] at run
      exact belowFirst_arrives closed (onParent.withIndex (parent.index + 1)) run

theorem previous_arrives {found : Bool} (arrived : Arrived seen t w) (run : previous t w = .ok found v)
    (isFound : found = true) : Arrived seen t v := by
  subst isFound
  obtain ⟨isSeen, f, above, path, descends, inside, leaf⟩ := arrived
  have on : On seen t f above w := ⟨isSeen, path, descends⟩
  unfold previous at run
  rw [Action.bind_of_ok on.top] at run
  split at run
  · exact belowLast_arrives closed on run
  rename_i isLeaf
  simp only [Bool.not_eq_true', Bool.not_eq_false] at isLeaf
  split at run
  · rw [setIndex, Action.modify_bind] at run
    obtain ⟨-, rfl⟩ := Action.pure_ok.mp run
    exact (on.withIndex (f.index - 1)).arrived (Nat.lt_of_le_of_lt (Nat.sub_le _ _) inside) fun _ => isLeaf
  rw [Action.get_bind] at run
  generalize up : Path.ascend _ _ = higher at run
  match higher with
  | none => cases run
  | some [] => cases run
  | some (parent :: rest) =>
    obtain ⟨more, low, onParent⟩ := on.ascend up
    dsimp only at run
    rw [setPath, Action.modify_bind, setIndex, Action.modify_bind] at run
    have onBefore := onParent.withIndex (parent.index - 1)
    split at run
    · rename_i isIndex
      obtain ⟨-, rfl⟩ := Action.pure_ok.mp run
      have positive := of_decide_eq_true more
      refine onBefore.arrived (by dsimp only; omega) fun isTable => ?_
      rw [isIndex] at isTable
      cases isTable
    · exact belowLast_arrives closed onBefore run

theorem accept_arrives {key : Key} {bias : SeekBias} {landing : Landing} {found : Bool}
    (landed : Landed seen t key landing w) (run : Cursor.accept t bias landing w = .ok found v)
    (isFound : found = true) : Arrived seen t v := by
  subst isFound
  cases landing with
  | empty => cases run
  | equal =>
    cases run
    exact landed.arrived nofun
  | greater =>
    cases bias with
    | exact => cases run
    | le => exact previous_arrives closed (landed.arrived nofun) run rfl
    | ge =>
      cases run
      exact landed.arrived nofun
  | less =>
    cases bias with
    | exact => cases run
    | le =>
      cases run
      exact landed.arrived nofun
    | ge => exact next_arrives closed (landed.arrived nofun) run rfl

end Down

end Walk

def Frame.key (kind : TreeKind) (f : Frame) : StoreM Key :=
  match kind with
  | .table => return .row (← f.page.cellInfo f.index).key
  | .index => return .bytes (← Overflow.payload f.page f.index)

def TreeRef.Same (t : TreeRef) : Key → Key → Prop
  | .row a, .row b => a = b
  | .bytes a, .bytes b => a = b ∨ t.order.compare a b = .eq
  | _, _ => False

theorem Page.overflowPage_none {p : Page} {i : Nat} {info : CellInfo} (isIndex : p.kind.tree = .index)
    (found : p.cellInfo i = .ok info) (whole : ¬ info.spills = true) : info.overflowPage = none := by
  have none {start : Nat} {c : CellInfo}
      (run : Cell.decodePayload p.window start p.kind p.limits c = .ok info) : info.overflowPage = none := by
    obtain ⟨head, link, -, rfl⟩ := Cell.decodePayload_ok.mp run
    rw [if_neg (by simpa only [CellInfo.spills, gt_iff_lt, decide_eq_true_eq] using whole)] at link
    exact link
  unfold Page.cellInfo at found
  obtain ⟨start, -, found⟩ := Except.bind_ok.mp found
  cases kind : p.kind with
  | tableLeaf =>
    rw [kind] at isIndex
    cases isIndex
  | tableInterior =>
    rw [kind] at isIndex
    cases isIndex
  | indexLeaf =>
    rw [kind] at found none
    obtain ⟨size, n, -, -, run⟩ := Cell.decode_indexLeaf.mp found
    exact none run
  | indexInterior =>
    rw [kind] at found none
    obtain ⟨child, size, n, -, -, -, run⟩ := Cell.decode_indexInterior.mp found
    exact none run

def TreeRef.compareKeys (t : TreeRef) : Key → Key → Ordering
  | .row a, .row b => compare a b
  | .bytes a, .bytes b => t.order.compare a b
  | .row _, .bytes _ => .lt
  | .bytes _, .row _ => .gt

theorem Walk.compareCell_ok {t : TreeRef} {f : Frame} {key : Key} {o : Ordering} {s u : Store}
    (fits : key.fits t.kind = true) (kind : f.page.kind.tree = t.kind)
    (run : compareCell t f.page f.index key s = .ok o u) :
    ∃ stored, f.key t.kind s = .ok stored u ∧ o = t.compareKeys stored key := by
  unfold compareCell at run
  obtain ⟨info, found, run⟩ := Action.lift_bind_ok.mp run
  cases key with
  | row row =>
    cases isTable : t.kind with
    | index =>
      rw [isTable] at fits
      cases fits
    | table =>
      obtain ⟨rfl, rfl⟩ := Action.pure_ok.mp run
      refine ⟨.row info.key, ?_, rfl⟩
      unfold Frame.key
      dsimp only
      rw [found]
      rfl
  | bytes key =>
    cases isIndex : t.kind with
    | table =>
      rw [isIndex] at fits
      cases fits
    | index =>
      dsimp only at run
      split at run
      · obtain ⟨body, v, read, run⟩ := Action.bind_ok.mp run
        obtain ⟨rfl, rfl⟩ := Action.pure_ok.mp run
        exact ⟨.bytes body, Action.bind_of_ok read, rfl⟩
      · rename_i whole
        obtain ⟨body, sliced, run⟩ := Action.lift_bind_ok.mp run
        obtain ⟨rfl, rfl⟩ := Action.pure_ok.mp run
        have read : Overflow.payload f.page f.index s = .ok body s := by
          unfold Overflow.payload
          rw [found, Action.lift_ok_bind, sliced, Action.lift_ok_bind,
            Page.overflowPage_none (kind.trans isIndex) found whole]
          rfl
        exact ⟨.bytes body, Action.bind_of_ok read, rfl⟩

theorem Walk.compareCell_same {t : TreeRef} {f : Frame} {key : Key} {s u : Store} (fits : key.fits t.kind = true)
    (kind : f.page.kind.tree = t.kind) (run : compareCell t f.page f.index key s = .ok .eq u) :
    ∃ stored v, f.key t.kind s = .ok stored v ∧ t.Same stored key := by
  obtain ⟨stored, read, equal⟩ := compareCell_ok fits kind run
  refine ⟨stored, u, read, ?_⟩
  cases stored <;> cases key
  · exact Std.compare_eq_iff_eq.mp equal.symm
  · cases equal
  · cases equal
  · exact .inr equal.symm

end TreeFile
