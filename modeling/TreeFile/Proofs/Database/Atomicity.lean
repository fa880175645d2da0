import TreeFile.Proofs.Cursor.Effects
import TreeFile.Proofs.Freelist.Changes

/-!
Statements are all or nothing. Whatever a statement has done to pages before it fails, its
savepoint has kept what they were, so that in the end no page is other than it was.
-/

namespace TreeFile

namespace Pager

variable {p q r : Pager}

/-- Between calls no savepoint is open, and the cache, the journal and the file agree. -/
structure AtRest (p : Pager) : Prop where
  sound : Sound p.calm
  closed : p.savepoints = []

structure Kept (p q : Pager) : Prop where
  rest : q.AtRest
  pageSize : q.pageSize = p.pageSize
  maxPages : q.maxPages = p.maxPages
  base : q.base = p.base

theorem Kept.trans (first : Kept p q) (second : Kept q r) : Kept p r :=
  ⟨second.rest, second.pageSize.trans first.pageSize, second.maxPages.trans first.maxPages,
    second.base.trans first.base⟩

theorem Browses.kept (browses : Browses p q) (rest : p.AtRest) : Kept p q ∧ q.pages = p.pages :=
  have ⟨sound, similar⟩ := browses rest.sound
  ⟨⟨⟨sound, similar.savepoints.trans rest.closed⟩, similar.pageSize, similar.maxPages,
    similar.steady.base⟩, similar.pages⟩

end Pager

namespace Store

variable {α : Type} {act : StoreM α} {s u : Store} {p q : Pager} {n : Nat}

theorem atomically_ok {a : α} (opened : Pager.openSavepoint s.pager = .ok n p)
    (run : act { s with pager := p } = .ok a u) (released : Pager.releaseSavepoint u.pager = .ok () q) :
    atomically act s = .ok a { u with pager := q } := by
  have opening : onPager Pager.openSavepoint s = .ok n { s with pager := p } :=
    Action.zoom_ok.mpr ⟨p, opened, rfl⟩
  have releasing : onPager Pager.releaseSavepoint u = .ok () { u with pager := q } :=
    Action.zoom_ok.mpr ⟨q, released, rfl⟩
  unfold atomically
  rw [Action.bind_of_ok opening, Action.bind_of_ok (Action.attempt_run_ok run)]
  exact Action.bind_of_ok releasing

theorem atomically_error {e : Error} (opened : Pager.openSavepoint s.pager = .ok n p)
    (run : act { s with pager := p } = .error e u) (rolled : Pager.rollbackSavepoint u.pager = .ok () q) :
    atomically act s = .error e { u with pager := q, generation := u.generation + 1 } := by
  have opening : onPager Pager.openSavepoint s = .ok n { s with pager := p } :=
    Action.zoom_ok.mpr ⟨p, opened, rfl⟩
  have rolling : onPager Pager.rollbackSavepoint u = .ok () { u with pager := q } :=
    Action.zoom_ok.mpr ⟨q, rolled, rfl⟩
  unfold atomically
  rw [Action.bind_of_ok opening, Action.bind_of_ok (Action.attempt_run_error run)]
  exact Action.bind_of_ok rolling

/-- A statement that succeeds has done so inside its savepoint. -/
theorem atomically_inside {a : α} (opened : Pager.openSavepoint s.pager = .ok n p)
    (run : atomically act s = .ok a u) : ∃ v, act { s with pager := p } = .ok a v := by
  have opening : onPager Pager.openSavepoint s = .ok n { s with pager := p } :=
    Action.zoom_ok.mpr ⟨p, opened, rfl⟩
  unfold atomically at run
  rw [Action.bind_of_ok opening] at run
  cases inner : act { s with pager := p } with
  | ok b v =>
    rw [Action.bind_of_ok (Action.attempt_run_ok inner)] at run
    obtain ⟨-, w, -, answered⟩ := Action.bind_ok.mp run
    cases answered
    exact ⟨v, rfl⟩
  | error e v =>
    rw [Action.bind_of_ok (Action.attempt_run_error inner)] at run
    obtain ⟨-, w, -, run⟩ := Action.bind_ok.mp run
    obtain ⟨-, x, -, thrown⟩ := Action.bind_ok.mp run
    cases thrown

end Store

/-- A call leaves the pager at rest, and if it fails it leaves the pages as they were. -/
structure Sturdy {σ α : Type} [HasStore σ] (act : Action σ α) : Prop where
  keeps : ∀ {s : σ}, (HasStore.store s).pager.AtRest →
    Pager.Kept (HasStore.store s).pager (HasStore.store (act.final s)).pager ∧
      (HasStore.store s).Settled (HasStore.store (act.final s))
  spares : ∀ {s t : σ} {e : Error}, (HasStore.store s).pager.AtRest → act s = .error e t →
    (HasStore.store t).pager.pages = (HasStore.store s).pager.pages

namespace Sturdy

variable {σ α β : Type} [HasStore σ]

theorem of_reading (act : Action σ α) [reads : Respects Pager.Browses act] : Sturdy act where
  keeps := by
    intro s rest
    obtain ⟨browses, settled⟩ := reads.stays s
    exact ⟨(browses.kept rest).1, settled⟩
  spares := by
    intro s t e rest failed
    have browses := (reads.stays s).pager
    rw [Action.final_of_error failed] at browses
    exact (browses.kept rest).2

theorem bind {x : Action σ α} {f : α → Action σ β} (first : Sturdy x) (next : ∀ a, Sturdy (f a))
    (quiet : ∀ {s t : σ} {a : α}, (HasStore.store s).pager.AtRest → x s = .ok a t →
      ∀ {u : σ} {e : Error}, f a t = .error e u →
        (HasStore.store t).pager.pages = (HasStore.store s).pager.pages) : Sturdy (x >>= f) where
  keeps := by
    intro s rest
    obtain ⟨kept, settled⟩ := first.keeps rest
    cases run : x s with
    | ok a u =>
      rw [Action.final_of_ok run] at kept settled
      obtain ⟨kept', settled'⟩ := (next a).keeps kept.rest
      rw [Action.final_bind_of_ok run]
      exact ⟨kept.trans kept', settled.trans settled'⟩
    | error e u =>
      rw [Action.final_of_error run] at kept settled
      rw [Action.final_of_error (Action.bind_of_error run)]
      exact ⟨kept, settled⟩
  spares := by
    intro s t e rest failed
    cases run : x s with
    | ok a u =>
      rw [Action.bind_of_ok run] at failed
      have kept := (first.keeps rest).1
      rw [Action.final_of_ok run] at kept
      exact ((next a).spares kept.rest failed).trans (quiet rest run failed)
    | error e' u =>
      rw [Action.bind_of_error run] at failed
      cases failed
      exact first.spares rest run

theorem after_reading {x : Action σ α} {f : α → Action σ β} [reads : Respects Pager.Browses x]
    (next : ∀ a, Sturdy (f a)) : Sturdy (x >>= f) :=
  (of_reading x).bind next fun {s t a} rest run => fun {u e} _ => by
    have browses := (reads.stays s).pager
    rw [Action.final_of_ok run] at browses
    exact (browses.kept rest).2

theorem before_success {x : Action σ α} {f : α → Action σ β} (first : Sturdy x)
    (next : ∀ a, Sturdy (f a)) (succeeds : ∀ a s, ∃ b t, f a s = .ok b t) : Sturdy (x >>= f) :=
  first.bind next fun {s t a} _ _ => fun {u e} failed => by
    obtain ⟨b, v, success⟩ := succeeds a t
    cases success.symm.trans failed

theorem atomically_cases (act : StoreM α) [undoable : Respects Pager.Remembers act] {s : Store}
    (rest : s.pager.AtRest) :
    (∃ a t, Store.atomically act s = .ok a t ∧ Pager.Kept s.pager t.pager ∧ s.Settled t) ∨
      ∃ e t, Store.atomically act s = .error e t ∧ Pager.Kept s.pager t.pager ∧ s.Settled t ∧
        t.pager.pages = s.pager.pages := by
  obtain ⟨q, n, opened, workingQ, baseQ, saved, alone, -, sizeQ, maxQ⟩ :=
    Pager.openSavepoint_works rest.sound
  obtain ⟨kept, settled⟩ := undoable.stays { s with pager := q }
  obtain ⟨working, steady⟩ := kept workingQ
  have settled : s.Settled (act.final { s with pager := q }) :=
    ⟨settled.pageSize, settled.usableSize, settled.limits, settled.vacuum, settled.isOpen,
      settled.generation⟩
  obtain ⟨single, single_⟩ := Pager.opened_of_saved (steady.saved.trans saved)
  rw [steady.outer.trans (alone.trans rest.closed)] at single_
  cases ran : act { s with pager := q } with
  | ok a u =>
    rw [Action.final_of_ok ran] at working steady settled single_
    obtain ⟨v, released, workingV, -, closes⟩ := Pager.releaseSavepoint_works working single_
    refine .inl ⟨a, _, Store.atomically_ok opened ran released, ⟨⟨workingV.sound, closes.closed⟩, ?_, ?_, ?_⟩, ?_⟩
    · exact closes.pageSize.trans (steady.pageSize.trans sizeQ)
    · exact closes.maxPages.trans (steady.maxPages.trans maxQ)
    · exact closes.base.trans (steady.base.trans baseQ)
    · exact ⟨settled.pageSize, settled.usableSize, settled.limits, settled.vacuum, settled.isOpen,
        settled.generation⟩
  | error e' u =>
    rw [Action.final_of_error ran] at working steady settled single_
    obtain ⟨v, rolled, workingV, back, closes⟩ := Pager.rollbackSavepoint_works working single_
    refine .inr ⟨e', _, Store.atomically_error opened ran rolled, ⟨⟨workingV.sound, closes.closed⟩, ?_, ?_, ?_⟩, ?_, ?_⟩
    · exact closes.pageSize.trans (steady.pageSize.trans sizeQ)
    · exact closes.maxPages.trans (steady.maxPages.trans maxQ)
    · exact closes.base.trans (steady.base.trans baseQ)
    · exact ⟨settled.pageSize, settled.usableSize, settled.limits, settled.vacuum, settled.isOpen,
        Nat.le_succ_of_le settled.generation⟩
    · exact Option.some.inj (back.symm.trans (steady.saved.trans saved))

theorem atomically (act : StoreM α) [Respects Pager.Remembers act] :
    Sturdy (Store.atomically act) where
  keeps := by
    intro s rest
    rcases atomically_cases (s := s) act rest with
      ⟨a, t, run, kept, settled⟩ | ⟨e, t, run, kept, settled, -⟩
    · rw [Action.final_of_ok run]
      exact ⟨kept, settled⟩
    · rw [Action.final_of_error run]
      exact ⟨kept, settled⟩
  spares := by
    intro s t e rest failed
    rcases atomically_cases (s := s) act rest with ⟨a, u, run, -⟩ | ⟨e', u, run, -, -, pages⟩
    · cases run.symm.trans failed
    · cases run.symm.trans failed
      exact pages

theorem statement (act : StoreM Unit) (saved : Option Key → Option Key)
    [Respects Pager.Remembers act] : Sturdy (Cursor.statement act saved) := by
  have runs : ∀ s : Seated, s.store.pager.AtRest →
      (∃ t, Cursor.statement act saved s = .ok () t ∧
        Pager.Kept s.store.pager t.store.pager ∧ s.store.Settled t.store) ∨
      ∃ e t, Cursor.statement act saved s = .error e t ∧
        Pager.Kept s.store.pager t.store.pager ∧ s.store.Settled t.store ∧
          t.store.pager.pages = s.store.pager.pages := by
    intro s rest
    unfold Cursor.statement
    rcases atomically_cases act rest with ⟨a, u, ran, effect⟩ | ⟨e, u, ran, effect⟩
    · have whole : Cursor.onStore (Store.atomically act) s = .ok a { s with store := u } :=
        Action.zoom_ok.mpr ⟨u, ran, rfl⟩
      rw [Action.bind_of_ok (Action.attempt_run_ok whole)]
      exact .inl ⟨_, rfl, effect⟩
    · have whole : Cursor.onStore (Store.atomically act) s = .error e { s with store := u } := by
        unfold Cursor.onStore Action.zoom
        dsimp only
        rw [ran]
      rw [Action.bind_of_ok (Action.attempt_run_error whole)]
      exact .inr ⟨_, _, rfl, effect⟩
  constructor
  · intro s rest
    rcases runs s rest with ⟨t, run, effect⟩ | ⟨e, t, run, kept, settled, -⟩
    · rw [Action.final_of_ok run]
      exact effect
    · rw [Action.final_of_error run]
      exact ⟨kept, settled⟩
  · intro s t e rest failed
    rcases runs s rest with ⟨u, run, -⟩ | ⟨e', u, run, -, -, pages⟩
    · cases run.symm.trans failed
    · cases run.symm.trans failed
      exact pages

end Sturdy

inductive Statement where
  | createTree (kind : TreeKind)
  | dropTree (root : PageNo)
  | clearTree (root : PageNo)
  | allocatePage
  | freePage (page : PageNo)
  | vacuumStep
  | insert (cursor : Cursor) (new : NewEntry)
  | delete (cursor : Cursor)

namespace Statement

open Pager (images_of_pages)
open Store (pageOf unsaved unsaved_shows)

def through (cursor : Cursor) (act : CursorM Unit) : StoreM Unit := fun store =>
  match act ⟨cursor, store⟩ with
  | .ok a s => .ok a s.store
  | .error e s => .error e s.store

def run : Statement → StoreM Unit
  | createTree kind => do let _ ← Database.createTree kind
  | dropTree root => do let _ ← Database.dropTree root
  | clearTree root => do let _ ← Database.clearTree root
  | allocatePage => do let _ ← Database.allocatePage
  | freePage page => Database.freePage page
  | vacuumStep => do let _ ← Database.vacuumStep
  | insert cursor new => through cursor (Cursor.insert new)
  | delete cursor => through cursor Cursor.delete

theorem through_final (cursor : Cursor) (act : CursorM Unit) (s : Store) :
    (through cursor act).final s = (act.final ⟨cursor, s⟩).store := by
  unfold Action.final Action.outcome through
  cases act ⟨cursor, s⟩ <;> rfl

theorem through_sturdy {act : CursorM Unit} (cursor : Cursor) (sturdy : Sturdy act) :
    Sturdy (through cursor act) where
  keeps := by
    intro s rest
    have kept := sturdy.keeps (s := ⟨cursor, s⟩) rest
    rw [through_final]
    exact kept
  spares := by
    intro s t e rest failed
    unfold through at failed
    cases ran : act ⟨cursor, s⟩ with
    | ok a u =>
      rw [ran] at failed
      cases failed
    | error e' u =>
      rw [ran] at failed
      cases failed
      exact sturdy.spares (s := ⟨cursor, s⟩) rest ran

theorem answer_sturdy {α : Type} {act : StoreM α} (sturdy : Sturdy act) :
    Sturdy (do let _ ← act : StoreM Unit) :=
  sturdy.before_success (fun _ => .of_reading _) fun _ s => ⟨(), s, rfl⟩

theorem run_sturdy (statement : Statement) : Sturdy statement.run := by
  cases statement with
  | createTree kind => exact answer_sturdy (.atomically _)
  | dropTree root =>
    refine answer_sturdy (.after_reading fun _ => ?_)
    dsimp only
    split
    · exact .of_reading _
    · exact .atomically _
  | clearTree root => exact answer_sturdy (.after_reading fun _ => .atomically _)
  | allocatePage => exact answer_sturdy (.atomically _)
  | freePage page =>
    unfold run Database.freePage
    dsimp only
    split
    · exact .of_reading _
    · exact Sturdy.before_success (.atomically _) (fun _ => .of_reading _)
        fun _ s => ⟨(), _, rfl⟩
  | vacuumStep =>
    refine answer_sturdy (.after_reading fun s => ?_)
    split
    · exact .atomically _
    · exact .of_reading _
  | insert cursor new =>
    refine through_sturdy cursor ?_
    unfold Cursor.insert
    exact .after_reading fun _ => .after_reading fun _ => .after_reading fun (key, body) =>
      .after_reading fun _ => .statement _ _
  | delete cursor =>
    refine through_sturdy cursor ?_
    unfold Cursor.delete
    refine .after_reading fun _ => .after_reading fun _ => .after_reading fun _ =>
      .after_reading fun c => ?_
    dsimp only
    split
    · exact .of_reading _
    · exact .statement _ _

/-- A statement that fails leaves the number of pages and every page as they were. -/
theorem failure_keeps_pages (statement : Statement) {s t : Store} {e : Error}
    (rest : s.pager.AtRest) (failed : statement.run s = .error e t) :
    t.pageCount = s.pageCount ∧ t.pager.images = s.pager.images :=
  images_of_pages ((run_sturdy statement).spares rest failed)

/-- An empty table on page 1, and below page 2 one of whose two leaves the first one is no page of a tree. -/
def spoiled : Store := unsaved [
  pageOf (List.replicate 100 0 ++ [0x0d, 0, 0, 0, 0, 2, 0, 0]) [],
  pageOf [0x05, 0, 0, 0, 1, 1, 251, 0, 0, 0, 0, 4, 1, 251] [0, 0, 0, 3, 1],
  pageOf [] [],
  pageOf [0x0d, 0, 0, 0, 0, 2, 0, 0] []]

theorem spoiled_shows : spoiled.Shows spoiled.disk := unsaved_shows (by decide +kernel) (by decide)

theorem spoiled_parsed : ∃ (root leaf : Page) (info : CellInfo) (e : Error),
    Page.parse 2 (spoiled.disk.image 2) (spoiled.disk.geometry 2) spoiled.disk.limits = .ok root ∧
    Page.parse 4 (spoiled.disk.image 4) (spoiled.disk.geometry 4) spoiled.disk.limits = .ok leaf ∧
    Page.parse 3 (spoiled.disk.image 3) (spoiled.disk.geometry 3) spoiled.disk.limits = .error e ∧
    (root.kind = .tableInterior ∧ root.cellCount = 1 ∧ root.child 0 = .ok 3 ∧ root.child 1 = .ok 4) ∧
    (root.cellInfo 0 = .ok info ∧ info.overflowPage = none) ∧ leaf.kind = .tableLeaf ∧ leaf.cellCount = 0 := by
  have interior : (Page.parse 2 (spoiled.disk.image 2) (spoiled.disk.geometry 2) spoiled.disk.limits >>= fun root =>
      root.child 0 >>= fun left => root.child 1 >>= fun right => root.cellInfo 0 >>= fun info =>
        .ok (root.kind, root.cellCount, left, right, info.overflowPage)) = .ok (.tableInterior, 1, 3, 4, none) := by
    decide +kernel
  have last : (Page.parse 4 (spoiled.disk.image 4) (spoiled.disk.geometry 4) spoiled.disk.limits >>= fun leaf =>
      .ok (leaf.kind, leaf.cellCount)) = .ok (.tableLeaf, 0) := by decide +kernel
  have fails : (Page.parse 3 (spoiled.disk.image 3) (spoiled.disk.geometry 3) spoiled.disk.limits).toBool = false := by
    decide +kernel
  obtain ⟨root, isRoot, interior⟩ := Except.bind_ok.mp interior
  obtain ⟨left, isLeft, interior⟩ := Except.bind_ok.mp interior
  obtain ⟨right, isRight, interior⟩ := Except.bind_ok.mp interior
  obtain ⟨info, first, interior⟩ := Except.bind_ok.mp interior
  obtain ⟨leaf, isLeaf, last⟩ := Except.bind_ok.mp last
  simp only [Except.ok.injEq, Prod.mk.injEq] at interior last
  obtain ⟨kind, count, rfl, rfl, unchained⟩ := interior
  cases parsed : Page.parse 3 (spoiled.disk.image 3) (spoiled.disk.geometry 3) spoiled.disk.limits with
  | ok page =>
    rw [parsed] at fails
    cases fails
  | error e => exact ⟨root, leaf, info, e, isRoot, isLeaf, rfl, ⟨kind, count, isLeft, isRight⟩, ⟨first, unchained⟩, last⟩

/-- The second leaf is given back before the first one is found not to be a page of a tree. -/
theorem spoiled_clear {s : Store} (shows_ : s.Shows spoiled.disk) : ∃ e d t,
    Tree.clear 2 s = .error e t ∧ t.Shows d ∧ d.word FileHeader.freeCountOffset = 1 := by
  obtain ⟨root, leaf, info, e, isRoot, isLeaf, noPage, ⟨kind, count, left, right⟩, ⟨first, unchained⟩, kindLeaf, none⟩ :=
    spoiled_parsed
  have interior : root.isLeaf = false := by
    unfold Page.isLeaf
    rw [kind]
    rfl
  have isLast : leaf.isLeaf = true := by
    unfold Page.isLeaf
    rw [kindLeaf]
    rfl
  have has : ∀ n, 1 ≤ n ∧ n ≤ 4 → spoiled.disk.Has n := fun n inside => inside
  have shelf : spoiled.disk.Shelf [] :=
    ⟨has 1 (by decide), List.nodup_nil, nofun, nofun, nofun, by decide +kernel, by decide +kernel, trivial⟩
  have load : ∀ (n : PageNo) (page : Page), spoiled.disk.Has n →
      Page.parse n (spoiled.disk.image n) (spoiled.disk.geometry n) spoiled.disk.limits = .ok page →
      ∀ {s : Store}, s.Shows spoiled.disk → ∃ t, Store.loadPage n s = .ok page t ∧ t.Shows spoiled.disk := by
    intro n page has parsed s shows_
    obtain ⟨t, loaded, showsT, -⟩ := Store.loadPage_parses shows_ has
    rw [parsed] at loaded
    exact ⟨t, loaded, showsT⟩
  obtain ⟨t1, load1, shows1⟩ := load 2 root (has 2 (by decide)) isRoot shows_
  obtain ⟨t2, load2, shows2⟩ := load 2 root (has 2 (by decide)) isRoot shows1
  obtain ⟨t3, load3, shows3⟩ := load 4 leaf (has 4 (by decide)) isLeaf shows2
  obtain ⟨d1, t4, d, t5, trunks, freed, shows5, -, shelf5, listed, edits, -, -, -, alike, sameCount, images⟩ :=
    Freelist.free_shelf shows3 shelf (Nat.le_succ_of_le (Nat.le_succ 2)) (has 4 (by decide)) (by decide +kernel)
      nofun List.not_mem_nil
  have same : d.image 3 = spoiled.disk.image 3 := by
    rw [images 3 (by decide +kernel), edits.images 3 (by decide) (by decide)]
  have stays : d.Has 3 := ⟨by decide, by
    rw [sameCount, edits.count]
    exact (has 3 (by decide)).2⟩
  obtain ⟨t6, load6, shows6, -⟩ := Store.loadPage_parses shows5 stays
  have unparsed : Page.parse 3 (d.image 3) (d.geometry 3) d.limits = .error e := by
    rw [same, alike.geometry, edits.alike.geometry, alike.limits, edits.alike.limits]
    exact noPage
  rw [unparsed] at load6
  have children : Tree.clearCells root root.cellCount 0 [] t2 = .ok [3] t2 := by
    have unread : Overflow.freeOf info t2 = .ok () t2 := by
      unfold Overflow.freeOf
      rw [unchained]
      rfl
    rw [count]
    unfold Tree.clearCells
    rw [first, Action.lift_ok_bind, Action.bind_of_ok unread, interior, left]
    rfl
  have failed : Tree.clearPages 2 .table 4 [2] 0 t1 = .error e t6 := by
    unfold Tree.clearPages
    rw [Action.bind_of_ok load2, kind, if_neg (by decide)]
    dsimp only
    rw [Action.bind_of_ok children, interior, count, right]
    change Tree.clearPages 2 .table 3 [4, 3] _ t2 = _
    unfold Tree.clearPages
    rw [Action.bind_of_ok load3, kindLeaf, if_neg (by decide), none, isLast]
    change (Freelist.free 4 >>= fun _ => Tree.clearPages 2 .table 2 [3] _) t3 = _
    rw [Action.bind_of_ok freed]
    unfold Tree.clearPages
    exact Action.bind_of_error load6
  refine ⟨e, d, t6, ?_, shows6, ?_⟩
  · unfold Tree.clear
    rw [Action.bind_of_ok load1, kind]
    change (Tree.clearPages 2 .table t1.pageCount [2] 0 >>= _) t1 = _
    rw [shows1.count]
    exact Action.bind_of_error failed
  · rw [shelf5.count, ← listed.length_eq]
    rfl

/-- Inside the statement a page is given back before it fails, and after it no page is other than before. -/
theorem failure_keeps_pages_of_spoiled :
    (∃ e d t, Tree.clear 2 spoiled = .error e t ∧ t.Shows d ∧ d.word FileHeader.freeCountOffset = 1 ∧
      spoiled.disk.word FileHeader.freeCountOffset = 0) ∧
    ∃ e t, (clearTree 2).run spoiled = .error e t ∧ t.pageCount = spoiled.pageCount ∧
      t.pager.images = spoiled.pager.images := by
  obtain ⟨e, d, t, failed, shows_, one⟩ := spoiled_clear spoiled_shows
  refine ⟨⟨e, d, t, failed, shows_, one, by decide +kernel⟩, ?_⟩
  cases run : (clearTree 2).run spoiled with
  | ok a u =>
    obtain ⟨p, n, opened, shows_, -⟩ := spoiled_shows.openSavepoint
    obtain ⟨removed, v, cleared, -⟩ := Action.bind_ok.mp run
    have checked : Database.checkRoot 2 spoiled = .ok () spoiled := rfl
    unfold Database.clearTree at cleared
    rw [Action.bind_of_ok checked] at cleared
    obtain ⟨w, inside⟩ := Store.atomically_inside opened cleared
    obtain ⟨e, d, t, failed, -⟩ := spoiled_clear shows_
    cases inside.symm.trans failed
  | error e u =>
    exact ⟨e, u, rfl, failure_keeps_pages (clearTree 2) ⟨spoiled_shows.sound.pager.calmed, rfl⟩ run⟩

end Statement

end TreeFile
