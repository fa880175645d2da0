import TreeFile.Proofs.Pager.BlankPages

/-!
Pages that come into being because the image grows. One that is added is blank. So is one that a write
behind it skips, if it has not been in the image since the last commit; otherwise it may come back with the
bytes that it had. A blank page is stored by the next commit, in a file that is long enough for it.
-/

namespace TreeFile

namespace Pager

variable {p q r : Pager} {n top : Nat}

theorem begin_cache (p : Pager) : (begin.final p).cache = p.cache := by
  show (if p.state = .writing then _ else _ : Pager).cache = _
  split <;> rfl

theorem write_dirty (dirty : Dirty p n) (page : Nat) (data : Bytes) : Dirty ((write page data).final p) n := by
  have began := (begin_warms p).dirty n dirty
  rcases write_notes n page data p with ⟨e, failed⟩ | ⟨-, ends⟩
  · rw [Action.final_of_error failed]
    exact dirty
  cases run : write page data p with
  | error e q =>
    rw [Action.final_of_error run]
    exact (ends.error run).dirty.mpr began
  | ok a q =>
    obtain ⟨t, notes, rfl⟩ := ends.ok run
    rw [Action.final_of_ok run]
    unfold Dirty store
    dsimp only
    rw [PageMap.get_insert]
    split
    · exact ⟨data, rfl⟩
    · rename_i other
      exact (notes.passes other).dirty.mpr began

theorem access_dirty (dirty : Dirty p n) (access : Access) : Dirty (access.run p) n := by
  cases access with
  | fetch page => exact (fetch_warms page p).dirty n dirty
  | write page data => exact write_dirty dirty page data
  | extend =>
    dsimp only [Access.run]
    rcases extend_final p with same | written
    · rw [same]
      exact dirty
    · rw [written]
      exact write_dirty dirty _ _
  | truncate count => exact (truncate_hardens count p).dirty n dirty

def Covered (n top : Nat) (p : Pager) : Prop :=
  n * p.pageSize ≤ p.file.bytes.size ∨
    p.state = .writing ∧ (n ≤ p.startCount → n ∈ p.journal) ∧ ∃ k, n ≤ k ∧ k ≤ top ∧ Dirty p k

namespace Covered

theorem passes (covered : Covered n top p) (passes : Passes n p q) (dirty : ∀ k, Dirty p k → Dirty q k) :
    Covered n top q := by
  rcases covered with reached | ⟨writing, journaled, k, low, high, waits⟩
  · left
    rw [passes.bytes, passes.pageSize]
    exact reached
  · refine .inr ⟨passes.writing.mpr writing, ?_, k, low, high, dirty k waits⟩
    rw [passes.startCount, PageMap.mem_iff, passes.journal, ← PageMap.mem_iff]
    exact journaled

theorem begin (covered : Covered n top p) : Covered n top (Pager.begin.final p) := by
  show Covered n top (if p.state = .writing then _ else _)
  split
  · exact covered
  · rename_i idle
    exact .inl (covered.resolve_right fun busy => idle busy.1)

theorem access (covered : Covered n top p) (access : Access) (avoids : Request.Avoids n p (.call (.access access))) :
    Covered n top (access.run p) := by
  rcases access_passes access avoids with passes | passes
  · exact covered.passes passes fun k waits => access_dirty waits access
  · refine covered.begin.passes passes fun k waits => access_dirty ?_ access
    unfold Dirty at waits ⊢
    rw [begin_cache] at waits
    exact waits

theorem call (covered : Covered n top p) (call : Call) (avoids : Request.Avoids n p (.call call)) :
    Covered n top (call.run p) := by
  cases call with
  | access access => exact covered.access access avoids
  | openSavepoint =>
    dsimp only [Call.run]
    rw [openSavepoint_final]
    exact covered.begin
  | releaseSavepoint =>
    dsimp only [Call.run]
    rcases releaseSavepoint_cases p with ⟨-, same⟩ | ⟨inner, -, same⟩ | ⟨inner, outer, rest, -, same⟩
    all_goals
      rw [same]
      exact covered
  | rollbackSavepoint =>
    dsimp only [Call.run]
    rcases rollbackSavepoint_cases p with ⟨-, same⟩ | ⟨inner, rest, cache, -, same, held⟩
    · rw [same]
      exact covered
    · rw [same]
      -- the page that waits may get an older image, which waits as well
      refine covered.imp id fun ⟨writing, journaled, k, low, high, data, waits⟩ => ⟨writing, journaled, k, low, high, ?_⟩
      unfold Dirty
      dsimp only
      rw [held, waits]
      cases inner.undo[k]? with
      | some image => exact ⟨image, rfl⟩
      | none => exact ⟨data, rfl⟩

theorem rollback (covered : Covered n top p) (avoids : p.state = .writing → n ∉ p.journal)
    (inside : n ≤ (Pager.rollback.final p).pageCount) : Covered n top (Pager.rollback.final p) := by
  rcases rollback_cases p with ⟨-, same⟩ | ⟨writing, cache, same, -⟩
  · rw [same]
    exact covered
  · rw [same] at inside ⊢
    exact .inl (covered.resolve_right fun ⟨_, journaled, _⟩ => avoids writing (journaled inside))

theorem flushes (covered : Covered n top p) (flushes : Flushes p q) (inside : n ≤ p.pageCount) :
    Covered n top q := by
  have size := flushes.sizes.pageSize
  have long := flushes.long
  have within : n * p.pageSize ≤ p.pageCount * p.pageSize := Nat.mul_le_mul_right _ inside
  rcases covered with reached | ⟨writing, journaled, k, low, high, waits⟩
  · left
    rw [size]
    omega
  · rcases flushes.pages k with ⟨cached, -⟩ | ⟨-, reached, -⟩
    · right
      rw [flushes.rest]
      refine ⟨writing, journaled, k, low, high, ?_⟩
      unfold Dirty at waits ⊢
      dsimp only
      rw [cached]
      exact waits
    · left
      rw [size]
      exact Nat.le_trans (Nat.mul_le_mul_right _ low) reached

theorem drained (covered : Covered n top p) (drained : Drained p q) (low : n ≤ top) (inside : top ≤ p.pageCount) :
    n * q.pageSize ≤ q.file.bytes.size := by
  have left := covered.flushes drained.1 (Nat.le_trans low inside)
  refine left.resolve_right ?_
  rintro ⟨-, -, k, -, high, waits⟩
  exact drained.clean (fun _ => Nat.le_trans high inside) waits

theorem request (covered : Covered n top p) (even : ∀ k, Even k p) {request : Request} (avoids : request.Avoids n p)
    (low : n ≤ top) (inside : top ≤ p.pageCount) (after : top ≤ (request.run p).pageCount) :
    Covered n top (request.run p) := by
  cases request with
  | begin => exact covered.begin
  | call call => exact covered.call call avoids
  | rollback => exact covered.rollback avoids (Nat.le_trans low after)
  | commit =>
    dsimp only [Request.run]
    rcases commit_final even with same | ⟨-, flushes | ⟨r, drained, same⟩⟩
    · rw [same]
      exact covered
    · exact covered.flushes flushes (Nat.le_trans low inside)
    · rw [same]
      have reached := covered.drained drained low inside
      exact .inl reached

end Covered

structure Unread (p : Pager) : Prop where
  cache : p.cache = {}
  journal : p.journal = {}
  closed : p.savepoints = []

theorem Unread.even (unread : Unread p) (k : Nat) : Even k p :=
  even_of_unread unread.cache unread.journal unread.closed k

/-- The pager has read nothing yet of a file of whole pages, or it has just committed a transaction. -/
inductive Rests : Pager → Prop where
  | opened {p : Pager} (unread : Unread p) (whole : p.file.bytes.size = p.pageCount * p.pageSize)
      (start : p.startCount = p.pageCount) : Rests p
  | committed {p q : Pager} {requests : List Request} (unread : Unread p)
      (writing : (serve p requests).state = .writing) (done : commit (serve p requests) = .ok () q) : Rests q

theorem Rests.even (rests : Rests p) : ∀ k, Even k p := by
  cases rests with
  | opened unread => exact unread.even
  | @committed _ _ requests unread _ done =>
    have even := (Request.run_even (serve_even unread.even requests).1 .commit).1
    dsimp only [Request.run] at even
    rw [Action.final_of_ok done] at even
    exact even

theorem fileImage_past (short : p.file.bytes.size ≤ p.pageCount * p.pageSize) (past : p.pageCount < n) :
    p.fileImage n = .zeros p.pageSize := by
  have positive : n ≠ 0 := Nat.ne_zero_of_lt past
  have within : p.pageCount * p.pageSize ≤ (n - 1) * p.pageSize := Nat.mul_le_mul_right _ (by omega)
  refine Bytes.ext_get (by rw [size_fileImage, Bytes.size_zeros]) fun i _ => ?_
  rw [p.get_fileImage positive, Bytes.get_zeros]
  split
  · exact Bytes.get_of_ge (by omega)
  · rfl

theorem Rests.fresh (rests : Rests p) (past : p.pageCount < n) : Fresh n p ∧ Blank n p := by
  have known : p.startCount < n ∧ p.cache[n]? = none ∧ n ∉ p.journal ∧ p.savepoints = [] ∧
      p.fileImage n = .zeros p.pageSize := by
    cases rests with
    | opened unread whole start =>
      refine ⟨start ▸ past, ?_, ?_, unread.closed, fileImage_past (Nat.le_of_eq whole) past⟩
      · rw [unread.cache]
        exact Std.TreeMap.getElem?_emptyc
      · rw [unread.journal]
        exact Std.TreeMap.not_mem_emptyc
    | @committed o _ requests unread writing done =>
      -- the commit has cut the file where the image ends, and dropped what the cache had behind it
      obtain ⟨r, drained, rfl⟩ := (commit_flushes (serve_even unread.even requests).1 writing).ok done
      obtain ⟨-, long, cut, -⟩ := commit_ok writing done
      have count : r.finished.pageCount = (serve o requests).pageCount := drained.1.count.1
      have size : r.finished.pageSize = (serve o requests).pageSize := drained.1.count.2
      refine ⟨past, ?_, Std.TreeMap.not_mem_emptyc, rfl, fileImage_past ?_ past⟩
      · cases held : r.finished.cache[n]? with
        | none => rfl
        | some image => exact absurd (finished_cache held).1 (Nat.not_le.mpr past)
      · rw [cut, count, size]
        exact Nat.min_le_right _ _
  obtain ⟨start, uncached, unjournaled, closed, image⟩ := known
  have clean : ¬ Dirty p n := by
    rintro ⟨data, found⟩
    cases uncached.symm.trans found
  refine ⟨⟨start, clean, unjournaled, fun s member => ?_⟩, ⟨fun image found => ?_, .inr image,
    fun dirty => absurd dirty clean⟩⟩
  · rw [closed] at member
    cases member
  · cases uncached.symm.trans found

def Below (n : Nat) : Pager → List Request → Prop
  | p, [] => p.pageCount < n
  | p, request :: rest => p.pageCount < n ∧ Below n (request.run p) rest

instance : (p : Pager) → (requests : List Request) → Decidable (Below n p requests)
  | p, [] => inferInstanceAs (Decidable (p.pageCount < n))
  | p, request :: rest =>
    have := instDecidableBelow (request.run p) rest
    inferInstanceAs (Decidable (p.pageCount < n ∧ Below n (request.run p) rest))

theorem Below.first {requests : List Request} (below : Below n p requests) : p.pageCount < n := by
  cases requests with
  | nil => exact below
  | cons request rest => exact below.1

theorem Fresh.serve (fresh : Fresh n p) (blank : Blank n p) (even : ∀ k, Even k p) {requests : List Request}
    (below : Below n p requests) : Fresh n (serve p requests) ∧ Blank n (serve p requests) ∧
      (serve p requests).pageCount < n := by
  -- what the induction carries is that the transaction knows nothing of the page, which so stays blank
  induction requests generalizing p with
  | nil => exact ⟨fresh, blank, below⟩
  | cons request rest ih =>
    have avoids := fresh.avoids request below.2.first
    exact ih (fresh.request even below.1 avoids) (blank.request even avoids fun dirty => absurd dirty fresh.clean)
      (request.run_even even).1 below.2

/-- Page `n` comes into the image, which then ends with page `last`. It is added, or a write behind it skips
it, and in that case it has not been in the image since the pager rested. -/
inductive Emerges (n : Nat) : Nat → Pager → Prop where
  | added {p q : Pager} {before : List Request} (unread : Unread p) (run : extend (serve p before) = .ok n q) :
      Emerges n n q
  | skipped {p q : Pager} {before : List Request} {last : Nat} {data : Bytes} (rests : Rests p)
      (below : Below n p before) (past : n < last) (run : write last data (serve p before) = .ok () q) :
      Emerges n last q

/-- Page `n` stays in the image, which does not become shorter than `top`, and no request writes it or
brings back an image of it. -/
def Remains (n top : Nat) : Pager → List Request → Prop
  | p, [] => top ≤ p.pageCount
  | p, request :: rest => top ≤ p.pageCount ∧ request.Avoids n p ∧ Remains n top (request.run p) rest

instance : (p : Pager) → (requests : List Request) → Decidable (Remains n top p requests)
  | p, [] => inferInstanceAs (Decidable (top ≤ p.pageCount))
  | p, request :: rest =>
    have := instDecidableRemains (request.run p) rest
    inferInstanceAs (Decidable (top ≤ p.pageCount ∧ request.Avoids n p ∧ Remains n top (request.run p) rest))

theorem Remains.first {requests : List Request} (remains : Remains n top p requests) : top ≤ p.pageCount := by
  cases requests with
  | nil => exact remains
  | cons request rest => exact remains.1

theorem write_puts {page : Nat} {data : Bytes} (run : write page data p = .ok () q) :
    q.cache[page]? = some { data, dirty := true } ∧ q.state = .writing ∧ (page ≤ q.startCount → page ∈ q.journal) := by
  rcases write_notes page page data p with ⟨e, failed⟩ | ⟨-, ends⟩
  · cases failed.symm.trans run
  obtain ⟨t, notes, rfl⟩ := ends.ok run
  have begun : (begin.final p).state = .writing := by
    show (if p.state = .writing then _ else _ : Pager).state = _
    split
    · assumption
    · rfl
  exact ⟨(PageMap.get_insert _ _ _ _).trans (if_pos rfl), notes.writing.mpr begun, notes.journal⟩

/-- What is known of page `n` from when it has come into the image. -/
structure Emerged (n last top : Nat) (p : Pager) : Prop where
  even : ∀ k, Even k p
  positive : n ≠ 0
  bound : n ≤ p.maxPages
  blank : Blank n p
  covered : last ≤ top → Covered n top p

theorem Emerges.emerged {last : Nat} (emerges : Emerges n last q) (low : n ≤ top) : Emerged n last top q := by
  cases emerges with
  | @added p _ before unread run =>
    have even := (serve_even unread.even before).1
    obtain ⟨next, written⟩ := extend_iff_write.mp run
    have evenQ := fun k => (even k).write n (.zeros (serve p before).pageSize)
    have sizes := Sizes.write n (.zeros (serve p before).pageSize) (serve p before)
    rw [Action.final_of_ok written] at evenQ sizes
    obtain ⟨cache, writing, journaled⟩ := write_puts written
    -- the file will reach the page because the page itself waits
    have waits : Dirty q n := ⟨_, cache⟩
    refine ⟨evenQ, by omega, sizes.maxPages ▸ write_bound written, ⟨fun image found => ?_, .inl waits,
      fun _ => ⟨writing, journaled⟩⟩, fun _ => .inr ⟨writing, journaled, n, Nat.le_refl n, low, waits⟩⟩
    cases cache.symm.trans found
    rw [sizes.pageSize]
  | @skipped p _ before _ data rests below past written =>
    have even := (serve_even rests.even before).1
    obtain ⟨fresh, blank⟩ := rests.fresh below.first
    obtain ⟨fresh, blank, short⟩ := fresh.serve blank rests.even below
    have evenQ := fun k => (even k).write last data
    have sizes := Sizes.write last data (serve p before)
    have passes := write_passes (p := serve p before) data fun own => absurd own.symm (Nat.ne_of_lt past)
    rw [Action.final_of_ok written] at evenQ sizes passes
    obtain ⟨cache, writing, -⟩ := write_puts written
    have known : Fresh n q ∧ Blank n q := by
      rcases passes with same | passes
      · exact same ▸ ⟨fresh, blank⟩
      · exact ⟨(fresh.begin short).passes passes, blank.begin.passes passes⟩
    have bound := write_bound written
    -- here it is the page that was written which waits
    refine ⟨evenQ, Nat.ne_zero_of_lt short, ?_, known.2, fun reached => .inr ⟨writing, fun old => ?_, last,
      Nat.le_of_lt past, reached, _, cache⟩⟩
    · rw [sizes.maxPages]
      exact Nat.le_trans (Nat.le_of_lt past) bound
    · exact absurd old (Nat.not_le.mpr known.1.start)

theorem Emerged.serve {requests : List Request} {last : Nat} (emerged : Emerged n last top p) (low : n ≤ top)
    (remains : Remains n top p requests) : Emerged n last top (serve p requests) ∧ top ≤ (serve p requests).pageCount := by
  induction requests generalizing p with
  | nil => exact ⟨emerged, remains⟩
  | cons request rest ih =>
    obtain ⟨inside, avoids, later⟩ := remains
    obtain ⟨even, sizes⟩ := request.run_even emerged.even
    have within := Nat.le_trans low inside
    have after := Nat.le_trans low later.first
    exact ih ⟨even, emerged.positive, sizes.maxPages ▸ emerged.bound,
      emerged.blank.request emerged.even avoids fun _ => ⟨within, after⟩,
      fun reached => (emerged.covered reached).request emerged.even avoids low inside later.first⟩ later

theorem Emerged.commit {last : Nat} (emerged : Emerged n last top p) (low : n ≤ top) (inside : top ≤ p.pageCount)
    (done : Pager.commit p = .ok () q) : Blank n q ∧ q.fileImage n = .zeros q.pageSize ∧
      (last ≤ top → n * q.pageSize ≤ q.file.bytes.size) := by
  have within : Dirty p n → n ≤ p.pageCount := fun _ => Nat.le_trans low inside
  have blank := emerged.blank.commit emerged.even within
  rw [Action.final_of_ok done] at blank
  by_cases writing : p.state = .writing
  · obtain ⟨r, drained, rfl⟩ := (commit_flushes emerged.even writing).ok done
    have clean : ¬ Dirty r.finished n := by
      rintro ⟨data, found⟩
      exact drained.clean within ⟨data, (finished_cache found).2⟩
    refine ⟨blank, blank.kept.resolve_left clean, fun reached => ?_⟩
    have length := (emerged.covered reached).drained drained low inside
    exact length
  · cases (commit_idle writing).symm.trans done
    refine ⟨blank, blank.kept.resolve_left fun dirty => writing (blank.busy dirty).1, fun reached => ?_⟩
    exact (emerged.covered reached).resolve_right fun busy => writing busy.1

theorem fetch_answers {page : Nat} (calm : p.file.refusal = none) (positive : page ≠ 0) (bound : page ≤ p.maxPages) :
    ∃ image q, fetch page p = .ok image q := by
  have loads : ∀ r : Pager, r.file.refusal = none → Action.Runs (load page) r := by
    intro r calm
    unfold load
    refine .get ?_
    split
    · exact .pure _
    · obtain ⟨present, read⟩ := read_run calm positive
      exact .after read (.modify (.pure _))
  have last : ∀ r : Pager, r.file.refusal = none → Action.Runs
      (if page > p.pageCount then pure (.blank p.pageSize) else load page : Action Pager PageImage) r := by
    intro r calm
    split
    · exact .pure _
    · exact loads r calm
  unfold fetch
  rw [Action.get_bind, if_neg (inside_of_bounds positive bound)]
  dsimp only
  split
  · exact last _ calm
  · exact last _ calm

/-- A page that comes into the image because the image grows is blank from then on, and it is blank in the
file after a commit. -/
theorem growth_blank {after : List Request} {last : Nat} (emerges : Emerges n last q) (low : n ≤ top)
    (remains : Remains n top q after) :
    let r := serve q after
    r.image n = .zeros r.pageSize ∧
      (∀ image s, fetch n r = .ok image s → image.data = .zeros r.pageSize) ∧
      (r.file.refusal = none → (∃ image s, fetch n r = .ok image s) ∧ ∃ t, commit r = .ok () t) ∧
      ∀ t, commit r = .ok () t → t.image n = .zeros t.pageSize ∧ t.fileImage n = .zeros t.pageSize ∧
        (last ≤ top → n * t.pageSize ≤ t.file.bytes.size) := by
  intro r
  obtain ⟨emerged, inside⟩ := (emerges.emerged low).serve low remains
  refine ⟨emerged.blank.image, fun image s run => ?_, fun calm => ⟨?_, commit_calm emerged.even calm⟩, fun t done => ?_⟩
  · have passes := fetch_passes n n r
    rw [Action.final_of_ok run] at passes
    rw [← (fetch_holds run (Nat.le_trans low inside)).2, (emerged.blank.passes passes).image, passes.pageSize]
  · exact fetch_answers calm emerged.positive emerged.bound
  · obtain ⟨blank, image, length⟩ := emerged.commit low inside done
    exact ⟨blank.image, image, length⟩

def sevens : Pager :=
  { file := { bytes := ⟨#[7, 7, 7]⟩ }, pageSize := 1, pageCount := 3, startCount := 3 }

/-- The last two pages are cut off, which is committed, and a write of the third page skips the second. -/
theorem growth_blank_skipped :
    let p := commit.final (serve sevens [.begin, .call (.access (.truncate 1))])
    let q := (write 3 ⟨#[9]⟩).final (serve p [.begin])
    let after : List Request := [.call .openSavepoint, .call (.access .extend), .call .rollbackSavepoint]
    let r := serve q after
    Emerges 2 3 q ∧ 2 ≤ 3 ∧ Remains 2 3 q after ∧ r.image 2 = .zeros r.pageSize ∧
      ∃ t, commit r = .ok () t ∧ t.fileImage 2 = .zeros t.pageSize ∧ 2 * t.pageSize ≤ t.file.bytes.size := by
  intro p q after r
  have done : commit (serve sevens [.begin, .call (.access (.truncate 1))]) = .ok () p := rfl
  have run : write 3 ⟨#[9]⟩ (serve p [.begin]) = .ok () q := rfl
  have rests : Rests p := .committed ⟨rfl, rfl, rfl⟩ rfl done
  have below : Below 2 p [.begin] := by decide +kernel
  have emerges : Emerges 2 3 q := .skipped rests below (by decide) run
  have remains : Remains 2 3 q after := by decide +kernel
  obtain ⟨image, -, answers, commits⟩ := growth_blank emerges (by decide) remains
  obtain ⟨-, t, done⟩ := answers rfl
  obtain ⟨-, stored, length⟩ := commits t done
  exact ⟨emerges, by decide, remains, image, t, done, stored, length (Nat.le_refl 3)⟩

/-- Before the commit the second page is still what it was, and the write brings it back. -/
example :
    let p := serve sevens [.begin, .call (.access (.truncate 1))]
    p.image 2 = ⟨#[0]⟩ ∧ ((write 3 ⟨#[9]⟩).final p).image 2 = ⟨#[7]⟩ := by
  decide +kernel

end Pager

end TreeFile
