import Mathlib.Data.List.Sort
import TreeFile.Proofs.Pager.CoherentCache

/-!
What the cache is for makes no difference to what a pager does: neither its size nor the choice of what is
dropped from it can be seen in a run of requests, nor whether anything is dropped at all.
-/

namespace TreeFile

namespace Pager

variable {p q r p' q' : Pager} {α : Type}

theorem Coherent.of_clean (calm : p.file.refusal = none) (cached : ∀ (page : Nat) (image : PageImage),
      p.cache[page]? = some image → page ≠ 0 ∧ image = { data := p.fileImage page })
    (journal : p.journal = {}) (savepoints : p.savepoints = []) : Coherent p := by
  refine ⟨calm, fun page image held => ?_, fun page image held _ => ?_, fun page image held dirty => ?_,
    fun page data found => ?_, fun s member => ?_, fun _ => savepoints⟩
  · obtain ⟨positive, rfl⟩ := cached page image held
    exact ⟨positive, p.size_fileImage page⟩
  · obtain ⟨-, rfl⟩ := cached page image held
    rfl
  · obtain ⟨-, rfl⟩ := cached page image held
    cases dirty
  · rw [journal, Std.TreeMap.getElem?_emptyc] at found
    cases found
  · rw [savepoints] at member
    cases member

theorem Coherent.rollback (coherent : Coherent p) : Coherent { p with
    cache := (p.journal.foldl (fun cache page data => cache.insert page { data }) p.cache).filter
      fun page image => !image.dirty && page ≤ p.startCount
    journal := {}
    savepoints := []
    pageCount := p.startCount
    state := .reading } := by
  refine .of_clean coherent.calm (fun page image held => ?_) rfl rfl
  dsimp only at held
  have restored := PageMap.get_foldl_insert p.journal (fun data => ({ data } : PageImage)) p.cache page
  rw [PageMap.get_filter, restored, Option.filter_eq_some_iff] at held
  obtain ⟨held, keep⟩ := held
  have clean : image.dirty = false := by
    cases dirty : image.dirty with
    | false => rfl
    | true =>
      rw [dirty] at keep
      cases keep
  cases journaled : p.journal[page]? with
  | some data =>
    rw [journaled] at held
    obtain ⟨positive, same⟩ := coherent.journal page data journaled
    cases held
    exact ⟨positive, congrArg (fun data => ({ data } : PageImage)) same⟩
  | none =>
    rw [journaled] at held
    have held : p.cache[page]? = some image := held
    have same := coherent.offers_clean (offers_cached held ▸ clean)
    rw [offers_cached held] at same
    exact ⟨(coherent.cached page image held).1, same⟩

theorem rollback_both (paired : Paired p q) : Both rollback rollback p q fun _ => Paired := by
  obtain ⟨left, right, twins⟩ := paired
  refine .ok (Action.modify_run _ _) (Action.modify_run _ _) ?_
  by_cases writing : p.state = .writing
  · rw [if_pos writing, if_pos (twins.state.trans writing)]
    exact ⟨left.rollback, right.rollback, .of_idle left.rollback right.rollback nofun twins.file twins.pageSize rfl
      twins.startCount twins.startCount twins.maxPages rfl rfl twins.writes⟩
  · rw [if_neg writing, if_neg (twins.state ▸ writing)]
    exact ⟨left, right, twins⟩

theorem dirtyPages_ordered (p : Pager) : p.dirtyPages.Pairwise fun a b => (a.1 : Nat) < b.1 := by
  unfold dirtyPages
  rw [List.pairwise_filterMap]
  refine Std.TreeMap.ordered_keys_toList.imp fun {a b} less => ?_
  intro first isFirst second isSecond
  dsimp only at isFirst isSecond
  split at isFirst <;> cases isFirst
  split at isSecond <;> cases isSecond
  exact Nat.compare_eq_lt.mp less

theorem dirtyPages_eq (paired : Paired p q) : q.dirtyPages = p.dirtyPages := by
  obtain ⟨left, right, twins⟩ := paired
  have changed : ∀ {r : Pager}, Coherent r → ∀ (page : Nat) (data : Bytes),
      (page, data) ∈ r.dirtyPages ↔ r.offers page = { data, dirty := true } ∧ page ≤ r.pageCount := by
    intro r coherent page data
    rw [mem_dirtyPages]
    refine and_congr_left fun _ => ⟨fun held => offers_cached held, fun offered => ?_⟩
    have held := Coherent.offers_dirty (congrArg PageImage.dirty offered)
    rwa [offered] at held
  have : Std.Antisymm fun a b : PageNo × Bytes => (a.1 : Nat) < b.1 :=
    ⟨fun _ _ less more => absurd less (Nat.lt_asymm more)⟩
  have : Std.Irrefl fun a b : PageNo × Bytes => (a.1 : Nat) < b.1 := ⟨fun _ => Nat.lt_irrefl _⟩
  refine q.dirtyPages_ordered.eq_of_mem_iff p.dirtyPages_ordered fun (page, data) => ?_
  rw [changed left, changed right, twins.offers, twins.pageCount]

theorem onFile_alike {act : Action File α} {a : α} (file : q.file = p.file) {f : File}
    (run : onFile act p = .ok a { p with file := f }) : onFile act q = .ok a { q with file := f } := by
  obtain ⟨g, acted, same⟩ := onFile_ok.mp run
  have same : f = g := congrArg Pager.file same
  subst same
  exact onFile_ok.mpr ⟨f, by rw [file]; exact acted, rfl⟩

theorem writeBack_alike (entries : List (PageNo × Bytes)) (file : q.file = p.file) (pageSize : q.pageSize = p.pageSize)
    (writes : q.writes = p.writes) (first : writeBack entries p = .ok () p')
    (second : writeBack entries q = .ok () q') : q'.file = p'.file ∧ q'.writes = p'.writes := by
  induction entries generalizing p q with
  | nil =>
    cases first
    cases second
    exact ⟨file, writes⟩
  | cons entry rest ih =>
    obtain ⟨page, data⟩ := entry
    unfold writeBack at first second
    rw [Action.get_bind] at first second
    dsimp only at first second
    obtain ⟨⟨⟩, _, written, first⟩ := Action.bind_ok.mp first
    obtain ⟨f, -, rfl⟩ := onFile_ok.mp written
    have offset : q.offset page = p.offset page := by
      unfold Pager.offset
      rw [pageSize]
    have other := onFile_alike file written
    rw [offset, Action.bind_of_ok other, Action.modify_bind] at second
    rw [Action.modify_bind] at first
    refine ih ?_ ?_ ?_ first second
    · rfl
    · exact pageSize
    · exact congrArg (· + 1) writes

def settled (r : Pager) (f : File) : Pager :=
  { dropPast r.pageCount { r with file := f } with
    journal := {}
    savepoints := []
    startCount := r.pageCount
    state := .reading }

theorem Flushing.settled (flushing : Flushing p r []) {f : File} (calm : f.refusal = none)
    (images : ∀ n : Nat, n ≠ 0 → n ≤ r.pageCount → fileImage { r with file := f } n = r.fileImage n) :
    Coherent (r.settled f) := by
  refine .of_clean calm (fun page image held => ?_) rfl rfl
  obtain ⟨positive, -, -, clean, same⟩ := flushing.kept images held
  obtain ⟨data, dirty⟩ := image
  cases clean
  exact ⟨positive, congrArg (fun data => ({ data } : PageImage)) same⟩

theorem Flushing.ends (flushing : Flushing p r []) : ∃ f, f.refusal = none ∧
    (∀ n : Nat, n ≠ 0 → n ≤ r.pageCount → fileImage { r with file := f } n = r.fileImage n) ∧
    ∀ s : Pager, s.file = r.file → s.pageCount = r.pageCount → s.pageSize = r.pageSize →
      (do
        let t ← get
        let size ← onFile File.size
        if size ≠ t.pageCount * t.pageSize then
          onFile (File.truncate ((t.pageCount * t.pageSize : Nat) : Int))
        settle : Action Pager Unit) s = .ok () (s.settled f) := by
  obtain ⟨f, cut, calm, images⟩ := truncate_file_run flushing.calm r.pageCount
  have long : ∀ s : Pager, s.pageCount = r.pageCount → s.pageSize = r.pageSize →
      s.pageCount * s.pageSize = r.pageCount * r.pageSize := by
    intro s pageCount pageSize
    rw [pageCount, pageSize]
  by_cases whole : r.file.bytes.size = r.pageCount * r.pageSize
  · refine ⟨r.file, flushing.calm, fun _ _ _ => rfl, fun s file pageCount pageSize => ?_⟩
    have calm : s.file.refusal = none := file ▸ flushing.calm
    rw [Action.get_bind, Action.bind_of_ok (size_file_run calm), long s pageCount pageSize, file,
      if_neg fun different => different whole, ← file]
    exact settle_eq calm
  · refine ⟨f, calm, images, fun s file pageCount pageSize => ?_⟩
    rw [Action.get_bind, Action.bind_of_ok (size_file_run (file ▸ flushing.calm)), long s pageCount pageSize, file,
      if_pos whole, Action.bind_of_ok (onFile_alike file cut)]
    exact settle_eq calm

theorem commit_both (paired : Paired p q) : Both commit commit p q fun _ => Paired := by
  obtain ⟨left, right, twins⟩ := paired
  have flushed : ∀ {r : Pager}, Coherent r → Flushing r r r.dirtyPages := fun coherent =>
    .start coherent.calm coherent.cached coherent.clean
  by_cases writing : p.state = .writing
  · obtain ⟨r, first, flushP, -⟩ := writeBack_run _ (flushed left)
    obtain ⟨s, second, flushQ, -⟩ := writeBack_run _ (flushed right)
    rw [dirtyPages_eq ⟨left, right, twins⟩] at second
    obtain ⟨file, writes⟩ := writeBack_alike p.dirtyPages twins.file twins.pageSize twins.writes first second
    obtain ⟨f, calm, images, ending⟩ := flushP.ends
    have pageCount : s.pageCount = r.pageCount :=
      flushQ.pageCount.trans (twins.pageCount.trans flushP.pageCount.symm)
    have pageSize : s.pageSize = r.pageSize := flushQ.pageSize.trans (twins.pageSize.trans flushP.pageSize.symm)
    have maxPages : s.maxPages = r.maxPages := flushQ.maxPages.trans (twins.maxPages.trans flushP.maxPages.symm)
    have after := flushP.settled calm images
    have other : Coherent (s.settled f) := by
      refine flushQ.settled calm fun n positive low => ?_
      have same := images n positive (pageCount ▸ low)
      unfold Pager.fileImage at same ⊢
      dsimp only at same ⊢
      rw [pageSize, file]
      exact same
    unfold Both
    rw [commit_writing writing, commit_writing (twins.state.trans writing), dirtyPages_eq ⟨left, right, twins⟩,
      Action.bind_of_ok first, Action.bind_of_ok second, ending r rfl rfl rfl, ending s file pageCount pageSize]
    exact .inl ⟨(), _, _, rfl, rfl, after, other, .of_idle after other nofun rfl pageSize rfl pageCount pageCount maxPages rfl rfl writes⟩
  · have idle : q.state ≠ .writing := twins.state ▸ writing
    unfold Both commit
    rw [Action.get_bind, Action.get_bind, if_neg writing, if_neg idle]
    exact .inl ⟨(), p, q, rfl, rfl, left, right, twins⟩

inductive Answer where
  | done
  | image (image : PageImage)
  | number (n : Nat)

def Request.ask : Request → Action Pager Answer
  | begin => do
    Pager.begin
    return .done
  | call (.access (.fetch page)) => return .image (← Pager.fetch page)
  | call (.access (.write page data)) => do
    Pager.write page data
    return .done
  | call (.access .extend) => return .number (← Pager.extend)
  | call (.access (.truncate count)) => do
    Pager.truncate count
    return .done
  | call .openSavepoint => return .number (← Pager.openSavepoint)
  | call .releaseSavepoint => do
    Pager.releaseSavepoint
    return .done
  | call .rollbackSavepoint => do
    Pager.rollbackSavepoint
    return .done
  | rollback => do
    Pager.rollback
    return .done
  | commit => do
    Pager.commit
    return .done

/-- All that can be seen of a pager from outside but what it has read. -/
structure Sight where
  state : PagerState
  pageCount : Nat
  writes : Nat
  bytes : Bytes
  images : PageNo → Except Error PageImage

def sight (p : Pager) : Sight where
  state := p.state
  pageCount := p.pageCount
  writes := p.writes
  bytes := p.file.bytes
  images page := ((fetch page).outcome p).1

inductive Demand where
  | request (request : Request)
  | limit (images : Nat)

def Demand.request? : Demand → Option Request
  | request r => some r
  | limit _ => none

/-- The answers to the requests of a run, each with what can be seen after it. -/
def transcript : List Demand → Pager → List (Except Error Answer × Sight)
  | [], _ => []
  | .request r :: rest, p =>
    let done := r.ask.outcome p
    (done.1, done.2.sight) :: transcript rest done.2
  | .limit images :: rest, p => transcript rest ((setCacheLimit images).final p)

theorem Request.ask_final (r : Request) (p : Pager) : r.ask.final p = r.run p := by
  match r with
  | .begin | .rollback | .commit => exact Action.final_bind_pure _ _ p
  | .call (.access (.fetch _)) | .call (.access (.write _ _)) => exact Action.final_bind_pure _ _ p
  | .call (.access .extend) | .call (.access (.truncate _)) => exact Action.final_bind_pure _ _ p
  | .call .openSavepoint | .call .releaseSavepoint => exact Action.final_bind_pure _ _ p
  | .call .rollbackSavepoint => exact Action.final_bind_pure _ _ p

theorem Request.ask_both (r : Request) (paired : Paired p q) : Both r.ask r.ask p q fun _ => Paired := by
  have answered : ∀ {β : Type} {x : Action Pager β} (f : β → Answer), Both x x p q (fun _ => Paired) →
      Both (x >>= fun b => pure (f b)) (x >>= fun b => pure (f b)) p q fun _ => Paired := by
    intro β x f both
    exact both.bind fun _ _ _ later => .ok rfl rfl later
  match r with
  | .begin =>
    exact (begin_both paired).bind fun _ _ _ ⟨later, _, _⟩ => .ok rfl rfl later
  | .call (.access (.fetch page)) => exact answered _ (fetch_both paired page)
  | .call (.access (.write page data)) => exact answered _ (write_both paired page data)
  | .call (.access .extend) => exact answered _ (extend_both paired)
  | .call (.access (.truncate count)) => exact answered _ (truncate_both paired count)
  | .call .openSavepoint => exact answered _ (openSavepoint_both paired)
  | .call .releaseSavepoint => exact answered _ (releaseSavepoint_both paired)
  | .call .rollbackSavepoint => exact answered _ (rollbackSavepoint_both paired)
  | .rollback => exact answered _ (rollback_both paired)
  | .commit => exact answered _ (commit_both paired)

theorem Both.outcome {x : Action Pager α} (both : Both x x p q fun _ => Paired) :
    (x.outcome q).1 = (x.outcome p).1 ∧ Paired (x.outcome p).2 (x.outcome q).2 := by
  unfold Action.outcome
  rcases both with ⟨a, p', q', first, second, later⟩ | ⟨e, p', q', first, second, later⟩
  all_goals
    rw [first, second]
    exact ⟨rfl, later⟩

theorem Paired.sight (paired : Paired p q) : q.sight = p.sight := by
  have twins := paired.twins
  unfold Pager.sight
  rw [twins.state, twins.pageCount, twins.writes, twins.file]
  exact congrArg _ (funext fun page => (fetch_both paired page).outcome.1)

theorem Paired.tuned (paired : Paired p q) (inMemory : Bool) (limit : Nat) (order : Nat → List PageNo → List PageNo) :
    Paired p { q with inMemory, cacheLimit := limit, evictionOrder := order } := by
  obtain ⟨left, right, twins⟩ := paired
  exact ⟨left, ⟨right.calm, right.cached, right.clean, right.dirty, right.journal, right.savepoints, right.rest⟩,
    ⟨twins.file, twins.pageSize, twins.state, twins.pageCount, twins.startCount, twins.maxPages, twins.journal,
      twins.savepoints, twins.writes, twins.offers⟩⟩

theorem transcript_requests (demands : List Demand) (paired : Paired p q) :
    transcript demands q = transcript ((demands.filterMap Demand.request?).map .request) p := by
  induction demands generalizing p q with
  | nil => rfl
  | cons demand rest ih =>
    cases demand with
    | request r =>
      obtain ⟨answer, later⟩ := (r.ask_both paired).outcome
      unfold transcript
      dsimp only
      rw [answer, later.sight, ih later]
      rfl
    | limit images => exact ih (paired.tuned q.inMemory (max images 10) q.evictionOrder)

/-- Whatever limits the cache has in the course of a run, and whatever is dropped from it, the answers
are the same, and so is all that can be seen after each of them. If the file is empty, a pager that
drops nothing answers the same, too. The file must not refuse calls: a commit that fails may have written pages,
and after a rollback the cache does not say what the file has. -/
theorem cache_transparent (file : File) (size : Nat) (calm : file.refusal = none) (limit limit' : Nat)
    (order order' : Nat → List PageNo → List PageNo) (demands demands' : List Demand)
    (same : demands'.filterMap Demand.request? = demands.filterMap Demand.request?) :
    ∃ p, ofFile file size = .ok p ∧
      transcript demands' { p with cacheLimit := limit', evictionOrder := order' } =
        transcript demands { p with cacheLimit := limit, evictionOrder := order } ∧
      (file.bytes = .empty → ∃ m, ownFile size = .ok m ∧ m.sight = p.sight ∧
        transcript demands' { m with cacheLimit := limit', evictionOrder := order' } =
          transcript demands { p with cacheLimit := limit, evictionOrder := order }) := by
  have coherent : Coherent (upon file size) := by
    refine .of_clean calm (fun page image held => ?_) rfl rfl
    rw [show (upon file size).cache = {} from rfl, Std.TreeMap.getElem?_emptyc] at held
    cases held
  have paired : Paired (upon file size) (upon file size) := ⟨coherent, coherent, .refl _⟩
  have alike : ∀ (inMemory : Bool), transcript demands' { upon file size with
      inMemory, cacheLimit := limit', evictionOrder := order' } =
        transcript demands { upon file size with cacheLimit := limit, evictionOrder := order } := by
    intro inMemory
    have first := transcript_requests demands (paired.tuned false limit order)
    have second := transcript_requests demands' (paired.tuned inMemory limit' order')
    rw [same] at second
    exact second.trans first.symm
  refine ⟨upon file size, ofFile_run calm size, alike false, fun empty => ?_⟩
  have blank : file = {} := by
    obtain ⟨bytes, refusal⟩ := file
    cases calm
    cases empty
    rfl
  subst blank
  refine ⟨{ upon {} size with inMemory := true }, ?_, ?_, alike true⟩
  · unfold ownFile
    rw [ofFile_run rfl size]
    rfl
  · exact (paired.tuned true _ _).sight

/-- Twelve pages are read twice over, the last page is changed, and the change is taken back. One cache keeps all
of them, the other one no more than ten. -/
def twiceOver : List Demand :=
  let reads := (List.range 12).map fun i => .request (.call (.access (.fetch (i + 1))))
  reads ++ reads ++ [.request (.call (.access (.write 12 (.zeros 512)))), .request .rollback]

theorem cache_transparent_twelve : ({ bytes := .zeros 6144 } : File).refusal = none ∧
    ((Demand.limit 10 :: twiceOver).filterMap Demand.request? = twiceOver.filterMap Demand.request? ∧
      (twiceOver.filterMap Demand.request?).length = 26) ∧
    ∃ p, ofFile { bytes := .zeros 6144 } 512 = .ok p ∧
      transcript (.limit 10 :: twiceOver) { p with cacheLimit := 10, evictionOrder := fun _ => List.reverse } =
        transcript twiceOver { p with cacheLimit := 2000, evictionOrder := fun _ => id } := by
  have same : (Demand.limit 10 :: twiceOver).filterMap Demand.request? = twiceOver.filterMap Demand.request? := rfl
  obtain ⟨p, opened, alike, -⟩ := cache_transparent { bytes := .zeros 6144 } 512 rfl 2000 10 (fun _ => id)
    (fun _ => List.reverse) twiceOver (.limit 10 :: twiceOver) same
  exact ⟨rfl, ⟨same, rfl⟩, p, opened, alike⟩

end Pager

end TreeFile
