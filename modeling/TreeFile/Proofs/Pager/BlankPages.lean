import TreeFile.Proofs.Pager.Requests

/-!
Blank pages. A page that holds zeroes goes on to do so while no request writes it or brings back an older
image of it, through commits that fail, too. Nor can a request have to do with a page that did not exist
when the transaction began and that the image has not reached.
-/

namespace TreeFile

namespace Pager

variable {p q r : Pager} {n : Nat}

def Request.Avoids (n : Nat) (p : Pager) : Request → Prop
  | call (.access (.write page data)) => page = n → (Pager.write page data).succeeds p = false
  | call (.access .extend) => p.pageCount + 1 = n → Pager.extend.succeeds p = false
  | call .rollbackSavepoint => ∀ s ∈ p.savepoints.head?, n ∉ s.undo
  | rollback => p.state = .writing → n ∉ p.journal
  | _ => True

instance (n : Nat) (p : Pager) : (request : Request) → Decidable (request.Avoids n p)
  | .call (.access (.write page data)) =>
    inferInstanceAs (Decidable (page = n → (write page data).succeeds p = false))
  | .call (.access .extend) => inferInstanceAs (Decidable (p.pageCount + 1 = n → extend.succeeds p = false))
  | .call .rollbackSavepoint => inferInstanceAs (Decidable (∀ s ∈ p.savepoints.head?, n ∉ s.undo))
  | .rollback => inferInstanceAs (Decidable (p.state = .writing → n ∉ p.journal))
  | .begin | .commit | .call (.access (.fetch _)) | .call (.access (.truncate _)) | .call .openSavepoint
  | .call .releaseSavepoint => inferInstanceAs (Decidable True)

theorem extend_passes (avoids : p.pageCount + 1 = n → extend.succeeds p = false) :
    extend.final p = p ∨ Passes n (begin.final p) (extend.final p) := by
  rcases extend_final p with same | written
  · exact .inl same
  · rw [written]
    refine write_passes _ fun own => ?_
    cases run : write (p.pageCount + 1) (.zeros p.pageSize) p with
    | error e q => exact Action.succeeds_of_error run
    | ok a q =>
      cases (Action.succeeds_of_ok (extend_iff_write.mpr ⟨rfl, run⟩)).symm.trans (avoids own)

theorem access_passes (access : Access) (avoids : Request.Avoids n p (.call (.access access))) :
    Passes n p (access.run p) ∨ Passes n (begin.final p) (access.run p) := by
  cases access with
  | fetch page => exact .inl (fetch_passes n page p)
  | write page data =>
    rcases write_passes data avoids with same | passes
    · dsimp only [Access.run]
      rw [same]
      exact .inl (.refl n p)
    · exact .inr passes
  | extend =>
    rcases extend_passes avoids with same | passes
    · dsimp only [Access.run]
      rw [same]
      exact .inl (.refl n p)
    · exact .inr passes
  | truncate count =>
    left
    show Passes n p (if count < p.pageCount then _ else _)
    split
    · exact ⟨rfl, rfl, rfl, .rfl, rfl, .inl rfl, rfl, rfl⟩
    · exact .refl n p

/-- Page `n` holds zeroes, in the cache or once it is read from the file. -/
structure Blank (n : Nat) (p : Pager) : Prop where
  cached : ∀ image, p.cache[n]? = some image → image.data = .zeros p.pageSize
  kept : Dirty p n ∨ p.fileImage n = .zeros p.pageSize
  busy : Dirty p n → p.state = .writing ∧ (n ≤ p.startCount → n ∈ p.journal)

namespace Blank

theorem passes (blank : Blank n p) (passes : Passes n p q) : Blank n q := by
  refine ⟨fun image found => ?_, ?_, fun dirty => ?_⟩
  · rw [passes.pageSize]
    rcases passes.cached with same | ⟨clean, dropped | ⟨-, loaded⟩⟩
    · exact blank.cached image (same ▸ found)
    · cases dropped.symm.trans found
    · cases loaded.symm.trans found
      exact blank.kept.resolve_left clean
  · rw [passes.dirty, passes.file, passes.pageSize]
    exact blank.kept
  · have busy := blank.busy (passes.dirty.mp dirty)
    rw [PageMap.mem_iff] at busy ⊢
    rw [passes.writing, passes.startCount, passes.journal]
    exact busy

theorem of_cache (blank : Blank n p) (cache : q.cache[n]? = p.cache[n]?) (size : q.pageSize = p.pageSize)
    (file : q.fileImage n = p.fileImage n ∨ q.fileImage n = .zeros p.pageSize)
    (busy : Dirty p n → q.state = .writing ∧ (n ≤ q.startCount → n ∈ q.journal)) : Blank n q := by
  have same : Dirty q n ↔ Dirty p n := by
    unfold Dirty
    rw [cache]
  refine ⟨fun image found => ?_, ?_, fun dirty => busy (same.mp dirty)⟩
  · rw [size]
    exact blank.cached image (cache ▸ found)
  · rw [same, size]
    rcases file with image | image
    · rw [image]
      exact blank.kept
    · exact .inr image

theorem begin (blank : Blank n p) : Blank n (Pager.begin.final p) := by
  show Blank n (if p.state = .writing then _ else _)
  split
  · exact blank
  · rename_i idle
    exact blank.of_cache rfl rfl (.inl rfl) fun dirty => absurd (blank.busy dirty).1 idle

theorem access (blank : Blank n p) (access : Access) (avoids : Request.Avoids n p (.call (.access access))) :
    Blank n (access.run p) := by
  rcases access_passes access avoids with passes | passes
  · exact blank.passes passes
  · exact blank.begin.passes passes

theorem openSavepoint (blank : Blank n p) : Blank n (Pager.openSavepoint.final p) := by
  rw [openSavepoint_final]
  exact ⟨blank.begin.cached, blank.begin.kept, blank.begin.busy⟩

theorem releaseSavepoint (blank : Blank n p) : Blank n (Pager.releaseSavepoint.final p) := by
  rcases releaseSavepoint_cases p with ⟨-, same⟩ | ⟨inner, -, same⟩ | ⟨inner, outer, rest, -, same⟩
  all_goals
    rw [same]
    exact ⟨blank.cached, blank.kept, blank.busy⟩

theorem rollbackSavepoint (blank : Blank n p)
    (avoids : ∀ s ∈ p.savepoints.head?, n ∉ s.undo) : Blank n (Pager.rollbackSavepoint.final p) := by
  rcases rollbackSavepoint_cases p with ⟨-, same⟩ | ⟨inner, rest, cache, opened, same, held⟩
  · rw [same]
    exact blank
  · rw [same]
    have lacks := Std.TreeMap.getElem?_eq_none (avoids inner (by rw [opened]; rfl))
    have kept : cache[n]? = p.cache[n]? := by
      rw [held, lacks]
      rfl
    exact blank.of_cache kept rfl (.inl rfl) blank.busy

theorem rollback (blank : Blank n p) (avoids : p.state = .writing → n ∉ p.journal)
    (inside : Dirty p n → n ≤ (Pager.rollback.final p).pageCount) : Blank n (Pager.rollback.final p) := by
  rcases rollback_cases p with ⟨-, same⟩ | ⟨writing, cache, same, held⟩
  · rw [same]
    exact blank
  · rw [same] at inside ⊢
    -- a page that waits has been noted down, or else it is cut off
    have clean : ¬ Dirty p n := fun dirty => avoids writing ((blank.busy dirty).2 (inside dirty))
    have lacks := Std.TreeMap.getElem?_eq_none (avoids writing)
    have kept : ∀ image, cache[n]? = some image → p.cache[n]? = some image := by
      intro image found
      rw [held, lacks, Option.filter_eq_some_iff] at found
      exact found.1
    refine ⟨fun image found => blank.cached image (kept image found), .inr (blank.kept.resolve_left clean), ?_⟩
    rintro ⟨data, found⟩
    exact absurd ⟨data, kept _ found⟩ clean

theorem flushes (blank : Blank n p) (flushes : Flushes p q) : Blank n q := by
  have size := flushes.sizes.pageSize
  rcases flushes.pages n with ⟨cached, image⟩ | ⟨-, -, data, waited, clean, image⟩
  · refine blank.of_cache cached size (image.imp_right And.right) fun dirty => ?_
    rw [flushes.rest]
    exact blank.busy dirty
  · have zeros : data = .zeros p.pageSize := blank.cached _ waited
    refine ⟨fun image found => ?_, .inr ?_, ?_⟩
    · cases clean.symm.trans found
      rw [size]
      exact zeros
    · rw [image, zeros, size]
    · rintro ⟨other, found⟩
      cases clean.symm.trans found

end Blank

theorem Drained.clean (drained : Drained p q) (inside : Dirty p n → n ≤ p.pageCount) : ¬ Dirty q n := by
  rintro ⟨data, found⟩
  rcases drained.1.pages n with ⟨cached, -⟩ | ⟨-, -, other, -, clean, -⟩
  · have waited : Dirty p n := ⟨data, cached ▸ found⟩
    obtain ⟨-, -, other, -, clean, -⟩ := drained.2 n waited (inside waited)
    cases clean.symm.trans found
  · cases clean.symm.trans found

theorem Blank.finished (blank : Blank n p) (clean : ¬ Dirty p n) : Blank n p.finished := by
  refine ⟨fun image found => blank.cached image (finished_cache found).2, .inr (blank.kept.resolve_left clean), ?_⟩
  rintro ⟨data, found⟩
  exact absurd ⟨data, (finished_cache found).2⟩ clean

theorem Blank.commit (blank : Blank n p) (even : ∀ k, Even k p) (inside : Dirty p n → n ≤ p.pageCount) :
    Blank n (Pager.commit.final p) := by
  rcases commit_final even with same | ⟨-, flushes | ⟨r, drained, same⟩⟩
  · rw [same]
    exact blank
  · exact blank.flushes flushes
  · rw [same]
    exact (blank.flushes drained.1).finished (drained.clean inside)

/-- A blank page stays blank, unless it waits and a rollback would cut it off or a commit would skip it. -/
theorem Blank.request (blank : Blank n p) (even : ∀ k, Even k p) {request : Request} (avoids : request.Avoids n p)
    (inside : Dirty p n → n ≤ p.pageCount ∧ n ≤ (request.run p).pageCount) : Blank n (request.run p) := by
  cases request with
  | begin => exact blank.begin
  | call call =>
    cases call with
    | access access => exact blank.access access avoids
    | openSavepoint => exact blank.openSavepoint
    | releaseSavepoint => exact blank.releaseSavepoint
    | rollbackSavepoint => exact blank.rollbackSavepoint avoids
  | rollback => exact blank.rollback avoids fun dirty => (inside dirty).2
  | commit => exact blank.commit even fun dirty => (inside dirty).1

theorem Blank.image (blank : Blank n p) : p.image n = .zeros p.pageSize := by
  unfold Pager.image
  split
  · rfl
  split
  · rename_i image found
    exact blank.cached image found
  · rename_i absent
    refine blank.kept.resolve_left ?_
    rintro ⟨data, found⟩
    cases absent.symm.trans found

/-- The transaction knows nothing of page `n`, which did not exist when it began. -/
structure Fresh (n : Nat) (p : Pager) : Prop where
  start : p.startCount < n
  clean : ¬ Dirty p n
  journal : n ∉ p.journal
  undo : ∀ s ∈ p.savepoints, n ∉ s.undo

namespace Fresh

theorem passes (fresh : Fresh n p) (passes : Passes n p q) : Fresh n q := by
  refine ⟨passes.startCount ▸ fresh.start, fun dirty => fresh.clean (passes.dirty.mp dirty), ?_, fun s member => ?_⟩
  · rw [PageMap.mem_iff, passes.journal, ← PageMap.mem_iff]
    exact fresh.journal
  · obtain ⟨t, old, -, undo⟩ := passes.noted s member
    rw [PageMap.mem_iff, ← undo, ← PageMap.mem_iff]
    exact fresh.undo t old

theorem begin (fresh : Fresh n p) (below : p.pageCount < n) : Fresh n (Pager.begin.final p) := by
  show Fresh n (if p.state = .writing then _ else _)
  split
  · exact fresh
  · exact ⟨below, fresh.clean, Std.TreeMap.not_mem_emptyc, fresh.undo⟩

theorem avoids (fresh : Fresh n p) (request : Request) (below : (request.run p).pageCount < n) :
    request.Avoids n p := by
  cases request with
  | begin => trivial
  | call call =>
    cases call with
    | access access =>
      cases access with
      | fetch page => trivial
      | write page data =>
        rintro rfl
        cases run : write page data p with
        | error e q => exact Action.succeeds_of_error run
        | ok a q =>
          -- the image would have reached the page
          have count := write_count run
          have below : (write page data |>.final p).pageCount < page := below
          rw [Action.final_of_ok run] at below
          omega
      | extend =>
        rintro rfl
        cases run : extend p with
        | error e q => exact Action.succeeds_of_error run
        | ok page q =>
          have count := extend_count run
          have below : (extend.final p).pageCount < p.pageCount + 1 := below
          rw [Action.final_of_ok run] at below
          omega
      | truncate count => trivial
    | openSavepoint => trivial
    | releaseSavepoint => trivial
    | rollbackSavepoint =>
      exact fun s head => fresh.undo s (List.mem_of_head? head)
  | rollback => exact fun _ => fresh.journal
  | commit => trivial

theorem call (fresh : Fresh n p) (call : Call) (below : p.pageCount < n) (avoids : Request.Avoids n p (.call call)) :
    Fresh n (call.run p) := by
  have undo := fresh.undo
  cases call with
  | access access =>
    rcases access_passes access avoids with passes | passes
    · exact fresh.passes passes
    · exact (fresh.begin below).passes passes
  | openSavepoint =>
    have began := fresh.begin below
    dsimp only [Call.run]
    rw [openSavepoint_final]
    refine ⟨began.start, began.clean, began.journal, fun s member => ?_⟩
    rcases List.mem_cons.mp member with rfl | old
    · exact Std.TreeMap.not_mem_emptyc
    · exact began.undo s old
  | releaseSavepoint =>
    dsimp only [Call.run]
    rcases releaseSavepoint_cases p with ⟨-, same⟩ | ⟨inner, -, same⟩ | ⟨inner, outer, rest, opened, same⟩
    · rw [same]
      exact fresh
    · rw [same]
      exact ⟨fresh.start, fresh.clean, fresh.journal, nofun⟩
    · rw [same]
      rw [opened] at undo
      refine ⟨fresh.start, fresh.clean, fresh.journal, fun s member => ?_⟩
      rcases List.mem_cons.mp member with rfl | later
      · have lacks := Std.TreeMap.getElem?_eq_none (undo inner List.mem_cons_self)
        have lacks' := Std.TreeMap.getElem?_eq_none (undo outer (List.mem_cons_of_mem _ List.mem_cons_self))
        rw [PageMap.mem_iff, (absorb_undo outer inner n).2, lacks, lacks', ite_self]
        rintro ⟨data, found⟩
        cases found
      · exact undo s (List.mem_cons_of_mem _ (List.mem_cons_of_mem _ later))
  | rollbackSavepoint =>
    dsimp only [Call.run]
    rcases rollbackSavepoint_cases p with ⟨-, same⟩ | ⟨inner, rest, cache, opened, same, held⟩
    · rw [same]
      exact fresh
    · rw [same]
      rw [opened] at undo
      refine ⟨fresh.start, ?_, fresh.journal, fun s member => undo s (List.mem_cons_of_mem _ member)⟩
      rintro ⟨data, found⟩
      dsimp only at found
      rw [held, Std.TreeMap.getElem?_eq_none (undo inner List.mem_cons_self)] at found
      exact fresh.clean ⟨data, found⟩

theorem flushes (fresh : Fresh n p) (flushes : Flushes p q) : Fresh n q := by
  have clean : ¬ Dirty q n := by
    rintro ⟨data, found⟩
    rcases flushes.pages n with ⟨cached, -⟩ | ⟨-, -, other, -, clean, -⟩
    · exact fresh.clean ⟨data, cached ▸ found⟩
    · cases clean.symm.trans found
  rw [flushes.rest]
  exact ⟨fresh.start, flushes.rest ▸ clean, fresh.journal, fresh.undo⟩

theorem request (fresh : Fresh n p) (even : ∀ k, Even k p) (below : p.pageCount < n) {request : Request}
    (avoids : request.Avoids n p) : Fresh n (request.run p) := by
  cases request with
  | begin => exact fresh.begin below
  | call call => exact fresh.call call below avoids
  | rollback =>
    dsimp only [Request.run]
    rcases rollback_cases p with ⟨-, same⟩ | ⟨-, cache, same, held⟩
    · rw [same]
      exact fresh
    · rw [same]
      refine ⟨fresh.start, ?_, Std.TreeMap.not_mem_emptyc, nofun⟩
      rintro ⟨data, found⟩
      dsimp only at found
      rw [held, Option.filter_eq_some_iff] at found
      have kept := found.2
      simp at kept
  | commit =>
    dsimp only [Request.run]
    rcases commit_final even with same | ⟨-, flushes | ⟨r, drained, same⟩⟩
    · rw [same]
      exact fresh
    · exact fresh.flushes flushes
    · have left := fresh.flushes drained.1
      rw [same]
      refine ⟨Nat.lt_of_le_of_lt (Nat.le_of_eq drained.1.count.1) below, ?_, Std.TreeMap.not_mem_emptyc, nofun⟩
      rintro ⟨data, found⟩
      exact left.clean ⟨data, (finished_cache found).2⟩

end Fresh

end Pager

end TreeFile
