import TreeFile.Proofs.Header.FirstPage

/-!
Page 1 when a savepoint or a transaction ends. Going back brings what was known of it then; a commit
makes what is known now known of the file, and one that fails may have done so.
-/

namespace TreeFile

open FileHeader (Sized)
open Action (Ends)

namespace Pager

variable {p q r : Pager} {size : Nat}

section

variable {begun now : Bytes → Prop}

theorem Copies.openSavepoint (copies : Copies size begun none now p) :
    ∃ n q, Pager.openSavepoint p = .ok n q ∧ Copies size begun (some now) now q := by
  obtain ⟨b, begins, copiesB, writing, -, closed⟩ := copies.begin
  unfold Pager.openSavepoint
  rw [Action.bind_of_ok begins, Action.modify_bind, Action.get_bind]
  refine ⟨_, _, rfl, copiesB.pageSize, copiesB.room, copiesB.count, copiesB.start,
    ⟨copiesB.starts.now, copiesB.starts.kept⟩, copiesB.busy, copiesB.filed, copiesB.backed, writing,
    { pageCount := b.pageCount }, ?_, copiesB.count, .inr ⟨Std.TreeMap.getElem?_emptyc, ?_⟩⟩
  · dsimp only
    rw [closed.trans copies.opened]
  · exact ⟨copiesB.starts.now, copiesB.starts.kept⟩

theorem openSavepoint_count {n : Nat} (run : Pager.openSavepoint p = .ok n q) : q.pageCount = p.pageCount := by
  obtain ⟨b, begins, -⟩ := begin_calm p
  have warm := begin_warms p
  rw [Action.final_of_ok begins] at warm
  unfold Pager.openSavepoint at run
  rw [Action.bind_of_ok begins, Action.modify_bind, Action.get_bind] at run
  cases run
  exact warm.count

theorem Copies.releaseSavepoint {S : Bytes → Prop} (copies : Copies size begun (some S) now p) :
    ∃ q, Pager.releaseSavepoint p = .ok () q ∧ Copies size begun none now q := by
  obtain ⟨writing, s, one, -⟩ := copies.opened
  unfold Pager.releaseSavepoint
  rw [Action.get_bind, one]
  exact ⟨_, rfl, copies.pageSize, copies.room, copies.count, copies.start,
    ⟨copies.starts.now, copies.starts.kept⟩, copies.busy, copies.filed, copies.backed, rfl⟩

theorem Copies.rollbackSavepoint {S : Bytes → Prop} (copies : Copies size begun (some S) now p) :
    ∃ q, Pager.rollbackSavepoint p = .ok () q ∧ Copies size begun none S q := by
  obtain ⟨writing, s, one, bound, undo⟩ := copies.opened
  unfold Pager.rollbackSavepoint
  rw [Action.get_bind, one]
  refine ⟨_, rfl, ?_⟩
  let q := { p with
    savepoints := []
    cache := s.undo.foldl (fun cache page data => cache.insert page { data, dirty := true }) p.cache
    pageCount := s.pageCount }
  show Copies size begun none S q
  have cache : q.cache[1]? = (s.undo[1]?.map fun data => { data, dirty := true }).or p.cache[1]? :=
    PageMap.get_foldl_insert s.undo (fun data => { data, dirty := true }) p.cache 1
  rcases undo with ⟨d, held, known, journaled⟩ | ⟨lacks, starts⟩
  · rw [held] at cache
    have raw : q.raw 1 = d := by
      unfold Pager.raw
      rw [cache]
      rfl
    exact ⟨copies.pageSize, copies.room, bound, copies.start, ⟨raw.symm ▸ known, .inr ⟨d, cache⟩⟩,
      fun _ => writing, copies.filed, .inl ⟨writing, copies.held writing journaled⟩, rfl⟩
  · rw [lacks] at cache
    have cache : q.cache[1]? = p.cache[1]? := cache
    have raw : q.raw 1 = p.raw 1 := by
      unfold Pager.raw
      rw [cache]
      rfl
    have waits : Dirty q 1 ↔ Dirty p 1 := by
      unfold Dirty
      rw [cache]
    refine ⟨copies.pageSize, copies.room, bound, copies.start, ⟨raw ▸ starts.now, ?_⟩,
      fun _ => writing, copies.filed, ?_, rfl⟩
    · rw [waits]
      exact starts.kept
    · unfold Backed
      rw [raw]
      exact copies.backed

theorem Copies.rollback (copies : Copies size begun none now p) :
    ∃ q, Pager.rollback p = .ok () q ∧ Copies size begun none begun q := by
  refine ⟨_, rfl, ?_⟩
  dsimp only
  by_cases writing : p.state = .writing
  · rw [if_pos writing]
    let q : Pager := { p with
      cache := (p.journal.foldl (fun cache page data => cache.insert page { data }) p.cache).filter
        fun page image => !image.dirty && page ≤ p.startCount
      journal := {}
      savepoints := []
      pageCount := p.startCount
      state := .reading }
    show Copies size begun none begun q
    have cache : q.cache[1]? = (((p.journal[1]?).map fun data => ({ data } : PageImage)).or
        p.cache[1]?).filter fun image => !image.dirty && 1 ≤ p.startCount := by
      dsimp only [q]
      rw [PageMap.get_filter, PageMap.get_foldl_insert p.journal (fun data => { data }) p.cache 1]
    have waits : ¬ Dirty q 1 := by
      rintro ⟨d, found⟩
      rw [cache, Option.filter_eq_some_iff] at found
      simp at found
    have known : begun (q.raw 1) := by
      unfold Pager.raw
      split
      · rename_i image found
        rw [cache, Option.filter_eq_some_iff] at found
        rcases copies.backed with ⟨-, d, held, known⟩ | ⟨lacks, known⟩
        · rw [held] at found
          cases found.1
          exact known
        · rw [lacks writing] at found
          have found : p.cache[1]? = some image := found.1
          unfold Pager.raw at known
          rw [found] at known
          exact known
      · exact copies.filed
    exact ⟨copies.pageSize, copies.room, copies.start, copies.start, ⟨known, .inl copies.filed⟩,
      fun dirty => absurd dirty waits, copies.filed, .inr ⟨nofun, known⟩, rfl⟩
  · rw [if_neg writing]
    have known := (copies.backed.resolve_left fun both => writing both.1).2
    exact ⟨copies.pageSize, copies.room, copies.count, copies.start, ⟨known, .inl copies.filed⟩,
      copies.busy, copies.filed, copies.backed, copies.opened⟩

end

section

variable {begun now : Bytes → Prop} {opened : Option (Bytes → Prop)} {data : Bytes}

/-- If page 1 is among these it waits to be written, and as it is there. -/
structure Awaits (p : Pager) (left : List (PageNo × Bytes)) : Prop where
  own : ∀ data, (1, data) ∈ left → p.cache[1]? = some { data, dirty := true }
  distinct : (left.map Prod.fst).Nodup

theorem write_file_spares {page : Nat} (data : Bytes) (other : page ≠ 1) :
    Spares p ((onFile (File.write data (p.offset page))).final p) := by
  rw [onFile_final]
  refine .of_start fun i low => File.write_before fun start place => ?_
  by_cases zero : page = 0
  · subst zero
    unfold File.position offset at place
    rw [if_pos (by omega)] at place
    cases place
  · rw [p.position_offset zero] at place
    cases place
    have two : 1 * p.pageSize ≤ (page - 1) * p.pageSize := Nat.mul_le_mul_right _ (by omega)
    omega

theorem Copies.flush [sized : Sized size now] (copies : Copies size begun opened now p)
    {page : Nat} {rest : List (PageNo × Bytes)} (awaits : Awaits p ((page, data) :: rest))
    (imp : ∀ d, now d → begun d) (run : onFile (File.write data (p.offset page)) p = .ok () q)
    (writes : Nat) :
    let r := { q.store page { data } with writes }
    Copies size begun opened now r ∧ Awaits r rest ∧ (Dirty r 1 → Dirty p 1 ∧ page ≠ 1) := by
  intro r
  have final := onFile_final (File.write data (p.offset page)) p
  rw [Action.final_of_ok run] at final
  obtain ⟨fresh, distinct⟩ := List.nodup_cons.mp awaits.distinct
  by_cases first : page = 1
  · subst first
    have own := awaits.own data List.mem_cons_self
    have raw : p.raw 1 = data := by
      unfold Pager.raw
      rw [own]
    have known : now data := raw ▸ copies.starts.now
    have file : r.fileImage 1 = data := by
      obtain ⟨f, rfl, -, images⟩ :=
        write_file_ok Nat.one_ne_zero ((sized.sized known).trans copies.pageSize.symm) run
      exact images 1
    have cache : r.cache[1]? = some { data := data } := by
      dsimp only [r, store]
      rw [PageMap.get_insert, if_pos rfl]
    have now' : r.raw 1 = data := by
      unfold Pager.raw
      rw [cache]
    have clean : ¬ Dirty r 1 := by
      rintro ⟨d, found⟩
      cases cache.symm.trans found
    have backed : Backed begun r := by
      unfold Backed
      rw [now', ← raw]
      dsimp only [r, store]
      rw [final]
      exact copies.backed
    subst final
    refine ⟨⟨copies.pageSize, copies.room, copies.count, copies.start, ⟨now' ▸ known, .inl (file ▸ known)⟩,
      fun dirty => absurd dirty clean, file ▸ imp data known, backed, ?_⟩, ⟨fun d later => ?_, distinct⟩,
      fun dirty => absurd dirty clean⟩
    · have before := copies.opened
      cases opened with
      | none => exact before
      | some S =>
        obtain ⟨writing, s, one, bound, undo⟩ := before
        refine ⟨writing, s, one, bound, undo.imp_right fun ⟨lacks, starts⟩ => ⟨lacks, ?_⟩⟩
        have saved : S data := raw ▸ starts.now
        exact ⟨now' ▸ saved, .inl (file ▸ saved)⟩
    · exact absurd (List.mem_map_of_mem later) fresh
  · have spares : Spares p r := by
      have written := write_file_spares (p := p) data first
      rw [Action.final_of_ok run] at written
      exact (written.trans (store_passes { data } first).spares).trans ⟨rfl, rfl, rfl, .rfl, rfl, .rfl, .inl rfl,
        rfl, id, fun s one => ⟨s, one, rfl, rfl⟩⟩
    have cache : r.cache[1]? = p.cache[1]? := by
      dsimp only [r, store]
      rw [PageMap.get_insert, if_neg first, final]
    have count : r.pageCount = p.pageCount := by
      dsimp only [r, store]
      rw [final]
    refine ⟨copies.browsed spares count, ⟨fun d later => ?_, distinct⟩, fun dirty => ⟨spares.dirty.mp dirty, first⟩⟩
    rw [cache]
    exact awaits.own d (List.mem_cons_of_mem _ later)

theorem Copies.writeBack [Sized size now] {left : List (PageNo × Bytes)}
    (copies : Copies size begun opened now p) (awaits : Awaits p left) (imp : ∀ d, now d → begun d) :
    Copies size begun opened now ((Pager.writeBack left).final p) ∧
      ∀ q, Pager.writeBack left p = .ok () q → Dirty q 1 → Dirty p 1 ∧ ∀ data, (1, data) ∉ left := by
  induction left generalizing p with
  | nil =>
    refine ⟨copies, fun q run dirty => ?_⟩
    cases run
    exact ⟨dirty, fun _ => List.not_mem_nil⟩
  | cons entry rest ih =>
    obtain ⟨page, data⟩ := entry
    cases run : onFile (File.write data (p.offset page)) p with
    | error e q =>
      have failed := writeBack_failed rest run
      rw [Action.final_of_error failed]
      refine ⟨?_, fun r ok => by cases failed.symm.trans ok⟩
      obtain ⟨f, refused, rfl⟩ := onFile_error run
      exact copies.browsed (.of_bytes (File.write_failed refused)) rfl
    | ok a q =>
      have step := writeBack_step rest run
      obtain ⟨copiesR, awaitsR, waits⟩ := copies.flush awaits imp run (q.writes + 1)
      obtain ⟨copiesQ, done⟩ := ih copiesR awaitsR
      rw [Action.final_congr step]
      refine ⟨copiesQ, fun r ok dirty => ?_⟩
      obtain ⟨dirtyR, absent⟩ := done r (step.symm.trans ok) dirty
      obtain ⟨dirtyP, other⟩ := waits dirtyR
      refine ⟨dirtyP, fun data' member => ?_⟩
      rcases List.mem_cons.mp member with same | later
      · cases same
        exact other rfl
      · exact absent data' later

theorem Copies.weaken {begun' : Bytes → Prop} (copies : Copies size begun opened now p)
    (imp : ∀ d, begun d → begun' d) : Copies size begun' opened now p where
  pageSize := copies.pageSize
  room := copies.room
  count := copies.count
  start := copies.start
  starts := copies.starts
  busy := copies.busy
  filed := imp _ copies.filed
  backed := by
    rcases copies.backed with ⟨writing, d, held, known⟩ | ⟨lacks, known⟩
    · exact .inl ⟨writing, d, held, imp _ known⟩
    · exact .inr ⟨lacks, imp _ known⟩
  opened := copies.opened

theorem Copies.ended (copies : Copies size begun none now p) (clean : ¬ Dirty p 1) :
    Copies size now none now { dropPast p.pageCount p with
      journal := {}
      savepoints := []
      startCount := p.pageCount
      state := .reading } := by
  let q : Pager := { dropPast p.pageCount p with
    journal := {}
    savepoints := []
    startCount := p.pageCount
    state := .reading }
  show Copies size now none now q
  have cache : q.cache[1]? = p.cache[1]? := by
    dsimp only [q, dropPast]
    rw [PageMap.get_filter]
    cases p.cache[1]? with
    | none => rfl
    | some image => exact if_pos (decide_eq_true copies.count.1)
  have raw : q.raw 1 = p.raw 1 := by
    unfold Pager.raw
    rw [cache]
    rfl
  have clean' : ¬ Dirty q 1 := by
    unfold Dirty
    rw [cache]
    exact clean
  have kept := copies.starts.kept.resolve_right clean
  have known : now (q.raw 1) := raw ▸ copies.starts.now
  exact ⟨copies.pageSize, copies.room, copies.count, copies.count, ⟨known, .inl kept⟩,
    fun dirty => absurd dirty clean', kept, .inr ⟨nofun, known⟩, rfl⟩

theorem quiet_file {α : Type} (act : Action File α) (same : (act.final p.file).bytes = p.file.bytes) :
    Spares p ((onFile act).final p) ∧ ((onFile act).final p).pageCount = p.pageCount := by
  rw [onFile_final]
  exact ⟨.of_bytes same, rfl⟩

theorem Copies.quiet {α : Type} {act : Action Pager α} (copies : Copies size begun opened now p)
    (spares : Spares p (act.final p)) (count : (act.final p).pageCount = p.pageCount) :
    Ends act p (fun _ => Copies size begun opened now) (Copies size begun opened now) :=
  .of_final (copies.browsed spares count)

theorem Copies.settle (copies : Copies size begun none now p) (clean : ¬ Dirty p 1) :
    Ends Pager.settle p (fun _ => Copies size now none now) (Copies size begun none now) := by
  unfold Pager.settle
  refine .get ?_
  split
  · obtain ⟨spares, count⟩ := quiet_file File.sync (File.checkCall_bytes .sync p.file)
    refine (copies.quiet spares count).bind fun _ q run copiesQ => .of_ok rfl (copiesQ.ended ?_)
    rw [Action.final_of_ok run] at spares
    exact fun dirty => clean (spares.dirty.mp dirty)
  · exact .of_ok rfl (copies.ended clean)

theorem Copies.finish (copies : Copies size begun none now p) (clean : ¬ Dirty p 1) :
    Ends (do
        let size ← onFile File.size
        if size ≠ p.pageCount * p.pageSize then
          onFile (File.truncate ((p.pageCount * p.pageSize : Nat) : Int))
        Pager.settle) p (fun _ => Copies size now none now) (Copies size begun none now) := by
  obtain ⟨sized, count⟩ := quiet_file File.size (File.size_bytes p.file)
  refine (copies.quiet sized count).bind fun length q run copiesQ => ?_
  rw [Action.final_of_ok run] at sized
  have cleanQ : ¬ Dirty q 1 := fun dirty => clean (sized.dirty.mp dirty)
  split
  · have cut := onFile_final (File.truncate ((p.pageCount * p.pageSize : Nat) : Int)) q
    have shortened : Spares q ((onFile (File.truncate ((p.pageCount * p.pageSize : Nat) : Int))).final q) := by
      rw [cut]
      refine .of_start fun i low => File.truncate_before ?_
      have one : 1 * p.pageSize ≤ p.pageCount * p.pageSize := Nat.mul_le_mul_right _ copies.count.1
      rw [sized.pageSize] at low
      omega
    have same : ((onFile (File.truncate ((p.pageCount * p.pageSize : Nat) : Int))).final q).pageCount =
        q.pageCount := by
      rw [cut]
    refine (copiesQ.quiet shortened same).bind fun _ r ran copiesR => copiesR.settle ?_
    rw [Action.final_of_ok ran] at shortened
    exact fun dirty => cleanQ (shortened.dirty.mp dirty)
  · exact copiesQ.settle cleanQ

theorem Copies.commit [Sized size now] (copies : Copies size begun none now p) :
    Ends Pager.commit p (fun _ => Copies size now none now)
      (Copies size (fun d => begun d ∨ now d) none now) := by
  by_cases writing : p.state = .writing
  · have wide : Copies size (fun d => begun d ∨ now d) none now p := copies.weaken fun _ => .inl
    have awaits : Awaits p p.dirtyPages :=
      ⟨fun data member => (mem_dirtyPages.mp member).1, dirtyPages_distinct⟩
    obtain ⟨copiesR, done⟩ := wide.writeBack awaits fun _ => .inr
    unfold Ends
    rw [commit_writing writing]
    refine (Ends.of_final copiesR).bind fun _ r run copiesR => .get (copiesR.finish ?_)
    intro dirty
    obtain ⟨⟨d, found⟩, absent⟩ := done r run dirty
    exact absent d (mem_dirtyPages.mpr ⟨found, copies.count.1⟩)
  · have kept := copies.starts.kept.resolve_right fun dirty => writing (copies.busy dirty)
    exact .of_ok (commit_idle writing) ⟨copies.pageSize, copies.room, copies.count, copies.start, copies.starts,
      copies.busy, kept, .inr ⟨fun other => absurd other writing, copies.starts.now⟩, copies.opened⟩

end

end Pager

end TreeFile
