import TreeFile.Proofs.Pager.CoherentCache

/-!
A page while other pages are read and written. Its image may be loaded into the cache or dropped from
it, as the file has it, and nothing else happens to it, also on a file that refuses calls.
-/

namespace TreeFile

namespace File

variable {f g : File}

theorem bytes_of_calm (same : g.calm = f.calm) : g.bytes = f.bytes := by
  show g.calm.bytes = _
  rw [same]
  rfl

theorem checkCall_bytes (call : FileCall) (f : File) : ((checkCall call).final f).bytes = f.bytes := by
  rcases checkCall_cases call f with ⟨e, g, run, same⟩ | ⟨g, run, same⟩
  · rw [Action.final_of_error run]
    exact bytes_of_calm same
  · rw [Action.final_of_ok run]
    exact bytes_of_calm same

theorem read_bytes (n : Nat) (offset : Int) (f : File) :
    ((read n offset).final f).bytes = f.bytes := by
  rcases read_cases n offset f with ⟨e, g, refused, same⟩ | ⟨a, g, run, calmRun⟩
  · rw [Action.final_of_error refused]
    exact bytes_of_calm same
  · rw [Action.final_of_ok run]
    have passed := checkCall_bytes .read f
    unfold read at run
    obtain ⟨_, h, checked, run⟩ := Action.bind_ok.mp run
    rw [Action.final_of_ok checked] at passed
    obtain ⟨start, -, run⟩ := Action.lift_bind_ok.mp run
    rw [Action.get_bind] at run
    obtain ⟨-, rfl⟩ := Action.pure_ok.mp run
    exact passed

theorem size_bytes (f : File) : (size.final f).bytes = f.bytes := by
  have passed := checkCall_bytes .size f
  unfold size
  cases run : checkCall .size f with
  | ok a g =>
    rw [Action.final_of_ok run] at passed
    rw [Action.final_bind_of_ok run]
    exact passed
  | error e g =>
    rw [Action.final_of_error run] at passed
    rw [Action.final_of_error (Action.bind_of_error run)]
    exact passed

theorem write_before {src : Bytes} {offset : Int} {i : Nat}
    (before : ∀ start, position offset = .ok start → i < start) :
    ((write src offset).final f).bytes.get! i = f.bytes.get! i := by
  have passed := checkCall_bytes .write f
  unfold write
  cases run : checkCall .write f with
  | error e g =>
    rw [Action.final_of_error run] at passed
    rw [Action.final_of_error (Action.bind_of_error run), passed]
  | ok a g =>
    rw [Action.final_of_ok run] at passed
    rw [Action.final_bind_of_ok run]
    cases place : position offset with
    | error e => exact congrArg (ByteArray.get! · i) passed
    | ok start =>
      have before := before start place
      rw [Action.final_lift_ok]
      show ((if g.bytes.size < start + src.size then _ else _ : Bytes).overwrite start src).get! i = _
      rw [← passed]
      split
      · rw [Bytes.get_overwrite (Nat.le_of_eq (Bytes.size_resize _ _).symm), if_neg (by omega),
          Bytes.get_resize]
        split
        · rfl
        · rw [Bytes.get_of_ge]
          omega
      · rw [Bytes.get_overwrite (by omega), if_neg (by omega)]

theorem write_failed {src : Bytes} {offset : Int} {e : Error} (run : write src offset f = .error e g) :
    g.bytes = f.bytes := by
  have passed := checkCall_bytes .write f
  unfold write at run
  cases checked : checkCall .write f with
  | error e' h =>
    rw [Action.final_of_error checked] at passed
    rw [Action.bind_of_error checked] at run
    cases run
    exact passed
  | ok a h =>
    rw [Action.final_of_ok checked] at passed
    rw [Action.bind_of_ok checked] at run
    cases place : position offset with
    | error e' =>
      rw [place] at run
      cases run
      exact passed
    | ok start =>
      rw [place, Action.lift_ok_bind, Action.modify_run] at run
      cases run

theorem truncate_bytes (size : Nat) (f : File) : ((truncate (size : Int)).final f).bytes = f.bytes ∨
    size < f.bytes.size ∧ ((truncate (size : Int)).final f).bytes = f.bytes.extract 0 size := by
  have place : position (size : Int) = .ok size := by
    unfold position
    rw [if_neg (by omega)]
    rfl
  have passed := checkCall_bytes .truncate f
  unfold truncate
  cases run : checkCall .truncate f with
  | error e g =>
    rw [Action.final_of_error run] at passed
    rw [Action.final_of_error (Action.bind_of_error run)]
    exact .inl passed
  | ok a g =>
    rw [Action.final_of_ok run] at passed
    rw [Action.final_bind_of_ok run, place, Action.final_lift_ok, ← passed]
    show (if size < g.bytes.size then _ else _ : File).bytes = _ ∨ _ ∧ (if size < g.bytes.size then _ else _ : File).bytes = _
    split
    · rename_i longer
      exact .inr ⟨longer, rfl⟩
    · exact .inl rfl

theorem truncate_before {size i : Nat} (before : i < size) :
    ((truncate (size : Int)).final f).bytes.get! i = f.bytes.get! i := by
  rcases truncate_bytes size f with same | ⟨-, cut⟩
  · rw [same]
  · rw [cut, Bytes.get_extract, if_pos (by omega), Nat.zero_add]

end File

def Savepoint.note (n : Nat) (s : Savepoint) : Nat × Option Bytes := (s.pageCount, s.undo[n]?)

namespace Pager

variable {p q r : Pager} {n : Nat}

theorem read_shows {page present : Nat} {data : Bytes} (positive : page ≠ 0)
    (run : onFile (File.read p.pageSize (p.offset page)) p = .ok (present, data) q) :
    data = p.fileImage page := by
  obtain ⟨f, read, rfl⟩ := onFile_ok.mp run
  rcases File.read_cases p.pageSize (p.offset page) p.file with ⟨e, g, refused, -⟩ | ⟨a, g, read', calmRead⟩
  · cases refused.symm.trans read
  · cases read'.symm.trans read
    obtain ⟨present', whole⟩ := read_run (p := p.calm) rfl positive
    obtain ⟨h, calmRead', -⟩ := onFile_ok.mp whole
    cases calmRead.symm.trans calmRead'
    rfl

theorem onFile_error {α : Type} {act : Action File α} {e : Error} (run : onFile act p = .error e q) :
    ∃ f, act p.file = .error e f ∧ q = { p with file := f } := by
  unfold onFile Action.zoom at run
  dsimp only at run
  cases ran : act p.file with
  | ok a f =>
    rw [ran] at run
    cases run
  | error e' f =>
    rw [ran] at run
    cases run
    exact ⟨f, rfl, rfl⟩

/-- Nothing happens to page `n`, but its image may be dropped from the cache or loaded. -/
structure Passes (n : Nat) (p q : Pager) : Prop where
  pageSize : q.pageSize = p.pageSize
  maxPages : q.maxPages = p.maxPages
  startCount : q.startCount = p.startCount
  writing : q.state = .writing ↔ p.state = .writing
  bytes : q.file.bytes = p.file.bytes
  cached : q.cache[n]? = p.cache[n]? ∨
    ¬ Dirty p n ∧ (q.cache[n]? = none ∨ n ≠ 0 ∧ q.cache[n]? = some { data := p.fileImage n })
  journal : q.journal[n]? = p.journal[n]?
  notes : q.savepoints.map (Savepoint.note n) = p.savepoints.map (Savepoint.note n)

namespace Passes

theorem refl (n : Nat) (p : Pager) : Passes n p p := ⟨rfl, rfl, rfl, .rfl, rfl, .inl rfl, rfl, rfl⟩

theorem file (passes : Passes n p q) (k : Nat) : q.fileImage k = p.fileImage k := by
  unfold fileImage
  rw [passes.bytes, passes.pageSize]

theorem dirty (passes : Passes n p q) : Dirty q n ↔ Dirty p n := by
  rcases passes.cached with same | ⟨clean, dropped | ⟨-, loaded⟩⟩
  · unfold Dirty
    rw [same]
  · refine ⟨fun ⟨data, held⟩ => ?_, fun old => absurd old clean⟩
    rw [dropped] at held
    cases held
  · refine ⟨fun ⟨data, held⟩ => ?_, fun old => absurd old clean⟩
    rw [loaded] at held
    cases held

theorem trans (first : Passes n p q) (second : Passes n q r) : Passes n p r where
  pageSize := second.pageSize.trans first.pageSize
  maxPages := second.maxPages.trans first.maxPages
  startCount := second.startCount.trans first.startCount
  writing := second.writing.trans first.writing
  bytes := second.bytes.trans first.bytes
  cached := by
    rcases second.cached with same | ⟨clean, dropped⟩
    · rw [same]
      exact first.cached
    · rw [first.dirty] at clean
      rw [first.file] at dropped
      exact .inr ⟨clean, dropped⟩
  journal := second.journal.trans first.journal
  notes := second.notes.trans first.notes

theorem noted (passes : Passes n p q) : ∀ s ∈ q.savepoints, ∃ t ∈ p.savepoints,
    t.pageCount = s.pageCount ∧ t.undo[n]? = s.undo[n]? := by
  intro s member
  have note := List.mem_map_of_mem (f := Savepoint.note n) member
  rw [passes.notes] at note
  obtain ⟨t, old, same⟩ := List.mem_map.mp note
  exact ⟨t, old, congrArg Prod.fst same, congrArg Prod.snd same⟩

theorem of_cache {cache : PageMap PageImage} (cached : cache[n]? = p.cache[n]? ∨
    ¬ Dirty p n ∧ (cache[n]? = none ∨ n ≠ 0 ∧ cache[n]? = some { data := p.fileImage n })) :
    Passes n p { p with cache } :=
  ⟨rfl, rfl, rfl, .rfl, rfl, cached, rfl, rfl⟩

theorem of_bytes {f : File} (bytes : f.bytes = p.file.bytes) : Passes n p { p with file := f } :=
  ⟨rfl, rfl, rfl, .rfl, bytes, .inl rfl, rfl, rfl⟩

end Passes

theorem evict_passes (n : Nat) (p : Pager) : Passes n p p.evict := by
  unfold evict
  split
  · exact .refl n p
  have cache : (p.victims.foldl (fun cache page => cache.erase page) p.cache)[n]? =
      if n ∈ p.victims then none else p.cache[n]? := foldl_erase p.victims p.cache n
  refine ⟨rfl, rfl, rfl, .rfl, rfl, ?_, rfl, rfl⟩
  by_cases victim : n ∈ p.victims
  · obtain ⟨image, held, clean⟩ := victims_clean victim
    refine .inr ⟨?_, .inl (cache.trans (if_pos victim))⟩
    rintro ⟨data, found⟩
    cases found.symm.trans held
    cases clean
  · exact .inl (cache.trans (if_neg victim))

theorem store_passes {page : Nat} (image : PageImage) (other : page ≠ n) : Passes n p (p.store page image) :=
  .of_cache (.inl ((PageMap.get_insert _ _ _ _).trans (if_neg other)))

theorem store_own_passes (positive : n ≠ 0) (uncached : p.cache[n]? = none) :
    Passes n p (p.store n { data := p.fileImage n }) := by
  refine .of_cache (.inr ⟨?_, .inr ⟨positive, (PageMap.get_insert _ _ _ _).trans (if_pos rfl)⟩⟩)
  rintro ⟨data, found⟩
  cases uncached.symm.trans found

theorem load_passes (n : Nat) {page : Nat} (positive : page ≠ 0) : Action.Stays (Passes n) (load page) := by
  intro p
  have quiet : Passes n p ((onFile (File.read p.pageSize (p.offset page))).final p) := by
    rw [onFile_final]
    exact .of_bytes (File.read_bytes _ _ _)
  rcases load_final page p with same | ⟨uncached, q, read, refused | ⟨present, data, reads, run, stored⟩⟩
  · rw [same]
    exact .refl n p
  · rw [refused, ← read]
    exact quiet
  · have cache : q.cache = p.cache := by rw [← read, onFile_final]
    rw [read] at quiet
    rw [stored]
    -- the count of reads makes no difference
    have counted : Passes n p { q with reads } := quiet.trans ⟨rfl, rfl, rfl, .rfl, rfl, .inl rfl, rfl, rfl⟩
    have evicted := counted.trans (evict_passes n _)
    refine evicted.trans ?_
    by_cases own : page = n
    · subst own
      rw [← cache] at uncached
      rw [read_shows positive run, ← evicted.file]
      exact store_own_passes positive (evict_absent uncached)
    · exact store_passes _ own

theorem fetch_passes (n page : Nat) : Action.Stays (Passes n) (fetch page) := by
  refine fetch_stays (.refl n) .trans (fun p idle => ⟨rfl, rfl, rfl, ?_, rfl, .inl rfl, rfl, rfl⟩) (load_passes n)
  rw [idle]
  exact ⟨nofun, nofun⟩

theorem noting_passes {page : Nat} (image : Bytes) (other : page ≠ n) : Passes n p (p.noting page image) := by
  refine ⟨rfl, rfl, rfl, .rfl, rfl, .inl rfl, ?_, ?_⟩
  · unfold noting
    dsimp only
    split
    · rw [PageMap.get_insertIfNew, if_neg fun both => other both.1]
    · rfl
  · unfold noting
    dsimp only
    cases p.savepoints with
    | nil => rfl
    | cons s outer =>
      obtain ⟨count, undo⟩ := remember_undo s page n image
      rw [if_neg fun both => other both.1] at undo
      rw [List.map_cons, List.map_cons]
      unfold Savepoint.note
      rw [count, undo]

/-- Before `page` is written its image is noted down, where there is need to. -/
inductive Notes (n page : Nat) (p : Pager) : Pager → Prop where
  | had (held : p.journalLacks page = false) : Notes n page p p
  | made {loaded : Pager} {image : PageImage} (run : load page p = .ok image loaded)
      (passes : Passes n p loaded) : Notes n page p (loaded.noting page image.data)

theorem Notes.passes {page : Nat} (notes : Notes n page p q) (other : page ≠ n) : Passes n p q := by
  cases notes with
  | had => exact .refl n p
  | made run passes => exact passes.trans (noting_passes _ other)

theorem Notes.writing {page : Nat} (notes : Notes n page p q) : q.state = .writing ↔ p.state = .writing := by
  cases notes with
  | had => exact .rfl
  | made run passes => exact passes.writing

theorem Notes.journal {page : Nat} (notes : Notes n page p q) : page ≤ q.startCount → page ∈ q.journal := by
  cases notes with
  | had held =>
    intro old
    unfold journalLacks at held
    simpa [old] using held
  | @made loaded image => exact fun old => (mem_noting loaded page image.data).1 old

theorem remember_notes (n : Nat) {page : Nat} (positive : page ≠ 0) (p : Pager) :
    Action.Ends (remember page) p (fun _ => Notes n page p) (Passes n p) := by
  unfold remember
  refine .get ?_
  by_cases lacks : (p.journalLacks page || p.savepointLacks page) = true
  · rw [if_pos lacks]
    refine (Action.Ends.of_final (load_passes n positive p)).bind fun image r run loaded => ?_
    exact .of_ok rfl (.made run loaded)
  · rw [if_neg lacks]
    rw [Bool.or_eq_true, not_or, Bool.not_eq_true] at lacks
    exact .of_ok rfl (.had lacks.1)

/-- A write is refused at once, or it takes note of the page and then puts the image in place. -/
theorem write_notes (n page : Nat) (data : Bytes) (p : Pager) : (∃ e, write page data p = .error e p) ∨
    (page ≠ 0 ∧ page ≤ p.maxPages ∧ data.size = p.pageSize) ∧ Action.Ends (write page data) p
      (fun _ q => ∃ t, Notes n page (begin.final p) t ∧
        q = store page { data, dirty := true } { t with pageCount := max t.pageCount page })
      (Passes n (begin.final p)) := by
  rcases write_cases p page data with ⟨positive, bound, large⟩ | failed
  · refine .inr ⟨⟨positive, bound, large⟩, ?_⟩
    obtain ⟨b, begun, -⟩ := begin_calm p
    rw [Action.final_of_ok begun]
    unfold Action.Ends
    rw [write_entered positive bound large, Action.bind_of_ok begun]
    exact (remember_notes n positive b).bind fun _ t _ notes => .of_ok rfl ⟨t, notes, rfl⟩
  · exact .inl failed

theorem write_passes {page : Nat} (data : Bytes) (spares : page = n → (write page data).succeeds p = false) :
    (write page data).final p = p ∨ Passes n (begin.final p) ((write page data).final p) := by
  rcases write_notes n page data p with ⟨e, failed⟩ | ⟨-, ends⟩
  · exact .inl (Action.final_of_error failed)
  right
  cases run : write page data p with
  | error e q =>
    rw [Action.final_of_error run]
    exact ends.error run
  | ok a q =>
    obtain ⟨t, notes, rfl⟩ := ends.ok run
    rw [Action.final_of_ok run]
    have other : page ≠ n := by
      intro own
      cases (Action.succeeds_of_ok run).symm.trans (spares own)
    have longer : Passes n t { t with pageCount := max t.pageCount page } :=
      ⟨rfl, rfl, rfl, .rfl, rfl, .inl rfl, rfl, rfl⟩
    exact ((notes.passes other).trans longer).trans (store_passes _ other)

theorem write_file_ok {page : Nat} {data : Bytes} (positive : page ≠ 0) (large : data.size = p.pageSize)
    (run : onFile (File.write data (p.offset page)) p = .ok () q) :
    ∃ f, q = { p with file := f } ∧ f.bytes.size = max p.file.bytes.size (page * p.pageSize) ∧
      ∀ m : Nat, fileImage { p with file := f } m = if m = page then data else p.fileImage m := by
  obtain ⟨f, written, rfl⟩ := onFile_ok.mp run
  obtain ⟨calmWritten, start, place, size⟩ := File.write_ok written
  obtain ⟨g, calmRun, -, images⟩ := write_file_run (p := p.calm) rfl positive large
  obtain ⟨h, calmWritten', same⟩ := onFile_ok.mp calmRun
  cases calmWritten.symm.trans calmWritten'
  refine ⟨f, rfl, ?_, fun m => ?_⟩
  · rw [position_offset p positive] at place
    cases place
    rw [size, large, span_end positive]
  · by_cases nonzero : m ≠ 0
    · have image := images m nonzero
      rw [same] at image
      exact image
    · have zero : m = 0 := Decidable.not_not.mp nonzero
      rw [zero, if_neg fun own => positive own.symm, fileImage_zero, fileImage_zero]

theorem writeBack_failed {page : Nat} {data : Bytes} (rest : List (PageNo × Bytes)) {e : Error}
    (run : onFile (File.write data (p.offset page)) p = .error e q) :
    Pager.writeBack ((page, data) :: rest) p = .error e q := by
  unfold Pager.writeBack
  rw [Action.get_bind]
  exact Action.bind_of_error run

theorem writeBack_step {page : Nat} {data : Bytes} (rest : List (PageNo × Bytes))
    (run : onFile (File.write data (p.offset page)) p = .ok () q) :
    Pager.writeBack ((page, data) :: rest) p =
      Pager.writeBack rest { q.store page { data } with writes := q.writes + 1 } := by
  conv => lhs; unfold Pager.writeBack
  rw [Action.get_bind]
  exact Action.bind_of_ok run

end Pager

end TreeFile
