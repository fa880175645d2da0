import TreeFile.Proofs.Pager.SparedPages

/-!
What requests to a pager do to a page. Each is taken apart once. The images in the cache, the journal and
the savepoints stay as large as a page, so that writing one of them to the file leaves the others alone,
and with that it is known how far a commit has got that fails in the middle.
-/

namespace TreeFile

open Action (Ends)

namespace Pager

variable {p q r : Pager} {n : Nat} {data : Bytes}

theorem openSavepoint_final (p : Pager) : openSavepoint.final p = { begin.final p with
    savepoints := { pageCount := (begin.final p).pageCount } :: (begin.final p).savepoints } := by
  obtain ⟨b, begun, -⟩ := begin_calm p
  unfold openSavepoint
  rw [Action.final_bind_of_ok begun, Action.final_of_ok begun]
  rfl

theorem releaseSavepoint_cases (p : Pager) :
    (p.savepoints = [] ∧ releaseSavepoint.final p = p) ∨
      (∃ inner, p.savepoints = [inner] ∧ releaseSavepoint.final p = { p with savepoints := [] }) ∨
      ∃ inner outer rest, p.savepoints = inner :: outer :: rest ∧
        releaseSavepoint.final p = { p with savepoints := outer.absorb inner :: rest } := by
  unfold releaseSavepoint Action.final Action.outcome
  rw [Action.get_bind]
  match p.savepoints with
  | [] => exact .inl ⟨rfl, rfl⟩
  | [inner] => exact .inr (.inl ⟨inner, rfl, rfl⟩)
  | inner :: outer :: rest => exact .inr (.inr ⟨inner, outer, rest, rfl, rfl⟩)

theorem rollbackSavepoint_cases (p : Pager) :
    (p.savepoints = [] ∧ rollbackSavepoint.final p = p) ∨
      ∃ inner rest cache, p.savepoints = inner :: rest ∧
        rollbackSavepoint.final p = { p with savepoints := rest, cache, pageCount := inner.pageCount } ∧
        ∀ n : Nat, cache[n]? =
          (inner.undo[n]?.map fun data => ({ data, dirty := true } : PageImage)).or p.cache[n]? := by
  unfold rollbackSavepoint Action.final Action.outcome
  rw [Action.get_bind]
  match p.savepoints with
  | [] => exact .inl ⟨rfl, rfl⟩
  | inner :: rest =>
    exact .inr ⟨inner, rest, _, rfl, rfl,
      PageMap.get_foldl_insert inner.undo (fun data => { data, dirty := true }) p.cache⟩

theorem rollback_cases (p : Pager) : (p.state ≠ .writing ∧ rollback.final p = p) ∨
    p.state = .writing ∧ ∃ cache, rollback.final p = { p with
        cache
        journal := {}
        savepoints := []
        pageCount := p.startCount
        state := .reading } ∧
      ∀ n : Nat, cache[n]? = (((p.journal[n]?).map fun data => ({ data } : PageImage)).or p.cache[n]?).filter
        fun image => !image.dirty && n ≤ p.startCount := by
  by_cases writing : p.state = .writing
  · refine .inr ⟨writing, _, if_pos writing, fun n => ?_⟩
    rw [PageMap.get_filter, PageMap.get_foldl_insert p.journal (fun data => { data }) p.cache n]
  · exact .inl ⟨writing, if_neg writing⟩

structure Even (n : Nat) (p : Pager) : Prop where
  cached : ∀ image, p.cache[n]? = some image → n ≠ 0 ∧ image.data.size = p.pageSize
  journal : ∀ data, p.journal[n]? = some data → n ≠ 0 ∧ data.size = p.pageSize
  undo : ∀ s ∈ p.savepoints, ∀ data, s.undo[n]? = some data → n ≠ 0 ∧ data.size = p.pageSize

theorem even_of_unread (cache : p.cache = {}) (journal : p.journal = {}) (closed : p.savepoints = []) (n : Nat) :
    Even n p := by
  refine ⟨fun image found => ?_, fun data found => ?_, fun s member => ?_⟩
  · rw [cache, Std.TreeMap.getElem?_emptyc] at found
    cases found
  · rw [journal, Std.TreeMap.getElem?_emptyc] at found
    cases found
  · rw [closed] at member
    cases member

structure Sizes (p q : Pager) : Prop where
  pageSize : q.pageSize = p.pageSize
  maxPages : q.maxPages = p.maxPages

namespace Sizes

theorem refl (p : Pager) : Sizes p p := ⟨rfl, rfl⟩

theorem trans (first : Sizes p q) (second : Sizes q r) : Sizes p r :=
  ⟨second.pageSize.trans first.pageSize, second.maxPages.trans first.maxPages⟩

theorem begin (p : Pager) : Sizes p (Pager.begin.final p) := by
  show Sizes p (if p.state = .writing then _ else _)
  split
  · exact .refl p
  · exact ⟨rfl, rfl⟩

theorem passes (passes : Passes n p q) : Sizes p q := ⟨passes.pageSize, passes.maxPages⟩

theorem notes {page : Nat} (notes : Notes n page p q) : Sizes p q := by
  cases notes with
  | had => exact .refl p
  | made run passes => exact ⟨passes.pageSize, passes.maxPages⟩

theorem write (page : Nat) (data : Bytes) (p : Pager) : Sizes p ((Pager.write page data).final p) := by
  rcases write_notes page page data p with ⟨e, failed⟩ | ⟨-, ends⟩
  · rw [Action.final_of_error failed]
    exact .refl p
  · refine (begin p).trans (ends.imp (fun _ _ _ => ?_) fun _ => .passes).final
    rintro ⟨t, noted, rfl⟩
    exact (Sizes.notes noted).trans ⟨rfl, rfl⟩

theorem access (access : Access) (p : Pager) : Sizes p (access.run p) := by
  cases access with
  | fetch page => exact .passes (fetch_passes 0 page p)
  | write page data => exact .write page data p
  | extend =>
    dsimp only [Access.run]
    rcases extend_final p with same | written
    · rw [same]
      exact .refl p
    · rw [written]
      exact .write _ _ p
  | truncate count =>
    show Sizes p (if count < p.pageCount then _ else _)
    split
    · exact ⟨rfl, rfl⟩
    · exact .refl p

theorem call (call : Call) (p : Pager) : Sizes p (call.run p) := by
  cases call with
  | access access => exact .access access p
  | openSavepoint =>
    dsimp only [Call.run]
    rw [openSavepoint_final]
    exact (Sizes.begin p).trans ⟨rfl, rfl⟩
  | releaseSavepoint =>
    dsimp only [Call.run]
    rcases releaseSavepoint_cases p with ⟨-, same⟩ | ⟨inner, -, same⟩ | ⟨inner, outer, rest, -, same⟩
    all_goals
      rw [same]
      exact ⟨rfl, rfl⟩
  | rollbackSavepoint =>
    dsimp only [Call.run]
    rcases rollbackSavepoint_cases p with ⟨-, same⟩ | ⟨inner, rest, cache, -, same, -⟩
    all_goals
      rw [same]
      exact ⟨rfl, rfl⟩

theorem rollback (p : Pager) : Sizes p (Pager.rollback.final p) := by
  rcases rollback_cases p with ⟨-, same⟩ | ⟨-, cache, same, -⟩
  all_goals
    rw [same]
    exact ⟨rfl, rfl⟩

end Sizes

namespace Even

theorem passes (even : Even n p) (passes : Passes n p q) : Even n q := by
  refine ⟨fun image found => ?_, fun data found => ?_, fun s member data found => ?_⟩
  · rw [passes.pageSize]
    rcases passes.cached with same | ⟨-, dropped | ⟨positive, loaded⟩⟩
    · exact even.cached image (same ▸ found)
    · cases dropped.symm.trans found
    · cases loaded.symm.trans found
      exact ⟨positive, p.size_fileImage n⟩
  · rw [passes.pageSize]
    exact even.journal data (passes.journal ▸ found)
  · obtain ⟨t, old, -, undo⟩ := passes.noted s member
    rw [passes.pageSize]
    exact even.undo t old data (undo.trans found)

theorem size_raw (even : Even n p) : (p.raw n).size = p.pageSize := by
  unfold raw
  split
  · rename_i image found
    exact (even.cached image found).2
  · exact p.size_fileImage n

theorem noting (even : Even n p) (positive : n ≠ 0) (sized : data.size = p.pageSize) :
    Even n (p.noting n data) := by
  refine ⟨even.cached, fun image found => ?_, fun s member image found => ?_⟩
  · unfold Pager.noting at found
    dsimp only at found
    split at found
    · rw [PageMap.get_insertIfNew] at found
      split at found
      · cases found
        exact ⟨positive, sized⟩
      · exact even.journal image found
    · exact even.journal image found
  · have undo := even.undo
    unfold Pager.noting at member
    dsimp only at member
    cases opened : p.savepoints with
    | nil =>
      rw [opened] at member
      cases member
    | cons inner outer =>
      rw [opened] at member undo
      rcases List.mem_cons.mp member with rfl | later
      · rw [(remember_undo inner n n data).2] at found
        split at found
        · cases found
          exact ⟨positive, sized⟩
        · exact undo inner List.mem_cons_self image found
      · exact undo s (List.mem_cons_of_mem _ later) image found

theorem notes (even : Even n p) {page : Nat} (positive : page ≠ 0) (notes : Notes n page p q) : Even n q := by
  by_cases own : page = n
  · subst own
    cases notes with
    | had => exact even
    | made run passes =>
      -- what is noted down is what was loaded
      have loaded := even.passes passes
      have sized := loaded.size_raw
      rw [(load_holds run).2] at sized
      exact loaded.noting positive sized
  · exact even.passes (notes.passes own)

theorem begin (even : Even n p) : Even n (Pager.begin.final p) := by
  show Even n (if p.state = .writing then _ else _)
  split
  · exact even
  · refine ⟨even.cached, fun data found => ?_, even.undo⟩
    rw [Std.TreeMap.getElem?_emptyc] at found
    cases found

theorem put (even : Even n p) {page : Nat} (positive : page ≠ 0) (sized : data.size = p.pageSize) (dirty : Bool) :
    Even n (p.store page { data, dirty }) := by
  refine ⟨fun image found => ?_, even.journal, even.undo⟩
  unfold store at found
  dsimp only at found
  rw [PageMap.get_insert] at found
  split at found
  · rename_i own
    cases found
    exact ⟨own ▸ positive, sized⟩
  · exact even.cached image found

theorem write (even : Even n p) (page : Nat) (data : Bytes) : Even n ((Pager.write page data).final p) := by
  rcases write_notes n page data p with ⟨e, failed⟩ | ⟨⟨positive, -, sized⟩, ends⟩
  · rw [Action.final_of_error failed]
    exact even
  cases run : Pager.write page data p with
  | error e q =>
    rw [Action.final_of_error run]
    exact even.begin.passes (ends.error run)
  | ok a q =>
    obtain ⟨t, notes, rfl⟩ := ends.ok run
    rw [Action.final_of_ok run]
    have noted := even.begin.notes positive notes
    have longer : Even n { t with pageCount := max t.pageCount page } := ⟨noted.cached, noted.journal, noted.undo⟩
    have sizes := (Sizes.begin p).trans (.notes notes)
    exact longer.put positive (sized.trans sizes.pageSize.symm) true

theorem openSavepoint (even : Even n p) : Even n (Pager.openSavepoint.final p) := by
  have began := even.begin
  rw [openSavepoint_final]
  refine ⟨began.cached, began.journal, fun s member data found => ?_⟩
  rcases List.mem_cons.mp member with rfl | old
  · rw [Std.TreeMap.getElem?_emptyc] at found
    cases found
  · exact began.undo s old data found

theorem releaseSavepoint (even : Even n p) : Even n (Pager.releaseSavepoint.final p) := by
  have undo := even.undo
  rcases releaseSavepoint_cases p with ⟨-, same⟩ | ⟨inner, opened, same⟩ | ⟨inner, outer, rest, opened, same⟩
  · rw [same]
    exact even
  · rw [same]
    exact ⟨even.cached, even.journal, nofun⟩
  · rw [same]
    rw [opened] at undo
    refine ⟨even.cached, even.journal, fun s member data found => ?_⟩
    rcases List.mem_cons.mp member with rfl | later
    · rw [(absorb_undo outer inner n).2, Option.or_eq_some_iff] at found
      rcases found with old | ⟨-, new⟩
      · exact undo outer (List.mem_cons_of_mem _ List.mem_cons_self) data old
      · split at new
        · exact undo inner List.mem_cons_self data new
        · cases new
    · exact undo s (List.mem_cons_of_mem _ (List.mem_cons_of_mem _ later)) data found

theorem rollbackSavepoint (even : Even n p) : Even n (Pager.rollbackSavepoint.final p) := by
  have undo := even.undo
  rcases rollbackSavepoint_cases p with ⟨-, same⟩ | ⟨inner, rest, cache, opened, same, held⟩
  · rw [same]
    exact even
  · rw [same]
    rw [opened] at undo
    refine ⟨fun image found => ?_, even.journal, fun s member => undo s (List.mem_cons_of_mem _ member)⟩
    dsimp only at found
    rw [held, Option.or_eq_some_iff, Option.map_eq_some_iff] at found
    rcases found with ⟨data, kept, rfl⟩ | ⟨-, old⟩
    · exact undo inner List.mem_cons_self data kept
    · exact even.cached image old

theorem rollback (even : Even n p) : Even n (Pager.rollback.final p) := by
  rcases rollback_cases p with ⟨-, same⟩ | ⟨-, cache, same, held⟩
  · rw [same]
    exact even
  · rw [same]
    refine ⟨fun image found => ?_, fun data found => ?_, nofun⟩
    · dsimp only at found
      rw [held, Option.filter_eq_some_iff, Option.or_eq_some_iff, Option.map_eq_some_iff] at found
      rcases found.1 with ⟨data, kept, rfl⟩ | ⟨-, old⟩
      · exact even.journal data kept
      · exact even.cached image old
    · rw [Std.TreeMap.getElem?_emptyc] at found
      cases found

theorem access (even : Even n p) (access : Access) : Even n (access.run p) := by
  cases access with
  | fetch page => exact even.passes (fetch_passes n page p)
  | write page data => exact even.write page data
  | extend =>
    dsimp only [Access.run]
    rcases extend_final p with same | written
    · rw [same]
      exact even
    · rw [written]
      exact even.write _ _
  | truncate count =>
    show Even n (if count < p.pageCount then _ else _)
    split
    · exact ⟨even.cached, even.journal, even.undo⟩
    · exact even

end Even

/-- A page that a commit leaves as it is. From behind the end it may be cut off the file. -/
def Unflushed (n : Nat) (p q : Pager) : Prop :=
  q.cache[n]? = p.cache[n]? ∧
    (q.fileImage n = p.fileImage n ∨ p.pageCount < n ∧ q.fileImage n = .zeros p.pageSize)

def Flushed (n : Nat) (p q : Pager) : Prop :=
  n ≤ p.pageCount ∧ n * p.pageSize ≤ q.file.bytes.size ∧
    ∃ data, p.cache[n]? = some { data, dirty := true } ∧ q.cache[n]? = some { data } ∧ q.fileImage n = data

structure Flushes (p q : Pager) : Prop where
  rest : q = { p with file := q.file, cache := q.cache, writes := q.writes }
  long : min p.file.bytes.size (p.pageCount * p.pageSize) ≤ q.file.bytes.size
  pages : ∀ n : Nat, Unflushed n p q ∨ Flushed n p q

theorem Flushes.of_file {f : File} (long : min p.file.bytes.size (p.pageCount * p.pageSize) ≤ f.bytes.size)
    (images : ∀ n : Nat, n ≠ 0 → fileImage { p with file := f } n = p.fileImage n ∨
      p.pageCount < n ∧ fileImage { p with file := f } n = .zeros p.pageSize) :
    Flushes p { p with file := f } := by
  refine ⟨rfl, long, fun n => .inl ⟨rfl, ?_⟩⟩
  by_cases zero : n = 0
  · rw [zero, fileImage_zero, fileImage_zero]
    exact .inl rfl
  · exact images n zero

theorem Flushes.of_bytes {f : File} (bytes : f.bytes = p.file.bytes) : Flushes p { p with file := f } := by
  refine .of_file (bytes ▸ Nat.min_le_left _ _) fun n _ => .inl ?_
  unfold fileImage
  rw [bytes]

theorem Flushes.refl (p : Pager) : Flushes p p := .of_bytes rfl

theorem Flushes.sizes (flushes : Flushes p q) : Sizes p q := by
  rw [flushes.rest]
  exact ⟨rfl, rfl⟩

theorem Flushes.count (flushes : Flushes p q) : q.pageCount = p.pageCount ∧ q.pageSize = p.pageSize := by
  rw [flushes.rest]
  exact ⟨rfl, rfl⟩

theorem Flushed.later (flushed : Flushed n p q) (first : Flushes p q) (second : Flushes q r) :
    Flushed n p r := by
  obtain ⟨low, covered, data, waited, clean, image⟩ := flushed
  obtain ⟨count, size⟩ := first.count
  have long := second.long
  rw [count, size] at long
  have within : n * p.pageSize ≤ p.pageCount * p.pageSize := Nat.mul_le_mul_right _ low
  rcases second.pages n with ⟨cached, same⟩ | ⟨-, -, other, waited', -⟩
  · rw [count] at same
    -- the page is in the image, so it has not been cut off
    have same := same.resolve_right fun past => by omega
    exact ⟨low, by omega, data, waited, cached.trans clean, same.trans image⟩
  · cases clean.symm.trans waited'

theorem Flushed.earlier (flushed : Flushed n q r) (first : Flushes p q) : Flushed n p r := by
  obtain ⟨low, covered, data, waited, clean, image⟩ := flushed
  obtain ⟨count, size⟩ := first.count
  rw [count] at low
  rw [size] at covered
  rcases first.pages n with ⟨cached, -⟩ | ⟨-, -, other, -, clean', -⟩
  · exact ⟨low, covered, data, cached ▸ waited, clean, image⟩
  · cases clean'.symm.trans waited

theorem Flushes.trans (first : Flushes p q) (second : Flushes q r) : Flushes p r := by
  obtain ⟨count, size⟩ := first.count
  have long := second.long
  rw [count, size] at long
  have shorter := first.long
  refine ⟨?_, by omega, fun n => ?_⟩
  · rw [second.rest, first.rest]
  rcases first.pages n with ⟨cached, image⟩ | flushed
  · rcases second.pages n with ⟨cached', image'⟩ | flushed
    · rw [count, size] at image'
      refine .inl ⟨cached'.trans cached, ?_⟩
      rcases image' with same | lost
      · rw [same]
        exact image
      · exact .inr lost
    · exact .inr (flushed.earlier first)
  · exact .inr (flushed.later first second)

theorem flush_page {page : Nat} (positive : page ≠ 0) (low : page ≤ p.pageCount) (large : data.size = p.pageSize)
    (waits : p.cache[page]? = some { data, dirty := true })
    (run : onFile (File.write data (p.offset page)) p = .ok () q) (writes : Nat) :
    let r := { q.store page { data } with writes }
    Flushes p r ∧ Flushed page p r := by
  intro r
  obtain ⟨f, rfl, size, images⟩ := write_file_ok positive large run
  have cache : ∀ n : Nat, r.cache[n]? = if page = n then some { data } else p.cache[n]? :=
    fun n => PageMap.get_insert _ _ _ _
  have length : r.file.bytes.size = max p.file.bytes.size (page * p.pageSize) := size
  have own : Flushed page p r :=
    ⟨low, by omega, data, waits, (cache page).trans (if_pos rfl), (images page).trans (if_pos rfl)⟩
  refine ⟨⟨rfl, by omega, fun n => ?_⟩, own⟩
  by_cases same : page = n
  · exact .inr (same ▸ own)
  · have image : r.fileImage n = _ := images n
    rw [if_neg fun same' => same same'.symm] at image
    exact .inl ⟨(cache n).trans (if_neg same), .inl image⟩

theorem writeBack_flushes {left : List (PageNo × Bytes)} (waits : ∀ (page : Nat) (data : Bytes), (page, data) ∈ left →
      page ≠ 0 ∧ page ≤ p.pageCount ∧ data.size = p.pageSize ∧ p.cache[page]? = some { data, dirty := true })
    (distinct : (left.map Prod.fst).Nodup) : Ends (writeBack left) p (fun _ q => Flushes p q ∧
      ∀ (page : Nat) (data : Bytes), (page, data) ∈ left → Flushed page p q) (Flushes p) := by
  induction left generalizing p with
  | nil => exact .of_ok rfl ⟨.refl p, nofun⟩
  | cons entry rest ih =>
    obtain ⟨page, data⟩ := entry
    obtain ⟨positive, low, large, held⟩ := waits page data List.mem_cons_self
    obtain ⟨fresh, distinct⟩ := List.nodup_cons.mp distinct
    cases run : onFile (File.write data (p.offset page)) p with
    | error e q =>
      obtain ⟨f, refused, rfl⟩ := onFile_error run
      exact .of_error (writeBack_failed rest run) (.of_bytes (File.write_failed refused))
    | ok a q =>
      obtain ⟨step, own⟩ := flush_page positive low large held run (q.writes + 1)
      obtain ⟨f, rfl, -⟩ := write_file_ok positive large run
      have later := ih (p := { store page { data } { p with file := f } with writes := p.writes + 1 })
        (fun other image member => ?_) distinct
      · unfold Ends
        rw [writeBack_step rest run]
        refine later.imp (fun _ q _ ⟨flushes, done⟩ => ⟨step.trans flushes, fun other image member => ?_⟩)
          fun _ => step.trans
        rcases List.mem_cons.mp member with same | old
        · cases same
          exact own.later step flushes
        · exact (done other image old).earlier step
      · -- no page is in the list twice, so the others wait as before
        obtain ⟨positive', low', large', held'⟩ := waits other image (List.mem_cons_of_mem _ member)
        refine ⟨positive', low', large', ?_⟩
        dsimp only [store]
        rw [PageMap.get_insert, if_neg, held']
        rintro rfl
        have later := List.mem_map_of_mem (f := Prod.fst) member
        exact fresh later

/-- A commit has come by the second pager, and no page is left to be written. -/
def Drained (p q : Pager) : Prop := Flushes p q ∧ ∀ n : Nat, Dirty p n → n ≤ p.pageCount → Flushed n p q

theorem Drained.later (drained : Drained p q) (second : Flushes q r) : Drained p r :=
  ⟨drained.1.trans second, fun n dirty low => (drained.2 n dirty low).later drained.1 second⟩

theorem Drained.act {α : Type} {act : Action Pager α} (drained : Drained p q) (flushes : Flushes q (act.final q)) :
    Ends act q (fun _ => Drained p) (Flushes p) :=
  (Ends.of_final flushes).imp (fun _ _ _ => drained.later) fun _ => drained.1.trans

theorem quiet_flushes {α : Type} (act : Action File α) (same : (act.final p.file).bytes = p.file.bytes) :
    Flushes p ((onFile act).final p) := by
  rw [onFile_final]
  exact .of_bytes same

theorem truncate_flushes (p : Pager) :
    Flushes p ((onFile (File.truncate ((p.pageCount * p.pageSize : Nat) : Int))).final p) := by
  rw [onFile_final]
  rcases File.truncate_bytes (p.pageCount * p.pageSize) p.file with same | ⟨longer, cut⟩
  · exact .of_bytes same
  have size := Bytes.size_extract_of_le (a := 0) (Nat.le_of_lt longer)
  refine .of_file (by rw [cut]; omega) fun n positive => ?_
  -- what has been cut off reads as zeroes
  have image : ∀ i, i < p.pageSize → (fileImage { p with
      file := (File.truncate ((p.pageCount * p.pageSize : Nat) : Int)).final p.file } n).get! i =
        if (n - 1) * p.pageSize + i < p.pageCount * p.pageSize then (p.fileImage n).get! i else 0 := by
    intro i low
    rw [get_fileImage _ positive, p.get_fileImage positive, if_pos low, if_pos low]
    dsimp only
    rw [cut, Bytes.get_extract, Nat.zero_add]
  by_cases low : n ≤ p.pageCount
  · refine .inl (Bytes.ext_get (by rw [size_fileImage, size_fileImage]) fun i inside => ?_)
    rw [size_fileImage] at inside
    have within : n * p.pageSize ≤ p.pageCount * p.pageSize := Nat.mul_le_mul_right _ low
    have next := span_end positive p.pageSize
    rw [image i inside, if_pos (by have inside : i < p.pageSize := inside; omega)]
  · have past : p.pageCount * p.pageSize ≤ (n - 1) * p.pageSize := Nat.mul_le_mul_right _ (by omega)
    refine .inr ⟨by omega, Bytes.ext_get (by rw [size_fileImage, Bytes.size_zeros]) fun i inside => ?_⟩
    rw [size_fileImage] at inside
    rw [image i inside, if_neg (by omega), Bytes.get_zeros]

def finished (p : Pager) : Pager :=
  { dropPast p.pageCount p with
    journal := {}
    savepoints := []
    startCount := p.pageCount
    state := .reading }

theorem finished_cache {image : PageImage} (found : p.finished.cache[n]? = some image) :
    n ≤ p.pageCount ∧ p.cache[n]? = some image := by
  unfold finished dropPast at found
  dsimp only at found
  rw [PageMap.get_filter, Option.filter_eq_some_iff] at found
  exact ⟨of_decide_eq_true found.2, found.1⟩

theorem Drained.settle (drained : Drained p q) :
    Ends Pager.settle q (fun _ t => ∃ r, Drained p r ∧ t = finished r) (Flushes p) := by
  unfold Pager.settle
  refine .get ?_
  split
  · have synced := quiet_flushes File.sync (File.checkCall_bytes .sync q.file)
    exact (drained.act synced).bind fun _ r _ drainedR => .of_ok rfl ⟨r, drainedR, rfl⟩
  · exact .of_ok rfl ⟨q, drained, rfl⟩

theorem commit_flushes (even : ∀ n, Even n p) (writing : p.state = .writing) :
    Ends commit p (fun _ q => ∃ r, Drained p r ∧ q = finished r) (Flushes p) := by
  have waits : ∀ (page : Nat) (data : Bytes), (page, data) ∈ p.dirtyPages → page ≠ 0 ∧ page ≤ p.pageCount ∧
      data.size = p.pageSize ∧ p.cache[page]? = some { data, dirty := true } := by
    intro page data member
    obtain ⟨held, low⟩ := mem_dirtyPages.mp member
    obtain ⟨positive, sized⟩ := (even page).cached _ held
    exact ⟨positive, low, sized, held⟩
  unfold Ends
  -- the pages are written, the size is asked for, a file that is too long is cut, and then all is settled
  rw [commit_writing writing]
  refine (writeBack_flushes waits dirtyPages_distinct).bind fun _ r _ ⟨flushes, done⟩ => .get ?_
  have drained : Drained p r := ⟨flushes, fun n ⟨data, held⟩ low => done n data (mem_dirtyPages.mpr ⟨held, low⟩)⟩
  refine (drained.act (quiet_flushes File.size (File.size_bytes r.file))).bind fun _ t _ drainedT => ?_
  dsimp only
  split
  · have count : r.pageCount * r.pageSize = t.pageCount * t.pageSize := by
      rw [flushes.count.1, flushes.count.2, drainedT.1.count.1, drainedT.1.count.2]
    rw [count]
    exact (drainedT.act (truncate_flushes t)).bind fun _ _ _ => Drained.settle
  · exact drainedT.settle

theorem Flushes.even (flushes : Flushes p q) (even : Even n p) : Even n q := by
  have size := flushes.count.2
  have held : ∀ image, q.cache[n]? = some image → n ≠ 0 ∧ image.data.size = p.pageSize := by
    intro image found
    rcases flushes.pages n with ⟨cached, -⟩ | ⟨-, -, data, waited, clean, -⟩
    · exact even.cached image (cached ▸ found)
    · cases clean.symm.trans found
      have sized := even.cached _ waited
      exact sized
  refine ⟨fun image found => size ▸ held image found, ?_, ?_⟩
  · rw [flushes.rest]
    exact even.journal
  · rw [flushes.rest]
    exact even.undo

theorem Even.finished (even : Even n p) : Even n p.finished := by
  refine ⟨fun image found => even.cached image (finished_cache found).2, fun data found => ?_, nofun⟩
  · unfold Pager.finished at found
    dsimp only at found
    rw [Std.TreeMap.getElem?_emptyc] at found
    cases found

theorem Even.call (even : Even n p) (call : Call) : Even n (call.run p) := by
  cases call with
  | access access => exact even.access access
  | openSavepoint => exact even.openSavepoint
  | releaseSavepoint => exact even.releaseSavepoint
  | rollbackSavepoint => exact even.rollbackSavepoint

theorem commit_final (even : ∀ n, Even n p) : commit.final p = p ∨ p.state = .writing ∧
    (Flushes p (commit.final p) ∨ ∃ r, Drained p r ∧ commit.final p = finished r) := by
  by_cases writing : p.state = .writing
  · refine .inr ⟨writing, ?_⟩
    have ends := commit_flushes even writing
    cases run : commit p with
    | ok a q =>
      rw [Action.final_of_ok run]
      exact .inr (ends.ok run)
    | error e q =>
      rw [Action.final_of_error run]
      exact .inl (ends.error run)
  · exact .inl (Action.final_of_ok (commit_idle writing))

theorem Request.run_even (even : ∀ n, Even n p) (request : Request) :
    (∀ n, Even n (request.run p)) ∧ Sizes p (request.run p) := by
  cases request with
  | begin => exact ⟨fun n => (even n).begin, .begin p⟩
  | call call => exact ⟨fun n => (even n).call call, .call call p⟩
  | rollback => exact ⟨fun n => (even n).rollback, .rollback p⟩
  | commit =>
    dsimp only [Request.run]
    rcases commit_final even with same | ⟨-, flushes | ⟨r, drained, same⟩⟩
    · rw [same]
      exact ⟨even, .refl p⟩
    · exact ⟨fun n => flushes.even (even n), flushes.sizes⟩
    · rw [same]
      exact ⟨fun n => (drained.1.even (even n)).finished, drained.1.sizes.trans ⟨rfl, rfl⟩⟩

theorem serve_even (even : ∀ n, Even n p) (requests : List Request) :
    (∀ n, Even n (serve p requests)) ∧ Sizes p (serve p requests) := by
  induction requests generalizing p with
  | nil => exact ⟨even, .refl p⟩
  | cons request rest ih =>
    obtain ⟨stays, sizes⟩ := request.run_even even
    obtain ⟨later, sizes'⟩ := ih stays
    exact ⟨later, sizes.trans sizes'⟩

theorem writeBack_calm {left : List (PageNo × Bytes)} (calm : p.file.refusal = none)
    (sized : ∀ (page : Nat) (data : Bytes), (page, data) ∈ left → page ≠ 0 ∧ data.size = p.pageSize) :
    ∃ q, writeBack left p = .ok () q ∧ q.file.refusal = none := by
  induction left generalizing p with
  | nil => exact ⟨p, rfl, calm⟩
  | cons entry rest ih =>
    obtain ⟨page, data⟩ := entry
    obtain ⟨positive, large⟩ := sized page data List.mem_cons_self
    obtain ⟨f, run, calmF, -⟩ := write_file_run calm positive large
    rw [writeBack_step rest run]
    exact ih calmF fun other image member => sized other image (List.mem_cons_of_mem _ member)

theorem commit_calm (even : ∀ n, Even n p) (calm : p.file.refusal = none) : ∃ q, commit p = .ok () q := by
  by_cases writing : p.state = .writing
  · have sized : ∀ (page : Nat) (data : Bytes), (page, data) ∈ p.dirtyPages → page ≠ 0 ∧ data.size = p.pageSize :=
      fun page data member => (even page).cached _ (mem_dirtyPages.mp member).1
    obtain ⟨r, flushed, calmR⟩ := writeBack_calm calm sized
    rw [commit_writing writing, Action.bind_of_ok flushed, Action.get_bind,
      Action.bind_of_ok (size_file_run calmR)]
    dsimp only
    split
    · obtain ⟨f, cut, calmF, -⟩ := truncate_file_run calmR r.pageCount
      rw [Action.bind_of_ok cut]
      exact ⟨_, settle_eq calmF⟩
    · exact ⟨_, settle_eq (r := r) calmR⟩
  · exact ⟨p, commit_idle writing⟩

end Pager

end TreeFile
