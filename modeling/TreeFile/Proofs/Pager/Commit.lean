import TreeFile.Proofs.Pager.Write

/-!
Ending a write transaction. A commit puts the pages as they are into the file; a rollback goes back
to what the file has.
-/

namespace TreeFile

namespace Pager

variable {p q r : Pager}

theorem pages_of_idle (sound : Sound p) (idle : p.state ≠ .writing) : p.pages = p.base := by
  unfold pages base
  rw [(sound.rest idle).1]
  congr 1
  funext n
  unfold raw
  cases found : p.cache[n]? with
  | none => rfl
  | some image =>
    cases dirty : image.dirty with
    | false => exact sound.clean n image found dirty
    | true => exact absurd (sound.dirty n image found dirty).1 idle

theorem rollback_run (sound : Sound p) : ∃ q, rollback p = .ok () q ∧ Sound q ∧
    q.pages = p.base ∧ q.base = p.base ∧ q.savepoints = [] ∧ q.pageSize = p.pageSize ∧
    q.maxPages = p.maxPages := by
  refine ⟨_, rfl, ?_⟩
  dsimp only
  by_cases writing : p.state = .writing
  · rw [if_pos writing]
    have cache : ∀ n : Nat, ((p.journal.foldl (fun cache page data => cache.insert page { data })
        p.cache).filter fun page image => !image.dirty && page ≤ p.startCount)[n]? =
          (((p.journal[n]?).map fun data => ({ data } : PageImage)).or p.cache[n]?).filter
            fun image => !image.dirty && n ≤ p.startCount := by
      intro n
      rw [PageMap.get_filter, PageMap.get_foldl_insert p.journal (fun data => { data }) p.cache n]
    have held : ∀ (n : Nat) (image : PageImage), ((p.journal.foldl (fun cache page data =>
        cache.insert page { data }) p.cache).filter fun page image =>
          !image.dirty && page ≤ p.startCount)[n]? = some image →
        n ≠ 0 ∧ image.dirty = false ∧ image.data = p.fileImage n := by
      intro n image found
      rw [cache, Option.filter_eq_some_iff] at found
      obtain ⟨found, keep⟩ := found
      simp only [Bool.and_eq_true, Bool.not_eq_true'] at keep
      refine ⟨?_, keep.1, ?_⟩
      all_goals
        cases journaled : p.journal[n]? with
        | some data =>
          rw [journaled] at found
          cases found
          obtain ⟨positive, -, same⟩ := sound.journal n data journaled
          first | exact positive | exact same
        | none =>
          rw [journaled] at found
          first
          | exact (sound.cached n image found).1
          | exact sound.clean n image found keep.1
    refine ⟨⟨sound.calm, sound.positive, sound.start, sound.start, ?_, ?_, ?_, nofun, nofun,
      fun _ => ⟨rfl, rfl⟩⟩, ?_, rfl, rfl, rfl, rfl⟩
    · intro n image found
      obtain ⟨positive, -, same⟩ := held n image found
      refine ⟨positive, ?_⟩
      rw [same]
      exact p.size_fileImage n
    · intro n image found _
      exact (held n image found).2.2
    · intro n image found dirty
      rw [(held n image found).2.1] at dirty
      cases dirty
    · unfold pages base
      congr 1
      refine funext fun (n : Nat) => ?_
      unfold raw
      dsimp only
      split
      · rename_i image found
        exact (held n image found).2.2
      · rfl
  · rw [if_neg writing]
    exact ⟨sound, pages_of_idle sound writing, rfl, (sound.rest writing).2, rfl, rfl⟩

/-- Dirty pages are being written to the file. The entries of `left` are still to be written. -/
structure Flushing (p r : Pager) (left : List (PageNo × Bytes)) : Prop where
  calm : r.file.refusal = none
  pageSize : r.pageSize = p.pageSize
  pageCount : r.pageCount = p.pageCount
  maxPages : r.maxPages = p.maxPages
  raw : ∀ n : Nat, r.raw n = p.raw n
  cached : ∀ (n : Nat) (image : PageImage), r.cache[n]? = some image →
    n ≠ 0 ∧ image.data.size = p.pageSize
  clean : ∀ (n : Nat) (image : PageImage), r.cache[n]? = some image → image.dirty = false →
    image.data = r.fileImage n
  dirty : ∀ (n : Nat) (image : PageImage), r.cache[n]? = some image → image.dirty = true →
    n ≤ p.pageCount → (n, image.data) ∈ left
  held : ∀ entry ∈ left, r.cache[entry.1]? = some { data := entry.2, dirty := true }
  distinct : (left.map Prod.fst).Nodup

theorem write_file_run (calm : p.file.refusal = none) {page : Nat} {data : Bytes}
    (positive : page ≠ 0) (size : data.size = p.pageSize) :
    ∃ f, onFile (File.write data (p.offset page)) p = .ok () { p with file := f } ∧
      f.refusal = none ∧ ∀ n : Nat, n ≠ 0 →
        fileImage { p with file := f } n = if n = page then data else p.fileImage n := by
  obtain ⟨grown, same⟩ : ∃ grown, grown =
      if p.file.bytes.size < (page - 1) * p.pageSize + data.size then
        p.file.bytes.resize ((page - 1) * p.pageSize + data.size) else p.file.bytes := ⟨_, rfl⟩
  have long : (page - 1) * p.pageSize + data.size ≤ grown.size := by
    rw [same]
    split
    · exact Nat.le_of_eq (Bytes.size_resize _ _).symm
    · omega
  have longer : ∀ i, grown.get! i = p.file.bytes.get! i := by
    intro i
    rw [same]
    split
    · rw [Bytes.get_resize]
      split
      · rfl
      · rw [Bytes.get_of_ge]
        omega
    · rfl
  refine ⟨{ p.file with bytes := grown.overwrite ((page - 1) * p.pageSize) data },
    onFile_ok.mpr ⟨_, ?_, rfl⟩, calm, ?_⟩
  · unfold File.write
    rw [Action.bind_of_ok (checkCall_run calm), p.position_offset positive, Action.lift_ok_bind, Action.modify_run, same]
  · intro n nonzero
    apply Bytes.ext_get
    · rw [size_fileImage]
      split
      · exact size.symm
      · exact (p.size_fileImage n).symm
    · intro i h
      rw [size_fileImage] at h
      have h : i < p.pageSize := h
      rw [get_fileImage _ nonzero, if_pos h]
      dsimp only
      rw [Bytes.get_overwrite long, longer]
      by_cases same : n = page
      · subst same
        rw [if_pos (by omega), if_pos rfl, Nat.add_sub_cancel_left]
      · rw [if_neg same, p.get_fileImage nonzero, if_pos h, if_neg]
        rintro ⟨low, high⟩
        rcases Nat.lt_or_gt_of_ne same with less | more
        · have step : n * p.pageSize ≤ (page - 1) * p.pageSize :=
            Nat.mul_le_mul_right _ (by omega)
          have next := span_end nonzero p.pageSize
          omega
        · have step : page * p.pageSize ≤ (n - 1) * p.pageSize :=
            Nat.mul_le_mul_right _ (by omega)
          have next := span_end positive p.pageSize
          omega

theorem Flushing.step {page : Nat} {data : Bytes} {rest : List (PageNo × Bytes)}
    (flushing : Flushing p r ((page, data) :: rest)) :
    ∃ f, onFile (File.write data (r.offset page)) r = .ok () { r with file := f } ∧
      Flushing p (store page { data } { r with file := f, writes := r.writes + 1 }) rest := by
  have own := flushing.held (page, data) List.mem_cons_self
  obtain ⟨positive, size⟩ := flushing.cached page _ own
  obtain ⟨f, written, calm, images⟩ := write_file_run flushing.calm positive
    (size.trans flushing.pageSize.symm)
  obtain ⟨fresh, distinct⟩ := List.nodup_cons.mp flushing.distinct
  have cache : ∀ n : Nat, (store page { data } { r with
      file := f, writes := r.writes + 1 }).cache[n]? =
        if page = n then some { data } else r.cache[n]? := fun n => PageMap.get_insert _ _ _ _
  have image : ∀ n : Nat, n ≠ 0 → fileImage (store page { data } { r with
      file := f, writes := r.writes + 1 }) n = if n = page then data else r.fileImage n := images
  refine ⟨f, written, ⟨calm, flushing.pageSize, flushing.pageCount, flushing.maxPages, ?_, ?_, ?_, ?_,
    ?_, distinct⟩⟩
  · intro n
    rw [← flushing.raw n]
    unfold Pager.raw
    rw [cache]
    by_cases same : page = n
    · subst same
      rw [if_pos rfl, own]
    · rw [if_neg same]
      cases found : r.cache[n]? with
      | some held => rfl
      | none =>
        dsimp only
        by_cases zero : n = 0
        · subst zero
          rw [fileImage_zero, fileImage_zero]
          rfl
        · rw [image n zero, if_neg fun other => same other.symm]
  · intro n held found
    rw [cache] at found
    split at found
    · rename_i same
      cases found
      exact ⟨same ▸ positive, size⟩
    · exact flushing.cached n held found
  · intro n held found clean
    rw [cache] at found
    split at found
    · rename_i same
      cases found
      rw [image n (same ▸ positive), if_pos same.symm]
    · rename_i different
      rw [image n (flushing.cached n held found).1, if_neg fun other => different other.symm]
      exact flushing.clean n held found clean
  · intro n held found dirty low
    rw [cache] at found
    split at found
    · cases found
      cases dirty
    · rename_i different
      rcases List.mem_cons.mp (flushing.dirty n held found dirty low) with same | later
      · cases same
        exact absurd rfl different
      · exact later
  · intro entry member
    rw [cache, if_neg]
    · exact flushing.held entry (List.mem_cons_of_mem _ member)
    · intro same
      have later := List.mem_map_of_mem (f := Prod.fst) member
      rw [← same] at later
      exact fresh later

theorem writeBack_run (left : List (PageNo × Bytes)) (flushing : Flushing p r left) :
    ∃ q, writeBack left r = .ok () q ∧ Flushing p q [] ∧ q.savepoints = r.savepoints := by
  induction left generalizing r with
  | nil => exact ⟨r, rfl, flushing, rfl⟩
  | cons entry rest ih =>
    obtain ⟨page, data⟩ := entry
    obtain ⟨f, written, stepped⟩ := flushing.step
    obtain ⟨q, run, done, same⟩ := ih stepped
    refine ⟨q, ?_, done, same⟩
    unfold writeBack
    rw [Action.get_bind]
    dsimp only
    rw [Action.bind_of_ok written, Action.modify_bind]
    exact run

theorem mem_dirtyPages {n : Nat} {data : Bytes} : (n, data) ∈ p.dirtyPages ↔
    p.cache[n]? = some { data, dirty := true } ∧ n ≤ p.pageCount := by
  unfold dirtyPages
  rw [List.mem_filterMap]
  refine ⟨?_, ?_⟩
  · rintro ⟨⟨page, image⟩, member, same⟩
    have found := Std.TreeMap.mem_toList_iff_getElem?_eq_some.mp member
    dsimp only at same
    split at same
    · rename_i dirty
      simp only [Bool.and_eq_true, decide_eq_true_eq] at dirty
      cases same
      refine ⟨found.trans ?_, dirty.2⟩
      rw [← dirty.1]
    · cases same
  · rintro ⟨found, low⟩
    refine ⟨(n, { data, dirty := true }), Std.TreeMap.mem_toList_iff_getElem?_eq_some.mpr found, ?_⟩
    dsimp only
    rw [if_pos]
    simpa using low

theorem dirtyPages_distinct : (p.dirtyPages.map Prod.fst).Nodup := by
  unfold dirtyPages List.Nodup
  rw [List.pairwise_map, List.pairwise_filterMap]
  refine Std.TreeMap.distinct_keys_toList.imp fun {a b} apart => ?_
  have number : ∀ (entry : PageNo × PageImage) (written : PageNo × Bytes),
      (if (entry.2.dirty && entry.1 ≤ p.pageCount) = true then some (entry.1, entry.2.data)
        else none) = some written → written.1 = entry.1 := by
    intro entry written same
    split at same
    · cases same
      rfl
    · cases same
  intro first isFirst second isSecond same
  rw [number a first isFirst, number b second isSecond] at same
  exact apart (by rw [same]; exact Std.ReflCmp.compare_self)

theorem size_file_run (calm : p.file.refusal = none) : onFile File.size p = .ok p.file.bytes.size p := by
  refine onFile_ok.mpr ⟨p.file, ?_, rfl⟩
  unfold File.size
  rw [Action.bind_of_ok (checkCall_run calm)]
  rfl

theorem truncate_file_run (calm : p.file.refusal = none) (count : Nat) :
    ∃ f, onFile (File.truncate ((count * p.pageSize : Nat) : Int)) p = .ok () { p with file := f } ∧
      f.refusal = none ∧ ∀ n : Nat, n ≠ 0 → n ≤ count →
        fileImage { p with file := f } n = p.fileImage n := by
  have place : File.position ((count * p.pageSize : Nat) : Int) = .ok (count * p.pageSize) := by
    unfold File.position
    rw [if_neg (by omega)]
    rfl
  refine ⟨if count * p.pageSize < p.file.bytes.size then
    { p.file with bytes := p.file.bytes.extract 0 (count * p.pageSize) } else p.file,
    onFile_ok.mpr ⟨_, ?_, rfl⟩, ?_, ?_⟩
  · unfold File.truncate
    rw [Action.bind_of_ok (checkCall_run calm), place, Action.lift_ok_bind, Action.modify_run]
  · split
    · exact calm
    · exact calm
  · intro n nonzero low
    apply Bytes.ext_get
    · rw [size_fileImage, size_fileImage]
    · intro i h
      rw [size_fileImage] at h
      have h : i < p.pageSize := h
      rw [get_fileImage _ nonzero, p.get_fileImage nonzero, if_pos h, if_pos h]
      dsimp only
      split
      · rw [Bytes.get_extract, if_pos, Nat.zero_add]
        have step : n * p.pageSize ≤ count * p.pageSize := Nat.mul_le_mul_right _ low
        have next := span_end nonzero p.pageSize
        omega
      · rfl

theorem Flushing.start (calm : p.file.refusal = none) (cached : ∀ (n : Nat) (image : PageImage),
      p.cache[n]? = some image → n ≠ 0 ∧ image.data.size = p.pageSize)
    (clean : ∀ (n : Nat) (image : PageImage), p.cache[n]? = some image → image.dirty = false →
      image.data = p.fileImage n) : Flushing p p p.dirtyPages := by
  refine ⟨calm, rfl, rfl, rfl, fun _ => rfl, cached, clean, ?_, ?_, dirtyPages_distinct⟩
  · intro n image found dirty low
    refine mem_dirtyPages.mpr ⟨found.trans ?_, low⟩
    rw [← dirty]
  · intro entry member
    exact (mem_dirtyPages.mp member).1

theorem Sound.flushing (sound : Sound p) : Flushing p p p.dirtyPages :=
  .start sound.calm sound.cached sound.clean

def settle : Action Pager Unit := do
  if !(← get).inMemory then onFile File.sync
  modify fun p => { dropPast p.pageCount p with
    journal := {}
    savepoints := []
    startCount := p.pageCount
    state := .reading }

theorem commit_writing (writing : p.state = .writing) : commit p = (do
    writeBack p.dirtyPages
    let r ← get
    let size ← onFile File.size
    if size ≠ r.pageCount * r.pageSize then
      onFile (File.truncate ((r.pageCount * r.pageSize : Nat) : Int))
    settle : Action Pager Unit) p := by
  unfold commit settle
  rw [Action.get_bind, if_pos writing]
  rfl

theorem commit_idle (idle : p.state ≠ .writing) : commit p = .ok () p := by
  unfold commit
  rw [Action.get_bind, if_neg idle]
  rfl

theorem Flushing.kept (flushing : Flushing p r []) {f : File} (images : ∀ n : Nat, n ≠ 0 → n ≤ r.pageCount →
      fileImage { r with file := f } n = r.fileImage n) {n : Nat} {image : PageImage}
    (found : (dropPast r.pageCount { r with file := f }).cache[n]? = some image) :
    n ≠ 0 ∧ n ≤ r.pageCount ∧ image.data.size = p.pageSize ∧ image.dirty = false ∧
      image.data = fileImage { r with file := f } n := by
  have cache : (dropPast r.pageCount { r with file := f }).cache[n]? =
      r.cache[n]?.filter fun _ => n ≤ r.pageCount := PageMap.get_filter _ _ _
  rw [cache, Option.filter_eq_some_iff] at found
  obtain ⟨found, low⟩ := found
  have low : n ≤ r.pageCount := by simpa using low
  obtain ⟨positive, size⟩ := flushing.cached n image found
  have clean : image.dirty = false := by
    cases dirty : image.dirty with
    | false => rfl
    | true =>
      have member := flushing.dirty n image found dirty (flushing.pageCount ▸ low)
      cases member
  refine ⟨positive, low, size, clean, ?_⟩
  rw [images n positive low]
  exact flushing.clean n image found clean

theorem settle_eq {f : File} (calm : f.refusal = none) : settle { r with file := f } =
    .ok () { dropPast r.pageCount { r with file := f } with
      journal := {}
      savepoints := []
      startCount := r.pageCount
      state := .reading } := by
  unfold settle
  rw [Action.get_bind]
  dsimp only
  split
  · have run : onFile File.sync { r with file := f } = .ok () { r with file := f } :=
      onFile_ok.mpr ⟨f, checkCall_run calm, rfl⟩
    rw [Action.bind_of_ok run]
    rfl
  · rfl

theorem Flushing.settle_run (sound : Sound p) (flushing : Flushing p r []) {f : File}
    (calm : f.refusal = none) (images : ∀ n : Nat, n ≠ 0 → n ≤ r.pageCount →
      fileImage { r with file := f } n = r.fileImage n) :
    ∃ q, settle { r with file := f } = .ok () q ∧ Sound q ∧ q.pages = p.pages ∧
      q.base = p.pages ∧ q.savepoints = [] ∧ q.pageSize = p.pageSize ∧ q.maxPages = p.maxPages := by
  have cache : ∀ n : Nat, (dropPast r.pageCount { r with file := f }).cache[n]? =
      r.cache[n]?.filter fun _ => n ≤ r.pageCount := fun n => PageMap.get_filter _ _ _
  have held : ∀ (n : Nat) (image : PageImage),
      (dropPast r.pageCount { r with file := f }).cache[n]? = some image →
      n ≠ 0 ∧ n ≤ r.pageCount ∧ image.data.size = p.pageSize ∧ image.dirty = false ∧
        image.data = fileImage { r with file := f } n := fun n image => flushing.kept images
  have raw : ∀ n : Nat, n ≤ r.pageCount → fileImage { r with file := f } n = p.raw n := by
    intro n low
    rw [← flushing.raw n]
    by_cases zero : n = 0
    · subst zero
      unfold Pager.raw
      rw [fileImage_zero]
      cases found : r.cache[0]? with
      | none =>
        dsimp only
        rw [fileImage_zero]
      | some image => exact absurd rfl (flushing.cached 0 image found).1
    · rw [images n zero low]
      unfold Pager.raw
      cases found : r.cache[n]? with
      | none => rfl
      | some image =>
        have kept : (dropPast r.pageCount { r with file := f }).cache[n]? = some image := by
          rw [cache, found]
          simpa using low
        obtain ⟨-, -, -, clean, -⟩ := held n image kept
        exact (flushing.clean n image found clean).symm
  refine ⟨_, settle_eq calm, ⟨calm, ?_, ?_, ?_, ?_, ?_, ?_, ?_, nofun, fun _ => ⟨rfl, rfl⟩⟩, ?_, ?_, rfl,
    flushing.pageSize, flushing.maxPages⟩
  · exact flushing.pageSize ▸ sound.positive
  · exact flushing.pageCount ▸ flushing.maxPages ▸ sound.count
  · exact flushing.pageCount ▸ flushing.maxPages ▸ sound.count
  · intro n image found
    obtain ⟨positive, -, size, -⟩ := held n image found
    exact ⟨positive, size.trans flushing.pageSize.symm⟩
  · intro n image found _
    exact (held n image found).2.2.2.2
  · intro n image found dirty
    rw [(held n image found).2.2.2.1] at dirty
    cases dirty
  · intro n data found
    dsimp only at found
    rw [Std.TreeMap.getElem?_emptyc] at found
    cases found
  · refine cut_congr flushing.pageCount flushing.pageSize fun n low => ?_
    rw [← raw n low]
    unfold Pager.raw
    split
    · rename_i image found
      exact (held n image found).2.2.2.2
    · rfl
  · exact cut_congr flushing.pageCount flushing.pageSize raw

theorem commit_run (sound : Sound p) : ∃ q, commit p = .ok () q ∧ Sound q ∧ q.pages = p.pages ∧
    q.base = p.pages ∧ q.savepoints = [] ∧ q.pageSize = p.pageSize ∧ q.maxPages = p.maxPages := by
  by_cases writing : p.state = .writing
  · obtain ⟨r, flushed, flushing, -⟩ := writeBack_run _ sound.flushing
    rw [commit_writing writing, Action.bind_of_ok flushed, Action.get_bind,
      Action.bind_of_ok (size_file_run flushing.calm)]
    dsimp only
    by_cases exact_ : r.file.bytes.size = r.pageCount * r.pageSize
    · rw [if_neg (fun different => different exact_)]
      exact flushing.settle_run sound flushing.calm fun _ _ _ => rfl
    · obtain ⟨f, truncated, calm, images⟩ := truncate_file_run flushing.calm r.pageCount
      rw [if_pos exact_, Action.bind_of_ok truncated]
      exact flushing.settle_run sound calm images
  · have same := pages_of_idle sound writing
    exact ⟨p, commit_idle writing, sound, rfl, same.symm, (sound.rest writing).2, rfl, rfl⟩

end Pager

end TreeFile
