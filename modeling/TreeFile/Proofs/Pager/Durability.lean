import TreeFile.Proofs.Pager.Undo

/-!
What a commit leaves behind. Pages that the file does not have yet wait in the cache to be written,
through all that can happen in a transaction, so that after a commit the file consists of the pages
and of nothing else.
-/

namespace TreeFile

namespace File

variable {f g : File}

theorem checkCall_ok {call : FileCall} (run : checkCall call f = .ok () g) :
    g.bytes = f.bytes ∧ checkCall call f.calm = .ok () g.calm := by
  rcases checkCall_cases call f with ⟨e, h, failed, -⟩ | ⟨h, passed, same⟩
  · cases failed.symm.trans run
  · cases passed.symm.trans run
    have bytes : g.calm.bytes = f.calm.bytes := by rw [same]
    exact ⟨bytes, same ▸ rfl⟩

theorem write_ok {src : Bytes} {offset : Int} (run : write src offset f = .ok () g) :
    write src offset f.calm = .ok () g.calm ∧
      ∃ start, position offset = .ok start ∧ g.bytes.size = max f.bytes.size (start + src.size) := by
  unfold write at run ⊢
  obtain ⟨⟨⟩, h, passed, run⟩ := Action.bind_ok.mp run
  obtain ⟨bytes, calmed⟩ := checkCall_ok passed
  obtain ⟨start, isStart, run⟩ := Action.lift_bind_ok.mp run
  rw [Action.modify_run] at run
  cases run
  rw [Action.bind_of_ok calmed, isStart, Action.lift_ok_bind]
  refine ⟨rfl, start, rfl, ?_⟩
  dsimp only
  rw [← bytes, Bytes.size_overwrite]
  · split
    · rw [Bytes.size_resize]
      omega
    · omega
  · split
    · exact Nat.le_of_eq (Bytes.size_resize _ _).symm
    · omega

theorem truncate_ok {size : Nat} (run : truncate (size : Int) f = .ok () g) :
    truncate (size : Int) f.calm = .ok () g.calm ∧ g.bytes.size = min f.bytes.size size := by
  have place : position (size : Int) = .ok size := by
    unfold position
    rw [if_neg (by omega)]
    rfl
  unfold truncate at run ⊢
  obtain ⟨⟨⟩, h, passed, run⟩ := Action.bind_ok.mp run
  obtain ⟨bytes, calmed⟩ := checkCall_ok passed
  rw [place, Action.lift_ok_bind, Action.modify_run] at run
  cases run
  rw [Action.bind_of_ok calmed, place, Action.lift_ok_bind]
  refine ⟨congrArg (EStateM.Result.ok ()) ?_, ?_⟩
  · show (if size < h.bytes.size then _ else _ : File) = calm (if size < h.bytes.size then _ else _)
    split <;> rfl
  · rw [← bytes]
    split
    · dsimp only
      rw [Bytes.size_extract_of_le (by omega)]
      omega
    · omega

theorem size_ok {n : Nat} (run : size f = .ok n g) :
    size f.calm = .ok n g.calm ∧ n = f.bytes.size ∧ g.bytes = f.bytes := by
  unfold size at run ⊢
  obtain ⟨⟨⟩, h, passed, run⟩ := Action.bind_ok.mp run
  obtain ⟨bytes, calmed⟩ := checkCall_ok passed
  rw [Action.get_bind] at run
  cases run
  rw [Action.bind_of_ok calmed]
  exact ⟨rfl, congrArg ByteArray.size bytes, bytes⟩

end File

namespace Pager

variable {p q r : Pager}

def Dirty (p : Pager) (page : Nat) : Prop := ∃ data, p.cache[page]? = some { data, dirty := true }

structure Warms (p q : Pager) : Prop where
  dirty : ∀ n : Nat, Dirty p n → Dirty q n
  count : q.pageCount = p.pageCount

theorem Warms.refl (p : Pager) : Warms p p := ⟨fun _ => id, rfl⟩

theorem Warms.trans (first : Warms p q) (second : Warms q r) : Warms p r :=
  ⟨fun n old => second.dirty n (first.dirty n old), second.count.trans first.count⟩

theorem Warms.of_cache (cache : q.cache = p.cache) (count : q.pageCount = p.pageCount) : Warms p q := by
  refine ⟨fun n old => ?_, count⟩
  unfold Dirty
  rw [cache]
  exact old

theorem evict_warms (p : Pager) : Warms p p.evict := by
  unfold evict
  split
  · exact .refl p
  · refine ⟨fun n => ?_, rfl⟩
    rintro ⟨data, found⟩
    refine ⟨data, ?_⟩
    dsimp only
    rw [foldl_erase, if_neg, found]
    intro victim
    obtain ⟨image, held, clean⟩ := victims_clean victim
    cases found.symm.trans held
    cases clean

theorem store_warms {page : Nat} (image : PageImage) (fresh : ¬ Dirty p page) :
    Warms p (p.store page image) := by
  refine ⟨fun n old => ?_, rfl⟩
  obtain ⟨data, found⟩ := old
  refine ⟨data, ?_⟩
  unfold store
  dsimp only
  rw [PageMap.get_insert, if_neg, found]
  rintro rfl
  exact fresh ⟨data, found⟩

theorem onFile_final {α : Type} (act : Action File α) (p : Pager) :
    (onFile act).final p = { p with file := act.final p.file } := by
  unfold Action.final Action.outcome onFile Action.zoom
  dsimp only
  cases act p.file <;> rfl

/-- Loading a page leaves all as it was, or asks the file in vain, or stores what the file gave among the images
that are left. -/
theorem load_final (page : Nat) (p : Pager) : (load page).final p = p ∨
    p.cache[page]? = none ∧ ∃ q, (onFile (File.read p.pageSize (p.offset page))).final p = q ∧
      ((load page).final p = q ∨ ∃ present data reads,
        onFile (File.read p.pageSize (p.offset page)) p = .ok (present, data) q ∧
        (load page).final p = (evict { q with reads }).store page { data }) := by
  unfold load Action.final Action.outcome
  rw [Action.get_bind]
  cases found : p.cache[page]? with
  | some image => exact .inl rfl
  | none =>
    refine .inr ⟨rfl, ?_⟩
    dsimp only
    cases run : onFile (File.read p.pageSize (p.offset page)) p with
    | error e q =>
      rw [Action.bind_of_error run]
      exact ⟨q, rfl, .inl rfl⟩
    | ok got q =>
      obtain ⟨present, data⟩ := got
      rw [Action.bind_of_ok run]
      refine ⟨q, rfl, .inr ⟨present, data, if present > 0 then q.reads + 1 else q.reads, rfl, ?_⟩⟩
      show (evict (if present > 0 then _ else _)).store page { data } = _
      split <;> rfl

theorem load_warms (page : Nat) : Action.Stays Warms (load page) := by
  intro p
  rcases load_final page p with same | ⟨uncached, q, read, refused | ⟨present, data, reads, -, stored⟩⟩
  · rw [same]
    exact .refl p
  · rw [refused, ← read, onFile_final]
    exact .of_cache rfl rfl
  · rw [onFile_final] at read
    subst read
    rw [stored]
    have asked : Warms p { p with file := (File.read p.pageSize (p.offset page)).final p.file, reads } :=
      .of_cache rfl rfl
    refine (asked.trans (evict_warms _)).trans (store_warms _ ?_)
    rintro ⟨image, held⟩
    have old := evict_cache held
    cases uncached.symm.trans old

theorem remember_warms (page : Nat) : Action.Stays Warms (remember page) := by
  intro p
  unfold remember Action.final Action.outcome
  rw [Action.get_bind]
  by_cases lacks : (p.journalLacks page || p.savepointLacks page) = true
  · rw [if_pos lacks]
    have loaded := load_warms page p
    cases run : load page p with
    | error e q =>
      rw [Action.final_of_error run] at loaded
      rw [Action.bind_of_error run]
      exact loaded
    | ok image q =>
      rw [Action.final_of_ok run] at loaded
      rw [Action.bind_of_ok run]
      exact loaded.trans (.of_cache rfl rfl)
  · rw [if_neg lacks]
    exact .refl p

theorem begin_warms : Action.Stays Warms begin := by
  intro p
  show Warms p (if p.state = .writing then _ else _)
  split
  · exact .refl p
  · exact .of_cache rfl rfl

/-- Those that waited still wait, and so do the pages behind what was the end. -/
structure Hardens (p q : Pager) : Prop where
  dirty : ∀ n : Nat, Dirty p n → Dirty q n
  grown : ∀ n : Nat, p.pageCount < n → n ≤ q.pageCount → Dirty q n

theorem Warms.hardens (warms : Warms p q) : Hardens p q :=
  ⟨warms.dirty, fun _ past low => absurd (Nat.lt_of_lt_of_le past (warms.count ▸ low)) (Nat.lt_irrefl _)⟩

theorem Warms.then (first : Warms p q) (second : Hardens q r) : Hardens p r :=
  ⟨fun n old => second.dirty n (first.dirty n old), fun n past => second.grown n (first.count ▸ past)⟩

theorem fetch_warms (page : Nat) : Action.Stays Warms (fetch page) :=
  fetch_stays .refl .trans (fun _ _ => .of_cache rfl rfl) fun _ => load_warms page

theorem put_hardens {page : Nat} (data : Bytes) (near : page ≤ p.pageCount + 1) :
    Hardens p (store page { data, dirty := true } { p with pageCount := max p.pageCount page }) := by
  refine ⟨fun n old => ?_, fun n past low => ?_⟩
  · obtain ⟨image, found⟩ := old
    unfold Dirty store
    dsimp only
    rw [PageMap.get_insert]
    split
    · exact ⟨data, rfl⟩
    · exact ⟨image, found⟩
  · have low : n ≤ max p.pageCount page := low
    have same : page = n := by omega
    refine ⟨data, ?_⟩
    unfold store
    dsimp only
    rw [PageMap.get_insert, if_pos same]

theorem write_hardens {page : Nat} (data : Bytes) (near : page ≤ p.pageCount + 1) :
    Hardens p ((write page data).final p) := by
  rcases write_cases p page data with ⟨positive, bound, size⟩ | ⟨e, failed⟩
  · obtain ⟨b, begun, -⟩ := begin_calm p
    have warm := begin_warms p
    rw [Action.final_of_ok begun] at warm
    unfold Action.final Action.outcome
    rw [write_entered positive bound size, Action.bind_of_ok begun]
    have warmer := warm.trans (remember_warms page b)
    cases run : remember page b with
    | error e t =>
      rw [Action.final_of_error run] at warmer
      rw [Action.bind_of_error run]
      exact warmer.hardens
    | ok a t =>
      rw [Action.final_of_ok run] at warmer
      rw [Action.bind_of_ok run]
      exact warmer.then (put_hardens data (warmer.count ▸ near))
  · rw [Action.final_of_error failed]
    exact (Warms.refl p).hardens

theorem truncate_hardens (count : Nat) (p : Pager) : Hardens p ((truncate count).final p) := by
  show Hardens p (if count < p.pageCount then _ else _)
  split
  · rename_i shorter
    refine ⟨fun _ => id, fun n past low => ?_⟩
    have low : n ≤ count := low
    omega
  · exact (Warms.refl p).hardens

theorem extend_final (p : Pager) : extend.final p = p ∨
    extend.final p = (write (p.pageCount + 1) (.zeros p.pageSize)).final p := by
  unfold extend Action.final Action.outcome
  rw [Action.get_bind]
  dsimp only
  by_cases full : p.pageCount + 1 > p.maxPages
  · rw [if_pos full]
    exact .inl rfl
  · rw [if_neg full]
    refine .inr ?_
    cases run : write (p.pageCount + 1) (.zeros p.pageSize) p with
    | ok a q => rw [Action.bind_of_ok run]; rfl
    | error e q => rw [Action.bind_of_error run]

/-- The file ends where the transaction's first page count says, and every page behind that waits to
be written, also those that a savepoint may bring back. -/
structure Filled (p : Pager) : Prop where
  size : p.file.bytes.size = p.startCount * p.pageSize
  pages : ∀ n : Nat, p.startCount < n → n ≤ p.pageCount → Dirty p n
  savepoints : ∀ s ∈ p.savepoints, ∀ n : Nat, p.startCount < n → n ≤ s.pageCount → Dirty p n

/-- The pager is in order but for what its file refuses, and no page is missing. -/
structure Solid (p : Pager) : Prop where
  sound : Sound p.calm
  filled : Filled p
  limit : p.maxPages ≤ 0xfffffffe

def Reaches (p : Pager) (count : Nat) : Prop :=
  count = p.pageCount ∨ ∃ s ∈ p.savepoints, s.pageCount = count

theorem Filled.waits (filled : Filled p) {count n : Nat} (reaches : Reaches p count)
    (past : p.startCount < n) (low : n ≤ count) : Dirty p n := by
  rcases reaches with rfl | ⟨s, member, rfl⟩
  · exact filled.pages n past low
  · exact filled.savepoints s member n past low

theorem Filled.step (filled : Filled p) (bytes : q.file.bytes = p.file.bytes)
    (pageSize : q.pageSize = p.pageSize) (base : q.base = p.base)
    (dirty : ∀ n : Nat, Dirty p n → Dirty q n)
    (grown : ∀ n : Nat, n ≤ q.pageCount → Dirty q n ∨ ∃ count, Reaches p count ∧ n ≤ count)
    (stack : ∀ s ∈ q.savepoints, Reaches p s.pageCount) : Filled q := by
  have start : q.startCount = p.startCount := congrArg Pages.count base
  refine ⟨?_, fun n past low => ?_, fun s member n past low => ?_⟩
  · rw [bytes, start, pageSize]
    exact filled.size
  · rcases grown n low with new | ⟨count, reaches, within⟩
    · exact new
    · exact dirty n (filled.waits reaches (start ▸ past) within)
  · exact dirty n (filled.waits (stack s member) (start ▸ past) low)

theorem saved_count {s : Savepoint} {stack : List Savepoint} {v : Pages}
    (opened : p.savepoints = s :: stack) (saved : p.saved = some v) : v.count = s.pageCount :=
  (congrArg Pages.count (Option.some.inj ((saved_of_opened opened).symm.trans saved))).symm

theorem reaches_steady (steady : Steady p q) : ∀ s ∈ q.savepoints, Reaches p s.pageCount := by
  intro s member
  cases opened : q.savepoints with
  | nil =>
    rw [opened] at member
    cases member
  | cons head tail =>
    have saved := (saved_of_opened opened).symm.trans steady.saved
    obtain ⟨inner, old⟩ := opened_of_saved saved.symm
    rw [← steady.outer, opened] at old
    rw [opened] at member
    rcases List.mem_cons.mp member with rfl | later
    · refine .inr ⟨inner, old ▸ List.mem_cons_self, ?_⟩
      exact (saved_count old saved.symm).symm
    · exact .inr ⟨s, old ▸ List.mem_cons_of_mem _ later, rfl⟩

theorem onFile_calm {α : Type} {act : Action File α} {a : α}
    (run : onFile act p = .ok a q)
    (calm : ∀ f g : File, act f = .ok a g → act f.calm = .ok a g.calm) : onFile act p.calm = .ok a q.calm := by
  obtain ⟨f, ran, rfl⟩ := onFile_ok.mp run
  exact onFile_ok.mpr ⟨f.calm, calm _ _ ran, rfl⟩

theorem writeBack_ok {left : List (PageNo × Bytes)} (run : writeBack left p = .ok () q) :
    writeBack left p.calm = .ok () q.calm ∧ q.pageSize = p.pageSize ∧ q.pageCount = p.pageCount ∧
      p.file.bytes.size ≤ q.file.bytes.size ∧
      ∀ (page : Nat) (data : Bytes), (page, data) ∈ left → page ≠ 0 → data.size = p.pageSize →
        page * p.pageSize ≤ q.file.bytes.size := by
  induction left generalizing p with
  | nil =>
    cases run
    exact ⟨rfl, rfl, rfl, Nat.le_refl _, nofun⟩
  | cons entry rest ih =>
    obtain ⟨page, data⟩ := entry
    unfold writeBack at run ⊢
    rw [Action.get_bind] at run ⊢
    obtain ⟨⟨⟩, t, wrote, run⟩ := Action.bind_ok.mp run
    rw [Action.modify_bind] at run
    have calmed := onFile_calm wrote fun _ _ ran => (File.write_ok ran).1
    obtain ⟨f, ran, rfl⟩ := onFile_ok.mp wrote
    obtain ⟨-, start, isStart, size⟩ := File.write_ok ran
    obtain ⟨later, pageSize, pageCount, grows, covered⟩ := ih run
    change f.bytes.size ≤ q.file.bytes.size at grows
    refine ⟨?_, pageSize, pageCount, by omega, fun n content member positive whole => ?_⟩
    · rw [show p.calm.offset page = p.offset page from rfl, Action.bind_of_ok calmed,
        Action.modify_bind]
      exact later
    · rcases List.mem_cons.mp member with same | old
      · cases same
        rw [position_offset p positive] at isStart
        cases isStart
        have next := span_end positive p.pageSize
        omega
      · exact covered n content old positive whole

theorem settle_ok (run : settle p = .ok () q) :
    settle p.calm = .ok () q.calm ∧ q.file.bytes.size = p.file.bytes.size := by
  have same : p.calm.inMemory = p.inMemory := rfl
  unfold settle at run ⊢
  rw [Action.get_bind] at run ⊢
  rw [same]
  dsimp only at run ⊢
  by_cases onDisk : (!p.inMemory) = true
  · rw [if_pos onDisk] at run ⊢
    obtain ⟨⟨⟩, r, synced, run⟩ := Action.bind_ok.mp run
    rw [Action.bind_of_ok (onFile_calm synced fun _ _ ran => (File.checkCall_ok ran).2)]
    obtain ⟨f, ran, rfl⟩ := onFile_ok.mp synced
    cases run
    exact ⟨rfl, congrArg ByteArray.size (File.checkCall_ok ran).1⟩
  · rw [if_neg onDisk] at run ⊢
    cases run
    exact ⟨rfl, rfl⟩

/-- A commit fares as on a calm file. First it makes the file long enough, and then it cuts it. -/
theorem commit_ok (writing : p.state = .writing) (run : commit p = .ok () q) :
    commit p.calm = .ok () q.calm ∧ ∃ long, q.file.bytes.size = min long (p.pageCount * p.pageSize) ∧
      p.file.bytes.size ≤ long ∧
      ∀ (page : Nat) (data : Bytes), (page, data) ∈ p.dirtyPages → page ≠ 0 →
        data.size = p.pageSize → page * p.pageSize ≤ long := by
  have writingCalm : p.calm.state = .writing := writing
  rw [commit_writing writing] at run
  rw [commit_writing writingCalm, show p.calm.dirtyPages = p.dirtyPages from rfl]
  obtain ⟨⟨⟩, r, flushed, run⟩ := Action.bind_ok.mp run
  obtain ⟨calmed, pageSize, pageCount, grows, covered⟩ := writeBack_ok flushed
  rw [Action.get_bind] at run
  rw [Action.bind_of_ok calmed, Action.get_bind, show r.calm.pageCount = r.pageCount from rfl,
    show r.calm.pageSize = r.pageSize from rfl]
  obtain ⟨size, u, measured, run⟩ := Action.bind_ok.mp run
  rw [Action.bind_of_ok (onFile_calm measured fun _ _ ran => (File.size_ok ran).1)]
  obtain ⟨f, isSize, rfl⟩ := onFile_ok.mp measured
  obtain ⟨-, rfl, bytes⟩ := File.size_ok isSize
  rw [← pageCount, ← pageSize]
  rw [← pageSize] at covered
  dsimp only at run ⊢
  by_cases different : r.file.bytes.size ≠ r.pageCount * r.pageSize
  · rw [if_pos different] at run ⊢
    obtain ⟨⟨⟩, v, cut, run⟩ := Action.bind_ok.mp run
    rw [Action.bind_of_ok (onFile_calm cut fun _ _ ran => (File.truncate_ok ran).1)]
    obtain ⟨g, ran, rfl⟩ := onFile_ok.mp cut
    obtain ⟨settled, same⟩ := settle_ok run
    refine ⟨settled, r.file.bytes.size, ?_, grows, covered⟩
    rw [same, ← bytes]
    exact (File.truncate_ok ran).2
  · rw [if_neg different] at run ⊢
    obtain ⟨settled, same⟩ := settle_ok run
    refine ⟨settled, r.file.bytes.size, ?_, grows, covered⟩
    rw [same, Decidable.not_not.mp different, Nat.min_self, ← Decidable.not_not.mp different]
    exact congrArg ByteArray.size bytes

/-- A pager in which nothing is missing has come to another one, with pages of the same size. -/
structure Lasts (p q : Pager) : Prop where
  solid : Solid q
  pageSize : q.pageSize = p.pageSize

theorem Solid.lasts (solid : Solid p) : Lasts p p := ⟨solid, rfl⟩

theorem Lasts.trans (first : Lasts p q) (second : Lasts q r) : Lasts p r :=
  ⟨second.solid, second.pageSize.trans first.pageSize⟩

theorem Solid.steady (solid : Solid p) (sound : Sound q.calm) (steady : Steady p.calm q.calm)
    (hardens : Hardens p q) : Lasts p q := by
  refine ⟨⟨sound, solid.filled.step (bytes_of_calm steady.file) steady.pageSize steady.base
    hardens.dirty (fun n low => ?_) (reaches_steady (p := p.calm) (q := q.calm) steady), ?_⟩,
    steady.pageSize⟩
  · by_cases past : p.pageCount < n
    · exact .inl (hardens.grown n past low)
    · exact .inr ⟨p.pageCount, .inl rfl, Nat.le_of_not_lt past⟩
  · rw [show q.maxPages = p.maxPages from steady.maxPages]
    exact solid.limit

theorem Solid.begin (solid : Solid p) (begun : Pager.begin p = .ok () q) :
    Lasts p q ∧ q.state = .writing ∧ q.pageCount = p.pageCount := by
  obtain ⟨r, run, calmRun⟩ := begin_calm p
  cases run.symm.trans begun
  obtain ⟨t, run', sound, writing, -, count, steady⟩ := begin_run solid.sound
  cases calmRun.symm.trans run'
  have warms := begin_warms p
  rw [Action.final_of_ok begun] at warms
  exact ⟨solid.steady sound steady warms.hardens, writing, count⟩

theorem write_begun {page : Nat} {data : Bytes} (begun : Pager.begin p = .ok () q)
    (writing : q.state = .writing) :
    (write page data).final p = p ∨ (write page data).final p = (write page data).final q := by
  rcases write_cases p page data with ⟨positive, bound, size⟩ | ⟨e, failed⟩
  · have same : q.maxPages = p.maxPages ∧ q.pageSize = p.pageSize := by
      unfold Pager.begin at begun
      rw [Action.modify_run] at begun
      cases begun
      split <;> exact ⟨rfl, rfl⟩
    have both : write page data p = write page data q := by
      rw [write_entered positive bound size,
        write_entered positive (same.1 ▸ bound) (size.trans same.2.symm), Action.bind_of_ok begun,
        Action.bind_of_ok (begin_writing writing)]
    right
    unfold Action.final Action.outcome
    rw [both]
  · exact .inl (Action.final_of_error failed)

theorem Solid.write (solid : Solid p) {page : Nat} (data : Bytes) (near : page ≤ p.pageCount + 1) :
    Lasts p ((Pager.write page data).final p) := by
  obtain ⟨q, begun, -⟩ := begin_calm p
  obtain ⟨lasts, writing, count⟩ := solid.begin begun
  rcases write_begun begun writing with same | same
  · rw [same]
    exact solid.lasts
  · rw [same]
    obtain ⟨working, steady⟩ := write_remembers page data q ⟨lasts.solid.sound, writing⟩
    exact lasts.trans (lasts.solid.steady working.sound steady (write_hardens data (count ▸ near)))

/-- The access writes no page that would leave a gap behind the end, and cuts off pages only inside
a transaction. -/
def Access.Orderly (p : Pager) : Access → Prop
  | fetch _ => True
  | write page _ => page ≤ p.pageCount + 1
  | extend => True
  | truncate _ => p.state = .writing

theorem Solid.access (solid : Solid p) (access : Access) (orderly : access.Orderly p) :
    Lasts p (access.run p) := by
  cases access with
  | fetch page =>
    obtain ⟨sound, similar⟩ := fetch_browses page p solid.sound
    exact solid.steady sound similar.steady (fetch_warms page p).hardens
  | write page data => exact solid.write data orderly
  | extend =>
    dsimp only [Access.run]
    rcases extend_final p with same | same
    · rw [same]
      exact solid.lasts
    · rw [same]
      exact solid.write _ (Nat.le_refl _)
  | truncate count =>
    obtain ⟨working, steady⟩ := truncate_remembers count p ⟨solid.sound, orderly⟩
    exact solid.steady working.sound steady (truncate_hardens count p)

theorem Solid.openSavepoint (solid : Solid p) : Lasts p (Pager.openSavepoint.final p) := by
  obtain ⟨b, begun, -⟩ := begin_calm p
  obtain ⟨q, n, run, working, base, saved, outer, file, size, max⟩ := openSavepoint_works solid.sound
  rw [Action.final_of_ok run]
  have warms : Warms p q := by
    have begin_ := begin_warms p
    rw [Action.final_of_ok begun] at begin_
    unfold Pager.openSavepoint at run
    rw [Action.bind_of_ok begun] at run
    cases run
    exact begin_.trans (.of_cache rfl rfl)
  refine ⟨⟨working.sound, solid.filled.step (bytes_of_calm file) size base warms.dirty
    (fun n low => .inr ⟨p.pageCount, .inl rfl, warms.count ▸ low⟩) (fun s member => ?_), ?_⟩, size⟩
  · obtain ⟨inner, opened⟩ := opened_of_saved saved
    rw [outer] at opened
    rw [opened] at member
    rcases List.mem_cons.mp member with rfl | old
    · exact .inl (saved_count opened saved).symm
    · exact .inr ⟨s, old, rfl⟩
  · rw [max]
    exact solid.limit

theorem Solid.closed (solid : Solid p) {inner : Savepoint} {stack : List Savepoint}
    (opened : p.savepoints = inner :: stack) (working : Working q)
    (closes : Closes p.calm q.calm inner stack) (dirty : ∀ n : Nat, Dirty p n → Dirty q n)
    (count : Reaches p q.pageCount) : Lasts p q := by
  refine ⟨⟨working.sound, solid.filled.step (bytes_of_calm closes.file) closes.pageSize closes.base
    dirty (fun n low => .inr ⟨q.pageCount, count, low⟩) (fun s member => ?_), ?_⟩, closes.pageSize⟩
  · have saved : q.saved = stack.head?.map fun s =>
      cut s.pageCount p.pageSize (restored s (restored inner p.raw)) := closes.saved
    have outer : q.savepoints.tail = stack.tail := closes.outer
    cases stack with
    | nil =>
      rw [saved_eq_none.mp saved] at member
      cases member
    | cons next rest =>
      obtain ⟨head, single⟩ := opened_of_saved saved
      rw [outer] at single
      rw [single] at member
      rcases List.mem_cons.mp member with rfl | old
      · refine .inr ⟨next, ?_, saved_count single saved⟩
        rw [opened]
        exact List.mem_cons_of_mem _ List.mem_cons_self
      · refine .inr ⟨s, ?_, rfl⟩
        rw [opened]
        exact List.mem_cons_of_mem _ (List.mem_cons_of_mem _ old)
  · rw [show q.maxPages = p.maxPages from closes.maxPages]
    exact solid.limit

theorem Solid.releaseSavepoint (solid : Solid p) : Lasts p (Pager.releaseSavepoint.final p) := by
  cases opened : p.savepoints with
  | nil =>
    have failed : Pager.releaseSavepoint p = .error .noSavepoint p := by
      unfold Pager.releaseSavepoint
      rw [Action.get_bind, opened]
      rfl
    rw [Action.final_of_error failed]
    exact solid.lasts
  | cons inner stack =>
    have writing : p.state = .writing := Sound.writing_of_savepoint (p := p.calm) solid.sound opened
    obtain ⟨q, run, working, -, closes⟩ := releaseSavepoint_works ⟨solid.sound, writing⟩ opened
    have warms : Warms p q := by
      unfold Pager.releaseSavepoint at run
      rw [Action.get_bind, opened] at run
      cases stack with
      | nil =>
        cases run
        exact .of_cache rfl rfl
      | cons next rest =>
        cases run
        exact .of_cache rfl rfl
    rw [Action.final_of_ok run]
    exact solid.closed opened working closes warms.dirty (.inl warms.count)

theorem Solid.rollbackSavepoint (solid : Solid p) : Lasts p (Pager.rollbackSavepoint.final p) := by
  cases opened : p.savepoints with
  | nil =>
    have failed : Pager.rollbackSavepoint p = .error .noSavepoint p := by
      unfold Pager.rollbackSavepoint
      rw [Action.get_bind, opened]
      rfl
    rw [Action.final_of_error failed]
    exact solid.lasts
  | cons inner stack =>
    have writing : p.state = .writing := Sound.writing_of_savepoint (p := p.calm) solid.sound opened
    obtain ⟨q, run, working, -, closes⟩ := rollbackSavepoint_works ⟨solid.sound, writing⟩ opened
    rw [Action.final_of_ok run]
    unfold Pager.rollbackSavepoint at run
    rw [Action.get_bind, opened] at run
    cases run
    refine solid.closed opened working closes (fun n old => ?_)
      (.inr ⟨inner, opened ▸ List.mem_cons_self, rfl⟩)
    obtain ⟨data, found⟩ := old
    unfold Dirty
    dsimp only
    rw [PageMap.get_foldl_insert inner.undo (fun data => { data, dirty := true }) p.cache n, found]
    cases inner.undo[n]? with
    | some image => exact ⟨image, rfl⟩
    | none => exact ⟨data, rfl⟩

theorem Solid.rollback (solid : Solid p) : Lasts p (Pager.rollback.final p) := by
  obtain ⟨q, run, calmRun, file⟩ := rollback_calm p
  obtain ⟨t, run', sound, pages, base, closed, size, max⟩ := rollback_run solid.sound
  cases calmRun.symm.trans run'
  have count : q.pageCount = p.startCount := congrArg Pages.count pages
  have start : q.startCount = p.startCount := congrArg Pages.count base
  rw [Action.final_of_ok run]
  refine ⟨⟨sound, ⟨?_, fun n past low => ?_, fun s member => ?_⟩, ?_⟩, size⟩
  · rw [file, start, show q.pageSize = p.pageSize from size]
    exact solid.filled.size
  · omega
  · rw [show q.savepoints = [] from closed] at member
    cases member
  · rw [show q.maxPages = p.maxPages from max]
    exact solid.limit

theorem Solid.commit (solid : Solid p) (run : Pager.commit p = .ok () q) :
    Lasts p q ∧ q.pages = p.pages ∧ q.base = p.pages := by
  by_cases writing : p.state = .writing
  · obtain ⟨calmRun, long, cut, old, covered⟩ := commit_ok writing run
    obtain ⟨t, run', sound, pages, base, closed, size, max⟩ := commit_run solid.sound
    cases calmRun.symm.trans run'
    have count : q.pageCount = p.pageCount := congrArg Pages.count pages
    have start : q.startCount = p.pageCount := congrArg Pages.count base
    have reached : p.pageCount * p.pageSize ≤ long := by
      by_cases grown : p.startCount < p.pageCount
      · obtain ⟨data, found⟩ := solid.filled.pages p.pageCount grown (Nat.le_refl _)
        obtain ⟨positive, whole⟩ := solid.sound.cached p.pageCount _ found
        exact covered _ data (mem_dirtyPages.mpr ⟨found, Nat.le_refl _⟩) positive whole
      · have shorter := Nat.mul_le_mul_right p.pageSize (Nat.le_of_not_lt grown)
        rw [← solid.filled.size] at shorter
        omega
    refine ⟨⟨⟨sound, ⟨?_, fun n past low => ?_, fun s member => ?_⟩, ?_⟩, size⟩, pages, base⟩
    · rw [cut, start, show q.pageSize = p.pageSize from size]
      omega
    · omega
    · rw [show q.savepoints = [] from closed] at member
      cases member
    · rw [show q.maxPages = p.maxPages from max]
      exact solid.limit
  · cases (commit_idle writing).symm.trans run
    exact ⟨solid.lasts, rfl, (pages_of_idle (p := p.calm) solid.sound writing).symm⟩

inductive Request where
  | begin
  | call (call : Call)
  | rollback
  | commit

def Request.run : Request → Pager → Pager
  | begin => Pager.begin.final
  | call c => c.run
  | rollback => Pager.rollback.final
  | commit => Pager.commit.final

/-- The request is orderly, and if it is a commit, it does not fail. A commit that fails may have
written pages that a rollback believes to be as they were. -/
def Request.Faultless (p : Pager) : Request → Prop
  | call (.access access) => access.Orderly p
  | commit => ∃ q, Pager.commit p = .ok () q
  | _ => True

def serve (p : Pager) (requests : List Request) : Pager :=
  requests.foldl (fun p request => request.run p) p

def Faultless : Pager → List Request → Prop
  | _, [] => True
  | p, request :: rest => request.Faultless p ∧ Faultless (request.run p) rest

theorem Solid.request (solid : Solid p) (request : Request) (faultless : request.Faultless p) :
    Lasts p (request.run p) := by
  cases request with
  | begin =>
    obtain ⟨q, begun, -⟩ := begin_calm p
    dsimp only [Request.run]
    rw [Action.final_of_ok begun]
    exact (solid.begin begun).1
  | call call =>
    cases call with
    | access access => exact solid.access access faultless
    | openSavepoint => exact solid.openSavepoint
    | releaseSavepoint => exact solid.releaseSavepoint
    | rollbackSavepoint => exact solid.rollbackSavepoint
  | rollback => exact solid.rollback
  | commit =>
    obtain ⟨q, run⟩ := faultless
    dsimp only [Request.run]
    rw [Action.final_of_ok run]
    exact (solid.commit run).1

theorem Solid.serve (solid : Solid p) {requests : List Request} (faultless : Faultless p requests) :
    Lasts p (serve p requests) := by
  induction requests generalizing p with
  | nil => exact solid.lasts
  | cons request rest ih =>
    have first := solid.request request faultless.1
    exact first.trans (ih first.solid faultless.2)

def joined (images : List Bytes) : Bytes := images.foldr (· ++ ·) .empty

theorem joined_extract (d : Bytes) (size : Nat) (n k : Nat) :
    joined ((List.range' k n).map fun i => d.extract (i * size) ((i + 1) * size)) =
      d.extract (k * size) ((k + n) * size) := by
  induction n generalizing k with
  | zero =>
    rw [Nat.add_zero, ByteArray.extract_eq_empty_iff.mpr (Nat.min_le_left _ _)]
    rfl
  | succ n ih =>
    have first : k * size ≤ (k + 1) * size := Nat.mul_le_mul_right _ (Nat.le_succ k)
    have second : (k + 1) * size ≤ (k + 1 + n) * size := Nat.mul_le_mul_right _ (Nat.le_add_right _ n)
    rw [List.range'_succ, List.map_cons]
    show d.extract (k * size) ((k + 1) * size) ++ joined _ = _
    rw [ih, ByteArray.extract_append_extract, Nat.min_eq_left first, Nat.max_eq_right second]
    congr 2
    omega

theorem bytes_eq_joined (whole : p.file.bytes.size = p.pageCount * p.pageSize)
    (images : ∀ n : Nat, n ≠ 0 → n ≤ p.pageCount → p.image n = p.fileImage n) :
    p.file.bytes = joined p.images := by
  have parts : p.images = (List.range' 0 p.pageCount).map fun i =>
      p.file.bytes.extract (i * p.pageSize) ((i + 1) * p.pageSize) := by
    unfold Pager.images
    rw [List.range_eq_range']
    refine List.map_congr_left fun i member => ?_
    have low : i + 1 ≤ p.pageCount := by
      have below := (List.mem_range'_1.mp member).2
      rw [Nat.zero_add] at below
      exact below
    have inside : (i + 1) * p.pageSize ≤ p.file.bytes.size :=
      whole ▸ Nat.mul_le_mul_right _ low
    rw [images (i + 1) (Nat.succ_ne_zero i) low]
    unfold fileImage
    rw [Nat.add_sub_cancel]
    have size := Bytes.size_extract_of_le (a := i * p.pageSize) inside
    rw [Nat.succ_mul, Nat.add_sub_cancel_left] at size
    have same := Bytes.resize_self (p.file.bytes.extract (i * p.pageSize) (i * p.pageSize + p.pageSize))
    rw [size] at same
    rw [Nat.succ_mul]
    exact same
  rw [parts, joined_extract, Nat.zero_mul, Nat.zero_add, ← whole, ByteArray.extract_zero_size]

theorem refreshCount_run (calm : p.file.refusal = none) :
    refreshCount p = .ok () { p with
      pageCount := p.file.bytes.size / p.pageSize
      startCount := p.file.bytes.size / p.pageSize } := by
  unfold refreshCount
  rw [Action.bind_of_ok (size_file_run calm)]
  rfl

def upon (file : File) (size : Nat) : Pager where
  file := file
  pageSize := size
  pageCount := file.bytes.size / size
  startCount := file.bytes.size / size

variable {file : File} {size : Nat}

theorem ofFile_run (calm : file.refusal = none) (size : Nat) : ofFile file size = .ok (upon file size) :=
  Action.applied_ok.mpr (refreshCount_run calm)

theorem refreshCount_ok (run : refreshCount p = .ok () q) :
    q.file.bytes = p.file.bytes ∧ q = { p with
      file := q.file
      pageCount := q.file.bytes.size / p.pageSize
      startCount := q.file.bytes.size / p.pageSize } := by
  unfold refreshCount at run
  obtain ⟨n, t, measured, run⟩ := Action.bind_ok.mp run
  obtain ⟨g, answered, rfl⟩ := onFile_ok.mp measured
  obtain ⟨-, rfl, bytes⟩ := File.size_ok answered
  rw [Action.modify_run] at run
  cases run
  refine ⟨bytes, ?_⟩
  dsimp only
  rw [bytes]

theorem ofFile_ok (opened : ofFile file size = .ok p) :
    p = upon p.file size ∧ p.file.bytes = file.bytes := by
  obtain ⟨bytes, same⟩ := refreshCount_ok (Action.applied_ok.mp opened)
  exact ⟨same, bytes⟩

theorem upon_solid (positive : 0 < size) (whole : size ∣ file.bytes.size)
    (fits : file.bytes.size / size ≤ 0xfffffffe) : Solid (upon file size) := by
  refine ⟨sound_of_unread rfl positive fits rfl rfl rfl rfl, ⟨?_, fun n past low => ?_, nofun⟩,
    Nat.le_refl _⟩
  · exact (Nat.div_mul_cancel whole).symm
  · exact absurd (Nat.lt_of_lt_of_le past low) (Nat.lt_irrefl _)

theorem raw_upon (file : File) (size page : Nat) :
    (upon file size).raw page = (upon file size).fileImage page := by
  unfold raw upon
  rw [Std.TreeMap.getElem?_emptyc]

/-- A pager that is put on a copy of a file of whole pages shows the pages that the file has. -/
theorem pages_upon (positive : 0 < p.pageSize) (whole : p.file.bytes.size = p.pageCount * p.pageSize)
    (base : p.base = p.pages) : (upon { bytes := p.file.bytes } p.pageSize).pages = p.pages := by
  have count : p.file.bytes.size / p.pageSize = p.startCount := by
    rw [whole, Nat.mul_div_cancel _ positive]
    exact (congrArg Pages.count base).symm
  rw [← base]
  exact cut_congr count rfl fun n _ => raw_upon _ _ n

theorem Solid.commit_joined (solid : Solid p) (run : Pager.commit p = .ok () q) :
    q.file.bytes.size = q.pageCount * q.pageSize ∧ q.file.bytes = joined q.images := by
  obtain ⟨done, pages, base⟩ := solid.commit run
  have written : q.base = q.pages := base.trans pages.symm
  have count : q.startCount = q.pageCount := congrArg Pages.count written
  have length : q.file.bytes.size = q.pageCount * q.pageSize := by
    rw [done.solid.filled.size, count]
  refine ⟨length, bytes_eq_joined length fun n _ low => ?_⟩
  rw [image_eq, ← written]
  exact if_neg (Nat.not_lt.mpr (count ▸ low))

end Pager

end TreeFile
