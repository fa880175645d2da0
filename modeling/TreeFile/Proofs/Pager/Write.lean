import TreeFile.Proofs.Pager.Versions

/-!
Writing pages through the pager. A page gets a new image, and what the file held when the
transaction began and when the savepoint was opened is not forgotten.
-/

namespace TreeFile

def Pages.put (v : Pages) (page : Nat) (data : Bytes) : Pages where
  count := max v.count page
  image := fun n => if n = page then data else v.image n

def Pages.truncate (v : Pages) (count pageSize : Nat) : Pages :=
  if count < v.count then Pager.cut count pageSize v.image else v

namespace Pager

variable {p q : Pager}

theorem begin_run (sound : Sound p) : ∃ q, begin p = .ok () q ∧ Sound q ∧ q.state = .writing ∧
    q.pages = p.pages ∧ q.pageCount = p.pageCount ∧ Steady p q := by
  refine ⟨_, rfl, ?_⟩
  dsimp only
  by_cases writing : p.state = .writing
  · rw [if_pos writing]
    exact ⟨sound, writing, rfl, rfl, .refl p⟩
  · obtain ⟨count, none⟩ := sound.rest writing
    rw [if_neg writing]
    refine ⟨⟨sound.calm, sound.positive, sound.count, ?_, sound.cached, sound.clean, ?_, nofun, ?_,
      fun idle => absurd rfl idle⟩, rfl, rfl, rfl, ⟨rfl, rfl, rfl, ?_, rfl, rfl⟩⟩
    · exact sound.count
    · intro page image found dirty
      exact absurd (sound.dirty page image found dirty).1 writing
    · intro s member
      dsimp only at member
      rw [none] at member
      cases member
    · unfold base
      dsimp only
      rw [count]
      rfl

theorem raw_of_journalLacks (sound : Sound p) {page : Nat} (old : page ≤ p.startCount)
    (lacks : p.journal[page]? = none) : p.raw page = p.fileImage page := by
  unfold raw
  cases found : p.cache[page]? with
  | none => rfl
  | some image =>
    cases dirty : image.dirty with
    | false => exact sound.clean page image found dirty
    | true =>
      obtain ⟨data, held⟩ := PageMap.mem_iff.mp ((sound.dirty page image found dirty).2 old)
      rw [lacks] at held
      cases held

structure Remembered (p : Pager) (page : Nat) : Prop where
  journal : page ≤ p.startCount → page ∈ p.journal
  undo : ∀ s, p.savepoints.head? = some s → page ≤ s.pageCount → ∃ data, s.undo[page]? = some data

theorem remember_undo (s : Savepoint) (page n : Nat) (image : Bytes) :
    (s.remember page image).pageCount = s.pageCount ∧
      (s.remember page image).undo[n]? =
        if page = n ∧ n ≤ s.pageCount ∧ s.undo[n]? = none then some image else s.undo[n]? := by
  unfold Savepoint.remember
  by_cases low : page ≤ s.pageCount
  · rw [if_pos low]
    refine ⟨rfl, ?_⟩
    dsimp only
    rw [PageMap.get_insertIfNew]
    by_cases same : page = n
    · subst same
      simp only [low, true_and]
    · rw [if_neg fun both => same both.1, if_neg fun both => same both.1]
  · rw [if_neg low]
    refine ⟨rfl, ?_⟩
    rw [if_neg]
    rintro ⟨rfl, bound, -⟩
    exact low bound

/-- The pager once it has noted the old image of a page. -/
def noted (p : Pager) (page : PageNo) : Pager := { p with
  journal := if page ≤ p.startCount then p.journal.insertIfNew page (p.raw page) else p.journal
  savepoints :=
    match p.savepoints with
    | [] => []
    | s :: outer => s.remember page (p.raw page) :: outer }

theorem journal_noted (p : Pager) (page n : Nat) : (p.noted page).journal[n]? =
    if page = n ∧ n ≤ p.startCount ∧ p.journal[n]? = none then some (p.raw n) else p.journal[n]? := by
  change (if page ≤ p.startCount then _ else _ : PageMap Bytes)[n]? = _
  by_cases low : page ≤ p.startCount
  · rw [if_pos low, PageMap.get_insertIfNew]
    by_cases same : page = n
    · subst same
      simp only [low, true_and]
    · rw [if_neg fun both => same both.1, if_neg fun both => same both.1]
  · rw [if_neg low, if_neg]
    rintro ⟨rfl, bound, -⟩
    exact low bound

theorem journaled_noted {page n : Nat} (member : n ∈ p.journal) : n ∈ (p.noted page).journal := by
  obtain ⟨data, found⟩ := PageMap.mem_iff.mp member
  refine PageMap.mem_iff.mpr ⟨data, ?_⟩
  rw [journal_noted, if_neg, found]
  rintro ⟨-, -, none⟩
  rw [found] at none
  cases none

theorem noted_journaled {page : Nat} (low : page ≤ p.startCount) : page ∈ (p.noted page).journal := by
  cases held : p.journal[page]? with
  | some data => exact journaled_noted (PageMap.mem_iff.mpr ⟨data, held⟩)
  | none =>
    refine PageMap.mem_iff.mpr ⟨p.raw page, ?_⟩
    rw [journal_noted, if_pos ⟨rfl, low, held⟩]

theorem mem_savepoints_noted {page : Nat} {s : Savepoint} (member : s ∈ (p.noted page).savepoints) :
    s ∈ p.savepoints ∨ ∃ inner ∈ p.savepoints, s = inner.remember page (p.raw page) := by
  unfold noted at member
  cases open_ : p.savepoints with
  | nil =>
    rw [open_] at member
    cases member
  | cons inner outer =>
    rw [open_] at member
    rcases List.mem_cons.mp member with rfl | old
    · exact .inr ⟨inner, List.mem_cons_self, rfl⟩
    · exact .inl (List.mem_cons_of_mem _ old)

theorem noted_sound (sound : Sound p) (writing : p.state = .writing) {page : Nat} (positive : page ≠ 0) :
    Sound (p.noted page) := by
  refine ⟨sound.calm, sound.positive, sound.count, sound.start, sound.cached, sound.clean, ?_, ?_, ?_,
    fun idle => absurd writing idle⟩
  · intro n image found dirty
    obtain ⟨state, held⟩ := sound.dirty n image found dirty
    exact ⟨state, fun low => journaled_noted (held low)⟩
  · intro n data found
    rw [journal_noted] at found
    split at found
    · rename_i all
      obtain ⟨rfl, low, none⟩ := all
      cases found
      exact ⟨positive, low, raw_of_journalLacks sound low none⟩
    · exact sound.journal n data found
  · intro s member
    rcases mem_savepoints_noted member with old | ⟨inner, among, rfl⟩
    · obtain ⟨bound, undo⟩ := sound.savepoints s old
      refine ⟨bound, fun n data found => ?_⟩
      obtain ⟨nonzero, low, size, held⟩ := undo n data found
      exact ⟨nonzero, low, size, fun bound => journaled_noted (held bound)⟩
    · obtain ⟨bound, undo⟩ := sound.savepoints inner among
      rw [(remember_undo inner page 0 _).1]
      refine ⟨bound, fun n data found => ?_⟩
      rw [(remember_undo inner page n _).2] at found
      split at found
      · rename_i all
        obtain ⟨rfl, low, none⟩ := all
        cases found
        exact ⟨positive, low, size_raw sound page, noted_journaled (p := p)⟩
      · obtain ⟨nonzero, low, size, held⟩ := undo n data found
        exact ⟨nonzero, low, size, fun bound => journaled_noted (held bound)⟩

theorem noted_remembered (p : Pager) (page : Nat) : Remembered (p.noted page) page := by
  refine ⟨noted_journaled (p := p), fun s head low => ?_⟩
  unfold noted at head
  cases open_ : p.savepoints with
  | nil =>
    rw [open_] at head
    cases head
  | cons inner outer =>
    rw [open_] at head
    cases head
    rw [(remember_undo inner page 0 _).1] at low
    rw [(remember_undo inner page page _).2]
    cases held : inner.undo[page]? with
    | some data =>
      rw [if_neg (by simp)]
      exact ⟨data, rfl⟩
    | none =>
      rw [if_pos ⟨rfl, low, rfl⟩]
      exact ⟨_, rfl⟩

theorem noted_steady (p : Pager) (page : Nat) : Steady p (p.noted page) := by
  refine ⟨rfl, rfl, rfl, rfl, ?_, ?_⟩
  · unfold saved
    rw [show (p.noted page).raw = p.raw from rfl]
    unfold noted
    cases open_ : p.savepoints with
    | nil => rfl
    | cons inner outer =>
      dsimp only [List.head?_cons, Option.map_some]
      rw [(remember_undo inner page 0 _).1]
      congr 2
      refine funext fun (n : Nat) => ?_
      rw [(remember_undo inner page n _).2]
      split
      · rename_i all
        obtain ⟨rfl, low, none⟩ := all
        rw [none]
        rfl
      · rfl
  · unfold noted
    cases p.savepoints <;> rfl

theorem remember_run (sound : Sound p) (writing : p.state = .writing) {page : Nat}
    (positive : page ≠ 0) :
    ∃ q, remember page p = .ok () q ∧ Sound q ∧ q.state = .writing ∧ Remembered q page ∧
      q.raw = p.raw ∧ q.pageCount = p.pageCount ∧ Steady p q := by
  unfold remember
  rw [Action.get_bind]
  by_cases lacks : (p.journalLacks page || p.savepointLacks page) = true
  · rw [if_pos lacks]
    obtain ⟨r, image, loaded, data, soundR, similar, state⟩ := load_run sound positive
    rw [Action.bind_of_ok loaded]
    have writingR : r.state = .writing := state.trans writing
    refine ⟨_, rfl, ?_⟩
    rw [data, ← similar.raw]
    exact ⟨noted_sound soundR writingR positive, writingR, r.noted_remembered page, rfl, similar.pageCount,
      similar.steady.trans (r.noted_steady page)⟩
  · rw [if_neg lacks]
    refine ⟨p, rfl, sound, writing, ⟨?_, ?_⟩, rfl, rfl, .refl p⟩
    all_goals
      simp only [journalLacks, savepointLacks, Bool.or_eq_true, not_or, Bool.and_eq_true,
        decide_eq_true_eq, Bool.not_eq_true', not_and, Bool.not_eq_false] at lacks
    · intro low
      exact Std.TreeMap.contains_iff_mem.mp (lacks.1 low)
    · intro s head low
      cases open_ : p.savepoints with
      | nil =>
        rw [open_] at head
        cases head
      | cons inner outer =>
        rw [open_] at head lacks
        cases head
        simp only [Bool.and_eq_true, decide_eq_true_eq, Bool.not_eq_true', not_and,
          Bool.not_eq_false] at lacks
        exact PageMap.contains_iff.mp (lacks.2 low)

theorem write_entered {page : Nat} {data : Bytes} (positive : page ≠ 0) (bound : page ≤ p.maxPages)
    (size : data.size = p.pageSize) :
    write page data p = (do
      begin
      remember page
      modify fun p =>
        store page { data, dirty := true } { p with pageCount := max p.pageCount page } :
          Action Pager Unit) p := by
  unfold write
  rw [Action.get_bind, if_neg (inside_of_bounds positive bound)]
  dsimp only
  rw [if_neg (fun different => different size)]

theorem write_run (sound : Sound p) {page : Nat} {data : Bytes} (positive : page ≠ 0)
    (bound : page ≤ p.maxPages) (size : data.size = p.pageSize) :
    ∃ q, write page data p = .ok () q ∧ Sound q ∧ Steady p q ∧
      (page ≤ p.pageCount + 1 → q.pages = p.pages.put page data) := by
  obtain ⟨r, begun, soundR, writingR, pagesR, countR, steadyR⟩ := begin_run sound
  obtain ⟨t, remembered, soundT, writingT, kept, rawT, countT, steadyT⟩ :=
    remember_run soundR writingR positive
  rw [write_entered positive bound size, Action.bind_of_ok begun, Action.bind_of_ok remembered]
  have steady := steadyR.trans steadyT
  have sizeT : data.size = t.pageSize := size.trans steady.pageSize.symm
  have raw : ∀ n, raw (store page { data, dirty := true } { t with pageCount := max t.pageCount page }) n =
      if n = page then data else t.raw n := by
    intro n
    unfold Pager.raw store
    dsimp only
    rw [PageMap.get_insert]
    by_cases same : page = n
    · rw [if_pos same, if_pos same.symm]
    · rw [if_neg same, if_neg fun other => same other.symm]
      rfl
  refine ⟨_, rfl, ⟨soundT.calm, soundT.positive, ?_, soundT.start, ?_, ?_, ?_, soundT.journal,
    soundT.savepoints, ?_⟩, steady.trans ⟨rfl, rfl, rfl, rfl, ?_, rfl⟩, ?_⟩
  · refine Nat.max_le.mpr ⟨soundT.count, ?_⟩
    exact steady.maxPages ▸ bound
  · intro n image found
    dsimp only [store] at found
    rw [PageMap.get_insert] at found
    split at found
    · rename_i same
      cases found
      exact ⟨same ▸ positive, sizeT⟩
    · exact soundT.cached n image found
  · intro n image found clean
    dsimp only [store] at found
    rw [PageMap.get_insert] at found
    split at found
    · cases found
      cases clean
    · exact soundT.clean n image found clean
  · intro n image found dirty
    dsimp only [store] at found
    rw [PageMap.get_insert] at found
    split at found
    · rename_i same
      exact ⟨writingT, fun low => same ▸ kept.journal (same ▸ low)⟩
    · exact soundT.dirty n image found dirty
  · intro idle
    exact absurd writingT idle
  · unfold saved
    dsimp only [store]
    refine Option.map_congr fun inner head => ?_
    unfold cut
    congr 1
    refine funext fun (n : Nat) => ?_
    by_cases past : n > inner.pageCount
    · rw [if_pos past, if_pos past]
    · rw [if_neg past, if_neg past]
      have stored := raw n
      dsimp only [store] at stored
      dsimp only
      rw [stored]
      by_cases same : n = page
      · obtain ⟨held, found⟩ := kept.undo inner head (same ▸ Nat.le_of_not_lt past)
        rw [same, found]
        rfl
      · rw [if_neg same]
  · intro near
    have old : ∀ n, p.pages.image n = if n > p.pageCount then .zeros p.pageSize else t.raw n := by
      intro n
      rw [← pagesR, rawT]
      have same : r.pages.image n = if n > r.pageCount then .zeros r.pageSize else r.raw n := rfl
      rw [same, countR, steadyR.pageSize]
    have count : max t.pageCount page = max p.pageCount page := by rw [countT, countR]
    unfold Pages.put Pager.pages cut
    dsimp only
    congr 1
    refine funext fun (n : Nat) => ?_
    rw [raw, steady.pageSize]
    change (if n > max t.pageCount page then Bytes.zeros p.pageSize else
      if n = page then data else t.raw n) = if n = page then data else p.pages.image n
    rw [count, old n]
    by_cases same : n = page
    · rw [if_neg (same ▸ Nat.not_lt.mpr (Nat.le_max_right _ _)), if_pos same, if_pos same]
    · rw [if_neg same, if_neg same]
      by_cases past : n > p.pageCount
      · rw [if_pos past, if_pos (by omega)]
      · have within : ¬ n > max p.pageCount page :=
          Nat.not_lt.mpr (Nat.le_trans (Nat.le_of_not_lt past) (Nat.le_max_left _ _))
        rw [if_neg past, if_neg within]

theorem write_cases (p : Pager) (page : Nat) (data : Bytes) :
    (page ≠ 0 ∧ page ≤ p.maxPages ∧ data.size = p.pageSize) ∨ ∃ e, write page data p = .error e p := by
  unfold write
  rw [Action.get_bind]
  by_cases outside : (decide (page = 0) || decide (page > p.maxPages)) = true
  · rw [if_pos outside]
    exact .inr ⟨_, rfl⟩
  · rw [if_neg outside]
    dsimp only
    by_cases size : data.size = p.pageSize
    · simp only [Bool.or_eq_true, decide_eq_true_eq, not_or] at outside
      exact .inl ⟨outside.1, Nat.le_of_not_lt outside.2, size⟩
    · rw [if_pos size]
      exact .inr ⟨_, rfl⟩

theorem remember_count {page : Nat} (run : remember page p = .ok () q) :
    q.pageCount = p.pageCount := by
  unfold remember at run
  rw [Action.get_bind] at run
  split at run
  · obtain ⟨image, r, loaded, run⟩ := Action.bind_ok.mp run
    rw [Action.modify_run] at run
    cases run
    exact (load_holds loaded).1
  · cases run
    rfl

theorem write_count {page : Nat} {data : Bytes} (run : write page data p = .ok () q) :
    q.pageCount = max p.pageCount page := by
  rcases write_cases p page data with ⟨positive, bound, size⟩ | ⟨e, failed⟩
  · rw [write_entered positive bound size] at run
    obtain ⟨_, r, begun, run⟩ := Action.bind_ok.mp run
    obtain ⟨_, t, remembered, run⟩ := Action.bind_ok.mp run
    have count : r.pageCount = p.pageCount := by
      cases begun
      show (if p.state = .writing then _ else _ : Pager).pageCount = _
      split <;> rfl
    cases run
    show max t.pageCount page = _
    rw [remember_count remembered, count]
  · cases failed.symm.trans run

theorem write_bound {page : Nat} {data : Bytes} (run : write page data p = .ok () q) : page ≤ p.maxPages := by
  rcases write_cases p page data with ⟨-, bound, -⟩ | ⟨e, failed⟩
  · exact bound
  · cases failed.symm.trans run

theorem extend_iff_write {page : Nat} : extend p = .ok page q ↔
    page = p.pageCount + 1 ∧ write page (.zeros p.pageSize) p = .ok () q := by
  unfold extend
  rw [Action.get_bind]
  dsimp only
  constructor
  · intro run
    split at run
    · exact absurd run Action.throw_bind_ok
    · obtain ⟨_, r, written, run⟩ := Action.bind_ok.mp run
      obtain ⟨rfl, rfl⟩ := Action.pure_ok.mp run
      exact ⟨rfl, written⟩
  · rintro ⟨rfl, written⟩
    rw [if_neg (Nat.not_lt.mpr (write_bound written)), Action.bind_of_ok written]
    rfl

theorem extend_count {page : Nat} (run : extend p = .ok page q) :
    page = p.pageCount + 1 ∧ q.pageCount = page := by
  obtain ⟨rfl, written⟩ := extend_iff_write.mp run
  refine ⟨rfl, (write_count written).trans ?_⟩
  exact Nat.max_eq_right (Nat.le_succ _)

theorem extend_ok (sound : Sound p) {page : Nat} (run : extend p = .ok page q) :
    page = p.pageCount + 1 ∧ page ≤ p.maxPages ∧ Sound q ∧ Steady p q ∧ q.pages.count = page ∧
      q.pages.image = p.pages.image := by
  obtain ⟨rfl, written⟩ := extend_iff_write.mp run
  have room := write_bound written
  obtain ⟨r, again, soundR, steady, pages⟩ := write_run sound (Nat.succ_ne_zero p.pageCount) room
    (Bytes.size_zeros p.pageSize)
  cases written.symm.trans again
  rw [pages (Nat.le_refl _)]
  refine ⟨rfl, room, soundR, steady, ?_, ?_⟩
  · exact Nat.max_eq_right (Nat.le_succ _)
  · refine funext fun (n : Nat) => ?_
    show (if n = p.pageCount + 1 then _ else _ : Bytes) = if n > p.pageCount then _ else _
    by_cases new : n = p.pageCount + 1
    · rw [if_pos new, if_pos (by omega)]
    · rw [if_neg new]
      rfl

theorem truncate_run (sound : Sound p) (writing : p.state = .writing) (count : Nat) :
    ∃ q, truncate count p = .ok () q ∧ Sound q ∧ Steady p q ∧
      q.pages = p.pages.truncate count p.pageSize := by
  refine ⟨_, rfl, ?_⟩
  unfold Pages.truncate
  dsimp only
  have same : p.pages.count = p.pageCount := rfl
  rw [same]
  by_cases shorter : count < p.pageCount
  · rw [if_pos shorter, if_pos shorter]
    refine ⟨⟨sound.calm, sound.positive, ?_, sound.start, sound.cached, sound.clean, sound.dirty,
      sound.journal, sound.savepoints, fun idle => absurd writing idle⟩, ⟨rfl, rfl, rfl, rfl, rfl, rfl⟩, ?_⟩
    · exact Nat.le_trans (Nat.le_of_lt shorter) sound.count
    · unfold pages cut
      dsimp only
      congr 1
      refine funext fun (n : Nat) => ?_
      have raw : raw { p with pageCount := count } = p.raw := rfl
      rw [raw]
      by_cases past : n > count
      · rw [if_pos past, if_pos past]
      · have within := Nat.le_trans (Nat.le_of_not_lt past) (Nat.le_of_lt shorter)
        rw [if_neg past, if_neg past, if_neg (Nat.not_lt.mpr within)]
  · rw [if_neg shorter, if_neg shorter]
    exact ⟨sound, .refl p, rfl⟩

theorem begin_savepoints (run : begin p = .ok () q) : q.savepoints = p.savepoints := by
  unfold begin at run
  rw [Action.modify_run] at run
  cases run
  split <;> rfl

theorem Sound.writing_of_savepoint (sound : Sound p) {inner : Savepoint} {stack : List Savepoint}
    (opened : p.savepoints = inner :: stack) : p.state = .writing := by
  refine Decidable.byContradiction fun idle => ?_
  have closed := (sound.rest idle).2
  rw [opened] at closed
  cases closed

theorem openSavepoint_run (sound : Sound p) :
    ∃ q n, openSavepoint p = .ok n q ∧ Sound q ∧ q.state = .writing ∧ q.pages = p.pages ∧
      q.base = p.base ∧ q.saved = some p.pages ∧ q.savepoints.tail = p.savepoints ∧
      q.file = p.file ∧ q.pageSize = p.pageSize ∧ q.maxPages = p.maxPages := by
  obtain ⟨r, begun, soundR, writingR, pagesR, countR, steadyR⟩ := begin_run sound
  unfold openSavepoint
  rw [Action.bind_of_ok begun, Action.modify_bind, Action.get_bind]
  refine ⟨_, _, rfl, ⟨soundR.calm, soundR.positive, soundR.count, soundR.start, soundR.cached,
    soundR.clean, soundR.dirty, soundR.journal, ?_, fun idle => absurd writingR idle⟩, writingR,
    pagesR, steadyR.base, ?_, begin_savepoints begun, steadyR.file, steadyR.pageSize,
    steadyR.maxPages⟩
  · intro s member
    rcases List.mem_cons.mp member with rfl | old
    · refine ⟨soundR.count, fun page data found => ?_⟩
      rw [Std.TreeMap.getElem?_emptyc] at found
      cases found
    · exact soundR.savepoints s old
  · rw [← pagesR]
    unfold saved pages
    dsimp only [List.head?_cons, Option.map_some]
    unfold cut
    congr 2

theorem absorb_undo (outer inner : Savepoint) (n : Nat) :
    (outer.absorb inner).pageCount = outer.pageCount ∧
      (outer.absorb inner).undo[n]? =
        outer.undo[n]?.or (if n ≤ outer.pageCount then inner.undo[n]? else none) := by
  have all : ∀ (entries : List (PageNo × Bytes)) (s : Savepoint),
      (entries.foldl (fun s entry => s.remember entry.1 entry.2) s).pageCount = s.pageCount ∧
        (entries.foldl (fun s entry => s.remember entry.1 entry.2) s).undo[n]? =
          s.undo[n]?.or (if n ≤ s.pageCount then
            (entries.find? fun entry => entry.1 == n).map Prod.snd else none) := by
    intro entries
    induction entries with
    | nil => exact fun s => ⟨rfl, by simp only [List.find?_nil, Option.map_none, ite_self,
        Option.or_none, List.foldl_nil]⟩
    | cons entry rest ih =>
      intro s
      obtain ⟨count, undo⟩ := ih (s.remember entry.1 entry.2)
      obtain ⟨kept, first⟩ := remember_undo s entry.1 n entry.2
      rw [List.foldl_cons, List.find?_cons]
      refine ⟨count.trans kept, undo.trans ?_⟩
      rw [first, kept]
      by_cases same : entry.1 = n
      · rw [beq_iff_eq.mpr same]
        by_cases low : n ≤ s.pageCount
        · cases held : s.undo[n]? with
          | none => simp only [same, low, and_self, if_true, Option.some_or, Option.none_or, Option.map_some]
          | some data => simp only [reduceCtorEq, and_false, if_false, Option.some_or]
        · simp only [low, false_and, and_false, if_false]
      · rw [beq_eq_false_iff_ne.mpr same]
        simp only [same, false_and, if_false]
  obtain ⟨count, undo⟩ := all inner.undo.toList outer
  unfold Savepoint.absorb
  rw [Std.TreeMap.foldl_eq_foldl_toList]
  refine ⟨count, undo.trans ?_⟩
  rw [PageMap.find?_toList]
  cases inner.undo[n]? <;> rfl

def restored (s : Savepoint) (image : PageNo → Bytes) : PageNo → Bytes :=
  fun page => (s.undo[page]?).getD (image page)

/-- The innermost savepoint is closed. The one around it goes back to what it would have gone back
to after the innermost one had. -/
structure Closes (p q : Pager) (inner : Savepoint) (stack : List Savepoint) : Prop where
  file : q.file = p.file
  pageSize : q.pageSize = p.pageSize
  maxPages : q.maxPages = p.maxPages
  base : q.base = p.base
  saved : q.saved = stack.head?.map fun s =>
    cut s.pageCount p.pageSize (restored s (restored inner p.raw))
  outer : q.savepoints.tail = stack.tail

theorem Closes.closed {inner : Savepoint} (closes : Closes p q inner []) : q.savepoints = [] :=
  saved_eq_none.mp closes.saved

theorem releaseSavepoint_run (sound : Sound p) {inner : Savepoint} {stack : List Savepoint}
    (opened : p.savepoints = inner :: stack) :
    ∃ q, releaseSavepoint p = .ok () q ∧ Sound q ∧ q.state = p.state ∧ q.pages = p.pages ∧
      Closes p q inner stack := by
  have writing := sound.writing_of_savepoint opened
  have valid := sound.savepoints
  rw [opened] at valid
  unfold releaseSavepoint
  rw [Action.get_bind, opened]
  cases stack with
  | nil =>
    exact ⟨_, rfl, ⟨sound.calm, sound.positive, sound.count, sound.start, sound.cached, sound.clean,
      sound.dirty, sound.journal, nofun, fun idle => absurd writing idle⟩, rfl, rfl,
      rfl, rfl, rfl, rfl, rfl, rfl⟩
  | cons outer rest =>
    refine ⟨_, rfl, ⟨sound.calm, sound.positive, sound.count, sound.start, sound.cached, sound.clean,
      sound.dirty, sound.journal, ?_, fun idle => absurd writing idle⟩, rfl, rfl,
      rfl, rfl, rfl, rfl, ?_, rfl⟩
    · intro s member
      rcases List.mem_cons.mp member with rfl | old
      · obtain ⟨bound, undo⟩ := valid outer (List.mem_cons_of_mem _ List.mem_cons_self)
        rw [(absorb_undo outer inner 0).1]
        refine ⟨bound, fun page data found => ?_⟩
        rw [(absorb_undo outer inner page).2] at found
        cases held : outer.undo[page]? with
        | some kept =>
          rw [held] at found
          cases found
          exact undo page data held
        | none =>
          rw [held, Option.none_or] at found
          by_cases low : page ≤ outer.pageCount
          · rw [if_pos low] at found
            obtain ⟨positive, -, size, journaled⟩ := (valid inner List.mem_cons_self).2 page data found
            exact ⟨positive, low, size, journaled⟩
          · rw [if_neg low] at found
            cases found
      · exact valid s (List.mem_cons_of_mem _ (List.mem_cons_of_mem _ old))
    · unfold saved
      dsimp only [List.head?_cons, Option.map_some]
      refine congrArg some (cut_congr (absorb_undo outer inner 0).1 rfl fun n low => ?_)
      rw [(absorb_undo outer inner 0).1] at low
      rw [(absorb_undo outer inner n).2, if_pos low]
      unfold restored
      cases outer.undo[n]? with
      | some data => rfl
      | none => rfl

theorem rollbackSavepoint_run (sound : Sound p) {inner : Savepoint} {stack : List Savepoint}
    (opened : p.savepoints = inner :: stack) :
    ∃ q, rollbackSavepoint p = .ok () q ∧ Sound q ∧ q.state = p.state ∧ p.saved = some q.pages ∧
      Closes p q inner stack := by
  have writing := sound.writing_of_savepoint opened
  have valid := sound.savepoints
  rw [opened] at valid
  obtain ⟨bound, undo⟩ := valid inner List.mem_cons_self
  unfold rollbackSavepoint
  rw [Action.get_bind, opened]
  have cache : ∀ n : Nat, (inner.undo.foldl (fun cache page data =>
      cache.insert page { data, dirty := true }) p.cache)[n]? =
        (inner.undo[n]?.map fun data => { data, dirty := true }).or p.cache[n]? := fun n =>
    PageMap.get_foldl_insert inner.undo (fun data => { data, dirty := true }) p.cache n
  have raw : raw { p with
      savepoints := stack
      cache := inner.undo.foldl
        (fun cache page data => cache.insert page { data, dirty := true }) p.cache
      pageCount := inner.pageCount } = restored inner p.raw := by
    refine funext fun (n : Nat) => ?_
    unfold Pager.raw restored
    dsimp only
    rw [cache]
    cases inner.undo[n]? with
    | some data => rfl
    | none => rfl
  refine ⟨_, rfl, ⟨sound.calm, sound.positive, bound, sound.start, ?_, ?_, ?_, sound.journal, ?_,
    fun idle => absurd writing idle⟩, rfl, ?_, rfl, rfl, rfl, rfl, ?_, rfl⟩
  · intro n image found
    dsimp only at found
    rw [cache] at found
    cases old : inner.undo[n]? with
    | some data =>
      rw [old] at found
      cases found
      obtain ⟨positive, -, size, -⟩ := undo n data old
      exact ⟨positive, size⟩
    | none =>
      rw [old] at found
      exact sound.cached n image found
  · intro n image found clean
    dsimp only at found
    rw [cache] at found
    cases old : inner.undo[n]? with
    | some data =>
      rw [old] at found
      cases found
      cases clean
    | none =>
      rw [old] at found
      exact sound.clean n image found clean
  · intro n image found dirty
    dsimp only at found
    rw [cache] at found
    cases old : inner.undo[n]? with
    | some data =>
      obtain ⟨-, -, -, journaled⟩ := undo n data old
      exact ⟨writing, journaled⟩
    | none =>
      rw [old] at found
      exact sound.dirty n image found dirty
  · exact fun s member => valid s (List.mem_cons_of_mem _ member)
  · unfold saved pages
    rw [raw, opened]
    rfl
  · unfold saved
    rw [raw]
    rfl

end Pager

end TreeFile
