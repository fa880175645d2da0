import TreeFile.Proofs.Pager.Write

/-!
Pagers on files that refuse calls. A read that is refused ends a call in the middle, but what the
pager shows does not hang on it: the pages, and those of the transaction's and the savepoint's
beginning, are those of the same pager on a file that refuses nothing.
-/

namespace TreeFile

namespace File

def calm (f : File) : File := { f with refusal := none }

theorem checkCall_cases (call : FileCall) (f : File) :
    (∃ e g, checkCall call f = .error e g ∧ g.calm = f.calm) ∨
      ∃ g, checkCall call f = .ok () g ∧ g.calm = f.calm := by
  unfold checkCall
  cases f.refusal with
  | none => exact .inr ⟨f, rfl, rfl⟩
  | some r =>
    dsimp only
    split
    · exact .inr ⟨f, rfl, rfl⟩
    split
    · exact .inr ⟨_, rfl, rfl⟩
    · refine .inl ⟨_, _, rfl, ?_⟩
      split <;> rfl

theorem read_cases (n : Nat) (offset : Int) (f : File) :
    (∃ e g, read n offset f = .error e g ∧ g.calm = f.calm) ∨
      ∃ a g, read n offset f = .ok a g ∧ read n offset f.calm = .ok a g.calm := by
  unfold read
  rcases checkCall_cases .read f with ⟨e, g, refused, same⟩ | ⟨g, passed, same⟩
  · exact .inl ⟨e, g, Action.bind_of_error refused, same⟩
  · have calmed : checkCall .read f.calm = .ok () g.calm := same ▸ rfl
    rw [Action.bind_of_ok passed, Action.bind_of_ok calmed]
    cases position offset with
    | error e => exact .inl ⟨e, g, rfl, same⟩
    | ok start => exact .inr ⟨_, g, rfl, rfl⟩

end File

namespace Pager

variable {p q : Pager}

def calm (p : Pager) : Pager := { p with file := p.file.calm }

theorem calm_self (calm : p.file.refusal = none) : p.calm = p := by
  have same : p.file.calm = p.file := by
    unfold File.calm
    rw [← calm]
  unfold Pager.calm
  rw [same]

theorem Sound.calmed (sound : Sound p) : Sound p.calm :=
  ⟨rfl, sound.positive, sound.count, sound.start, sound.cached, sound.clean, sound.dirty,
    sound.journal, sound.savepoints, sound.rest⟩

theorem evict_calm (p : Pager) : p.evict.calm = p.calm.evict := by
  show _ = evict { p with file := p.file.calm }
  unfold evict
  dsimp only
  split <;> rfl

theorem evict_state (p : Pager) : p.evict.state = p.state := by
  unfold evict
  split <;> rfl

theorem load_cases (page : Nat) (p : Pager) :
    (∃ e q, load page p = .error e q ∧ q.calm = p.calm ∧ q.state = p.state) ∨
      ∃ image q, load page p = .ok image q ∧ load page p.calm = .ok image q.calm ∧
        q.state = p.state := by
  have same : p.calm.cache = p.cache := rfl
  unfold load
  rw [Action.get_bind, Action.get_bind, same]
  cases p.cache[page]? with
  | some image => exact .inr ⟨image, p, rfl, rfl, rfl⟩
  | none =>
    dsimp only
    have place : p.calm.offset page = p.offset page := rfl
    have size : p.calm.pageSize = p.pageSize := rfl
    rw [place, size]
    rcases File.read_cases p.pageSize (p.offset page) p.file with
      ⟨e, f, refused, calm⟩ | ⟨⟨present, data⟩, f, run, calmRun⟩
    · have failed : onFile (File.read p.pageSize (p.offset page)) p =
          .error e { p with file := f } := by
        unfold onFile Action.zoom
        dsimp only
        rw [refused]
      refine .inl ⟨e, { p with file := f }, Action.bind_of_error failed, ?_, rfl⟩
      show { p with file := f.calm } = { p with file := p.file.calm }
      rw [calm]
    · have first : onFile (File.read p.pageSize (p.offset page)) p =
          .ok (present, data) { p with file := f } := onFile_ok.mpr ⟨f, run, rfl⟩
      have second : onFile (File.read p.pageSize (p.offset page)) p.calm =
          .ok (present, data) { p.calm with file := f.calm } := onFile_ok.mpr ⟨f.calm, calmRun, rfl⟩
      rw [Action.bind_of_ok first, Action.bind_of_ok second]
      refine .inr ⟨{ data }, _, rfl, congrArg (EStateM.Result.ok _) ?_, ?_⟩
      · dsimp only
        by_cases some : present > 0
        · rw [if_pos some, if_pos some]
          exact congrArg (store page { data })
            (evict_calm { p with file := f, reads := p.reads + 1 }).symm
        · rw [if_neg some, if_neg some]
          exact congrArg (store page { data }) (evict_calm { p with file := f }).symm
      · refine (evict_state _).trans ?_
        split <;> rfl

theorem fetch_calm {page : Nat} {image : PageImage} (run : fetch page p = .ok image q) :
    fetch page p.calm = .ok image q.calm := by
  have rest : ∀ r : Pager, r.pageCount = p.pageCount → r.pageSize = p.pageSize →
      (do if page > p.pageCount then return .blank p.pageSize else load page :
        Action Pager PageImage) r = .ok image q →
      (do if page > p.pageCount then return .blank p.pageSize else load page :
        Action Pager PageImage) r.calm = .ok image q.calm := by
    intro r count size run
    by_cases past : page > p.pageCount
    · rw [if_pos past] at run ⊢
      cases run
      rfl
    · rw [if_neg past] at run ⊢
      rcases load_cases page r with ⟨e, t, failed, -⟩ | ⟨held, t, loaded, calmLoaded, -⟩
      · cases failed.symm.trans run
      · cases loaded.symm.trans run
        exact calmLoaded
  have bound : p.calm.maxPages = p.maxPages := rfl
  have state : p.calm.state = p.state := rfl
  unfold fetch at run ⊢
  rw [Action.get_bind] at run ⊢
  rw [bound, state]
  by_cases outside : (decide (page = 0) || decide (page > p.maxPages)) = true
  · rw [if_pos outside] at run
    exact absurd run Action.throw_bind_ok
  rw [if_neg outside] at run ⊢
  dsimp only at run ⊢
  by_cases idle : p.state = .idle
  · rw [if_pos idle, Action.modify_bind] at run ⊢
    exact rest { p with state := .reading } rfl rfl run
  · rw [if_neg idle] at run ⊢
    exact rest p rfl rfl run

theorem remember_cases (page : Nat) (p : Pager) :
    (∃ e q, remember page p = .error e q ∧ q.calm = p.calm ∧ q.state = p.state) ∨
      ∃ q, remember page p = .ok () q ∧ remember page p.calm = .ok () q.calm ∧
        q.state = p.state := by
  have journal : p.calm.journalLacks page = p.journalLacks page := rfl
  have savepoint : p.calm.savepointLacks page = p.savepointLacks page := rfl
  unfold remember
  rw [Action.get_bind, Action.get_bind, journal, savepoint]
  by_cases lacks : (p.journalLacks page || p.savepointLacks page) = true
  · rw [if_pos lacks]
    rcases load_cases page p with ⟨e, q, failed, same, state⟩ | ⟨image, q, run, calmRun, state⟩
    · exact .inl ⟨e, q, Action.bind_of_error failed, same, state⟩
    · rw [Action.bind_of_ok run, Action.bind_of_ok calmRun]
      exact .inr ⟨_, rfl, rfl, state⟩
  · rw [if_neg lacks]
    exact .inr ⟨p, rfl, rfl, rfl⟩

theorem begin_writing (writing : p.state = .writing) : begin p = .ok () p := by
  unfold begin
  rw [Action.modify_run, if_pos writing]

theorem write_calm (page : Nat) (data : Bytes) (writing : p.state = .writing) :
    (∃ e q, write page data p = .error e q ∧ q.calm = p.calm ∧ q.state = p.state) ∨
      ∃ q, write page data p = .ok () q ∧ write page data p.calm = .ok () q.calm ∧
        q.state = p.state := by
  rcases write_cases p page data with ⟨positive, bound, size⟩ | ⟨e, failed⟩
  · have entered : write page data p.calm = _ := write_entered (p := p.calm) positive bound size
    have begun := begin_writing (p := p.calm) writing
    rw [write_entered positive bound size, entered, Action.bind_of_ok (begin_writing writing),
      Action.bind_of_ok begun]
    rcases remember_cases page p with ⟨e, q, failed, same, state⟩ | ⟨q, run, calmRun, state⟩
    · exact .inl ⟨e, q, Action.bind_of_error failed, same, state⟩
    · rw [Action.bind_of_ok run, Action.bind_of_ok calmRun]
      exact .inr ⟨_, rfl, rfl, state⟩
  · exact .inl ⟨e, p, failed, rfl, rfl⟩

theorem begin_calm (p : Pager) : ∃ q, begin p = .ok () q ∧ begin p.calm = .ok () q.calm := by
  refine ⟨_, rfl, congrArg (EStateM.Result.ok _) ?_⟩
  show (if p.state = .writing then _ else _) = calm (if p.state = .writing then _ else _)
  split <;> rfl

theorem openSavepoint_calm (p : Pager) : ∃ n q, openSavepoint p = .ok n q ∧
    openSavepoint p.calm = .ok n q.calm := by
  obtain ⟨q, run, calmRun⟩ := begin_calm p
  unfold openSavepoint
  rw [Action.bind_of_ok run, Action.bind_of_ok calmRun]
  exact ⟨_, _, rfl, rfl⟩

theorem rollbackSavepoint_calm {s : Savepoint} {outer : List Savepoint}
    (opened : p.savepoints = s :: outer) :
    ∃ q, rollbackSavepoint p = .ok () q ∧ rollbackSavepoint p.calm = .ok () q.calm := by
  have openedCalm : p.calm.savepoints = s :: outer := opened
  unfold rollbackSavepoint
  rw [Action.get_bind, Action.get_bind, opened, openedCalm]
  exact ⟨_, rfl, rfl⟩

theorem releaseSavepoint_calm {s : Savepoint} {outer : List Savepoint}
    (opened : p.savepoints = s :: outer) :
    ∃ q, releaseSavepoint p = .ok () q ∧ releaseSavepoint p.calm = .ok () q.calm := by
  have openedCalm : p.calm.savepoints = s :: outer := opened
  unfold releaseSavepoint
  rw [Action.get_bind, Action.get_bind, opened, openedCalm]
  cases outer with
  | nil => exact ⟨_, rfl, rfl⟩
  | cons next rest => exact ⟨_, rfl, rfl⟩

theorem rollback_calm (p : Pager) : ∃ q, rollback p = .ok () q ∧ rollback p.calm = .ok () q.calm ∧
    q.file = p.file := by
  refine ⟨_, rfl, congrArg (EStateM.Result.ok _) ?_, ?_⟩
  · show (if p.state = .writing then _ else _) = calm (if p.state = .writing then _ else _)
    split <;> rfl
  · show (if p.state = .writing then _ else _ : Pager).file = p.file
    split <;> rfl

def Browses (p q : Pager) : Prop := Sound p.calm → Sound q.calm ∧ Similar p.calm q.calm

theorem Browses.refl (p : Pager) : Browses p p := fun sound => ⟨sound, .refl _⟩

theorem Browses.trans {r : Pager} (first : Browses p q) (second : Browses q r) : Browses p r :=
  fun sound =>
    have ⟨between, similar⟩ := first sound
    have ⟨after, similar'⟩ := second between
    ⟨after, similar.trans similar'⟩

theorem load_browses {page : Nat} (positive : page ≠ 0) : Action.Stays Browses (load page) := by
  intro p sound
  unfold Action.final Action.outcome
  rcases load_cases page p with ⟨e, q, failed, same, state⟩ | ⟨image, q, run, calmRun, state⟩
  · rw [failed]
    exact ⟨same ▸ sound, same ▸ .refl _⟩
  · obtain ⟨r, other, run', -, soundR, similar, -⟩ := load_run sound positive
    cases calmRun.symm.trans run'
    rw [run]
    exact ⟨soundR, similar⟩

theorem fetch_stays {R : Pager → Pager → Prop} (refl : ∀ p, R p p) (trans : ∀ {p q r}, R p q → R q r → R p r)
    (reading : ∀ p : Pager, p.state = .idle → R p { p with state := .reading }) {page : Nat}
    (loads : page ≠ 0 → Action.Stays R (load page)) : Action.Stays R (fetch page) := by
  intro p
  unfold fetch Action.final Action.outcome
  rw [Action.get_bind]
  by_cases outside : (decide (page = 0) || decide (page > p.maxPages)) = true
  · rw [if_pos outside]
    exact refl p
  have positive : page ≠ 0 := fun zero => outside (by rw [decide_eq_true zero]; rfl)
  have last : Action.Stays R
      (if page > p.pageCount then pure (.blank p.pageSize) else load page : Action Pager PageImage) := by
    split
    · exact .pure refl _
    · exact loads positive
  rw [if_neg outside]
  dsimp only
  by_cases idle : p.state = .idle
  · rw [if_pos idle]
    exact trans (reading p idle) (last { p with state := .reading })
  · rw [if_neg idle]
    exact last p

theorem fetch_browses (page : Nat) : Action.Stays Browses (fetch page) := by
  refine fetch_stays .refl .trans (fun p idle sound => ?_) load_browses
  have similar : Similar p.calm { p with state := .reading }.calm := by
    refine ⟨rfl, rfl, rfl, rfl, rfl, rfl, rfl, ?_, rfl⟩
    show PagerState.reading = .writing ↔ p.state = .writing
    rw [idle]
    exact ⟨nofun, nofun⟩
  exact ⟨sound.of_similar similar fun _ _ found => .inl found, similar⟩

/-- A transaction is open on a pager that is in order but for what its file refuses. -/
structure Working (p : Pager) : Prop where
  sound : Sound p.calm
  writing : p.state = .writing

def Remembers (p q : Pager) : Prop := Working p → Working q ∧ Steady p.calm q.calm

theorem Remembers.refl (p : Pager) : Remembers p p := fun working => ⟨working, .refl _⟩

theorem Remembers.trans {r : Pager} (first : Remembers p q) (second : Remembers q r) :
    Remembers p r := fun working =>
  have ⟨between, steady⟩ := first working
  have ⟨after, steady'⟩ := second between
  ⟨after, steady.trans steady'⟩

theorem Remembers.of_calm (same : q.calm = p.calm) (state : q.state = p.state) : Remembers p q :=
  fun working => ⟨⟨same ▸ working.sound, state.trans working.writing⟩, same ▸ .refl _⟩

theorem fetch_remembers (page : Nat) : Action.Stays Remembers (fetch page) := by
  intro p working
  obtain ⟨sound, similar⟩ := fetch_browses page p working.sound
  exact ⟨⟨sound, similar.writing.mpr working.writing⟩, similar.steady⟩

theorem write_remembers (page : Nat) (data : Bytes) : Action.Stays Remembers (write page data) := by
  intro p working
  unfold Action.final Action.outcome
  rcases write_calm page data working.writing with
    ⟨e, q, failed, same, state⟩ | ⟨q, run, calmRun, state⟩
  · rw [failed]
    exact Remembers.of_calm same state working
  · rcases write_cases p page data with ⟨positive, bound, size⟩ | ⟨e, failed⟩
    · obtain ⟨r, run', sound, steady, -⟩ := write_run working.sound positive bound size
      cases calmRun.symm.trans run'
      rw [run]
      exact ⟨⟨sound, state.trans working.writing⟩, steady⟩
    · cases failed.symm.trans run

theorem extend_remembers : Action.Stays Remembers extend := by
  intro p working
  unfold extend Action.final Action.outcome
  rw [Action.get_bind]
  dsimp only
  by_cases full : p.pageCount + 1 > p.maxPages
  · rw [if_pos full]
    exact Remembers.refl p working
  rw [if_neg full]
  have written := write_remembers (p.pageCount + 1) (.zeros p.pageSize) p working
  cases run : write (p.pageCount + 1) (.zeros p.pageSize) p with
  | ok a q =>
    rw [Action.final_of_ok run] at written
    rw [Action.bind_of_ok run]
    exact written
  | error e q =>
    rw [Action.final_of_error run] at written
    rw [Action.bind_of_error run]
    exact written

theorem truncate_remembers (count : Nat) : Action.Stays Remembers (truncate count) := by
  intro p working
  obtain ⟨r, run, sound, steady, -⟩ := truncate_run working.sound working.writing count
  have calmed : (Action.final (truncate count) p).calm = r := by
    cases run
    show calm (if count < p.pageCount then _ else _) = if count < p.pageCount then _ else _
    split <;> rfl
  have state : (Action.final (truncate count) p).state = p.state := by
    show (if count < p.pageCount then _ else _ : Pager).state = _
    split <;> rfl
  exact ⟨⟨calmed ▸ sound, state.trans working.writing⟩, calmed ▸ steady⟩

theorem openSavepoint_works (sound : p.calm.Sound) : ∃ q n, openSavepoint p = .ok n q ∧ Working q ∧
    q.base = p.base ∧ q.saved = some p.pages ∧ q.savepoints.tail = p.savepoints ∧
    q.calm.file = p.calm.file ∧ q.pageSize = p.pageSize ∧ q.maxPages = p.maxPages := by
  obtain ⟨n, q, run, calmRun⟩ := openSavepoint_calm p
  obtain ⟨r, m, run', soundQ, writing, -, base, saved, outer, file, size, max⟩ :=
    openSavepoint_run sound
  cases calmRun.symm.trans run'
  exact ⟨q, n, run, ⟨soundQ, writing⟩, base, saved, outer, file, size, max⟩

theorem releaseSavepoint_works (working : Working p) {inner : Savepoint} {stack : List Savepoint}
    (opened : p.savepoints = inner :: stack) : ∃ q, releaseSavepoint p = .ok () q ∧ Working q ∧
    q.pages = p.pages ∧ Closes p.calm q.calm inner stack := by
  obtain ⟨q, run, calmRun⟩ := releaseSavepoint_calm opened
  obtain ⟨r, run', soundQ, state, pages, closes⟩ := releaseSavepoint_run working.sound opened
  cases calmRun.symm.trans run'
  exact ⟨q, run, ⟨soundQ, state.trans working.writing⟩, pages, closes⟩

theorem rollbackSavepoint_works (working : Working p) {inner : Savepoint} {stack : List Savepoint}
    (opened : p.savepoints = inner :: stack) : ∃ q, rollbackSavepoint p = .ok () q ∧ Working q ∧
    p.saved = some q.pages ∧ Closes p.calm q.calm inner stack := by
  obtain ⟨q, run, calmRun⟩ := rollbackSavepoint_calm opened
  obtain ⟨r, run', soundQ, state, saved, closes⟩ := rollbackSavepoint_run working.sound opened
  cases calmRun.symm.trans run'
  exact ⟨q, run, ⟨soundQ, state.trans working.writing⟩, saved, closes⟩

end Pager

end TreeFile
