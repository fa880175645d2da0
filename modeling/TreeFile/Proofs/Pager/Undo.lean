import TreeFile.Proofs.Pager.Commit
import TreeFile.Proofs.Pager.Faults

/-!
Taking back what was done to pages. Whatever calls came in between, and whichever of them failed,
a rollback brings back the pages from when the transaction began, and the rollback of a savepoint
those from when it was opened.
-/

namespace TreeFile

namespace Pager

variable {p q r s : Pager}

structure Agrees (p q : Pager) : Prop where
  pageCount : q.pageCount = p.pageCount
  images : q.images = p.images
  answers : ∀ {page image r}, fetch page q = .ok image r → image.data = p.image page
  fetched : ∀ {page : Nat}, page ≠ 0 → page ≤ p.pageCount →
    ∃ image r, fetch page q.calm = .ok image r ∧ image.data = p.image page

theorem fetch_shows (sound : p.calm.Sound) {page : Nat} {image : PageImage}
    (run : fetch page p = .ok image q) : image.data = p.image page := by
  have calmRun := fetch_calm run
  by_cases outside : (decide (page = 0) || decide (page > p.maxPages)) = true
  · unfold fetch at run
    rw [Action.get_bind, if_pos outside] at run
    exact absurd run Action.throw_bind_ok
  · simp only [Bool.or_eq_true, decide_eq_true_eq] at outside
    have positive : page ≠ 0 := by omega
    have bound : page ≤ p.maxPages := by omega
    obtain ⟨r, other, run', data, -⟩ := fetch_run sound positive bound
    cases calmRun.symm.trans run'
    exact data

theorem agrees_of_pages (sound : q.calm.Sound) (same : q.pages = p.pages) : Agrees p q where
  pageCount := (images_of_pages same).1
  images := (images_of_pages same).2
  answers := by
    intro page image r run
    rw [fetch_shows sound run, image_eq, image_eq, same]
  fetched := by
    intro page positive low
    have count : q.calm.pageCount = p.pageCount := (images_of_pages same).1
    obtain ⟨r, image, run, data, -⟩ := fetch_run sound positive
      (Nat.le_trans low (count ▸ sound.count))
    refine ⟨image, r, run, data.trans ?_⟩
    rw [image_eq, ← same]
    rfl

inductive Access where
  | fetch (page : PageNo)
  | write (page : PageNo) (data : Bytes)
  | extend
  | truncate (count : Nat)

def Access.run : Access → Pager → Pager
  | fetch page => (Pager.fetch page).final
  | write page data => (Pager.write page data).final
  | extend => Pager.extend.final
  | truncate count => (Pager.truncate count).final

theorem Access.run_remembers (access : Access) (p : Pager) : Remembers p (access.run p) := by
  cases access with
  | fetch page => exact fetch_remembers page p
  | write page data => exact write_remembers page data p
  | extend => exact extend_remembers p
  | truncate count => exact truncate_remembers count p

inductive Call where
  | access (access : Access)
  | openSavepoint
  | releaseSavepoint
  | rollbackSavepoint

def Call.run : Call → Pager → Pager
  | access a => a.run
  | openSavepoint => Pager.openSavepoint.final
  | releaseSavepoint => Pager.releaseSavepoint.final
  | rollbackSavepoint => Pager.rollbackSavepoint.final

/-- The pager after some calls. Those after a call that fails are made all the same. -/
def after (p : Pager) (calls : List Call) : Pager := calls.foldl (fun p call => call.run p) p

/-- A transaction that is open on the second pager began on the first, and nothing of it is in the
file. -/
structure Within (p q : Pager) : Prop where
  working : Working q
  base : q.base = p.base
  bytes : q.file.bytes = p.file.bytes

theorem bytes_of_calm (same : q.calm.file = p.calm.file) : q.file.bytes = p.file.bytes := by
  show q.calm.file.bytes = p.calm.file.bytes
  rw [same]

theorem begin_within (sound : p.calm.Sound) (begun : begin p = .ok () q) : Within p q := by
  obtain ⟨r, run, calmRun⟩ := begin_calm p
  cases run.symm.trans begun
  obtain ⟨t, run', soundQ, writing, -, -, steady⟩ := begin_run sound
  cases calmRun.symm.trans run'
  exact ⟨⟨soundQ, writing⟩, steady.base, bytes_of_calm steady.file⟩

theorem Within.step (within : Within p q) (working : Working r) (base : r.base = q.base)
    (file : r.calm.file = q.calm.file) : Within p r :=
  ⟨working, base.trans within.base, (bytes_of_calm file).trans within.bytes⟩

theorem Call.run_within (call : Call) (within : Within p q) : Within p (call.run q) := by
  cases call with
  | access access =>
    obtain ⟨working, steady⟩ := access.run_remembers q within.working
    exact within.step working steady.base steady.file
  | openSavepoint =>
    obtain ⟨r, n, run, working, base, -, -, file, -⟩ := openSavepoint_works within.working.sound
    dsimp only [Call.run]
    rw [Action.final_of_ok run]
    exact within.step working base file
  | releaseSavepoint =>
    dsimp only [Call.run]
    cases opened : q.savepoints with
    | nil =>
      have failed : Pager.releaseSavepoint q = .error .noSavepoint q := by
        unfold Pager.releaseSavepoint
        rw [Action.get_bind, opened]
        rfl
      rw [Action.final_of_error failed]
      exact within
    | cons inner stack =>
      obtain ⟨r, run, working, -, closes⟩ := releaseSavepoint_works within.working opened
      rw [Action.final_of_ok run]
      exact within.step working closes.base closes.file
  | rollbackSavepoint =>
    dsimp only [Call.run]
    cases opened : q.savepoints with
    | nil =>
      have failed : Pager.rollbackSavepoint q = .error .noSavepoint q := by
        unfold Pager.rollbackSavepoint
        rw [Action.get_bind, opened]
        rfl
      rw [Action.final_of_error failed]
      exact within
    | cons inner stack =>
      obtain ⟨r, run, working, -, closes⟩ := rollbackSavepoint_works within.working opened
      rw [Action.final_of_ok run]
      exact within.step working closes.base closes.file

theorem after_within (calls : List Call) (within : Within p q) : Within p (after q calls) := by
  induction calls generalizing q with
  | nil => exact within
  | cons call rest ih => exact ih (call.run_within within)

/-- Whatever was called since a write transaction began, the file is as it was, and a rollback
brings back the pages from that time. -/
theorem rollback_undoes (sound : p.calm.Sound) (idle : p.state ≠ .writing)
    (begun : begin p = .ok () q) (calls : List Call) :
    (after q calls).file.bytes = p.file.bytes ∧
      ∃ r, rollback (after q calls) = .ok () r ∧ r.file.bytes = p.file.bytes ∧ Agrees p r := by
  have within := after_within calls (begin_within sound begun)
  obtain ⟨r, run, calmRun, file⟩ := rollback_calm (after q calls)
  obtain ⟨t, run', soundR, pages, -⟩ := rollback_run within.working.sound
  cases calmRun.symm.trans run'
  have began : p.pages = p.base := pages_of_idle (p := p.calm) sound idle
  refine ⟨within.bytes, r, run, ?_, agrees_of_pages soundR ?_⟩
  · rw [file, within.bytes]
  · exact pages.trans (within.base.trans began.symm)

def unread : Pager :=
  { file := { bytes := .zeros 1024 }, pageSize := 512, pageCount := 2, startCount := 2 }

theorem unread_sound : unread.calm.Sound :=
  sound_of_unread rfl (Nat.succ_pos _) (show 2 ≤ 0xfffffffe by decide) rfl rfl rfl rfl

theorem rollback_undoes_truncating : begin unread = .ok () (begin.final unread) ∧
    ∃ r, rollback (after (begin.final unread)
        [.access (.truncate 1), .openSavepoint, .access .extend]) = .ok () r ∧
      r.file.bytes = unread.file.bytes ∧ Agrees unread r := by
  have begun : begin unread = .ok () (begin.final unread) := rfl
  obtain ⟨-, undone⟩ := rollback_undoes unread_sound nofun begun
    [.access (.truncate 1), .openSavepoint, .access .extend]
  exact ⟨begun, undone⟩

/-- What is done between the opening of a savepoint and its end. A savepoint opened on the way is
closed again, and what was done inside it is kept or taken back. -/
inductive Work where
  | done
  | access (access : Access) (rest : Work)
  | nested (inner : Work) (keep : Bool) (rest : Work)

namespace Work

def run : Work → Pager → Pager
  | done, p => p
  | access a rest, p => rest.run (a.run p)
  | nested inner keep rest, p =>
    let finished := inner.run (openSavepoint.final p)
    rest.run (if keep then releaseSavepoint.final finished else rollbackSavepoint.final finished)

end Work

/-- The pages that the innermost savepoint may have to bring back are there, or it has kept them
already. Those it takes no notes of while there is another one inside it. -/
def Guarded (p : Pager) : Prop :=
  ∀ s, p.savepoints.head? = some s → ∀ n : Nat, p.pageCount < n → n ≤ s.pageCount → n ∈ s.undo

theorem guarded_of_open {n : Nat} (opened : openSavepoint p = .ok n q) : Guarded q := by
  obtain ⟨r, begun, -⟩ := begin_calm p
  unfold openSavepoint at opened
  rw [Action.bind_of_ok begun] at opened
  cases opened
  intro s head n past low
  cases head
  exact absurd (Nat.lt_of_lt_of_le past low) (Nat.lt_irrefl r.pageCount)

def Work.Careful : Work → Pager → Prop
  | done, _ => True
  | access a rest, p => rest.Careful (a.run p)
  | nested inner keep rest, p =>
    let finished := inner.run (openSavepoint.final p)
    Guarded p ∧ inner.Careful (openSavepoint.final p) ∧
      rest.Careful
        (if keep then releaseSavepoint.final finished else rollbackSavepoint.final finished)

theorem saved_of_opened {inner : Savepoint} {stack : List Savepoint}
    (opened : p.savepoints = inner :: stack) :
    p.saved = some (cut inner.pageCount p.pageSize (restored inner p.raw)) := by
  unfold saved
  rw [opened]
  rfl

theorem eq_of_cut {count count' size size' n : Nat} {f g : PageNo → Bytes}
    (same : cut count size f = cut count' size' g) (low : n ≤ count') : f n = g n := by
  have counts : count = count' := congrArg Pages.count same
  have images : (if n > count then _ else _ : Bytes) = if n > count' then _ else _ :=
    congrFun (congrArg Pages.image same) n
  rwa [if_neg (by omega), if_neg (by omega)] at images

theorem Closes.saved_eq {inner : Savepoint} (closes : Closes q r inner p.savepoints)
    (opened : q.savepoints = inner :: p.savepoints) (size : q.pageSize = p.pageSize)
    (saved : q.saved = some p.pages) (guarded : Guarded p) : r.saved = p.saved := by
  rw [closes.saved]
  refine Option.map_congr fun outer isOuter => cut_congr rfl size fun n low => ?_
  unfold restored
  cases kept : outer.undo[n]? with
  | some data => rfl
  | none =>
    have present : n ≤ p.pageCount := by
      refine Decidable.byContradiction fun past => ?_
      obtain ⟨data, found⟩ := PageMap.mem_iff.mp (guarded outer isOuter n (Nat.lt_of_not_le past) low)
      rw [kept] at found
      cases found
    exact eq_of_cut (Option.some.inj ((saved_of_opened opened).symm.trans saved)) present

theorem Work.run_remembers (work : Work) (careful : work.Careful p) :
    Remembers p (work.run p) := by
  induction work generalizing p with
  | done => exact .refl p
  | access a rest ih => exact (a.run_remembers p).trans (ih careful)
  | nested inner keep rest ihInner ihRest =>
    obtain ⟨guarded, inside, later⟩ := careful
    refine Remembers.trans (fun working => ?_) (ihRest later)
    obtain ⟨o, n, run, workingO, base, saved, outer, file, size, max⟩ :=
      openSavepoint_works working.sound
    rw [Action.final_of_ok run] at inside ⊢
    obtain ⟨workingI, steady⟩ := ihInner inside workingO
    obtain ⟨innermost, opened⟩ := opened_of_saved (steady.saved.trans saved)
    rw [show _ = p.savepoints from steady.outer.trans outer] at opened
    have closed : ∀ {c : Pager}, Closes (inner.run o).calm c.calm innermost p.savepoints →
        Steady p.calm c.calm := fun closes =>
      ⟨closes.file.trans (steady.file.trans file), closes.pageSize.trans (steady.pageSize.trans size),
        closes.maxPages.trans (steady.maxPages.trans max), closes.base.trans (steady.base.trans base),
        closes.saved_eq (p := p.calm) opened (steady.pageSize.trans size) (steady.saved.trans saved)
          guarded, closes.outer⟩
    cases keep with
    | true =>
      obtain ⟨c, ended, workingC, -, closes⟩ := releaseSavepoint_works workingI opened
      rw [if_pos rfl, Action.final_of_ok ended]
      exact ⟨workingC, closed closes⟩
    | false =>
      obtain ⟨c, ended, workingC, -, closes⟩ := rollbackSavepoint_works workingI opened
      rw [if_neg Bool.false_ne_true, Action.final_of_ok ended]
      exact ⟨workingC, closed closes⟩

/-- The rollback of a savepoint brings back the pages from when it was opened. -/
theorem rollbackSavepoint_restores {n : Nat} (sound : p.calm.Sound)
    (opened : openSavepoint p = .ok n s) (work : Work) (careful : work.Careful s) :
    ∃ r, rollbackSavepoint (work.run s) = .ok () r ∧ Agrees p r := by
  obtain ⟨o, m, run, workingO, -, saved, -⟩ := openSavepoint_works sound
  cases run.symm.trans opened
  obtain ⟨working, steady⟩ := work.run_remembers careful workingO
  have savedW : (work.run s).saved = some p.pages := steady.saved.trans saved
  obtain ⟨inner, single⟩ := opened_of_saved savedW
  obtain ⟨r, rolled, workingR, back, -⟩ := rollbackSavepoint_works working single
  exact ⟨r, rolled, agrees_of_pages workingR.sound (Option.some.inj (back.symm.trans savedW))⟩

theorem rollbackSavepoint_restores_truncated :
    openSavepoint unread = .ok 1 (openSavepoint.final unread) ∧
      ∃ r, rollbackSavepoint (Work.run
          (.nested (.access .extend .done) true (.access (.truncate 1) .done))
          (openSavepoint.final unread)) = .ok () r ∧ Agrees unread r := by
  have opened : openSavepoint unread = .ok 1 (openSavepoint.final unread) := rfl
  exact ⟨opened, rollbackSavepoint_restores unread_sound opened
    (.nested (.access .extend .done) true (.access (.truncate 1) .done))
    ⟨guarded_of_open opened, trivial, trivial⟩⟩

/-- Without care a page is lost. It is truncated, and inside another savepoint it comes into being
again, of which neither savepoint takes note. -/
example :
    let fives : Pager :=
      { file := { bytes := ⟨#[5, 5, 5, 5, 5]⟩ }, pageSize := 1, pageCount := 5, startCount := 5 }
    let regrown := Work.access (.truncate 3) (.nested (.access .extend .done) true .done)
    (rollbackSavepoint.final (regrown.run (openSavepoint.final fives))).image 4 = ⟨#[0]⟩ := by
  decide +kernel

end Pager

end TreeFile
