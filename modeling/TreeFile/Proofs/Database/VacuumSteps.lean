import TreeFile.Proofs.Header.LargestRoot
import TreeFile.Proofs.Pager.Undo
import TreeFile.Proofs.Store.Disk

/-!
The vacuum of a commit takes one step after the other, each on what the last one left, and without a
savepoint. When a step fails, those before it stay done, and it stays half done. The transaction goes on,
though, the file is as it was, and a rollback takes all of it back.
-/

namespace TreeFile

namespace Vacuum

variable {s t u : Store} {e : Error}

theorem truncate_count {count : Nat} (run : truncate count s = .ok () t) : t.pageCount ≤ count := by
  unfold truncate at run
  rw [Action.get_bind] at run
  obtain ⟨q, cut, rfl⟩ := Store.onPager_ok.mp run
  have below := s.lastUnreserved_le count
  generalize s.lastUnreserved count = n at cut below
  cases cut
  show (if n < s.pager.pageCount then { s.pager with pageCount := n } else s.pager).pageCount ≤ count
  split
  · exact below
  · rename_i short
    exact Nat.le_trans (Nat.le_of_not_lt short) below

theorem step_shortens (run : step s = .ok true t) : t.pageCount < s.pageCount := by
  unfold step at run
  rw [Action.get_bind] at run
  dsimp only at run
  split at run
  · cases run
  obtain ⟨free, u, counted, run⟩ := Action.bind_ok.mp run
  have same : u.pageCount = s.pageCount := Respects.count counted
  split at run
  · cases run
  rw [Action.get_bind] at run
  split at run
  · cases run
  rename_i long
  rw [Action.get_bind] at run
  split at run
  · obtain ⟨_, v, cut, run⟩ := Action.bind_ok.mp run
    cases run
    have count := truncate_count cut
    omega
  · obtain ⟨entry, v, looked, run⟩ := Action.bind_ok.mp run
    obtain ⟨emptied, w, moved, run⟩ := Action.bind_ok.mp run
    split at run
    · obtain ⟨_, x, cut, run⟩ := Action.bind_ok.mp run
      obtain ⟨_, y, bumped, run⟩ := Action.bind_ok.mp run
      cases run
      cases bumped
      have count := truncate_count cut
      show x.pageCount < s.pageCount
      omega
    · cases run

theorem run_holds {P : Trait} [P.Shrinking] {last : Nat} (links : P.Links last) (left : Nat)
    (short : s.pageCount ≤ last) : P.holds (run left) s := by
  induction left generalizing s with
  | zero =>
    unfold run
    exact Obeys.obeys s
  | succ left ih =>
    unfold run
    refine Trait.Reading.bind (step_holds (links.mono short)) fun gained t stepped => ?_
    cases gained with
    | false => exact (Obeys.pure ()).obeys t
    | true => exact ih (Nat.le_trans (Nat.le_of_lt (step_shortens stepped)) short)

/-- So many steps with something to gain, one after the other. -/
inductive Steps : Nat → Store → Store → Prop
  | nil (s : Store) : Steps 0 s s
  | cons {n : Nat} {s t u : Store} (first : step s = .ok true t) (rest : Steps n t u) : Steps (n + 1) s u

theorem Steps.shorten {n : Nat} (steps : Steps n s t) : t.pageCount + n ≤ s.pageCount := by
  induction steps with
  | nil s => exact Nat.le_refl _
  | cons first rest ih =>
    have less := step_shortens first
    omega

theorem run_error {left : Nat} (failed : run left s = .error e u) :
    ∃ n t, Steps n s t ∧ step t = .error e u := by
  induction left generalizing s with
  | zero => cases failed
  | succ left ih =>
    unfold run at failed
    cases first : step s with
    | error e' t =>
      rw [Action.bind_of_error first] at failed
      cases failed
      exact ⟨0, s, .nil s, first⟩
    | ok gained t =>
      rw [Action.bind_of_ok first] at failed
      cases gained with
      | false => cases failed
      | true =>
        obtain ⟨n, v, rest, last⟩ := ih failed
        exact ⟨n + 1, v, .cons first rest, last⟩

end Vacuum

namespace Database

open Pager (Agrees Remembers)
open Store (pageOf unsaved unsaved_shows)

variable {s t : Store} {e : Error}

/-- A commit that began at `s` has failed in its vacuum and left `t`. -/
structure Interrupted (e : Error) (s t : Store) : Prop where
  told : commit s = .error e t
  writing : t.pager.state = .writing
  unwritten : t.pager.file.bytes = s.pager.file.bytes
  stopped : ∃ n u, Vacuum.Steps n s u ∧ u.pageCount + n ≤ s.pageCount ∧ Vacuum.step u = .error e t
  /-- A rollback brings back what it would have brought back instead of the commit. -/
  undone : ∃ u v, rollback s = .ok () u ∧ rollback t = .ok () v ∧ Agrees u.pager v.pager

theorem rollback_base (sound : s.pager.calm.Sound) :
    ∃ t, rollback s = .ok () t ∧ t.pager.calm.Sound ∧ t.pager.pages = s.pager.base := by
  obtain ⟨q, rolled, calm, -⟩ := Pager.rollback_calm s.pager
  obtain ⟨q', calm', sound', pages, -⟩ := Pager.rollback_run sound
  cases calm.symm.trans calm'
  have rolling : Store.onPager Pager.rollback s = .ok () { s with pager := q } :=
    Store.onPager_ok.mpr ⟨q, rolled, rfl⟩
  exact ⟨_, Action.bind_of_ok rolling, sound', pages⟩

theorem commit_interrupted (rest : s.pager.AtRest) (writing : s.pager.state = .writing)
    (full : s.vacuum = .full) (failed : Vacuum.run s.pageCount s = .error e t) : Interrupted e s t := by
  have kept : Store.Within Remembers s ((Vacuum.run s.pageCount).final s) :=
    Respects.final (Vacuum.run s.pageCount) s
  rw [Action.final_of_error failed] at kept
  obtain ⟨working, steady⟩ := kept.pager ⟨rest.sound, writing⟩
  obtain ⟨n, u, steps, last⟩ := Vacuum.run_error failed
  obtain ⟨v, rolled, -, pages⟩ := rollback_base rest.sound
  obtain ⟨w, rolled', sound, pages'⟩ := rollback_base working.sound
  refine ⟨?_, working.writing, ?_, ⟨n, u, steps, steps.shorten, last⟩, v, w, rolled, rolled', ?_⟩
  · have inside : inTransaction s = .ok true s :=
      congrArg (EStateM.Result.ok · s) (decide_eq_true writing)
    unfold commit
    rw [Action.bind_of_ok inside, if_pos rfl, Action.get_bind]
    dsimp only
    rw [if_pos full, Action.get_bind]
    exact Action.bind_of_error failed
  · exact Pager.bytes_of_calm steady.file
  · exact Pager.agrees_of_pages sound (pages'.trans (steady.base.trans pages.symm))

/-- Pages whose last one, page 105, is the second page of the pointer map, with a first page of it that
knows no page at all. -/
def held : Store :=
  { unsaved (pageOf (List.replicate 36 0 ++ [0, 0, 0, 1]) [] :: List.replicate 104 (pageOf [] [])) with vacuum := .full }

/-- The page at the end goes, and the one before it cannot be moved. -/
theorem commit_interrupted_held : ∃ e t, Interrupted e held t ∧ t.pageCount = 104 := by
  let vacuum := Vacuum.run held.pageCount
  have stops : vacuum.succeeds held = false ∧ (vacuum.final held).pageCount = 104 := by decide +kernel
  have rest : held.pager.AtRest := ⟨(unsaved_shows (by decide +kernel) (by decide)).sound.pager, rfl⟩
  cases failed : vacuum held with
  | ok a t => cases (Action.succeeds_of_ok failed).symm.trans stops.1
  | error e t => exact ⟨e, t, commit_interrupted rest rfl rfl failed, Action.final_of_error failed ▸ stops.2⟩

end Database

end TreeFile
