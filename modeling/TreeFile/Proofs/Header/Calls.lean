import TreeFile.Proofs.Header.LargestRoot

/-!
What the calls of a user do to the words for the largest root and for the vacuum mode. All but four of
them keep whatever is known of these words: one that makes and one that removes a root, one that sets
the mode, and the rollback.
-/

namespace TreeFile

open FileHeader (Says Lasting)
open Action (Ends)
open Pager (Copies Knows)
open Store (Becomes)

variable {size : Nat} {begun now : Bytes → Prop} {opened : Option (Bytes → Prop)}
  {K : Nat → Nat → Prop} {s t : Store}

namespace Store

theorem setHeaderWord_knows {offset : Nat} (value : Nat) (inside : offset + 4 ≤ fileHeaderSize)
    (mark : 4 < offset)
    (root : offset + 4 ≤ FileHeader.largestRootOffset ∨ FileHeader.largestRootOffset + 4 ≤ offset)
    (mode : offset + 4 ≤ FileHeader.incrementalVacuumOffset ∨
      FileHeader.incrementalVacuumOffset + 4 ≤ offset) :
    Respects (Knows size begun opened (Says size K)) (setHeaderWord offset value) := by
  refine knows fun s copies => ?_
  have becomes : Becomes size begun opened (Says size K) s s := ⟨copies, .refl s⟩
  have set := becomes.setWord inside (fun d stated => stated.put inside mark root mode value) fun _ _ _ _ => id
  exact set.final.copies

end Store

namespace Database

open Store (setHeaderWord_knows)

instance : Respects (Knows size begun opened (Says size K)) stampHeader := by
  unfold stampHeader
  refine .andThen inferInstance fun counter => ?_
  refine .andThen (setHeaderWord_knows _ (by decide) (by decide) (by decide) (by decide)) fun _ => ?_
  refine .andThen inferInstance fun s => ?_
  refine .andThen (setHeaderWord_knows _ (by decide) (by decide) (by decide) (by decide)) fun _ => ?_
  refine .andThen (setHeaderWord_knows _ (by decide) (by decide) (by decide) (by decide)) fun _ => ?_
  exact setHeaderWord_knows _ (by decide) (by decide) (by decide) (by decide)

instance : Respects (Knows size begun opened now) begin :=
  Store.onPager_respects fun p copies => by
    obtain ⟨q, begins, copiesQ, -⟩ := copies.begin
    rw [Action.final_of_ok begins]
    exact copiesQ

/-- A commit that succeeds puts what is known now into the file, and one that fails may have done so. -/
theorem commit_ends (becomes : Becomes size begun none (Says size K) s t) :
    Ends commit t (fun _ => Becomes size (Says size K) none (Says size K) s)
      (Becomes size (fun d => begun d ∨ Says size K d) none (Says size K) s) := by
  have wide : Becomes size (fun d => begun d ∨ Says size K d) none (Says size K) s t :=
    ⟨becomes.copies.weaken fun _ => .inl, becomes.settled⟩
  have last : ∀ u, Becomes size (fun d => begun d ∨ Says size K d) none (Says size K) s u →
      Ends (do stampHeader; Store.onPager Pager.commit : StoreM Unit) u
        (fun _ => Becomes size (Says size K) none (Says size K) s)
        (Becomes size (fun d => begun d ∨ Says size K d) none (Says size K) s) := by
    refine fun u becomesU => becomesU.step.bind fun _ v _ becomesV => ?_
    refine (Store.onPager_ends becomesV.copies.commit becomesV.settled).imp ?_ ?_
    · exact fun _ w _ ⟨copies, settled⟩ => ⟨copies, settled⟩
    · exact fun w ⟨copies, settled⟩ => ⟨copies.weaken fun d => Or.rec id .inr, settled⟩
  unfold commit inTransaction
  refine .get ?_
  by_cases writing : t.pager.state = .writing
  · rw [if_pos (decide_eq_true writing)]
    refine .get ?_
    dsimp only
    split
    · exact .get (wide.step.bind fun _ u _ => last u)
    · exact last t wide
  · rw [if_neg (by rw [decide_eq_true_eq]; exact writing)]
    exact .of_ok rfl ⟨becomes.copies.commit.ok (Pager.commit_idle writing), becomes.settled⟩

theorem rollback_ends (becomes : Becomes size begun none now s t) :
    Ends rollback t (fun _ => Becomes size begun none begun s) fun _ => False := by
  obtain ⟨q, rolled, copiesQ⟩ := becomes.copies.rollback
  have rolling : Store.onPager Pager.rollback t = .ok () { t with pager := q } :=
    Action.zoom_ok.mpr ⟨q, rolled, rfl⟩
  refine .of_ok (Action.bind_of_ok rolling) ⟨copiesQ, ?_⟩
  exact becomes.settled.trans ⟨rfl, rfl, rfl, rfl, rfl, Nat.le_succ _⟩

def modeIndex : Nat := 7

theorem setMetaValue_knows {i : Nat} (value : Nat) (other : i ≠ modeIndex) :
    Respects (Knows size begun opened (Says size K)) (setMetaValue i value) := by
  unfold setMetaValue
  dsimp only
  split
  · infer_instance
  rename_i inside
  split
  · infer_instance
  rename_i free
  have place : metaOffset i = 36 + 4 * i := rfl
  have fifteen : i < 15 := Nat.lt_of_not_le inside
  have apart : metaOffset i ≠ FileHeader.largestRootOffset := by
    simp only [Bool.or_eq_true, decide_eq_true_eq, not_or] at free
    exact free.2
  have seven : i ≠ 7 := other
  simp only [FileHeader.largestRootOffset] at apart
  rw [if_neg (show metaOffset i ≠ FileHeader.incrementalVacuumOffset from
    show metaOffset i ≠ 64 by omega)]
  exact Store.setHeaderWord_knows _ (show metaOffset i + 4 ≤ 100 by omega) (by omega)
    (show metaOffset i + 4 ≤ 52 ∨ 52 + 4 ≤ metaOffset i by omega)
    (show metaOffset i + 4 ≤ 64 ∨ 64 + 4 ≤ metaOffset i by omega)

end Database

def VacuumMode.ofWord (value : Nat) : VacuumMode := if value ≠ 0 then .incremental else .full

namespace Database

theorem setMode_plain (value : Nat) (plain : s.vacuum.isEnabled = false) :
    setMetaValue modeIndex value s = .error .vacuumModeFixed s := by
  unfold setMetaValue
  dsimp only
  rw [if_neg (by decide), if_neg (by decide), if_pos (by decide), Action.get_bind, plain]
  rfl

theorem setMode_ends {next : Nat → Nat → Prop} {value : Nat} (bound : value < 4294967296)
    (copies : Copies size begun opened (Says size K) s.pager) (enabled : s.vacuum.isEnabled = true)
    (changed : ∀ root mode, K root mode → next root value)
    (same : ∀ root, K root value → ∀ root mode, K root mode → next root mode) :
    Ends (setMetaValue modeIndex value) s
      (fun _ => Becomes size begun opened (Says size next) { s with vacuum := .ofWord value })
      (Becomes size begun opened (Says size K) { s with vacuum := .ofWord value }) := by
  have becomes : Becomes size begun opened (Says size K) { s with vacuum := .ofWord value }
      { s with vacuum := .ofWord value } := ⟨copies, .refl _⟩
  unfold setMetaValue
  dsimp only
  rw [if_neg (by decide), if_neg (by decide), if_pos (by decide)]
  refine .get ?_
  rw [if_neg (by rw [enabled]; decide)]
  refine becomes.setWord (by decide) (fun d stated => ?_) fun d stated equal e known => ?_
  · exact (stated.putMode bound).imp fun root mode ⟨word, old, known⟩ => word ▸ changed root old known
  · have words := stated.words
    rw [show d.at32 FileHeader.incrementalVacuumOffset = value from equal] at words
    exact known.imp (same _ words)

end Database

namespace Call

open Database (modeIndex)

instance (refusal : Option Refusal) : Respects (Knows size begun opened now) (refuse refusal).run :=
  have : Respects Pager.Anyhow (refuse refusal).run :=
    ⟨fun _ => ⟨trivial, rfl, rfl, rfl, rfl, rfl, Nat.le_refl _⟩⟩
  Store.knows fun _ copies => copies.browsed (.of_bytes rfl) rfl

theorem createTree_final (kind : TreeKind) (s : Store) :
    (statement (.createTree kind)).run.final s = (Database.createTree kind).final s :=
  Action.final_bind_pure _ _ s

theorem dropTree_final (root : PageNo) (s : Store) :
    (statement (.dropTree root)).run.final s = (Database.dropTree root).final s :=
  Action.final_bind_pure _ _ s

/-- The call neither makes or removes a tree nor ends the transaction nor sets the mode. -/
def isQuiet : Call → Bool
  | statement (.createTree _) => false
  | statement (.dropTree _) => false
  | commit => false
  | rollback => false
  | setMeta i _ => i != modeIndex
  | _ => true

theorem kinds (call : Call) : call.isQuiet = true ∨ (∃ kind, call = statement (.createTree kind)) ∨
    (∃ root, call = statement (.dropTree root)) ∨ call = commit ∨ call = rollback ∨
      ∃ value, call = setMeta modeIndex value := by
  cases call with
  | statement statement =>
    cases statement with
    | createTree kind => exact .inr (.inl ⟨kind, rfl⟩)
    | dropTree root => exact .inr (.inr (.inl ⟨root, rfl⟩))
    | _ => exact .inl rfl
  | commit => exact .inr (.inr (.inr (.inl rfl)))
  | rollback => exact .inr (.inr (.inr (.inr (.inl rfl))))
  | setMeta i value =>
    by_cases mode : i = modeIndex
    · exact .inr (.inr (.inr (.inr (.inr ⟨value, mode ▸ rfl⟩))))
    · exact .inl (bne_iff_ne.mpr mode)
  | _ => exact .inl rfl

theorem quiet_knows {call : Call} (quiet : call.isQuiet = true) :
    Respects (Knows size begun none (Says size K)) call.run := by
  cases call with
  | query query => exact inferInstanceAs (Respects _ query.run)
  | statement statement =>
    cases statement with
    | createTree kind => cases quiet
    | dropTree root => cases quiet
    | clearTree root => exact inferInstanceAs (Respects _ (Statement.clearTree root).run)
    | allocatePage => exact inferInstanceAs (Respects _ Statement.allocatePage.run)
    | freePage page => exact inferInstanceAs (Respects _ (Statement.freePage page).run)
    | vacuumStep => exact inferInstanceAs (Respects _ Statement.vacuumStep.run)
    | insert cursor new => exact inferInstanceAs (Respects _ (Statement.insert cursor new).run)
    | delete cursor => exact inferInstanceAs (Respects _ (Statement.delete cursor).run)
  | begin => exact inferInstanceAs (Respects _ Database.begin)
  | commit => cases quiet
  | rollback => cases quiet
  | setMeta i value => exact Database.setMetaValue_knows value.toNat (bne_iff_ne.mp quiet)
  | refuse refusal => infer_instance

end Call

namespace Store

theorem Becomes.quietly (becomes : Becomes size begun none (Says size K) s t) {call : Call}
    (quiet : call.isQuiet = true) : Becomes size begun none (Says size K) s (call.run.final t) :=
  have : Respects (Knows size begun none (Says size K)) call.run := Call.quiet_knows quiet
  becomes.step.final

end Store

end TreeFile
