import TreeFile.Proofs.Database.Creating

/-!
The vacuum mode stands in two places, in the handle and in the header on page 1. A change of it reaches
both, unless the header cannot be written, but a rollback takes back what the header says only. So the
two agree as long as a change that succeeded is committed before the next rollback.
-/

namespace TreeFile

open FileHeader (Says)
open Action (Ends)
open Pager (Copies)
open Store (Becomes)

/-- A database that has just been opened, on a file that has no more pages than can be counted. -/
def Database.Opened (s : Store) : Prop :=
  (∃ file c, file.bytes.size / 512 < 4294967296 ∧ Database.openFile file c = .ok s) ∨
    ∃ c, Database.inMemory c = .ok s

/-- The handle is in the mode that the header records, and that is what a user is told. -/
structure Database.Coherent (s : Store) : Prop where
  recorded : FileHeader.recorded (s.pager.image 1) = s.vacuum
  told : ∀ {h t}, Database.header s = .ok h t → h.vacuum = s.vacuum

namespace Call

def changesMode (call : Call) (s : Store) : Bool := (call.run.final s).vacuum != s.vacuum

/-- Whether a change of the mode waits for its commit after a call, if `waits` tells this for the time
before it. -/
def modeWaits (s : Store) (waits : Bool) : Call → Bool
  | commit => waits && !commit.run.succeeds s
  | call => waits || call.changesMode s

/-- Whether the call leaves both copies of the mode alike: a change of it has to succeed, and none may be
taken back. -/
def keepsMode (s : Store) (waits : Bool) : Call → Bool
  | rollback => !waits
  | call => call.run.succeeds s || !call.changesMode s

def keepMode (s : Store) (waits : Bool) : List Call → Bool
  | [] => true
  | call :: rest => call.keepsMode s waits && keepMode (call.run.final s) (call.modeWaits s waits) rest

def modeWaitsAfter (s : Store) (waits : Bool) : List Call → Bool
  | [] => waits
  | call :: rest => modeWaitsAfter (call.run.final s) (call.modeWaits s waits) rest

end Call

def VacuumMode.Words (vacuum : VacuumMode) (root mode : Nat) : Prop := .stated root mode = vacuum

/-- Page 1 has the handle's mode, and so will it have after a rollback, unless a change waits. -/
def Database.KeepsMode (waits : Bool) (s : Store) : Prop :=
  ∃ size, Copies size (fun d => waits = true ∨ Says size s.vacuum.Words d) none (Says size s.vacuum.Words)
    s.pager

namespace Database

variable {size : Nat} {waits : Bool} {s t : Store}

theorem KeepsMode.coherent (keeps : KeepsMode waits s) : Coherent s := by
  obtain ⟨size, copies⟩ := keeps
  have raw : s.pager.image 1 = s.pager.raw 1 := if_neg (Nat.not_lt.mpr copies.count.1)
  refine ⟨raw ▸ copies.starts.now.words, fun {h t} run => ?_⟩
  have becomes : Becomes size _ none _ s s := ⟨copies, .refl s⟩
  obtain ⟨d, u, read, parsed⟩ := Action.bind_ok.mp run
  obtain ⟨-, -, known⟩ := becomes.readFirst.ok read
  obtain ⟨-, -, recorded⟩ := FileHeader.parse_recorded (Action.lift_ok.mp parsed).1
  exact recorded.trans known.words

theorem KeepsMode.reopened (keeps : KeepsMode false s) {c : Config}
    (run : openFile { bytes := s.pager.file.bytes } c = .ok t) : t.vacuum = s.vacuum := by
  obtain ⟨size, copies⟩ := keeps
  have stated : Says size s.vacuum.Words (s.pager.fileImage 1) := copies.filed.resolve_left nofun
  have same := s.pager.sameOn_start (copies.pageSize ▸ stated.long)
  have old : ({ bytes := s.pager.file.bytes } : File).bytes.size ≠ 0 := by
    intro (none : s.pager.file.bytes.size = 0)
    have mark := (same 4 (Nat.zero_le _) (by decide)).symm.trans stated.marked
    rw [Bytes.get_extract, if_pos (by decide), Bytes.get_of_ge (by rw [none]; exact Nat.zero_le _)] at mark
    exact absurd mark (by decide)
  rw [openFile_recorded old run, ← FileHeader.recorded_congr same]
  exact stated.words

theorem Rests.keepsMode {root mode : Nat} (rests : Rests root mode s) (words : .stated root mode = s.vacuum) :
    KeepsMode false s := by
  have imp : ∀ d, Says s.pager.pageSize (fun root' mode' => root' = root ∧ mode' = mode) d →
      Says s.pager.pageSize s.vacuum.Words d := by
    refine fun d stated => stated.imp ?_
    rintro _ _ ⟨rfl, rfl⟩
    exact words
  exact ⟨_, (rests.imp imp).weaken fun d stated => .inr (imp d stated)⟩

theorem Opened.keepsMode (opened : Opened s) : KeepsMode false s := by
  rcases opened with ⟨file, c, fits, run⟩ | ⟨c, run⟩
  · obtain ⟨⟨root, mode, words, rests⟩, -⟩ := openFile_ok fits run
    exact rests.keepsMode words
  · obtain ⟨follows, rests⟩ := inMemory_ok run
    exact rests.keepsMode (follows.vacuum ▸ stated_first _)

theorem KeepsMode.of_becomes (becomes : Becomes size (fun d => waits = true ∨ Says size s.vacuum.Words d) none
    (Says size s.vacuum.Words) s t) : KeepsMode waits t :=
  ⟨size, becomes.settled.vacuum ▸ becomes.copies⟩

end Database

namespace VacuumMode.Words

variable {vacuum : VacuumMode} {root root' mode mode' : Nat}

theorem withRoot (words : vacuum.Words root mode) (enabled : vacuum.isEnabled = true) (positive : 1 ≤ root') :
    vacuum.Words root' mode := by
  unfold Words stated at *
  rw [if_neg (Nat.ne_of_gt positive)]
  split at words
  · subst words
    cases enabled
  · exact words

theorem withMode (words : vacuum.Words root mode) (enabled : vacuum.isEnabled = true) :
    (VacuumMode.ofWord mode').Words root mode' := by
  unfold Words stated at *
  split at words
  · subst words
    cases enabled
  · rename_i positive
    exact if_neg positive

theorem ofWord_eq (words : vacuum.Words root mode) (enabled : vacuum.isEnabled = true) :
    .ofWord mode = vacuum := by
  unfold Words stated at words
  split at words
  · subst words
    cases enabled
  · exact words

end VacuumMode.Words

namespace Database

open FileHeader (Resets)

variable {size : Nat} {begun : Bytes → Prop} {waits : Bool} {s t : Store}

theorem createTree_keeps (becomes : Becomes size begun none (Says size s.vacuum.Words) s t) (kind : TreeKind) :
    Becomes size begun none (Says size s.vacuum.Words) s ((createTree kind).final t) := by
  cases enabled : s.vacuum.isEnabled with
  | false => exact ((becomes.createTree_plain enabled kind).imp (fun _ _ _ => And.right) fun _ => id).final
  | true =>
    have resets : ∀ old mode, s.vacuum.Words old mode →
        Resets s.vacuum.Words s.vacuum.Words (s.firstUnreserved (max old 1 + 1)) := by
      intro old mode _
      have positive : 1 ≤ s.firstUnreserved (max old 1 + 1) :=
        Nat.le_trans (Nat.le_add_left 1 _) (s.firstUnreserved_le _)
      exact ⟨fun old mode words => words.withRoot enabled positive, fun _ _ _ _ => id⟩
    exact ((becomes.createTree enabled resets kind).imp (fun _ _ _ => And.right) fun _ => id).final

theorem dropTree_keeps (becomes : Becomes size begun none (Says size s.vacuum.Words) s t) (root : PageNo) :
    Becomes size begun none (Says size s.vacuum.Words) s ((dropTree root).final t) := by
  cases enabled : s.vacuum.isEnabled with
  | false => exact ((becomes.dropTree_plain enabled root).imp (fun _ _ _ => And.right) fun _ => id).final
  | true =>
    have resets : ∀ old mode, s.vacuum.Words old mode → 2 ≤ old →
        Resets s.vacuum.Words s.vacuum.Words (s.lastUnreserved (old - 1)) := by
      intro old mode _ two
      have positive : 1 ≤ s.lastUnreserved (old - 1) := s.lastUnreserved_pos (Nat.le_sub_of_add_le two)
      exact ⟨fun old mode words => words.withRoot enabled positive, fun _ _ _ _ => id⟩
    exact ((becomes.dropTree enabled resets root).imp (fun _ _ _ => And.right) fun _ => id).final

theorem modeWaits_of_settled {call : Call} (settled : s.Settled (call.run.final s)) (other : call ≠ .commit) :
    call.modeWaits s waits = waits := by
  have same : call.changesMode s = false := by
    unfold Call.changesMode
    rw [settled.vacuum, bne_self_eq_false]
  cases call
  case commit => exact absurd rfl other
  all_goals
    show (waits || _) = waits
    rw [same, Bool.or_false]

theorem KeepsMode.keep (keeps : KeepsMode waits s) {call : Call} (other : call ≠ .commit)
    (knows : ∀ {size}, Becomes size (fun d => waits = true ∨ Says size s.vacuum.Words d) none
      (Says size s.vacuum.Words) s s →
      Becomes size (fun d => waits = true ∨ Says size s.vacuum.Words d) none (Says size s.vacuum.Words) s
        (call.run.final s)) :
    KeepsMode (call.modeWaits s waits) (call.run.final s) := by
  obtain ⟨size, copies⟩ := keeps
  have becomes := knows ⟨copies, .refl s⟩
  rw [modeWaits_of_settled becomes.settled other]
  exact .of_becomes becomes

theorem setMode_words (value : UInt32) (copies : Copies size begun none (Says size s.vacuum.Words) s.pager)
    (enabled : s.vacuum.isEnabled = true) :
    Ends (setMetaValue modeIndex value.toNat) s
      (fun _ t => Copies size begun none (Says size t.vacuum.Words) t.pager)
      (fun t => Copies size begun none (Says size s.vacuum.Words) t.pager) := by
  have changed : ∀ root mode : Nat, s.vacuum.Words root mode →
      (VacuumMode.ofWord value.toNat).Words root value.toNat := fun root mode words => words.withMode enabled
  have same : ∀ root : Nat, s.vacuum.Words root value.toNat → ∀ root mode,
      s.vacuum.Words root mode → (VacuumMode.ofWord value.toNat).Words root mode := by
    intro root words old mode others
    rw [VacuumMode.Words.ofWord_eq words enabled]
    exact others
  refine (setMode_ends value.toNat_lt copies enabled changed same).imp ?_ fun t becomes => becomes.copies
  intro _ t _ becomes
  have vacuum : t.vacuum = .ofWord value.toNat := becomes.settled.vacuum
  exact vacuum ▸ becomes.copies

theorem KeepsMode.setMode (keeps : KeepsMode waits s) (value : UInt32)
    (kept : (Call.setMeta modeIndex value).keepsMode s waits = true) :
    KeepsMode ((Call.setMeta modeIndex value).modeWaits s waits) ((Call.setMeta modeIndex value).run.final s) := by
  obtain ⟨size, copies⟩ := keeps
  let act := setMetaValue modeIndex value.toNat
  change (act.succeeds s || !((act.final s).vacuum != s.vacuum)) = true at kept
  show KeepsMode (waits || ((act.final s).vacuum != s.vacuum)) (act.final s)
  cases enabled : s.vacuum.isEnabled with
  | false =>
    rw [Action.final_of_error (setMode_plain value.toNat enabled), bne_self_eq_false, Bool.or_false]
    exact ⟨size, copies⟩
  | true =>
    have ends := setMode_words value copies enabled
    cases run : act s with
    | ok a t =>
      rw [Action.final_of_ok run]
      refine ⟨size, (ends.ok run).weaken fun d known => ?_⟩
      cases same : t.vacuum != s.vacuum with
      | true => exact .inl (Bool.or_true waits)
      | false =>
        rw [bne_eq_false_iff_eq.mp same, Bool.or_false]
        exact known
    | error e t =>
      rw [Action.succeeds_of_error run, Action.final_of_error run, Bool.false_or, Bool.not_eq_true'] at kept
      rw [Action.final_of_error run, kept, Bool.or_false]
      exact ⟨size, bne_eq_false_iff_eq.mp kept ▸ ends.error run⟩

theorem KeepsMode.commit (keeps : KeepsMode waits s) :
    KeepsMode (Call.commit.modeWaits s waits) (Call.commit.run.final s) := by
  obtain ⟨size, copies⟩ := keeps
  have ends := commit_ends ⟨copies, .refl s⟩
  show KeepsMode (waits && !Database.commit.succeeds s) (Database.commit.final s)
  cases run : Database.commit s with
  | ok a t =>
    obtain ⟨copiesT, settled⟩ := ends.ok run
    rw [Action.final_of_ok run, Action.succeeds_of_ok run, Bool.not_true, Bool.and_false]
    exact ⟨size, settled.vacuum ▸ copiesT.weaken fun d => .inr⟩
  | error e t =>
    obtain ⟨copiesT, settled⟩ := ends.error run
    rw [Action.final_of_error run, Action.succeeds_of_error run, Bool.not_false, Bool.and_true]
    exact ⟨size, settled.vacuum ▸ copiesT.weaken fun d => Or.rec id .inr⟩

theorem KeepsMode.rollback (keeps : KeepsMode waits s) (idle : waits = false) :
    KeepsMode (Call.rollback.modeWaits s waits) (Call.rollback.run.final s) := by
  refine keeps.keep nofun fun {size} becomes => ?_
  have back : ∀ d, waits = true ∨ Says size s.vacuum.Words d → Says size s.vacuum.Words d :=
    fun d known => known.resolve_left (by rw [idle]; decide)
  refine ((rollback_ends becomes).imp (fun _ t _ becomesT => ?_) fun _ => False.elim).final
  exact ⟨becomesT.copies.imp back, becomesT.settled⟩

theorem KeepsMode.step (keeps : KeepsMode waits s) (call : Call) (kept : call.keepsMode s waits = true) :
    KeepsMode (call.modeWaits s waits) (call.run.final s) := by
  rcases call.kinds with quiet | ⟨kind, rfl⟩ | ⟨root, rfl⟩ | rfl | rfl | ⟨value, rfl⟩
  · refine keeps.keep ?_ fun becomes => becomes.quietly quiet
    rintro rfl
    cases quiet
  · refine keeps.keep nofun fun becomes => ?_
    rw [Call.createTree_final]
    exact createTree_keeps becomes kind
  · refine keeps.keep nofun fun becomes => ?_
    rw [Call.dropTree_final]
    exact dropTree_keeps becomes root
  · exact keeps.commit
  · exact keeps.rollback (by simpa [Call.keepsMode] using kept)
  · exact keeps.setMode value kept

theorem KeepsMode.run (keeps : KeepsMode waits s) {calls : List Call}
    (kept : Call.keepMode s waits calls = true) :
    KeepsMode (Call.modeWaitsAfter s waits calls) (Call.runAll s calls) := by
  induction calls generalizing s waits with
  | nil => exact keeps
  | cons call rest ih =>
    obtain ⟨first, later⟩ := Bool.and_eq_true_iff.mp kept
    exact ih (keeps.step call first) later

/-- In every run from a database that was opened, in which each change of the mode that reaches the handle
reaches the header too and is committed before the next rollback, the handle is in the mode that the
header records. Whoever opens the file when no change waits for its commit finds this mode as well. -/
theorem mode_coherent (opened : Opened s) {calls : List Call} (kept : Call.keepMode s false calls = true) :
    Coherent (Call.runAll s calls) ∧
      (Call.modeWaitsAfter s false calls = false → ∀ {c t},
        openFile { bytes := (Call.runAll s calls).pager.file.bytes } c = .ok t →
          t.vacuum = (Call.runAll s calls).vacuum) := by
  have keeps := opened.keepsMode.run kept
  refine ⟨keeps.coherent, fun idle {c t} run => ?_⟩
  rw [idle] at keeps
  exact keeps.reopened run

def switch : List Call := [.setMeta modeIndex 1, .commit, .rollback]

theorem mode_coherent_switched : ∃ s, inMemory compact = .ok s ∧ Call.keepMode s false switch = true ∧
    Coherent (Call.runAll s switch) := by
  obtain ⟨s, made, ready⟩ := inMemory_run (c := compact) rfl
  obtain ⟨follows, rests⟩ := inMemory_ok made
  have enabled : s.vacuum.isEnabled = true := follows.vacuum ▸ rfl
  obtain ⟨_, t, changed, readyT⟩ := (ready.setMode_ends enabled 1).returns
  have becomes : Becomes s.pager.pageSize _ none (Says s.pager.pageSize fun _ _ => True)
      { s with vacuum := .incremental } t :=
    (setMode_ends (by decide) rests enabled (fun _ _ _ => trivial) fun _ _ _ _ _ => trivial).ok changed
  have mode : t.vacuum = .incremental := becomes.settled.vacuum
  have lazy : t.vacuum ≠ .full := mode ▸ nofun
  obtain ⟨_, u, committed, -⟩ := (readyT.commit_ends lazy).returns
  have kept : Call.keepMode s false switch = true := by
    have first : (Call.setMeta modeIndex 1).run s = .ok () t := changed
    have second : Call.commit.run t = .ok () u := committed
    simp only [switch, Call.keepMode, Call.keepsMode, Call.modeWaits, Action.final_of_ok first,
      Action.succeeds_of_ok first, Action.succeeds_of_ok second, Bool.true_or, Bool.not_true,
      Bool.and_false, Bool.not_false, Bool.and_true]
  exact ⟨s, made, kept, (mode_coherent (.inr ⟨compact, made⟩) kept).1⟩

end Database

end TreeFile
