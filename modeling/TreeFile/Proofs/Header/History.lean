import TreeFile.Proofs.Database.Creating
import TreeFile.Proofs.Database.VacuumSteps
import TreeFile.Proofs.Header.Updates
import TreeFile.Proofs.Store.FileLength

/-!
The header through all the calls of a run on a new database. Trees may be changed through cursors that hold old
copies of page 1, in any order with calls that set words of the header. None of these words is lost, and a call
that changes a tree sets no other ones than those of the freelist.
-/

namespace TreeFile

open FileHeader
open HeaderUpdate (Among)
open Pager (Carries Copies Heads)
open Store (Becomes onPager)
open Database (metaOffset)

def Store.fileHeader (s : Store) : Bytes := (s.pager.image 1).extract 0 fileHeaderSize

def Database.Created (c : Config) (s : Store) : Prop :=
  inMemory c = .ok s ∨ ∃ file : File, file.bytes.size = 0 ∧ openFile file c = .ok s

/-- What a call may do to the header. If it may move pages it may link page 1 to another page, as far as the code
goes; but then the file has as many pages as its first word says. -/
@[reducible] def Call.sets : Call → HeaderUpdate → Prop
  | statement (.createTree _) => Among [firstTrunkOffset, freeCountOffset, largestRootOffset, 0]
  | statement (.dropTree _) => Among [firstTrunkOffset, freeCountOffset, largestRootOffset]
  | statement .vacuumStep => Among [firstTrunkOffset, freeCountOffset, 0]
  | statement _ => Among [firstTrunkOffset, freeCountOffset]
  | commit => Among [firstTrunkOffset, freeCountOffset, 0, changeCounterOffset, databaseSizeOffset,
      versionValidForOffset, libraryVersionOffset]
  | setMeta i value => fun u => u = ⟨metaOffset i, value.toNat⟩
  | _ => fun _ => False

def Database.stamps (header : Bytes) (count : Nat) : List HeaderUpdate :=
  let counter := (header.at32 changeCounterOffset + 1) % UInt32.size
  [⟨changeCounterOffset, counter⟩, ⟨databaseSizeOffset, count⟩, ⟨versionValidForOffset, counter⟩,
    ⟨libraryVersionOffset, currentLibraryVersion.toNat⟩]

/-- A call leaves the header as it was but for the words that it sets, one after the other. The very first word is
only among them if the file may have as many pages as that says. -/
structure Call.OnlySets (call : Call) (many : Prop) (s : Store) : Prop where
  logged : ∃ log, Logs false call.run s log ∧ ∀ u ∈ log, call.sets u ∧ (u.offset = 0 → many)
  sound : ∀ {log}, Logs false call.run s log → (call.run.final s).fileHeader = updateAll s.fileHeader log
  value : ∀ {i value t}, call = setMeta i value → call.run s = .ok () t →
    t.fileHeader = update s.fileHeader ⟨metaOffset i, value.toNat⟩
  stamped : ∀ {t}, call = commit → s.pager.state = .writing → s.vacuum ≠ .full → call.run s = .ok () t →
    t.fileHeader = updateAll s.fileHeader (Database.stamps s.fileHeader s.pageCount)

theorem Pager.Carries.fileHeader {size : Nat} {opened : Option (Bytes → Prop)} {header : Bytes} {s : Store}
    (carries : Carries size opened header s.pager) : s.fileHeader = header := by
  have raw : s.pager.image 1 = s.pager.raw 1 := if_neg (Nat.not_lt.mpr carries.count.1)
  unfold Store.fileHeader
  rw [raw]
  exact carries.starts.now.same

namespace Database

variable {size : Nat} {many : Prop} {header : Bytes} {s t : Store}

theorem commit_logged (short : ¬ many → s.pageCount < mark) :
    (Trait.logged size many none Call.commit.sets).holds commit s := by
  have set {offset : Nat} (value : Nat) (apart : 4 ≤ offset) (inside : offset + 4 ≤ fileHeaderSize)
      (place : Call.commit.sets ⟨offset, value⟩) :
      Obeys (.logged size many none Call.commit.sets) (Store.setHeaderWord offset value) :=
    Store.setHeaderWord_logged place apart inside
  have stamps : Obeys (.logged size many none Call.commit.sets) stampHeader := by
    unfold stampHeader
    refine .andThen inferInstance fun counter => ?_
    refine .andThen (set _ (by decide) (by decide) ?_) fun _ => .andThen inferInstance fun s => ?_
    · exact show changeCounterOffset ∈ _ by decide
    refine .andThen (set _ (by decide) (by decide) ?_) fun _ => ?_
    · exact show databaseSizeOffset ∈ _ by decide
    refine .andThen (set _ (by decide) (by decide) ?_) fun _ => set _ (by decide) (by decide) ?_
    · exact show versionValidForOffset ∈ _ by decide
    · exact show libraryVersionOffset ∈ _ by decide
  have ends : Obeys (.logged size many none Call.commit.sets) (onPager Pager.commit) :=
    ⟨fun s => Trait.logged_nil (.commit s)⟩
  have links : (Trait.logged size many none Call.commit.sets).Links s.pageCount :=
    Store.links_logged short fun _ => show 0 ∈ _ by decide
  unfold commit inTransaction
  refine Trait.Reading.bind (Obeys.obeys s) fun writing t asked => ?_
  cases asked
  split
  · refine Trait.Reading.bind (Obeys.obeys s) fun _ t asked => ?_
    cases asked
    dsimp only
    split
    · refine Trait.Reading.bind (Obeys.obeys s) fun _ t asked => ?_
      cases asked
      exact Trait.Reading.bind (Vacuum.run_holds links _ (Nat.le_refl _)) fun _ t _ => Obeys.obeys t
    · exact Obeys.obeys s
  · exact Obeys.obeys s

theorem setMetaValue_logged (i : Nat) (value : UInt32) :
    Obeys (.logged size many none (Call.setMeta i value).sets) (setMetaValue i value.toNat) := by
  have place : metaOffset i = 36 + 4 * i := rfl
  unfold setMetaValue
  dsimp only
  split
  · infer_instance
  rename_i inside
  have fifteen : i < 15 := Nat.lt_of_not_le inside
  have set : Obeys (.logged size many none (Call.setMeta i value).sets)
      (Store.setHeaderWord (metaOffset i) value.toNat) :=
    Store.setHeaderWord_logged rfl (by omega) (show metaOffset i + 4 ≤ 100 by omega)
  split
  · infer_instance
  split
  · refine .andThen inferInstance fun s => ?_
    split
    · infer_instance
    · exact .andThen ⟨fun _ => Trait.logged_nil (.still rfl)⟩ fun _ => set
  · exact set

theorem setMetaValue_carries {i value : Nat} (carries : Carries size none header s.pager)
    (run : setMetaValue i value s = .ok () t) : Carries size none (update header ⟨metaOffset i, value⟩) t.pager := by
  have place : metaOffset i = 36 + 4 * i := rfl
  unfold setMetaValue at run
  dsimp only at run
  split at run
  · exact absurd run Action.throw_bind_ok
  rename_i inside
  have fifteen : i < 15 := Nat.lt_of_not_le inside
  have set {u : Store} (run : Store.setHeaderWord (metaOffset i) value u = .ok () t) (same : u.pager = s.pager) :
      Carries size none (update header ⟨metaOffset i, value⟩) t.pager :=
    (Store.setHeaderWord_carries (same ▸ carries) (show metaOffset i + 4 ≤ 100 by omega) value).ok run
  split at run
  · exact absurd run Action.throw_bind_ok
  split at run
  · rw [Action.get_bind] at run
    split at run
    · exact absurd run Action.throw_bind_ok
    · rw [Action.modify_bind] at run
      exact set run rfl
  · exact set run rfl

theorem stampHeader_carries (carries : Carries size none header s.pager) (run : stampHeader s = .ok () t) :
    Carries size none (updateAll header (stamps header s.pageCount)) t.pager := by
  have becomes : Becomes size (fun _ => True) none (Headed size header) s s := ⟨carries, .refl s⟩
  unfold stampHeader at run
  obtain ⟨counter, u, counted, run⟩ := Action.bind_ok.mp run
  obtain ⟨becomesU, d, headed, rfl⟩ := (becomes.word (by decide)).ok counted
  rw [← headed.at32 (by decide)] at run
  obtain ⟨_, v, first, run⟩ := Action.bind_ok.mp run
  have carriesV := (Store.setHeaderWord_carries becomesU.copies (by decide) _).ok first
  have count : v.pageCount = s.pageCount := (KeepsLength.run first).trans (KeepsLength.run counted)
  rw [Action.get_bind, count] at run
  obtain ⟨_, w, second, run⟩ := Action.bind_ok.mp run
  have carriesW := (Store.setHeaderWord_carries carriesV (by decide) _).ok second
  obtain ⟨_, x, third, last⟩ := Action.bind_ok.mp run
  have carriesX := (Store.setHeaderWord_carries carriesW (by decide) _).ok third
  exact (Store.setHeaderWord_carries carriesX (by decide) _).ok last

theorem commit_carries (carries : Carries size none header s.pager) (writing : s.pager.state = .writing)
    (lazy : s.vacuum ≠ .full) (run : commit s = .ok () t) :
    Carries size none (updateAll header (stamps header s.pageCount)) t.pager := by
  have inside : inTransaction s = .ok true s := congrArg (EStateM.Result.ok · s) (decide_eq_true writing)
  unfold commit at run
  rw [Action.bind_of_ok inside, if_pos rfl, Action.get_bind] at run
  dsimp only at run
  rw [if_neg lazy] at run
  obtain ⟨_, u, stamped, ended⟩ := Action.bind_ok.mp run
  have last := Store.onPager_carries (stampHeader_carries carries stamped).commit
  rw [Action.final_of_ok ended] at last
  exact last

end Database

namespace Call

variable {size : Nat} {many : Prop} {s : Store}

/-- A call that cannot do more to the header than to set these words does only that, and all of it is logged. -/
theorem statement_logged (statement : Statement) (short : ¬ many → s.pageCount < mark) :
    (Trait.logged size many none (Call.statement statement).sets).holds statement.run s := by
  cases statement with
  | createTree kind =>
    have links (S : Bytes → Prop) :
        (Trait.logged size many (some S) (Call.statement (.createTree kind)).sets).Links s.pageCount :=
      Store.links_logged short fun _ => show 0 ∈ _ by decide
    refine Trait.Reading.bind (Store.atomically_logged fun S t count => ?_) fun _ t _ => Obeys.obeys t
    exact Tree.create_holds kind (count ▸ links S)
  | dropTree root =>
    have drops : Obeys (.logged size many none (Call.statement (.dropTree root)).sets)
        (Statement.dropTree root).run := by
      unfold Statement.run Database.dropTree
      infer_instance
    exact drops.obeys s
  | vacuumStep =>
    have links (S : Bytes → Prop) :
        (Trait.logged size many (some S) (Call.statement .vacuumStep).sets).Links s.pageCount :=
      Store.links_logged short fun _ => show 0 ∈ _ by decide
    refine Trait.Reading.bind ?_ fun _ t _ => Obeys.obeys t
    unfold Database.vacuumStep
    refine Trait.Reading.bind (Obeys.obeys s) fun _ t asked => ?_
    cases asked
    split
    · exact Store.atomically_logged fun S t count => Vacuum.step_holds (count ▸ links S)
    · exact Obeys.obeys s
  | _ => exact Obeys.obeys s

theorem logged {call : Call} (going : call ≠ rollback) (short : ¬ many → s.pageCount < mark) :
    (Trait.logged size many none call.sets).holds call.run s := by
  cases call with
  | query query =>
    show (Trait.logged size many none _).holds query.run s
    exact Obeys.obeys s
  | statement statement => exact statement_logged statement short
  | begin => exact Trait.logged_nil (.begin s)
  | commit => exact Database.commit_logged short
  | rollback => exact absurd rfl going
  | setMeta i value => exact (Database.setMetaValue_logged i value).obeys s
  | refuse refusal => exact Trait.logged_nil (.refuse refusal s)

end Call

namespace Call

theorem runAll_heads {size : Nat} {many : Prop} {s : Store} {calls : List Call}
    (heads : Heads size many none s.fileHeader s.pager) (going : rollback ∉ calls)
    (short : ¬ many → ∀ past, past <+: calls → (runAll s past).pageCount < mark) :
    Heads size many none (runAll s calls).fileHeader (runAll s calls).pager := by
  induction calls generalizing s with
  | nil => exact heads
  | cons call rest ih =>
    rw [List.mem_cons, not_or] at going
    obtain ⟨log, logged⟩ := logged (Ne.symm going.1) (fun few => short few [] List.nil_prefix) _ heads
    have after := logged.heads heads
    refine ih (after.carries.fileHeader.symm ▸ after) going.2 fun few past ahead => ?_
    exact short few (call :: past) ((List.prefix_cons_inj call).mpr ahead)

end Call

namespace Database

variable {c : Config} {s : Store}

theorem Created.heads (created : Created c s) (many : Prop) :
    Heads s.pager.pageSize many none (FileHeader.ofConfig c).encode s.pager := by
  have size := (FileHeader.ofConfig c).size_encode
  obtain ⟨long, copies⟩ : fileHeaderSize ≤ s.pager.pageSize ∧ ∀ {Q : Bytes → Prop},
      (∀ d : Bytes, d.size = s.pager.pageSize →
        Bytes.SameOn (FileHeader.ofConfig c).encode d 0 fileHeaderSize → Q d) →
          Copies s.pager.pageSize Q none Q s.pager := by
    rcases created with run | ⟨file, empty, run⟩
    · obtain ⟨valid, f, none, made⟩ := inMemory_new run
      exact (ofPager_format valid none made).2
    · obtain ⟨valid, f, same, ⟨none, made⟩ | ⟨h, parsed, -⟩⟩ := openFile_cases run
      · exact (ofPager_format valid none made).2
      · have long := parse_long parsed
        rw [same, empty] at long
        exact absurd long (by decide)
  refine ⟨(copies fun d sized same => ?_).weaken fun _ _ => trivial, fun _ => ?_⟩
  · exact headed_of_get sized long size fun i low => same i (Nat.zero_le _) low
  · exact (FileHeader.ofConfig c).encode_starts.at32 (Nat.zero_le _) (by decide)

/-- No word of the header is lost. A new database has the header that its settings ask for, and whatever calls came
before, the next one only sets words of it that it may set. -/
theorem header_updates (created : Created c s) :
    s.fileHeader = (FileHeader.ofConfig c).encode ∧
      ∀ (before : List Call) (call : Call), .rollback ∉ before ++ [call] →
        call.OnlySets (∃ past, past <+: before ∧ mark ≤ (Call.runAll s past).pageCount) (Call.runAll s before) := by
  refine ⟨(created.heads True).carries.fileHeader, fun before call going => ?_⟩
  rw [List.mem_append, not_or, List.mem_singleton] at going
  let many := ∃ past, past <+: before ∧ mark ≤ (Call.runAll s past).pageCount
  have short (few : ¬ many) (past : List Call) (ahead : past <+: before) : (Call.runAll s past).pageCount < mark :=
    Nat.lt_of_not_le fun enough => few ⟨past, ahead, enough⟩
  have first := created.heads many
  have heads := Call.runAll_heads (first.carries.fileHeader.symm ▸ first) going.1 short
  obtain ⟨log, logged⟩ := Call.logged (Ne.symm going.2) (fun few => short few before List.prefix_rfl) _ heads
  refine ⟨⟨log, logged.logs, logged.may⟩, fun logs => (logs.sound rfl heads.carries).fileHeader, ?_, ?_⟩
  · rintro i value t rfl run
    exact (setMetaValue_carries heads.carries run).fileHeader
  · rintro t rfl writing lazy run
    exact (commit_carries heads.carries writing lazy run).fileHeader

/-- Page 1 is emptied after a page was taken and a value was set. -/
theorem header_updates_emptied : ∃ s, Created compact s ∧
    (Call.statement (.clearTree 1)).OnlySets
      (∃ past, past <+: [.statement .allocatePage, .setMeta 1 9] ∧ mark ≤ (Call.runAll s past).pageCount)
      (Call.runAll s [.statement .allocatePage, .setMeta 1 9]) := by
  obtain ⟨s, run, -⟩ := inMemory_run (c := compact) rfl
  exact ⟨s, .inl run, (header_updates (.inl run)).2 _ _ (by simp)⟩

end Database

end TreeFile
