import TreeFile.Proofs.Database.Opening
import TreeFile.Proofs.Page.Progress

/-!
What cannot fail while the file refuses nothing: making a new database, setting a word of its header, and
committing when there is nothing to vacuum.
-/

namespace TreeFile

open Action (Ends)
open Pager (Sound)

theorem FileHeader.write_run (h : FileHeader) {n : Nat} {d : Bytes} (size : d.size = n)
    (long : fileHeaderSize ≤ n) : ∃ d', h.write d = .ok () d' ∧ d'.size = n := by
  have size' := h.size_encode
  unfold write
  -- the bytes of the header are not to be looked at
  generalize h.encode = src at size'
  have fits : 0 + src.size ≤ d.size := by
    rw [size', Nat.zero_add, size]
    exact long
  exact ⟨_, Bytes.putOr_ok.mpr ⟨fits, rfl⟩, (Bytes.size_overwrite fits).trans size⟩

namespace Database

variable {c : Config} {s t : Store}

/-- A store whose file refuses nothing, with a page 1 that a header fits into. -/
structure Ready (s : Store) : Prop where
  sound : s.pager.Sound
  first : 1 ≤ s.pager.pageCount
  long : fileHeaderSize ≤ s.pager.pageSize

theorem format_run (c : Config) (sound : s.pager.Sound) (geometry : (s.geometry 1).Sound)
    (size : s.pager.pageSize = s.pageSize) (long : fileHeaderSize ≤ s.pageSize)
    (some : 1 ≤ s.pager.maxPages) : ∃ t, format c s = .ok () t ∧ Ready t := by
  obtain ⟨page, emptied, sizePage⟩ := Page.empty_run 1 (.leaf .table) s.limits geometry
  have sizePage : page.data.size = s.pageSize := sizePage
  obtain ⟨data, written, sizeData⟩ := (FileHeader.ofConfig c).write_run sizePage long
  obtain ⟨q, begun, soundQ, -, -, -, steadyQ⟩ := Pager.begin_run sound
  have large : data.size = q.pageSize := sizeData.trans (size.symm.trans steadyQ.pageSize.symm)
  obtain ⟨r, put, soundR, steadyR, pagesR⟩ :=
    Pager.write_run soundQ Nat.one_ne_zero (steadyQ.maxPages ▸ some) large
  obtain ⟨u, committed, soundU, pagesU, -, -, sizeU, -⟩ := Pager.commit_run soundR
  have run : format c s = .ok () { s with pager := u } :=
    Action.bind_ok.mpr ⟨page, s, Action.lift_ok.mpr ⟨emptied, rfl⟩,
      Action.lift_bind_ok.mpr ⟨data, Action.applied_ok.mpr written,
        Action.bind_ok.mpr ⟨(), { s with pager := q }, Store.onPager_ok.mpr ⟨q, begun, rfl⟩,
          Action.bind_ok.mpr ⟨(), { s with pager := r }, Store.onPager_ok.mpr ⟨r, put, rfl⟩,
            Store.onPager_ok.mpr ⟨u, committed, rfl⟩⟩⟩⟩⟩
  refine ⟨_, run, soundU, ?_, ?_⟩
  · have count : u.pageCount = max q.pageCount 1 :=
      congrArg Pages.count (pagesU.trans (pagesR (Nat.le_add_left 1 _)))
    exact count ▸ Nat.le_max_right _ _
  · have same : u.pageSize = s.pageSize :=
      sizeU.trans (steadyR.pageSize.trans (steadyQ.pageSize.trans size))
    exact same ▸ long

theorem maxPages_pos (valid : c.validate = .ok ()) : 1 ≤ c.maxPages.toNat := by
  unfold Config.validate at valid
  split at valid
  · cases valid
  split at valid
  · cases valid
  split at valid
  · cases valid
  split at valid
  · cases valid
  rename_i some
  exact UInt32.le_iff_toNat_le.mp (UInt32.not_lt.mp some)

theorem inMemory_run (valid : c.validate = .ok ()) : ∃ s, inMemory c = .ok s ∧ Ready s := by
  obtain ⟨isSize, usable, -⟩ := Config.validate_ok valid
  obtain ⟨low, high⟩ := isPageSize_bounds isSize
  let p : Pager := { Pager.upon {} c.pageSize with
    inMemory := true
    maxPages := max c.maxPages.toNat (Pager.upon {} c.pageSize).pageCount }
  have sound : p.Sound := Pager.sound_of_unread rfl (show 0 < c.pageSize by omega)
    (Nat.le_max_right _ _) rfl rfl rfl rfl
  have some : 1 ≤ p.maxPages := Nat.le_trans (maxPages_pos valid) (Nat.le_max_left _ _)
  have geometry : ((Store.ofConfig p c).geometry 1).Sound := ⟨Nat.sub_le _ _, high, usable, Nat.le_refl _⟩
  have long : fileHeaderSize ≤ c.pageSize := Nat.le_trans (by decide) low
  obtain ⟨t, run, ready⟩ := format_run c (s := Store.ofConfig p c) sound geometry rfl long some
  refine ⟨t, ?_, ready⟩
  unfold inMemory Pager.ownFile
  rw [valid, Except.ok_bind, Pager.ofFile_run rfl, Except.ok_bind]
  exact Action.applied_ok.mpr run

def compact : Config := { pageSize := 512, vacuum := .full }

namespace Ready

theorem readPage_ends (ready : Ready s) :
    Ends (Store.readPage 1) s (fun d t => d.size = t.pager.pageSize ∧ Ready t) fun _ => False := by
  obtain ⟨p, read, sound, similar⟩ :=
    Store.readPage_of_sound ready.sound Nat.one_ne_zero ready.first
  have count : p.pageCount = s.pager.pageCount := similar.pageCount
  refine .of_ok read ⟨?_, sound, count ▸ ready.first, similar.pageSize ▸ ready.long⟩
  rw [Pager.image_eq, Pager.size_image ready.sound]
  exact similar.pageSize.symm

theorem putPage_ends (ready : Ready s) {d : Bytes} (size : d.size = s.pager.pageSize) :
    Ends (Store.putPage 1 d) s (fun _ => Ready) fun _ => False := by
  obtain ⟨q, written, sound, steady, pages⟩ := Pager.write_run ready.sound Nat.one_ne_zero
    (Nat.le_trans ready.first ready.sound.count) size
  have count : q.pageCount = max s.pager.pageCount 1 :=
    congrArg Pages.count (pages (Nat.le_add_left 1 _))
  refine .of_ok (Store.onPager_ok.mpr ⟨q, written, rfl⟩) ⟨sound, ?_, steady.pageSize ▸ ready.long⟩
  exact count ▸ Nat.le_max_right _ _

variable {offset : Nat}

theorem headerWord_ends (ready : Ready s) (inside : offset + 4 ≤ fileHeaderSize) :
    Ends (Store.headerWord offset) s (fun _ => Ready) fun _ => False := by
  refine ready.readPage_ends.bind fun d t _ ⟨size, readyT⟩ => ?_
  rw [Bytes.u32_of_le (Nat.le_trans inside (size ▸ readyT.long))]
  exact .of_ok rfl readyT

theorem setHeaderWord_ends (ready : Ready s) (inside : offset + 4 ≤ fileHeaderSize) (value : Nat) :
    Ends (Store.setHeaderWord offset value) s (fun _ => Ready) fun _ => False := by
  refine ready.readPage_ends.bind fun d t _ ⟨size, readyT⟩ => ?_
  have fits : offset + 4 ≤ d.size := Nat.le_trans inside (size ▸ readyT.long)
  refine .lift (Bytes.u32_of_le fits) ?_
  split
  · refine .lift (Action.applied_ok.mpr (Bytes.putU32_ok.mpr ⟨fits, rfl⟩)) (readyT.putPage_ends ?_)
    exact (Bytes.size_overwrite fits).trans size
  · exact .of_ok rfl readyT

theorem stampHeader_ends (ready : Ready s) : Ends stampHeader s (fun _ => Ready) fun _ => False := by
  refine (ready.headerWord_ends (by decide)).bind fun _ _ _ ready => ?_
  refine (ready.setHeaderWord_ends (by decide) _).bind fun _ _ _ ready => .get ?_
  refine (ready.setHeaderWord_ends (by decide) _).bind fun _ _ _ ready => ?_
  refine (ready.setHeaderWord_ends (by decide) _).bind fun _ _ _ ready => ?_
  exact ready.setHeaderWord_ends (by decide) _

theorem commit_ends (ready : Ready s) (lazy : s.vacuum ≠ .full) :
    Ends commit s (fun _ => Ready) fun _ => False := by
  have last : ∀ t, Ready t →
      Ends (do stampHeader; Store.onPager Pager.commit : StoreM Unit) t (fun _ => Ready) fun _ => False := by
    refine fun t ready => ready.stampHeader_ends.bind fun _ u _ ready => ?_
    obtain ⟨q, committed, sound, pages, -, -, size, -⟩ := Pager.commit_run ready.sound
    have count : q.pageCount = u.pager.pageCount := congrArg Pages.count pages
    exact .of_ok (Store.onPager_ok.mpr ⟨q, committed, rfl⟩) ⟨sound, count ▸ ready.first, size ▸ ready.long⟩
  unfold commit inTransaction
  refine .get ?_
  by_cases writing : s.pager.state = .writing
  · rw [if_pos (decide_eq_true writing)]
    refine .get ?_
    rw [if_neg lazy]
    exact last s ready
  · rw [if_neg (by rw [decide_eq_true_eq]; exact writing)]
    exact .of_ok rfl ready

theorem setMode_ends (ready : Ready s) (enabled : s.vacuum.isEnabled = true) (value : Nat) :
    Ends (setMetaValue modeIndex value) s (fun _ => Ready) fun _ => False := by
  unfold setMetaValue
  dsimp only
  rw [if_neg (by decide), if_neg (by decide), if_pos (by decide)]
  refine .get ?_
  rw [if_neg (by rw [enabled]; decide)]
  have inside : FileHeader.incrementalVacuumOffset + 4 ≤ fileHeaderSize := by decide
  have after : ∀ vacuum, Ready { s with vacuum } := fun _ => ⟨ready.sound, ready.first, ready.long⟩
  exact .modify ((after _).setHeaderWord_ends inside value)

end Ready

end Database

end TreeFile
