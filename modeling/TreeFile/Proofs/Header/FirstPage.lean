import TreeFile.Proofs.Cursor.Effects
import TreeFile.Proofs.Pager.SparedPages

/-!
Page 1 through all that can happen to a pager. Besides the page as it is now there is the one in the
file, the one that a rollback brings back and the one that a savepoint does. What is known of the
header on each of them lasts as long as no word of it is set, also on a file that refuses calls.
-/

namespace TreeFile

/-- Something that is known of page 1, which has room for a header. -/
class FileHeader.Sized (size : Nat) (Q : Bytes → Prop) : Prop where
  sized : ∀ {d}, Q d → d.size = size
  long : ∀ {d}, Q d → fileHeaderSize ≤ size

class FileHeader.Lasting (size : Nat) (Q : Bytes → Prop) : Prop extends Sized size Q where
  alike : ∀ {d e}, e.size = size → Alike d e → Q d → Q e

open FileHeader (Lasting)
open Action (Ends)

namespace Pager

variable {p q r : Pager} {size : Nat} {Q : Bytes → Prop}

/-- Page 1 is like this, also if its image is dropped from the cache. -/
structure Starts (Q : Bytes → Prop) (p : Pager) : Prop where
  now : Q (p.raw 1)
  kept : Q (p.fileImage 1) ∨ Dirty p 1

theorem Starts.imp {Q' : Bytes → Prop} (starts : Starts Q p) (imp : ∀ d, Q d → Q' d) : Starts Q' p :=
  ⟨imp _ starts.now, starts.kept.imp_left (imp _)⟩

def Backed (Q : Bytes → Prop) (p : Pager) : Prop :=
  (p.state = .writing ∧ ∃ d, p.journal[1]? = some d ∧ Q d) ∨
    (p.state = .writing → p.journal[1]? = none) ∧ Q (p.raw 1)

/-- No savepoint is open, or one is, and with it page 1 will be like this after going back to it. -/
def Opened (p : Pager) : Option (Bytes → Prop) → Prop
  | none => p.savepoints = []
  | some Q => p.state = .writing ∧ ∃ s, p.savepoints = [s] ∧
      (1 ≤ s.pageCount ∧ s.pageCount ≤ p.maxPages) ∧
      ((∃ d, s.undo[1]? = some d ∧ Q d ∧ 1 ∈ p.journal) ∨ s.undo[1]? = none ∧ Starts Q p)

/-- What page 1 was when the transaction began and when the savepoint was opened, if one is, and
what it is now. -/
structure Copies (size : Nat) (begun : Bytes → Prop) (opened : Option (Bytes → Prop))
    (now : Bytes → Prop) (p : Pager) : Prop where
  pageSize : p.pageSize = size
  room : p.maxPages < 4294967296
  count : 1 ≤ p.pageCount ∧ p.pageCount ≤ p.maxPages
  start : 1 ≤ p.startCount ∧ p.startCount ≤ p.maxPages
  starts : Starts now p
  busy : Dirty p 1 → p.state = .writing
  filed : begun (p.fileImage 1)
  backed : Backed begun p
  opened : Opened p opened

theorem Copies.imp {begun now next : Bytes → Prop} {opened : Option (Bytes → Prop)}
    (copies : Copies size begun opened now p) (imp : ∀ d, now d → next d) :
    Copies size begun opened next p :=
  ⟨copies.pageSize, copies.room, copies.count, copies.start, copies.starts.imp imp, copies.busy,
    copies.filed, copies.backed, copies.opened⟩

/-- Nothing happens to page 1, but its image may be dropped from the cache or loaded. -/
structure Spares (p q : Pager) : Prop where
  pageSize : q.pageSize = p.pageSize
  maxPages : q.maxPages = p.maxPages
  startCount : q.startCount = p.startCount
  writing : q.state = .writing ↔ p.state = .writing
  file : q.fileImage 1 = p.fileImage 1
  dirty : Dirty q 1 ↔ Dirty p 1
  raw : q.raw 1 = p.raw 1 ∨ ¬ Dirty p 1 ∧ q.raw 1 = p.fileImage 1
  journal : q.journal[1]? = p.journal[1]?
  closed : p.savepoints = [] → q.savepoints = []
  opened : ∀ s, p.savepoints = [s] → ∃ t, q.savepoints = [t] ∧ t.pageCount = s.pageCount ∧
    t.undo[1]? = s.undo[1]?

theorem Spares.refl (p : Pager) : Spares p p :=
  ⟨rfl, rfl, rfl, .rfl, rfl, .rfl, .inl rfl, rfl, id, fun s one => ⟨s, one, rfl, rfl⟩⟩

theorem Spares.trans (first : Spares p q) (second : Spares q r) : Spares p r where
  pageSize := second.pageSize.trans first.pageSize
  maxPages := second.maxPages.trans first.maxPages
  startCount := second.startCount.trans first.startCount
  writing := second.writing.trans first.writing
  file := second.file.trans first.file
  dirty := second.dirty.trans first.dirty
  raw := by
    rcases second.raw with same | ⟨clean, dropped⟩
    · rcases first.raw with same' | ⟨clean, dropped⟩
      · exact .inl (same.trans same')
      · exact .inr ⟨clean, same.trans dropped⟩
    · exact .inr ⟨fun old => clean (first.dirty.mpr old), dropped.trans first.file⟩
  journal := second.journal.trans first.journal
  closed := fun none => second.closed (first.closed none)
  opened := by
    intro s one
    obtain ⟨t, one', count, undo⟩ := first.opened s one
    obtain ⟨u, one'', count', undo'⟩ := second.opened t one'
    exact ⟨u, one'', count'.trans count, undo'.trans undo⟩

theorem Spares.starts (spares : Spares p q) (starts : Starts Q p) : Starts Q q := by
  refine ⟨?_, ?_⟩
  · rcases spares.raw with same | ⟨clean, dropped⟩
    · exact same ▸ starts.now
    · exact dropped ▸ starts.kept.resolve_right clean
  · rw [spares.file, spares.dirty]
    exact starts.kept

theorem Copies.spared {begun now : Bytes → Prop} {opened : Option (Bytes → Prop)}
    (copies : Copies size begun opened now p) (spares : Spares p q)
    (count : 1 ≤ q.pageCount ∧ q.pageCount ≤ q.maxPages) : Copies size begun opened now q where
  pageSize := spares.pageSize.trans copies.pageSize
  room := spares.maxPages ▸ copies.room
  count := count
  start := by
    rw [spares.startCount, spares.maxPages]
    exact copies.start
  starts := spares.starts copies.starts
  busy := by
    rw [spares.dirty, spares.writing]
    exact copies.busy
  filed := spares.file ▸ copies.filed
  backed := by
    unfold Backed
    rw [spares.writing, spares.journal]
    refine copies.backed.imp_right fun ⟨lacks, now⟩ => ⟨lacks, ?_⟩
    rcases spares.raw with same | ⟨-, dropped⟩
    · exact same ▸ now
    · exact dropped ▸ copies.filed
  opened := by
    have before := copies.opened
    cases opened with
    | none => exact spares.closed before
    | some S =>
      obtain ⟨writing, s, one, bound, undo⟩ := before
      obtain ⟨t, one', count, same⟩ := spares.opened s one
      refine ⟨spares.writing.mpr writing, t, one', ?_, ?_⟩
      · rw [count, spares.maxPages]
        exact bound
      · rw [same, PageMap.mem_iff, spares.journal, ← PageMap.mem_iff]
        exact undo.imp_right fun ⟨lacks, starts⟩ => ⟨lacks, spares.starts starts⟩

theorem Spares.of_file {f : File} (same : fileImage { p with file := f } 1 = p.fileImage 1) :
    Spares p { p with file := f } := by
  refine ⟨rfl, rfl, rfl, .rfl, same, .rfl, .inl ?_, rfl, id, fun s one => ⟨s, one, rfl, rfl⟩⟩
  unfold Pager.raw
  rw [same]

theorem Spares.of_start {f : File} (same : ∀ i, i < p.pageSize → f.bytes.get! i = p.file.bytes.get! i) :
    Spares p { p with file := f } := by
  refine .of_file (Bytes.ext_get ?_ fun i low => ?_)
  · rw [size_fileImage, size_fileImage]
  · rw [size_fileImage] at low
    have low : i < p.pageSize := low
    rw [get_fileImage _ Nat.one_ne_zero, get_fileImage _ Nat.one_ne_zero]
    dsimp only
    rw [if_pos low, if_pos low, Nat.sub_self, Nat.zero_mul, Nat.zero_add]
    exact same i low

theorem Spares.of_bytes {f : File} (bytes : f.bytes = p.file.bytes) : Spares p { p with file := f } :=
  .of_file (by
    unfold fileImage
    rw [bytes])

theorem Passes.spares (passes : Passes 1 p q) : Spares p q where
  pageSize := passes.pageSize
  maxPages := passes.maxPages
  startCount := passes.startCount
  writing := passes.writing
  file := passes.file 1
  dirty := passes.dirty
  raw := by
    unfold Pager.raw
    rcases passes.cached with same | ⟨clean, dropped | ⟨-, loaded⟩⟩
    · rw [same, passes.file]
      exact .inl rfl
    · rw [dropped]
      exact .inr ⟨clean, passes.file 1⟩
    · rw [loaded]
      exact .inr ⟨clean, rfl⟩
  journal := passes.journal
  closed := by
    intro none
    have notes := passes.notes
    rw [none] at notes
    exact List.map_eq_nil_iff.mp notes
  opened := by
    intro s one
    have notes := passes.notes
    rw [one] at notes
    obtain ⟨t, single, same⟩ := List.map_eq_singleton_iff.mp notes
    exact ⟨t, single, congrArg Prod.fst same, congrArg Prod.snd same⟩

theorem remember_spares {page : Nat} (positive : page ≠ 0) (other : page ≠ 1) : Spares p ((remember page).final p) :=
  ((remember_notes 1 positive p).imp (fun _ _ _ notes => (notes.passes other).spares)
    fun _ passes => passes.spares).final

section

variable {begun now : Bytes → Prop} {opened : Option (Bytes → Prop)}

theorem Copies.begin (copies : Copies size begun opened now p) :
    ∃ q, Pager.begin p = .ok () q ∧ Copies size begun opened now q ∧ q.state = .writing ∧
      q.maxPages = p.maxPages ∧ q.savepoints = p.savepoints := by
  refine ⟨_, rfl, ?_⟩
  dsimp only
  by_cases writing : p.state = .writing
  · rw [if_pos writing]
    exact ⟨copies, writing, rfl, rfl⟩
  rw [if_neg writing]
  have now := copies.backed.resolve_left fun both => writing both.1
  refine ⟨⟨copies.pageSize, copies.room, copies.count, copies.count,
    ⟨copies.starts.now, copies.starts.kept⟩, fun _ => rfl, copies.filed, .inr ⟨fun _ => Std.TreeMap.getElem?_emptyc, now.2⟩, ?_⟩, rfl, rfl, rfl⟩
  have before := copies.opened
  cases opened with
  | none => exact before
  | some S => exact absurd before.1 writing

theorem Copies.browsed (copies : Copies size begun opened now p) (spares : Spares p q)
    (count : q.pageCount = p.pageCount) : Copies size begun opened now q :=
  copies.spared spares (by
    rw [count, spares.maxPages]
    exact copies.count)

theorem Copies.fetch (copies : Copies size begun opened now p) (page : Nat) :
    Copies size begun opened now ((Pager.fetch page).final p) :=
  copies.browsed (fetch_passes 1 page p).spares (fetch_warms page p).count

theorem Copies.truncate (copies : Copies size begun opened now p) {count : Nat} (positive : 1 ≤ count) :
    Copies size begun opened now ((Pager.truncate count).final p) := by
  show Copies size begun opened now (if count < p.pageCount then _ else _)
  split
  · rename_i shorter
    exact copies.spared ⟨rfl, rfl, rfl, .rfl, rfl, .rfl, .inl rfl, rfl, id,
      fun s one => ⟨s, one, rfl, rfl⟩⟩
      ⟨positive, Nat.le_trans (Nat.le_of_lt shorter) copies.count.2⟩
  · exact copies

theorem Copies.write (copies : Copies size begun opened now p) {page : Nat} (data : Bytes)
    (other : page ≠ 1) : Copies size begun opened now ((Pager.write page data).final p) := by
  rcases write_cases p page data with ⟨positive, bound, large⟩ | ⟨e, failed⟩
  · obtain ⟨b, begins, copiesB, -, maxB, -⟩ := copies.begin
    have spares := remember_spares (p := b) positive other
    have warms := remember_warms page b
    unfold Action.final Action.outcome
    rw [write_entered positive bound large, Action.bind_of_ok begins]
    cases run : remember page b with
    | error e t =>
      rw [Action.final_of_error run] at spares warms
      rw [Action.bind_of_error run]
      exact copiesB.browsed spares warms.count
    | ok a t =>
      rw [Action.final_of_ok run] at spares warms
      rw [Action.bind_of_ok run]
      have copiesT := copiesB.browsed spares warms.count
      have longer : Spares t { t with pageCount := max t.pageCount page } :=
        ⟨rfl, rfl, rfl, .rfl, rfl, .rfl, .inl rfl, rfl, id, fun s one => ⟨s, one, rfl, rfl⟩⟩
      refine copiesT.spared (longer.trans (store_passes _ other).spares) ⟨?_, ?_⟩
      · exact Nat.le_trans copiesT.count.1 (Nat.le_max_left _ _)
      · refine Nat.max_le.mpr ⟨copiesT.count.2, ?_⟩
        show page ≤ t.maxPages
        rw [spares.maxPages, maxB]
        exact bound
  · rw [Action.final_of_error failed]
    exact copies

theorem Copies.extend (copies : Copies size begun opened now p) :
    Copies size begun opened now (Pager.extend.final p) := by
  rcases extend_final p with same | written
  · rw [same]
    exact copies
  · rw [written]
    have nonempty := copies.count.1
    exact copies.write _ (by omega)

theorem Copies.held (copies : Copies size begun opened now p) (writing : p.state = .writing)
    (journaled : 1 ∈ p.journal) : ∃ d, p.journal[1]? = some d ∧ begun d := by
  rcases copies.backed with ⟨-, held⟩ | ⟨lacks, -⟩
  · exact held
  · obtain ⟨d, found⟩ := PageMap.mem_iff.mp journaled
    rw [lacks writing] at found
    cases found

structure Noted (p : Pager) : Prop where
  writing : p.state = .writing
  journal : 1 ∈ p.journal
  undo : ∀ s, p.savepoints = [s] → ∃ d, s.undo[1]? = some d

theorem Copies.note (copies : Copies size begun opened now p) (writing : p.state = .writing) :
    let q := { p with
      journal := if 1 ≤ p.startCount then p.journal.insertIfNew 1 (p.raw 1) else p.journal
      savepoints :=
        match p.savepoints with
        | [] => []
        | s :: outer => s.remember 1 (p.raw 1) :: outer }
    Copies size begun opened now q ∧ Noted q := by
  intro q
  have journal : ∃ d, q.journal[1]? = some d ∧ begun d := by
    dsimp only [q]
    rw [if_pos copies.start.1, PageMap.get_insertIfNew]
    rcases copies.backed with ⟨-, d, held, known⟩ | ⟨lacks, known⟩
    · rw [held, if_neg (by simp)]
      exact ⟨d, rfl, known⟩
    · rw [lacks writing, if_pos ⟨rfl, rfl⟩]
      exact ⟨_, rfl, known⟩
  have journaled : 1 ∈ q.journal := PageMap.mem_iff.mpr ⟨_, journal.choose_spec.1⟩
  have undo : ∀ S, opened = some S → ∃ s, q.savepoints = [s] ∧
      (1 ≤ s.pageCount ∧ s.pageCount ≤ q.maxPages) ∧ ∃ d, s.undo[1]? = some d ∧ S d := by
    rintro S rfl
    obtain ⟨-, s, one, bound, undo⟩ := copies.opened
    obtain ⟨count, same⟩ := remember_undo s 1 1 (p.raw 1)
    refine ⟨s.remember 1 (p.raw 1), ?_, ?_, ?_⟩
    · dsimp only [q]
      rw [one]
    · rw [count]
      exact bound
    · rw [same]
      rcases undo with ⟨d, held, known, -⟩ | ⟨lacks, starts⟩
      · rw [held, if_neg (by simp)]
        exact ⟨d, rfl, known⟩
      · rw [if_pos ⟨rfl, bound.1, lacks⟩]
        exact ⟨_, rfl, starts.now⟩
  refine ⟨⟨copies.pageSize, copies.room, copies.count, copies.start,
    ⟨copies.starts.now, copies.starts.kept⟩, copies.busy, copies.filed, .inl ⟨writing, journal⟩, ?_⟩,
    ⟨writing, journaled, ?_⟩⟩
  · cases opened with
    | none =>
      show q.savepoints = []
      dsimp only [q]
      rw [show p.savepoints = [] from copies.opened]
    | some S =>
      obtain ⟨s, one, bound, d, held, known⟩ := undo S rfl
      exact ⟨writing, s, one, bound, .inl ⟨d, held, known, journaled⟩⟩
  · intro s one
    cases opened with
    | none =>
      dsimp only [q] at one
      rw [show p.savepoints = [] from copies.opened] at one
      cases one
    | some S =>
      obtain ⟨t, one', -, d, held, -⟩ := undo S rfl
      cases one'.symm.trans one
      exact ⟨d, held⟩

theorem Copies.remember (copies : Copies size begun opened now p) (writing : p.state = .writing) :
    Ends (Pager.remember 1) p (fun _ q => Copies size begun opened now q ∧ Noted q)
      (Copies size begun opened now) := by
  unfold Pager.remember
  refine .get ?_
  by_cases lacks : (p.journalLacks 1 || p.savepointLacks 1) = true
  · rw [if_pos lacks]
    have spares := (load_passes 1 Nat.one_ne_zero p).spares
    have warms := load_warms 1 p
    cases run : load 1 p with
    | error e t =>
      rw [Action.final_of_error run] at spares warms
      exact .of_error (Action.bind_of_error run) (copies.browsed spares warms.count)
    | ok image t =>
      rw [Action.final_of_ok run] at spares warms
      have copiesT := copies.browsed spares warms.count
      have raw := (load_holds run).2
      have writingT := spares.writing.mpr writing
      exact .of_ok (Action.bind_of_ok run) (raw ▸ copiesT.note writingT)
  · rw [if_neg lacks]
    refine .of_ok rfl ⟨copies, writing, ?_, ?_⟩
    all_goals
      simp only [journalLacks, savepointLacks, Bool.or_eq_true, not_or, Bool.and_eq_true,
        decide_eq_true_eq, Bool.not_eq_true', not_and, Bool.not_eq_false] at lacks
    · exact Std.TreeMap.contains_iff_mem.mp (lacks.1 copies.start.1)
    · intro s one
      have before := copies.opened
      cases opened with
      | none =>
        cases before.symm.trans one
      | some S =>
        obtain ⟨-, t, one', bound, -⟩ := before
        cases one'.symm.trans one
        rw [one] at lacks
        simp only [Bool.and_eq_true, decide_eq_true_eq, Bool.not_eq_true', not_and,
          Bool.not_eq_false] at lacks
        exact PageMap.contains_iff.mp (lacks.2 bound.1)

theorem Copies.put (copies : Copies size begun opened now p) (noted : Noted p) {data : Bytes}
    {next : Bytes → Prop} (known : next data) : Copies size begun opened next
      (store 1 { data, dirty := true } { p with pageCount := max p.pageCount 1 }) := by
  let q := store 1 { data, dirty := true } { p with pageCount := max p.pageCount 1 }
  have cache : q.cache[1]? = some { data, dirty := true } := by
    dsimp only [q, store]
    rw [PageMap.get_insert, if_pos rfl]
  have raw : q.raw 1 = data := by
    unfold Pager.raw
    rw [cache]
  refine ⟨copies.pageSize, copies.room, ?_, copies.start, ⟨raw.symm ▸ known, .inr ⟨data, cache⟩⟩,
    fun _ => noted.writing, copies.filed, .inl ⟨noted.writing, copies.held noted.writing noted.journal⟩, ?_⟩
  · show 1 ≤ max p.pageCount 1 ∧ max p.pageCount 1 ≤ p.maxPages
    rw [Nat.max_eq_left copies.count.1]
    exact copies.count
  · have before := copies.opened
    cases opened with
    | none => exact before
    | some S =>
      obtain ⟨writing, s, one, bound, undo⟩ := before
      obtain ⟨d, held⟩ := noted.undo s one
      refine ⟨writing, s, one, bound, .inl ?_⟩
      rcases undo with both | ⟨lacks, -⟩
      · exact both
      · cases lacks.symm.trans held

theorem Copies.rewrite (copies : Copies size begun opened now p) {data : Bytes} {next : Bytes → Prop}
    (known : data.size = size → next data) :
    Ends (Pager.write 1 data) p (fun _ => Copies size begun opened next)
      (Copies size begun opened now) := by
  rcases write_cases p 1 data with ⟨positive, bound, large⟩ | ⟨e, failed⟩
  · obtain ⟨b, begins, copiesB, writingB, -⟩ := copies.begin
    unfold Ends
    rw [write_entered positive bound large, Action.bind_of_ok begins]
    refine (copiesB.remember writingB).bind fun _ q _ ⟨copiesQ, noted⟩ => .of_ok rfl ?_
    exact copiesQ.put noted (known (large.trans copies.pageSize))
  · exact .of_error failed copies

end

def Knows (size : Nat) (begun : Bytes → Prop) (opened : Option (Bytes → Prop)) (now : Bytes → Prop)
    (p q : Pager) : Prop := Copies size begun opened now p → Copies size begun opened now q

section

variable {begun now : Bytes → Prop} {opened : Option (Bytes → Prop)}

instance : Readable (Knows size begun opened now) where
  refl := fun _ => id
  trans := fun first second copies => second (first copies)
  fetch := fun page _ copies => copies.fetch page

instance [lasting : Lasting size now] : Writable (Knows size begun opened now) where
  write := fun data other _ copies => copies.write data other
  extend := fun _ copies => copies.extend
  header := by
    intro p data nonempty alike copies
    have image : p.image 1 = p.raw 1 := if_neg (Nat.not_lt.mpr nonempty)
    have large := lasting.sized copies.starts.now
    have known : data.size = size → now data := fun sized =>
      lasting.alike sized (alike (by rw [image, large]; exact lasting.long copies.starts.now))
        (image ▸ copies.starts.now)
    exact (copies.rewrite known).final

instance [Lasting size now] : Shrinkable (Knows size begun opened now) where
  truncate := fun positive _ copies => copies.truncate positive

end

end Pager

end TreeFile
