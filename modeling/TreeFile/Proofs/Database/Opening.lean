import TreeFile.Proofs.Database.Reopening
import TreeFile.Proofs.Header.Calls

/-!
Page 1 of a database that has just been opened: in a new file the header is the one that the settings
ask for, and in an old one it is the header that the settings are taken from.
-/

namespace TreeFile

open FileHeader (Says)
open Pager (Copies Sound)

def VacuumMode.stated (root mode : Nat) : VacuumMode := if root = 0 then .none else .ofWord mode

namespace FileHeader

def recorded (d : Bytes) : VacuumMode :=
  .stated (d.at32 largestRootOffset) (d.at32 incrementalVacuumOffset)

theorem recorded_congr {d e : Bytes} (same : Bytes.SameOn d e 0 fileHeaderSize) : recorded e = recorded d := by
  unfold recorded
  rw [same.at32 (Nat.zero_le _) (by decide), same.at32 (Nat.zero_le _) (by decide)]

theorem word_of_le {d : Bytes} {offset : Nat} (inside : offset + 4 ≤ d.size) :
    word d offset = UInt32.ofNat (d.at32 offset) := by
  unfold word
  rw [Bytes.u32?_of_le inside, Option.getD_some]

def ofBytes (d : Bytes) : FileHeader where
  pageSize := decodedPageSize ((d.u16? 16).getD 0)
  writeVersion := d.get! 18
  readVersion := d.get! 19
  reserved := d.get! 20
  maxFraction := d.get! 21
  minFraction := d.get! 22
  leafFraction := d.get! 23
  changeCounter := word d changeCounterOffset
  databaseSize := word d databaseSizeOffset
  firstTrunk := word d firstTrunkOffset
  freeCount := word d freeCountOffset
  schemaCookie := word d 40
  schemaFormat := word d 44
  defaultCacheSize := word d 48
  largestRoot := word d largestRootOffset
  textEncoding := word d 56
  userVersion := word d 60
  incrementalVacuum := word d incrementalVacuumOffset
  applicationId := word d 68
  versionValidFor := word d versionValidForOffset
  libraryVersion := word d libraryVersionOffset

theorem parse_ok {d : Bytes} {h : FileHeader} : parse d = .ok h ↔
    fileHeaderSize ≤ d.size ∧ d.extract 0 16 = magic ∧ isPageSize h.pageSize = true ∧
      minUsableSize ≤ h.usableSize ∧ h = ofBytes d := by
  constructor
  · intro parsed
    unfold parse at parsed
    dsimp only at parsed
    split at parsed
    · exact absurd parsed Except.throw_bind_ok
    rename_i long
    split at parsed
    · exact absurd parsed Except.throw_bind_ok
    rename_i marked
    split at parsed
    · exact absurd parsed Except.throw_bind_ok
    rename_i size
    split at parsed
    · exact absurd parsed Except.throw_bind_ok
    rename_i room
    obtain rfl := Except.pure_ok.mp parsed
    have marked : (d.extract 0 16 == magic) = true := by simpa [bne] using marked
    have size : isPageSize (decodedPageSize ((d.u16? 16).getD 0)) = true := by simpa using size
    exact ⟨Nat.le_of_not_lt long, ByteArray.ext (eq_of_beq marked), size, Nat.le_of_not_lt room, rfl⟩
  · rintro ⟨long, marked, size, room, rfl⟩
    have size : isPageSize (decodedPageSize ((d.u16? 16).getD 0)) = true := size
    unfold parse
    rw [if_neg (Nat.not_lt.mpr long), marked, if_neg (by decide)]
    dsimp only
    rw [size, if_neg (by decide)]
    exact if_neg (Nat.not_lt.mpr room)

theorem parse_recorded {d : Bytes} {h : FileHeader} (parsed : parse d = .ok h) :
    fileHeaderSize ≤ d.size ∧ d.extract 0 16 = magic ∧ h.vacuum = recorded d := by
  obtain ⟨long, marked, -, -, rfl⟩ := parse_ok.mp parsed
  have zero : ∀ offset, offset + 4 ≤ fileHeaderSize → (word d offset = 0 ↔ d.at32 offset = 0) := by
    intro offset inside
    rw [word_of_le (Nat.le_trans inside long), ← UInt32.toNat_inj, UInt32.toNat_ofNat',
      Nat.mod_eq_of_lt (d.at32_lt offset)]
    rfl
  refine ⟨long, marked, ?_⟩
  unfold vacuum recorded VacuumMode.stated VacuumMode.ofWord ofBytes
  simp only [zero largestRootOffset (by decide), zero incrementalVacuumOffset (by decide), ne_eq, ite_not]

theorem says_of_parsed {d e : Bytes} {h : FileHeader} (parsed : parse d = .ok h)
    (same : Bytes.SameOn d e 0 fileHeaderSize) (long : fileHeaderSize ≤ e.size) :
    Says e.size (fun root mode => root = e.at32 largestRootOffset ∧ mode = e.at32 incrementalVacuumOffset) e := by
  obtain ⟨-, marked, -⟩ := parse_recorded parsed
  refine ⟨rfl, long, ?_, rfl, rfl⟩
  have mark : (d.extract 0 16).get! 4 = magic.get! 4 := congrArg (ByteArray.get! · 4) marked
  rw [Bytes.get_extract, if_pos (by decide)] at mark
  exact (same 4 (Nat.zero_le _) (by decide)).trans mark

theorem sameOn_words (words : List UInt32) (d : Bytes) :
    Bytes.SameOn d (words.foldl (fun d word => d ++ Bytes.ofNat32 word.toNat) d) 0 d.size := by
  induction words generalizing d with
  | nil => exact .refl d _ _
  | cons word rest ih =>
    refine Bytes.SameOn.trans (fun i _ low => ?_) ((ih _).mono (Nat.le_refl 0) ?_)
    · rw [Bytes.get_append, if_pos low]
    · rw [ByteArray.size_append]
      exact Nat.le_add_right _ _

theorem size_words (words : List UInt32) (d : Bytes) :
    (words.foldl (fun d word => d ++ Bytes.ofNat32 word.toNat) d).size = d.size + 4 * words.length := by
  induction words generalizing d with
  | nil => rfl
  | cons word rest ih =>
    rw [List.foldl_cons, ih, ByteArray.size_append, Bytes.size_ofNat32, List.length_cons]
    omega

theorem at32_words (words : List UInt32) (d : Bytes) (i : Nat) (inside : i < words.length) :
    (words.foldl (fun d word => d ++ Bytes.ofNat32 word.toNat) d).at32 (d.size + 4 * i) =
      words[i].toNat := by
  induction words generalizing d i with
  | nil => exact absurd inside (Nat.not_lt_zero _)
  | cons word rest ih =>
    cases i with
    | zero =>
      have same := sameOn_words rest (d ++ Bytes.ofNat32 word.toNat)
      have has : Bytes.HasAt (d ++ Bytes.ofNat32 word.toNat) d.size (Bytes.ofNat32 word.toNat) := by
        have whole := (Bytes.hasAt_self (d ++ Bytes.ofNat32 word.toNat)).append_right
        rwa [Nat.zero_add] at whole
      have size : (d ++ Bytes.ofNat32 word.toNat).size = d.size + 4 := by
        rw [ByteArray.size_append, Bytes.size_ofNat32]
      have first := same.at32 (Nat.zero_le _) (Nat.le_of_eq size.symm)
      rw [Bytes.at32_of_hasAt has] at first
      refine first.trans ?_
      exact Nat.mod_eq_of_lt word.toNat_lt
    | succ i =>
      have later := ih (d ++ Bytes.ofNat32 word.toNat) i (Nat.lt_of_succ_lt_succ inside)
      rw [ByteArray.size_append, Bytes.size_ofNat32] at later
      rw [List.foldl_cons, List.getElem_cons_succ, ← later]
      congr 1
      omega

def octets (h : FileHeader) : List UInt8 :=
  [h.writeVersion, h.readVersion, h.reserved, h.maxFraction, h.minFraction, h.leafFraction]

def front (h : FileHeader) : Bytes :=
  magic ++ Bytes.ofNat16 (encodedPageSize h.pageSize) ++ Bytes.ofList h.octets

def words (h : FileHeader) : List UInt32 :=
  [h.changeCounter, h.databaseSize, h.firstTrunk, h.freeCount, h.schemaCookie, h.schemaFormat,
    h.defaultCacheSize, h.largestRoot, h.textEncoding, h.userVersion, h.incrementalVacuum, h.applicationId,
    0, 0, 0, 0, 0, h.versionValidFor, h.libraryVersion]

theorem encode_eq (h : FileHeader) :
    h.encode = h.words.foldl (fun d word => d ++ Bytes.ofNat32 word.toNat) h.front := rfl

theorem size_front (h : FileHeader) : h.front.size = 24 := by
  unfold front
  rw [ByteArray.size_append, ByteArray.size_append]
  rfl

theorem size_encode (h : FileHeader) : h.encode.size = fileHeaderSize := by
  rw [encode_eq, size_words, size_front]
  rfl

theorem encode_front (h : FileHeader) : Bytes.SameOn h.front h.encode 0 24 := by
  have same := sameOn_words h.words h.front
  rwa [size_front] at same

theorem at32_encode (h : FileHeader) {i : Nat} (inside : i < h.words.length) :
    h.encode.at32 (24 + 4 * i) = h.words[i].toNat := by
  have found := at32_words h.words h.front i inside
  rwa [size_front] at found

theorem encode_starts (h : FileHeader) : Bytes.SameOn magic h.encode 0 magic.size := by
  intro i _ low
  have inside : i < 24 := Nat.lt_trans low (by decide)
  rw [h.encode_front i (Nat.zero_le _) inside]
  unfold front
  rw [Bytes.get_append, if_pos ?_, Bytes.get_append, if_pos low]
  rw [ByteArray.size_append]
  exact Nat.lt_of_lt_of_le low (Nat.le_add_right _ _)

theorem encode_at (h : FileHeader) :
    h.encode.at32 largestRootOffset = h.largestRoot.toNat ∧
      h.encode.at32 incrementalVacuumOffset = h.incrementalVacuum.toNat ∧
        h.encode.get! 4 = magic.get! 4 :=
  ⟨h.at32_encode (i := 7) (Nat.lt_of_sub_eq_succ rfl), h.at32_encode (i := 10) (Nat.lt_of_sub_eq_succ rfl),
    h.encode_starts 4 (Nat.zero_le _) (by decide)⟩

end FileHeader

namespace Pager

variable {p q : Pager} {Q : Bytes → Prop}

theorem sameOn_start (p : Pager) (long : fileHeaderSize ≤ p.pageSize) :
    Bytes.SameOn (p.file.bytes.extract 0 fileHeaderSize) (p.fileImage 1) 0 fileHeaderSize := by
  intro i _ low
  rw [get_fileImage _ Nat.one_ne_zero, if_pos (Nat.lt_of_lt_of_le low long), Bytes.get_extract,
    if_pos (by rwa [Nat.zero_add]), Nat.sub_self, Nat.zero_mul]

theorem Copies.of_sound (sound : Sound p.calm) (idle : p.state ≠ .writing) (one : 1 ≤ p.pageCount)
    (room : p.maxPages < 4294967296) (known : Q (p.raw 1)) : Copies p.pageSize Q none Q p := by
  obtain ⟨count, closed⟩ := sound.rest idle
  have bound : p.pageCount ≤ p.maxPages := sound.count
  have same : p.raw 1 = p.fileImage 1 := by
    unfold Pager.raw
    split
    · rename_i image held
      refine sound.clean 1 image held ?_
      cases dirty : image.dirty with
      | false => rfl
      | true => exact absurd (sound.dirty 1 image held dirty).1 idle
    · rfl
  refine ⟨rfl, room, ⟨one, bound⟩, ?_, ⟨known, .inl (same ▸ known)⟩, ?_, same ▸ known,
    .inr ⟨fun writing => absurd writing idle, known⟩, closed⟩
  · rw [← show p.pageCount = p.startCount from count]
    exact ⟨one, bound⟩
  · rintro ⟨data, held⟩
    exact (sound.dirty 1 _ held rfl).1

theorem settle_state (run : settle p = .ok () q) : q.state = .reading := by
  unfold settle at run
  rw [Action.get_bind] at run
  dsimp only at run
  split at run
  · obtain ⟨_, r, -, run⟩ := Action.bind_ok.mp run
    cases run
    rfl
  · cases run
    rfl

theorem commit_state (run : commit p = .ok () q) : q.state ≠ .writing := by
  by_cases writing : p.state = .writing
  · rw [commit_writing writing] at run
    obtain ⟨_, r, -, run⟩ := Action.bind_ok.mp run
    rw [Action.get_bind] at run
    obtain ⟨size, u, -, run⟩ := Action.bind_ok.mp run
    have reading : q.state = .reading := by
      split at run
      · obtain ⟨_, v, -, run⟩ := Action.bind_ok.mp run
        exact settle_state run
      · exact settle_state run
    rw [reading]
    decide
  · cases (commit_idle writing).symm.trans run
    exact writing

theorem first_ok (sound : Sound p.calm) (empty : p.pageCount = 0) {data : Bytes} {r t : Pager}
    (begins : begin p = .ok () q) (writes : write 1 data q = .ok () r) (commits : commit r = .ok () t) :
    Sound t.calm ∧ t.state ≠ .writing ∧ t.pageCount = 1 ∧ t.pageSize = p.pageSize ∧
      t.maxPages = p.maxPages ∧ t.raw 1 = data ∧ data.size = p.pageSize := by
  obtain ⟨q', begins', calmBegins⟩ := begin_calm p
  cases begins.symm.trans begins'
  obtain ⟨b, calmBegins', soundQ, writingQ, -, countQ, steadyQ⟩ := begin_run sound
  cases calmBegins.symm.trans calmBegins'
  rcases write_calm 1 data (show q.state = .writing from writingQ) with ⟨e, u, failed, -⟩ | ⟨u, writes', calmWrites, stateR⟩
  · cases writes.symm.trans failed
  cases writes.symm.trans writes'
  rcases write_cases q.calm 1 data with ⟨positive, bound, large⟩ | ⟨e, failed⟩
  swap
  · cases calmWrites.symm.trans failed
  obtain ⟨v, calmWrites', soundR, steadyR, put⟩ := write_run soundQ positive bound large
  cases calmWrites.symm.trans calmWrites'
  change Sound r.calm at soundR
  have writingR : r.state = .writing := stateR.trans writingQ
  obtain ⟨calmCommits, -⟩ := commit_ok writingR commits
  obtain ⟨w, calmCommits', soundT, pagesT, -, -, sizeT, maxT⟩ := commit_run soundR
  cases calmCommits.symm.trans calmCommits'
  have none : q.pageCount = 0 := countQ.trans empty
  have pages : t.pages = q.pages.put 1 data := pagesT.trans (put (by
    show 1 ≤ q.pageCount + 1
    omega))
  have count : t.pageCount = max q.pageCount 1 := congrArg Pages.count pages
  have one : t.pageCount = 1 := by omega
  have image : t.image 1 = t.raw 1 := if_neg (Nat.not_lt.mpr (Nat.le_of_eq one.symm))
  refine ⟨soundT, commit_state commits, one, ?_, ?_, ?_, ?_⟩
  · exact sizeT.trans (steadyR.pageSize.trans steadyQ.pageSize)
  · exact maxT.trans (steadyR.maxPages.trans steadyQ.maxPages)
  · rw [← image, image_eq, pages]
    rfl
  · exact large.trans steadyQ.pageSize

end Pager

theorem File.read_ok {f g : File} {n present : Nat} {d : Bytes}
    (run : read n 0 f = .ok (present, d) g) : g.bytes = f.bytes ∧
      present = min n f.bytes.size ∧ d = Bytes.resize (f.bytes.extract 0 present) n := by
  unfold read at run
  obtain ⟨_, h, checked, run⟩ := Action.bind_ok.mp run
  have bytes := (checkCall_ok checked).1
  obtain ⟨start, place, run⟩ := Action.lift_bind_ok.mp run
  cases place
  rw [Action.get_bind] at run
  obtain ⟨same, rfl⟩ := Action.pure_ok.mp run
  cases same
  rw [bytes]
  refine ⟨rfl, rfl, ?_⟩
  rw [Int.toNat_zero, Nat.sub_zero, Nat.zero_add]

namespace Database

variable {c : Config} {s t : Store} {p q : Pager}

theorem format_ok (sound : Sound s.pager.calm) (empty : s.pager.pageCount = 0)
    (run : format c s = .ok () t) :
    Sound t.pager.calm ∧ t.pager.state ≠ .writing ∧ t.pager.pageCount = 1 ∧ s.Settled t ∧
      t.pager.pageSize = s.pager.pageSize ∧ t.pager.maxPages = s.pager.maxPages ∧
        ∃ d : Bytes, t.pager.raw 1 = d.overwrite 0 (FileHeader.ofConfig c).encode ∧
          fileHeaderSize ≤ d.size ∧ d.size = s.pager.pageSize := by
  unfold format at run
  obtain ⟨page, u, emptied, run⟩ := Action.bind_ok.mp run
  obtain ⟨-, rfl⟩ : _ ∧ s = u := Action.lift_ok.mp emptied
  obtain ⟨data, written, run⟩ := Action.lift_bind_ok.mp run
  obtain ⟨fits, rfl⟩ := Bytes.putOr_ok.mp (Action.applied_ok.mp written)
  obtain ⟨_, u, begun, run⟩ := Action.bind_ok.mp run
  obtain ⟨q, begins, rfl⟩ := Store.onPager_ok.mp begun
  obtain ⟨_, u, put, committed⟩ := Action.bind_ok.mp run
  obtain ⟨r, writes, rfl⟩ := Store.onPager_ok.mp put
  obtain ⟨v, commits, rfl⟩ := Store.onPager_ok.mp committed
  obtain ⟨soundV, idle, one, size, max, raw, large⟩ := Pager.first_ok sound empty begins writes commits
  rw [FileHeader.size_encode, Nat.zero_add] at fits
  refine ⟨soundV, idle, one, ⟨rfl, rfl, rfl, rfl, rfl, Nat.le_refl _⟩, size, max, page.data, raw, fits, ?_⟩
  rw [← large, Bytes.size_overwrite]
  rw [FileHeader.size_encode, Nat.zero_add]
  exact fits

theorem setPageSize_ok {f : File} {old size : Nat} (run : Pager.setPageSize size (Pager.upon f old) = .ok () q) :
    q.file.bytes = f.bytes ∧ q = Pager.upon q.file size := by
  unfold Pager.setPageSize at run
  rw [Action.get_bind] at run
  by_cases same : size = old
  · rw [if_neg (fun different => different same)] at run
    obtain ⟨-, rfl⟩ := Action.pure_ok.mp run
    exact ⟨rfl, same ▸ rfl⟩
  · rw [if_pos (show size ≠ (Pager.upon f old).pageSize from same)] at run
    exact Pager.refreshCount_ok run

theorem readStart_ok {f : File} {size present : Nat} {start : Bytes}
    (run : Pager.readStart fileHeaderSize (Pager.upon f size) = .ok (present, start) q) :
    q.file.bytes = f.bytes ∧ q = Pager.upon q.file size ∧ present = min fileHeaderSize f.bytes.size ∧
      start = Bytes.resize (f.bytes.extract 0 present) fileHeaderSize := by
  obtain ⟨g, ran, rfl⟩ := Pager.onFile_ok.mp run
  obtain ⟨bytes, isPresent, isStart⟩ := File.read_ok ran
  refine ⟨bytes, ?_, isPresent, isStart⟩
  unfold Pager.upon
  dsimp only
  rw [show g.bytes = f.bytes from bytes]

theorem validateHeader_ok (allowed : validateHeader c = .ok ()) : c.validate = .ok () := by
  unfold validateHeader at allowed
  cases valid : c.validate with
  | ok a => rfl
  | error e =>
    rw [valid] at allowed
    cases allowed

theorem findConfig_ok {c' : Config} {isNew : Bool} {f : File}
    (run : findConfig c (Pager.upon f c.pageSize) = .ok (c', isNew) q) :
    q.file.bytes = f.bytes ∧ q = Pager.upon q.file c'.pageSize ∧
      (isNew = true ∧ c' = c ∧ f.bytes.size = 0 ∨
        isNew = false ∧ c'.validate = .ok () ∧ ∃ h,
          FileHeader.parse (f.bytes.extract 0 fileHeaderSize) = .ok h ∧ c' = headerConfig h c) := by
  unfold findConfig at run
  obtain ⟨⟨present, start⟩, r, read, run⟩ := Action.bind_ok.mp run
  obtain ⟨bytes, upon, isPresent, isStart⟩ := readStart_ok read
  have hundred : fileHeaderSize = 100 := rfl
  dsimp only at run
  split at run
  · rename_i none
    obtain ⟨same, rfl⟩ := Action.pure_ok.mp run
    cases same
    exact ⟨bytes, upon, .inl ⟨rfl, rfl, by omega⟩⟩
  split at run
  · exact absurd run Action.throw_bind_ok
  have whole : present = fileHeaderSize := by omega
  have size := Bytes.size_extract_of_le (d := f.bytes) (a := 0) (b := fileHeaderSize) (by omega)
  have unchanged := Bytes.resize_self (f.bytes.extract 0 fileHeaderSize)
  rw [size, Nat.sub_zero] at unchanged
  rw [whole, unchanged] at isStart
  obtain ⟨h, parsed, run⟩ := Action.lift_bind_ok.mp run
  obtain ⟨_, allowed, run⟩ := Action.lift_bind_ok.mp run
  obtain ⟨_, u, resized, run⟩ := Action.bind_ok.mp run
  obtain ⟨same, rfl⟩ := Action.pure_ok.mp run
  cases same
  rw [upon] at resized
  obtain ⟨bytes', same⟩ := setPageSize_ok resized
  exact ⟨bytes'.trans bytes, same, .inr ⟨rfl, validateHeader_ok allowed, h, isStart ▸ parsed, rfl⟩⟩

/-- No transaction is open, and page 1 has a header with these words for the largest root and the mode. -/
def Rests (root mode : Nat) (s : Store) : Prop :=
  Copies s.pager.pageSize (Says s.pager.pageSize fun root' mode' => root' = root ∧ mode' = mode) none
    (Says s.pager.pageSize fun root' mode' => root' = root ∧ mode' = mode) s.pager

structure Follows (s : Store) (c : Config) : Prop where
  valid : c.validate = .ok ()
  vacuum : s.vacuum = c.vacuum
  pageSize : s.pageSize = c.pageSize
  usableSize : s.usableSize = c.usableSize

def firstLargest (mode : VacuumMode) : Nat := if mode.isEnabled then 1 else 0

def firstMode (mode : VacuumMode) : Nat := if mode = .incremental then 1 else 0

theorem stated_first (mode : VacuumMode) : .stated (firstLargest mode) (firstMode mode) = mode := by
  cases mode <;> rfl

theorem ofConfig_words (c : Config) : (FileHeader.ofConfig c).largestRoot.toNat = firstLargest c.vacuum ∧
    (FileHeader.ofConfig c).incrementalVacuum.toNat = firstMode c.vacuum := by
  unfold FileHeader.ofConfig
  cases c.vacuum <;> exact ⟨rfl, rfl⟩

theorem ofPager_format (valid : c.validate = .ok ()) {f : File} {inMemory : Bool} (empty : f.bytes.size = 0)
    (run : ofPager { Pager.upon f c.pageSize with inMemory } c true = .ok s) :
    Follows s c ∧ fileHeaderSize ≤ s.pager.pageSize ∧ ∀ {Q : Bytes → Prop},
      (∀ d : Bytes, d.size = s.pager.pageSize →
        Bytes.SameOn (FileHeader.ofConfig c).encode d 0 fileHeaderSize → Q d) →
          Copies s.pager.pageSize Q none Q s.pager := by
  have large := (isPageSize_bounds (Config.validate_ok valid).1).1
  have none : (Pager.upon f c.pageSize).pageCount = 0 := by
    show f.bytes.size / c.pageSize = 0
    rw [empty, Nat.zero_div]
  let p : Pager := { Pager.upon f c.pageSize with
    inMemory
    maxPages := max c.maxPages.toNat (Pager.upon f c.pageSize).pageCount }
  have sound : Sound p.calm := Pager.sound_of_unread rfl (show 0 < c.pageSize by omega)
    (Nat.le_max_right _ _) rfl rfl rfl rfl
  have formatted : format c (Store.ofConfig p c) = .ok () s := Action.applied_ok.mp run
  obtain ⟨soundS, idle, one, settled, size, max, d, raw, long, whole⟩ := format_ok sound none formatted
  refine ⟨⟨valid, settled.vacuum, settled.pageSize, settled.usableSize⟩, ?_, fun {Q} known => ?_⟩
  · rw [size]
    exact Nat.le_trans (by decide) large
  have fits : 0 + (FileHeader.ofConfig c).encode.size ≤ d.size := by
    rw [FileHeader.size_encode, Nat.zero_add]
    exact long
  have has := Bytes.hasAt_overwrite fits
  have same : Bytes.SameOn (FileHeader.ofConfig c).encode (s.pager.raw 1) 0 fileHeaderSize := by
    intro i _ low
    have byte := has.2 i (by rw [FileHeader.size_encode]; exact low)
    rw [Nat.zero_add] at byte
    rw [raw]
    exact byte
  refine .of_sound soundS idle (Nat.le_of_eq one.symm) ?_ (known _ ?_ same)
  · rw [max]
    show Max.max c.maxPages.toNat (Pager.upon f c.pageSize).pageCount < 4294967296
    rw [none, Nat.max_eq_left (Nat.zero_le _)]
    exact c.maxPages.toNat_lt
  · rw [raw, Bytes.size_overwrite fits, whole, size]

theorem ofPager_new (valid : c.validate = .ok ()) {f : File} {inMemory : Bool} (empty : f.bytes.size = 0)
    (run : ofPager { Pager.upon f c.pageSize with inMemory } c true = .ok s) :
    Rests (firstLargest c.vacuum) (firstMode c.vacuum) s ∧ Follows s c := by
  obtain ⟨follows, long, copies⟩ := ofPager_format valid empty run
  refine ⟨copies fun d size same => ?_, follows⟩
  obtain ⟨root, mode, mark⟩ := (FileHeader.ofConfig c).encode_at
  obtain ⟨largest, first⟩ := ofConfig_words c
  refine ⟨size, long, ?_, ?_, ?_⟩
  · rw [same 4 (Nat.zero_le _) (by decide), mark]
  · rw [same.at32 (Nat.zero_le _) (by decide), root, largest]
  · rw [same.at32 (Nat.zero_le _) (by decide), mode, first]

theorem ofPager_old (valid : c.validate = .ok ()) {f : File} {h : FileHeader}
    (fits : f.bytes.size / 512 < 4294967296)
    (parsed : FileHeader.parse (f.bytes.extract 0 fileHeaderSize) = .ok h) (mode : c.vacuum = h.vacuum)
    (run : ofPager (Pager.upon f c.pageSize) c false = .ok s) :
    ∃ root mode, .stated root mode = s.vacuum ∧ Rests root mode s := by
  have large := (isPageSize_bounds (Config.validate_ok valid).1).1
  let p : Pager := { Pager.upon f c.pageSize with
    maxPages := max c.maxPages.toNat (Pager.upon f c.pageSize).pageCount }
  have sound : Sound p.calm := Pager.sound_of_unread rfl (show 0 < c.pageSize by omega)
    (Nat.le_max_right _ _) rfl rfl rfl rfl
  have loaded : (do let _ ← Store.loadPage 1 : StoreM Unit) (Store.ofConfig p c) = .ok () s :=
    Action.applied_ok.mp run
  have one : 1 ≤ p.pageCount := by
    obtain ⟨page, t, read, -⟩ := Action.bind_ok.mp loaded
    obtain ⟨data, u, fetched, -⟩ := Action.bind_ok.mp read
    exact (Store.readPage_fetched fetched).2.1
  have room : p.maxPages < 4294967296 := by
    have fewer : f.bytes.size / c.pageSize ≤ f.bytes.size / 512 := Nat.div_le_div_left large (by decide)
    exact Nat.max_lt.mpr ⟨c.maxPages.toNat_lt, Nat.lt_of_le_of_lt fewer fits⟩
  have long : fileHeaderSize ≤ c.pageSize := Nat.le_trans (by decide) large
  have raw : p.raw 1 = p.fileImage 1 := Pager.raw_upon f c.pageSize 1
  have size : (p.raw 1).size = c.pageSize := raw ▸ Pager.size_fileImage p 1
  have same : Bytes.SameOn (f.bytes.extract 0 fileHeaderSize) (p.raw 1) 0 fileHeaderSize :=
    raw ▸ p.sameOn_start long
  have header := FileHeader.says_of_parsed parsed same (size ▸ long)
  rw [size] at header
  have copies := Copies.of_sound sound (show PagerState.idle ≠ .writing by decide) one room header
  have becomes : Store.Becomes c.pageSize _ _ _ (Store.ofConfig p c) (Store.ofConfig p c) :=
    ⟨copies, .refl _⟩
  have ends : Action.Ends (do let _ ← Store.loadPage 1 : StoreM Unit) (Store.ofConfig p c) _ _ := becomes.step
  obtain ⟨copiesS, settled⟩ := ends.ok loaded
  have stated : FileHeader.recorded (p.raw 1) = s.vacuum := by
    rw [settled.vacuum, FileHeader.recorded_congr same]
    exact (FileHeader.parse_recorded parsed).2.2.symm.trans mode.symm
  refine ⟨_, _, stated, ?_⟩
  unfold Rests
  rw [copiesS.pageSize]
  exact copiesS

theorem ofPager_vacuum (run : ofPager p c false = .ok s) : s.vacuum = c.vacuum := by
  let start := Store.ofConfig { p with maxPages := max c.maxPages.toNat p.pageCount } c
  have loaded : (do let _ ← Store.loadPage 1 : StoreM Unit) start = .ok () s := Action.applied_ok.mp run
  have within : Store.Within Pager.Anyhow start ((do let _ ← Store.loadPage 1 : StoreM Unit).final start) :=
    Respects.final (do let _ ← Store.loadPage 1 : StoreM Unit) start
  rw [Action.final_of_ok loaded] at within
  exact within.settled.vacuum

theorem openFile_cases {file : File} (run : openFile file c = .ok s) :
    c.validate = .ok () ∧ ∃ f : File, f.bytes = file.bytes ∧
      (f.bytes.size = 0 ∧ ofPager (Pager.upon f c.pageSize) c true = .ok s ∨
        ∃ h, FileHeader.parse (f.bytes.extract 0 fileHeaderSize) = .ok h ∧
          (headerConfig h c).validate = .ok () ∧
            ofPager (Pager.upon f h.pageSize) (headerConfig h c) false = .ok s) := by
  unfold openFile at run
  obtain ⟨_, valid, run⟩ := Except.bind_ok.mp run
  obtain ⟨p, made, run⟩ := Except.bind_ok.mp run
  obtain ⟨fresh, bytes⟩ := Pager.ofFile_ok made
  obtain ⟨⟨⟨c', isNew⟩, q⟩, applied, last⟩ := Except.bind_ok.mp run
  have found := Action.apply_ok.mp applied
  rw [fresh] at found
  obtain ⟨same, still, cases⟩ := findConfig_ok found
  have last : ofPager q c' isNew = .ok s := last
  rw [still] at last
  refine ⟨valid, q.file, same.trans bytes, ?_⟩
  rcases cases with ⟨rfl, rfl, empty⟩ | ⟨rfl, allowed, h, parsed, rfl⟩
  · exact .inl ⟨same ▸ empty, last⟩
  · exact .inr ⟨h, same ▸ parsed, allowed, last⟩

theorem parse_long {d : Bytes} {h : FileHeader}
    (parsed : FileHeader.parse (d.extract 0 fileHeaderSize) = .ok h) : fileHeaderSize ≤ d.size := by
  have long := (FileHeader.parse_recorded parsed).1
  rw [ByteArray.size_extract, Nat.sub_zero] at long
  exact Nat.le_trans long (Nat.min_le_right _ _)

theorem openFile_recorded {file : File} (old : file.bytes.size ≠ 0) (run : openFile file c = .ok s) :
    s.vacuum = FileHeader.recorded (file.bytes.extract 0 fileHeaderSize) := by
  obtain ⟨-, f, same, ⟨empty, -⟩ | ⟨h, parsed, -, last⟩⟩ := openFile_cases run
  · exact absurd (same ▸ empty) old
  · exact (ofPager_vacuum last).trans (same ▸ (FileHeader.parse_recorded parsed).2.2)

theorem openFile_ok {file : File} (fits : file.bytes.size / 512 < 4294967296)
    (run : openFile file c = .ok s) :
    (∃ root mode, .stated root mode = s.vacuum ∧ Rests root mode s) ∧
      (file.bytes.size = 0 → Follows s c ∧ Rests (firstLargest c.vacuum) (firstMode c.vacuum) s) := by
  obtain ⟨valid, f, same, ⟨empty, last⟩ | ⟨h, parsed, allowed, last⟩⟩ := openFile_cases run
  · obtain ⟨rests, follows⟩ := ofPager_new valid empty last
    exact ⟨⟨_, _, follows.vacuum ▸ stated_first _, rests⟩, fun _ => ⟨follows, rests⟩⟩
  · refine ⟨ofPager_old allowed (same ▸ fits) parsed rfl last, fun empty => ?_⟩
    have long := parse_long parsed
    rw [same, empty] at long
    exact absurd long (by decide)

theorem inMemory_new (run : inMemory c = .ok s) :
    c.validate = .ok () ∧ ∃ f : File, f.bytes.size = 0 ∧
      ofPager { Pager.upon f c.pageSize with inMemory := true } c true = .ok s := by
  unfold inMemory at run
  obtain ⟨_, valid, run⟩ := Except.bind_ok.mp run
  obtain ⟨p, made, run⟩ := Except.bind_ok.mp run
  unfold Pager.ownFile at made
  obtain ⟨q, opened, last⟩ := Except.bind_ok.mp made
  obtain rfl := Except.pure_ok.mp last
  obtain ⟨fresh, bytes⟩ := Pager.ofFile_ok opened
  rw [fresh] at run
  exact ⟨valid, q.file, congrArg ByteArray.size bytes, run⟩

theorem inMemory_ok (run : inMemory c = .ok s) :
    Follows s c ∧ Rests (firstLargest c.vacuum) (firstMode c.vacuum) s :=
  have ⟨valid, _, empty, made⟩ := inMemory_new run
  (ofPager_new valid empty made).symm

end Database

end TreeFile
