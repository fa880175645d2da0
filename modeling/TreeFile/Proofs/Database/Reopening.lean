import TreeFile.Contents
import TreeFile.Database
import TreeFile.Proofs.Pager.Durability
import TreeFile.Proofs.Store.DiskPages

/-!
Opening a file that was committed. The header on page 1 states the settings, and with these the
pages are read as they were before, so every tree has the entries it had.
-/

namespace TreeFile

structure Store.Twins (s t : Store) : Prop where
  pages : t.pager.pages = s.pager.pages
  pageSize : t.pageSize = s.pageSize
  usableSize : t.usableSize = s.usableSize
  limits : t.limits = s.limits

namespace Store.Twins

variable {s t : Store}

theorem image (twins : Twins s t) (page : Nat) : t.pager.image page = s.pager.image page := by
  rw [Pager.image_eq, Pager.image_eq, twins.pages]

theorem exists? (twins : Twins s t) (page : Nat) :
    Contents.exists? t page = Contents.exists? s page := by
  have count : t.pageCount = s.pageCount := congrArg Pages.count twins.pages
  unfold Contents.exists?
  rw [count]

theorem page? (twins : Twins s t) (number : Nat) :
    Contents.page? t number = Contents.page? s number := by
  have geometry : t.geometry number = s.geometry number := by
    unfold Store.geometry
    rw [twins.pageSize, twins.usableSize]
  unfold Contents.page?
  rw [twins.exists?, twins.image, geometry, twins.limits]

theorem chain? (twins : Twins s t) (left page : Nat) :
    Contents.chain? t left page = Contents.chain? s left page := by
  induction left generalizing page with
  | zero => rfl
  | succ left ih =>
    unfold Contents.chain?
    rw [twins.exists?, twins.image, ih]

theorem payload? (twins : Twins s t) (page : Page) (info : CellInfo) :
    Contents.payload? t page info = Contents.payload? s page info := by
  have carried : Contents.carried t = Contents.carried s := by
    funext number
    unfold Contents.carried
    rw [twins.image, twins.usableSize]
  unfold Contents.payload? Contents.chainOf?
  simp only [twins.chain?, twins.limits, carried]

theorem ownEntries? (twins : Twins s t) (page : Page) :
    Contents.ownEntries? t page = Contents.ownEntries? s page := by
  have entry : Contents.entryOf? t page = Contents.entryOf? s page := by
    funext i
    unfold Contents.entryOf?
    simp only [twins.payload?]
  unfold Contents.ownEntries?
  rw [entry]

theorem entriesFrom? (twins : Twins s t) (kind : TreeKind) (left number : Nat) :
    Contents.entriesFrom? t kind left number = Contents.entriesFrom? s kind left number := by
  induction left generalizing number with
  | zero => rfl
  | succ left ih =>
    have below : Contents.entriesFrom? t kind left = Contents.entriesFrom? s kind left := funext ih
    unfold Contents.entriesFrom?
    simp only [twins.page?, twins.ownEntries?, below]

theorem entries? (twins : Twins s t) (root : Nat) :
    Contents.entries? t root = Contents.entries? s root := by
  unfold Contents.entries?
  simp only [twins.page?, twins.entriesFrom?]

end Store.Twins

namespace FileHeader

theorem word_congr {d e : Bytes} {size offset : Nat} (same : Bytes.SameOn d e 0 size)
    (long : size ≤ d.size) (long' : size ≤ e.size) (inside : offset + 4 ≤ size) :
    word e offset = word d offset := by
  unfold word
  rw [Bytes.u32?_of_le (Nat.le_trans inside long), Bytes.u32?_of_le (Nat.le_trans inside long'),
    same.at32 (Nat.zero_le _) inside]

theorem parse_congr {d e : Bytes} (same : Bytes.SameOn d e 0 fileHeaderSize)
    (long : fileHeaderSize ≤ d.size) (long' : fileHeaderSize ≤ e.size) : parse e = parse d := by
  have hundred : fileHeaderSize = 100 := rfl
  have words : ∀ offset, offset + 4 ≤ fileHeaderSize → word e offset = word d offset :=
    fun offset inside => word_congr same long long' inside
  have bytes : ∀ i, i < fileHeaderSize → e.get! i = d.get! i := fun i => same i (Nat.zero_le i)
  have start : e.extract 0 16 = d.extract 0 16 := by
    apply Bytes.ext_get
    · rw [Bytes.size_extract_of_le (by omega), Bytes.size_extract_of_le (by omega)]
    · intro i low
      rw [Bytes.size_extract_of_le (by omega)] at low
      rw [Bytes.get_extract, Bytes.get_extract, bytes (0 + i) (by omega)]
  have size : e.u16? 16 = d.u16? 16 := by
    rw [Bytes.u16?_of_le (by omega), Bytes.u16?_of_le (by omega), same.at16 (Nat.zero_le _) (by decide)]
  unfold parse
  rw [if_neg (Nat.not_lt.mpr long), if_neg (Nat.not_lt.mpr long'), start, size,
    bytes 18 (by decide), bytes 19 (by decide), bytes 20 (by decide), bytes 21 (by decide),
    bytes 22 (by decide), bytes 23 (by decide), words changeCounterOffset (by decide),
    words databaseSizeOffset (by decide), words firstTrunkOffset (by decide),
    words freeCountOffset (by decide), words 40 (by decide), words 44 (by decide),
    words 48 (by decide), words largestRootOffset (by decide), words 56 (by decide),
    words 60 (by decide), words incrementalVacuumOffset (by decide), words 68 (by decide),
    words versionValidForOffset (by decide), words libraryVersionOffset (by decide)]

end FileHeader

namespace Database

open Pager (upon ofFile_run)

variable {file : File} {c : Config} {h : FileHeader} {p : Pager}

/-- A file with this page 1 can be opened. What it says about itself is `h`. -/
structure Opens (c : Config) (h : FileHeader) (first : Bytes) : Prop where
  parsed : FileHeader.parse first = .ok h
  allowed : (headerConfig h c).validate = .ok ()
  page : ∃ page, Page.parse 1 first (.ofPage 1 h.pageSize (headerConfig h c).usableSize)
    (.ofConfig (headerConfig h c)) = .ok page

theorem readStart_run (calm : p.file.refusal = none) (long : fileHeaderSize ≤ p.file.bytes.size) :
    Pager.readStart fileHeaderSize p =
      .ok (fileHeaderSize, p.file.bytes.extract 0 fileHeaderSize) p := by
  have size := Bytes.size_extract_of_le (a := 0) long
  have whole := Bytes.resize_self (p.file.bytes.extract 0 fileHeaderSize)
  rw [size, Nat.sub_zero] at whole
  refine Pager.onFile_ok.mpr ⟨p.file, ?_, rfl⟩
  unfold File.read
  rw [Action.bind_of_ok (Pager.checkCall_run calm)]
  show (do
    let d := (← get).bytes
    let present := min fileHeaderSize (d.size - 0)
    return (present, Bytes.resize (d.extract 0 (0 + present)) fileHeaderSize) : Action File _) p.file = _
  rw [Action.get_bind, Action.pure_run, Nat.sub_zero, Nat.min_eq_left long, Nat.zero_add, whole]

theorem setPageSize_run (calm : file.refusal = none) (old new : Nat) :
    Pager.setPageSize new (upon file old) = .ok () (upon file new) := by
  unfold Pager.setPageSize
  rw [Action.get_bind]
  by_cases same : new = old
  · subst same
    rw [if_neg (fun different => different rfl)]
    rfl
  · rw [if_pos (show new ≠ (upon file old).pageSize from same)]
    exact Pager.refreshCount_run calm

theorem findConfig_run (calm : file.refusal = none) (long : fileHeaderSize ≤ file.bytes.size)
    (parsed : FileHeader.parse (file.bytes.extract 0 fileHeaderSize) = .ok h)
    (allowed : (headerConfig h c).validate = .ok ()) :
    findConfig c (upon file c.pageSize) = .ok (headerConfig h c, false) (upon file h.pageSize) := by
  have read := readStart_run (p := upon file c.pageSize) calm long
  have accepted : validateHeader (headerConfig h c) = .ok () := by
    unfold validateHeader
    rw [allowed]
  have resized : Pager.setPageSize (headerConfig h c).pageSize (upon file c.pageSize) =
      .ok () (upon file h.pageSize) := setPageSize_run calm _ _
  have header : FileHeader.parse ((upon file c.pageSize).file.bytes.extract 0 fileHeaderSize) = .ok h :=
    parsed
  unfold findConfig
  rw [Action.bind_of_ok read]
  dsimp only
  rw [if_neg (by decide), if_neg (by decide), header, Action.lift_ok_bind, accepted, Action.lift_ok_bind]
  exact Action.bind_of_ok resized

/-- A page 1 that can be read as a tree page is all that a store on an old file needs. -/
theorem ofPager_run (sound : Pager.Sound { p with maxPages := max c.maxPages.toNat p.pageCount })
    (one : 1 ≤ p.pageCount) {page : Page}
    (parsed : Page.parse 1 (p.image 1) (.ofPage 1 c.pageSize c.usableSize) (.ofConfig c) = .ok page) :
    ∃ s, ofPager p c false = .ok s ∧ Store.Twins (Store.ofConfig p c) s ∧ s.pager.Sound := by
  let start := Store.ofConfig { p with maxPages := max c.maxPages.toNat p.pageCount } c
  obtain ⟨q, read, soundQ, similar⟩ :=
    Store.readPage_of_sound (s := start) sound Nat.one_ne_zero one
  have again : Page.parse 1 (start.pager.image 1) (Store.geometry { start with pager := q } 1)
      start.limits = .ok page := parsed
  have loaded : Store.loadPage 1 start = .ok page { start with pager := q } := by
    unfold Store.loadPage
    rw [Action.bind_of_ok read, Action.get_bind, again]
    rfl
  exact ⟨{ start with pager := q }, Action.applied_ok.mpr (Action.bind_of_ok loaded),
    ⟨similar.pages, rfl, rfl, rfl⟩, soundQ⟩

theorem openFile_run (calm : file.refusal = none) (valid : c.validate = .ok ())
    (one : 1 ≤ (upon file h.pageSize).pageCount) (opens : Opens c h ((upon file h.pageSize).image 1)) :
    ∃ s, openFile file c = .ok s ∧
      Store.Twins (Store.ofConfig (upon file h.pageSize) (headerConfig h c)) s ∧ s.pager.Sound := by
  have size : 512 ≤ h.pageSize := (isPageSize_bounds (Config.validate_ok opens.allowed).1).1
  have long : h.pageSize ≤ file.bytes.size := (Nat.one_le_div_iff (by omega)).mp one
  have hundred : fileHeaderSize = 100 := rfl
  have sound : Pager.Sound { upon file h.pageSize with
      maxPages := max (headerConfig h c).maxPages.toNat (upon file h.pageSize).pageCount } :=
    Pager.sound_of_unread calm (show 0 < h.pageSize by omega) (Nat.le_max_right _ _) rfl rfl rfl rfl
  obtain ⟨page, tree⟩ := opens.page
  have first : (upon file h.pageSize).image 1 = (upon file h.pageSize).fileImage 1 := by
    rw [← Pager.raw_upon]
    exact if_neg (Nat.not_lt.mpr one)
  have header : FileHeader.parse (file.bytes.extract 0 fileHeaderSize) = .ok h := by
    rw [← opens.parsed, first]
    refine FileHeader.parse_congr (fun i _ low => ?_) ?_ ?_
    · have inside : i < (upon file h.pageSize).pageSize := show i < h.pageSize by omega
      rw [Pager.get_fileImage _ (Nat.succ_ne_zero 0), if_pos inside, Bytes.get_extract, if_pos (by omega)]
      show _ = file.bytes.get! (0 * h.pageSize + i)
      rw [Nat.zero_mul]
    · rw [Pager.size_fileImage]
      exact Nat.le_trans (by omega) size
    · rw [Bytes.size_extract_of_le (by omega)]
      omega
  obtain ⟨s, run, twins, soundS⟩ := ofPager_run sound one tree
  refine ⟨s, ?_, twins, soundS⟩
  unfold openFile
  rw [valid, Except.ok_bind, ofFile_run calm, Except.ok_bind,
    Action.apply_ok.mpr (findConfig_run calm (by omega) header opens.allowed), Except.ok_bind]
  exact run

/-- A store that was opened on a copy of the file of `p` and shows what `p` does. -/
structure Copied (p : Pager) (c : Config) (h : FileHeader) (s : Store) : Prop where
  opened : openFile { bytes := p.file.bytes } c = .ok s
  agrees : Pager.Agrees p s.pager
  header : ∃ t, header s = .ok h t
  entries : ∀ root, Contents.entries? s root = Contents.entries? (.ofConfig p (headerConfig h c)) root

theorem copied (valid : c.validate = .ok ()) (size : h.pageSize = p.pageSize) (one : 1 ≤ p.pageCount)
    (opens : Opens c h (p.image 1)) (whole : p.file.bytes.size = p.pageCount * p.pageSize)
    (written : p.base = p.pages) : ∃ s, Copied p c h s := by
  have least : 512 ≤ h.pageSize := (isPageSize_bounds (Config.validate_ok opens.allowed).1).1
  have pages := Pager.pages_upon (show 0 < p.pageSize by omega) whole written
  rw [← size] at pages
  have sameCount : (upon { bytes := p.file.bytes } h.pageSize).pageCount = p.pageCount :=
    congrArg Pages.count pages
  have opens_ : Opens c h ((upon { bytes := p.file.bytes } h.pageSize).image 1) := by
    rw [Pager.image_eq, pages]
    exact opens
  obtain ⟨s, run, twins, sound⟩ := openFile_run rfl valid (sameCount ▸ one) opens_
  have same : s.pager.pages = p.pages := twins.pages.trans pages
  have count : s.pageCount = p.pageCount := congrArg Pages.count same
  obtain ⟨q, read, -⟩ := Store.readPage_of_sound sound Nat.one_ne_zero (count ▸ one)
  have told : FileHeader.parse (s.pager.image 1) = .ok h := by
    rw [Pager.image_eq, same]
    exact opens.parsed
  refine ⟨s, run, Pager.agrees_of_pages sound.calmed same, ⟨{ s with pager := q }, ?_⟩, ?_⟩
  · unfold header
    rw [Action.bind_of_ok read, told]
    rfl
  · have here : Store.Twins (.ofConfig p (headerConfig h c)) s :=
      ⟨same, twins.pageSize, twins.usableSize, twins.limits⟩
    exact here.entries?

def plain : Config := { pageSize := 512 }

def firstPage : Bytes :=
  (FileHeader.ofConfig plain).encode ++ Bytes.ofList [13, 0, 0, 0, 0, 2, 0, 0] ++ Bytes.zeros 404

theorem firstPage_opens : Opens plain (FileHeader.ofConfig plain) firstPage := by
  have page : (Page.parse 1 firstPage (.ofPage 1 512 512) (.ofConfig plain)).toOption.isSome := by
    decide +kernel
  refine ⟨by decide +kernel, by decide +kernel, ?_⟩
  cases found : Page.parse 1 firstPage (.ofPage 1 512 512) (.ofConfig plain) with
  | ok page => exact ⟨page, found⟩
  | error e =>
    rw [found] at page
    cases page

end Database

namespace Pager

/-- After a run of requests that leave no gaps, and none of whose commits failed, a commit leaves
the file with the images of the pages, one after the other, and with nothing else. Whoever opens a
copy of it, with whatever settings, finds the same pages, the same header and the same entries. -/
theorem commit_durable {file : File} {size : Nat} {p q : Pager} (positive : 0 < size)
    (whole : size ∣ file.bytes.size) (fits : file.bytes.size / size ≤ 0xfffffffe)
    (opened : ofFile file size = .ok p) {requests : List Request} (faultless : Faultless p requests)
    (committed : commit (serve p requests) = .ok () q) :
    Agrees (serve p requests) q ∧ q.file.bytes = joined q.images ∧
      ∀ (c : Config) (h : FileHeader), c.validate = .ok () → h.pageSize = size → 1 ≤ q.pageCount →
        Database.Opens c h (q.image 1) → ∃ s, Database.Copied q c h s := by
  obtain ⟨fresh, bytes⟩ := ofFile_ok opened
  have solid : Solid p := by
    rw [fresh]
    exact upon_solid positive (bytes ▸ whole) (bytes ▸ fits)
  have lasts := solid.serve faultless
  obtain ⟨done, pages, base⟩ := lasts.solid.commit committed
  obtain ⟨length, content⟩ := lasts.solid.commit_joined committed
  have sameSize : q.pageSize = size := by
    rw [done.pageSize, lasts.pageSize, fresh]
    rfl
  refine ⟨agrees_of_pages done.solid.sound pages, content, fun c h valid stated one opens => ?_⟩
  exact Database.copied valid (stated.trans sameSize.symm) one opens length (base.trans pages.symm)

def regrowth : List Request :=
  [.begin, .call (.access .extend), .call .openSavepoint, .call (.access (.truncate 1)),
    .call .rollbackSavepoint]

set_option maxRecDepth 8000 in
theorem regrowth_run {f : File} (size : f.bytes.size = 512) :
    Faultless (upon f 512) regrowth ∧ (serve (upon f 512) regrowth).file = f ∧
      (serve (upon f 512) regrowth).pageCount = 2 ∧
      (serve (upon f 512) regrowth).image 1 = f.bytes := by
  have start : upon f 512 = { file := f, pageSize := 512, pageCount := 1, startCount := 1 } := by
    unfold upon
    rw [size]
  rw [start]
  let p := serve { file := f, pageSize := 512, pageCount := 1, startCount := 1 } regrowth
  have file : p.file = f := rfl
  have count : p.pageCount = 2 := rfl
  have pageSize : p.pageSize = 512 := rfl
  have uncached : p.cache[1]? = none := rfl
  refine ⟨⟨trivial, trivial, trivial, rfl, trivial, trivial⟩, file, count, ?_⟩
  show p.image 1 = f.bytes
  unfold image fileImage
  rw [count, uncached, file, pageSize]
  show Bytes.resize (f.bytes.extract 0 512) 512 = f.bytes
  rw [← size, ByteArray.extract_zero_size, Bytes.resize_self]

theorem commit_durable_regrown :
    ∃ q, commit (serve (upon { bytes := Database.firstPage } 512) regrowth) = .ok () q ∧
      q.file.bytes = joined q.images ∧
        ∃ s, Database.Copied q Database.plain (FileHeader.ofConfig Database.plain) s := by
  have sizeFirst : Database.firstPage.size = 512 := by decide +kernel
  -- the bytes of the file are not to be looked at from here on
  obtain ⟨f, bytes, calm, same⟩ : ∃ f : File, f.bytes = Database.firstPage ∧ f.refusal = none ∧
      f = { bytes := Database.firstPage } := ⟨_, rfl, rfl, rfl⟩
  rw [← same]
  have size : f.bytes.size = 512 := by rw [bytes, sizeFirst]
  have whole : 512 ∣ f.bytes.size := size ▸ Nat.dvd_refl _
  have fits : f.bytes.size / 512 ≤ 0xfffffffe := by
    rw [size]
    decide
  obtain ⟨faultless, file, count, first⟩ := regrowth_run size
  have solid := ((upon_solid (by decide) whole fits).serve faultless).solid
  have still := calm_self ((congrArg File.refusal file).trans calm)
  obtain ⟨q, committed, -, pages, -⟩ := commit_run solid.sound
  rw [still] at committed pages
  have durable := commit_durable (by decide) whole fits (ofFile_run calm 512) faultless committed
  refine ⟨q, committed, durable.2.1, durable.2.2 _ _ rfl rfl ?_ ?_⟩
  · rw [show q.pageCount = 2 from (congrArg Pages.count pages).trans count]
    decide
  · rw [image_eq, pages, ← image_eq, first, bytes]
    exact Database.firstPage_opens

end Pager

end TreeFile
