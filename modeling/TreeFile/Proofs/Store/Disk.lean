import TreeFile.Proofs.Page.Slots
import TreeFile.Proofs.Pager.Commit
import TreeFile.Store

/-!
The store as a disk. A disk is what the store shows of its file: the settings that never change,
and an image of each page. How the pager comes by the images is of no interest from here on.
-/

namespace TreeFile

structure Disk where
  pageSize : Nat
  usableSize : Nat
  limits : PayloadLimits
  mapped : Bool
  maxPages : Nat
  count : Nat
  image : PageNo → Bytes

namespace Disk

def geometry (d : Disk) (page : Nat) : Geometry := .ofPage page d.pageSize d.usableSize

def isReserved (d : Disk) (page : Nat) : Bool :=
  (d.mapped && PointerMap.isMapPage d.usableSize d.pageSize page) || page == pendingPage d.pageSize

def put (d : Disk) (page : Nat) (data : Bytes) : Disk :=
  { d with image := fun n => if n = page then data else d.image n }

def word (d : Disk) (offset : Nat) : Nat := (d.image 1).at32 offset

theorem put_self (d : Disk) (page : Nat) (data : Bytes) : (d.put page data).image page = data :=
  if_pos rfl

theorem put_other (d : Disk) {page n : Nat} (data : Bytes) (other : n ≠ page) :
    (d.put page data).image n = d.image n := if_neg other

theorem word_put (d : Disk) (data : Bytes) (offset : Nat) :
    (d.put 1 data).word offset = data.at32 offset := by
  unfold word
  rw [put_self]

structure Sound (d : Disk) : Prop where
  config : ∃ c : Config, c.validate = .ok () ∧ d.pageSize = c.pageSize ∧
    d.usableSize = c.usableSize ∧ d.limits = .ofConfig c ∧ d.maxPages = c.maxPages.toNat
  sizes : ∀ n, (d.image n).size = d.pageSize
  bound : d.count ≤ d.maxPages

def Has (d : Disk) (page : Nat) : Prop := 1 ≤ page ∧ page ≤ d.count

end Disk

theorem isPageSize_bounds {size : Nat} (valid : isPageSize size = true) :
    512 ≤ size ∧ size ≤ 65536 := by
  unfold isPageSize at valid
  simp only [Bool.or_eq_true, beq_iff_eq] at valid
  omega

theorem Config.validate_ok {c : Config} (valid : c.validate = .ok ()) :
    isPageSize c.pageSize = true ∧ 480 ≤ c.usableSize ∧ c.minFraction ≠ 0 ∧
      c.minFraction ≤ c.maxFraction ∧ c.leafFraction ≠ 0 := by
  unfold Config.validate at valid
  split at valid
  · cases valid
  rename_i size
  split at valid
  · cases valid
  rename_i usable
  split at valid
  · cases valid
  rename_i fractions
  simp only [Bool.or_eq_true, beq_iff_eq, not_or, decide_eq_true_eq] at fractions
  unfold minUsableSize at usable
  refine ⟨by simpa using size, by omega, fractions.1.1, ?_, fractions.2⟩
  exact Nat.le_of_not_lt fractions.1.2

namespace Disk

variable {d : Disk}

theorem Sound.pageSize_bounds (sound : d.Sound) : 512 ≤ d.pageSize ∧ d.pageSize ≤ 65536 := by
  obtain ⟨c, valid, size, -⟩ := sound.config
  rw [size]
  exact isPageSize_bounds (Config.validate_ok valid).1

theorem Sound.usable_bounds (sound : d.Sound) : 480 ≤ d.usableSize ∧ d.usableSize ≤ d.pageSize := by
  obtain ⟨c, valid, size, usable, -⟩ := sound.config
  rw [size, usable]
  exact ⟨(Config.validate_ok valid).2.1, Nat.sub_le _ _⟩

theorem Sound.limits_usable (sound : d.Sound) : d.limits.usableSize = d.usableSize := by
  obtain ⟨c, -, -, usable, limits, -⟩ := sound.config
  rw [limits, usable]
  rfl

theorem Sound.maxPages_lt (sound : d.Sound) : d.maxPages < 4294967296 := by
  obtain ⟨c, -, -, -, -, same⟩ := sound.config
  rw [same]
  exact c.maxPages.toNat_lt

theorem Sound.has_lt (sound : d.Sound) {page : Nat} (has : d.Has page) : page < 4294967296 :=
  Nat.lt_of_le_of_lt (Nat.le_trans has.2 sound.bound) sound.maxPages_lt

theorem Sound.geometry (sound : d.Sound) (page : Nat) : (d.geometry page).Sound := by
  have size := sound.pageSize_bounds
  have usable := sound.usable_bounds
  refine ⟨usable.2, size.2, usable.1, ?_⟩
  unfold Disk.geometry Geometry.ofPage fileHeaderSize
  dsimp only
  split <;> omega

end Disk

namespace Store

def disk (s : Store) : Disk where
  pageSize := s.pageSize
  usableSize := s.usableSize
  limits := s.limits
  mapped := s.vacuum.isEnabled
  maxPages := s.pager.maxPages
  count := s.pager.pages.count
  image := s.pager.pages.image

structure Sound (s : Store) : Prop where
  pager : s.pager.Sound
  pageSize : s.pager.pageSize = s.pageSize
  disk : s.disk.Sound

structure Shows (s : Store) (d : Disk) : Prop where
  sound : s.Sound
  same : s.disk = d

structure Steady (s t : Store) : Prop where
  pager : Pager.Steady s.pager t.pager
  pageSize : t.pageSize = s.pageSize
  usableSize : t.usableSize = s.usableSize
  limits : t.limits = s.limits
  vacuum : t.vacuum = s.vacuum
  isOpen : t.isOpen = s.isOpen
  generation : s.generation ≤ t.generation

variable {s t u : Store} {d : Disk}

theorem Steady.refl (s : Store) : Steady s s := ⟨.refl _, rfl, rfl, rfl, rfl, rfl, Nat.le_refl _⟩

theorem Steady.trans (first : Steady s t) (second : Steady t u) : Steady s u :=
  ⟨first.pager.trans second.pager, second.pageSize.trans first.pageSize,
    second.usableSize.trans first.usableSize, second.limits.trans first.limits,
    second.vacuum.trans first.vacuum, second.isOpen.trans first.isOpen,
    Nat.le_trans first.generation second.generation⟩

theorem Shows.disk_sound (shows_ : Shows s d) : d.Sound := shows_.same ▸ shows_.sound.disk

theorem Shows.count (shows_ : Shows s d) : s.pageCount = d.count := by
  rw [← shows_.same]
  rfl

theorem Shows.geometry (shows_ : Shows s d) (page : Nat) : s.geometry page = d.geometry page := by
  rw [← shows_.same]
  rfl

theorem Shows.limits (shows_ : Shows s d) : s.limits = d.limits := by
  rw [← shows_.same]
  rfl

theorem Shows.pageSize (shows_ : Shows s d) : s.pageSize = d.pageSize := by
  rw [← shows_.same]
  rfl

theorem Shows.usableSize (shows_ : Shows s d) : s.usableSize = d.usableSize := by
  rw [← shows_.same]
  rfl

theorem Shows.mapped (shows_ : Shows s d) : s.vacuum.isEnabled = d.mapped := by
  rw [← shows_.same]
  rfl

theorem Shows.isReserved (shows_ : Shows s d) (page : Nat) : s.isReserved page = d.isReserved page := by
  rw [← shows_.same]
  rfl

theorem Shows.blank (shows_ : Shows s d) {page : Nat} (past : d.count < page) : d.image page = .zeros d.pageSize := by
  have size : s.pager.pageSize = d.pageSize := shows_.sound.pageSize.trans shows_.pageSize
  have count : s.pager.pageCount = d.count := shows_.count
  have image : d.image page = s.pager.pages.image page := by
    rw [← shows_.same]
    rfl
  rw [image, ← size]
  exact if_pos (by rw [count]; exact past)

theorem onPager_ok {α : Type} {act : Action Pager α} {a : α} :
    onPager act s = .ok a t ↔ ∃ p, act s.pager = .ok a p ∧ t = { s with pager := p } :=
  Action.zoom_ok

theorem shows_of_pager {p : Pager} (sound : s.Sound) (soundP : p.Sound)
    (steady : Pager.Steady s.pager p) (pages : ∃ count image, p.pages = ⟨count, image⟩ ∧
      d = { s.disk with count := count, image := image }) :
    Shows { s with pager := p } d ∧ Steady s { s with pager := p } := by
  obtain ⟨count, image, same, rfl⟩ := pages
  have disk : disk { s with pager := p } = { s.disk with count := count, image := image } := by
    unfold Store.disk
    dsimp only
    rw [same, steady.maxPages]
  refine ⟨⟨⟨soundP, steady.pageSize.trans sound.pageSize, ?_⟩, disk⟩,
    ⟨steady, rfl, rfl, rfl, rfl, rfl, Nat.le_refl _⟩⟩
  refine ⟨?_, fun n => ?_, soundP.count⟩
  · rw [disk]
    exact sound.disk.config
  · exact (Pager.size_image soundP n).trans (steady.pageSize.trans sound.pageSize)

theorem readPage_of_sound (sound : s.pager.Sound) {page : Nat} (positive : page ≠ 0)
    (low : page ≤ s.pageCount) :
    ∃ p, readPage page s = .ok (s.pager.image page) { s with pager := p } ∧ p.Sound ∧
      Pager.Similar s.pager p := by
  obtain ⟨p, image, fetched, data, soundP, similar⟩ :=
    Pager.fetch_run sound positive (Nat.le_trans low sound.count)
  have run : onPager (Pager.fetch page) s = .ok image { s with pager := p } :=
    onPager_ok.mpr ⟨p, fetched, rfl⟩
  refine ⟨p, ?_, soundP, similar⟩
  unfold readPage
  rw [Action.get_bind, if_neg (Pager.inside_of_bounds positive low)]
  dsimp only
  rw [Action.bind_of_ok run, Action.pure_run, data]
  rfl

theorem readPage_run (shows_ : Shows s d) {page : Nat} (has : d.Has page) :
    ∃ t, readPage page s = .ok (d.image page) t ∧ Shows t d ∧ Steady s t := by
  obtain ⟨p, read, soundP, similar⟩ := readPage_of_sound shows_.sound.pager
    (Nat.pos_iff_ne_zero.mp has.1) (shows_.count ▸ has.2)
  obtain ⟨showsT, steady⟩ := shows_of_pager (d := d) shows_.sound soundP similar.steady
    ⟨d.count, d.image, by rw [similar.pages, ← shows_.same]; rfl, by rw [← shows_.same]⟩
  refine ⟨_, ?_, showsT, steady⟩
  rw [read, ← shows_.same]
  rfl

theorem readPage_ok (shows_ : Shows s d) {page : Nat} {data : Bytes}
    (run : readPage page s = .ok data t) :
    d.Has page ∧ data = d.image page ∧ Shows t d ∧ Steady s t := by
  have has : d.Has page := by
    unfold readPage at run
    rw [Action.get_bind] at run
    by_cases outside : (decide (page = 0) || decide (page > s.pageCount)) = true
    · rw [if_pos outside] at run
      exact absurd run Action.throw_bind_ok
    · simp only [Bool.or_eq_true, decide_eq_true_eq, not_or, shows_.count] at outside
      exact ⟨Nat.pos_iff_ne_zero.mpr outside.1, Nat.le_of_not_lt outside.2⟩
  obtain ⟨u, again, showsU, steady⟩ := readPage_run shows_ has
  rw [again] at run
  cases run
  exact ⟨has, rfl, showsU, steady⟩

theorem putPage_run (shows_ : Shows s d) {page : Nat} {data : Bytes} (has : d.Has page)
    (size : data.size = d.pageSize) :
    ∃ t, putPage page data s = .ok () t ∧ Shows t (d.put page data) ∧ Steady s t := by
  have bound : page ≤ s.pager.maxPages := by
    have limit := shows_.disk_sound.bound
    have same : d.maxPages = s.pager.maxPages := by
      rw [← shows_.same]
      rfl
    rw [← same]
    exact Nat.le_trans has.2 limit
  have count : s.pager.pageCount = d.count := shows_.count
  obtain ⟨p, written, soundP, steadyP, pages⟩ :=
    Pager.write_run shows_.sound.pager (Nat.pos_iff_ne_zero.mp has.1) bound
      (size.trans (shows_.pageSize.symm.trans shows_.sound.pageSize.symm))
  have pages := pages (by have high := has.2; omega)
  obtain ⟨showsT, steady⟩ := shows_of_pager (d := d.put page data) shows_.sound soundP steadyP
    ⟨d.count, (d.put page data).image, by
      rw [pages]
      unfold Pages.put Disk.put
      have max_ : max s.pager.pages.count page = d.count := by
        have same : s.pager.pages.count = d.count := count
        rw [same]
        exact Nat.max_eq_left has.2
      rw [max_, ← shows_.same]
      rfl, by rw [← shows_.same]; rfl⟩
  exact ⟨_, onPager_ok.mpr ⟨p, written, rfl⟩, showsT, steady⟩

/-- A savepoint changes nothing that can be seen. -/
theorem Shows.openSavepoint (shows_ : Shows s d) : ∃ p n, Pager.openSavepoint s.pager = .ok n p ∧
    Shows { s with pager := p } d ∧ p.saved = some s.pager.pages := by
  obtain ⟨p, n, opened, sound, -, pages, -, saved, -, -, pageSize, maxPages⟩ :=
    Pager.openSavepoint_run shows_.sound.pager
  have same : disk { s with pager := p } = s.disk := by
    unfold disk
    rw [pages, maxPages]
  exact ⟨p, n, opened, ⟨⟨sound, pageSize.trans shows_.sound.pageSize, same ▸ shows_.sound.disk⟩,
    same.trans shows_.same⟩, saved⟩

/-- A page of 512 bytes with something at both ends. -/
def pageOf (front back : List UInt8) : PageImage where
  data := ⟨(front ++ List.replicate (512 - front.length - back.length) 0 ++ back).toArray⟩
  dirty := true

def shelved : List PageImage → (page : PageNo) → PageMap PageImage
  | [], _ => {}
  | image :: rest, page => (shelved rest (page + 1)).insert page image

theorem shelved_mem {images : List PageImage} {first page : PageNo} {image : PageImage}
    (found : (shelved images first)[page]? = some image) : first ≤ page ∧ image ∈ images := by
  induction images generalizing first with
  | nil =>
    unfold shelved at found
    rw [Std.TreeMap.getElem?_emptyc] at found
    cases found
  | cons head rest ih =>
    unfold shelved at found
    rw [Std.TreeMap.getElem?_insert] at found
    split at found
    · rename_i same
      cases found
      exact ⟨Nat.le_of_eq (Nat.compare_eq_eq.mp same), List.mem_cons_self⟩
    · obtain ⟨low, member⟩ := ih found
      exact ⟨Nat.le_of_succ_le low, List.mem_cons_of_mem _ member⟩

def unsaved (images : List PageImage) : Store :=
  .ofConfig { pageSize := 512, state := .writing, pageCount := images.length, cache := shelved images 1 }
    { pageSize := 512 }

theorem unsaved_shows {images : List PageImage} (fit : ∀ image ∈ images, image.data.size = 512 ∧ image.dirty = true)
    (few : images.length ≤ 4294967294) : (unsaved images).Shows (unsaved images).disk := by
  have cached {page : Nat} {image : PageImage} (found : (unsaved images).pager.cache[page]? = some image) :
      page ≠ 0 ∧ image.data.size = 512 ∧ image.dirty = true := by
    obtain ⟨low, member⟩ := shelved_mem found
    exact ⟨Nat.pos_iff_ne_zero.mp low, fit image member⟩
  have sound : (unsaved images).pager.Sound := by
    refine ⟨rfl, Nat.succ_pos 511, few, Nat.zero_le _, ?_, ?_, ?_, ?_, fun _ => nofun, fun other => absurd rfl other⟩
    · exact fun page image found => ⟨(cached found).1, (cached found).2.1⟩
    · intro page image found clean
      rw [(cached found).2.2] at clean
      cases clean
    · exact fun page image found _ => ⟨rfl, fun none => absurd (Nat.le_zero.mp none) (cached found).1⟩
    · intro page data found
      unfold unsaved Store.ofConfig at found
      rw [Std.TreeMap.getElem?_emptyc] at found
      cases found
  exact ⟨⟨sound, rfl, ⟨{ pageSize := 512 }, rfl, rfl, rfl, rfl, rfl⟩, Pager.size_image sound, few⟩, rfl⟩

end Store

end TreeFile
