import TreeFile.Pager.Image
import TreeFile.Pager.Transaction
import TreeFile.Proofs.Bytes

/-!
What the pager shows. Its cache, its journal and its savepoints are seen only through three
versions of the file: the pages as they are now, as they were when the write transaction began,
and as they were when the savepoint was opened.
-/

namespace TreeFile

namespace PageMap

variable {α β : Type}

theorem get_insert (m : PageMap α) (k a : Nat) (v : α) :
    (m.insert k v)[a]? = if k = a then some v else m[a]? := by
  rw [Std.TreeMap.getElem?_insert]
  simp only [Std.LawfulEqCmp.compare_eq_iff_eq]

theorem get_insertIfNew (m : PageMap α) (k a : Nat) (v : α) :
    (m.insertIfNew k v)[a]? = if k = a ∧ m[a]? = none then some v else m[a]? := by
  rw [Std.TreeMap.getElem?_insertIfNew]
  simp only [Std.LawfulEqCmp.compare_eq_iff_eq, Std.TreeMap.mem_iff_isSome_getElem?]
  by_cases same : k = a
  · subst same
    cases m[k]? <;> simp
  · rw [if_neg (fun both => same both.1), if_neg (fun both => same both.1)]

theorem get_erase (m : PageMap α) (k a : Nat) :
    (m.erase k)[a]? = if k = a then none else m[a]? := by
  rw [Std.TreeMap.getElem?_erase]
  simp only [Std.LawfulEqCmp.compare_eq_iff_eq]

theorem get_filter (m : PageMap α) (keep : PageNo → α → Bool) (a : Nat) :
    (m.filter keep)[a]? = m[a]?.filter (keep a) := Std.TreeMap.getElem?_filter'

theorem mem_iff {m : PageMap α} {a : Nat} : a ∈ m ↔ ∃ v, m[a]? = some v := by
  rw [Std.TreeMap.mem_iff_isSome_getElem?, Option.isSome_iff_exists]

theorem contains_iff {m : PageMap α} {a : Nat} : m.contains a = true ↔ ∃ v, m[a]? = some v := by
  rw [Std.TreeMap.contains_iff_mem, mem_iff]

theorem foldl_insert_list (entries : List (PageNo × α)) (f : α → β) (base : PageMap β)
    (distinct : entries.Pairwise fun a b => ¬ compare a.1 b.1 = .eq) (a : Nat) :
    (entries.foldl (fun c entry => c.insert entry.1 (f entry.2)) base)[a]? =
      match entries.find? (fun entry => entry.1 == a) with
      | some entry => some (f entry.2)
      | none => base[a]? := by
  induction entries generalizing base with
  | nil => rfl
  | cons entry rest ih =>
    obtain ⟨apart, distinct⟩ := List.pairwise_cons.mp distinct
    rw [List.foldl_cons, ih _ distinct, List.find?_cons]
    by_cases same : entry.1 = a
    · have none : rest.find? (fun entry => entry.1 == a) = none := by
        rw [List.find?_eq_none]
        intro other member
        have different := apart other member
        simp only [beq_iff_eq]
        intro equal
        exact different (by rw [same, equal]; exact Std.ReflCmp.compare_self)
      rw [none]
      simp only [same, BEq.rfl, get_insert, if_true]
    · have different : (entry.1 == a) = false := by simpa using same
      rw [different, get_insert, if_neg same]

theorem find?_toList (m : PageMap α) (a : Nat) :
    m.toList.find? (fun entry => entry.1 == a) = m[a]?.map fun v => (a, v) := by
  cases found : m[a]? with
  | none =>
    rw [Option.map_none, List.find?_eq_none]
    intro entry member
    simp only [beq_iff_eq]
    rintro rfl
    have some := Std.TreeMap.mem_toList_iff_getElem?_eq_some.mp member
    rw [found] at some
    cases some
  | some v =>
    have member : (a, v) ∈ m.toList := Std.TreeMap.mem_toList_iff_getElem?_eq_some.mpr found
    cases first : m.toList.find? (fun entry => entry.1 == a) with
    | none =>
      have different := List.find?_eq_none.mp first (a, v) member
      simp at different
    | some entry =>
      have same : entry.1 = a := by simpa using List.find?_some first
      have isEntry := Std.TreeMap.mem_toList_iff_getElem?_eq_some.mp
        (show (entry.1, entry.2) ∈ m.toList from List.mem_of_find?_eq_some first)
      rw [same, found] at isEntry
      cases isEntry
      rw [← same]
      rfl

theorem get_foldl_insert (m : PageMap α) (f : α → β) (base : PageMap β) (a : Nat) :
    (m.foldl (fun c page v => c.insert page (f v)) base)[a]? = (m[a]?.map f).or base[a]? := by
  rw [Std.TreeMap.foldl_eq_foldl_toList,
    foldl_insert_list m.toList f base Std.TreeMap.distinct_keys_toList a, find?_toList]
  cases m[a]? <;> rfl

end PageMap

structure Pages where
  count : Nat
  image : PageNo → Bytes

namespace Pager

variable {p q : Pager}

def raw (p : Pager) (page : Nat) : Bytes :=
  match p.cache[page]? with
  | some image => image.data
  | none => p.fileImage page

def cut (count pageSize : Nat) (image : PageNo → Bytes) : Pages where
  count := count
  image := fun page => if page > count then .zeros pageSize else image page

theorem cut_congr {count count' size size' : Nat} {f g : PageNo → Bytes} (sameCount : count = count')
    (sameSize : size = size') (same : ∀ n : Nat, n ≤ count → f n = g n) :
    cut count size f = cut count' size' g := by
  subst sameCount sameSize
  unfold cut
  congr 1
  funext n
  by_cases past : n > count
  · rw [if_pos past, if_pos past]
  · rw [if_neg past, if_neg past]
    exact same n (Nat.le_of_not_lt past)

def pages (p : Pager) : Pages := cut p.pageCount p.pageSize p.raw

def base (p : Pager) : Pages := cut p.startCount p.pageSize p.fileImage

def saved (p : Pager) : Option Pages :=
  p.savepoints.head?.map fun s =>
    cut s.pageCount p.pageSize fun page => (s.undo[page]?).getD (p.raw page)

theorem image_eq (p : Pager) (page : Nat) : p.image page = p.pages.image page := rfl

theorem images_of_pages (same : q.pages = p.pages) :
    q.pageCount = p.pageCount ∧ q.images = p.images := by
  have count : q.pageCount = p.pageCount := congrArg Pages.count same
  refine ⟨count, ?_⟩
  unfold Pager.images
  rw [count]
  exact List.map_congr_left fun i _ => by rw [Pager.image_eq, Pager.image_eq, same]

structure Sound (p : Pager) : Prop where
  calm : p.file.refusal = none
  positive : 0 < p.pageSize
  count : p.pageCount ≤ p.maxPages
  start : p.startCount ≤ p.maxPages
  cached : ∀ page image, p.cache[page]? = some image → page ≠ 0 ∧ image.data.size = p.pageSize
  clean : ∀ page image, p.cache[page]? = some image → image.dirty = false →
    image.data = p.fileImage page
  dirty : ∀ page image, p.cache[page]? = some image → image.dirty = true →
    p.state = .writing ∧ (page ≤ p.startCount → page ∈ p.journal)
  journal : ∀ page data, p.journal[page]? = some data →
    page ≠ 0 ∧ page ≤ p.startCount ∧ data = p.fileImage page
  savepoints : ∀ s ∈ p.savepoints, s.pageCount ≤ p.maxPages ∧ ∀ page data, s.undo[page]? = some data →
    page ≠ 0 ∧ page ≤ s.pageCount ∧ data.size = p.pageSize ∧ (page ≤ p.startCount → page ∈ p.journal)
  rest : p.state ≠ .writing → p.pageCount = p.startCount ∧ p.savepoints = []

theorem sound_of_unread (calm : p.file.refusal = none) (positive : 0 < p.pageSize)
    (bound : p.pageCount ≤ p.maxPages) (start : p.startCount = p.pageCount) (cache : p.cache = {})
    (journal : p.journal = {}) (closed : p.savepoints = []) : Sound p := by
  have unread : ∀ (page : Nat) (image : PageImage), p.cache[page]? ≠ some image := by
    intro page image found
    rw [cache, Std.TreeMap.getElem?_emptyc] at found
    cases found
  refine ⟨calm, positive, bound, start ▸ bound, ?_, ?_, ?_, ?_, ?_, fun _ => ⟨start.symm, closed⟩⟩
  · exact fun page image found => absurd found (unread page image)
  · exact fun page image found => absurd found (unread page image)
  · exact fun page image found => absurd found (unread page image)
  · intro page data found
    rw [journal, Std.TreeMap.getElem?_emptyc] at found
    cases found
  · intro s member
    rw [closed] at member
    cases member

structure Steady (p q : Pager) : Prop where
  file : q.file = p.file
  pageSize : q.pageSize = p.pageSize
  maxPages : q.maxPages = p.maxPages
  base : q.base = p.base
  saved : q.saved = p.saved
  outer : q.savepoints.tail = p.savepoints.tail

theorem Steady.refl (p : Pager) : Steady p p := ⟨rfl, rfl, rfl, rfl, rfl, rfl⟩

theorem Steady.trans {r : Pager} (first : Steady p q) (second : Steady q r) : Steady p r :=
  ⟨second.file.trans first.file, second.pageSize.trans first.pageSize,
    second.maxPages.trans first.maxPages, second.base.trans first.base,
    second.saved.trans first.saved, second.outer.trans first.outer⟩

theorem saved_eq_none : p.saved = none ↔ p.savepoints = [] := by
  unfold saved
  rw [Option.map_eq_none_iff, List.head?_eq_none_iff]

theorem opened_of_saved {v : Pages} (saved : p.saved = some v) :
    ∃ inner, p.savepoints = inner :: p.savepoints.tail := by
  cases opened : p.savepoints with
  | nil =>
    rw [saved_eq_none.mpr opened] at saved
    cases saved
  | cons inner stack => exact ⟨inner, rfl⟩

theorem size_fileImage (p : Pager) (page : Nat) : (p.fileImage page).size = p.pageSize :=
  Bytes.size_resize _ _

theorem size_raw (sound : Sound p) (page : Nat) : (p.raw page).size = p.pageSize := by
  unfold raw
  split
  · rename_i image found
    exact (sound.cached page image found).2
  · exact p.size_fileImage page

theorem size_image (sound : Sound p) (page : Nat) : (p.pages.image page).size = p.pageSize := by
  show (if page > p.pageCount then _ else _ : Bytes).size = _
  split
  · exact Bytes.size_zeros _
  · exact size_raw sound page

theorem fileImage_zero (p : Pager) : p.fileImage 0 = .zeros p.pageSize := by
  apply Bytes.ext_get
  · rw [size_fileImage, Bytes.size_zeros]
  · intro i _
    unfold fileImage
    rw [Bytes.get_resize, Bytes.get_zeros, Bytes.get_extract]
    split
    · rw [if_neg (by omega)]
    · rfl

theorem span_end {page : Nat} (positive : page ≠ 0) (size : Nat) :
    page * size = (page - 1) * size + size := by
  cases page with
  | zero => exact absurd rfl positive
  | succ n => exact Nat.succ_mul n size

theorem get_fileImage (p : Pager) {page : Nat} (positive : page ≠ 0) (i : Nat) :
    (p.fileImage page).get! i =
      if i < p.pageSize then p.file.bytes.get! ((page - 1) * p.pageSize + i) else 0 := by
  unfold fileImage
  rw [Bytes.get_resize]
  split
  · rw [Bytes.get_extract, if_pos]
    have next := span_end positive p.pageSize
    omega
  · rfl

structure Similar (p q : Pager) : Prop where
  file : q.file = p.file
  pageSize : q.pageSize = p.pageSize
  pageCount : q.pageCount = p.pageCount
  startCount : q.startCount = p.startCount
  maxPages : q.maxPages = p.maxPages
  journal : q.journal = p.journal
  savepoints : q.savepoints = p.savepoints
  writing : q.state = .writing ↔ p.state = .writing
  raw : q.raw = p.raw

theorem Similar.refl (p : Pager) : Similar p p := ⟨rfl, rfl, rfl, rfl, rfl, rfl, rfl, .rfl, rfl⟩

theorem Similar.trans {r : Pager} (first : Similar p q) (second : Similar q r) : Similar p r :=
  ⟨second.file.trans first.file, second.pageSize.trans first.pageSize,
    second.pageCount.trans first.pageCount, second.startCount.trans first.startCount,
    second.maxPages.trans first.maxPages, second.journal.trans first.journal,
    second.savepoints.trans first.savepoints, second.writing.trans first.writing,
    second.raw.trans first.raw⟩

theorem Similar.pages (similar : Similar p q) : q.pages = p.pages := by
  unfold Pager.pages
  rw [similar.pageCount, similar.pageSize, similar.raw]

theorem Similar.fileImage (similar : Similar p q) : q.fileImage = p.fileImage := by
  unfold Pager.fileImage
  rw [similar.file, similar.pageSize]

theorem Similar.steady (similar : Similar p q) : Steady p q where
  file := similar.file
  pageSize := similar.pageSize
  maxPages := similar.maxPages
  base := by
    unfold Pager.base
    rw [similar.startCount, similar.pageSize, similar.fileImage]
  saved := by
    unfold Pager.saved
    rw [similar.savepoints, similar.pageSize, similar.raw]
  outer := by rw [similar.savepoints]

theorem Sound.of_similar (sound : Sound p) (similar : Similar p q)
    (cached : ∀ page image, q.cache[page]? = some image → p.cache[page]? = some image ∨
      page ≠ 0 ∧ image = { data := p.fileImage page }) : Sound q := by
  refine ⟨?_, ?_, ?_, ?_, ?_, ?_, ?_, ?_, ?_, ?_⟩
  · rw [similar.file]
    exact sound.calm
  · rw [similar.pageSize]
    exact sound.positive
  · rw [similar.pageCount, similar.maxPages]
    exact sound.count
  · rw [similar.startCount, similar.maxPages]
    exact sound.start
  · intro page image found
    rw [similar.pageSize]
    rcases cached page image found with old | ⟨positive, rfl⟩
    · exact sound.cached page image old
    · exact ⟨positive, p.size_fileImage page⟩
  · intro page image found clean
    rw [similar.fileImage]
    rcases cached page image found with old | ⟨positive, rfl⟩
    · exact sound.clean page image old clean
    · rfl
  · intro page image found dirty
    rw [similar.writing, similar.startCount, similar.journal]
    rcases cached page image found with old | ⟨positive, rfl⟩
    · exact sound.dirty page image old dirty
    · cases dirty
  · intro page data found
    rw [similar.journal] at found
    rw [similar.startCount, similar.fileImage]
    exact sound.journal page data found
  · intro s member
    rw [similar.savepoints] at member
    rw [similar.maxPages, similar.pageSize, similar.startCount, similar.journal]
    exact sound.savepoints s member
  · intro calm
    rw [similar.pageCount, similar.startCount, similar.savepoints]
    exact sound.rest fun writing => calm (similar.writing.mpr writing)

theorem foldl_erase (pages : List Nat) (cache : PageMap PageImage) (a : Nat) :
    (pages.foldl (fun cache page => cache.erase page) cache)[a]? =
      if a ∈ pages then none else cache[a]? := by
  induction pages generalizing cache with
  | nil => simp
  | cons page rest ih =>
    rw [List.foldl_cons, ih, PageMap.get_erase]
    by_cases later : a ∈ rest
    · rw [if_pos later, if_pos (List.mem_cons_of_mem _ later)]
    · rw [if_neg later]
      by_cases same : page = a
      · rw [if_pos same, if_pos (same ▸ List.mem_cons_self)]
      · rw [if_neg same, if_neg]
        intro member
        rcases List.mem_cons.mp member with rfl | old
        · exact same rfl
        · exact later old

theorem victims_clean {page : Nat} (member : page ∈ p.victims) :
    ∃ image, p.cache[page]? = some image ∧ image.dirty = false := by
  unfold victims at member
  have member := (List.mem_filter.mp (List.mem_of_mem_take member)).2
  have member : page ∈ p.cleanPages := by simpa using member
  unfold cleanPages at member
  obtain ⟨⟨other, image⟩, found, same⟩ := List.mem_filterMap.mp member
  dsimp only at same
  split at same
  · cases same
  · rename_i clean
    cases same
    exact ⟨image, Std.TreeMap.mem_toList_iff_getElem?_eq_some.mp found, by simpa using clean⟩

theorem evict_cache {page : Nat} {image : PageImage} (held : p.evict.cache[page]? = some image) :
    p.cache[page]? = some image := by
  unfold evict at held
  split at held
  · exact held
  · dsimp only at held
    rw [foldl_erase] at held
    split at held
    · cases held
    · exact held

theorem evict_absent {page : Nat} (absent : p.cache[page]? = none) : p.evict.cache[page]? = none := by
  cases held : p.evict.cache[page]? with
  | none => rfl
  | some image => cases absent.symm.trans (evict_cache held)

theorem evict_similar (sound : Sound p) : Similar p p.evict ∧ p.evict.state = p.state := by
  unfold evict
  split
  · exact ⟨.refl p, rfl⟩
  · refine ⟨⟨rfl, rfl, rfl, rfl, rfl, rfl, rfl, .rfl, ?_⟩, rfl⟩
    funext page
    unfold raw
    dsimp only
    rw [foldl_erase]
    by_cases member : page ∈ p.victims
    · obtain ⟨image, found, clean⟩ := victims_clean member
      rw [if_pos member, found]
      exact (sound.clean page image found clean).symm
    · rw [if_neg member]
      rfl

theorem onFile_ok {α : Type} {act : Action File α} {a : α} :
    onFile act p = .ok a q ↔ ∃ f, act p.file = .ok a f ∧ q = { p with file := f } := Action.zoom_ok

theorem checkCall_run {call : FileCall} {f : File} (calm : f.refusal = none) :
    File.checkCall call f = .ok () f := by
  unfold File.checkCall
  rw [calm]

theorem position_offset (p : Pager) {page : Nat} (positive : page ≠ 0) :
    File.position (p.offset page) = .ok ((page - 1) * p.pageSize) := by
  have eq : p.offset page = (((page - 1) * p.pageSize : Nat) : Int) := by
    unfold offset
    rw [Int.natCast_mul, Int.natCast_sub (by omega)]
    rfl
  unfold File.position
  rw [eq, if_neg (by omega)]
  rfl

theorem read_run (calm : p.file.refusal = none) {page : Nat} (positive : page ≠ 0) :
    ∃ present, onFile (File.read p.pageSize (p.offset page)) p =
      .ok (present, p.fileImage page) p := by
  refine ⟨min p.pageSize (p.file.bytes.size - (page - 1) * p.pageSize), ?_⟩
  refine onFile_ok.mpr ⟨p.file, ?_, rfl⟩
  have same : Bytes.resize (p.file.bytes.extract ((page - 1) * p.pageSize)
      ((page - 1) * p.pageSize +
        min p.pageSize (p.file.bytes.size - (page - 1) * p.pageSize))) p.pageSize =
      p.fileImage page := by
    apply Bytes.ext_get
    · rw [Bytes.size_resize, size_fileImage]
    · intro i h
      rw [Bytes.size_resize] at h
      rw [Bytes.get_resize, if_pos h, p.get_fileImage positive, if_pos h, Bytes.get_extract]
      split
      · rfl
      · rw [Bytes.get_of_ge]
        omega
  unfold File.read
  rw [Action.bind_of_ok (checkCall_run calm), p.position_offset positive, Action.lift_ok_bind, Action.get_bind]
  exact congrArg (fun data => EStateM.Result.ok (_, data) p.file) same

theorem load_run (sound : Sound p) {page : Nat} (positive : page ≠ 0) :
    ∃ q image, load page p = .ok image q ∧ image.data = p.raw page ∧ Sound q ∧ Similar p q ∧
      q.state = p.state := by
  unfold load
  rw [Action.get_bind]
  cases found : p.cache[page]? with
  | some image =>
    refine ⟨p, image, rfl, ?_, sound, .refl p, rfl⟩
    unfold raw
    rw [found]
  | none =>
    obtain ⟨present, read⟩ := read_run sound.calm positive
    have blank : p.raw page = p.fileImage page := by
      unfold raw
      rw [found]
    dsimp only
    rw [Action.bind_of_ok read]
    dsimp only
    rw [Action.modify_bind]
    -- the count of reads makes no difference to anything else
    have counted : ∀ r : Pager, Similar p r → r.state = p.state → r.cache = p.cache →
        Sound (r.evict.store page { data := p.fileImage page }) ∧
          Similar p (r.evict.store page { data := p.fileImage page }) ∧
          (r.evict.store page { data := p.fileImage page }).state = p.state := by
      intro r similar state cache
      have soundR : Sound r := sound.of_similar similar fun other image held =>
        .inl (cache ▸ held)
      obtain ⟨evicted, stateE⟩ := evict_similar soundR
      have stored : Similar r.evict (r.evict.store page { data := p.fileImage page }) := by
        refine ⟨rfl, rfl, rfl, rfl, rfl, rfl, rfl, .rfl, ?_⟩
        funext other
        unfold store raw
        dsimp only
        rw [PageMap.get_insert]
        by_cases same : page = other
        · subst same
          have absent : r.cache[page]? = none := by rw [cache, found]
          rw [if_pos rfl, evict_absent absent]
          dsimp only
          rw [evicted.fileImage, similar.fileImage]
        · rw [if_neg same]
          rfl
      refine ⟨?_, (similar.trans evicted).trans stored, stateE.trans state⟩
      refine soundR.of_similar (evicted.trans stored) fun other image held => ?_
      unfold store at held
      dsimp only at held
      rw [PageMap.get_insert] at held
      split at held
      · rename_i same
        cases held
        refine .inr ⟨same ▸ positive, ?_⟩
        rw [same, similar.fileImage]
      · exact .inl (evict_cache held)
    by_cases some : present > 0
    · have all := counted { p with reads := p.reads + 1 }
        ⟨rfl, rfl, rfl, rfl, rfl, rfl, rfl, .rfl, rfl⟩ rfl rfl
      refine ⟨_, _, rfl, blank.symm, ?_⟩
      rw [if_pos some]
      exact all
    · have all := counted p (.refl p) rfl rfl
      refine ⟨_, _, rfl, blank.symm, ?_⟩
      rw [if_neg some]
      exact all

theorem inside_of_bounds {limit page : Nat} (positive : page ≠ 0) (bound : page ≤ limit) :
    ¬ ((decide (page = 0) || decide (page > limit)) = true) := by
  simp only [Bool.or_eq_true, decide_eq_true_eq]
  omega

theorem fetch_run (sound : Sound p) {page : Nat} (positive : page ≠ 0) (bound : page ≤ p.maxPages) :
    ∃ q image, fetch page p = .ok image q ∧ image.data = p.pages.image page ∧ Sound q ∧
      Similar p q := by
  have image : p.pages.image page = if page > p.pageCount then .zeros p.pageSize else p.raw page := rfl
  have rest : ∀ r : Pager, Sound r → Similar p r →
      ∃ q image, (do if page > p.pageCount then return .blank p.pageSize else load page :
        Action Pager PageImage) r = .ok image q ∧ image.data = p.pages.image page ∧ Sound q ∧
          Similar p q := by
    intro r soundR similar
    by_cases past : page > p.pageCount
    · rw [if_pos past]
      refine ⟨r, _, rfl, ?_, soundR, similar⟩
      rw [image, if_pos past]
      rfl
    · rw [if_neg past]
      obtain ⟨q, found, run, data, soundQ, more, -⟩ := load_run soundR positive
      refine ⟨q, found, run, ?_, soundQ, similar.trans more⟩
      rw [image, if_neg past, data, similar.raw]
  unfold fetch
  rw [Action.get_bind, if_neg (inside_of_bounds positive bound)]
  dsimp only
  by_cases idle : p.state = .idle
  · have similar : Similar p { p with state := .reading } := by
      refine ⟨rfl, rfl, rfl, rfl, rfl, rfl, rfl, ?_, rfl⟩
      dsimp only
      rw [idle]
      exact ⟨nofun, nofun⟩
    rw [if_pos idle, Action.modify_bind]
    exact rest _ (sound.of_similar similar fun _ _ found => .inl found) similar
  · rw [if_neg idle]
    exact rest p sound (.refl p)

theorem load_holds {page : Nat} {image : PageImage} (run : load page p = .ok image q) :
    q.pageCount = p.pageCount ∧ q.raw page = image.data := by
  unfold load at run
  rw [Action.get_bind] at run
  cases found : p.cache[page]? with
  | some held =>
    rw [found] at run
    obtain ⟨rfl, rfl⟩ := Action.pure_ok.mp run
    refine ⟨rfl, ?_⟩
    unfold raw
    rw [found]
  | none =>
    rw [found] at run
    obtain ⟨⟨present, data⟩, r, read, run⟩ := Action.bind_ok.mp run
    obtain ⟨f, -, rfl⟩ := onFile_ok.mp read
    dsimp only at run
    rw [Action.modify_bind] at run
    obtain ⟨rfl, rfl⟩ := Action.pure_ok.mp run
    refine ⟨?_, ?_⟩
    · unfold store evict
      dsimp only
      split <;> split <;> rfl
    · unfold raw store
      dsimp only
      rw [PageMap.get_insert, if_pos rfl]

theorem fetch_holds {page : Nat} {image : PageImage} (run : fetch page p = .ok image q)
    (inside : page ≤ p.pageCount) : q.pageCount = p.pageCount ∧ q.image page = image.data := by
  have loaded : ∀ r : Pager, r.pageCount = p.pageCount → load page r = .ok image q →
      q.pageCount = p.pageCount ∧ q.image page = image.data := by
    intro r count run
    obtain ⟨same, held⟩ := load_holds run
    refine ⟨same.trans count, ?_⟩
    rw [← held]
    exact if_neg (Nat.not_lt.mpr (same.trans count ▸ inside))
  unfold fetch at run
  rw [Action.get_bind] at run
  split at run
  · exact absurd run Action.throw_bind_ok
  dsimp only at run
  rw [if_neg (Nat.not_lt.mpr inside)] at run
  by_cases idle : p.state = .idle
  · rw [if_pos idle, Action.modify_bind] at run
    exact loaded { p with state := .reading } rfl run
  · rw [if_neg idle] at run
    exact loaded p rfl run

end Pager

end TreeFile
