import TreeFile.Proofs.Store.Disk

/-!
Tree pages and the file header on a disk: loading and writing pages, and reading and changing
fields of the header.
-/

namespace TreeFile

theorem PayloadLimits.fair_of_config {c : Config} (valid : c.validate = .ok ()) :
    (PayloadLimits.ofConfig c).Fair := by
  obtain ⟨size, usable, -, order, -⟩ := Config.validate_ok valid
  have bounds := isPageSize_bounds size
  refine fair_of_fractions usable ?_ order
  exact Nat.le_trans (Nat.sub_le _ _) bounds.2

namespace Disk

variable {d e f : Disk}

theorem Sound.fair (sound : d.Sound) : d.limits.Fair := by
  obtain ⟨c, valid, -, -, limits, -⟩ := sound.config
  rw [limits]
  exact PayloadLimits.fair_of_config valid

structure Alike (d e : Disk) : Prop where
  pageSize : e.pageSize = d.pageSize
  usableSize : e.usableSize = d.usableSize
  limits : e.limits = d.limits
  mapped : e.mapped = d.mapped
  maxPages : e.maxPages = d.maxPages

theorem Alike.refl (d : Disk) : Alike d d := ⟨rfl, rfl, rfl, rfl, rfl⟩

theorem Alike.trans (first : Alike d e) (second : Alike e f) : Alike d f :=
  ⟨second.pageSize.trans first.pageSize, second.usableSize.trans first.usableSize,
    second.limits.trans first.limits, second.mapped.trans first.mapped,
    second.maxPages.trans first.maxPages⟩

theorem Alike.geometry (alike : Alike d e) (page : Nat) : e.geometry page = d.geometry page := by
  unfold Disk.geometry
  rw [alike.pageSize, alike.usableSize]

theorem Alike.isReserved (alike : Alike d e) (page : Nat) : e.isReserved page = d.isReserved page := by
  unfold Disk.isReserved
  rw [alike.mapped, alike.usableSize, alike.pageSize]

theorem alike_put (d : Disk) (page : Nat) (data : Bytes) : Alike d (d.put page data) :=
  ⟨rfl, rfl, rfl, rfl, rfl⟩

def SameImage (d e : Disk) (page : Nat) : Prop :=
  ∀ i, (if page = 1 then 100 else 0) ≤ i → (e.image page).get! i = (d.image page).get! i

theorem SameImage.refl (d : Disk) (page : Nat) : SameImage d d page := fun _ _ => rfl

theorem SameImage.trans {page : Nat} (first : SameImage d e page) (second : SameImage e f page) :
    SameImage d f page := fun i low => (second i low).trans (first i low)

theorem SameImage.image {page : Nat} (same : SameImage d e page) (soundD : d.Sound)
    (soundE : e.Sound) (alike : Alike d e) (other : page ≠ 1) : e.image page = d.image page := by
  apply Bytes.ext_get
  · rw [soundE.sizes, soundD.sizes, alike.pageSize]
  · intro i _
    exact same i (by rw [if_neg other]; omega)

end Disk

structure Page.Of (p : Page) (d : Disk) (page : Nat) (kind : PageKind) : Prop where
  number : p.number = page
  geometry : p.geometry = d.geometry page
  limits : p.limits = d.limits
  kind : p.kind = kind

theorem Page.Of.alike {p : Page} {d e : Disk} {number : Nat} {kind : PageKind}
    (of_ : p.Of d number kind) (alike : Disk.Alike d e) : p.Of e number kind :=
  ⟨of_.number, of_.geometry.trans (alike.geometry number).symm, of_.limits.trans alike.limits.symm,
    of_.kind⟩

theorem Page.Of.withData {p : Page} {d : Disk} {number : Nat} {kind : PageKind}
    (of_ : p.Of d number kind) (data : Bytes) : Page.Of { p with data := data } d number kind :=
  ⟨of_.number, of_.geometry, of_.limits, of_.kind⟩

theorem Page.Alike.of {p q : Page} {d : Disk} {number : Nat} {kind : PageKind} (of_ : p.Of d number kind)
    (alike : Page.Alike p q) (kind' : q.kind = p.kind) : q.Of d number kind :=
  ⟨alike.number.trans of_.number, alike.geometry.trans of_.geometry, alike.limits.trans of_.limits,
    kind'.trans of_.kind⟩

def Disk.PageAt (d : Disk) (number : Nat) (kind : PageKind) (slots : List Slot)
    (right : Option PageNo) : Prop :=
  d.Has number ∧ ∃ p : Page, p.Of d number kind ∧ p.data = d.image number ∧ p.parked = [] ∧
    p.Bears slots right

theorem Page.Bears.reprefix {p : Page} {slots : List Slot} {right : Option PageNo}
    (bears : p.Bears slots right) {data : Bytes} (size : data.size = p.data.size)
    (same : ∀ i, p.headerStart ≤ i → data.get! i = p.data.get! i) :
    Page.Bears { p with data := data } slots right := by
  obtain ⟨placed, blocks, cells, tidy, all, held⟩ := bears.layout
  exact ⟨⟨placed, blocks, cells, tidy.reprefix size same, all, held⟩, bears.right⟩

namespace Disk

variable {d e : Disk} {number : Nat} {kind : PageKind} {slots : List Slot} {right : Option PageNo}

theorem PageAt.of_same (at_ : d.PageAt number kind slots right) (alike : Alike d e)
    (soundD : d.Sound) (soundE : e.Sound) (has : e.Has number) (same : SameImage d e number) :
    e.PageAt number kind slots right := by
  obtain ⟨-, p, of_, data, clear, bears⟩ := at_
  refine ⟨has, { p with data := e.image number }, ?_, rfl, clear, ?_⟩
  · exact ⟨of_.number, of_.geometry.trans (alike.geometry number).symm,
      of_.limits.trans alike.limits.symm, of_.kind⟩
  · refine bears.reprefix ?_ fun i low => ?_
    · rw [soundE.sizes, data, soundD.sizes, alike.pageSize]
    · rw [data]
      have start : p.headerStart = if number = 1 then 100 else 0 := by
        unfold Page.headerStart
        rw [of_.geometry]
        rfl
      exact same i (start ▸ low)

end Disk

namespace Store

variable {s t : Store} {d : Disk} {number : Nat} {kind : PageKind} {slots : List Slot}
  {right : Option PageNo}

/-- Loading a page answers what its image is parsed as, or fails as parsing it does. -/
theorem loadPage_parses (shows_ : Shows s d) (has : d.Has number) :
    ∃ t, loadPage number s = (liftM (Page.parse number (d.image number) (d.geometry number) d.limits) : StoreM Page) t ∧
      Shows t d ∧ Steady s t := by
  obtain ⟨t, read, showsT, steady⟩ := readPage_run shows_ has
  refine ⟨t, ?_, showsT, steady⟩
  unfold loadPage
  rw [Action.bind_of_ok read, Action.get_bind, showsT.geometry, showsT.limits]

theorem loadPage_run (shows_ : Shows s d) (at_ : d.PageAt number kind slots right) :
    ∃ p t, loadPage number s = .ok p t ∧ Shows t d ∧ Steady s t ∧ p.Of d number kind ∧
      p.parked = [] ∧ p.Bears slots right := by
  obtain ⟨has, p, of_, data, clear, bears⟩ := at_
  obtain ⟨t, loaded, showsT, steady⟩ := loadPage_parses shows_ has
  refine ⟨p, t, ?_, showsT, steady, of_, clear, bears⟩
  have parsed := bears.parse clear
  rw [of_.number, data, of_.geometry, of_.limits] at parsed
  rw [loaded, parsed]
  rfl

theorem loadPage_ok {p : Page} (shows_ : Shows s d) (at_ : d.PageAt number kind slots right)
    (run : loadPage number s = .ok p t) :
    Shows t d ∧ Steady s t ∧ p.Of d number kind ∧ p.parked = [] ∧ p.Bears slots right := by
  obtain ⟨q, u, again, all⟩ := loadPage_run shows_ at_
  rw [again] at run
  cases run
  exact all

theorem writePage_run {p : Page} (shows_ : Shows s d) (has : d.Has number) (of_ : p.Of d number kind)
    (clear : p.parked = []) (bears : p.Bears slots right) :
    ∃ data t, writePage p s = .ok () t ∧ Shows t (d.put number data) ∧ Steady s t ∧
      (d.put number data).PageAt number kind slots right ∧ data.size = d.pageSize ∧
      (number = 1 → ∀ i, i < 100 → data.get! i = (d.image 1).get! i) := by
  obtain ⟨soundP, sizeP⟩ := bears.sound
  have size : p.data.size = d.pageSize := by
    rw [sizeP, of_.geometry]
    rfl
  have sound := shows_.disk_sound
  have pageSize := sound.pageSize_bounds
  unfold writePage
  have settled : ¬ p.hasParked = true := by
    unfold Page.hasParked
    rw [clear]
    decide
  rw [if_neg settled]
  dsimp only
  rw [of_.number]
  have hundred : fileHeaderSize = 100 := rfl
  by_cases first : number = 1
  · subst first
    rw [if_pos rfl]
    obtain ⟨t, read, showsT, steadyT⟩ := readPage_run shows_ has
    rw [Action.bind_of_ok read, hundred]
    have sizeHeader : ((d.image 1).extract 0 100).size = 100 :=
      Bytes.size_extract_of_le (by rw [sound.sizes]; omega)
    have fits : 0 + ((d.image 1).extract 0 100).size ≤ p.data.size := by
      rw [sizeHeader, size]
      omega
    have sizeNew := Bytes.size_overwrite fits
    obtain ⟨u, written, showsU, steadyU⟩ := putPage_run showsT has (sizeNew.trans size)
    have start : p.headerStart = 100 := by
      unfold Page.headerStart
      rw [of_.geometry]
      rfl
    have kept := bears.reprefix sizeNew fun i low =>
      Bytes.get_overwrite_outside fits (by omega)
    have at_ : (d.put 1 (p.data.overwrite 0 ((d.image 1).extract 0 100))).PageAt 1 kind slots right :=
      ⟨has, { p with data := p.data.overwrite 0 ((d.image 1).extract 0 100) },
        (of_.withData _).alike (Disk.alike_put d 1 _), (d.put_self 1 _).symm, clear, kept⟩
    refine ⟨_, u, written, showsU, steadyT.trans steadyU, at_, sizeNew.trans size, ?_⟩
    · intro _ i low
      rw [Bytes.get_overwrite fits, if_pos (by omega), Bytes.get_extract, if_pos (by omega),
        Nat.sub_zero, Nat.zero_add]
  · rw [if_neg first]
    obtain ⟨u, written, showsU, steadyU⟩ := putPage_run shows_ has size
    refine ⟨p.data, u, written, showsU, steadyU, ⟨has, p, ?_, ?_, clear, bears⟩, size,
      fun same => absurd same first⟩
    · exact of_.alike (Disk.alike_put d number p.data)
    · exact (d.put_self number _).symm

theorem writePage_ok {p : Page} (run : writePage p s = .ok () t) : p.parked = [] := by
  unfold writePage at run
  by_cases settled : p.hasParked = true
  · rw [if_pos settled] at run
    exact absurd run Action.throw_bind_ok
  · unfold Page.hasParked at settled
    simpa using settled

theorem headerWord_run (shows_ : Shows s d) (has : d.Has 1) {offset : Nat} (inside : offset + 4 ≤ 100) :
    ∃ t, headerWord offset s = .ok (d.word offset) t ∧ Shows t d ∧ Steady s t := by
  obtain ⟨t, read, showsT, steady⟩ := readPage_run shows_ has
  have sound := shows_.disk_sound
  have pageSize := sound.pageSize_bounds
  refine ⟨t, ?_, showsT, steady⟩
  unfold headerWord
  rw [Action.bind_of_ok read, Bytes.u32_of_le (by rw [sound.sizes]; omega)]
  exact Action.lift_ok_run _ _

theorem setHeaderWord_run (shows_ : Shows s d) (has : d.Has 1) {offset value : Nat}
    (inside : offset + 4 ≤ 100) (small : value < 4294967296) :
    ∃ data t, setHeaderWord offset value s = .ok () t ∧ Shows t (d.put 1 data) ∧ Steady s t ∧
      (d.put 1 data).word offset = value ∧ data.size = d.pageSize ∧
      ∀ i, i < offset ∨ offset + 4 ≤ i → data.get! i = (d.image 1).get! i := by
  obtain ⟨t, read, showsT, steadyT⟩ := readPage_run shows_ has
  have sound := shows_.disk_sound
  have pageSize := sound.pageSize_bounds
  have size := sound.sizes 1
  have fits : offset + 4 ≤ (d.image 1).size := by omega
  unfold setHeaderWord
  rw [Action.bind_of_ok read, Bytes.u32_of_le fits]
  rw [Action.lift_ok_bind]
  by_cases already : (d.image 1).at32 offset = value
  · rw [if_neg fun different => different already]
    refine ⟨d.image 1, t, rfl, ?_, steadyT, ?_, size, fun _ _ => rfl⟩
    · have same : d.put 1 (d.image 1) = d := by
        unfold Disk.put
        congr 1
        funext n
        split
        · rename_i first
          rw [first]
        · rfl
      rw [same]
      exact showsT
    · rw [Disk.word_put]
      exact already
  · rw [if_pos already]
    have changed : Action.applied (Bytes.putU32 offset value) (d.image 1) =
        .ok ((d.image 1).overwrite offset (Bytes.ofNat32 value)) :=
      Action.applied_ok.mpr (Bytes.putU32_ok.mpr ⟨fits, rfl⟩)
    have room : offset + (Bytes.ofNat32 value).size ≤ (d.image 1).size := fits
    have sizeNew := (Bytes.size_overwrite room).trans size
    rw [changed, Action.lift_ok_bind]
    obtain ⟨u, written, showsU, steadyU⟩ := putPage_run showsT has sizeNew
    refine ⟨_, u, written, showsU, steadyT.trans steadyU, ?_, sizeNew, fun i outside =>
      Bytes.get_overwrite_outside room outside⟩
    rw [Disk.word_put, Bytes.at32_overwrite_same fits, Nat.mod_eq_of_lt small]

end Store

end TreeFile
