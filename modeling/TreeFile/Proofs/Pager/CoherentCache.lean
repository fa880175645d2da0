import TreeFile.Proofs.Pager.Durability

/-!
Caches that agree with the file. Two pagers that offer the same image for every page, and otherwise hold the
same, answer every call alike and offer the same afterwards, whichever clean images they have kept.
-/

namespace TreeFile

namespace Pager

variable {p q r p' q' : Pager} {α β : Type}

/-- The cache, the journal and the savepoints are as the file says, but for what the transaction
has changed. -/
structure Coherent (p : Pager) : Prop where
  calm : p.file.refusal = none
  cached : ∀ (page : Nat) (image : PageImage), p.cache[page]? = some image →
    page ≠ 0 ∧ image.data.size = p.pageSize
  clean : ∀ (page : Nat) (image : PageImage), p.cache[page]? = some image → image.dirty = false →
    image.data = p.fileImage page
  dirty : ∀ (page : Nat) (image : PageImage), p.cache[page]? = some image → image.dirty = true →
    p.state = .writing ∧ (page ≤ p.startCount → page ∈ p.journal)
  journal : ∀ (page : Nat) (data : Bytes), p.journal[page]? = some data →
    page ≠ 0 ∧ data = p.fileImage page
  savepoints : ∀ s ∈ p.savepoints, ∀ (page : Nat) (data : Bytes), s.undo[page]? = some data →
    page ≠ 0 ∧ data.size = p.pageSize ∧ (page ≤ p.startCount → page ∈ p.journal)
  rest : p.state ≠ .writing → p.savepoints = []

def offers (p : Pager) (page : Nat) : PageImage :=
  match p.cache[page]? with
  | some image => image
  | none => { data := p.fileImage page }

theorem offers_cached {page : Nat} {image : PageImage} (held : p.cache[page]? = some image) :
    p.offers page = image := by
  unfold offers
  rw [held]

theorem offers_absent {page : Nat} (absent : p.cache[page]? = none) :
    p.offers page = { data := p.fileImage page } := by
  unfold offers
  rw [absent]

namespace Coherent

variable {page : Nat} {data : Bytes}

theorem offers_clean (coherent : Coherent p) (clean : (p.offers page).dirty = false) :
    p.offers page = { data := p.fileImage page } := by
  cases held : p.cache[page]? with
  | none => exact offers_absent held
  | some image =>
    rw [offers_cached held] at clean ⊢
    have same := coherent.clean page image held clean
    obtain ⟨data, dirty⟩ := image
    cases clean
    exact congrArg (fun data => ({ data } : PageImage)) same

theorem offers_dirty (dirty : (p.offers page).dirty = true) : p.cache[page]? = some (p.offers page) := by
  cases held : p.cache[page]? with
  | none =>
    rw [offers_absent held] at dirty
    cases dirty
  | some image => rw [offers_cached held]

theorem offers_idle (coherent : Coherent p) (idle : p.state ≠ .writing) (page : Nat) :
    p.offers page = { data := p.fileImage page } := by
  refine coherent.offers_clean ?_
  cases dirty : (p.offers page).dirty with
  | false => rfl
  | true => exact absurd (coherent.dirty page _ (offers_dirty dirty) dirty).1 idle

theorem offers_unjournaled (coherent : Coherent p) (old : page ≤ p.startCount) (lacks : page ∉ p.journal) :
    p.offers page = { data := p.fileImage page } := by
  refine coherent.offers_clean ?_
  cases dirty : (p.offers page).dirty with
  | false => rfl
  | true => exact absurd ((coherent.dirty page _ (offers_dirty dirty) dirty).2 old) lacks

theorem size_offers (coherent : Coherent p) (page : Nat) : (p.offers page).data.size = p.pageSize := by
  cases held : p.cache[page]? with
  | none =>
    rw [offers_absent held]
    exact p.size_fileImage page
  | some image =>
    rw [offers_cached held]
    exact (coherent.cached page image held).2

end Coherent

/-- The pagers differ at most in their caches, and there only in clean images. -/
structure Twins (p q : Pager) : Prop where
  file : q.file = p.file
  pageSize : q.pageSize = p.pageSize
  state : q.state = p.state
  pageCount : q.pageCount = p.pageCount
  startCount : q.startCount = p.startCount
  maxPages : q.maxPages = p.maxPages
  journal : q.journal = p.journal
  savepoints : q.savepoints = p.savepoints
  writes : q.writes = p.writes
  offers : q.offers = p.offers

namespace Twins

theorem refl (p : Pager) : Twins p p := ⟨rfl, rfl, rfl, rfl, rfl, rfl, rfl, rfl, rfl, rfl⟩

theorem symm (twins : Twins p q) : Twins q p :=
  ⟨twins.file.symm, twins.pageSize.symm, twins.state.symm, twins.pageCount.symm, twins.startCount.symm,
    twins.maxPages.symm, twins.journal.symm, twins.savepoints.symm, twins.writes.symm, twins.offers.symm⟩

theorem trans (first : Twins p q) (second : Twins q r) : Twins p r :=
  ⟨second.file.trans first.file, second.pageSize.trans first.pageSize, second.state.trans first.state,
    second.pageCount.trans first.pageCount, second.startCount.trans first.startCount,
    second.maxPages.trans first.maxPages, second.journal.trans first.journal,
    second.savepoints.trans first.savepoints, second.writes.trans first.writes,
    second.offers.trans first.offers⟩

theorem fileImage (twins : Twins p q) (page : Nat) : q.fileImage page = p.fileImage page := by
  unfold Pager.fileImage
  rw [twins.file, twins.pageSize]

theorem of_idle (left : Coherent p) (right : Coherent q) (idle : p.state ≠ .writing) (file : q.file = p.file)
    (pageSize : q.pageSize = p.pageSize) (state : q.state = p.state) (pageCount : q.pageCount = p.pageCount)
    (startCount : q.startCount = p.startCount) (maxPages : q.maxPages = p.maxPages)
    (journal : q.journal = p.journal) (savepoints : q.savepoints = p.savepoints) (writes : q.writes = p.writes) :
    Twins p q := by
  refine ⟨file, pageSize, state, pageCount, startCount, maxPages, journal, savepoints, writes, ?_⟩
  funext page
  rw [left.offers_idle idle, right.offers_idle (state ▸ idle)]
  unfold Pager.fileImage
  rw [file, pageSize]

end Twins

structure Paired (p q : Pager) : Prop where
  left : Coherent p
  right : Coherent q
  twins : Twins p q

/-- Both runs answer the same, with states like these, or both fail in the same way. -/
def Both (x y : Action Pager α) (p q : Pager) (post : α → Pager → Pager → Prop) : Prop :=
  (∃ a p' q', x p = .ok a p' ∧ y q = .ok a q' ∧ post a p' q') ∨
    ∃ e p' q', x p = .error e p' ∧ y q = .error e q' ∧ Paired p' q'

namespace Both

variable {x y : Action Pager α} {post : α → Pager → Pager → Prop}

theorem ok {a : α} (first : x p = .ok a p') (second : y q = .ok a q') (holds : post a p' q') :
    Both x y p q post := .inl ⟨a, p', q', first, second, holds⟩

theorem bind {f g : α → Action Pager β} {last : β → Pager → Pager → Prop} (both : Both x y p q post)
    (next : ∀ a p' q', post a p' q' → Both (f a) (g a) p' q' last) : Both (x >>= f) (y >>= g) p q last := by
  rcases both with ⟨a, p', q', first, second, holds⟩ | ⟨e, p', q', first, second, paired⟩
  · unfold Both
    rw [Action.bind_of_ok first, Action.bind_of_ok second]
    exact next a p' q' holds
  · exact .inr ⟨e, p', q', Action.bind_of_error first, Action.bind_of_error second, paired⟩

end Both

/-- The pagers are twins, a transaction is open, and the journal has the page. -/
structure Recorded (page : Nat) (p q : Pager) : Prop where
  paired : Paired p q
  writing : p.state = .writing
  journal : page ≤ p.startCount → page ∈ p.journal

theorem Coherent.of_cache (coherent : Coherent p) (file : q.file = p.file) (pageSize : q.pageSize = p.pageSize)
    (state : q.state = p.state) (startCount : q.startCount = p.startCount) (journal : q.journal = p.journal)
    (savepoints : q.savepoints = p.savepoints)
    (cached : ∀ (page : Nat) (image : PageImage), q.cache[page]? = some image →
      p.cache[page]? = some image ∨ page ≠ 0 ∧ image = { data := p.fileImage page }) : Coherent q := by
  have images : ∀ page : Nat, q.fileImage page = p.fileImage page := by
    intro page
    unfold Pager.fileImage
    rw [file, pageSize]
  refine ⟨file ▸ coherent.calm, ?_, ?_, ?_, ?_, ?_, ?_⟩
  · intro page image held
    rw [pageSize]
    rcases cached page image held with old | ⟨positive, rfl⟩
    · exact coherent.cached page image old
    · exact ⟨positive, p.size_fileImage page⟩
  · intro page image held clean
    rw [images]
    rcases cached page image held with old | ⟨-, rfl⟩
    · exact coherent.clean page image old clean
    · rfl
  · intro page image held dirty
    rw [state, startCount, journal]
    rcases cached page image held with old | ⟨-, rfl⟩
    · exact coherent.dirty page image old dirty
    · cases dirty
  · intro page data found
    rw [journal] at found
    rw [images]
    exact coherent.journal page data found
  · intro s member
    rw [savepoints] at member
    rw [pageSize, startCount, journal]
    exact coherent.savepoints s member
  · intro idle
    rw [savepoints]
    exact coherent.rest (state ▸ idle)

theorem Coherent.evict (coherent : Coherent p) : Coherent p.evict ∧ Twins p p.evict := by
  have fewer : Coherent p.evict := by
    refine coherent.of_cache ?_ ?_ ?_ ?_ ?_ ?_ fun page image held => .inl (evict_cache held)
    all_goals
      unfold Pager.evict
      split <;> rfl
  refine ⟨fewer, ?_⟩
  have offers : p.evict.offers = p.offers := by
    funext page
    unfold Pager.evict
    split
    · rfl
    · unfold Pager.offers
      dsimp only
      rw [foldl_erase]
      by_cases member : page ∈ p.victims
      · obtain ⟨image, held, clean⟩ := victims_clean member
        have same := coherent.clean page image held clean
        rw [if_pos member, held]
        obtain ⟨data, dirty⟩ := image
        cases clean
        exact congrArg (fun data => ({ data } : PageImage)) same.symm
      · rw [if_neg member]
        rfl
  unfold Pager.evict at offers ⊢
  split
  · exact .refl p
  · rename_i full
    rw [if_neg full] at offers
    exact ⟨rfl, rfl, rfl, rfl, rfl, rfl, rfl, rfl, rfl, offers⟩

theorem Coherent.store_clean (coherent : Coherent p) {page : Nat} (positive : page ≠ 0)
    (absent : p.cache[page]? = none) : Coherent (p.store page { data := p.fileImage page }) ∧
      Twins p (p.store page { data := p.fileImage page }) := by
  have cache : ∀ n : Nat, (p.store page { data := p.fileImage page }).cache[n]? =
      if page = n then some { data := p.fileImage page } else p.cache[n]? := fun n => PageMap.get_insert _ _ _ _
  refine ⟨coherent.of_cache rfl rfl rfl rfl rfl rfl fun n image held => ?_,
    ⟨rfl, rfl, rfl, rfl, rfl, rfl, rfl, rfl, rfl, ?_⟩⟩
  · rw [cache] at held
    split at held
    · rename_i same
      cases held
      exact .inr ⟨same ▸ positive, same ▸ rfl⟩
    · exact .inl held
  · refine funext fun (n : Nat) => ?_
    by_cases same : page = n
    · subst same
      rw [offers_absent absent]
      exact offers_cached ((cache page).trans (if_pos rfl))
    · have other := (cache n).trans (if_neg same)
      unfold Pager.offers
      rw [other]
      rfl

theorem load_twins (coherent : Coherent p) {page : Nat} (positive : page ≠ 0) :
    ∃ q, load page p = .ok (p.offers page) q ∧ Coherent q ∧ Twins p q := by
  unfold load
  rw [Action.get_bind]
  cases held : p.cache[page]? with
  | some image => exact ⟨p, by rw [offers_cached held]; rfl, coherent, .refl p⟩
  | none =>
    obtain ⟨present, read⟩ := read_run coherent.calm positive
    dsimp only
    rw [Action.bind_of_ok read, offers_absent held]
    dsimp only
    rw [Action.modify_bind]
    -- the count of reads is no part of what twins share
    obtain ⟨counted, isCounted⟩ : ∃ c : Pager, c =
      if present > 0 then { p with reads := p.reads + 1 } else p := ⟨_, rfl⟩
    have same : Coherent counted ∧ Twins p counted ∧ counted.cache = p.cache := by
      rw [isCounted]
      split
      · exact ⟨coherent.of_cache rfl rfl rfl rfl rfl rfl fun _ _ => .inl,
          ⟨rfl, rfl, rfl, rfl, rfl, rfl, rfl, rfl, rfl, rfl⟩, rfl⟩
      · exact ⟨coherent, .refl p, rfl⟩
    obtain ⟨coherentC, twinsC, cache⟩ := same
    obtain ⟨coherentE, twinsE⟩ := coherentC.evict
    have absent : counted.cache[page]? = none := by rw [cache, held]
    obtain ⟨coherentS, twinsS⟩ := coherentE.store_clean positive (evict_absent absent)
    rw [twinsE.fileImage, twinsC.fileImage] at coherentS twinsS
    rw [← isCounted]
    exact ⟨_, rfl, coherentS, (twinsC.trans twinsE).trans twinsS⟩

theorem load_both (paired : Paired p q) {page : Nat} (positive : page ≠ 0) :
    Both (load page) (load page) p q fun image p' q' => image = p.offers page ∧ Twins p p' ∧ Paired p' q' := by
  obtain ⟨p', runP, left, twinsP⟩ := load_twins paired.left positive
  obtain ⟨q', runQ, right, twinsQ⟩ := load_twins paired.right positive
  rw [paired.twins.offers] at runQ
  exact .ok runP runQ ⟨rfl, twinsP, left, right, (twinsP.symm.trans paired.twins).trans twinsQ⟩

theorem Paired.reading (paired : Paired p q) (idle : p.state = .idle) :
    Paired { p with state := .reading } { q with state := .reading } := by
  have calm : ∀ {r : Pager}, Coherent r → r.state = .idle → Coherent { r with state := .reading } := by
    intro r coherent idle
    have resting : r.state ≠ .writing := by
      rw [idle]
      nofun
    refine ⟨coherent.calm, coherent.cached, coherent.clean, fun page image held dirty => ?_, coherent.journal,
      coherent.savepoints, fun _ => coherent.rest resting⟩
    exact absurd (coherent.dirty page image held dirty).1 resting
  have twins := paired.twins
  exact ⟨calm paired.left idle, calm paired.right (twins.state.trans idle), twins.file, twins.pageSize, rfl,
    twins.pageCount, twins.startCount, twins.maxPages, twins.journal, twins.savepoints, twins.writes, twins.offers⟩

theorem fetch_both (paired : Paired p q) (page : Nat) :
    Both (fetch page) (fetch page) p q fun _ => Paired := by
  have rest : ∀ {p q : Pager}, Paired p q → page ≠ 0 → Both
      (do if page > p.pageCount then return .blank p.pageSize else load page)
      (do if page > p.pageCount then return .blank p.pageSize else load page) p q fun _ => Paired := by
    intro p q paired positive
    by_cases past : page > p.pageCount
    · rw [if_pos past]
      exact .ok rfl rfl paired
    · rw [if_neg past]
      rcases load_both paired positive with ⟨a, p', q', first, second, -, -, later⟩ | failed
      · exact .ok first second later
      · exact .inr failed
  have twins := paired.twins
  unfold Both fetch
  rw [Action.get_bind, Action.get_bind, twins.maxPages, twins.state, twins.pageCount, twins.pageSize]
  by_cases outside : (decide (page = 0) || decide (page > p.maxPages)) = true
  · rw [if_pos outside]
    exact .inr ⟨_, p, q, rfl, rfl, paired⟩
  · rw [if_neg outside]
    have positive : page ≠ 0 := fun zero => outside (by rw [decide_eq_true zero]; rfl)
    dsimp only
    by_cases idle : p.state = .idle
    · rw [if_pos idle, Action.modify_bind, Action.modify_bind]
      exact rest (paired.reading idle) positive
    · rw [if_neg idle]
      exact rest paired positive

theorem Coherent.begin (coherent : Coherent p) (idle : p.state ≠ .writing) :
    Coherent { p with state := .writing, startCount := p.pageCount, journal := {} } := by
  refine ⟨coherent.calm, coherent.cached, coherent.clean, fun page image held dirty => ?_, ?_, ?_, nofun⟩
  · exact absurd (coherent.dirty page image held dirty).1 idle
  · intro page data found
    rw [Std.TreeMap.getElem?_emptyc] at found
    cases found
  · intro s member
    rw [coherent.rest idle] at member
    cases member

theorem begin_both (paired : Paired p q) :
    Both begin begin p q fun _ p' q' => Paired p' q' ∧ p'.state = .writing ∧ p'.pageSize = p.pageSize := by
  have twins := paired.twins
  refine .ok (Action.modify_run _ _) (Action.modify_run _ _) ?_
  by_cases writing : p.state = .writing
  · rw [if_pos writing, if_pos (twins.state.trans writing)]
    exact ⟨paired, writing, rfl⟩
  · have other : q.state ≠ .writing := twins.state ▸ writing
    rw [if_neg writing, if_neg other]
    exact ⟨⟨paired.left.begin writing, paired.right.begin other, twins.file, twins.pageSize, rfl, twins.pageCount,
      twins.pageCount, twins.maxPages, rfl, twins.savepoints, twins.writes, twins.offers⟩, rfl, rfl⟩

def noting (page : PageNo) (data : Bytes) (p : Pager) : Pager :=
  { p with
    journal := if page ≤ p.startCount then p.journal.insertIfNew page data else p.journal
    savepoints :=
      match p.savepoints with
      | [] => []
      | s :: outer => s.remember page data :: outer }

theorem mem_noting (p : Pager) (page : Nat) (data : Bytes) :
    (page ≤ p.startCount → page ∈ (p.noting page data).journal) ∧
      ∀ n, n ∈ p.journal → n ∈ (p.noting page data).journal := by
  unfold noting
  dsimp only
  refine ⟨fun old => ?_, fun n held => ?_⟩
  · rw [if_pos old]
    exact Std.TreeMap.mem_insertIfNew_self
  · split
    · exact Std.TreeMap.mem_insertIfNew.mpr (.inr held)
    · exact held

theorem Coherent.noting (coherent : Coherent p) (writing : p.state = .writing) {page : Nat} (positive : page ≠ 0) :
    Coherent (p.noting page (p.offers page).data) := by
  obtain ⟨own, others⟩ := mem_noting p page (p.offers page).data
  refine ⟨coherent.calm, coherent.cached, coherent.clean, fun n image held dirty => ⟨writing, fun old => ?_⟩, ?_, ?_,
    fun idle => absurd writing idle⟩
  · exact others n ((coherent.dirty n image held dirty).2 old)
  · intro n data found
    unfold Pager.noting at found
    dsimp only at found
    split at found
    · rename_i old
      rw [PageMap.get_insertIfNew] at found
      split at found
      · rename_i new
        obtain ⟨rfl, absent⟩ := new
        cases found
        have lacks : page ∉ p.journal := fun member => by
          obtain ⟨_, held⟩ := PageMap.mem_iff.mp member
          rw [absent] at held
          cases held
        exact ⟨positive, congrArg PageImage.data (coherent.offers_unjournaled old lacks)⟩
      · exact coherent.journal n data found
    · exact coherent.journal n data found
  · intro s member n data found
    -- only the innermost savepoint has changed
    have kept : ∀ inner ∈ p.savepoints, inner.undo[n]? = some data →
        n ≠ 0 ∧ data.size = p.pageSize ∧ (n ≤ p.startCount → n ∈ (p.noting page (p.offers page).data).journal) := by
      intro inner among found
      obtain ⟨nonzero, size, journaled⟩ := coherent.savepoints inner among n data found
      exact ⟨nonzero, size, fun old => others n (journaled old)⟩
    unfold Pager.noting at member
    dsimp only at member
    cases opened : p.savepoints with
    | nil =>
      rw [opened] at member
      cases member
    | cons inner outer =>
      rw [opened] at member kept
      rcases List.mem_cons.mp member with rfl | later
      · rw [(remember_undo inner page n _).2] at found
        split at found
        · rename_i new
          obtain ⟨rfl, -, -⟩ := new
          cases found
          exact ⟨positive, coherent.size_offers page, own⟩
        · exact kept inner List.mem_cons_self found
      · exact kept s (List.mem_cons_of_mem _ later) found

theorem remember_both (paired : Paired p q) (writing : p.state = .writing) {page : Nat} (positive : page ≠ 0) :
    Both (remember page) (remember page) p q fun _ p' q' => Recorded page p' q' ∧ p'.pageSize = p.pageSize := by
  have twins := paired.twins
  have lacks : q.journalLacks page = p.journalLacks page ∧ q.savepointLacks page = p.savepointLacks page := by
    unfold journalLacks savepointLacks
    rw [twins.startCount, twins.journal, twins.savepoints]
    exact ⟨rfl, rfl⟩
  unfold Both remember
  rw [Action.get_bind, Action.get_bind, lacks.1, lacks.2]
  by_cases missing : (p.journalLacks page || p.savepointLacks page) = true
  · rw [if_pos missing]
    refine (load_both paired positive).bind ?_
    rintro image p' q' ⟨rfl, same, later⟩
    have writing' : p'.state = .writing := same.state.trans writing
    have offered : p.offers page = p'.offers page := by rw [same.offers]
    have other : p.offers page = q'.offers page := by rw [later.twins.offers, same.offers]
    have left := later.left.noting writing' positive
    have right := later.right.noting (later.twins.state.trans writing') positive
    rw [← offered] at left
    rw [← other] at right
    have twins := later.twins
    refine .ok (Action.modify_run _ _) (Action.modify_run _ _) ⟨⟨⟨left, right, twins.file, twins.pageSize, twins.state,
      twins.pageCount, twins.startCount, twins.maxPages, ?_, ?_, twins.writes, twins.offers⟩, writing',
      (mem_noting p' page (p.offers page).data).1⟩, same.pageSize⟩
    · dsimp only
      rw [twins.startCount, twins.journal]
    · dsimp only
      rw [twins.savepoints]
  · rw [if_neg missing]
    refine .inl ⟨(), p, q, rfl, rfl, ⟨paired, writing, fun old => ?_⟩, rfl⟩
    have held : p.journalLacks page = false := by
      cases lacking : p.journalLacks page with
      | false => rfl
      | true =>
        rw [lacking] at missing
        exact absurd rfl missing
    unfold journalLacks at held
    simpa [old] using held

theorem Recorded.store {page : Nat} {data : Bytes} (noted : Recorded page p q) (positive : page ≠ 0)
    (size : data.size = p.pageSize) :
    Paired ({ p with pageCount := max p.pageCount page }.store page { data, dirty := true })
      ({ q with pageCount := max q.pageCount page }.store page { data, dirty := true }) := by
  have cache : ∀ (r : Pager) (n : Nat), ({ r with pageCount := max r.pageCount page }.store page
      { data, dirty := true }).cache[n]? = if page = n then some { data, dirty := true } else r.cache[n]? :=
    fun r n => PageMap.get_insert _ _ _ _
  have changed : ∀ {r : Pager}, Coherent r → r.state = .writing → (page ≤ r.startCount → page ∈ r.journal) →
      data.size = r.pageSize →
      Coherent ({ r with pageCount := max r.pageCount page }.store page { data, dirty := true }) := by
    intro r coherent writing journaled size
    refine ⟨coherent.calm, ?_, ?_, ?_, coherent.journal, coherent.savepoints, fun idle => absurd writing idle⟩
    all_goals
      intro n image held
      rw [cache] at held
      split at held
    · rename_i same
      cases held
      exact ⟨same ▸ positive, size⟩
    · exact coherent.cached n image held
    · cases held
      nofun
    · exact coherent.clean n image held
    · rename_i same
      cases held
      subst same
      exact fun _ => ⟨writing, journaled⟩
    · exact coherent.dirty n image held
  obtain ⟨⟨left, right, twins⟩, writing, journaled⟩ := noted
  refine ⟨changed left writing journaled size, changed right (twins.state.trans writing) ?_ ?_, twins.file,
    twins.pageSize, twins.state, ?_, twins.startCount, twins.maxPages, twins.journal, twins.savepoints, twins.writes, ?_⟩
  · rw [twins.startCount, twins.journal]
    exact journaled
  · exact size.trans twins.pageSize.symm
  · exact congrArg (fun count => max count page) twins.pageCount
  · refine funext fun (n : Nat) => ?_
    have image := congrFun twins.offers n
    unfold Pager.offers at image ⊢
    rw [cache, cache]
    by_cases same : page = n
    · rw [if_pos same, if_pos same]
    · rw [if_neg same, if_neg same]
      exact image

theorem write_both (paired : Paired p q) (page : Nat) (data : Bytes) :
    Both (write page data) (write page data) p q fun _ => Paired := by
  have twins := paired.twins
  unfold Both write
  rw [Action.get_bind, Action.get_bind, twins.maxPages, twins.pageSize]
  by_cases outside : (decide (page = 0) || decide (page > p.maxPages)) = true
  · rw [if_pos outside]
    exact .inr ⟨_, p, q, rfl, rfl, paired⟩
  rw [if_neg outside]
  have positive : page ≠ 0 := fun zero => outside (by rw [decide_eq_true zero]; rfl)
  dsimp only
  by_cases wrong : data.size ≠ p.pageSize
  · rw [if_pos wrong]
    exact .inr ⟨_, p, q, rfl, rfl, paired⟩
  rw [if_neg wrong]
  have size : data.size = p.pageSize := Decidable.not_not.mp wrong
  refine (begin_both paired).bind fun _ p' q' ⟨begun, writing, sizeB⟩ => ?_
  refine (remember_both begun writing positive).bind fun _ r s ⟨noted, sizeR⟩ => ?_
  exact .ok (Action.modify_run _ _) (Action.modify_run _ _)
    (noted.store positive (size.trans (sizeB.symm.trans sizeR.symm)))

theorem extend_both (paired : Paired p q) : Both extend extend p q fun _ => Paired := by
  have twins := paired.twins
  unfold Both extend
  rw [Action.get_bind, Action.get_bind, twins.maxPages, twins.pageCount, twins.pageSize]
  dsimp only
  by_cases past : p.pageCount + 1 > p.maxPages
  · rw [if_pos past]
    exact .inr ⟨_, p, q, rfl, rfl, paired⟩
  · rw [if_neg past]
    exact (write_both paired _ _).bind fun _ p' q' later => .ok rfl rfl later

theorem truncate_both (paired : Paired p q) (count : Nat) : Both (truncate count) (truncate count) p q fun _ => Paired := by
  obtain ⟨left, right, twins⟩ := paired
  refine .ok (Action.modify_run _ _) (Action.modify_run _ _) ?_
  rw [twins.pageCount]
  by_cases shorter : count < p.pageCount
  · rw [if_pos shorter, if_pos shorter]
    have cut : ∀ {r : Pager}, Coherent r → Coherent { r with pageCount := count } := fun coherent =>
      ⟨coherent.calm, coherent.cached, coherent.clean, coherent.dirty, coherent.journal, coherent.savepoints,
        coherent.rest⟩
    exact ⟨cut left, cut right, twins.file, twins.pageSize, twins.state, rfl, twins.startCount, twins.maxPages,
      twins.journal, twins.savepoints, twins.writes, twins.offers⟩
  · rw [if_neg shorter, if_neg shorter]
    exact ⟨left, right, twins⟩

theorem Paired.withSavepoints (paired : Paired p q) (writing : p.state = .writing) {stack stack' : List Savepoint}
    (same : stack' = stack) (valid : ∀ s ∈ stack, ∀ (page : Nat) (data : Bytes), s.undo[page]? = some data →
      page ≠ 0 ∧ data.size = p.pageSize ∧ (page ≤ p.startCount → page ∈ p.journal)) :
    Paired { p with savepoints := stack } { q with savepoints := stack' } := by
  subst same
  obtain ⟨left, right, twins⟩ := paired
  refine ⟨⟨left.calm, left.cached, left.clean, left.dirty, left.journal, valid, fun idle => absurd writing idle⟩,
    ⟨right.calm, right.cached, right.clean, right.dirty, right.journal, ?_,
      fun idle => absurd (twins.state.trans writing) idle⟩,
    twins.file, twins.pageSize, twins.state, twins.pageCount, twins.startCount, twins.maxPages, twins.journal, rfl,
    twins.writes, twins.offers⟩
  dsimp only
  rw [twins.pageSize, twins.startCount, twins.journal]
  exact valid

theorem Coherent.writing (coherent : Coherent p) {inner : Savepoint} {outer : List Savepoint}
    (opened : p.savepoints = inner :: outer) : p.state = .writing := by
  refine Decidable.byContradiction fun idle => ?_
  rw [coherent.rest idle] at opened
  cases opened

theorem openSavepoint_both (paired : Paired p q) : Both openSavepoint openSavepoint p q fun _ => Paired := by
  unfold openSavepoint
  refine (begin_both paired).bind fun _ p' q' ⟨begun, writing, _⟩ => ?_
  have same : ({ pageCount := q'.pageCount } :: q'.savepoints : List Savepoint) =
      { pageCount := p'.pageCount } :: p'.savepoints := by
    rw [begun.twins.pageCount, begun.twins.savepoints]
  unfold Both
  rw [Action.modify_bind, Action.modify_bind]
  refine .inl ⟨_, _, _, rfl, congrArg (fun stack => EStateM.Result.ok (List.length stack) _) same,
    begun.withSavepoints writing same fun s member page data found => ?_⟩
  rcases List.mem_cons.mp member with rfl | old
  · rw [Std.TreeMap.getElem?_emptyc] at found
    cases found
  · exact begun.left.savepoints s old page data found

theorem releaseSavepoint_both (paired : Paired p q) :
    Both releaseSavepoint releaseSavepoint p q fun _ => Paired := by
  have twins := paired.twins
  have valid := paired.left.savepoints
  unfold Both releaseSavepoint
  rw [Action.get_bind, Action.get_bind, twins.savepoints]
  cases opened : p.savepoints with
  | nil => exact .inr ⟨_, p, q, rfl, rfl, paired⟩
  | cons inner stack =>
    have writing := paired.left.writing opened
    rw [opened] at valid
    cases stack with
    | nil => exact .inl ⟨_, _, _, rfl, rfl, paired.withSavepoints writing rfl nofun⟩
    | cons outer rest =>
      refine .inl ⟨_, _, _, rfl, rfl, paired.withSavepoints writing rfl fun s member page data found => ?_⟩
      rcases List.mem_cons.mp member with rfl | later
      · rw [(absorb_undo outer inner page).2, Option.or_eq_some_iff] at found
        rcases found with old | ⟨-, new⟩
        · exact valid outer (List.mem_cons_of_mem _ List.mem_cons_self) page data old
        · split at new
          · exact valid inner List.mem_cons_self page data new
          · cases new
      · exact valid s (List.mem_cons_of_mem _ (List.mem_cons_of_mem _ later)) page data found

theorem Coherent.restore (coherent : Coherent p) {inner : Savepoint} {stack : List Savepoint}
    (opened : p.savepoints = inner :: stack) : Coherent { p with
      savepoints := stack
      cache := inner.undo.foldl (fun cache page data => cache.insert page { data, dirty := true }) p.cache
      pageCount := inner.pageCount } := by
  have writing := coherent.writing opened
  have valid := coherent.savepoints
  rw [opened] at valid
  have cached : ∀ (n : Nat) (image : PageImage), (inner.undo.foldl (fun cache page data =>
      cache.insert page { data, dirty := true }) p.cache)[n]? = some image →
        (∃ data, inner.undo[n]? = some data ∧ image = { data, dirty := true }) ∨ p.cache[n]? = some image := by
    intro n image held
    have cache := PageMap.get_foldl_insert inner.undo (fun data => ({ data, dirty := true } : PageImage)) p.cache n
    rw [cache] at held
    cases kept : inner.undo[n]? with
    | some data =>
      rw [kept] at held
      exact .inl ⟨data, rfl, (Option.some.inj held).symm⟩
    | none =>
      rw [kept] at held
      exact .inr held
  have undo := valid inner List.mem_cons_self
  refine ⟨coherent.calm, fun n image held => ?_, fun n image held clean => ?_, fun n image held dirty => ?_,
    coherent.journal, fun s member => valid s (List.mem_cons_of_mem _ member), fun idle => absurd writing idle⟩
  · rcases cached n image held with ⟨data, kept, rfl⟩ | old
    · exact ⟨(undo n data kept).1, (undo n data kept).2.1⟩
    · exact coherent.cached n image old
  · rcases cached n image held with ⟨data, kept, rfl⟩ | old
    · cases clean
    · exact coherent.clean n image old clean
  · rcases cached n image held with ⟨data, kept, rfl⟩ | old
    · exact ⟨writing, (undo n data kept).2.2⟩
    · exact coherent.dirty n image old dirty

theorem rollbackSavepoint_both (paired : Paired p q) :
    Both rollbackSavepoint rollbackSavepoint p q fun _ => Paired := by
  obtain ⟨left, right, twins⟩ := paired
  unfold Both rollbackSavepoint
  rw [Action.get_bind, Action.get_bind, twins.savepoints]
  cases opened : p.savepoints with
  | nil => exact .inr ⟨_, p, q, rfl, rfl, left, right, twins⟩
  | cons inner stack =>
    refine .inl ⟨_, _, _, rfl, rfl, left.restore opened, right.restore (twins.savepoints.trans opened), twins.file,
      twins.pageSize, twins.state, rfl, twins.startCount, twins.maxPages, twins.journal, rfl, twins.writes, ?_⟩
    refine funext fun (n : Nat) => ?_
    have image := congrFun twins.offers n
    have cache := fun base : PageMap PageImage =>
      PageMap.get_foldl_insert inner.undo (fun data => ({ data, dirty := true } : PageImage)) base n
    unfold Pager.offers at image ⊢
    dsimp only
    rw [cache, cache]
    cases inner.undo[n]? with
    | some data => rfl
    | none => exact image

end Pager

end TreeFile
