import TreeFile.Balance
import TreeFile.Cursor.Basic
import TreeFile.Proofs.Pager.Durability
import TreeFile.Proofs.Pager.Faults
import TreeFile.Tree

/-!
What the engine does to its pager. It works on pages by fetching, writing, adding and cutting off
pages, so any relation between pagers that these four keep is kept by all that the engine does,
and one that fetching keeps is kept by all that only reads. Page 1 is never written but with the
header that it has, apart from the words of the freelist; only making and removing roots sets
another word.
-/

namespace TreeFile

class HasStore (σ : Type) where
  store : σ → Store

instance : HasStore Store := ⟨fun s => s⟩

instance : HasStore Walk := ⟨Walk.store⟩

instance : HasStore Seated := ⟨Seated.store⟩

/-- The store has the same settings as before, and its generation has not gone back. -/
structure Store.Settled (s t : Store) : Prop where
  pageSize : t.pageSize = s.pageSize
  usableSize : t.usableSize = s.usableSize
  limits : t.limits = s.limits
  vacuum : t.vacuum = s.vacuum
  isOpen : t.isOpen = s.isOpen
  generation : s.generation ≤ t.generation

theorem Store.Settled.refl (s : Store) : Settled s s := ⟨rfl, rfl, rfl, rfl, rfl, Nat.le_refl _⟩

theorem Store.Settled.trans {s t u : Store} (first : Settled s t) (second : Settled t u) :
    Settled s u :=
  ⟨second.pageSize.trans first.pageSize, second.usableSize.trans first.usableSize,
    second.limits.trans first.limits, second.vacuum.trans first.vacuum,
    second.isOpen.trans first.isOpen, Nat.le_trans first.generation second.generation⟩

structure Store.Within (R : Pager → Pager → Prop) (s t : Store) : Prop where
  pager : R s.pager t.pager
  settled : Settled s t

class Readable (R : Pager → Pager → Prop) : Prop where
  refl : ∀ p, R p p
  trans : ∀ {p q r}, R p q → R q r → R p r
  fetch : ∀ page, Action.Stays R (Pager.fetch page)

/-- The headers differ at most in the words of the freelist, and in the one a page link takes. -/
structure FileHeader.Alike (d e : Bytes) : Prop where
  front : Bytes.SameOn d e 4 firstTrunkOffset
  back : Bytes.SameOn d e (freeCountOffset + 4) fileHeaderSize

namespace FileHeader.Alike

theorem of_overwrite {d src : Bytes} {start : Nat} (fits : start + src.size ≤ d.size)
    (inside : start + src.size ≤ 4 ∨ 32 ≤ start ∧ start + src.size ≤ 40) :
    Alike d (d.overwrite start src) :=
  ⟨Bytes.sameOn_overwrite fits (show 32 ≤ start ∨ start + src.size ≤ 4 by omega),
    Bytes.sameOn_overwrite fits (show 100 ≤ start ∨ start + src.size ≤ 40 by omega)⟩

theorem of_header {d : Bytes} (e : Bytes) (long : fileHeaderSize ≤ d.size) :
    Alike d (e.overwrite 0 (d.extract 0 fileHeaderSize)) := by
  have hundred : fileHeaderSize = 100 := rfl
  have size : (d.extract 0 fileHeaderSize).size = 100 := Bytes.size_extract_of_le long
  have same : Bytes.SameOn d (e.overwrite 0 (d.extract 0 fileHeaderSize)) 0 fileHeaderSize := by
    intro i _ low
    have none : (e.extract 0 0).size = 0 := by rw [ByteArray.size_extract]; omega
    rw [Bytes.overwrite_eq, Bytes.get_append, if_pos (by rw [ByteArray.size_append]; omega),
      Bytes.get_append, if_neg (by omega), none, Nat.sub_zero, Bytes.get_extract, if_pos (by omega),
      Nat.zero_add]
  exact ⟨same.mono (Nat.zero_le _) (by decide), same.mono (Nat.zero_le _) (Nat.le_refl _)⟩

end FileHeader.Alike

class Writable (R : Pager → Pager → Prop) : Prop extends Readable R where
  write : ∀ {page} data, page ≠ 1 → Action.Stays R (Pager.write page data)
  header : ∀ {p data}, 1 ≤ p.pageCount →
    (fileHeaderSize ≤ (p.image 1).size → FileHeader.Alike (p.image 1) data) →
    R p ((Pager.write 1 data).final p)
  extend : Action.Stays R Pager.extend

class Shrinkable (R : Pager → Pager → Prop) : Prop extends Writable R where
  truncate : ∀ {count}, 1 ≤ count → Action.Stays R (Pager.truncate count)

/-- What changing pages, whatever becomes of the header, may do to a pager. -/
class Rewritable (R : Pager → Pager → Prop) : Prop extends Writable R where
  rewrite : ∀ data, Action.Stays R (Pager.write 1 data)

theorem Store.Within.refl {R : Pager → Pager → Prop} [Readable R] (s : Store) : Within R s s :=
  ⟨Readable.refl _, .refl s⟩

theorem Store.Within.trans {R : Pager → Pager → Prop} [Readable R] {s t u : Store}
    (first : Within R s t) (second : Within R t u) : Within R s u :=
  ⟨Readable.trans first.pager second.pager, first.settled.trans second.settled⟩

instance : Readable Pager.Browses := ⟨.refl, .trans, Pager.fetch_browses⟩

instance : Writable Pager.Remembers where
  refl := .refl
  trans := .trans
  fetch := Pager.fetch_remembers
  write := fun {page} data _ => Pager.write_remembers page data
  header := fun _ _ => Pager.write_remembers _ _ _
  extend := Pager.extend_remembers

instance : Shrinkable Pager.Remembers where
  truncate := fun {count} _ => Pager.truncate_remembers count

instance : Rewritable Pager.Remembers where
  rewrite := Pager.write_remembers 1

def Pager.SameCount (p q : Pager) : Prop := q.pageCount = p.pageCount

instance : Readable Pager.SameCount where
  refl := fun _ => rfl
  trans := fun first second => Eq.trans second first
  fetch := fun page p => (Pager.fetch_warms page p).count

namespace Action

variable {σ τ α β : Type}

/-- Runs an action in a state that is put together for it. Whichever way it ends, what it leaves goes back. -/
def inside (enter : τ → σ) (done : α → σ → β) (leave : τ → σ → τ) (act : Action σ α) : Action τ β := fun t =>
  match act (enter t) with
  | .ok a s => .ok (done a s) (leave t s)
  | .error e s => .error e (leave t s)

theorem final_inside {enter : τ → σ} {done : α → σ → β} {leave : τ → σ → τ} {act : Action σ α} {t : τ} :
    (inside enter done leave act).final t = leave t (act.final (enter t)) := by
  unfold final outcome inside
  cases act (enter t) <;> rfl

theorem zoom_inside [Inhabited τ] (part : σ → τ) (put : σ → τ → σ) (act : Action τ α) :
    zoom part put act = inside part (fun a _ => a) (fun s t => put (put s default) t) act := by
  funext s
  show (match act (part s) with
    | .ok a t => EStateM.Result.ok a (put (put s default) t)
    | .error e t => .error e (put (put s default) t)) = _
  unfold inside
  cases act (part s) <;> rfl

end Action

open HasStore (store)

/-- Something to be said of an action and of the state it starts in. -/
structure Trait where
  holds : ∀ {σ α : Type} [HasStore σ], Action σ α → σ → Prop

/-- What can be said of reading pages, and of all that is put together from it. -/
class Trait.Reading (P : Trait) : Prop where
  still : ∀ {σ α : Type} [HasStore σ] {act : Action σ α} {s : σ}, (store (act.final s)).pager = (store s).pager →
    (store s).Settled (store (act.final s)) → P.holds act s
  bind : ∀ {σ α β : Type} [HasStore σ] {x : Action σ α} {f : α → Action σ β} {s : σ}, P.holds x s →
    (∀ a t, x s = .ok a t → P.holds (f a) t) → P.holds (x >>= f) s
  attempt : ∀ {σ α : Type} [HasStore σ] {x : Action σ α} {s : σ}, P.holds x s → P.holds (Action.attempt x) s
  inside : ∀ {σ τ α β : Type} [HasStore σ] [HasStore τ] {enter : τ → σ} {done : α → σ → β} {leave : τ → σ → τ}
    {act : Action σ α} {t : τ}, store (enter t) = store t → (∀ s, store (leave t s) = store s) →
    P.holds act (enter t) → P.holds (act.inside enter done leave) t
  fetch : ∀ (page : Nat) (s : Store), P.holds (Store.onPager (Pager.fetch page)) s

class Obeys (P : Trait) {σ α : Type} [HasStore σ] (act : Action σ α) : Prop where
  obeys : ∀ s, P.holds act s

namespace Obeys

variable {P : Trait} [P.Reading] {σ τ α β : Type} [HasStore σ] [HasStore τ]

theorem still {act : Action σ α} (same : ∀ s, act.final s = s) : Obeys P act :=
  ⟨fun s => Trait.Reading.still (by rw [same]) (by rw [same]; exact .refl _)⟩

instance pure (a : α) : Obeys P (pure a : Action σ α) := still fun _ => rfl

instance get : Obeys P (get : Action σ σ) := still fun _ => rfl

instance throw (e : Error) : Obeys P (throw e : Action σ α) := still fun _ => rfl

instance lift (x : Except Error α) : Obeys P (liftM x : Action σ α) := still fun _ => by cases x <;> rfl

theorem chain {x : Action σ α} {f : α → Action σ β} (first : Obeys P x)
    (second : ∀ a s t, x s = .ok a t → Obeys P (f a)) : Obeys P (x >>= f) :=
  ⟨fun s => Trait.Reading.bind (first.obeys s) fun a t run => (second a s t run).obeys t⟩

theorem andThen {x : Action σ α} {f : α → Action σ β} (first : Obeys P x)
    (second : ∀ a, Obeys P (f a)) : Obeys P (x >>= f) := first.chain fun a _ _ _ => second a

instance bind (x : Action σ α) (f : α → Action σ β) [first : Obeys P x] [second : ∀ a, Obeys P (f a)] :
    Obeys P (x >>= f) := first.andThen second

instance guard (e : Error) (f : α → Action σ β) : Obeys P ((MonadExcept.throw e : Action σ α) >>= f) := throw e

instance map (f : α → β) (x : Action σ α) [Obeys P x] : Obeys P (f <$> x) := by
  rw [Action.map_run]
  infer_instance

omit [P.Reading] in
instance ite (c : Prop) [Decidable c] (x y : Action σ α) [Obeys P x] [Obeys P y] : Obeys P (if c then x else y) := by
  split <;> infer_instance

instance attempt (x : Action σ α) [first : Obeys P x] : Obeys P (Action.attempt x) :=
  ⟨fun s => Trait.Reading.attempt (first.obeys s)⟩

theorem inside {enter : τ → σ} {done : α → σ → β} {leave : τ → σ → τ} {act : Action σ α}
    (enters : ∀ t, store (enter t) = store t) (leaves : ∀ t s, store (leave t s) = store s) [first : Obeys P act] :
    Obeys P (act.inside enter done leave) :=
  ⟨fun t => Trait.Reading.inside (enters t) (leaves t) (first.obeys (enter t))⟩

theorem zoom [Inhabited σ] {part : τ → σ} {put : τ → σ → τ} {act : Action σ α}
    (enters : ∀ t, store (part t) = store t) (leaves : ∀ t s, store (put t s) = store s) [Obeys P act] :
    Obeys P (Action.zoom part put act) := by
  rw [Action.zoom_inside]
  exact .inside enters fun _ => leaves _

instance mapM (f : α → Action σ β) [∀ a, Obeys P (f a)] (list : List α) : Obeys P (list.mapM f) := by
  induction list with
  | nil => exact pure _
  | cons a rest ih =>
    rw [List.mapM_cons]
    infer_instance

instance forM (f : α → Action σ PUnit) [∀ a, Obeys P (f a)] (list : List α) : Obeys P (list.forM f) := by
  induction list with
  | nil => exact pure _
  | cons a rest ih =>
    rw [List.forM]
    infer_instance

theorem modify {g : σ → σ} (same : ∀ s, (store (g s)).pager = (store s).pager)
    (settled : ∀ s, (store s).Settled (store (g s))) : Obeys P (modify g : Action σ PUnit) :=
  ⟨fun s => Trait.Reading.still (same s) (settled s)⟩

end Obeys

/-- However the action ends, the pager it leaves is related to the one it found, and the settings
of the store are the same. -/
@[reducible] def Trait.within (R : Pager → Pager → Prop) : Trait where
  holds act s := Store.Within R (store s) (store (act.final s))

abbrev Respects (R : Pager → Pager → Prop) {σ α : Type} [HasStore σ] (act : Action σ α) : Prop :=
  Obeys (Trait.within R) act

namespace Respects

variable {R : Pager → Pager → Prop} {σ α : Type} [HasStore σ]

theorem stays {act : Action σ α} (respects : Respects R act) :
    act.Stays fun s t => Store.Within R (store s) (store t) := respects.obeys

theorem final (act : Action σ α) [respects : Respects R act] (s : σ) :
    Store.Within R (store s) (store (act.final s)) := respects.stays s

theorem count {act : Action Store α} [Respects Pager.SameCount act] {a : α} {s t : Store} (run : act s = .ok a t) :
    t.pageCount = s.pageCount := by
  have same : Store.Within Pager.SameCount s (act.final s) := final act s
  rw [Action.final_of_ok run] at same
  exact same.pager

end Respects

variable {P : Trait} {R : Pager → Pager → Prop}

-- the search follows an action step by step, and some have many steps
set_option synthInstance.maxSize 512

namespace Store

theorem lastUnreserved_pos (s : Store) {page : Nat} (positive : 1 ≤ page) :
    1 ≤ s.lastUnreserved page := by
  induction page with
  | zero => exact positive
  | succ n ih =>
    unfold lastUnreserved
    split
    · rename_i later
      simp only [Bool.and_eq_true, decide_eq_true_eq] at later
      exact ih (Nat.le_of_lt_succ later.1)
    · exact positive

theorem onPager_final {α : Type} (act : Action Pager α) (s : Store) :
    (onPager act).final s = { s with pager := act.final s.pager } := by
  unfold Action.final Action.outcome onPager Action.zoom
  dsimp only
  cases act s.pager <;> rfl

theorem onPager_respects {α : Type} {act : Action Pager α} (stays : act.Stays R) :
    Respects R (onPager act) := by
  refine ⟨fun s => ?_⟩
  show Within R s ((onPager act).final s)
  rw [onPager_final]
  exact ⟨stays s.pager, rfl, rfl, rfl, rfl, rfl, Nat.le_refl _⟩

instance [Readable R] : (Trait.within R).Reading where
  still := by
    intro σ α _ act s same settled
    refine ⟨?_, settled⟩
    rw [same]
    exact Readable.refl _
  bind := by
    intro σ α β _ x f s first second
    cases run : x s with
    | ok a t =>
      have later := second a t run
      dsimp only at first later ⊢
      rw [Action.final_of_ok run] at first
      rw [Action.final_bind_of_ok run]
      exact first.trans later
    | error e t =>
      dsimp only at first ⊢
      rw [Action.final_of_error run] at first
      rw [Action.final_of_error (Action.bind_of_error run)]
      exact first
  attempt := by
    intro σ α _ x s first
    dsimp only at first ⊢
    rw [Action.final_attempt]
    exact first
  inside := by
    intro σ τ α β _ _ enter done leave act t enters leaves first
    dsimp only at first ⊢
    rw [Action.final_inside, leaves, ← enters]
    exact first
  fetch := fun page s => (onPager_respects (Readable.fetch page)).stays s

instance [P.Reading] (page : PageNo) : Obeys P (onPager (Pager.fetch page)) := ⟨Trait.Reading.fetch page⟩

instance [P.Reading] : Obeys P bumpGeneration :=
  .modify (fun _ => rfl) fun _ => ⟨rfl, rfl, rfl, rfl, rfl, Nat.le_succ _⟩

instance [P.Reading] (page : PageNo) : Obeys P (readPage page) := by
  unfold readPage
  infer_instance

instance [P.Reading] (page : PageNo) : Obeys P (loadPage page) := by
  unfold loadPage
  infer_instance

instance [P.Reading] (page : PageNo) (kind : PageKind) : Obeys P (emptyPage page kind) := by
  unfold emptyPage
  infer_instance

instance [P.Reading] (offset : Nat) : Obeys P (headerWord offset) := by
  unfold headerWord
  infer_instance

theorem readPage_fetched {page : Nat} {s t : Store} {data : Bytes} (run : readPage page s = .ok data t) :
    page ≠ 0 ∧ page ≤ s.pageCount ∧
      ∃ image q, Pager.fetch page s.pager = .ok image q ∧ image.data = data ∧
        t = { s with pager := q } := by
  unfold readPage at run
  rw [Action.get_bind] at run
  dsimp only at run
  split at run
  · exact absurd run Action.throw_bind_ok
  rename_i inside
  simp only [Bool.or_eq_true, decide_eq_true_eq, not_or] at inside
  rw [Action.bind_ok] at run
  obtain ⟨image, u, zoomed, last⟩ := run
  obtain ⟨rfl, rfl⟩ := Action.pure_ok.mp last
  obtain ⟨q, fetched, rfl⟩ := Action.zoom_ok.mp zoomed
  exact ⟨inside.1, Nat.le_of_not_lt inside.2, image, q, fetched, rfl, rfl⟩

structure Begins (data : Bytes) (s : Store) : Prop where
  nonempty : 1 ≤ s.pager.pageCount
  first : s.pager.image 1 = data

theorem readPage_first {s t : Store} {data : Bytes} (run : readPage 1 s = .ok data t) :
    Begins data t := by
  obtain ⟨-, low, image, q, fetched, rfl, rfl⟩ := readPage_fetched run
  obtain ⟨count, held⟩ := Pager.fetch_holds fetched low
  exact ⟨Nat.le_trans low (Nat.le_of_eq count.symm), held⟩

def link (page target : PageNo) (data : Bytes) : StoreM Unit := do
  putPage page (← Action.applied (Bytes.putU32 0 target) data)

end Store

open Store (Begins onPager putPage setHeaderWord writePage link)

/-- What can be said of changing pages. Page 1 is written to store a tree page and to set a word of the freelist. -/
class Trait.Writing (P : Trait) : Prop extends P.Reading where
  put : ∀ {page : Nat} (data : Bytes), page ≠ 1 → ∀ s : Store, P.holds (putPage page data) s
  extend : ∀ s : Store, P.holds (onPager Pager.extend) s
  tree : ∀ (page : Page) (s : Store), P.holds (writePage page) s
  free : ∀ {offset : Nat} (value : Nat), offset = FileHeader.firstTrunkOffset ∨ offset = FileHeader.freeCountOffset →
    ∀ s : Store, P.holds (setHeaderWord offset value) s

/-- It can be said of linking page 1 to another page than one up to `last`. A file that is damaged may ask for that,
if it is so long that the first word of its header is the number of a page. -/
def Trait.Links (P : Trait) (last : Nat) : Prop := ∀ {source : Nat} (target : Nat) {data : Bytes} {s : Store},
  Begins data s → data.u32? 0 = some source → source ≤ last → P.holds (link 1 target data) s

theorem Trait.Links.mono {P : Trait} {m n : Nat} (links : P.Links n) (le : m ≤ n) : P.Links m :=
  fun target _ _ begins names low => links target begins names (Nat.le_trans low le)

/-- It can be said of any link that page 1 is given. -/
class Trait.Linking (P : Trait) : Prop where
  links : ∀ last, P.Links last

class Trait.Shrinking (P : Trait) : Prop extends P.Writing where
  truncate : ∀ {count : Nat}, 1 ≤ count → ∀ s : Store, P.holds (onPager (Pager.truncate count)) s

class Trait.Rooting (P : Trait) : Prop extends P.Writing where
  root : ∀ (value : Nat) (s : Store), P.holds (setHeaderWord FileHeader.largestRootOffset value) s

namespace Store

theorem putFirst_within [Writable R] {data data' : Bytes} {s : Store} (begins : Begins data s)
    (alike : fileHeaderSize ≤ data.size → FileHeader.Alike data data') :
    Within R s ((putPage 1 data').final s) := by
  rw [show putPage 1 data' = onPager (Pager.write 1 data') from rfl, onPager_final]
  refine ⟨?_, rfl, rfl, rfl, rfl, rfl, Nat.le_refl _⟩
  exact Writable.header begins.nonempty (begins.first ▸ alike)

theorem putWord_within [Writable R] {offset value : Nat} {data : Bytes} {s : Store}
    (begins : Begins data s) (inside : offset + 4 ≤ 4 ∨ 32 ≤ offset ∧ offset + 4 ≤ 40) :
    Within R s (Action.final (do
      putPage 1 (← Action.applied (Bytes.putU32 offset value) data) : StoreM Unit) s) := by
  cases changed : Action.applied (Bytes.putU32 offset value) data with
  | error e => exact .refl s
  | ok data' =>
    obtain ⟨fits, rfl⟩ := Bytes.putU32_ok.mp (Action.applied_ok.mp changed)
    rw [Action.final_lift_ok]
    exact putFirst_within begins fun _ => .of_overwrite fits inside

theorem readFirst_within [Readable R] {f : Bytes → StoreM PUnit}
    (next : ∀ data s, Begins data s → Within R s ((f data).final s)) (s : Store) :
    Within R s ((readPage 1 >>= f).final s) :=
  Trait.Reading.bind (P := .within R) (Obeys.obeys s) fun data t run => next data t (readPage_first run)

theorem setHeaderWord_within [Writable R] {offset : Nat} (value : Nat) (low : 32 ≤ offset)
    (high : offset + 4 ≤ 40) (s : Store) : Within R s ((setHeaderWord offset value).final s) := by
  unfold setHeaderWord
  refine readFirst_within (fun data s begins => ?_) s
  cases word : data.u32 offset with
  | error e => exact .refl s
  | ok old =>
    rw [Action.final_lift_ok]
    split
    · exact putWord_within begins (.inr ⟨low, high⟩)
    · exact .refl s

theorem writePage_within [Writable R] (page : Page) (s : Store) : Within R s ((writePage page).final s) := by
  unfold writePage
  dsimp only
  split
  · exact .refl s
  split
  · exact readFirst_within (fun data s begins => putFirst_within begins (.of_header page.data)) s
  · rename_i other
    exact (onPager_respects (Writable.write page.data other)).stays s

instance [Writable R] : (Trait.within R).Writing where
  put := fun data other => (onPager_respects (Writable.write data other)).stays
  extend := (onPager_respects Writable.extend).stays
  tree := writePage_within
  free := by
    rintro offset value (rfl | rfl)
    · exact setHeaderWord_within value (by decide) (by decide)
    · exact setHeaderWord_within value (by decide) (by decide)

instance [Writable R] : (Trait.within R).Linking where
  links := fun _ _ _ _ _ begins _ _ => putWord_within begins (.inl (by decide))

instance [Shrinkable R] : (Trait.within R).Shrinking where
  truncate := fun positive => (onPager_respects (Shrinkable.truncate positive)).stays

instance [Rewritable R] (data : Bytes) : Respects R (putPage 1 data) :=
  onPager_respects (Rewritable.rewrite data)

instance [Rewritable R] (offset value : Nat) : Respects R (setHeaderWord offset value) := by
  unfold setHeaderWord
  infer_instance

instance [Rewritable R] : (Trait.within R).Rooting where
  root := fun _ => Obeys.obeys

theorem putPage_obeys [P.Writing] {page : PageNo} (data : Bytes) (other : page ≠ 1) :
    Obeys P (putPage page data) := ⟨Trait.Writing.put data other⟩

theorem putFresh_obeys [P.Writing] {page : PageNo} (data : Bytes) (other : page ≠ 1) :
    Obeys P (putFresh page data) := by
  unfold putFresh
  exact .andThen inferInstance fun s => putPage_obeys _ other

theorem link_obeys [P.Writing] {page : PageNo} (target : PageNo) (data : Bytes) (other : page ≠ 1) :
    Obeys P (link page target data) := .andThen inferInstance fun data' => putPage_obeys data' other

instance [P.Writing] : Obeys P (onPager Pager.extend) := ⟨Trait.Writing.extend⟩

instance [P.Writing] (page : Page) : Obeys P (writePage page) := ⟨Trait.Writing.tree page⟩

instance [P.Writing] (value : Nat) : Obeys P (setHeaderWord FileHeader.firstTrunkOffset value) :=
  ⟨Trait.Writing.free value (.inl rfl)⟩

instance [P.Writing] (value : Nat) : Obeys P (setHeaderWord FileHeader.freeCountOffset value) :=
  ⟨Trait.Writing.free value (.inr rfl)⟩

instance [P.Rooting] (value : Nat) : Obeys P (setHeaderWord FileHeader.largestRootOffset value) :=
  ⟨Trait.Rooting.root value⟩

end Store

open Store

namespace PointerMap

theorem mapPage_ne_one (usableSize pageSize page : Nat) : mapPage usableSize pageSize page ≠ 1 := by
  unfold mapPage
  dsimp only
  split
  · decide
  · split
    · exact Nat.succ_succ_ne_one _
    · exact Nat.succ_succ_ne_one _

theorem locate_ne_one {s : Store} {page map : PageNo} {start : Nat}
    (found : locate s page = .ok (map, start)) : map ≠ 1 := by
  unfold locate at found
  dsimp only at found
  split at found
  · cases found
  · cases found
    exact mapPage_ne_one _ _ _

instance [P.Writing] (page : PageNo) (e : PointerEntry) : Obeys P (put page e) := by
  unfold put
  refine .andThen inferInstance fun s => ?_
  split
  · refine .chain inferInstance fun (map, start) t u found => ?_
    have other := locate_ne_one (Action.lift_ok.mp found).1
    refine .andThen inferInstance fun data => .andThen inferInstance fun old => ?_
    have puts := putPage_obeys (P := P) (data.overwrite start (encode e)) other
    infer_instance
  · infer_instance

instance [P.Reading] (page : PageNo) : Obeys P (lookUp page) := by
  unfold lookUp
  refine .andThen inferInstance fun s => ?_
  dsimp only
  split
  · infer_instance
  refine .andThen inferInstance fun (map, start) => ?_
  dsimp only
  split
  · infer_instance
  refine .andThen inferInstance fun data => ?_
  split <;> infer_instance

instance [P.Writing] (page : Page) (i : Nat) : Obeys P (putForCell page i) := by
  unfold putForCell
  refine .andThen inferInstance fun info => ?_
  cases info.overflowPage <;> infer_instance

instance [P.Writing] (page : Page) : Obeys P (putForPage page) := by
  unfold putForPage
  infer_instance

end PointerMap

namespace Freelist

instance [P.Reading] : Obeys P count := by
  unfold count
  infer_instance

instance [P.Reading] : Obeys P firstTrunk := by
  unfold firstTrunk
  infer_instance

instance [P.Reading] (what : String) (page : PageNo) : Obeys P (checkPage what page) := by
  unfold checkPage
  infer_instance

theorem checkPage_passed {what : String} {page : Nat} {s t : Store}
    (run : checkPage what page s = .ok () t) : t = s ∧ 2 ≤ page ∧ page ≤ s.pageCount := by
  unfold checkPage at run
  rw [Action.get_bind] at run
  split at run
  · cases run
  rename_i inside
  simp only [Bool.or_eq_true, decide_eq_true_eq, not_or] at inside
  cases run
  exact ⟨rfl, Nat.le_of_not_lt inside.1, Nat.le_of_not_lt inside.2⟩

instance [P.Reading] (page : PageNo) : Obeys P (readTrunk page) := by
  unfold readTrunk
  infer_instance

instance extendOn [P.Writing] (left : Nat) : Obeys P (extendFile.go left) := by
  induction left with
  | zero =>
    unfold extendFile.go
    infer_instance
  | succ left ih =>
    unfold extendFile.go
    infer_instance

theorem extendOn_count {left : Nat} {s t : Store} {page : Nat}
    (run : extendFile.go left s = .ok page t) :
    s.pager.pageCount < page ∧ t.pager.pageCount = page := by
  induction left generalizing s with
  | zero =>
    unfold extendFile.go at run
    obtain ⟨q, extended, rfl⟩ := Action.zoom_ok.mp run
    obtain ⟨same, count⟩ := Pager.extend_count extended
    exact ⟨Nat.lt_of_lt_of_eq (Nat.lt_succ_self _) same.symm, count⟩
  | succ left ih =>
    unfold extendFile.go at run
    obtain ⟨next, u, zoomed, run⟩ := Action.bind_ok.mp run
    obtain ⟨q, extended, rfl⟩ := Action.zoom_ok.mp zoomed
    obtain ⟨same, count⟩ := Pager.extend_count extended
    have longer : s.pager.pageCount < next := Nat.lt_of_lt_of_eq (Nat.lt_succ_self _) same.symm
    rw [Action.get_bind] at run
    split at run
    · obtain ⟨grows, last⟩ := ih run
      exact ⟨Nat.lt_trans longer (Nat.lt_of_le_of_lt (Nat.le_of_eq count.symm) grows), last⟩
    · obtain ⟨rfl, rfl⟩ := Action.pure_ok.mp run
      exact ⟨longer, count⟩

instance [P.Writing] : Obeys P extendFile := by
  unfold extendFile
  infer_instance

theorem checked_obeys [P.Reading] {β : Type} {what : String} {page : PageNo} {f : PUnit → StoreM β}
    (next : page ≠ 1 → Obeys P (f ())) : Obeys P (checkPage what page >>= f) :=
  .chain inferInstance fun _ s t run => next fun one => by
    have low := (checkPage_passed run).2.1
    rw [one] at low
    exact absurd low (by decide)

instance [P.Writing] (trunk : PageNo) : Obeys P (takeFirst trunk) := by
  unfold takeFirst
  refine checked_obeys fun other => .andThen inferInstance fun free => ?_
  dsimp only
  split
  · infer_instance
  refine .andThen inferInstance fun (data, leaves) => ?_
  dsimp only
  split
  · have puts := putFresh_obeys (P := P) .empty other
    simp only [pure_bind]
    infer_instance
  · refine checked_obeys fun leaf => .andThen inferInstance fun data' =>
      .andThen (putPage_obeys _ other) fun _ => ?_
    have puts := putFresh_obeys (P := P) .empty leaf
    simp only [pure_bind]
    infer_instance

theorem takeFirst_ne_one {s t : Store} {trunk page : Nat} (run : takeFirst trunk s = .ok page t) :
    page ≠ 1 := by
  unfold takeFirst at run
  obtain ⟨_, u, trunkOk, run⟩ := Action.bind_ok.mp run
  obtain ⟨free, v, -, run⟩ := Action.bind_ok.mp run
  dsimp only at run
  split at run
  · exact absurd run Action.throw_bind_ok
  obtain ⟨⟨data, leaves⟩, w, -, run⟩ := Action.bind_ok.mp run
  dsimp only at run
  split at run
  · obtain ⟨_, x, -, run⟩ := Action.bind_ok.mp run
    rw [pure_bind] at run
    obtain ⟨_, y, -, run⟩ := Action.bind_ok.mp run
    obtain ⟨_, z, -, run⟩ := Action.bind_ok.mp run
    obtain ⟨rfl, -⟩ := Action.pure_ok.mp run
    exact Nat.ne_of_gt (checkPage_passed trunkOk).2.1
  · obtain ⟨_, x, leafOk, run⟩ := Action.bind_ok.mp run
    obtain ⟨data', y, -, run⟩ := Action.bind_ok.mp run
    obtain ⟨_, z, -, run⟩ := Action.bind_ok.mp run
    rw [pure_bind] at run
    obtain ⟨_, a, -, run⟩ := Action.bind_ok.mp run
    obtain ⟨_, b, -, run⟩ := Action.bind_ok.mp run
    obtain ⟨rfl, -⟩ := Action.pure_ok.mp run
    exact Nat.ne_of_gt (checkPage_passed leafOk).2.1

instance [P.Writing] : Obeys P allocate := by
  unfold allocate
  infer_instance

theorem allocate_ne_one {s t : Store} {page : Nat} (run : allocate s = .ok page t) : page ≠ 1 := by
  unfold allocate at run
  obtain ⟨trunk, u, found, run⟩ := Action.bind_ok.mp run
  split at run
  · exact takeFirst_ne_one run
  · obtain ⟨data, v, read, word⟩ := Action.bind_ok.mp found
    obtain ⟨-, rfl⟩ := Action.lift_ok.mp word
    exact Nat.ne_of_gt (Nat.lt_of_le_of_lt (readPage_first read).nonempty (extendOn_count run).1)

theorem allocateMany_ne_one {n : Nat} {s t : Store} {pages : List Nat}
    (run : allocateMany n s = .ok pages t) : ∀ page ∈ pages, page ≠ 1 := by
  induction n generalizing s pages with
  | zero =>
    obtain ⟨rfl, -⟩ := Action.pure_ok.mp run
    exact nofun
  | succ n ih =>
    obtain ⟨page, u, first, run⟩ := Action.bind_ok.mp run
    obtain ⟨rest, v, later, run⟩ := Action.bind_ok.mp run
    obtain ⟨rfl, rfl⟩ := Action.pure_ok.mp run
    intro other member
    rcases List.mem_cons.mp member with rfl | old
    · exact allocate_ne_one first
    · exact ih later other old

instance [P.Writing] (n : Nat) : Obeys P (allocateMany n) := by
  induction n with
  | zero =>
    unfold allocateMany
    infer_instance
  | succ n ih =>
    unfold allocateMany
    infer_instance

instance [P.Writing] (trunk page : PageNo) : Obeys P (addLeaf trunk page) := by
  unfold addLeaf
  dsimp only
  split
  · infer_instance
  refine checked_obeys fun other => .andThen inferInstance fun (data, leaves) => ?_
  refine .andThen inferInstance fun s => ?_
  dsimp only
  split
  · refine .andThen inferInstance fun data' => ?_
    have puts := putPage_obeys (P := P) data' other
    infer_instance
  · infer_instance

instance [P.Writing] (page : PageNo) : Obeys P (free page) := by
  unfold free
  refine checked_obeys fun other => ?_
  refine .andThen inferInstance fun count => .andThen inferInstance fun trunk =>
    .andThen inferInstance fun _ => .andThen inferInstance fun added => ?_
  have puts := putFresh_obeys (P := P) (Bytes.ofNat32 trunk) other
  infer_instance

instance [P.Reading] (trunk : Bytes) (left i : Nat) (seen : PageSet) :
    Obeys P (walkLeaves trunk left i seen) := by
  induction left generalizing i seen with
  | zero =>
    unfold walkLeaves
    infer_instance
  | succ left ih =>
    unfold walkLeaves
    dsimp only
    refine .andThen inferInstance fun _ => ?_
    split
    · infer_instance
    refine .andThen (ih _ _) fun (rest, seen) => ?_
    infer_instance

instance [P.Reading] (left : Nat) (trunk : PageNo) (seen : PageSet) : Obeys P (walkFrom left trunk seen) := by
  induction left generalizing trunk seen with
  | zero =>
    unfold walkFrom
    dsimp only
    split
    · infer_instance
    refine .andThen inferInstance fun _ => ?_
    split
    · infer_instance
    refine .andThen inferInstance fun (data, count) => .andThen inferInstance fun (leaves, seen) => ?_
    infer_instance
  | succ left ih =>
    unfold walkFrom
    dsimp only
    split
    · infer_instance
    refine .andThen inferInstance fun _ => ?_
    split
    · infer_instance
    refine .andThen inferInstance fun (data, count) => .andThen inferInstance fun (leaves, seen) => ?_
    infer_instance

instance [P.Reading] : Obeys P walk := by
  unfold walk
  infer_instance

instance [P.Writing] : Obeys P decrementCount := by
  unfold decrementCount
  infer_instance

theorem linkTrunk_obeys [P.Writing] {before : Option PageNo} (other : before ≠ some 1) (trunk : PageNo) :
    Obeys P (linkTrunk before trunk) := by
  unfold linkTrunk
  cases before with
  | none => infer_instance
  | some before =>
    exact .andThen inferInstance fun data => link_obeys trunk data fun one => other (congrArg some one)

theorem removeTrunk_obeys [P.Writing] {before : Option PageNo} (other : before ≠ some 1) (data : Bytes)
    (leaves : Nat) : Obeys P (removeTrunk before data leaves) := by
  have links := linkTrunk_obeys (P := P) other
  unfold removeTrunk
  dsimp only
  split
  · exact .andThen (links _) fun _ => inferInstance
  refine checked_obeys fun heir => .andThen inferInstance fun others => ?_
  exact .andThen (putFresh_obeys _ heir) fun _ => .andThen (links _) fun _ => inferInstance

theorem removeLeaf_obeys [P.Writing] {trunk : PageNo} (data : Bytes) (leaves i : Nat)
    (other : trunk ≠ 1) : Obeys P (removeLeaf trunk data leaves i) := by
  unfold removeLeaf
  exact .andThen inferInstance fun data' => .andThen (putPage_obeys _ other) fun _ => inferInstance

theorem removeFrom_obeys [P.Writing] (page : PageNo) (left : Nat) {before : Option PageNo} (before_ne : before ≠ some 1)
    (trunk : PageNo) : Obeys P (removeFrom page left before trunk) := by
  induction left generalizing before trunk with
  | zero =>
    unfold removeFrom
    infer_instance
  | succ left ih =>
    unfold removeFrom
    dsimp only
    split
    · infer_instance
    refine checked_obeys fun other => .andThen inferInstance fun (data, leaves) => ?_
    dsimp only
    split
    · exact .andThen (removeTrunk_obeys before_ne _ _) fun _ => inferInstance
    split
    · exact .andThen (removeLeaf_obeys _ _ _ other) fun _ => inferInstance
    · exact ih (fun one => other (Option.some.inj one)) _

instance [P.Writing] (page : PageNo) : Obeys P (remove page) := by
  unfold remove
  exact .andThen inferInstance fun s => .andThen inferInstance fun trunk =>
    removeFrom_obeys page s.pageCount (Option.some_ne_none _).symm trunk

end Freelist

namespace Overflow

instance [P.Reading] : Obeys P capacity := by
  unfold capacity
  infer_instance

theorem writePages_obeys [P.Writing] (tail : Bytes) {pages : List PageNo} (owner : PointerEntry)
    (start : Nat) (others : ∀ page ∈ pages, page ≠ 1) :
    Obeys P (writePages tail pages owner start) := by
  induction pages generalizing owner start with
  | nil =>
    unfold writePages
    infer_instance
  | cons page rest ih =>
    unfold writePages
    have other := others page List.mem_cons_self
    have later := fun owner start => ih owner start fun page member =>
      others page (List.mem_cons_of_mem _ member)
    exact .andThen inferInstance fun capacity => .andThen (putFresh_obeys _ other) fun _ =>
      .andThen inferInstance fun _ => later _ _

instance [P.Writing] (tail : Bytes) (owner : PageNo) : Obeys P (write tail owner) := by
  unfold write
  refine .andThen inferInstance fun capacity => .chain inferInstance fun pages s t run => ?_
  have others := Freelist.allocateMany_ne_one run
  cases pages with
  | nil => infer_instance
  | cons first rest => exact .andThen (writePages_obeys _ _ _ others) fun _ => inferInstance

instance [P.Writing] (cell : EncodedCell) (payload : Bytes) (owner : PageNo) :
    Obeys P (spill cell payload owner) := by
  unfold spill
  infer_instance

theorem readFrom_zero_eq (first : PageNo) (wanted : Nat) (page : PageNo) (seen : PageSet) (found : Bytes) :
    readFrom first wanted 0 page seen found = (do
      if found.size ≥ wanted then
        if page ≠ 0 then throw (.chainTooLong first)
        return found
      if page = 0 then throw (.chainTooShort first (wanted - found.size))
      if page > (← get).pageCount then throw (.chainPastEnd page)
      if seen.contains page then throw (.chainRevisits first page)
      let data ← readPage page
      let length := min (wanted - found.size) (← capacity)
      let _ ← data.slice 4 (4 + length)
      throw (.chainRevisits first page)) := rfl

theorem readFrom_succ_eq (first : PageNo) (wanted left : Nat) (page : PageNo) (seen : PageSet) (found : Bytes) :
    readFrom first wanted (left + 1) page seen found = (do
      if found.size ≥ wanted then
        if page ≠ 0 then throw (.chainTooLong first)
        return found
      if page = 0 then throw (.chainTooShort first (wanted - found.size))
      if page > (← get).pageCount then throw (.chainPastEnd page)
      if seen.contains page then throw (.chainRevisits first page)
      let data ← readPage page
      let length := min (wanted - found.size) (← capacity)
      let part ← data.slice 4 (4 + length)
      readFrom first wanted left (next data) (seen.insert page) (found ++ part)) := rfl

instance [P.Reading] (first : PageNo) (wanted left : Nat) (page : PageNo) (seen : PageSet) (found : Bytes) :
    Obeys P (readFrom first wanted left page seen found) := by
  induction left generalizing page seen found with
  | zero =>
    rw [readFrom_zero_eq]
    infer_instance
  | succ left ih =>
    rw [readFrom_succ_eq]
    infer_instance

instance [P.Reading] (first : PageNo) (wanted : Nat) : Obeys P (read first wanted) := by
  unfold read
  infer_instance

instance [P.Reading] (start stop left : Nat) (page : PageNo) (reached : Nat) (found : Bytes) :
    Obeys P (readRange start stop left page reached found) := by
  induction left generalizing page reached found with
  | zero =>
    unfold readRange
    infer_instance
  | succ left ih =>
    unfold readRange
    infer_instance

instance [P.Reading] (page : Page) (i start length : Nat) :
    Obeys P (payloadRange page i start length) := by
  unfold payloadRange
  infer_instance

instance [P.Reading] (page : Page) (i : Nat) : Obeys P (payload page i) := by
  unfold payload
  refine .andThen inferInstance fun info => .andThen inferInstance fun kept => ?_
  cases info.overflowPage <;> infer_instance

instance [P.Writing] (first : PageNo) (total left : Nat) (page : PageNo) (seen : PageSet) :
    Obeys P (freeFrom first total left page seen) := by
  induction left generalizing page seen with
  | zero =>
    unfold freeFrom
    infer_instance
  | succ left ih =>
    unfold freeFrom
    infer_instance

instance [P.Writing] (first : PageNo) (count : Nat) : Obeys P (free first count) := by
  unfold free
  infer_instance

instance [P.Writing] (info : CellInfo) : Obeys P (freeOf info) := by
  unfold freeOf
  cases info.overflowPage <;> infer_instance

end Overflow

namespace Vacuum

theorem moveReference_obeys [P.Writing] {source : PageNo} (links : P.Links source) (entry : PointerEntry)
    (target : PageNo) : Obeys P (moveReference entry source target) := by
  unfold moveReference
  dsimp only
  split
  · refine ⟨fun s => Trait.Reading.bind (Obeys.obeys s) fun data t read => ?_⟩
    split
    · exact Obeys.obeys t
    rename_i names
    by_cases one : entry.parent = 1
    · rw [one] at read ⊢
      exact links target (Store.readPage_first read) (Decidable.not_not.mp names) (Nat.le_refl _)
    · exact (link_obeys target data one).obeys t
  · refine .andThen inferInstance fun page => .andThen inferInstance fun moved => ?_
    cases moved <;> infer_instance

instance [P.Writing] (role : PageRole) (source page next : PageNo) :
    Obeys P (adopt role source page next) := by
  unfold adopt
  split <;> infer_instance

theorem relocate_obeys [P.Writing] {source : PageNo} {entry : PointerEntry}
    (links : entry.role ≠ .root → P.Links source) (target : PageNo) : Obeys P (relocate source entry target) := by
  unfold relocate
  dsimp only
  split
  · infer_instance
  rename_i inside
  have other : target ≠ 1 := fun one => by simp [one] at inside
  refine .andThen inferInstance fun data => .andThen (putPage_obeys _ other) fun _ => .andThen inferInstance fun _ => ?_
  split
  · rename_i role
    exact .andThen (moveReference_obeys (links role) entry target) fun _ => inferInstance
  · infer_instance

instance [P.Writing] [P.Linking] (source : PageNo) (entry : PointerEntry) (target : PageNo) :
    Obeys P (relocate source entry target) := relocate_obeys (fun _ => Trait.Linking.links source) target

theorem truncate_obeys [P.Shrinking] {count : Nat} (positive : 1 ≤ count) :
    Obeys P (truncate count) := by
  unfold truncate
  exact .andThen inferInstance fun s => ⟨Trait.Shrinking.truncate (s.lastUnreserved_pos positive)⟩

instance [P.Reading] (last : PageNo) : Obeys P (lowestFree last) := by
  unfold lowestFree
  infer_instance

theorem emptyLast_obeys [P.Writing] {last : PageNo} (links : P.Links last) (entry : PointerEntry) :
    Obeys P (emptyLast last entry) := by
  unfold emptyLast
  split
  · infer_instance
  · infer_instance
  all_goals
    refine .andThen inferInstance fun target => ?_
    cases target with
    | none => infer_instance
    | some target =>
      exact .andThen inferInstance fun _ => .andThen (relocate_obeys (fun _ => links) target) fun _ => inferInstance

theorem step_holds [P.Shrinking] {s : Store} (links : P.Links s.pageCount) : P.holds step s := by
  unfold step
  refine Trait.Reading.bind (Obeys.obeys s) fun _ t asked => ?_
  cases asked
  dsimp only
  split
  · exact Obeys.obeys s
  refine Trait.Reading.bind (Obeys.obeys s) fun free t counted => ?_
  rw [← Respects.count counted] at links
  split
  · exact Obeys.obeys t
  refine Trait.Reading.bind (Obeys.obeys t) fun _ u asked => ?_
  cases asked
  split
  · exact Obeys.obeys t
  rename_i long
  have shorter := truncate_obeys (P := P) (show 1 ≤ t.pageCount - 1 by omega)
  have empties := emptyLast_obeys links
  exact Obeys.obeys t

instance [P.Shrinking] [P.Linking] : Obeys P step := ⟨fun _ => step_holds (Trait.Linking.links _)⟩

instance [P.Shrinking] [P.Linking] (left : Nat) : Obeys P (run left) := by
  induction left with
  | zero =>
    unfold run
    infer_instance
  | succ left ih =>
    unfold run
    infer_instance

end Vacuum

namespace Tree

instance [P.Reading] : Obeys P largestRoot := by
  unfold largestRoot
  infer_instance

instance [P.Reading] : Obeys P nextRoot := by
  unfold nextRoot
  infer_instance

instance [P.Writing] (root : PageNo) (left : Nat) : Obeys P (extendTo root left) := by
  induction left with
  | zero =>
    unfold extendTo
    infer_instance
  | succ left ih =>
    unfold extendTo
    infer_instance

theorem vacate_obeys [P.Writing] {root : PageNo} (links : P.Links root) : Obeys P (vacate root) := by
  unfold vacate
  refine .andThen inferInstance fun removed => ?_
  split
  · refine .andThen inferInstance fun entry => ?_
    have moves (target : PageNo) : Obeys P (Vacuum.relocate root entry target) :=
      Vacuum.relocate_obeys (fun _ => links) target
    infer_instance
  · infer_instance

instance [P.Writing] [P.Linking] (root : PageNo) : Obeys P (vacate root) := vacate_obeys (Trait.Linking.links root)

theorem allocateRoot_holds [P.Rooting] {s : Store} (links : P.Links s.pageCount) : P.holds allocateRoot s := by
  unfold allocateRoot
  refine Trait.Reading.bind (Obeys.obeys s) fun _ t asked => ?_
  cases asked
  split
  · refine Trait.Reading.bind (Obeys.obeys s) fun root t found => ?_
    rw [← Respects.count found] at links
    refine Trait.Reading.bind (Obeys.obeys t) fun _ u asked => ?_
    cases asked
    dsimp only
    split
    · exact Obeys.obeys t
    · rename_i inside
      have vacates := vacate_obeys (links.mono (Nat.le_of_not_lt inside))
      exact Obeys.obeys t
  · exact Obeys.obeys s

theorem create_holds [P.Rooting] (kind : TreeKind) {s : Store} (links : P.Links s.pageCount) :
    P.holds (create kind) s := by
  unfold create
  exact Trait.Reading.bind (allocateRoot_holds links) fun root t _ => Obeys.obeys t

instance [P.Rooting] [P.Linking] (kind : TreeKind) : Obeys P (create kind) :=
  ⟨fun _ => create_holds kind (Trait.Linking.links _)⟩

instance [P.Writing] (page : Page) (left i : Nat) (children : List PageNo) :
    Obeys P (clearCells page left i children) := by
  induction left generalizing i children with
  | zero =>
    unfold clearCells
    infer_instance
  | succ left ih =>
    unfold clearCells
    infer_instance

instance [P.Writing] (root : PageNo) (kind : TreeKind) (left : Nat) (pending : List PageNo) (removed : Nat) :
    Obeys P (clearPages root kind left pending removed) := by
  induction left generalizing pending removed with
  | zero =>
    cases pending <;>
    · unfold clearPages
      infer_instance
  | succ left ih =>
    cases pending <;>
    · unfold clearPages
      infer_instance

instance [P.Writing] (root : PageNo) : Obeys P (clear root) := by
  unfold clear
  infer_instance

instance [P.Rooting] (root : PageNo) : Obeys P (releaseRoot root) := by
  unfold releaseRoot
  refine .andThen inferInstance fun largest => ?_
  have moves : Obeys P (Vacuum.relocate largest ⟨.root, 0⟩ root) :=
    Vacuum.relocate_obeys (fun other => absurd rfl other) root
  infer_instance

instance [P.Rooting] (root : PageNo) : Obeys P (remove root) := by
  unfold remove
  infer_instance

end Tree

namespace Siblings

instance [P.Reading] (parent : Page) (index : Nat) (page : Page) (i : Nat) :
    Obeys P (sibling parent index page i) := by
  unfold sibling
  infer_instance

instance [P.Reading] (parent : Page) (index : Nat) (page : Page) (count i : Nat) :
    Obeys P (siblings parent index page count i) := by
  induction count generalizing i with
  | zero =>
    unfold siblings
    infer_instance
  | succ count ih =>
    unfold siblings
    infer_instance

instance [P.Reading] (number : PageNo) (kind : PageKind) (cells : List Bytes) (child : Option PageNo) :
    Obeys P (build number kind cells child) := by
  unfold build
  infer_instance

instance [P.Reading] (kind : PageKind) (cells : List Bytes) (last : Option PageNo)
    (places : List (PageNo × Span)) : Obeys P (layOut kind cells last places) := by
  induction places with
  | nil =>
    unfold layOut
    infer_instance
  | cons place rest ih =>
    obtain ⟨number, span⟩ := place
    cases rest with
    | nil =>
      unfold layOut
      infer_instance
    | cons next rest =>
      unfold layOut
      infer_instance

instance [P.Writing] (parent : PageNo) (page : Page) : Obeys P (writeLaid parent page) := by
  unfold writeLaid
  infer_instance

instance [P.Writing] (kind : PageKind) (i : Nat) (dividers : List Bytes) (parent : Page) :
    Obeys P (insertDividers kind i dividers parent) := by
  induction dividers generalizing i parent with
  | nil =>
    unfold insertDividers
    infer_instance
  | cons divider rest ih =>
    unfold insertDividers
    refine .andThen inferInstance fun s => .andThen inferInstance fun info => ?_
    cases info.overflowPage <;> infer_instance

instance [P.Writing] (olds : List PageNo) (count : Nat) : Obeys P (numbers olds count) := by
  unfold numbers
  infer_instance

instance [P.Writing] (parent : Page) (index : Nat) (page : Page) : Obeys P (balance parent index page) := by
  unfold balance
  refine .andThen inferInstance fun s => ?_
  dsimp only
  split
  · infer_instance
  refine .andThen inferInstance fun olds => .andThen inferInstance fun cells =>
    .andThen inferInstance fun final => .andThen inferInstance fun spans => ?_
  infer_instance

end Siblings

namespace Balance

instance [P.Writing] (root : Page) : Obeys P (deepen root) := by
  unfold deepen
  infer_instance

instance [P.Writing] (root : Page) : Obeys P (absorbChild root) := by
  unfold absorbChild
  infer_instance

instance [P.Writing] (left : Nat) (root : Page) : Obeys P (collapse left root) := by
  induction left generalizing root with
  | zero =>
    unfold collapse
    infer_instance
  | succ left ih =>
    unfold collapse
    split
    · infer_instance
    refine .andThen inferInstance fun absorbed => ?_
    cases absorbed <;> infer_instance

instance [P.Writing] (left : Nat) (root : Page) : Obeys P (settleRoot left root) := by
  induction left generalizing root with
  | zero =>
    unfold settleRoot
    infer_instance
  | succ left ih =>
    unfold settleRoot
    split
    · refine .andThen inferInstance fun (child, root) => ?_
      infer_instance
    · infer_instance

instance [P.Writing] (afterDelete : Bool) (page : Page) (above : List Frame) :
    Obeys P (climb afterDelete page above) := by
  induction above generalizing page with
  | nil =>
    unfold climb
    infer_instance
  | cons parent above ih =>
    unfold climb
    infer_instance

end Balance

instance [P.Writing] (path : Path) (afterDelete : Bool) : Obeys P (balance path afterDelete) := by
  unfold balance
  cases path <;> infer_instance

end TreeFile
