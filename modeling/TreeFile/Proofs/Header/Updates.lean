import TreeFile.Proofs.Header.Words

/-!
A log of the words that an action sets in the file header. The header is on page 1, which holds a tree page
as well, and is written by all who change that tree, also from copies that are older than the header is now.
None of them brings back what the header was: whatever log an action has, the header is then the one from before
with the words of this log set.
-/

namespace TreeFile

open Action (Ends)
open Pager (Copies)
open HasStore (store)
open Store (Becomes Begins onPager putPage writePage setHeaderWord link atomically)

structure HeaderUpdate where
  offset : Nat
  value : Nat

namespace FileHeader

def update (header : Bytes) (u : HeaderUpdate) : Bytes := header.overwrite u.offset (Bytes.ofNat32 u.value)

def updateAll (header : Bytes) (log : List HeaderUpdate) : Bytes := log.foldl update header

def mark : Nat := magic.at32 0

structure Headed (size : Nat) (header d : Bytes) : Prop where
  sized : d.size = size
  long : fileHeaderSize ≤ size
  same : d.extract 0 fileHeaderSize = header

end FileHeader

open FileHeader (Headed update updateAll mark)

/-- Run from this state the action sets these words of the header, in this order. It is made of actions that
leave the header alone, of those that set a word, and of statements, which undo what they did if they fail.
`saved` tells whether it is a part of a statement. -/
inductive Logs : (saved : Bool) → ∀ {σ α : Type} [HasStore σ], Action σ α → σ → List HeaderUpdate → Prop
  | still {saved : Bool} {σ α : Type} [HasStore σ] {act : Action σ α} {s : σ}
      (same : (store (act.final s)).pager = (store s).pager) : Logs saved act s []
  | bind {saved : Bool} {σ α β : Type} [HasStore σ] {x : Action σ α} {f : α → Action σ β} {s t : σ} {a : α}
      {log later : List HeaderUpdate} (first : Logs saved x s log) (run : x s = .ok a t)
      (next : Logs saved (f a) t later) : Logs saved (x >>= f) s (log ++ later)
  | stop {saved : Bool} {σ α β : Type} [HasStore σ] {x : Action σ α} {f : α → Action σ β} {s t : σ} {e : Error}
      {log : List HeaderUpdate} (first : Logs saved x s log) (failed : x s = .error e t) :
      Logs saved (x >>= f) s log
  | attempt {saved : Bool} {σ α : Type} [HasStore σ] {x : Action σ α} {s : σ} {log : List HeaderUpdate}
      (first : Logs saved x s log) : Logs saved (Action.attempt x) s log
  | inside {saved : Bool} {σ τ α β : Type} [HasStore σ] [HasStore τ] {enter : τ → σ} {done : α → σ → β}
      {leave : τ → σ → τ} {act : Action σ α} {t : τ} {log : List HeaderUpdate}
      (enters : store (enter t) = store t) (leaves : ∀ s, store (leave t s) = store s)
      (inner : Logs saved act (enter t) log) : Logs saved (act.inside enter done leave) t log
  | fetch {saved : Bool} (page : Nat) (s : Store) : Logs saved (onPager (Pager.fetch page)) s []
  | put {saved : Bool} {page : Nat} (data : Bytes) (other : page ≠ 1) (s : Store) :
      Logs saved (putPage page data) s []
  | extend {saved : Bool} (s : Store) : Logs saved (onPager Pager.extend) s []
  | truncate {saved : Bool} {count : Nat} (positive : 1 ≤ count) (s : Store) :
      Logs saved (onPager (Pager.truncate count)) s []
  | tree {saved : Bool} (page : Page) (s : Store) : Logs saved (writePage page) s []
  | word {saved : Bool} {offset value : Nat} {s t : Store} (apart : 4 ≤ offset)
      (inside : offset + 4 ≤ fileHeaderSize) (run : setHeaderWord offset value s = .ok () t) :
      Logs saved (setHeaderWord offset value) s [⟨offset, value⟩]
  | noWord {saved : Bool} {offset value : Nat} {s t : Store} {e : Error} (inside : offset + 4 ≤ fileHeaderSize)
      (failed : setHeaderWord offset value s = .error e t) : Logs saved (setHeaderWord offset value) s []
  | link {saved : Bool} {target : Nat} {data : Bytes} {s t : Store} (begins : Begins data s)
      (run : link 1 target data s = .ok () t) : Logs saved (link 1 target data) s [⟨0, target⟩]
  | noLink {saved : Bool} {target : Nat} {data : Bytes} {s t : Store} {e : Error} (begins : Begins data s)
      (failed : link 1 target data s = .error e t) : Logs saved (link 1 target data) s []
  | kept {α : Type} {act : StoreM α} {s t : Store} {p : Pager} {n : Nat} {a : α} {log : List HeaderUpdate}
      (opened : Pager.openSavepoint s.pager = .ok n p) (inner : Logs true act { s with pager := p } log)
      (run : act { s with pager := p } = .ok a t) : Logs false (atomically act) s log
  | undone {α : Type} {act : StoreM α} {s t : Store} {p : Pager} {n : Nat} {e : Error} {log : List HeaderUpdate}
      (opened : Pager.openSavepoint s.pager = .ok n p) (inner : Logs true act { s with pager := p } log)
      (failed : act { s with pager := p } = .error e t) : Logs false (atomically act) s []
  | begin (s : Store) : Logs false (onPager Pager.begin) s []
  | commit (s : Store) : Logs false (onPager Pager.commit) s []
  | refuse (refusal : Option Refusal) (s : Store) :
      Logs false (modify fun s => { s with pager.file.refusal := refusal } : StoreM PUnit) s []

namespace FileHeader

variable {size offset value : Nat} {header d : Bytes}

instance : Sized size (Headed size header) := ⟨Headed.sized, Headed.long⟩

theorem updateAll_append (header : Bytes) (log later : List HeaderUpdate) :
    updateAll header (log ++ later) = updateAll (updateAll header log) later := List.foldl_append

theorem Headed.length (headed : Headed size header d) : header.size = fileHeaderSize := by
  rw [← headed.same, Bytes.size_extract_of_le (headed.sized ▸ headed.long), Nat.sub_zero]

theorem Headed.get (headed : Headed size header d) {i : Nat} (inside : i < fileHeaderSize) :
    header.get! i = d.get! i := by
  rw [← headed.same, Bytes.get_extract, if_pos (by rwa [Nat.zero_add]), Nat.zero_add]

theorem Headed.at32 (headed : Headed size header d) (inside : offset + 4 ≤ fileHeaderSize) :
    header.at32 offset = d.at32 offset :=
  Bytes.SameOn.at32 (fun _ _ low => headed.get low) (Nat.zero_le _) inside

theorem headed_of_get (sized : d.size = size) (long : fileHeaderSize ≤ size) (length : header.size = fileHeaderSize)
    (same : ∀ i, i < fileHeaderSize → d.get! i = header.get! i) : Headed size header d := by
  have cut : (d.extract 0 fileHeaderSize).size = fileHeaderSize := by
    rw [Bytes.size_extract_of_le (sized ▸ long), Nat.sub_zero]
  refine ⟨sized, long, Bytes.ext_get (cut.trans length.symm) fun i low => ?_⟩
  rw [cut] at low
  rw [Bytes.get_extract, if_pos (by rwa [Nat.zero_add]), Nat.zero_add, same i low]

theorem Headed.put (headed : Headed size header d) (inside : offset + 4 ≤ fileHeaderSize) (value : Nat) :
    Headed size (update header ⟨offset, value⟩) (d.overwrite offset (Bytes.ofNat32 value)) := by
  have fits : offset + (Bytes.ofNat32 value).size ≤ d.size :=
    Nat.le_trans inside (headed.sized ▸ headed.long)
  have fits' : offset + (Bytes.ofNat32 value).size ≤ header.size := headed.length ▸ inside
  refine headed_of_get ((Bytes.size_overwrite fits).trans headed.sized) headed.long
    ((Bytes.size_overwrite fits').trans headed.length) fun i low => ?_
  unfold update
  rw [Bytes.get_overwrite fits, Bytes.get_overwrite fits', headed.get low]

theorem Headed.unchanged (headed : Headed size header d) (inside : offset + 4 ≤ fileHeaderSize)
    (equal : d.at32 offset = value) : update header ⟨offset, value⟩ = header := by
  have fits : offset + (Bytes.ofNat32 value).size ≤ header.size := headed.length ▸ inside
  refine Bytes.ext_get (Bytes.size_overwrite fits) fun i _ => ?_
  unfold update
  rw [Bytes.get_overwrite fits]
  split
  · rename_i within
    rw [← equal, ← headed.at32 inside]
    exact Bytes.get_ofNat32_at32 header within.1 within.2
  · rfl

theorem Headed.refill (headed : Headed size header d) {e : Bytes}
    (sized : (e.overwrite 0 (d.extract 0 fileHeaderSize)).size = size) :
    Headed size header (e.overwrite 0 (d.extract 0 fileHeaderSize)) := by
  refine headed_of_get sized headed.long headed.length fun i low => ?_
  have none : (e.extract 0 0).size = 0 := by rw [ByteArray.size_extract]; omega
  rw [headed.same, Bytes.overwrite_eq, Bytes.get_append, ByteArray.size_append, none, headed.length,
    if_pos (by omega), Bytes.get_append, none, if_neg (Nat.not_lt_zero i), Nat.sub_zero]

theorem updateAll_at32 {log : List HeaderUpdate} (length : header.size = fileHeaderSize)
    (apart : ∀ u ∈ log, 4 ≤ u.offset ∧ u.offset + 4 ≤ fileHeaderSize) :
    (updateAll header log).at32 0 = header.at32 0 := by
  induction log generalizing header with
  | nil => rfl
  | cons u rest ih =>
    obtain ⟨⟨low, high⟩, others⟩ := List.forall_mem_cons.mp apart
    have fits : u.offset + (Bytes.ofNat32 u.value).size ≤ header.size := length ▸ high
    exact (ih ((Bytes.size_overwrite fits).trans length) others).trans (Bytes.at32_overwrite fits (.inl low))

end FileHeader

/-- Page 1 has this header, and what it will be after going back to a savepoint is known if one is open. -/
abbrev Pager.Carries (size : Nat) (opened : Option (Bytes → Prop)) (header : Bytes) : Pager → Prop :=
  Copies size (fun _ => True) opened (Headed size header)

open Pager (Carries)

section

variable {size : Nat} {opened : Option (Bytes → Prop)} {header data : Bytes} {s : Store}

theorem Pager.Carries.openSavepoint {p q : Pager} {n : Nat} (carries : Carries size none header p)
    (opens : Pager.openSavepoint p = .ok n q) : Carries size (some (Headed size header)) header q := by
  obtain ⟨m, r, run, copies⟩ := Copies.openSavepoint carries
  cases run.symm.trans opens
  exact copies

theorem Pager.Carries.commit {p : Pager} (carries : Carries size none header p) :
    Carries size none header (Pager.commit.final p) := by
  have ends : Ends Pager.commit p (fun _ => Carries size none header) (Carries size none header) :=
    (Copies.commit carries).imp (fun _ _ _ copies => copies.weaken fun _ _ => trivial) fun _ copies =>
      copies.weaken fun _ _ => trivial
  exact ends.final

namespace Store

theorem onPager_carries {α : Type} {act : Action Pager α} (carries : Carries size opened header (act.final s.pager)) :
    Carries size opened header ((onPager act).final s).pager := by
  rw [onPager_final]
  exact carries

theorem setHeaderWord_carries {offset : Nat} (carries : Carries size opened header s.pager)
    (inside : offset + 4 ≤ fileHeaderSize) (value : Nat) :
    Ends (setHeaderWord offset value) s (fun _ t => Carries size opened (update header ⟨offset, value⟩) t.pager)
      fun t => Carries size opened header t.pager := by
  have becomes : Becomes size (fun _ => True) opened (Headed size header) s s := ⟨carries, .refl s⟩
  have ends : Ends (setHeaderWord offset value) s
      (fun _ => Becomes size (fun _ => True) opened (Headed size (update header ⟨offset, value⟩)) s)
      (Becomes size (fun _ => True) opened (Headed size header) s) :=
    becomes.setWord inside (fun d headed => headed.put inside value) fun d headed equal e known =>
      (headed.unchanged inside equal).symm ▸ known
  exact ends.imp (fun _ _ _ => Becomes.copies) fun _ => Becomes.copies

theorem writePage_carries (carries : Carries size opened header s.pager) (page : Page) :
    Carries size opened header ((writePage page).final s).pager := by
  have becomes : Becomes size (fun _ => True) opened (Headed size header) s s := ⟨carries, .refl s⟩
  have ends : Ends (writePage page) s (fun _ t => Carries size opened header t.pager)
      fun t => Carries size opened header t.pager := by
    unfold writePage
    dsimp only
    split
    · exact .of_error rfl carries
    split
    · refine (becomes.readFirst.imp (fun _ _ _ => id) fun _ => Becomes.copies).bind ?_
      intro d t _ ⟨becomesT, _, headed⟩
      exact (onPager_ends (becomesT.copies.rewrite headed.refill) becomesT.settled).imp
        (fun _ _ _ => And.left) fun _ => And.left
    · rename_i other
      exact .of_final (onPager_carries (carries.write page.data other))
  exact ends.final

theorem Begins.headed (begins : Begins data s) (carries : Carries size opened header s.pager) :
    Headed size header data := by
  have raw : s.pager.image 1 = s.pager.raw 1 := if_neg (Nat.not_lt.mpr begins.nonempty)
  exact begins.first ▸ raw.symm ▸ carries.starts.now

theorem link_carries (carries : Carries size opened header s.pager) (begins : Begins data s) (target : Nat) :
    Ends (link 1 target data) s (fun _ t => Carries size opened (update header ⟨0, target⟩) t.pager)
      fun t => Carries size opened header t.pager := by
  have headed := begins.headed carries
  have inside : 0 + 4 ≤ fileHeaderSize := by decide
  have fits : 0 + 4 ≤ data.size := Nat.le_trans inside (headed.sized ▸ headed.long)
  refine .lift (Action.applied_ok.mpr (Bytes.putU32_ok.mpr ⟨fits, rfl⟩)) ?_
  exact (onPager_ends (carries.rewrite fun _ => headed.put inside target) (.refl s)).imp
    (fun _ _ _ => And.left) fun _ => And.left

end Store

end

theorem Logs.sound {saved : Bool} {size : Nat} {opened : Option (Bytes → Prop)} {header : Bytes} {σ α : Type}
    [HasStore σ] {act : Action σ α} {s : σ} {log : List HeaderUpdate} (logs : Logs saved act s log)
    (part : opened.isSome = saved) (carries : Carries size opened header (store s).pager) :
    Carries size opened (updateAll header log) (store (act.final s)).pager := by
  induction logs generalizing opened header with
  | still same =>
    rw [same]
    exact carries
  | bind first run next ihX ihF =>
    have after := ihX part carries
    rw [Action.final_of_ok run] at after
    rw [FileHeader.updateAll_append, Action.final_bind_of_ok run]
    exact ihF part after
  | stop first failed ih =>
    have after := ih part carries
    rw [Action.final_of_error failed] at after
    rw [Action.final_of_error (Action.bind_of_error failed)]
    exact after
  | attempt first ih =>
    rw [Action.final_attempt]
    exact ih part carries
  | inside enters leaves inner ih =>
    rw [Action.final_inside, leaves]
    exact ih part (enters.symm ▸ carries)
  | fetch page s => exact Store.onPager_carries (carries.fetch page)
  | put data other s => exact Store.onPager_carries (carries.write data other)
  | extend s => exact Store.onPager_carries carries.extend
  | truncate positive s => exact Store.onPager_carries (carries.truncate positive)
  | tree page s => exact Store.writePage_carries carries page
  | word apart inside run =>
    rw [Action.final_of_ok run]
    exact (Store.setHeaderWord_carries carries inside _).ok run
  | noWord inside failed =>
    rw [Action.final_of_error failed]
    exact (Store.setHeaderWord_carries carries inside _).error failed
  | link begins run =>
    rw [Action.final_of_ok run]
    exact (Store.link_carries carries begins _).ok run
  | noLink begins failed =>
    rw [Action.final_of_error failed]
    exact (Store.link_carries carries begins _).error failed
  | kept opens inner run ih =>
    obtain rfl := Option.isNone_iff_eq_none.mp (Option.isSome_eq_false_iff.mp part)
    have after := ih rfl (carries.openSavepoint opens)
    rw [Action.final_of_ok run] at after
    obtain ⟨q, released, kept⟩ := after.releaseSavepoint
    rw [Action.final_of_ok (Store.atomically_ok opens run released)]
    exact kept
  | undone opens inner failed ih =>
    obtain rfl := Option.isNone_iff_eq_none.mp (Option.isSome_eq_false_iff.mp part)
    have after := ih rfl (carries.openSavepoint opens)
    rw [Action.final_of_error failed] at after
    -- The header to go back to was fixed by the savepoint, whatever the parts have logged since.
    obtain ⟨q, rolled, back⟩ := after.rollbackSavepoint
    rw [Action.final_of_error (Store.atomically_error opens failed rolled)]
    exact back
  | begin s =>
    obtain ⟨q, begins, copies, -⟩ := carries.begin
    exact Store.onPager_carries (Action.final_of_ok begins ▸ copies)
  | commit s =>
    obtain rfl := Option.isNone_iff_eq_none.mp (Option.isSome_eq_false_iff.mp part)
    exact Store.onPager_carries carries.commit
  | refuse refusal s => exact carries.browsed (.of_bytes rfl) rfl

theorem Logs.places {saved : Bool} {σ α : Type} [HasStore σ] {act : Action σ α} {s : σ} {log : List HeaderUpdate}
    (logs : Logs saved act s log) :
    ∀ u ∈ log, u.offset = 0 ∨ 4 ≤ u.offset ∧ u.offset + 4 ≤ fileHeaderSize := by
  induction logs with
  | bind _ _ _ first later => exact fun u member => (List.mem_append.mp member).elim (first u) (later u)
  | stop _ _ ih | attempt _ ih | inside _ _ _ ih | kept _ _ _ ih => exact ih
  | word apart inside => exact List.forall_mem_singleton.mpr (.inr ⟨apart, inside⟩)
  | link => exact List.forall_mem_singleton.mpr (.inl rfl)
  | _ => exact nofun

/-- Page 1 has this header. It begins as that of a database, unless there may be so many pages that this word is the
number of one. -/
structure Pager.Heads (size : Nat) (many : Prop) (opened : Option (Bytes → Prop)) (header : Bytes) (p : Pager) :
    Prop where
  carries : Carries size opened header p
  marked : ¬ many → header.at32 0 = mark

open Pager (Heads)

structure Logged (saved : Bool) (many : Prop) (may : HeaderUpdate → Prop) {σ α : Type} [HasStore σ]
    (act : Action σ α) (s : σ) (log : List HeaderUpdate) : Prop where
  logs : Logs saved act s log
  may : ∀ u ∈ log, may u ∧ (u.offset = 0 → many)

/-- All that the action does to the header is logged, and is what it may do. -/
def Trait.logged (size : Nat) (many : Prop) (opened : Option (Bytes → Prop))
    (may : HeaderUpdate → Prop) : Trait where
  holds act s := ∀ header, Heads size many opened header (store s).pager →
    ∃ log, Logged opened.isSome many may act s log

variable {size : Nat} {many : Prop} {opened : Option (Bytes → Prop)} {may : HeaderUpdate → Prop} {header : Bytes}

theorem Logged.heads {σ α : Type} [HasStore σ] {act : Action σ α} {s : σ} {log : List HeaderUpdate}
    (logged : Logged opened.isSome many may act s log) (heads : Heads size many opened header (store s).pager) :
    Heads size many opened (updateAll header log) (store (act.final s)).pager := by
  refine ⟨logged.logs.sound rfl heads.carries, fun few => ?_⟩
  rw [FileHeader.updateAll_at32 heads.carries.starts.now.length fun u member => ?_]
  · exact heads.marked few
  · exact (logged.logs.places u member).resolve_left fun first => few ((logged.may u member).2 first)

theorem Trait.logged_nil {σ α : Type} [HasStore σ] {act : Action σ α} {s : σ} (logs : Logs opened.isSome act s []) :
    (Trait.logged size many opened may).holds act s := fun _ _ => ⟨[], logs, nofun⟩

instance : (Trait.logged size many opened may).Reading where
  still := fun same _ => Trait.logged_nil (.still same)
  bind := by
    intro σ α β _ x f s first next header heads
    obtain ⟨log, logged⟩ := first header heads
    cases run : x s with
    | ok a t =>
      have after := logged.heads heads
      rw [Action.final_of_ok run] at after
      obtain ⟨later, logged'⟩ := next a t run _ after
      refine ⟨log ++ later, .bind logged.logs run logged'.logs, fun u member => ?_⟩
      exact (List.mem_append.mp member).elim (logged.may u) (logged'.may u)
    | error e t => exact ⟨log, .stop logged.logs run, logged.may⟩
  attempt := by
    intro σ α _ x s first header heads
    obtain ⟨log, logged⟩ := first header heads
    exact ⟨log, .attempt logged.logs, logged.may⟩
  inside := by
    intro σ τ α β _ _ enter done leave act t enters leaves first header heads
    rw [← enters] at heads
    obtain ⟨log, logged⟩ := first header heads
    exact ⟨log, .inside enters leaves logged.logs, logged.may⟩
  fetch := fun page s => Trait.logged_nil (.fetch page s)

def HeaderUpdate.Among (places : List Nat) (u : HeaderUpdate) : Prop := u.offset ∈ places

open HeaderUpdate (Among)

namespace Store

theorem setHeaderWord_logged {offset value : Nat} (allowed : may ⟨offset, value⟩) (apart : 4 ≤ offset)
    (inside : offset + 4 ≤ fileHeaderSize) : Obeys (.logged size many opened may) (setHeaderWord offset value) := by
  refine ⟨fun s => ?_⟩
  cases run : setHeaderWord offset value s with
  | ok a t =>
    refine fun _ _ => ⟨[⟨offset, value⟩], .word apart inside run, List.forall_mem_singleton.mpr ⟨allowed, ?_⟩⟩
    exact fun zero => absurd zero (Nat.ne_of_gt (Nat.lt_of_lt_of_le (by decide) apart))
  | error e t => exact Trait.logged_nil (.noWord inside run)

/-- Page 1 can only be linked to another page if there are so many pages that its first word is the number of one. -/
theorem links_logged {last : Nat} (short : ¬ many → last < mark) (allowed : ∀ target, may ⟨0, target⟩) :
    (Trait.logged size many opened may).Links last := by
  intro source target data s begins names low header heads
  have headed : Headed size header data := begins.headed heads.carries
  have fits : 0 + 4 ≤ data.size := Nat.le_trans (by decide) (headed.sized ▸ headed.long)
  have enough : many := Classical.byContradiction fun few => by
    rw [Bytes.u32?_of_le fits, ← headed.at32 (by decide), heads.marked few] at names
    exact Nat.not_lt.mpr low (Option.some.inj names ▸ short few)
  cases run : link 1 target data s with
  | ok a t => exact ⟨[⟨0, target⟩], .link begins run, List.forall_mem_singleton.mpr ⟨allowed target, fun _ => enough⟩⟩
  | error e t => exact ⟨[], .noLink begins run, nofun⟩

end Store

open FileHeader (firstTrunkOffset freeCountOffset largestRootOffset)

variable (places : List Nat)

instance : (Trait.logged size many opened (Among (firstTrunkOffset :: freeCountOffset :: places))).Writing where
  put := fun data other s => Trait.logged_nil (.put data other s)
  extend := fun s => Trait.logged_nil (.extend s)
  tree := fun page s => Trait.logged_nil (.tree page s)
  free := by
    intro offset value place
    refine (Store.setHeaderWord_logged ?_ ?_ ?_).obeys
    · rcases place with rfl | rfl
      · exact List.mem_cons_self
      · exact List.mem_cons_of_mem _ List.mem_cons_self
    all_goals rcases place with rfl | rfl <;> decide

instance : (Trait.logged size many opened (Among (firstTrunkOffset :: freeCountOffset :: places))).Shrinking where
  truncate := fun positive s => Trait.logged_nil (.truncate positive s)

instance : Trait.Rooting
    (.logged size many opened (Among (firstTrunkOffset :: freeCountOffset :: largestRootOffset :: places))) where
  root := fun value => by
    refine (Store.setHeaderWord_logged ?_ (by decide) (by decide)).obeys
    exact List.mem_cons_of_mem _ (List.mem_cons_of_mem _ List.mem_cons_self)

theorem Store.atomically_logged {α : Type} {act : StoreM α} {s : Store}
    (inner : ∀ S t, t.pageCount = s.pageCount → (Trait.logged size many (some S) may).holds act t) :
    (Trait.logged size many none may).holds (atomically act) s := by
  intro header (heads : Heads size many none header s.pager)
  obtain ⟨n, p, opens, carries⟩ := Pager.Copies.openSavepoint heads.carries
  have same := Pager.openSavepoint_count opens
  obtain ⟨log, logged⟩ := inner _ { s with pager := p } same header ⟨carries, heads.marked⟩
  cases run : act { s with pager := p } with
  | ok a t => exact ⟨log, .kept opens logged.logs run, logged.may⟩
  | error e t => exact ⟨[], .undone opens logged.logs run, nofun⟩

instance : (Trait.logged size many none may).Undoing fun S => .logged size many (some S) may :=
  ⟨fun inner => ⟨fun _ => Store.atomically_logged fun S t _ => (inner S).obeys t⟩⟩

end TreeFile
