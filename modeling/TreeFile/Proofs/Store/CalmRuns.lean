import TreeFile.Balance
import TreeFile.Proofs.Pager.Faults
import TreeFile.Proofs.Store.Disk

/-!
Runs over a file that may refuse calls. A run that succeeds was refused nothing it asked for, so it
goes the same way over a file that refuses nothing, to the same answer and the same pages.
-/

namespace TreeFile

namespace Pager

variable {p q : Pager}

theorem write_calm_ok {page : Nat} {data : Bytes} (run : write page data p = .ok () q) :
    write page data p.calm = .ok () q.calm := by
  rcases write_cases p page data with ⟨positive, bound, size⟩ | ⟨e, failed⟩
  · have entered : write page data p.calm = _ := write_entered (p := p.calm) positive bound size
    rw [write_entered positive bound size] at run
    obtain ⟨⟨⟩, r, begun, run⟩ := Action.bind_ok.mp run
    obtain ⟨⟨⟩, u, remembered, run⟩ := Action.bind_ok.mp run
    obtain ⟨r', begun', calmBegun⟩ := begin_calm p
    cases begun.symm.trans begun'
    rw [entered, Action.bind_of_ok calmBegun]
    rcases remember_cases page r with ⟨e, v, failed, -⟩ | ⟨v, remembered', calmRemembered, -⟩
    · cases failed.symm.trans remembered
    · cases remembered.symm.trans remembered'
      rw [Action.bind_of_ok calmRemembered]
      cases run
      rfl
  · cases failed.symm.trans run

theorem extend_calm_ok {page : PageNo} (run : extend p = .ok page q) : extend p.calm = .ok page q.calm := by
  obtain ⟨next, written⟩ := extend_iff_write.mp run
  exact extend_iff_write.mpr ⟨next, write_calm_ok written⟩

end Pager

namespace Store

def calm (s : Store) : Store := { s with pager := s.pager.calm }

theorem calm_self {s : Store} (calm : s.pager.file.refusal = none) : s.calm = s := by
  unfold Store.calm
  rw [Pager.calm_self calm]

end Store

open Store

class Calms {α : Type} (act : StoreM α) : Prop where
  run : ∀ {s t : Store} {a : α}, act s = .ok a t → act s.calm = .ok a t.calm

namespace Calms

variable {α β : Type}

instance pure (a : α) : Calms (pure a) := by
  refine ⟨fun {s t b} run => ?_⟩
  obtain ⟨rfl, rfl⟩ := Action.pure_ok.mp run
  rfl

instance throw (e : Error) : Calms (throw e : StoreM α) := ⟨fun run => absurd run Action.throw_ok⟩

instance guard (e : Error) (f : α → StoreM β) : Calms ((MonadExcept.throw e : StoreM α) >>= f) :=
  ⟨fun run => absurd run Action.throw_bind_ok⟩

instance lift (x : Except Error α) : Calms (liftM x : StoreM α) := by
  refine ⟨fun {s t a} run => ?_⟩
  obtain ⟨rfl, rfl⟩ := Action.lift_ok.mp run
  rfl

instance bind (x : StoreM α) (f : α → StoreM β) [first : Calms x] [second : ∀ a, Calms (f a)] :
    Calms (x >>= f) := by
  refine ⟨fun {s t b} run => ?_⟩
  obtain ⟨a, u, runX, runF⟩ := Action.bind_ok.mp run
  exact Action.bind_ok.mpr ⟨a, u.calm, first.run runX, (second a).run runF⟩

theorem get {f : Store → StoreM α} (same : ∀ s : Store, f s.calm = f s) (next : ∀ s, Calms (f s)) :
    Calms (MonadState.get >>= f) := by
  refine ⟨fun {s t a} run => ?_⟩
  rw [Action.get_bind] at run ⊢
  rw [same]
  exact (next s).run run

theorem andThen {x : StoreM α} {f : α → StoreM β} (first : Calms x) (second : ∀ a, Calms (f a)) :
    Calms (x >>= f) := bind x f

instance ite (c : Prop) [Decidable c] (x y : StoreM α) [Calms x] [Calms y] : Calms (if c then x else y) := by
  split <;> infer_instance

instance forM (f : α → StoreM PUnit) [∀ a, Calms (f a)] (list : List α) : Calms (list.forM f) := by
  induction list with
  | nil => exact pure ()
  | cons a rest ih => exact bind (f a) fun _ => rest.forM f

theorem onPager {act : Action Pager α}
    (same : ∀ {p q : Pager} {a : α}, act p = .ok a q → act p.calm = .ok a q.calm) : Calms (Store.onPager act) := by
  refine ⟨fun {s t a} run => ?_⟩
  obtain ⟨q, acted, rfl⟩ := onPager_ok.mp run
  exact onPager_ok.mpr ⟨q.calm, same acted, rfl⟩

end Calms

namespace Store

instance (page : PageNo) : Calms (onPager (Pager.fetch page)) := .onPager Pager.fetch_calm

instance : Calms (onPager Pager.extend) := .onPager Pager.extend_calm_ok

instance (page : PageNo) (data : Bytes) : Calms (putPage page data) := .onPager Pager.write_calm_ok

instance (page : PageNo) : Calms (readPage page) := by
  unfold readPage
  exact .get (fun _ => rfl) inferInstance

instance (page : PageNo) (data : Bytes) : Calms (putFresh page data) := by
  unfold putFresh
  exact .get (fun _ => rfl) inferInstance

instance (page : PageNo) : Calms (loadPage page) := by
  unfold loadPage
  exact .andThen inferInstance fun data => .get (fun _ => rfl) inferInstance

instance (page : Page) : Calms (writePage page) := by
  unfold writePage
  infer_instance

instance (page : PageNo) (kind : PageKind) : Calms (emptyPage page kind) := by
  unfold emptyPage
  exact .get (fun _ => rfl) inferInstance

instance (offset : Nat) : Calms (headerWord offset) := by
  unfold headerWord
  infer_instance

instance (offset value : Nat) : Calms (setHeaderWord offset value) := by
  unfold setHeaderWord
  infer_instance

end Store

namespace PointerMap

instance (page : PageNo) (e : PointerEntry) : Calms (PointerMap.put page e) := by
  unfold PointerMap.put
  exact .get (fun _ => rfl) inferInstance

instance (page : Page) (i : Nat) : Calms (putForCell page i) := by
  unfold putForCell
  refine .andThen inferInstance fun info => ?_
  cases info.overflowPage <;> infer_instance

instance (page : Page) : Calms (putForPage page) := by
  unfold putForPage
  exact .get (fun _ => rfl) inferInstance

end PointerMap

namespace Freelist

instance (what : String) (page : PageNo) : Calms (checkPage what page) := by
  unfold checkPage
  exact .get (fun _ => rfl) inferInstance

instance : Calms count := inferInstanceAs (Calms (headerWord _))

instance : Calms firstTrunk := inferInstanceAs (Calms (headerWord _))

instance (page : PageNo) : Calms (readTrunk page) := by
  unfold readTrunk
  exact .andThen inferInstance fun data => .get (fun _ => rfl) inferInstance

instance (left : Nat) : Calms (extendFile.go left) := by
  induction left with
  | zero => exact inferInstanceAs (Calms (onPager Pager.extend))
  | succ left ih =>
    unfold extendFile.go
    exact .andThen inferInstance fun page => .get (fun _ => rfl) inferInstance

instance : Calms extendFile := inferInstanceAs (Calms (extendFile.go 2))

instance (trunk : PageNo) : Calms (takeFirst trunk) := by
  unfold takeFirst
  refine .andThen inferInstance fun _ => .andThen inferInstance fun free => ?_
  dsimp only
  split
  · infer_instance
  refine .andThen inferInstance fun (data, leaves) => ?_
  dsimp only
  split <;> infer_instance

instance : Calms allocate := by
  unfold allocate
  infer_instance

instance (n : Nat) : Calms (allocateMany n) := by
  induction n with
  | zero => exact .pure []
  | succ n ih =>
    unfold allocateMany
    infer_instance

instance (trunk page : PageNo) : Calms (addLeaf trunk page) := by
  unfold addLeaf
  dsimp only
  split
  · infer_instance
  exact .andThen inferInstance fun _ => .andThen inferInstance fun (data, leaves) =>
    .get (fun _ => rfl) inferInstance

instance (page : PageNo) : Calms (free page) := by
  unfold free
  infer_instance

instance : Calms decrementCount := by
  unfold decrementCount
  infer_instance

instance (before : Option PageNo) (trunk : PageNo) : Calms (linkTrunk before trunk) := by
  unfold linkTrunk
  cases before <;> infer_instance

instance (before : Option PageNo) (data : Bytes) (leaves : Nat) : Calms (removeTrunk before data leaves) := by
  unfold removeTrunk
  infer_instance

instance (trunk : PageNo) (data : Bytes) (leaves i : Nat) : Calms (removeLeaf trunk data leaves i) := by
  unfold removeLeaf
  infer_instance

instance (page left : Nat) (before : Option PageNo) (trunk : PageNo) : Calms (removeFrom page left before trunk) := by
  induction left generalizing before trunk with
  | zero =>
    unfold removeFrom
    infer_instance
  | succ left ih =>
    unfold removeFrom
    dsimp only
    split
    · infer_instance
    refine .andThen inferInstance fun _ => .andThen inferInstance fun (data, leaves) => ?_
    dsimp only
    split
    · infer_instance
    split <;> infer_instance

instance (page : PageNo) : Calms (remove page) := by
  unfold remove
  exact .get (fun _ => rfl) inferInstance

end Freelist

namespace Siblings

instance (parent : Page) (index : Nat) (page : Page) (i : Nat) : Calms (sibling parent index page i) := by
  unfold sibling
  infer_instance

instance (parent : Page) (index : Nat) (page : Page) (count i : Nat) : Calms (siblings parent index page count i) := by
  induction count generalizing i with
  | zero => exact .pure []
  | succ count ih =>
    unfold siblings
    infer_instance

instance (number : PageNo) (kind : PageKind) (cells : List Bytes) (child : Option PageNo) :
    Calms (build number kind cells child) := by
  unfold build
  infer_instance

instance (kind : PageKind) (cells : List Bytes) (last : Option PageNo) (list : List (PageNo × Span)) :
    Calms (layOut kind cells last list) := by
  induction list with
  | nil => exact .pure []
  | cons entry rest ih =>
    cases rest with
    | nil =>
      unfold layOut
      infer_instance
    | cons next rest =>
      unfold layOut
      exact .get (fun _ => rfl) inferInstance

instance (parent : PageNo) (page : Page) : Calms (writeLaid parent page) := by
  unfold writeLaid
  infer_instance

instance (olds : List PageNo) (count : Nat) : Calms (numbers olds count) := by
  unfold numbers
  infer_instance

instance (kind : PageKind) (i : Nat) (dividers : List Bytes) (parent : Page) :
    Calms (insertDividers kind i dividers parent) := by
  induction dividers generalizing i parent with
  | nil => exact .pure parent
  | cons divider rest ih =>
    unfold insertDividers
    refine .get (fun _ => rfl) fun s => .andThen inferInstance fun info => ?_
    cases info.overflowPage <;> infer_instance

instance (parent : Page) (index : Nat) (page : Page) : Calms (balance parent index page) := by
  unfold balance
  refine .get (fun _ => rfl) fun s => ?_
  dsimp only
  split <;> infer_instance

end Siblings

end TreeFile
