import TreeFile.Proofs.Store.Disk
import TreeFile.Proofs.Store.Effects

/-!
What leaves the file as long as it was: reading, notes in the pointer map, and freeing a page.
-/

namespace TreeFile

open Store

class KeepsLength {α : Type} (act : StoreM α) : Prop where
  run : ∀ {s t : Store} {a : α}, act s = .ok a t → t.pageCount = s.pageCount

namespace KeepsLength

variable {α β : Type}

instance pure (a : α) : KeepsLength (pure a) := ⟨fun run => congrArg pageCount (Action.pure_ok.mp run).2.symm⟩

instance throw (e : Error) : KeepsLength (throw e : StoreM α) := ⟨fun run => absurd run Action.throw_ok⟩

instance get : KeepsLength (MonadState.get : StoreM Store) := ⟨fun run => by cases run; rfl⟩

instance lift (x : Except Error α) : KeepsLength (liftM x : StoreM α) :=
  ⟨fun run => congrArg pageCount (Action.lift_ok.mp run).2.symm⟩

theorem chain {x : StoreM α} {f : α → StoreM β} (first : KeepsLength x)
    (next : ∀ {a s t}, x s = .ok a t → KeepsLength (f a)) : KeepsLength (x >>= f) := by
  refine ⟨fun run => ?_⟩
  obtain ⟨a, u, runX, runF⟩ := Action.bind_ok.mp run
  exact ((next runX).run runF).trans (first.run runX)

instance bind (x : StoreM α) (f : α → StoreM β) [first : KeepsLength x] [second : ∀ a, KeepsLength (f a)] :
    KeepsLength (x >>= f) := first.chain fun _ => inferInstance

instance ite (c : Prop) [Decidable c] (x y : StoreM α) [KeepsLength x] [KeepsLength y] :
    KeepsLength (if c then x else y) := by
  split <;> infer_instance

instance forM (f : α → StoreM PUnit) [∀ a, KeepsLength (f a)] (list : List α) : KeepsLength (list.forM f) := by
  induction list with
  | nil => exact pure ()
  | cons a rest ih => exact bind (f a) fun _ => rest.forM f

end KeepsLength

namespace Store

variable {s t : Store} {page : PageNo}

theorem putPage_length {data : Bytes} (inside : page ≤ s.pageCount) (run : putPage page data s = .ok () t) :
    t.pageCount = s.pageCount := by
  obtain ⟨q, written, rfl⟩ := onPager_ok.mp run
  exact (Pager.write_count written).trans (Nat.max_eq_left inside)

theorem readPage_length {data : Bytes} (run : readPage page s = .ok data t) :
    t.pageCount = s.pageCount ∧ page ≤ s.pageCount := by
  obtain ⟨-, inside, image, q, fetched, -, rfl⟩ := readPage_fetched run
  exact ⟨(Pager.fetch_holds fetched inside).1, inside⟩

instance (page : PageNo) : KeepsLength (readPage page) := ⟨fun run => (readPage_length run).1⟩

instance (page : PageNo) : KeepsLength (loadPage page) := by
  unfold loadPage
  infer_instance

instance (offset : Nat) : KeepsLength (headerWord offset) := by
  unfold headerWord
  infer_instance

instance (offset value : Nat) : KeepsLength (setHeaderWord offset value) := by
  refine ⟨fun {s t _} run => ?_⟩
  obtain ⟨data, u, read, run⟩ := Action.bind_ok.mp run
  obtain ⟨same, inside⟩ := readPage_length read
  obtain ⟨old, -, run⟩ := Action.lift_bind_ok.mp run
  split at run
  · obtain ⟨data', -, run⟩ := Action.lift_bind_ok.mp run
    exact (putPage_length (same ▸ inside) run).trans same
  · cases run
    exact same

end Store

instance (page : PageNo) (e : PointerEntry) : KeepsLength (PointerMap.put page e) := by
  refine ⟨fun {s t _} run => ?_⟩
  unfold PointerMap.put at run
  rw [Action.get_bind] at run
  split at run
  · obtain ⟨⟨map, start⟩, -, run⟩ := Action.lift_bind_ok.mp run
    obtain ⟨data, u, read, run⟩ := Action.bind_ok.mp run
    obtain ⟨same, inside⟩ := readPage_length read
    obtain ⟨old, -, run⟩ := Action.lift_bind_ok.mp run
    split at run
    · exact (putPage_length (same ▸ inside) run).trans same
    · cases run
      exact same
  · cases run
    rfl

instance (page : Page) (i : Nat) : KeepsLength (PointerMap.putForCell page i) := by
  unfold PointerMap.putForCell
  refine .chain inferInstance fun {info _ _} _ => ?_
  cases info.overflowPage <;> infer_instance

instance (page : Page) : KeepsLength (PointerMap.putForPage page) := by
  unfold PointerMap.putForPage
  infer_instance

namespace Freelist

instance : KeepsLength count := inferInstanceAs (KeepsLength (headerWord _))

instance : KeepsLength firstTrunk := inferInstanceAs (KeepsLength (headerWord _))

instance (page : PageNo) : KeepsLength (readTrunk page) := by
  unfold readTrunk
  infer_instance

instance (trunk page : PageNo) : KeepsLength (addLeaf trunk page) := by
  refine ⟨fun {s t _} run => ?_⟩
  unfold addLeaf at run
  dsimp only at run
  split at run
  · cases run
    rfl
  obtain ⟨⟨⟩, u, checked, run⟩ := Action.bind_ok.mp run
  obtain ⟨isS, -, inside⟩ := checkPage_passed checked
  rw [isS] at run
  obtain ⟨⟨data, leaves⟩, v, read, run⟩ := Action.bind_ok.mp run
  have same : v.pageCount = s.pageCount := KeepsLength.run read
  rw [Action.get_bind] at run
  dsimp only at run
  split at run
  · obtain ⟨data', -, run⟩ := Action.lift_bind_ok.mp run
    obtain ⟨⟨⟩, w, put, run⟩ := Action.bind_ok.mp run
    cases run
    exact (putPage_length (same ▸ inside) put).trans same
  · cases run
    exact same

theorem free_length {s t : Store} {page : PageNo} (run : free page s = .ok () t) :
    2 ≤ page ∧ page ≤ s.pageCount ∧ t.pageCount = s.pageCount := by
  unfold free at run
  obtain ⟨⟨⟩, s0, checked, run⟩ := Action.bind_ok.mp run
  obtain ⟨isS, low, inside⟩ := checkPage_passed checked
  rw [isS] at run
  obtain ⟨count, s1, counted, run⟩ := Action.bind_ok.mp run
  obtain ⟨trunk, s2, named, run⟩ := Action.bind_ok.mp run
  obtain ⟨⟨⟩, s3, raised, run⟩ := Action.bind_ok.mp run
  obtain ⟨added, s4, listed, run⟩ := Action.bind_ok.mp run
  have same : s4.pageCount = s.pageCount :=
    (KeepsLength.run listed).trans ((KeepsLength.run raised).trans
      ((KeepsLength.run named).trans (KeepsLength.run counted)))
  refine ⟨low, inside, ?_⟩
  split at run
  · obtain ⟨⟨⟩, s5, fresh, run⟩ := Action.bind_ok.mp run
    unfold putFresh at fresh
    rw [Action.get_bind] at fresh
    have sameFresh := putPage_length (same ▸ inside) fresh
    exact (KeepsLength.run run).trans (sameFresh.trans same)
  · exact (KeepsLength.run run).trans same

end Freelist

end TreeFile
