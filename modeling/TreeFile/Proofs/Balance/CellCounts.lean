import TreeFile.Proofs.Balance.Parents

/-!
How many cells a page has, also one whose bytes make no sense. Making room on a page keeps its cells and an
insertion adds one, so a root that grows a level is left with fewer cells than it had.
-/

namespace TreeFile

namespace Page

/-- A page of the same kind, with as many cells, the same ones parked, and the same last child. -/
structure Tallies (p q : Page) : Prop where
  kind : q.kind = p.kind
  count : q.cellCount = p.cellCount
  right : q.header.rightChild = p.header.rightChild
  parked : q.parked = p.parked

theorem Tallies.refl (p : Page) : Tallies p p := ⟨rfl, rfl, rfl, rfl⟩

theorem Tallies.trans {p q r : Page} (first : Tallies p q) (second : Tallies q r) : Tallies p r :=
  ⟨second.kind.trans first.kind, second.count.trans first.count, second.right.trans first.right,
    second.parked.trans first.parked⟩

class Tallying {α : Type} (act : Action Page α) : Prop where
  stays : Action.Stays Tallies act

namespace Tallying

variable {α β : Type}

theorem run {act : Action Page α} [tallying : Tallying act] {p q : Page} {a : α} (run : act p = .ok a q) :
    Tallies p q := Action.final_of_ok run ▸ tallying.stays p

instance pure (a : α) : Tallying (pure a) := ⟨.pure .refl a⟩

instance throw (e : Error) : Tallying (throw e : Action Page α) := ⟨.refl⟩

instance get : Tallying (MonadState.get : Action Page Page) := ⟨.refl⟩

instance lift (x : Except Error α) : Tallying (liftM x : Action Page α) := by
  cases x with
  | ok a => exact ⟨.refl⟩
  | error e => exact ⟨.refl⟩

instance bind (x : Action Page α) (f : α → Action Page β) [first : Tallying x] [second : ∀ a, Tallying (f a)] :
    Tallying (x >>= f) := ⟨.bind .trans first.stays fun a => (second a).stays⟩

theorem andThen {x : Action Page α} {f : α → Action Page β} (first : Tallying x) (second : ∀ a, Tallying (f a)) :
    Tallying (x >>= f) := bind x f

instance ite (c : Prop) [Decidable c] (x y : Action Page α) [Tallying x] [Tallying y] :
    Tallying (if c then x else y) := by
  split <;> infer_instance

instance edit (act : Action Bytes α) : Tallying (edit act) := by
  refine ⟨fun p => ?_⟩
  unfold Page.edit Action.zoom Action.final Action.outcome
  dsimp only
  cases act p.data <;> exact ⟨rfl, rfl, rfl, rfl⟩

/-- Changes to the header that leave alone what tells how many cells there are, and where they lead. -/
instance setHeader (firstFree contentStart fragments : PageHeader → Nat) :
    Tallying (setHeader fun h =>
      ⟨h.kind, firstFree h, h.cellCount, contentStart h, fragments h, h.rightChild⟩) :=
  ⟨fun _ => ⟨rfl, rfl, rfl, rfl⟩⟩

instance freeBytes (free : Page → Nat) :
    Tallying (modify fun p => ⟨p.number, p.data, p.geometry, p.limits, p.header, free p, p.parked⟩) :=
  ⟨fun _ => ⟨rfl, rfl, rfl, rfl⟩⟩

end Tallying

instance : Tallying writeHeader := by
  unfold writeHeader
  infer_instance

instance (n : Nat) : Tallying (gainFree n) := by
  unfold gainFree
  infer_instance

instance (n : Nat) : Tallying (loseFree n) := by
  unfold loseFree
  infer_instance

instance (i start : Nat) : Tallying (setPointer i start) := by
  unfold setPointer
  infer_instance

instance (link : Option Nat) (start : Nat) : Tallying (setLink link start) := by
  unfold setLink
  cases link <;> infer_instance

instance (size : Nat) : Tallying (carve size) := by
  unfold carve
  infer_instance

instance (size : Nat) : Tallying (takeBlock size) := by
  unfold takeBlock
  refine .andThen inferInstance fun p => .andThen inferInstance fun blocks => ?_
  split <;> infer_instance

instance (before : Window) (left i top : Nat) : Tallying (packCells before left i top) := by
  induction left generalizing i top with
  | zero =>
    unfold packCells
    infer_instance
  | succ left ih =>
    unfold packCells
    infer_instance

instance : Tallying defragment := by
  unfold defragment
  infer_instance

instance (size : Nat) : Tallying (defragmentAndCarve size) := by
  unfold defragmentAndCarve
  infer_instance

instance (size : Nat) : Tallying (allocate size) := by
  unfold allocate
  refine .andThen inferInstance fun p => ?_
  split
  · refine .andThen inferInstance fun found => ?_
    cases found <;> infer_instance
  · infer_instance

instance (cells : List Bytes) (i top : Nat) : Tallying (layOut cells i top) := by
  induction cells generalizing i top with
  | nil =>
    unfold layOut
    infer_instance
  | cons cell rest ih =>
    unfold layOut
    infer_instance

section

variable {p q : Page} {kind : PageKind}

theorem setHeader_run (f : PageHeader → PageHeader) (p : Page) :
    setHeader f p = .ok () { p with header := f p.header } := rfl

theorem place_count {i : Nat} {cell : Bytes} (run : place i cell p = .ok () q) :
    q.cellCount = p.cellCount + 1 ∧ q.parked = p.parked := by
  unfold place at run
  obtain ⟨start, p1, allocated, run⟩ := Action.bind_ok.mp run
  obtain ⟨⟨⟩, p2, put, run⟩ := Action.bind_ok.mp run
  rw [Action.get_bind] at run
  obtain ⟨⟨⟩, p3, moved, run⟩ := Action.bind_ok.mp run
  obtain ⟨⟨⟩, p4, pointed, run⟩ := Action.bind_ok.mp run
  rw [Action.bind_of_ok (setHeader_run _ p4)] at run
  have before := (((Tallying.run allocated).trans (Tallying.run put)).trans (Tallying.run moved)).trans
    (Tallying.run pointed)
  have after := Tallying.run run
  exact ⟨after.count.trans (congrArg (· + 1) before.count), after.parked.trans before.parked⟩

theorem insert_count {i : Nat} {cell : Bytes} (run : insert i cell p = .ok () q) :
    q.logicalCount = p.logicalCount + 1 := by
  unfold insert at run
  rw [Action.get_bind] at run
  dsimp only at run
  split at run
  · exact absurd run Action.throw_bind_ok
  split at run
  · cases run
    unfold logicalCount
    rw [List.length_append]
    rfl
  · obtain ⟨count, parked⟩ := place_count run
    unfold logicalCount
    rw [count, parked]
    omega

theorem reset_count (run : reset kind p = .ok () q) :
    q.header = .empty kind p.usable ∧ q.parked = [] := by
  unfold reset at run
  rw [Action.get_bind] at run
  obtain ⟨⟨⟩, p1, cleared, run⟩ := Action.bind_ok.mp run
  obtain ⟨d, -, rfl⟩ := edit_ok.mp cleared
  rw [Action.modify_bind] at run
  obtain ⟨e, -, rfl⟩ := writeHeader_ok.mp run
  exact ⟨rfl, rfl⟩

theorem rebuild_count {cells : List Bytes} {right : Option PageNo} (run : rebuild kind cells right p = .ok () q) :
    q.kind = kind ∧ q.cellCount = cells.length ∧ q.parked = [] ∧
      (kind.isLeaf = false → q.header.rightChild = some (right.getD 0)) := by
  unfold rebuild at run
  rw [Action.get_bind] at run
  dsimp only at run
  split at run
  · exact absurd run Action.throw_bind_ok
  obtain ⟨⟨⟩, p1, cleared, run⟩ := Action.bind_ok.mp run
  obtain ⟨top, p2, laid, run⟩ := Action.bind_ok.mp run
  rw [Action.bind_of_ok (setHeader_run _ p2), Action.modify_bind] at run
  obtain ⟨header, parked⟩ := reset_count cleared
  have laid := Tallying.run laid
  have written := Tallying.run run
  refine ⟨written.kind.trans (laid.kind.trans (congrArg PageHeader.kind header)), written.count,
    written.parked.trans (laid.parked.trans parked), fun inner => written.right.trans ?_⟩
  dsimp only
  rw [inner]
  rfl

theorem setRightChild_tallies {child : PageNo} (run : setRightChild child p = .ok () q) :
    q.cellCount = p.cellCount ∧ q.parked = p.parked := by
  unfold setRightChild at run
  rw [Action.get_bind] at run
  split at run
  · exact absurd run Action.throw_bind_ok
  dsimp only at run
  rw [Action.bind_of_ok (setHeader_run _ p)] at run
  have written := Tallying.run run
  exact ⟨written.count, written.parked⟩

theorem setChild_tallies {i : Nat} {child : PageNo} (run : setChild i child p = .ok () q) :
    q.cellCount = p.cellCount ∧ q.parked = p.parked := by
  unfold setChild at run
  rw [Action.get_bind] at run
  dsimp only at run
  split at run
  · exact absurd run Action.throw_bind_ok
  split at run
  · obtain ⟨start, -, run⟩ := Action.lift_bind_ok.mp run
    have put := Tallying.run run
    exact ⟨put.count, put.parked⟩
  split at run
  · exact setRightChild_tallies run
  · exact absurd run Action.throw_ok

theorem placedCells_length {cells : List Bytes} (run : p.placedCells = .ok cells) : cells.length = p.cellCount := by
  rw [Except.mapM_length run, List.length_range]

theorem unpark_length {parked : List (Nat × Bytes)} {cells all : List Bytes} (run : unpark cells parked = .ok all) :
    all.length = cells.length + parked.length := by
  induction parked generalizing cells with
  | nil =>
    cases run
    rfl
  | cons entry rest ih =>
    unfold unpark at run
    split at run
    · rename_i inside
      rw [ih run, List.length_insertIdx, if_pos inside, List.length_cons]
      omega
    · cases run

theorem logicalCells_length {cells : List Bytes} (run : p.logicalCells = .ok cells) :
    cells.length = p.logicalCount := by
  obtain ⟨placed, isPlaced, run⟩ := Except.bind_ok.mp run
  rw [unpark_length run, placedCells_length isPlaced]
  rfl

end

end Page

theorem Covers.length_le {promote : Bool} {stop start : Nat} {spans : List Span}
    (covers : Covers promote stop start spans) (peopled : Peopled spans) : start + spans.length ≤ stop := by
  induction spans generalizing start with
  | nil => exact covers.elim
  | cons span rest ih =>
    obtain ⟨some_, others⟩ := List.forall_mem_cons.mp peopled
    cases rest with
    | nil =>
      obtain ⟨rfl, -, rfl⟩ := covers
      exact some_
    | cons next rest =>
      obtain ⟨rfl, -, more⟩ := covers
      have length := ih more others
      simp only [List.length_cons] at length ⊢
      omega

open Store

variable {s t : Store}

namespace Siblings

theorem build_count {number : PageNo} {kind : PageKind} {cells : List Bytes} {right : Option PageNo} {page : Page}
    (run : build number kind cells right s = .ok page t) : page.cellCount = cells.length ∧ page.parked = [] := by
  obtain ⟨blank, u, -, run⟩ := Action.bind_ok.mp run
  obtain ⟨rebuilt, -⟩ := Action.lift_ok.mp run
  obtain ⟨-, count, parked, -⟩ := Page.rebuild_count (Action.applied_ok.mp rebuilt)
  exact ⟨count, parked⟩

theorem layOut_dividers {kind : PageKind} {cells : List Bytes} {last : Option PageNo}
    (list : List (PageNo × Span)) {laid : List Laid} (run : layOut kind cells last list s = .ok laid t) :
    (laid.filterMap Laid.divider).length = list.length - 1 := by
  induction list generalizing s laid with
  | nil =>
    cases run
    rfl
  | cons entry rest ih =>
    obtain ⟨number, span⟩ := entry
    cases rest with
    | nil =>
      obtain ⟨page, u, -, run⟩ := Action.bind_ok.mp run
      cases run
      rfl
    | cons next rest =>
      unfold layOut at run
      rw [Action.get_bind] at run
      obtain ⟨child, -, run⟩ := Action.lift_bind_ok.mp run
      obtain ⟨page, u, -, run⟩ := Action.bind_ok.mp run
      obtain ⟨divider, -, run⟩ := Action.lift_bind_ok.mp run
      obtain ⟨more, v, laidMore, run⟩ := Action.bind_ok.mp run
      cases run
      have length := ih laidMore
      simp only [List.filterMap_cons, List.length_cons] at length ⊢
      omega

theorem insertDividers_count {kind : PageKind} {i : Nat} {dividers : List Bytes} {parent result : Page}
    (run : insertDividers kind i dividers parent s = .ok result t) :
    result.logicalCount = parent.logicalCount + dividers.length := by
  induction dividers generalizing i parent s with
  | nil =>
    cases run
    rfl
  | cons divider rest ih =>
    obtain ⟨info, u, r, -, -, inserted, run⟩ := insertDividers_step run
    rw [ih run, Page.insert_count inserted, List.length_cons]
    omega

theorem sibling_self {parent page found : Page} {index : Nat} (run : sibling parent index page index s = .ok found t) :
    found = page := by
  unfold sibling at run
  obtain ⟨number, -, run⟩ := Action.lift_bind_ok.mp run
  rw [if_pos rfl] at run
  dsimp only at run
  split at run
  · exact absurd run Action.throw_bind_ok
  rw [Action.pure_bind_run] at run
  split at run
  · exact absurd run Action.throw_bind_ok
  exact (Action.pure_ok.mp run).1.symm

/-- Balancing the only child of a page without cells leaves the page fewer cells than the child had: every page
that the child is spread over keeps one at least. -/
theorem balance_only {parent child result : Page} (none_ : parent.cellCount = 0) (clear : parent.parked = [])
    (some_ : child.logicalCount ≠ 0) (run : balance parent 0 child s = .ok result t) :
    result.logicalCount < child.logicalCount := by
  obtain ⟨-, olds, cells, final, spans, found, laid, r, u₁, u₂, u₃, u₄, u₅, read, gathered, -, distributed, -, made,
    -, -, reseated, inserted⟩ := balance_parts rfl run
  rw [none_] at read
  obtain ⟨only, u, alone, read⟩ := Action.bind_ok.mp read
  cases read
  obtain rfl := sibling_self alone
  have count := Page.logicalCells_length gathered
  obtain ⟨covers, peopled, -⟩ := distribute_ok distributed
  have length := covers.length_le (peopled fun nothing => some_ (by
    rw [← count, ← List.length_map, nothing, List.length_nil]))
  rw [List.length_map, count] at length
  obtain ⟨⟨⟩, r', dropped, reseated⟩ := Action.bind_ok.mp (Action.applied_ok.mp reseated)
  cases dropped
  obtain ⟨countR, parkedR⟩ := Page.setChild_tallies reseated
  have dividers := layOut_dividers _ made
  rw [List.length_zip] at dividers
  have total := insertDividers_count inserted
  unfold Page.logicalCount at total some_ length ⊢
  rw [countR, parkedR, none_, clear, List.length_nil] at total
  omega

end Siblings

end TreeFile
