import TreeFile.Balance.Siblings
import TreeFile.Proofs.Balance.Sheets

/-!
Gathering the cells of siblings and laying them out anew. Pages in memory mirror nodes; what is
gathered is the flattened window, and what is laid out is an assembly of it.
-/

namespace TreeFile

open Store PointerMap

variable {s t : Store} {d e : Disk} {tree : TreeKind} {h : Nat}

theorem Row.slots_get (limits : PayloadLimits) {row : Row (Limb h)} {i : Nat}
    (inside : i < (row.slots limits tree).length) : (row.slots limits tree)[i] =
      ⟨Limb.page? h (row.kid i), (row.items.getD i default).stub limits tree⟩ := by
  unfold Row.slots at inside ⊢
  rw [List.length_map] at inside
  rw [List.getElem_map, Row.cells_get inside]

/-- A page in memory has the cells of a node, some of which may be parked. -/
structure Page.Mirrors (p : Page) (d : Disk) (tree : TreeKind) (node : Node (Limb h)) : Prop where
  is : p.Of d node.page (.at tree h)
  bears : p.Bears (node.row.slots d.limits tree) node.row.right

namespace Page.Mirrors

variable {p : Page} {node : Node (Limb h)}

theorem alike (mirrors : p.Mirrors d tree node) (alike : Disk.Alike d e) : p.Mirrors e tree node :=
  ⟨mirrors.is.alike alike, by rw [alike.limits]; exact mirrors.bears⟩

theorem length_slots (limits : PayloadLimits) (tree : TreeKind) (row : Row (Limb h)) :
    (row.slots limits tree).length = row.cells.length := List.length_map _

theorem count (mirrors : p.Mirrors d tree node) (clear : p.parked = []) :
    p.cellCount = node.row.cells.length :=
  (mirrors.bears.count clear).trans (length_slots _ _ _)

theorem logicalCount (mirrors : p.Mirrors d tree node) : p.logicalCount = node.row.cells.length :=
  mirrors.bears.logicalCount.trans (length_slots _ _ _)

theorem isLeaf (mirrors : p.Mirrors d tree node) : p.isLeaf = decide (h = 0) :=
  (congrArg PageKind.isLeaf mirrors.is.kind).trans (PageKind.isLeaf_at tree h)

theorem child (mirrors : p.Mirrors d tree node) (clear : p.parked = []) {i : Nat} {child : PageNo}
    (run : p.child i = .ok child) :
    i ≤ node.row.cells.length ∧ Limb.page? h (node.row.kid i) = some child := by
  obtain ⟨-, found⟩ := (mirrors.bears.child_ok clear).mp run
  rw [Row.slots_left, List.getElem?_map] at found
  have inside : i ≤ node.row.cells.length := by
    by_contra outside
    rw [List.getElem?_eq_none (by rw [Row.length_kids]; omega)] at found
    cases found
  rw [Row.kids_get inside] at found
  exact ⟨inside, Option.some.inj found⟩

end Page.Mirrors

/-- What is read off a page in memory are the cells of a row, parked ones included. On the page they
may overlap. -/
structure Page.Yields (p : Page) (d : Disk) (tree : TreeKind) (row : Row (Limb h)) : Prop where
  kind : p.kind = .at tree h
  limits : p.limits = d.limits
  reads : p.Reads (row.sheet d.limits tree)

theorem Page.Mirrors.yields {p : Page} {node : Node (Limb h)} (mirrors : p.Mirrors d tree node) :
    p.Yields d tree node.row :=
  ⟨mirrors.is.kind, mirrors.is.limits, mirrors.bears.reads⟩

theorem Page.Yields.cells {p : Page} {row : Row (Limb h)} {cells : List Bytes} (yields : p.Yields d tree row)
    (run : p.logicalCells = .ok cells) : Held d.limits (.at tree h) cells (row.slots d.limits tree) := by
  obtain ⟨others, again, held⟩ := yields.reads.cells
  rw [again] at run
  cases run
  rw [yields.limits, yields.kind] at held
  exact held

theorem Store.loadPage_mirrors {node : Node (Limb h)} {p : Page} (shows_ : s.Shows d)
    (at_ : d.NodeAt tree node) (run : loadPage node.page s = .ok p t) :
    t.Shows d ∧ s.Steady t ∧ p.Mirrors d tree node ∧ p.parked = [] := by
  obtain ⟨showsT, steady, is, clear, bears⟩ := loadPage_ok shows_ at_.page run
  exact ⟨showsT, steady, ⟨is, bears⟩, clear⟩

namespace Siblings

/-- A parent and the child that is to be balanced, which may have parked cells. All other children
are as they stand on the disk. -/
structure Family (d : Disk) (tree : TreeKind) (parent : Page) (index : Nat) (page : Page) (number : Nat)
    (row : Row (Node (Limb h))) : Prop where
  above : parent.Mirrors (h := h + 1) d tree ⟨number, row⟩
  clear : parent.parked = []
  focus : page.Mirrors d tree (row.kid index)
  others : ∀ i, i ≤ row.cells.length → i ≠ index → d.NodeAt tree (row.kid i)
  hangs : ∀ node ∈ row.kids, d.Hangs tree node.row
  items : ∀ item ∈ row.items, d.Carries tree (h + 1) item
  claims : d.Mapped (Row.claims (h := h + 1) number row)

variable {parent page : Page} {index number : Nat} {row : Row (Node (Limb h))}

section Family

variable (family : Family d tree parent index page number row)

include family

theorem sibling_ok {i : Nat} {found : Page} (shows_ : s.Shows d)
    (run : sibling parent index page i s = .ok found t) :
    t.Shows d ∧ s.Steady t ∧ found.Mirrors d tree (row.kid i) ∧ (i = index → found = page) := by
  unfold sibling at run
  obtain ⟨child, isChild, run⟩ := Action.lift_bind_ok.mp run
  obtain ⟨inside, number⟩ := family.above.child family.clear isChild
  by_cases same : i = index
  · rw [if_pos same] at run
    dsimp only at run
    split at run
    · exact absurd run Action.throw_bind_ok
    rw [Action.pure_bind_run] at run
    split at run
    · exact absurd run Action.throw_bind_ok
    obtain ⟨rfl, rfl⟩ := Action.pure_ok.mp run
    exact ⟨shows_, .refl s, same ▸ family.focus, fun _ => rfl⟩
  · rw [if_neg same] at run
    obtain ⟨q, u, got, run⟩ := Action.bind_ok.mp run
    cases Option.some.inj number
    obtain ⟨showsU, steady, mirrors, -⟩ := loadPage_mirrors shows_ (family.others i inside same) got
    dsimp only at run
    split at run
    · exact absurd run Action.throw_bind_ok
    obtain ⟨rfl, rfl⟩ := Action.pure_ok.mp run
    exact ⟨showsU, steady, mirrors, fun again => absurd again same⟩

theorem siblings_ok {count first last : Nat} {olds : List Page} (shows_ : s.Shows d)
    (range : first + count = last + 1) (some_ : 0 < count) (inside : last ≤ row.cells.length)
    (run : siblings parent index page count first s = .ok olds t) :
    t.Shows d ∧ s.Steady t ∧
      List.Forall₂ (fun q node => Page.Mirrors q d tree node) olds (row.window first last).kids ∧
      (first ≤ index → index ≤ last → page ∈ olds) := by
  induction count generalizing first olds s with
  | zero => cases some_
  | succ count ih =>
    unfold siblings at run
    obtain ⟨found, u, got, run⟩ := Action.bind_ok.mp run
    obtain ⟨showsU, steadyU, mirrors, isPage⟩ := sibling_ok family shows_ got
    obtain ⟨rest, v, more, run⟩ := Action.bind_ok.mp run
    obtain ⟨rfl, rfl⟩ := Action.pure_ok.mp run
    cases count with
    | zero =>
      obtain ⟨rfl, rfl⟩ := Action.pure_ok.mp more
      have same : first = last := by omega
      subst same
      rw [Row.window_self]
      exact ⟨showsU, steadyU, .cons mirrors .nil, fun low high =>
        List.mem_cons.mpr (.inl (isPage (Nat.le_antisymm low high)).symm)⟩
    | succ count =>
      obtain ⟨showsV, steadyV, all, among⟩ := ih showsU (by omega) (Nat.succ_pos _) more
      rw [Row.window_step (by omega) (by omega)]
      refine ⟨showsV, steadyU.trans steadyV, .cons mirrors all, fun low high => ?_⟩
      rcases Nat.lt_or_eq_of_le low with less | same
      · exact List.mem_cons_of_mem _ (among less high)
      · exact List.mem_cons.mpr (.inl (isPage same).symm)

end Family

def keeps (tree : TreeKind) (h : Nat) : Bool := PageKind.at tree h != .tableLeaf

theorem lowered_ok {parent left : Page} {i : Nat} {between : List Bytes}
    (above : parent.Mirrors (h := h + 1) d tree ⟨number, row⟩) (clear : parent.parked = [])
    (yields : left.Yields d tree (row.kid i).row)
    (run : lowered d.limits parent i left = .ok between) :
    Held d.limits (.at tree h) between
      (if keeps tree h then [⟨Limb.page? h (row.kid i).row.last, (row.items.getD i default).stub d.limits tree⟩]
        else []) := by
  unfold lowered at run
  obtain ⟨divider, got, run⟩ := Except.bind_ok.mp run
  have inside := above.bears.cell_inside clear got
  obtain ⟨cell, again, holds⟩ := above.bears.cell clear inside
  rw [again] at got
  cases got
  rw [Row.slots_get, above.is.limits] at holds
  have kindAbove : parent.kind = .interior tree := above.is.kind
  rw [kindAbove] at holds
  rw [yields.kind] at run
  cases h with
  | zero =>
    cases tree with
    | table =>
      cases run
      exact .nil
    | index =>
      obtain ⟨lower, made, run⟩ := Except.bind_ok.mp run
      cases run
      exact .cons (Cell.interiorToLeaf_holds holds made) .nil
  | succ h =>
    have lower : (do
        let child ← left.child left.cellCount
        return [← Action.applied (Cell.setLeftChild child) divider]) = Except.ok between := by
      cases tree <;> exact run
    obtain ⟨child, isChild, lower⟩ := Except.bind_ok.mp lower
    obtain ⟨lowered, made, lower⟩ := Except.bind_ok.mp lower
    cases lower
    have right := yields.reads.lastChild isChild
    have small := yields.reads.right_lt right
    have new := (holds.setLeft (by cases tree <;> rfl) small (Action.applied_ok.mp made)).1
    have keep : keeps tree (h + 1) = true := by cases tree <;> rfl
    rw [if_pos keep, show Limb.page? (h + 1) (row.kid i).row.last = some child from right]
    exact .cons new .nil

theorem gather_ok {parent : Page} {first last : Nat} {olds : List Page} {cells : List Bytes}
    (above : parent.Mirrors (h := h + 1) d tree ⟨number, row⟩) (clear : parent.parked = [])
    (range : first + olds.length = last + 1) (inside : last ≤ row.cells.length)
    (yields : List.Forall₂ (fun q node => Page.Yields q d tree node.row) olds (row.window first last).kids)
    (run : gather d.limits parent first olds = .ok cells) :
    Held d.limits (.at tree h) cells
      (((row.window first last).flatten (keeps tree h)).slots d.limits tree) := by
  induction olds generalizing first cells with
  | nil =>
    have length := yields.length_eq
    rw [Row.length_kids] at length
    cases length
  | cons page rest ih =>
    cases rest with
    | nil =>
      have same : first = last := by simpa using range
      subst same
      rw [Row.window_self] at yields ⊢
      obtain _ | ⟨first, -⟩ := yields
      exact first.cells run
    | cons next others =>
      rw [List.length_cons, List.length_cons] at range
      rw [Row.window_step (by omega) inside] at yields ⊢
      rw [Row.kids_prepend] at yields
      obtain _ | ⟨head, tail⟩ := yields
      obtain ⟨mine, gotMine, run⟩ := Except.bind_ok.mp run
      obtain ⟨between, gotBetween, run⟩ := Except.bind_ok.mp run
      obtain ⟨later, gotLater, run⟩ := Except.bind_ok.mp run
      cases run
      have heldRest := ih (by rw [List.length_cons]; omega) tail gotLater
      have heldMine := head.cells gotMine
      have heldBetween := lowered_ok above clear head gotBetween
      have whole := (heldMine.append heldBetween).append heldRest
      unfold Row.prepend
      rw [List.singleton_append, Row.flatten_cons, Row.slots_prepend, List.map_append]
      cases keep : keeps tree h with
      | false =>
        rw [keep] at whole
        exact whole
      | true =>
        rw [keep] at whole
        exact whole

theorem gather_sublist {limits : PayloadLimits} {parent q : Page} {first : Nat} {olds : List Page}
    {cells own : List Bytes} (among : q ∈ olds) (ofPage : q.logicalCells = .ok own)
    (run : gather limits parent first olds = .ok cells) : own.Sublist cells := by
  induction olds generalizing first cells with
  | nil => cases among
  | cons page rest ih =>
    cases rest with
    | nil =>
      rw [List.mem_singleton.mp among] at ofPage
      rw [show page.logicalCells = _ from run] at ofPage
      cases ofPage
      exact .refl _
    | cons next others =>
      obtain ⟨mine, gotMine, run⟩ := Except.bind_ok.mp run
      obtain ⟨between, -, run⟩ := Except.bind_ok.mp run
      obtain ⟨later, gotLater, run⟩ := Except.bind_ok.mp run
      cases run
      rcases List.mem_cons.mp among with rfl | inside
      · rw [gotMine] at ofPage
        cases ofPage
        rw [List.append_assoc]
        exact List.sublist_append_left _ _
      · exact (ih inside gotLater).trans (List.sublist_append_right _ _)

theorem finalChild_ok {first last : Nat} {olds : List Page} {final : Option PageNo}
    (yields : List.Forall₂ (fun q node => Page.Yields q d tree node.row) olds (row.window first last).kids)
    (run : finalChild (.at tree h) olds = .ok final) :
    final = (row.kid last).row.right ∧ final.getD 0 < 4294967296 := by
  unfold finalChild at run
  rw [PageKind.isLeaf_at] at run
  by_cases leaf : h = 0
  · subst leaf
    rw [if_pos (by decide)] at run
    cases run
    exact ⟨rfl, by decide⟩
  rw [if_neg (by simpa using leaf)] at run
  have some_ : olds ≠ [] := by
    rintro rfl
    have length := yields.length_eq
    rw [Row.length_kids] at length
    cases length
  have lastYields : (olds.getLast some_).Yields d tree (row.kid last).row := by
    have reversed := List.forall₂_reverse_iff.mpr yields
    unfold Row.kids at reversed
    rw [List.reverse_append, ← List.dropLast_append_getLast some_, List.reverse_append] at reversed
    obtain _ | ⟨found, -⟩ := reversed
    exact found
  rw [List.getLast?_eq_some_getLast some_] at run
  obtain ⟨child, isChild, run⟩ := Except.bind_ok.mp run
  cases run
  have right := lastYields.reads.lastChild isChild
  exact ⟨right.symm, lastYields.reads.right_lt right⟩

theorem build_blank {number : PageNo} {kind : PageKind} {cells : List Bytes} {child : Option PageNo} {p : Page}
    (shows_ : s.Shows d) (run : build number kind cells child s = .ok p t) :
    t = s ∧ ∃ blank : Page, blank.number = number ∧ blank.geometry = d.geometry number ∧ blank.limits = d.limits ∧
      blank.data.size = blank.geometry.pageSize ∧ Page.rebuild kind cells child blank = .ok () p := by
  unfold build emptyPage at run
  obtain ⟨blank, u, made, run⟩ := Action.bind_ok.mp run
  rw [Action.get_bind] at made
  obtain ⟨emptied, rfl⟩ := Action.lift_ok.mp made
  rw [shows_.geometry, shows_.limits] at emptied
  obtain ⟨filled, rfl⟩ := Action.lift_ok.mp run
  obtain ⟨bears, remade⟩ := Page.empty_bears (shows_.disk_sound.geometry number) emptied
  exact ⟨rfl, blank, remade.alike.number, remade.alike.geometry, remade.alike.limits, bears.sound.2,
    Action.applied_ok.mp filled⟩

theorem build_ok {number : PageNo} {cells : List Bytes} {child : Option PageNo} {p : Page} {row : Row (Limb h)}
    (shows_ : s.Shows d) (held : Held d.limits (.at tree h) cells (row.slots d.limits tree))
    (right : row.right = if h = 0 then none else some (child.getD 0)) (small : child.getD 0 < 4294967296)
    (run : build number (.at tree h) cells child s = .ok p t) :
    t = s ∧ p.Mirrors d tree ⟨number, row⟩ ∧ p.parked = [] ∧ p.fits cells (.at tree h) = true := by
  obtain ⟨rfl, blank, sameNumber, geometry, limits, size, filled⟩ := build_blank shows_ run
  have sound : blank.geometry.Sound := geometry ▸ shows_.disk_sound.geometry number
  obtain ⟨bears, again, fits⟩ := Page.rebuild_bears sound size (limits.symm ▸ held) small filled
  rw [limits] at bears
  refine ⟨rfl, ⟨⟨again.alike.number.trans sameNumber, again.alike.geometry.trans geometry,
    again.alike.limits.trans limits, again.kind⟩, ?_⟩, again.parked, ?_⟩
  · rw [PageKind.isLeaf_at] at bears
    rw [show (⟨number, row⟩ : Node (Limb h)).row.right = _ from right]
    simpa using bears
  · unfold Page.fits Page.usable Page.headerStart at fits ⊢
    rw [again.alike.geometry]
    exact fits

variable {F : Row (Limb h)} {cells : List Bytes}

theorem held_between (held : Held d.limits (.at tree h) cells (F.slots d.limits tree)) (span : Span) (kid : Limb h) :
    Held d.limits (.at tree h) (cellsOf cells span) ((⟨F.between span, kid⟩ : Row (Limb h)).slots d.limits tree) := by
  have part := (held.drop span.start).take span.length
  unfold cellsOf
  unfold Row.slots Row.between at *
  rw [List.map_take, List.map_drop]
  exact part

theorem cellAt_ok {i : Nat} {cell : Bytes} (held : Held d.limits (.at tree h) cells (F.slots d.limits tree))
    (run : cellAt cells i = .ok cell) : Cell.Holds d.limits (.at tree h) cell
      ⟨Limb.page? h (F.kid i), (F.items.getD i default).stub d.limits tree⟩ := by
  unfold cellAt at run
  cases got : cells[i]? with
  | none =>
    rw [got] at run
    cases run
  | some found =>
    rw [got] at run
    cases run
    obtain ⟨inside, rfl⟩ := List.getElem?_eq_some_iff.mp got
    have insideSlots : i < (F.slots d.limits tree).length := held.length ▸ inside
    have holds := held.get inside insideSlots
    rw [Row.slots_get] at holds
    exact holds

theorem rightChild_ok {span : Span} {child : Option PageNo}
    (held : Held d.limits (.at tree h) cells (F.slots d.limits tree))
    (run : rightChild (.at tree h) cells span = .ok child) : child = Limb.page? h (F.kid span.stop) := by
  unfold rightChild at run
  rw [PageKind.isLeaf_at] at run
  by_cases leaf : h = 0
  · subst leaf
    cases run
    rfl
  · rw [if_neg (by simpa using leaf)] at run
    obtain ⟨cell, got, run⟩ := Except.bind_ok.mp run
    obtain ⟨number, isNumber, run⟩ := Except.bind_ok.mp run
    cases run
    have interior : (PageKind.at tree h).isLeaf = false := by
      rw [PageKind.isLeaf_at]
      exact decide_eq_false leaf
    have left := (cellAt_ok held got).left_interior interior
    rw [(Cell.leftChild_ok.mp isNumber).2] at left
    exact left.symm

theorem raised_ok {span : Span} {number : PageNo} {divider : Bytes}
    (held : Held d.limits (.at tree h) cells (F.slots d.limits tree)) (small : number < 4294967296)
    (run : raised d.limits (.at tree h) cells span number = .ok divider) :
    Cell.Holds d.limits (.interior tree) divider
      ⟨some number, (F.divider (keeps tree h) span).stub d.limits tree⟩ := by
  cases h with
  | zero =>
    cases tree with
    | table =>
      obtain ⟨last, got, run⟩ := Except.bind_ok.mp run
      obtain ⟨info, read, run⟩ := Except.bind_ok.mp run
      obtain ⟨cell, made, run⟩ := Except.bind_ok.mp run
      cases run
      have holds := cellAt_ok held got
      obtain ⟨found, reads, slot⟩ := holds
      rw [reads.1] at read
      cases read
      have row : (F.items.getD (span.stop - 1) default).row = info.key := congrArg (fun s => s.stub.row) slot
      have new := Cell.encode_divider small made
      rw [← row] at new
      exact new
    | index =>
      obtain ⟨cell, got, run⟩ := Except.bind_ok.mp run
      exact Cell.leafToInterior_holds (cellAt_ok held got) small run
  | succ h =>
    have lower : (do Action.applied (Cell.setLeftChild number) (← cellAt cells span.stop)) = Except.ok divider := by
      cases tree <;> exact run
    obtain ⟨cell, got, lower⟩ := Except.bind_ok.mp lower
    have keep : keeps tree (h + 1) = true := by cases tree <;> rfl
    have interior : (PageKind.interior tree).isLeaf = false := by cases tree <;> rfl
    unfold Row.divider
    rw [if_pos keep]
    exact ((cellAt_ok held got).setLeft interior small (Action.applied_ok.mp lower)).1

/-- Pages laid out mirror an assembly, and what is to come into the parent are its dividers. -/
structure LaidOut (d : Disk) (tree : TreeKind) (laid : List Laid) (new : Row (Node (Limb h))) : Prop where
  pages : List.Forall₂ (fun l node => Page.Mirrors l.page d tree node ∧ l.page.parked = []) laid new.kids
  dividers : Held d.limits (.interior tree) (laid.filterMap Laid.divider)
    (Row.slots (h := h + 1) d.limits tree new)

theorem layOut_ok {list : List (PageNo × Span)} {laid : List Laid} (shows_ : s.Shows d)
    (held : Held d.limits (.at tree h) cells (F.slots d.limits tree)) (some_ : list ≠ [])
    (small : ∀ entry ∈ list, entry.1 < 4294967296)
    (smallKid : ∀ kid ∈ F.kids, (Limb.page? h kid).getD 0 < 4294967296)
    (run : layOut (.at tree h) cells F.right list s = .ok laid t) :
    t = s ∧ LaidOut d tree laid (F.assemble (keeps tree h) list) ∧
      laid.map (fun l => l.page.number) = list.map Prod.fst := by
  have kidRight : ∀ kid : Limb h, Limb.page? h kid = if h = 0 then none else some ((Limb.page? h kid).getD 0) := by
    intro kid
    cases h <;> rfl
  induction list generalizing laid with
  | nil => exact absurd rfl some_
  | cons first rest ih =>
    obtain ⟨number, span⟩ := first
    cases rest with
    | nil =>
      unfold layOut at run
      obtain ⟨page, u, built, run⟩ := Action.bind_ok.mp run
      obtain ⟨rfl, rfl⟩ := Action.pure_ok.mp run
      obtain ⟨rfl, mirrors, clear, -⟩ := build_ok shows_ (held_between held span F.last) (kidRight F.last)
        (smallKid F.last (List.mem_append_right _ (List.mem_singleton_self _))) built
      exact ⟨rfl, ⟨.cons ⟨mirrors, clear⟩ .nil, .nil⟩, congrArg (fun n => [n]) mirrors.is.number⟩
    | cons next others =>
      unfold layOut at run
      rw [Action.get_bind] at run
      obtain ⟨child, isChild, run⟩ := Action.lift_bind_ok.mp run
      obtain ⟨page, u, built, run⟩ := Action.bind_ok.mp run
      obtain ⟨divider, isDivider, run⟩ := Action.lift_bind_ok.mp run
      obtain ⟨later, v, laidRest, run⟩ := Action.bind_ok.mp run
      obtain ⟨rfl, rfl⟩ := Action.pure_ok.mp run
      have sameChild := rightChild_ok held isChild
      subst sameChild
      obtain ⟨rfl, mirrors, clear, -⟩ := build_ok shows_ (held_between held span (F.kid span.stop))
        (kidRight _) (smallKid _ (F.kid_mem _)) built
      rw [shows_.limits] at isDivider
      have new := raised_ok held (small (number, span) List.mem_cons_self) isDivider
      obtain ⟨rfl, ⟨pages, dividers⟩, numbers⟩ := ih (List.cons_ne_nil _ _)
        (fun entry inside => small entry (List.mem_cons_of_mem _ inside)) laidRest
      refine ⟨rfl, ⟨?_, ?_⟩, congrArg₂ List.cons mirrors.is.number numbers⟩
      · unfold Row.assemble
        rw [Row.kids_prepend]
        exact .cons ⟨mirrors, clear⟩ pages
      · unfold Row.assemble
        exact .cons new dividers

theorem layOut_single {number : PageNo} {span : Span} {laid : List Laid} (shows_ : s.Shows d)
    (held : Held d.limits (.at tree h) cells (F.slots d.limits tree))
    (smallKid : ∀ kid ∈ F.kids, (Limb.page? h kid).getD 0 < 4294967296)
    (run : layOut (.at tree h) cells F.right [(number, span)] s = .ok laid t) :
    ∃ p : Page, p.Of d number (.at tree h) ∧ p.fits (cellsOf cells span) (.at tree h) = true := by
  unfold layOut at run
  obtain ⟨page, u, built, run⟩ := Action.bind_ok.mp run
  have right : (⟨F.between span, F.last⟩ : Row (Limb h)).right =
      if h = 0 then none else some (F.right.getD 0) := by
    cases h <;> rfl
  obtain ⟨-, mirrors, -, fits⟩ := build_ok shows_ (held_between held span F.last) right
    (smallKid F.last (List.mem_append_right _ (List.mem_singleton_self _))) built
  exact ⟨page, mirrors.is, fits⟩

end Siblings

end TreeFile
