import Mathlib.Data.List.Nodup
import TreeFile.Proofs.Balance.Charting
import TreeFile.Proofs.Balance.Parents
import TreeFile.Proofs.Integrity.File
import TreeFile.Proofs.Page.References
import TreeFile.Proofs.Store.CalmRuns

/-!
Balancing keeps the order. Read from left to right, the new pages of a window with the dividers between
them say what the old ones said, whatever hangs below them and whatever the pointer map knows of it.
Of the old pages it is only asked that they can be read.
-/

namespace TreeFile

open Store PointerMap Disk

variable {s t : Store} {d e : Disk} {tree : TreeKind} {h : Nat} {trunks : List Trunk} {olds others : List Nat}

namespace Sheet

/-- What the pages `old` say with the stubs `given` between them is cut anew, into `new` with `dividers`
between them. -/
structure Recut (kind : PageKind) (old : List Sheet) (given : List Stub) (new : List Sheet)
    (dividers : List Stub) : Prop where
  whole : old.length = given.length + 1
  pieces : new.length = dividers.length + 1
  content : join kind new dividers = join kind old given
  repeats : kind = .tableLeaf → ∀ pair ∈ new.zip dividers, ∃ stub ∈ pair.1.stubs.getLast?, pair.2.row = stub.row
  filled : (join kind old given).slots ≠ [] → ∀ sheet ∈ new, sheet.slots ≠ []

/-- The sheet gets other kids from `first` to `last`, with other stubs between them. -/
structure Spliced (sheet after : Sheet) (first last : Nat) (kids : List PageNo) (stubs : List Stub) : Prop where
  stubs : after.stubs = sheet.stubs.take first ++ stubs ++ sheet.stubs.drop last
  kids : after.kids = sheet.kids.take first ++ kids.map some ++ sheet.kids.drop (last + 1)

end Sheet

namespace Row

theorem zip_kids {T α β : Type} (row : Row T) (f : T → α) (g : Item → β) :
    (row.kids.map f).zip (row.items.map g) = row.cells.map fun c => (f c.1, g c.2) := by
  unfold kids items
  rw [List.map_append, ← List.append_nil (List.map g _), List.zip_append (by simp only [List.length_map]),
    List.map_map, List.map_map, List.zip_map', List.zip_nil_right, List.append_nil]
  rfl

theorem sheet_nonempty (limits : PayloadLimits) (tree : TreeKind) (row : Row (Limb h)) :
    (row.sheet limits tree).slots ≠ [] ↔ row.cells ≠ [] := by
  unfold sheet slots
  exact not_congr List.map_eq_nil_iff

theorem recut (limits : PayloadLimits) {window : Row (Node (Limb h))} {list : List (Nat × Span)} {F : Row (Limb h)}
    {given : List Stub} (isGiven : (window.items.map fun item => item.stub limits tree) = given)
    (isF : F = window.flatten (Siblings.keeps tree h))
    (covers : Covers (Siblings.keeps tree h) F.cells.length 0 (list.map Prod.snd))
    (peopled : F.cells ≠ [] → Peopled (list.map Prod.snd)) (single : F.cells = [] → list.length = 1) :
    Sheet.Recut (.at tree h) (window.kids.map fun node => node.row.sheet limits tree) given
      ((F.assemble (Siblings.keeps tree h) list).kids.map fun node => node.row.sheet limits tree)
      ((F.assemble (Siblings.keeps tree h) list).items.map fun item => item.stub limits tree) := by
  subst isGiven
  have content := (sheet_flatten limits tree window).symm
  change _ = (window.flatten (Siblings.keeps tree h)).sheet limits tree at content
  rw [← isF] at content
  refine ⟨?_, ?_, ?_, ?_, ?_⟩
  · rw [List.length_map, List.length_map, length_kids, length_items]
  · rw [List.length_map, List.length_map, length_kids, length_items]
  · rw [content, ← sheet_flatten]
    change ((F.assemble (Siblings.keeps tree h) list).flatten (Siblings.keeps tree h)).sheet limits tree = _
    rw [flatten_assemble covers]
    rfl
  · intro leaf pair member
    have none_ : Siblings.keeps tree h = false := by
      unfold Siblings.keeps
      rw [leaf]
      rfl
    rw [none_] at covers member
    rw [zip_kids] at member
    obtain ⟨c, inside, rfl⟩ := List.mem_map.mp member
    have some_ : F.cells ≠ [] := by
      intro nothing
      obtain ⟨entry, isEntry⟩ := List.length_eq_one_iff.mp (single nothing)
      rw [isEntry] at inside
      cases inside
    obtain ⟨before, item, own, divider⟩ := assemble_dividers covers (peopled some_) c inside
    refine ⟨item.stub limits tree, ?_, ?_⟩
    · rw [stubs_sheet, own, List.map_append, List.map_singleton, List.getLast?_concat]
      rfl
    · obtain ⟨rfl, -⟩ := Siblings.keeps_eq_false.mp none_
      rw [divider]
      rfl
  · rw [content, sheet_nonempty]
    intro some_ sheet member
    obtain ⟨node, inside, rfl⟩ := List.mem_map.mp member
    exact (sheet_nonempty limits tree node.row).mpr (assemble_peopled covers (peopled some_) node inside)

theorem stubs_window (limits : PayloadLimits) (tree : TreeKind) (row : Row (Limb h)) (first last : Nat) :
    ((row.window first last).items.map fun item => item.stub limits tree) =
      ((row.sheet limits tree).stubs.drop first).take (last - first) := by
  rw [items_window, List.map_take, List.map_drop, stubs_sheet]

theorem spliced (limits : PayloadLimits) {row new : Row (Limb h)} {first last : Nat} {numbers : List PageNo}
    (order : first ≤ last) (inside : last ≤ row.cells.length)
    (pages : new.kids.map (Limb.page? h) = numbers.map some) :
    (row.sheet limits tree).Spliced ((row.splice first last new).sheet limits tree) first last numbers
      (new.items.map fun item => item.stub limits tree) := by
  refine ⟨?_, ?_⟩
  · rw [stubs_sheet, stubs_sheet, items_splice, List.map_append, List.map_append, ← List.map_take, ← List.map_drop]
    unfold items drop
    rw [← List.map_take, ← List.map_drop]
  · have before : row.kids.take first = (row.cells.take first).map Prod.fst := by
      unfold kids
      rw [List.take_append_of_le_length (by rw [List.length_map]; omega), List.map_take]
    rw [kids_sheet, kids_sheet, kids_splice, kids_drop inside, List.drop_drop, List.map_append, List.map_append, pages,
      ← List.map_take, ← List.map_drop, before]

end Row

theorem PageKind.exists_at (kind : PageKind) : ∃ tree h, kind = .at tree h := by
  cases kind with
  | tableLeaf => exact ⟨.table, 0, rfl⟩
  | indexLeaf => exact ⟨.index, 0, rfl⟩
  | tableInterior => exact ⟨.table, 1, rfl⟩
  | indexInterior => exact ⟨.index, 1, rfl⟩

namespace Siblings

/-- A parent without parked cells, and the kids from `first` to `last` that are balanced with the one at
`index`. All that is known of them is their numbers. -/
structure WindowParent (d : Disk) (parent : Page) (above : Sheet) (index : Nat) (page : Page) (first last : Nat)
    (olds : List PageNo) : Prop where
  is : parent.Of d parent.number (.interior page.kind.tree)
  bears : parent.Bears above.slots above.right
  clear : parent.parked = []
  begins : first = index - 2
  ends : last = min (index + 2) above.slots.length
  olds : (above.kids.drop first).take (last + 1 - first) = olds.map some

/-- The page of a window that has this number: the one to balance itself, or one that stands on the
disk and can be parsed. -/
def Found (d : Disk) (page : Page) (number : Nat) (p : Page) : Prop :=
  if number = page.number then p = page
  else Page.parse number (d.image number) (d.geometry number) d.limits = .ok p ∧ p.kind = page.kind

section Finding

variable {parent page : Page} {index : Nat} {above : Sheet}

section Parent

variable (bears : parent.Bears above.slots above.right) (clear : parent.parked = [])

include bears clear

theorem sibling_found {i : Nat} {found : Page} (shows_ : s.Shows d)
    (run : sibling parent index page i s = .ok found t) :
    t.Shows d ∧ above.kids[i]? = some (some found.number) ∧ (i = index → found = page) ∧
      (found = page ∨ Page.parse found.number (d.image found.number) (d.geometry found.number) d.limits = .ok found ∧
        found.kind = page.kind) := by
  unfold sibling at run
  obtain ⟨number, isChild, run⟩ := Action.lift_bind_ok.mp run
  have child := ((bears.child_ok clear).mp isChild).2
  change above.kids[i]? = _ at child
  by_cases same : i = index
  · rw [if_pos same] at run
    dsimp only at run
    split at run
    · exact absurd run Action.throw_bind_ok
    rename_i isPage
    rw [Action.pure_bind_run] at run
    split at run
    · exact absurd run Action.throw_bind_ok
    obtain ⟨rfl, rfl⟩ := Action.pure_ok.mp run
    rw [not_not.mp isPage] at child
    exact ⟨shows_, child, fun _ => rfl, .inl rfl⟩
  · rw [if_neg same] at run
    obtain ⟨q, u, got, run⟩ := Action.bind_ok.mp run
    obtain ⟨showsU, -, parsed⟩ := loadPage_parse shows_ got
    have isNumber := loadPage_number got
    dsimp only at run
    split at run
    · exact absurd run Action.throw_bind_ok
    rename_i kind
    obtain ⟨rfl, rfl⟩ := Action.pure_ok.mp run
    rw [isNumber]
    exact ⟨showsU, child, fun again => absurd again same, .inr ⟨parsed, not_not.mp kind⟩⟩

theorem siblings_found {count first : Nat} {pages : List Page} (shows_ : s.Shows d)
    (run : siblings parent index page count first s = .ok pages t) :
    t.Shows d ∧ (above.kids.drop first).take count = (pages.map Page.number).map some ∧
      (first ≤ index → index < first + count → page ∈ pages) ∧
      ∀ p ∈ pages, p = page ∨ Page.parse p.number (d.image p.number) (d.geometry p.number) d.limits = .ok p ∧
        p.kind = page.kind := by
  induction count generalizing first pages s with
  | zero =>
    obtain ⟨rfl, rfl⟩ := Action.pure_ok.mp run
    exact ⟨shows_, rfl, fun low high => absurd high (Nat.not_lt.mpr low), fun p member => absurd member List.not_mem_nil⟩
  | succ count ih =>
    unfold siblings at run
    obtain ⟨found, u, got, run⟩ := Action.bind_ok.mp run
    obtain ⟨showsU, child, isPage, parsed⟩ := sibling_found bears clear shows_ got
    obtain ⟨rest, v, more, run⟩ := Action.bind_ok.mp run
    obtain ⟨rfl, rfl⟩ := Action.pure_ok.mp run
    obtain ⟨showsV, window, among, all⟩ := ih showsU more
    obtain ⟨inside, isKid⟩ := List.getElem?_eq_some_iff.mp child
    refine ⟨showsV, ?_, fun low high => ?_, List.forall_mem_cons.mpr ⟨parsed, all⟩⟩
    · rw [List.drop_eq_getElem_cons inside, List.take_succ_cons, isKid, window]
      rfl
    · rcases Nat.lt_or_eq_of_le low with less | same
      · exact List.mem_cons_of_mem _ (among less (by omega))
      · exact List.mem_cons.mpr (.inl (isPage same).symm)

end Parent

theorem found_of_once {pages : List Page} (once : (pages.map Page.number).Nodup) (among : page ∈ pages)
    (all : ∀ p ∈ pages, p = page ∨ Page.parse p.number (d.image p.number) (d.geometry p.number) d.limits = .ok p ∧
      p.kind = page.kind) : ∀ p ∈ pages, Found d page p.number p := by
  intro p member
  unfold Found
  by_cases same : p.number = page.number
  · rw [if_pos same]
    exact List.inj_on_of_nodup_map once member among same
  · rw [if_neg same]
    exact (all p member).resolve_left fun isPage => same (congrArg Page.number isPage)

theorem Found.yields {own : Sheet} {p : Page} {number : Nat} (sound : d.Sound) (found : Found d page number p)
    (kind : page.kind = .at tree h) (limits : page.limits = d.limits) (reads : page.Reads own) :
    ∃ row : Row (Limb h), p.Yields d tree row := by
  obtain ⟨kindP, limitsP, sheet, readsP⟩ : p.kind = .at tree h ∧ p.limits = d.limits ∧ ∃ sheet, p.Reads sheet := by
    unfold Found at found
    split at found
    · rw [found]
      exact ⟨kind, limits, own, reads⟩
    · obtain ⟨run, sameKind⟩ := found
      exact ⟨sameKind.trans kind, (Page.of_of_parse run).limits, Page.reads_of_parse sound run⟩
  obtain ⟨cells, -, held⟩ := readsP.cells
  rw [limitsP, kindP] at held
  obtain ⟨row, isSheet, -⟩ := Sheet.exists_row sound.fair held (Sheet.page_bare (readsP.kids_isSome kindP))
  exact ⟨row, kindP, limitsP, isSheet ▸ readsP⟩

theorem found_nodes {own : Sheet} {pages : List Page} (sound : d.Sound) (kind : page.kind = .at tree h)
    (limits : page.limits = d.limits) (reads : page.Reads own) (all : ∀ p ∈ pages, Found d page p.number p) :
    ∃ nodes : List (Node (Limb h)), nodes.map Node.page = pages.map Page.number ∧
      List.Forall₂ (fun p node => Page.Yields p d tree node.row) pages nodes ∧
      List.Forall₂ (fun number sheet => ∃ p, Found d page number p ∧ p.Reads sheet) (pages.map Page.number)
        (nodes.map fun node => node.row.sheet d.limits tree) := by
  induction pages with
  | nil => exact ⟨[], rfl, .nil, .nil⟩
  | cons p rest ih =>
    obtain ⟨found, allRest⟩ := List.forall_mem_cons.mp all
    obtain ⟨row, yields⟩ := found.yields sound kind limits reads
    obtain ⟨nodes, numbers, yieldsRest, foundRest⟩ := ih allRest
    refine ⟨⟨p.number, row⟩ :: nodes, ?_, .cons yields yieldsRest, .cons ⟨p, found, yields.reads⟩ foundRest⟩
    rw [List.map_cons, List.map_cons, numbers]

theorem WindowParent.kind {first last : Nat} (isParent : WindowParent d parent above index page first last olds)
    (kind : page.kind = .at tree h) : parent.kind = .at tree (h + 1) := by
  rw [isParent.is.kind, kind, PageKind.tree_at]
  rfl

theorem WindowParent.rows {own : Sheet} {first last : Nat} {pages : List Page} (shows_ : s.Shows d)
    (isParent : WindowParent d parent above index page first last olds) (kind : page.kind = .at tree h)
    (limits : page.limits = d.limits) (reads : page.Reads own) (once : olds.Nodup) (inside : index ≤ above.slots.length)
    (read : siblings parent index page (last + 1 - first) first s = .ok pages t) :
    t.Shows d ∧ pages.map Page.number = olds ∧ ∃ row : Row (Limb (h + 1)), row.sheet d.limits tree = above ∧
      List.Forall₂ (fun p (node : Node (Limb h)) => Page.Yields p d tree node.row) pages (row.window first last).kids ∧
      List.Forall₂ (fun number sheet => ∃ p, Found d page number p ∧ p.Reads sheet) olds
        ((row.window first last).kids.map fun node : Node (Limb h) => node.row.sheet d.limits tree) := by
  obtain ⟨is, bears, clear, isFirst, isLast, isOlds⟩ := isParent
  have sound := shows_.disk_sound
  obtain ⟨showsT, isWindow, among, all⟩ := siblings_found bears clear shows_ read
  have oldNumbers : pages.map Page.number = olds :=
    (List.map_inj_right fun _ _ => Option.some.inj).mp (isWindow.symm.trans isOlds)
  obtain ⟨nodes, nodePages, yields, old⟩ := found_nodes sound kind limits reads
    (found_of_once (oldNumbers ▸ once) (among (by omega) (by omega)) all)
  rw [oldNumbers] at nodePages old
  have kindAbove := WindowParent.kind ⟨is, bears, clear, isFirst, isLast, isOlds⟩ kind
  have readsAbove : parent.Reads above := bears.reads
  obtain ⟨placed, -, heldAbove⟩ := readsAbove.cells
  rw [is.limits, kindAbove] at heldAbove
  have kidsLength := above.length_kids
  have nodesAbove : (above.kids.drop first).take (last + 1 - first) = nodes.map (Limb.page? (h + 1)) := by
    rw [isOlds, ← nodePages, List.map_map]
    rfl
  obtain ⟨row, isAbove, rowKids⟩ := Sheet.exists_window (h := h + 1) sound.fair heldAbove
    (readsAbove.kids_isSome kindAbove) nodesAbove (by omega)
  have length : above.slots.length = row.cells.length := by
    rw [← isAbove]
    exact Page.Mirrors.length_slots _ _ row
  have isNodes : (row.window first last).kids = nodes := (Row.kids_window (by omega) (by omega)).trans rowKids
  refine ⟨showsT, oldNumbers, row, isAbove, ?_, ?_⟩
  · rw [isNodes]
    exact yields
  · rw [isNodes]
    exact old

end Finding

theorem small_kids_of_held {F : Row (Limb h)} {limits : PayloadLimits} {cells : List Bytes}
    (held : Held limits (.at tree h) cells (F.slots limits tree)) (right : F.right.getD 0 < 4294967296) :
    ∀ kid ∈ F.kids, (Limb.page? h kid).getD 0 < 4294967296 := by
  intro kid member
  have among := List.mem_map_of_mem (f := Limb.page? h) member
  rw [← F.slots_left limits] at among
  rcases List.mem_append.mp among with left | last
  · obtain ⟨slot, inside, isLeft⟩ := List.mem_map.mp left
    obtain ⟨i, low, rfl⟩ := List.mem_iff_getElem.mp inside
    have holds := held.get (held.length.symm ▸ low) low
    rw [← isLeft]
    cases leaf : (PageKind.at tree h).isLeaf with
    | true =>
      rw [holds.left_leaf leaf]
      decide
    | false =>
      rw [holds.left_interior leaf]
      exact Bytes.at32_lt _ _
  · rw [List.mem_singleton.mp last]
    exact right

theorem relay_ok {found : List PageNo} {F : Row (Limb h)} {cells : List Bytes} {spans : List Span}
    {laid : List Laid} {parent : PageNo} {u v w : Store} (shows_ : s.Shows d)
    (listing : d.Listing trunks (olds ++ others)) (held : Held d.limits (.at tree h) cells (F.slots d.limits tree))
    (right : F.right.getD 0 < 4294967296) (covers : Covers (keeps tree h) F.cells.length 0 spans)
    (chosen : numbers olds spans.length s = .ok found u)
    (made : layOut (.at tree h) cells F.right (found.zip spans) u = .ok laid v)
    (written : (laid.forM fun l => writeLaid parent l.page) v = .ok () w)
    (freed : (olds.filter fun number => !found.contains number).forM Freelist.free w = .ok () t) :
    ∃ e more, t.Shows e ∧ Keeps d e (Freelist.Others others) (fun _ => True) ∧ e.Listing more (found ++ others) ∧
      (∀ n ∈ olds, n ∉ found → n ∈ Trunk.allPages more) ∧ (found.zip spans).map Prod.snd = spans ∧
      (F.assemble (keeps tree h) (found.zip spans)).kids.map Node.page = found ∧
      Held d.limits (.interior tree) (laid.filterMap Laid.divider)
        (Row.slots (h := h + 1) d.limits tree (F.assemble (keeps tree h) (found.zip spans))) ∧
      ∀ node ∈ (F.assemble (keeps tree h) (found.zip spans)).kids,
        e.PageAt node.page (.at tree h) (node.row.slots d.limits tree) node.row.right := by
  obtain ⟨d1, fewer, shows1, -, keeps1, listing1, -, -, length⟩ := numbers_listing shows_ listing chosen
  obtain ⟨zipSpans, zipSome, pages⟩ := Row.assemble_zip covers length
  obtain ⟨onceFound, -, apart⟩ := List.nodup_append.mp listing1.once
  obtain ⟨new, isNew⟩ : ∃ new, new = F.assemble (keeps tree h) (found.zip spans) := ⟨_, rfl⟩
  rw [← keeps1.alike.limits] at held
  obtain ⟨rfl, laidOut, -⟩ := layOut_ok shows1 held zipSome
    (fun entry inside =>
      shows1.disk_sound.has_lt (listing1.has_owned (List.mem_append_left _ (List.of_mem_zip inside).1)).1)
    (small_kids_of_held held right) made
  rw [← isNew] at laidOut pages ⊢
  obtain ⟨d2, shows2, -, quiet2, at2⟩ := writeAll_ok shows1 (laidOut.pages.imp fun _ _ both => both.1)
    (pages ▸ onceFound) (fun node member => listing1.has_owned (List.mem_append_left _
      (pages ▸ List.mem_map_of_mem member))) written
  rw [pages] at quiet2
  have listing2 := (listing1.of_quiet shows1.disk_sound shows2.disk_sound quiet2
    fun n => List.mem_append_left _).perm (List.perm_append_comm_assoc _ _ _)
  obtain ⟨d3, more, shows3, -, keeps3, listing3, perm3, -⟩ := freeAll_listing _ shows2 listing2 freed
  refine ⟨d3, more, shows3, ?_, listing3, fun n old left => ?_, zipSpans, pages, ?_, fun node member => ?_⟩
  · refine (keeps1.mono ?_ fun _ => False.elim).trans ((quiet2.toKeeps.mono ?_ fun _ => id).trans
      (keeps3.mono ?_ fun _ => id))
    · exact fun n away own => away (List.mem_append_right _ own)
    · exact fun n inside own => apart n inside n (List.mem_append_right _ own) rfl
    · exact fun n away own => away (List.mem_append_right _ own)
  · refine perm3.mem_iff.mp (List.mem_append_left _ (List.mem_filter.mpr ⟨old, ?_⟩))
    simpa using left
  · rw [← keeps1.alike.limits]
    exact laidOut.dividers
  · rw [← keeps1.alike.limits]
    have among : node.page ∈ found := pages ▸ List.mem_map_of_mem member
    obtain ⟨has, free⟩ := listing3.has_owned (List.mem_append_left others among)
    exact (at2 node member).of_same keeps3.alike shows2.disk_sound shows3.disk_sound has
      (keeps3.images _ ((keeps3.alike.isReserved _).symm.trans free) fun away => away (List.mem_append_left _ among))

/-- The kids of a parent from `first` to `last` are replaced by new ones, which say the same. -/
structure Rearranged (d e : Disk) (page : Page) (above after : Sheet) (first last : Nat)
    (olds numbers others : List PageNo) (old new : List Sheet) (dividers : List Stub) : Prop where
  reads : List.Forall₂ (fun number sheet => ∃ p, Found d page number p ∧ p.Reads sheet) olds old
  stand : List.Forall₂ (fun number (sheet : Sheet) => e.PageAt number page.kind sheet.slots sheet.right) numbers new
  recut : Sheet.Recut page.kind old ((above.stubs.drop first).take (last - first)) new dividers
  spliced : above.Spliced after first last numbers dividers
  freed : ∃ more, e.Listing more (numbers ++ others) ∧ ∀ n ∈ olds, n ∉ numbers → n ∈ Trunk.allPages more
  others : Keeps d e (Freelist.Others others) (fun _ => True)

/-- Balancing keeps what is read off a window, also over a file that may refuse calls. The parent may have
to park some of its new dividers. -/
theorem balance_keeps_order {parent page q : Page} {index first last : Nat} {above own : Sheet}
    (shows_ : s.calm.Shows d) (isParent : WindowParent d parent above index page first last olds)
    (limits : page.limits = d.limits) (reads : page.Reads own) (listing : d.Listing trunks (olds ++ others))
    (run : balance parent index page s = .ok q t) :
    ∃ e after numbers old new dividers, t.calm.Shows e ∧ q.Bears after.slots after.right ∧ Page.Alike parent q ∧
      q.kind = parent.kind ∧ Rearranged d e page above after first last olds numbers others old new dividers := by
  replace run := Calms.run run
  obtain ⟨indexInside, pages, cells, final, spans, found, laid, r, u₁, u₂, u₃, u₄, u₅, read, gathered, isFinal,
    distributed, chosen, made, written, freed, reseated, inserted⟩ := balance_parts shows_.limits run
  obtain ⟨tree, h, kind⟩ := page.kind.exists_at
  rw [isParent.bears.count isParent.clear] at indexInside read
  rw [← isParent.begins] at read gathered reseated inserted
  rw [← isParent.ends] at read
  obtain ⟨shows1, oldNumbers, row, rfl, yields, old⟩ := isParent.rows shows_ kind limits reads
    (List.nodup_append.mp listing.once).1 indexInside read
  have kindAbove := isParent.kind kind
  obtain ⟨is, bears, clear, isFirst, isLast, -⟩ := isParent
  rw [oldNumbers] at chosen freed
  rw [kind] at isFinal distributed made inserted
  have length : ((row.sheet d.limits tree).slots).length = row.cells.length := Page.Mirrors.length_slots _ _ row
  rw [length] at isLast indexInside
  have order : first ≤ last := by omega
  have inside : last ≤ row.cells.length := by omega
  obtain ⟨F, isF⟩ : ∃ F, F = Row.flatten (keeps tree h) (row.window first last) := ⟨_, rfl⟩
  have mirrors : parent.Mirrors (h := h + 1) d tree ⟨parent.number, row⟩ :=
    ⟨⟨is.number, is.geometry, is.limits, kindAbove⟩, bears⟩
  obtain ⟨oldsLength, held, ⟨sameFinal, small⟩, covers, peopled, single⟩ := spread_ok mirrors clear order
    inside yields gathered isFinal distributed isF
  subst sameFinal
  obtain ⟨e3, more, shows3, keeps3, listing3, left, zipSpans, newPages, dividers, pageAt⟩ := relay_ok shows1 listing
    held small covers chosen made written freed
  obtain ⟨new, isNew⟩ : ∃ new, new = F.assemble (keeps tree h) (found.zip spans) := ⟨_, rfl⟩
  rw [← isNew] at newPages dividers pageAt
  have cutList : Covers (keeps tree h) F.cells.length 0 ((found.zip spans).map Prod.snd) := zipSpans.symm ▸ covers
  have recut := Row.recut d.limits (Row.stubs_window (h := h + 1) d.limits tree row first last) isF cutList
    (fun some_ => zipSpans.symm ▸ peopled some_) fun none_ => by
      rw [← single none_, ← congrArg List.length zipSpans, List.length_map]
  rw [← isNew] at recut
  have lastNumber : found.getLastD 0 = new.last.page := by
    rw [← newPages]
    unfold Row.kids
    rw [List.map_append, List.map_singleton, List.getLastD_concat]
  rw [lastNumber, oldsLength, Nat.add_sub_cancel] at reseated
  have smallLast : new.last.page < 4294967296 := by
    refine shows3.disk_sound.has_lt (listing3.has_owned (List.mem_append_left _ ?_)).1
    rw [← newPages]
    exact List.mem_map_of_mem (List.mem_append_right _ (List.mem_singleton_self _))
  rw [PageKind.tree_at] at inserted
  obtain ⟨bearsQ, alikeQ, kindQ, -⟩ := reparent_bears (h := h + 1) bears clear is.limits kindAbove order inside rfl
    smallLast dividers reseated inserted
  obtain ⟨e, showsT, -, quiet⟩ := Charts.quiet shows3 inserted
  refine ⟨e, (row.splice first last new).sheet d.limits tree, found, _, new.kids.map fun node =>
    node.row.sheet d.limits tree, new.items.map fun item => item.stub d.limits tree, showsT, bearsQ, alikeQ, kindQ,
    ⟨old, ?_, ?_, ?_, ⟨more, ?_, left⟩, ?_⟩⟩
  · rw [kind, ← newPages, List.forall₂_map_left_iff, List.forall₂_map_right_iff, List.forall₂_same]
    intro node member
    obtain ⟨has, free⟩ := listing3.has_owned (List.mem_append_left others (newPages ▸ List.mem_map_of_mem member))
    have stays : e.Has node.page := ⟨has.1, by rw [quiet.count]; exact has.2⟩
    exact (pageAt node member).of_same quiet.alike shows3.disk_sound showsT.disk_sound stays (quiet.images _ free id)
  · rw [kind]
    exact recut
  · refine Row.spliced (h := h + 1) d.limits order inside ?_
    rw [← newPages, List.map_map]
    rfl
  · exact listing3.of_quiet shows3.disk_sound showsT.disk_sound quiet fun n => False.elim
  · exact keeps3.trans (quiet.toKeeps.mono (fun n => False.elim) fun _ => id)

theorem dropDividers_runs {p : Page} {slots : List Slot} {right : Option PageNo} {first : Nat} (count : Nat)
    (bears : p.Bears slots right) (clear : p.parked = []) (inside : first + count ≤ slots.length) :
    Action.Runs (dropDividers first count) p := by
  induction count generalizing p slots with
  | zero => exact .pure ()
  | succ count ih =>
    obtain ⟨placed, blocks, tidy, held⟩ := bears.placed clear
    have low : first < placed.length := by
      have length := held.length
      rw [List.length_map] at length
      omega
    refine (Page.drop_runs tidy low).bind fun _ q dropped => ?_
    obtain ⟨lowSlots, bearsQ, -, -, clearQ⟩ := Page.drop_bears bears clear dropped
    refine ih bearsQ clearQ ?_
    rw [List.length_eraseIdx_of_lt lowSlots]
    omega

theorem frees_run {pages : List PageNo} (shows_ : s.Shows d) (listing : d.Listing trunks (pages ++ others))
    (low : ∀ n ∈ pages, n ≠ 1) : Action.Runs (pages.forM Freelist.free) s := by
  induction pages generalizing s d trunks with
  | nil => exact ⟨_, s, rfl⟩
  | cons page rest ih =>
    obtain ⟨lowPage, lowRest⟩ := List.forall_mem_cons.mp low
    obtain ⟨e, t, more, run, showsT, -, -, listingE, -⟩ := Freelist.free_listing shows_ listing lowPage
    exact .after run (ih showsT listingE lowRest)

/-- Leaves of a table can be merged if they are the last ones below their parent and their cells have room on one
page. -/
theorem merge_runs {parent page head : Page} {rest : List Page} {slots : List Slot} {right : Option PageNo}
    {row : Row (Limb 0)} {cells : List Bytes} (index : Nat) (shows_ : s.Shows d)
    (kind : page.kind = .tableLeaf) (kindParent : parent.kind = .tableInterior) (bears : parent.Bears slots right)
    (clear : parent.parked = []) (small : parent.number < 4294967296) (inside : index ≤ slots.length)
    (last : slots.length = index - 2 + rest.length)
    (read : siblings parent index page (min (index + 2) slots.length + 1 - (index - 2)) (index - 2) s =
      .ok (head :: rest) t) (showsT : t.Shows d)
    (gathered : gather d.limits parent (index - 2) (head :: rest) = .ok cells)
    (held : Held d.limits .tableLeaf cells (row.slots d.limits .table)) (plain : row.near = [])
    (single : distribute (cells.map fun cell => cell.size + pointerSize)
      (d.limits.usableSize - PageKind.tableLeaf.headerSize) false = .ok [⟨0, cells.length⟩])
    (fits : (Page.blank head.number .tableLeaf (d.geometry head.number) d.limits).fits cells .tableLeaf = true)
    (listing : d.Listing trunks (rest.map Page.number ++ (head.number :: others)))
    (low : ∀ p ∈ head :: rest, p.number ≠ 1) : Action.Runs (balance parent index page) s := by
  have count : parent.cellCount = slots.length := bears.count clear
  have sound := shows_.disk_sound
  obtain ⟨lowHead, lowRest⟩ := List.forall_mem_cons.mp low
  have described : d.Described head.number := by
    obtain ⟨has, free⟩ := listing.has_owned (List.mem_append_right _ List.mem_cons_self)
    exact ⟨Nat.lt_of_le_of_ne has.1 lowHead.symm, has, free⟩
  have chosen : numbers (head.number :: rest.map Page.number) 1 t = .ok [head.number] t := by
    refine Action.bind_ok.mpr ⟨[], t, rfl, ?_⟩
    rw [List.take_succ_cons, List.take_zero, List.append_nil, List.mergeSort_singleton]
    rfl
  obtain ⟨blank, isBlank, -⟩ := Page.empty_run head.number .tableLeaf d.limits (sound.geometry head.number)
  obtain ⟨bearsBlank, remade⟩ := Page.empty_bears (sound.geometry head.number) isBlank
  have fitsBlank : blank.fits cells .tableLeaf = true := by
    rw [← fits]
    unfold Page.fits Page.usable Page.headerStart
    rw [remade.alike.geometry]
  obtain ⟨⟨⟩, p, filled⟩ := Page.rebuild_runs none bearsBlank.sound.1 bearsBlank.sound.2 fitsBlank
  have built : build head.number .tableLeaf cells none t = .ok p t := by
    unfold build emptyPage
    refine Action.bind_ok.mpr ⟨blank, t, ?_, Action.lift_ok.mpr ⟨Action.applied_ok.mpr filled, rfl⟩⟩
    rw [Action.get_bind, showsT.geometry, showsT.limits]
    exact Action.lift_ok.mpr ⟨isBlank, rfl⟩
  have heldAt : Held d.limits (.at .table 0) cells (row.slots d.limits .table) := held
  obtain ⟨-, mirrors, clearP, -⟩ := build_ok showsT heldAt rfl (by decide) built
  obtain ⟨e, u, written, showsU, -, quiet, -⟩ := writeLaid_run showsT mirrors clearP (by
    rw [plain]
    intro n same
    rw [List.mem_singleton.mp same]
    exact ⟨described, lowHead⟩) (by
    rw [plain]
    exact List.nodup_singleton _) small
  have laid : layOut .tableLeaf cells none [(head.number, ⟨0, cells.length⟩)] t = .ok [⟨p, none⟩] t := by
    refine Action.bind_ok.mpr ⟨p, t, ?_, rfl⟩
    unfold cellsOf Span.length
    rw [List.drop_zero, Nat.sub_zero, List.take_length]
    exact built
  have forAll : ([⟨p, none⟩] : List Laid).forM (fun l => writeLaid parent.number l.page) t = .ok () u :=
    Action.bind_ok.mpr ⟨(), u, written, rfl⟩
  have listingU : e.Listing trunks (rest.map Page.number ++ (head.number :: others)) :=
    listing.of_quiet sound showsU.disk_sound quiet fun n same =>
      same ▸ List.mem_append_right _ List.mem_cons_self
  have others_ : ((head :: rest).map Page.number).filter (fun n => !([head.number].contains n)) =
      rest.map Page.number := by
    rw [List.map_cons, List.filter_cons_of_neg (by simp)]
    refine List.filter_eq_self.mpr fun n member => ?_
    have other : n ≠ head.number := (List.nodup_append.mp listing.once).2.2 n member _ List.mem_cons_self
    simpa using other
  have interior : parent.isLeaf = false := by
    unfold Page.isLeaf
    rw [kindParent]
    rfl
  obtain ⟨⟨⟩, q, dropped⟩ := dropDividers_runs rest.length bears clear (Nat.le_of_eq last.symm)
  obtain ⟨bearsQ, alikeQ, kindQ, clearQ⟩ := dropDividers_ok bears clear dropped
  have interiorQ : q.isLeaf = false := by
    unfold Page.isLeaf
    rw [kindQ]
    exact interior
  have countQ : q.cellCount = index - 2 := by
    rw [bearsQ.count clearQ, ← last, List.drop_length, List.append_nil, List.length_take]
    omega
  obtain ⟨⟨⟩, r, reseated⟩ := bearsQ.setRightChild_runs interiorQ head.number
  have reseat : Action.applied (do
      dropDividers (index - 2) rest.length
      Page.setChild (index - 2) head.number) parent = .ok r := by
    refine Action.applied_ok.mpr ((Action.bind_of_ok dropped).trans ?_)
    unfold Page.setChild
    rw [Action.get_bind, interiorQ, countQ, if_neg (by decide)]
    dsimp only
    rw [if_neg (Nat.lt_irrefl _), if_pos rfl]
    exact reseated
  have unparked : parent.hasParked = false := by
    unfold Page.hasParked
    rw [clear]
    rfl
  unfold balance
  refine .get ?_
  rw [count, kind, shows_.limits, unparked, if_neg (by simpa using inside)]
  refine .after read (.lift gathered (.lift rfl (.lift single (.after chosen (.after laid (.after forAll ?_))))))
  rw [List.map_cons] at others_ ⊢
  rw [others_]
  refine (frees_run showsU listingU fun n member => ?_).bind fun _ v _ => ?_
  · obtain ⟨p, inside, rfl⟩ := List.mem_map.mp member
    exact lowRest p inside
  · exact .lift reseat (.pure r)

open Integrity (planted planted_shows)

/-- The two leaves of `planted` and the page above them. -/
theorem planted_pages : ∃ parent page other : Page,
    Page.parse 2 (planted.disk.image 2) (planted.disk.geometry 2) planted.disk.limits = .ok parent ∧
    Page.parse 3 (planted.disk.image 3) (planted.disk.geometry 3) planted.disk.limits = .ok page ∧
    Page.parse 4 (planted.disk.image 4) (planted.disk.geometry 4) planted.disk.limits = .ok other ∧
    gather planted.disk.limits parent 0 [page, other] = .ok [⟨#[2, 1, 65, 65]⟩, ⟨#[2, 2, 66, 66]⟩] ∧
    parent.child 0 = .ok 3 ∧ parent.child 1 = .ok 4 ∧ Integrity.layoutFault parent = .ok () ∧
    parent.kind = .tableInterior ∧ parent.cellCount = 1 ∧ page.kind = .tableLeaf ∧ other.kind = .tableLeaf := by
  have shown : (Page.parse 2 (planted.disk.image 2) (planted.disk.geometry 2) planted.disk.limits >>= fun parent =>
      Page.parse 3 (planted.disk.image 3) (planted.disk.geometry 3) planted.disk.limits >>= fun page =>
      Page.parse 4 (planted.disk.image 4) (planted.disk.geometry 4) planted.disk.limits >>= fun other =>
      gather planted.disk.limits parent 0 [page, other] >>= fun cells =>
      parent.child 0 >>= fun left => parent.child 1 >>= fun right =>
        .ok ((cells, left, right, (Integrity.layoutFault parent).toBool),
          (parent.kind, parent.cellCount, page.kind, other.kind))) =
      .ok (([⟨#[2, 1, 65, 65]⟩, ⟨#[2, 2, 66, 66]⟩], 3, 4, true), (.tableInterior, 1, .tableLeaf, .tableLeaf)) := by
    decide +kernel
  obtain ⟨parent, isParent, shown⟩ := Except.bind_ok.mp shown
  obtain ⟨page, isPage, shown⟩ := Except.bind_ok.mp shown
  obtain ⟨other, isOther, shown⟩ := Except.bind_ok.mp shown
  obtain ⟨cells, gathered, shown⟩ := Except.bind_ok.mp shown
  obtain ⟨left, isLeft, shown⟩ := Except.bind_ok.mp shown
  obtain ⟨right, isRight, shown⟩ := Except.bind_ok.mp shown
  simp only [Except.ok.injEq, Prod.mk.injEq] at shown
  obtain ⟨⟨rfl, rfl, rfl, sound⟩, kinds⟩ := shown
  cases layout : Integrity.layoutFault parent with
  | error e =>
    rw [layout] at sound
    cases sound
  | ok _ => exact ⟨parent, page, other, isParent, isPage, isOther, gathered, isLeft, isRight, layout, kinds⟩

theorem planted_ledger : planted.disk.Ledger [] ([4] ++ [3, 1, 2]) :=
  unsaved_ledger (by decide) (by decide) (by decide) (by decide +kernel) (by decide +kernel) trivial

/-- Two leaves with a row each become one, and the page above them is left without a cell. -/
theorem balance_keeps_order_planted : ∃ (parent page q : Page) (above own : Sheet) (t : Store),
    planted.calm.Shows planted.disk ∧ WindowParent planted.disk parent above 0 page 0 1 [3, 4] ∧
    page.limits = planted.disk.limits ∧ page.Reads own ∧
    planted.disk.Listing [] ([3, 4] ++ [1, 2]) ∧ balance parent 0 page planted = .ok q t ∧
    ∃ e after numbers old new dividers, t.calm.Shows e ∧ q.Bears after.slots after.right ∧ Page.Alike parent q ∧
      q.kind = parent.kind ∧
      Rearranged planted.disk e page above after 0 1 [3, 4] numbers [1, 2] old new dividers := by
  obtain ⟨parent, page, other, isParent, isPage, isOther, gathered, left, right, layout, kindParent, count, kind,
    kindOther⟩ := planted_pages
  have sound := planted_shows.disk_sound
  have clear := Page.clear_of_parse isParent
  obtain ⟨slots, bears⟩ := Page.bears_of_layout isParent sound layout
  obtain ⟨own, reads⟩ := Page.reads_of_parse sound isPage
  have number : page.number = 3 := (Page.parse_ok isPage).1
  have numberOther : other.number = 4 := (Page.parse_ok isOther).1
  have numberParent : parent.number = 2 := (Page.parse_ok isParent).1
  have length : slots.length = 1 := (bears.count clear).symm.trans count
  have window : WindowParent planted.disk parent ⟨slots, parent.header.rightChild⟩ 0 page 0 1 [3, 4] := by
    have first := ((bears.child_ok clear).mp left).2
    have second := ((bears.child_ok clear).mp right).2
    refine ⟨?_, bears, clear, rfl, by rw [length]; rfl, ?_⟩
    · rw [kind, numberParent]
      have is := Page.of_of_parse isParent
      rw [kindParent] at is
      exact is
    · match slots, length with
      | [slot], _ =>
        have first : some (slot.left) = some (some 3) := first
        have second : some (parent.header.rightChild) = some (some 4) := second
        rw [Option.some.inj second]
        exact congrArg (· :: [some 4]) (Option.some.inj first)
  have listing : planted.disk.Listing [] ([4] ++ [3, 1, 2]) := planted_ledger.listing
  obtain ⟨t, loaded, showsT, -⟩ := Store.loadPage_parses planted_shows
    (listing.has_owned (List.mem_append_left _ (List.mem_singleton_self 4))).1
  have loaded : loadPage 4 planted = .ok other t := loaded.trans (by rw [isOther]; rfl)
  have read : siblings parent 0 page 2 0 planted = .ok [page, other] t := by
    have own : sibling parent 0 page 0 planted = .ok page planted := by
      unfold sibling
      rw [left, Action.lift_ok_bind, if_pos rfl, number, if_neg (not_not.mpr rfl)]
      dsimp only
      rw [Action.pure_bind_run, if_neg (not_not.mpr rfl)]
      exact Action.pure_run page planted
    have next : sibling parent 0 page 1 planted = .ok other t := by
      unfold sibling
      rw [right, Action.lift_ok_bind, if_neg (by decide), Action.bind_of_ok loaded]
      dsimp only
      rw [kindOther, kind, if_neg (not_not.mpr rfl)]
      exact Action.pure_run other t
    exact Action.bind_ok.mpr ⟨page, planted, own, Action.bind_ok.mpr
      ⟨[other], t, Action.bind_ok.mpr ⟨other, t, next, Action.pure_run _ _⟩, Action.pure_run _ _⟩⟩
  have held : Held planted.disk.limits .tableLeaf [⟨#[2, 1, 65, 65]⟩, ⟨#[2, 2, 66, 66]⟩]
      (Row.slots (h := 0) planted.disk.limits .table
        ⟨[((), ⟨1, ⟨#[65, 65]⟩, [], false⟩), ((), ⟨2, ⟨#[66, 66]⟩, [], false⟩)], ()⟩) := by
    unfold Held
    decide +kernel
  have among : planted.disk.Listing [] ([other].map Page.number ++ page.number :: [1, 2]) := by
    rw [List.map_singleton, number, numberOther]
    exact listing
  obtain ⟨q, u, run⟩ := merge_runs 0 planted_shows kind kindParent bears clear (numberParent ▸ by decide)
    (Nat.zero_le _) (by rw [length]; rfl) (by rw [length]; exact read) showsT gathered held rfl (by decide +kernel)
    (number ▸ by decide +kernel) among (by simp [number, numberOther])
  have calmed : planted.calm.Shows planted.disk := by
    rw [calm_self (show planted.pager.file.refusal = none from rfl)]
    exact planted_shows
  have listing : planted.disk.Listing [] ([3, 4] ++ [1, 2]) := listing.perm (by decide)
  have limits : page.limits = planted.disk.limits := (Page.of_of_parse isPage).limits
  exact ⟨parent, page, q, _, own, u, calmed, window, limits, reads, listing, run,
    balance_keeps_order calmed window limits reads listing run⟩

end Siblings

end TreeFile
