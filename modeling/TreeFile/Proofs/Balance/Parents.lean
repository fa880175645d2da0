import TreeFile.Proofs.Balance.Siblings

/-!
What balancing does to a parent: one that is changed in memory, of which all kids stand on the disk,
and that holds the same content in another layout.
-/

namespace TreeFile

open Store PointerMap Disk Siblings

variable {s t : Store} {d e : Disk} {tree : TreeKind} {h : Nat} {others : List Nat}

/-- A page that is changed in memory and yet to be written. All it refers to is there. -/
structure Pending (d : Disk) (tree : TreeKind) (page : Page) (node : Node (Limb h)) : Prop where
  mirrors : page.Mirrors d tree node
  full : page.parked ≠ [] → page.Overfull
  hangs : d.Hangs tree node.row
  claims : d.Mapped (node.row.claims node.page)

namespace Row

variable {row : Row (Node (Limb h))} {first last : Nat}

def outside (row : Row (Node (Limb h))) (first last : Nat) : List Nat :=
  read (Limb.pages (h + 1)) Item.chain (row.cells.take first) ++
    (row.drop last).behind (Limb.pages (h + 1)) Item.chain

def KidOutside (row : Row (Node (Limb h))) (first last : Nat) (kid : Node (Limb h)) : Prop :=
  kid ∈ (row.cells.take first).map Prod.fst ∨ kid ∈ (row.drop last).kids.drop 1

def ItemOutside (row : Row (Node (Limb h))) (first last : Nat) (item : Item) : Prop :=
  item ∈ (row.cells.take first).map Prod.snd ∨ item ∈ (row.drop last).items

theorem KidOutside.pages {kid : Node (Limb h)} (away : row.KidOutside first last kid) :
    ∀ n ∈ Limb.pages (h + 1) kid, n ∈ row.outside first last := by
  intro n inside
  rcases away with before | behind
  · obtain ⟨c, member, rfl⟩ := List.mem_map.mp before
    exact List.mem_append_left _ (mem_read.mpr ⟨c, member, .inl inside⟩)
  · exact List.mem_append_right _ (mem_behind.mpr (.inl ⟨kid, behind, inside⟩))

theorem ItemOutside.chain {item : Item} (away : row.ItemOutside first last item) :
    ∀ n ∈ item.chain, n ∈ row.outside first last := by
  intro n inside
  rcases away with before | behind
  · obtain ⟨c, member, rfl⟩ := List.mem_map.mp before
    exact List.mem_append_left _ (mem_read.mpr ⟨c, member, .inr inside⟩)
  · exact List.mem_append_right _ (mem_behind.mpr (.inr ⟨item, behind, inside⟩))

theorem ItemOutside.mem {item : Item} (away : row.ItemOutside first last item) : item ∈ row.items := by
  rcases away with before | behind
  · rw [List.map_take] at before
    exact List.mem_of_mem_take before
  · have inside := List.mem_append_right ((row.cells.take last).map Prod.snd) behind
    rw [← items_prepend, prepend_drop] at inside
    exact inside

theorem item_splice {new : Row (Node (Limb h))} {item : Item}
    (member : item ∈ (row.splice first last new).items) :
    item ∈ new.items ∨ row.ItemOutside first last item := by
  rw [items_splice] at member
  simp only [List.mem_append] at member
  unfold ItemOutside
  tauto

theorem perm_around {a b middle pages rest : List Nat} (inner : middle.Perm (pages ++ rest)) :
    (a ++ middle ++ b).Perm (pages ++ (rest ++ (a ++ b))) := by
  grind

theorem hanging_splice {keep : Bool} {window : Row (Node (Limb h))}
    (nothing : keep = false → h = 0 ∧ ∀ item ∈ window.items, item.chain = []) :
    (hanging (h := h + 1) (row.splice first last window)).Perm
      (window.kids.map Node.page ++ ((window.flatten keep).hanging ++ row.outside first last)) :=
  (List.Perm.of_eq (gather_splice first last)).trans (perm_around (hanging_window nothing))

end Row

namespace Disk

theorem Carries.level {k : Nat} {item : Item} (carries : d.Carries tree h item)
    (same : tree = .index ∨ (h = 0 ↔ k = 0)) : d.Carries tree k item :=
  ⟨carries.fits.level same, carries.chain, carries.links⟩

theorem carries_dividing (d : Disk) (h : Nat) (row : RowId) :
    d.Carries .table (h + 1) (.dividing row) := by
  refine ⟨⟨nofun, ⟨fun _ => ⟨rfl, Nat.succ_ne_zero h⟩, fun _ => rfl⟩, fun _ => ⟨rfl, rfl⟩⟩, ?_, mapped_nil⟩
  change (Item.tail _ d.limits .table).size ≤ 0
  rw [Item.size_tail]
  exact Nat.sub_le _ _

end Disk

namespace Siblings

theorem keeps_level (keep : keeps tree h = true) : tree = .index ∨ (h = 0 ↔ h + 1 = 0) := by
  cases tree with
  | index => exact .inl rfl
  | table =>
    cases h with
    | zero => cases keep
    | succ h => exact .inr (by simp)

variable {parent page q : Page} {index number : Nat} {row : Row (Node (Limb h))}

theorem Family.plain (family : Family d tree parent index page number row) (none_ : keeps tree h = false) :
    h = 0 ∧ ∀ item ∈ row.items, item.chain = [] := by
  obtain ⟨isTable, leaf⟩ := keeps_eq_false.mp none_
  refine ⟨leaf, fun item member => ?_⟩
  have fits := (family.items item member).fits
  exact (fits.plain (fits.divides.mpr ⟨isTable, Nat.succ_ne_zero h⟩)).2

theorem Family.hangs_flatten (family : Family d tree parent index page number row) (first last : Nat) :
    d.Hangs tree ((row.window first last).flatten (keeps tree h)) := by
  refine ⟨fun item member => ?_, fun kid member => ?_⟩
  · rcases Row.mem_items_flatten.mp member with ⟨node, inside, own⟩ | ⟨keep, inside⟩
    · exact (family.hangs node (Row.mem_kids_window inside)).items item own
    · exact (family.items item (Row.mem_items_window inside)).level
        ((keeps_level keep).imp id Iff.symm)
  · cases keep : keeps tree h with
    | true =>
      rw [keep] at member
      obtain ⟨node, inside, own⟩ := Row.mem_kids_flatten.mp member
      exact (family.hangs node (Row.mem_kids_window inside)).kids kid own
    | false =>
      obtain ⟨-, rfl⟩ := keeps_eq_false.mp keep
      trivial

theorem hangs_nodes {new : Row (Node (Limb h))} (hangs : d.Hangs tree (new.flatten (keeps tree h)))
    {node : Node (Limb h)} (member : node ∈ new.kids) : d.Hangs tree node.row := by
  refine ⟨fun item own => hangs.items item (Row.mem_items_flatten.mpr (.inl ⟨node, member, own⟩)),
    fun kid own => ?_⟩
  cases keep : keeps tree h with
  | true =>
    rw [keep] at hangs
    exact hangs.kids kid (Row.mem_kids_flatten.mpr ⟨node, member, own⟩)
  | false =>
    obtain ⟨-, rfl⟩ := keeps_eq_false.mp keep
    trivial

theorem carries_dividers {F : Row (Limb h)} {list : List (Nat × Span)} (hangs : d.Hangs tree F)
    (flat : (F.assemble (keeps tree h) list).flatten (keeps tree h) = F) {item : Item}
    (member : item ∈ (F.assemble (keeps tree h) list).items) : d.Carries tree (h + 1) item := by
  cases keep : keeps tree h with
  | true =>
    rw [keep] at flat member
    have inside : item ∈ F.items := by
      rw [← flat]
      exact Row.mem_items_flatten.mpr (.inr ⟨rfl, member⟩)
    exact (hangs.items item inside).level (keeps_level keep)
  | false =>
    obtain ⟨rfl, -⟩ := keeps_eq_false.mp keep
    rw [keep] at member
    obtain ⟨span, rfl⟩ := Row.assemble_items member
    exact d.carries_dividing h _

theorem weight_sublist {a b : List Bytes} (sub : a.Sublist b) : Page.weight a ≤ Page.weight b := by
  induction sub with
  | slnil => exact Nat.le_refl _
  | cons cell _ ih =>
    rw [Page.weight_cons]
    exact Nat.le_trans ih (Nat.le_add_left _ _)
  | cons_cons cell _ ih =>
    rw [Page.weight_cons, Page.weight_cons]
    exact Nat.add_le_add_left ih _

theorem claims_nodes (number : Nat) (row : Row (Node (Limb h))) : Row.claims (h := h + 1) number row =
    row.gather (fun node => [(node.page, ⟨.treeNode, number⟩)]) (Item.headClaim number) := rfl

theorem mapped_splice {number first last : Nat} {row new : Row (Node (Limb h))} {P E : Nat → Prop}
    (outer : d.Mapped (Row.claims (h := h + 1) number row)) (order : first ≤ last) (frame : Keeps d e P E)
    (entries : ∀ n ∈ row.outside first last, d.isReserved n = false ∧ ¬ E n)
    (nodes : ∀ node ∈ new.kids, e.Mapped [(node.page, ⟨.treeNode, number⟩)])
    (heads : e.Mapped (new.items.flatMap (Item.headClaim number))) :
    e.Mapped (Row.claims (h := h + 1) number (row.splice first last new)) := by
  rw [claims_nodes, Row.gather_window order] at outer
  rw [claims_nodes, Row.gather_splice]
  obtain ⟨others, behind⟩ := mapped_append.mp outer
  obtain ⟨before, -⟩ := mapped_append.mp others
  have page : ∀ (node : Node (Limb h)) (c : Nat × PointerEntry),
      c ∈ [(node.page, (⟨.treeNode, number⟩ : PointerEntry))] → c.1 ∈ Limb.pages (h + 1) node := by
    intro node c member
    rw [List.mem_singleton.mp member]
    exact List.mem_cons_self
  have head : ∀ (item : Item) (c : Nat × PointerEntry), c ∈ item.headClaim number → c.1 ∈ item.chain := by
    intro item c member
    have inside : c.1 ∈ (item.headClaim number).pages := List.mem_map_of_mem member
    rw [item.headClaim_pages] at inside
    exact List.mem_of_mem_take inside
  refine mapped_append.mpr ⟨mapped_append.mpr ⟨before.keep frame fun n inside => entries n ?_, ?_⟩,
    behind.keep frame fun n inside => entries n ?_⟩
  · obtain ⟨c, member, rfl⟩ := List.mem_map.mp inside
    obtain ⟨cell, among, own⟩ := Row.mem_read.mp member
    exact List.mem_append_left _ (Row.mem_read.mpr ⟨cell, among, own.imp (page _ c) (head _ c)⟩)
  · intro mapped c member
    rcases Row.mem_gather.mp member with ⟨node, among, own⟩ | ⟨item, among, own⟩
    · exact nodes node among mapped c own
    · exact heads mapped c (List.mem_flatMap.mpr ⟨item, among, own⟩)
  · obtain ⟨c, member, rfl⟩ := List.mem_map.mp inside
    refine List.mem_append_right _ (Row.mem_behind.mpr ((Row.mem_behind.mp member).imp ?_ ?_))
    · exact fun ⟨node, among, own⟩ => ⟨node, among, page node c own⟩
    · exact fun ⟨item, among, own⟩ => ⟨item, among, head item c own⟩

theorem hangs_splice {first last : Nat} {row new : Row (Node (Limb h))} {P E : Nat → Prop}
    (frame : Keeps d e P E) (sound : d.Sound) (soundE : e.Sound) (inside : last ≤ row.cells.length)
    (items : ∀ item ∈ row.items, d.Carries tree (h + 1) item)
    (kids : ∀ i, i ≤ row.cells.length → i < first ∨ last < i → d.LimbAt tree (h + 1) (row.kid i))
    (order : first ≤ last) (spared : Spared d e P (row.outside first last))
    (entries : ∀ n ∈ row.outside first last, ¬ E n) (newItems : ∀ item ∈ new.items, e.Carries tree (h + 1) item)
    (newKids : ∀ node ∈ new.kids, e.LimbAt tree (h + 1) node) :
    e.Hangs (h := h + 1) tree (row.splice first last new) := by
  have kept : ∀ kid : Node (Limb h), row.KidOutside first last kid → d.LimbAt tree (h + 1) kid →
      e.LimbAt tree (h + 1) kid := fun kid away at_ =>
    LimbAt.keep frame sound soundE at_ (spared.mono away.pages) fun n below =>
      entries n (away.pages n (List.mem_of_mem_drop below))
  refine ⟨fun item member => ?_, fun kid member => ?_⟩
  · rcases Row.item_splice member with inner | away
    · exact newItems item inner
    · exact (items item away.mem).keep frame sound soundE (spared.mono away.chain) fun n link =>
        entries n (away.chain n (List.mem_of_mem_drop link))
  · rcases Row.mem_kids_splice member with inner | before | behind
    · exact newKids kid inner
    · obtain ⟨i, less, same⟩ := Row.kid_of_before (Nat.le_trans order inside) before
      exact kept kid (.inl before) (same ▸ kids i (by omega) (.inl less))
    · obtain ⟨i, more, bound, same⟩ := Row.kid_of_behind inside behind
      exact kept kid (.inr behind) (same ▸ kids i bound (.inr more))

theorem overfull_splits {olds : List Page} {first : Nat} {cells : List Bytes} {number : PageNo} {span : Span}
    {laid : List Laid} {F : Row (Limb h)} {u : Store} (shows_ : s.Shows d) (full : page.Overfull)
    (is : page.Of d number (.at tree h)) (other : number ≠ 1) (among : page ∈ olds)
    (gathered : gather d.limits parent first olds = .ok cells)
    (held : Held d.limits (.at tree h) cells (F.slots d.limits tree))
    (smallKid : ∀ kid ∈ F.kids, (Limb.page? h kid).getD 0 < 4294967296)
    (covers : Covers (keeps tree h) F.cells.length 0 [span]) {target : PageNo} (otherTarget : target ≠ 1)
    (made : layOut (.at tree h) cells F.right [(target, span)] s = .ok laid u) : False := by
  obtain ⟨p, isP, fits⟩ := layOut_single shows_ held smallKid made
  obtain ⟨own, ofPage, tooMuch⟩ := full
  have whole : cellsOf cells span = cells := by
    obtain ⟨start, -, stop⟩ := covers
    unfold cellsOf Span.length
    rw [start, stop, List.drop_zero, Nat.sub_zero, ← Page.Mirrors.length_slots d.limits tree F,
      ← held.length, List.take_length]
  rw [whole] at fits
  have sub := gather_sublist among ofPage gathered
  have same : page.geometry = p.geometry := by
    rw [is.geometry, isP.geometry]
    unfold Disk.geometry Geometry.ofPage
    rw [if_neg other, if_neg otherTarget]
  have fitsOwn : page.fits own page.kind = true := by
    rw [Page.fits_eq] at fits ⊢
    unfold Page.usable Page.headerStart at fits ⊢
    rw [same, show page.kind = _ from is.kind]
    exact ⟨Nat.le_trans (weight_sublist sub) fits.1, Nat.le_trans sub.length_le fits.2⟩
  rw [tooMuch] at fitsOwn
  cases fitsOwn

namespace Renewed

variable {F : Row (Limb h)} {new : Row (Node (Limb h))} {rest : List Nat}

section

variable (renewed : Renewed d e tree number F new rest)

include renewed

theorem once : ((new.kids.map Node.page ++ F.near) ++ (F.far ++ rest)).Nodup := by
  refine ((F.hanging_perm.append_right rest).append_left _ |>.trans (.of_eq ?_)).nodup_iff.mp renewed.books.nodup
  simp only [List.append_assoc]

theorem other (one : 1 ∈ rest) : ∀ n ∈ new.kids.map Node.page ++ F.near, n ≠ 1 := by
  rintro n member rfl
  exact (List.nodup_append.mp renewed.once).2.2 1 member 1 (List.mem_append_right _ one) rfl

theorem heads : ∀ n ∈ new.items.flatMap (fun item => item.chain.take 1), n ∈ new.kids.map Node.page ++ F.near :=
  fun _ member => renewed.touched.mem_iff.mp (List.mem_append_right _ member)

theorem heads_once : (new.items.flatMap fun item => item.chain.take 1).Nodup :=
  (List.nodup_append.mp (renewed.touched.nodup_iff.mpr (List.nodup_append.mp renewed.once).1)).2.1

theorem apart {n : Nat} (node : n ∈ new.kids.flatMap Siblings.touched) :
    n ∉ new.items.flatMap fun item => item.chain.take 1 := fun head =>
  (List.nodup_append.mp (renewed.touched.nodup_iff.mpr (List.nodup_append.mp renewed.once).1)).2.2 n node n head rfl

end

variable {f : Disk} {first last : Nat}

theorem settled (renewed : Renewed d e tree number F new (row.outside first last ++ others)) (sound : d.Sound)
    (soundE : e.Sound) (soundF : f.Sound) {olds : List Nat}
    (books : d.Books (olds ++ (F.hanging ++ (row.outside first last ++ others))))
    (quiet : Quiet e f (fun _ => False) (· ∈ new.items.flatMap fun item => item.chain.take 1))
    (mapped : f.Mapped (new.items.flatMap (Item.headClaim number)))
    (family : Family d tree parent index page number row) (low : first ≤ index) (high : index ≤ last)
    (bound : last ≤ row.cells.length) (hangs : d.Hangs tree F) (flat : new.flatten (Siblings.keeps tree h) = F)
    (dividers : f.Hangs tree F → ∀ item ∈ new.items, f.Carries tree (h + 1) item)
    (nothing : Siblings.keeps tree h = false → h = 0 ∧ ∀ item ∈ new.items, item.chain = []) :
    Keeps d f (Freelist.Others others) (Freelist.Others others) ∧
      f.Books (Row.hanging (h := h + 1) (row.splice first last new) ++ others) ∧
      f.Hangs (h := h + 1) tree (row.splice first last new) ∧
      f.Mapped (Row.claims (h := h + 1) number (row.splice first last new)) := by
  have order : first ≤ last := Nat.le_trans low high
  have frame : Keeps d f (Freelist.Others (F.hanging ++ (row.outside first last ++ others)))
      (Freelist.Others (F.far ++ (row.outside first last ++ others))) := by
    refine renewed.keeps.trans (quiet.toKeeps.mono (fun _ => False.elim) fun n member own => ?_)
    exact (List.nodup_append.mp renewed.once).2.2 n (renewed.heads n member) n own rfl
  have booksF : f.Books (new.kids.map Node.page ++ (F.hanging ++ (row.outside first last ++ others))) :=
    renewed.books.of_quiet soundE soundF quiet (fun _ => False.elim) fun n member =>
      Row.near_inside n (renewed.heads n member)
  have spared : Spared d f (Freelist.Others (F.hanging ++ (row.outside first last ++ others)))
      (F.hanging ++ (row.outside first last ++ others)) :=
    spared_of_books books booksF (fun n member => ⟨List.mem_append_right _ member, List.mem_append_right _ member⟩)
      fun n member away => away member
  have sparedOutside := spared.mono fun n (member : n ∈ row.outside first last) =>
    List.mem_append_right F.hanging (List.mem_append_left others member)
  have entries : ∀ n ∈ row.outside first last,
      ¬ Freelist.Others (F.far ++ (row.outside first last ++ others)) n :=
    fun n member away => away (List.mem_append_right _ (List.mem_append_left _ member))
  have hangsF : f.Hangs tree F :=
    hangs.keep frame sound soundF (spared.mono fun n => List.mem_append_left _) fun n member away =>
      away (List.mem_append_left _ member)
  have nodes : ∀ node ∈ new.kids, f.NodeAt tree node ∧ f.Mapped [(node.page, ⟨.treeNode, number⟩)] := by
    intro node member
    obtain ⟨nodeAt, claim⟩ := renewed.nodes node member
    have own : ∀ n ∈ Siblings.touched node, e.isReserved n = false ∧
        n ∉ new.items.flatMap fun item => item.chain.take 1 := by
      intro n belongs
      have among : n ∈ new.kids.flatMap Siblings.touched := List.mem_flatMap.mpr ⟨node, member, belongs⟩
      have near := renewed.touched.mem_iff.mp (List.mem_append_left _ among)
      exact ⟨(renewed.books.has (Row.near_inside n near)).2, renewed.apart among⟩
    have page : ∀ n ∈ [node.page], n ∈ Siblings.touched node := fun n same => by
      rw [List.mem_singleton.mp same]
      exact List.mem_cons_self
    refine ⟨nodeAt.keep quiet.toKeeps soundE soundF (fun n same => ?_) fun n belongs =>
      own n (List.mem_cons_of_mem _ belongs), claim.keep quiet.toKeeps fun n same => own n (page n same)⟩
    refine ⟨(own n (page n same)).1, (booksF.has (List.mem_append_left _ ?_)).1, id⟩
    rw [List.mem_singleton.mp same]
    exact List.mem_map_of_mem member
  refine ⟨?_, ?_, ?_, ?_⟩
  · exact frame.mono (fun n away own => away (List.mem_append_right _ (List.mem_append_right _ own)))
      fun n away own => away (List.mem_append_right _ (List.mem_append_right _ own))
  · refine booksF.perm (List.Perm.trans (.of_eq ?_) ((Row.hanging_splice nothing).symm.append_right others))
    rw [flat]
    simp only [List.append_assoc]
  · refine hangs_splice frame sound soundF bound family.items (fun i inside away => ?_) order sparedOutside entries
      (dividers hangsF) fun node member => ?_
    · exact (limbAt_node _).mpr ⟨family.others i inside (by omega), family.hangs _ (row.kid_mem i)⟩
    · exact (limbAt_node node).mpr ⟨(nodes node member).1, hangs_nodes (flat ▸ hangsF) member⟩
  · exact mapped_splice family.claims order frame (fun n member => ⟨(sparedOutside n member).1, entries n member⟩)
      (fun node member => (nodes node member).2) mapped

end Renewed

structure Balanced (d e : Disk) (tree : TreeKind) (index : Nat) (page q : Page) (number : Nat)
    (row row' : Row (Node (Limb h))) (others : List Nat) : Prop where
  pending : Pending (h := h + 1) e tree q ⟨number, row'⟩
  frame : Keeps d e (Freelist.Others others) (Freelist.Others others)
  books : e.Books (Row.hanging (h := h + 1) row' ++ others)
  grows : d.count ≤ e.count
  relaid : ∃ first last list, row.Relaid (keeps tree h) index first last list ∧
    row' = row.splice first last (row.relaid (keeps tree h) first last list) ∧
    (page.Overfull → 2 ≤ list.length)

theorem balance_parts {limits : PayloadLimits} (isLimits : s.limits = limits)
    (run : balance parent index page s = .ok q t) :
    index ≤ parent.cellCount ∧ ∃ olds cells final spans found laid r u₁ u₂ u₃ u₄ u₅,
      siblings parent index page (min (index + 2) parent.cellCount + 1 - (index - 2)) (index - 2) s =
        .ok olds u₁ ∧
      gather limits parent (index - 2) olds = .ok cells ∧ finalChild page.kind olds = .ok final ∧
      distribute (cells.map fun cell => cell.size + pointerSize)
        (limits.usableSize - page.kind.headerSize) (page.kind != .tableLeaf) = .ok spans ∧
      numbers (olds.map Page.number) spans.length u₁ = .ok found u₂ ∧
      layOut page.kind cells final (found.zip spans) u₂ = .ok laid u₃ ∧
      (laid.forM fun l => writeLaid parent.number l.page) u₃ = .ok () u₄ ∧
      ((olds.map Page.number).filter fun number => !found.contains number).forM Freelist.free u₄ =
        .ok () u₅ ∧
      Action.applied (do
        dropDividers (index - 2) (olds.length - 1)
        Page.setChild (index - 2) (found.getLastD 0)) parent = .ok r ∧
      insertDividers (.interior page.kind.tree) (index - 2) (laid.filterMap Laid.divider) r u₅ = .ok q t := by
  unfold balance at run
  rw [Action.get_bind] at run
  dsimp only at run
  by_cases refused : (decide (index > parent.cellCount) || parent.hasParked) = true
  · rw [if_pos refused] at run
    exact absurd run Action.throw_bind_ok
  rw [if_neg refused, isLimits] at run
  simp only [Bool.or_eq_true, decide_eq_true_eq, not_or] at refused
  obtain ⟨olds, u₁, one, run⟩ := Action.bind_ok.mp run
  obtain ⟨cells, two, run⟩ := Action.lift_bind_ok.mp run
  obtain ⟨final, three, run⟩ := Action.lift_bind_ok.mp run
  obtain ⟨spans, four, run⟩ := Action.lift_bind_ok.mp run
  obtain ⟨found, u₂, five, run⟩ := Action.bind_ok.mp run
  obtain ⟨laid, u₃, six, run⟩ := Action.bind_ok.mp run
  obtain ⟨⟨⟩, u₄, seven, run⟩ := Action.bind_ok.mp run
  obtain ⟨⟨⟩, u₅, eight, run⟩ := Action.bind_ok.mp run
  obtain ⟨r, nine, run⟩ := Action.lift_bind_ok.mp run
  exact ⟨Nat.le_of_not_lt refused.1, olds, cells, final, spans, found, laid, r, u₁, u₂, u₃, u₄, u₅, one, two,
    three, four, five, six, seven, eight, nine, run⟩

/-- The cells that are gathered from a window are those of the window as one row, and the spans they are
distributed to cut it up. -/
theorem spread_ok {olds : List Page} {first last capacity : Nat} {cells : List Bytes} {final : Option PageNo}
    {spans : List Span} (above : parent.Mirrors (h := h + 1) d tree ⟨number, row⟩) (clear : parent.parked = [])
    (order : first ≤ last) (inside : last ≤ row.cells.length)
    (yields : List.Forall₂ (fun q node => Page.Yields q d tree node.row) olds (row.window first last).kids)
    (gathered : gather d.limits parent first olds = .ok cells)
    (isFinal : finalChild (.at tree h) olds = .ok final)
    (distributed : distribute (cells.map fun cell => cell.size + pointerSize) capacity (keeps tree h) = .ok spans)
    {F : Row (Limb h)} (isF : F = (row.window first last).flatten (keeps tree h)) :
    olds.length = last - first + 1 ∧ Held d.limits (.at tree h) cells (F.slots d.limits tree) ∧
      (final = F.right ∧ final.getD 0 < 4294967296) ∧ Covers (keeps tree h) F.cells.length 0 spans ∧
      (F.cells ≠ [] → Peopled spans) ∧ (F.cells = [] → spans.length = 1) := by
  have length : olds.length = last - first + 1 := by
    rw [yields.length_eq, Row.length_kids]
    unfold Row.window
    rw [List.length_take, List.length_drop]
    omega
  have held := gather_ok above clear (by omega) inside yields gathered
  rw [← isF] at held
  have same : (cells.map fun cell => cell.size + pointerSize).length = F.cells.length := by
    rw [List.length_map, held.length, Page.Mirrors.length_slots]
  obtain ⟨covers, peopled, single⟩ := distribute_ok distributed
  rw [same] at covers
  refine ⟨length, held, ?_, covers, fun some_ => peopled fun nothing => some_ ?_, fun none_ => single ?_⟩
  · obtain ⟨right, small⟩ := finalChild_ok yields isFinal
    refine ⟨?_, small⟩
    rw [right, isF]
    rfl
  · rw [nothing] at same
    exact List.length_eq_zero_iff.mp same.symm
  · rw [none_] at same
    exact List.length_eq_zero_iff.mp same

theorem numbers_of_mirrors {olds : List Page} {nodes : List (Node (Limb h))}
    (mirrors : List.Forall₂ (fun q node => Page.Mirrors q d tree node) olds nodes) :
    olds.map Page.number = nodes.map Node.page := by
  induction mirrors with
  | nil => rfl
  | cons first _ ih => rw [List.map_cons, List.map_cons, first.is.number, ih]

/-- Cells with those of an overfull page among them are not laid out on one page. -/
theorem two_of_overfull {u v : Store} {olds : List Page} {first : Nat} {cells : List Bytes} {F : Row (Limb h)}
    {found pages rest : List Nat} {spans : List Span} {laid : List Laid} (shows_ : s.Shows d) (full : page.Overfull)
    (is : page.Of d number (.at tree h)) (books : d.Books (pages ++ (F.hanging ++ rest))) (one : 1 ∈ rest)
    (numbers_ : olds.map Page.number = pages) (among : page ∈ olds)
    (gathered : gather d.limits parent first olds = .ok cells)
    (held : Held d.limits (.at tree h) cells (F.slots d.limits tree))
    (covers : Covers (keeps tree h) F.cells.length 0 spans)
    (chosen : numbers pages spans.length s = .ok found u)
    (made : layOut (.at tree h) cells F.right (found.zip spans) u = .ok laid v)
    (length : found.length = spans.length) (otherTargets : ∀ n ∈ found, n ≠ 1) : 2 ≤ (found.zip spans).length := by
  by_contra short
  obtain ⟨⟨target, span⟩, single⟩ : ∃ entry, found.zip spans = [entry] := by
    refine List.length_eq_one_iff.mp ?_
    have some_ : spans.length ≠ 0 := fun nothing => by
      rw [List.eq_nil_of_length_eq_zero nothing] at covers
      exact covers.elim
    rw [List.length_zip] at short ⊢
    omega
  have spans_ : spans = [span] := by
    rw [← List.map_snd_zip (Nat.le_of_eq length.symm), single]
    rfl
  rw [single] at made
  rw [spans_] at covers
  obtain ⟨d2, shows2, -, keeps2, -, -, -⟩ := numbers_ok shows_ books chosen
  have isTarget : target ∈ found := by
    have member : (target, span) ∈ found.zip spans := single ▸ List.mem_singleton_self _
    exact (List.of_mem_zip member).1
  have own : page.number ∈ pages := numbers_ ▸ List.mem_map_of_mem among
  rw [← keeps2.alike.limits] at gathered held
  refine overfull_splits shows2 full (is.alike keeps2.alike) ?_ among gathered held
    (small_kids shows_.disk_sound books fun n below => ?_) covers (otherTargets _ isTarget) made
  · rw [← is.number]
    exact fun same => (List.nodup_append.mp books.nodup).2.2 _ own 1 (List.mem_append_right _ one) same
  · have hanging := F.hanging_perm.mem_iff.mpr (List.mem_append_left _ below)
    exact List.mem_append_right _ (List.mem_append_left _ hanging)

theorem balance_ok (shows_ : s.Shows d) (family : Family d tree parent index page number row)
    (books : d.Books (Row.hanging (h := h + 1) row ++ others)) (one : 1 ∈ others) (inside : number ∈ others)
    (run : balance parent index page s = .ok q t) :
    ∃ row' e, t.Shows e ∧ s.Steady t ∧ Balanced d e tree index page q number row row' others := by
  obtain ⟨indexInside, olds, cells, final, spans, found, laid, r, u₁, u₂, u₃, u₄, u₅, read, gathered, isFinal,
    distributed, chosen, made, written, freed, reseated, inserted⟩ := balance_parts shows_.limits run
  have count : parent.cellCount = row.cells.length := family.above.count family.clear
  have kind : page.kind = .at tree h := family.focus.is.kind
  rw [count] at indexInside read
  rw [kind] at isFinal distributed made inserted
  obtain ⟨first, isFirst⟩ : ∃ first, first = index - 2 := ⟨_, rfl⟩
  obtain ⟨last, isLast⟩ : ∃ last, last = min (index + 2) row.cells.length := ⟨_, rfl⟩
  rw [← isFirst] at read gathered reseated inserted
  rw [← isLast] at read
  have firstLast : first ≤ last := by omega
  have lastInside : last ≤ row.cells.length := by omega
  obtain ⟨shows1, steady1, mirrors, amongOlds⟩ := siblings_ok family shows_
    (show first + (last + 1 - first) = last + 1 by omega) (by omega) lastInside read
  obtain ⟨F, isF⟩ : ∃ F, F = (row.window first last).flatten (keeps tree h) := ⟨_, rfl⟩
  obtain ⟨oldsLength, held, ⟨sameFinal, -⟩, covers, peopled, single⟩ := spread_ok family.above family.clear firstLast
    lastInside (mirrors.imp fun _ _ mirrors => mirrors.yields) gathered isFinal distributed isF
  subst sameFinal
  have hangs := family.hangs_flatten first last
  rw [← isF] at hangs
  have oldNumbers := numbers_of_mirrors mirrors
  rw [oldNumbers] at chosen freed
  have around : (Row.hanging (h := h + 1) row).Perm ((row.window first last).kids.map Node.page ++
      (F.hanging ++ row.outside first last)) := by
    rw [isF]
    refine (List.Perm.of_eq ?_).trans (Row.hanging_splice fun none_ => ?_)
    · rw [Row.splice_window firstLast]
    · obtain ⟨leaf, plain⟩ := family.plain none_
      exact ⟨leaf, fun item member => plain item (Row.mem_items_window member)⟩
  have books0 : d.Books ((row.window first last).kids.map Node.page ++
      (F.hanging ++ (row.outside first last ++ others))) := by
    refine books.perm ((around.append_right others).trans (.of_eq ?_))
    simp only [List.append_assoc]
  have sameNumber : parent.number = number := family.above.is.number
  rw [sameNumber] at written
  have small := shows_.disk_sound.has_lt (books.has (List.mem_append_right _ inside)).1
  obtain ⟨-, -, -, -, -, -, length⟩ := numbers_ok shows1 books0 chosen
  obtain ⟨e3, shows3, steady3, laidOut, renewed, zipSpans, pages⟩ := renew_ok shows1 books0
    (List.mem_append_right _ one) small held covers chosen made written freed
  obtain ⟨new, isNew⟩ : ∃ new, new = F.assemble (keeps tree h) (found.zip spans) := ⟨_, rfl⟩
  rw [← isNew] at laidOut renewed pages
  have lengthZip : (found.zip spans).length = spans.length := by
    rw [List.length_zip, length, Nat.min_self]
  have relaid : row.Relaid (keeps tree h) index first last (found.zip spans) := by
    refine ⟨by omega, by omega, lastInside, fun some_ => ?_, ?_, fun some_ => ?_, fun none_ => ?_⟩
    · have positive := List.length_pos_iff.mpr some_
      omega
    · rw [← isF, zipSpans]
      exact covers
    · rw [zipSpans]
      exact peopled (isF ▸ some_)
    · rw [lengthZip]
      exact single (isF ▸ none_)
  have isRelaid : new = row.relaid (keeps tree h) first last (found.zip spans) := by
    rw [isNew, isF]
    rfl
  have lastNumber : found.getLastD 0 = new.last.page := by
    rw [pages]
    unfold Row.kids
    rw [List.map_append, List.map_singleton, List.getLastD_concat]
  rw [lastNumber, oldsLength, Nat.add_sub_cancel] at reseated
  have smallLast : new.last.page < 4294967296 :=
    shows3.disk_sound.has_lt (renewed.books.has (List.mem_append_left _
      (List.mem_map_of_mem (List.mem_append_right _ (List.mem_singleton_self _))))).1
  have alike3 := renewed.keeps.alike
  have others1 : 1 ∈ row.outside first last ++ others := List.mem_append_right _ one
  have bears := family.above.bears
  rw [← alike3.limits] at bears
  rw [PageKind.tree_at] at inserted
  obtain ⟨e4, shows4, steady4, quiet4, mapped4, bearsQ, alikeQ, kindQ, overQ⟩ := reparent_ok (h := h + 1)
    shows3 bears family.clear (family.above.is.limits.trans alike3.limits.symm) family.above.is.kind firstLast
    lastInside rfl smallLast (sameNumber.symm ▸ small) laidOut.dividers
    (fun n member => renewed.books.described (Row.near_inside n (renewed.heads n member))
      (renewed.other others1 n (renewed.heads n member))) renewed.heads_once reseated inserted
  rw [sameNumber] at mapped4
  rw [← quiet4.alike.limits] at bearsQ
  have flat : new.flatten (keeps tree h) = F := by
    rw [isRelaid, relaid.flatten, isF]
  have nothing : keeps tree h = false → h = 0 ∧ ∀ item ∈ new.items, item.chain = [] := by
    intro none_
    refine ⟨(keeps_eq_false.mp none_).2, fun item member => ?_⟩
    rw [isNew, none_] at member
    obtain ⟨span, rfl⟩ := Row.assemble_items member
    rfl
  obtain ⟨frame, books4, hangs4, claims4⟩ := renewed.settled shows_.disk_sound shows3.disk_sound shows4.disk_sound
    books0 quiet4 mapped4 family relaid.low relaid.high lastInside hangs flat (fun hangsF item => by
      rw [isNew]
      exact carries_dividers hangsF (isNew ▸ flat)) nothing
  refine ⟨row.splice first last new, e4, shows4, steady1.trans (steady3.trans steady4),
    ⟨⟨⟨(alikeQ.of family.above.is kindQ).alike frame.alike, bearsQ⟩, overQ, hangs4, claims4⟩, frame, books4, ?_,
      first, last, found.zip spans, relaid, by rw [isRelaid], fun full => ?_⟩⟩
  · rw [quiet4.count]
    exact renewed.grows
  · refine two_of_overfull shows1 full family.focus.is books0 others1 oldNumbers (amongOlds relaid.low relaid.high)
      gathered held covers chosen made length fun n inside => ?_
    exact renewed.other others1 n (List.mem_append_left _ (pages ▸ inside))

end Siblings

end TreeFile
