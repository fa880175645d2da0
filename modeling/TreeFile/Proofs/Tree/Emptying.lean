import TreeFile.Proofs.Balance.Siblings
import TreeFile.Proofs.Integrity.File
import TreeFile.Proofs.Page.Progress
import TreeFile.Tree

/-!
Emptying and removing trees. Where the trees of a file stand apart, each page of a tree is given back once, so
that the freelist stays one that can be walked.
-/

namespace TreeFile

open Store Disk

variable {s t : Store} {d e : Disk} {tree : TreeKind} {h : Nat} {owned others : List Nat}

namespace Freelist

/-- The freelist can be walked, lists no page twice, and is as long as the file header says. -/
def Exact (s : Store) : Prop := ∃ f t u, walk s = .ok f t ∧ f.pages.Nodup ∧ count s = .ok f.size u

theorem exact_of_books (shows_ : s.Shows d) (books : d.Books owned) : Exact s := by
  obtain ⟨trunks, ledger⟩ := books
  have perm := Trunk.pages_perm trunks
  obtain ⟨t, walked, -⟩ := walk_run shows_ ledger
  obtain ⟨u, counted, -⟩ := count_run shows_ ledger.has_one
  have once : (Trunk.allPages trunks).Nodup := (List.nodup_append.mp ledger.part.once).1
  refine ⟨_, t, u, walked, perm.symm.nodup once, ?_⟩
  rw [counted, ledger.count, ← perm.length_eq, List.length_append]
  rfl

end Freelist

theorem Store.bumpGeneration_run (shows_ : s.Shows d) :
    ∃ t, bumpGeneration s = .ok () t ∧ t.Shows d ∧ s.Steady t :=
  ⟨_, rfl, ⟨⟨shows_.sound.pager, shows_.sound.pageSize, shows_.sound.disk⟩, shows_.same⟩,
    ⟨.refl _, rfl, rfl, rfl, rfl, rfl, Nat.le_succ _⟩⟩

namespace Tree

def under (kind : TreeKind) : (h : Nat) → List (Limb h) → List Tree
  | 0, _ => []
  | h + 1, kids => kids.map fun kid => ⟨kind, h, kid⟩

theorem pages_under (kind : TreeKind) (kids : List (Limb h)) :
    (under kind h kids).flatMap pages = kids.flatMap (Limb.pages h) := by
  cases h with
  | zero => exact (List.flatMap_eq_nil_iff.mpr fun _ _ => rfl).symm
  | succ h => exact List.flatMap_map (fun kid : Limb (h + 1) => (⟨kind, h, kid⟩ : Tree)) pages kids

theorem items_under (kind : TreeKind) (kids : List (Limb h)) :
    (under kind h kids).flatMap items = kids.flatMap (Limb.items h) := by
  cases h with
  | zero => exact (List.flatMap_eq_nil_iff.mpr fun _ _ => rfl).symm
  | succ h => exact List.flatMap_map (fun kid : Limb (h + 1) => (⟨kind, h, kid⟩ : Tree)) items kids

theorem roots_under (kind : TreeKind) (kids : List (Limb h)) :
    (under kind h kids).map (fun tree => tree.root.page) = kids.filterMap (Limb.page? h) := by
  cases h with
  | zero => exact (List.filterMap_eq_nil_iff.mpr fun _ _ => rfl).symm
  | succ h =>
    refine (List.map_map (f := fun kid : Limb (h + 1) => (⟨kind, h, kid⟩ : Tree)) (l := kids)).trans ?_
    exact (List.filterMap_eq_map (f := fun kid : Limb (h + 1) => Node.page kid) ▸ rfl)

end Tree

theorem Disk.LimbAt.stay {limb : Limb h} (at_ : d.LimbAt tree h limb) (sound : d.Sound) (soundE : e.Sound)
    (keeps : Keeps d e (Freelist.Others owned) (Freelist.Others owned))
    (has : ∀ n ∈ owned, e.Has n ∧ e.isReserved n = false) (inside : ∀ n ∈ Limb.pages h limb, n ∈ owned) :
    e.LimbAt tree h limb := by
  refine at_.keep keeps sound soundE (fun n own => ?_) fun n below away =>
    away (inside n (List.mem_of_mem_drop below))
  obtain ⟨has, free⟩ := has n (inside n own)
  exact ⟨(keeps.alike.isReserved n).symm.trans free, has, fun away => away (inside n own)⟩

theorem Page.Mirrors.child_run {p : Page} {node : Node (Limb h)} (mirrors : p.Mirrors d tree node)
    (clear : p.parked = []) {i : Nat} {child : PageNo}
    (found : (node.row.kids.map (Limb.page? h))[i]? = some (some child)) (positive : child ≠ 0) :
    p.child i = .ok child := by
  refine (mirrors.bears.child_ok clear).mpr ⟨positive, ?_⟩
  rw [Row.slots_left]
  exact found

namespace Tree

theorem clearCells_run {p : Page} {node : Node (Limb h)} (clear : p.parked = [])
    (cells : List (Limb h × Item)) (children : List PageNo) {i : Nat} (shows_ : s.Shows d)
    (mirrors : p.Mirrors d tree node) (here : node.row.cells.drop i = cells)
    (positive : ∀ kid ∈ node.row.kids, Limb.page? h kid ≠ some 0)
    (chains : ∀ c ∈ cells, d.ItemAt tree c.2) (books : d.Books (cells.flatMap (fun c => c.2.chain) ++ owned))
    (one : 1 ∈ owned) :
    ∃ e t, clearCells p cells.length i children s =
        .ok ((cells.filterMap fun c => Limb.page? h c.1).reverse ++ children) t ∧ t.Shows e ∧ s.Steady t ∧
      Keeps d e (Freelist.Others owned) (Freelist.Others owned) ∧ e.Books owned ∧ e.count = d.count := by
  induction cells generalizing s d i children with
  | nil => exact ⟨d, s, rfl, shows_, .refl s, .refl d, books, rfl⟩
  | cons c rest ih =>
    have sound := shows_.disk_sound
    have length := Page.Mirrors.length_slots d.limits tree node.row
    have inside : i < node.row.cells.length := by
      by_contra outside
      rw [List.drop_eq_nil_of_le (Nat.le_of_not_lt outside)] at here
      cases here
    have isCell : node.row.cells[i] = c := by
      rw [List.drop_eq_getElem_cons inside] at here
      exact (List.cons.inj here).1
    have later : node.row.cells.drop (i + 1) = rest := by
      rw [List.drop_eq_getElem_cons inside] at here
      exact (List.cons.inj here).2
    have inSlots : i < (node.row.slots d.limits tree).length := length ▸ inside
    have slot : (node.row.slots d.limits tree)[i] = ⟨Limb.page? h c.1, c.2.stub d.limits tree⟩ := by
      rw [← isCell]
      exact List.getElem_map _
    have stub : (node.row.slots d.limits tree)[i].stub = c.2.stub p.limits tree := by
      rw [slot, mirrors.is.limits]
    obtain ⟨info, read, tells, left, -⟩ := Overflow.tells_of_bears mirrors.bears clear
      (mirrors.is.limits ▸ sound.fair) inSlots stub
    rw [mirrors.is.limits] at tells
    rw [List.flatMap_cons, List.append_assoc] at books
    obtain ⟨d1, t1, run1, shows1, steady1, keeps1, books1, count1⟩ :=
      Overflow.freeOf_run shows_ tells (chains c List.mem_cons_self) books (List.mem_append_right _ one)
    have chains1 : ∀ c ∈ rest, d1.ItemAt tree c.2 := fun c' member => by
      refine Overflow.ItemAt.congr (chains c' (List.mem_cons_of_mem _ member)) keeps1.alike fun n link => ?_
      have own : n ∈ rest.flatMap (fun c => c.2.chain) := List.mem_flatMap.mpr ⟨c', member, link⟩
      have other : n ≠ 1 := fun same => (List.nodup_append.mp books1.nodup).2.2 n own 1 one same
      exact (keeps1.images n (books.has (List.mem_append_right _ (List.mem_append_left _ own))).2
        fun away => away (List.mem_append_left _ own)).image sound shows1.disk_sound keeps1.alike other
    obtain ⟨d2, t2, run2, shows2, steady2, keeps2, books2, count2⟩ :=
      ih ((Limb.page? h c.1).toList ++ children) shows1 (mirrors.alike keeps1.alike) later chains1 books1
    have kids : (node.row.kids.map (Limb.page? h))[i]? = some (Limb.page? h c.1) := by
      unfold Row.kids
      rw [List.map_append, List.map_map, List.getElem?_append_left (by rw [List.length_map]; exact inside),
        List.getElem?_map, List.getElem?_eq_getElem inside, isCell]
      rfl
    have member : c.1 ∈ node.row.kids := by
      rw [← isCell]
      exact List.mem_append_left _ (List.mem_map_of_mem (List.getElem_mem inside))
    refine ⟨d2, t2, ?_, shows2, steady1.trans steady2, ?_, books2, count2.trans count1⟩
    · rw [List.length_cons]
      unfold clearCells
      rw [read, Action.lift_ok_bind, Action.bind_of_ok run1, mirrors.isLeaf]
      have collected : ((c :: rest).filterMap fun c => Limb.page? h c.1).reverse ++ children =
          (rest.filterMap fun c => Limb.page? h c.1).reverse ++ ((Limb.page? h c.1).toList ++ children) := by
        rw [List.filterMap_cons]
        cases Limb.page? h c.1 <;> simp
      rw [collected]
      cases h with
      | zero => exact run2
      | succ h =>
        have child := mirrors.child_run clear kids fun zero => positive c.1 member (congrArg some zero)
        rw [if_neg (by simp), child]
        exact run2
    · exact (keeps1.within fun n own => List.mem_append_right _ own).trans keeps2

/-- Gives back the chains of a page and answers what is still to be visited then, and how many entries the page
held itself. -/
def visit (root : PageNo) (kind : TreeKind) (number : PageNo) (pending : List PageNo) :
    StoreM (List PageNo × Nat) := do
  let page ← loadPage number
  if page.kind.tree ≠ kind then throw (.foreignPage number root)
  let pending ← clearCells page page.cellCount 0 pending
  let pending ← if page.isLeaf then pure pending else (· :: pending) <$> page.child page.cellCount
  return (pending, entryCount page)

theorem clearPages_cons (root : PageNo) (kind : TreeKind) (left : Nat) (number : PageNo) (pending : List PageNo)
    (removed : Nat) : clearPages root kind (left + 1) (number :: pending) removed = (do
      let (rest, own) ← visit root kind number pending
      if number ≠ root then Freelist.free number
      clearPages root kind left rest (removed + own)) := by
  unfold visit
  conv_lhs => unfold clearPages
  simp only [bind_assoc, pure_bind]
  refine bind_congr fun page => ?_
  split
  · funext s
    rfl
  · simp only [bind_assoc]
    refine bind_congr fun rest => ?_
    split
    · rfl
    · simp only [bind_assoc, pure_bind]

structure Visited (d e : Disk) (tree : TreeKind) (node : Node (Limb h)) (owned : List Nat) : Prop where
  books : e.Books (node.page :: (node.row.kids.flatMap (Limb.pages h) ++ owned))
  kids : ∀ kid ∈ node.row.kids, e.LimbAt tree h kid
  frame : Keeps d e (Freelist.Others (node.page :: (node.row.kids.flatMap (Limb.pages h) ++ owned)))
    (Freelist.Others (node.page :: (node.row.kids.flatMap (Limb.pages h) ++ owned)))
  count : e.count = d.count

theorem kid_positive {row : Row (Limb h)} (kids : ∀ kid ∈ row.kids, d.LimbAt tree h kid) :
    ∀ kid ∈ row.kids, Limb.page? h kid ≠ some 0 := by
  intro kid member zero
  cases h with
  | zero => cases zero
  | succ h =>
    obtain ⟨⟨has, -⟩, -⟩ := kids kid member
    have isZero : Node.page kid = 0 := Option.some.inj zero
    rw [isZero] at has
    exact absurd has.1 (Nat.not_succ_le_zero 0)

theorem entryCount_eq {p : Page} {node : Node (Limb h)} (mirrors : p.Mirrors d tree node) (clear : p.parked = [])
    (fits : ∀ item ∈ node.row.items, item.Fits tree h) : entryCount p = (entryItems node.row.items).length := by
  have count : p.cellCount = node.row.items.length :=
    (mirrors.count clear).trans (List.length_map _).symm
  have isDivider : p.kind = .tableInterior ↔ tree = .table ∧ h ≠ 0 := by
    rw [mirrors.is.kind]
    cases h <;> cases tree <;> simp [PageKind.at, PageKind.leaf, PageKind.interior]
  unfold entryCount entryItems
  split
  · rename_i dividers
    rw [List.filter_eq_nil_iff.mpr fun item member => ?_]
    · rfl
    · rw [(fits item member).divides.mpr (isDivider.mp dividers)]
      decide
  · rename_i entries
    rw [List.filter_eq_self.mpr fun item member => ?_, count]
    have divides := mt (fits item member).divides.mp fun both => entries (isDivider.mpr both)
    simpa using divides

theorem visit_run (root : PageNo) (pending : List PageNo) {node : Node (Limb h)} (shows_ : s.Shows d)
    (limb : d.LimbAt tree (h + 1) node) (books : d.Books (Limb.pages (h + 1) node ++ owned))
    (one : 1 ∈ node.page :: owned) :
    ∃ e t, visit root tree node.page pending s =
        .ok ((node.row.kids.filterMap (Limb.page? h)).reverse ++ pending, (entryItems node.row.items).length) t ∧
      t.Shows e ∧ s.Steady t ∧ Visited d e tree node owned := by
  have sound := shows_.disk_sound
  obtain ⟨nodeAt, hangs⟩ := (limbAt_node node).mp limb
  obtain ⟨p, t1, loaded, shows1, steady1, is, clear, bears⟩ := loadPage_run shows_ nodeAt.page
  have mirrors : p.Mirrors d tree node := ⟨is, bears⟩
  have positive := kid_positive hangs.kids
  have perm : (Limb.pages (h + 1) node ++ owned).Perm (node.row.items.flatMap Item.chain ++
      (node.page :: (node.row.kids.flatMap (Limb.pages h) ++ owned))) := by
    refine List.Perm.trans ?_ List.perm_middle.symm
    refine .cons node.page ?_
    rw [← List.append_assoc]
    exact (node.row.gather_perm.trans List.perm_append_comm).append_right owned
  have booksC := books.perm perm
  have chains : node.row.cells.flatMap (fun c => c.2.chain) = node.row.items.flatMap Item.chain :=
    (List.flatMap_map _ _ _).symm
  rw [← chains] at booksC
  have oneMore : 1 ∈ node.page :: (node.row.kids.flatMap (Limb.pages h) ++ owned) := by
    rcases List.mem_cons.mp one with same | other
    · exact same ▸ List.mem_cons_self
    · exact List.mem_cons_of_mem _ (List.mem_append_right _ other)
  obtain ⟨e, t2, run2, shows2, steady2, keeps, booksE, count⟩ := clearCells_run clear
    node.row.cells pending shows1 mirrors List.drop_zero positive
    (fun c member => (hangs.items c.2 (List.mem_map_of_mem member)).chain) booksC oneMore
  have cells := mirrors.count clear
  refine ⟨e, t2, ?_, shows2, steady1.trans steady2, booksE, fun kid member => ?_, keeps, count⟩
  · have collected : (node.row.kids.filterMap (Limb.page? h)).reverse ++ pending =
        (Limb.page? h node.row.last).toList ++
          ((node.row.cells.filterMap fun c => Limb.page? h c.1).reverse ++ pending) := by
      unfold Row.kids
      rw [List.filterMap_append, List.filterMap_map, List.filterMap_cons]
      cases Limb.page? h node.row.last <;> simp
    have ownKind : ¬ p.kind.tree ≠ tree := not_not_intro (is.kind ▸ PageKind.tree_at tree h)
    unfold visit
    rw [Action.bind_of_ok loaded, if_neg ownKind]
    dsimp only
    rw [cells, Action.bind_of_ok run2, mirrors.isLeaf, entryCount_eq mirrors clear fun item member =>
      (hangs.items item member).fits, collected]
    cases h with
    | zero => rfl
    | succ h =>
      have right : Limb.page? (h + 1) node.row.last = some (Node.page node.row.last) := rfl
      have atLast : (node.row.kids.map (Limb.page? (h + 1)))[p.cellCount]? =
          some (some (Node.page node.row.last)) := by
        unfold Row.kids
        rw [cells, List.map_append, List.getElem?_append_right (by simp)]
        simp [right]
      have child := mirrors.child_run clear atLast fun zero => positive node.row.last
        (List.mem_append_right _ (List.mem_singleton_self _)) (congrArg some zero)
      rw [if_neg (by simp), ← cells, child, right]
      rfl
  · exact (hangs.kids kid member).stay shows1.disk_sound shows2.disk_sound keeps (fun _ => booksE.has) fun n inside =>
      List.mem_cons_of_mem _ (List.mem_append_left _ (List.mem_flatMap.mpr ⟨kid, member, inside⟩))

theorem pending_pages (tree : Tree) (rest : List Tree) :
    (((under tree.kind tree.height tree.root.row.kids).reverse ++ rest).flatMap pages).Perm
      (tree.root.row.kids.flatMap (Limb.pages tree.height) ++ rest.flatMap pages) := by
  rw [List.flatMap_append, ← pages_under tree.kind]
  exact ((List.reverse_perm _).flatMap_right _).append_right _

theorem pending_entries (tree : Tree) (rest : List Tree) :
    (entryItems ((tree :: rest).flatMap items)).length = (entryItems tree.root.row.items).length +
      (entryItems (((under tree.kind tree.height tree.root.row.kids).reverse ++ rest).flatMap items)).length := by
  have own : tree.items.Perm (tree.root.row.items ++
      (under tree.kind tree.height tree.root.row.kids).reverse.flatMap items) := by
    have gathered := tree.root.row.gather_perm (f := Limb.items tree.height) (g := fun item => [item])
    rw [List.flatMap_singleton', ← items_under tree.kind] at gathered
    have reversed := (List.reverse_perm (under tree.kind tree.height tree.root.row.kids)).flatMap_right items
    exact (List.Perm.of_eq (Limb.items_node tree.root)).trans
      (gathered.trans (List.perm_append_comm.trans (reversed.symm.append_left _)))
  unfold entryItems
  rw [List.flatMap_cons, List.flatMap_append, ← List.length_append, ← List.filter_append, ← List.append_assoc]
  exact ((own.append_right _).filter _).length_eq

theorem stands_under {kids : List (Limb h)} (stands : ∀ kid ∈ kids, d.LimbAt tree h kid) :
    ∀ b ∈ under tree h kids, b.kind = tree ∧ d.LimbAt tree (b.height + 1) b.root := by
  cases h with
  | zero => exact fun _ => nofun
  | succ h =>
    intro b member
    obtain ⟨kid, among, rfl⟩ := List.mem_map.mp member
    exact ⟨rfl, stands kid among⟩

theorem clearPages_run (root : PageNo) (left removed : Nat) {trees : List Tree} (shows_ : s.Shows d)
    (stands : ∀ b ∈ trees, b.kind = tree ∧ d.LimbAt tree (b.height + 1) b.root)
    (books : d.Books (trees.flatMap pages ++ owned)) (isRoot : root ∈ owned) (one : 1 ∈ owned)
    (enough : (trees.flatMap pages).length ≤ left) :
    ∃ e t, clearPages root tree left (trees.map fun b => b.root.page) removed s =
        .ok (removed + (entryItems (trees.flatMap items)).length) t ∧ t.Shows e ∧ s.Steady t ∧
      Keeps d e (Freelist.Others owned) (Freelist.Others owned) ∧ e.Books owned ∧ e.count = d.count := by
  induction left generalizing s d trees removed with
  | zero =>
    cases trees with
    | nil => exact ⟨d, s, rfl, shows_, .refl s, .refl d, books, rfl⟩
    | cons first rest => exact absurd enough (Nat.not_succ_le_zero _)
  | succ left ih =>
    cases trees with
    | nil => exact ⟨d, s, rfl, shows_, .refl s, .refl d, books, rfl⟩
    | cons first rest =>
      obtain ⟨⟨isKind, limb⟩, stands⟩ := List.forall_mem_cons.mp stands
      rw [List.flatMap_cons, List.append_assoc] at books
      obtain ⟨d1, t1, run1, shows1, steady1, visited⟩ := visit_run root
        (rest.map fun b => b.root.page) shows_ limb books
        (List.mem_cons_of_mem _ (List.mem_append_right _ one))
      obtain ⟨fresh, -⟩ := List.nodup_cons.mp visited.books.nodup
      have apart : ∀ n ∈ owned, first.root.page ≠ n := fun n own same =>
        fresh (List.mem_append_right _ (List.mem_append_right _ (same ▸ own)))
      obtain ⟨d2, t2, run2, shows2, steady2, keeps2, books2, count2⟩ :=
        Freelist.free_run shows1 visited.books (apart 1 one)
      have perm := (pending_pages first rest).append_right owned
      rw [List.append_assoc] at perm
      have stands2 : ∀ b ∈ (under first.kind first.height first.root.row.kids).reverse ++ rest,
          b.kind = tree ∧ d2.LimbAt tree (b.height + 1) b.root := by
        intro b member
        have inside : ∀ n ∈ b.pages, n ∈ first.root.row.kids.flatMap (Limb.pages first.height) ++
            (rest.flatMap pages ++ owned) := fun n own =>
          perm.mem_iff.mp (List.mem_append_left _ (List.mem_flatMap.mpr ⟨b, member, own⟩))
        have here : b.kind = tree ∧ d1.LimbAt tree (b.height + 1) b.root := by
          rcases List.mem_append.mp member with below | later
          · exact stands_under visited.kids b (isKind ▸ List.mem_reverse.mp below)
          · obtain ⟨same, at_⟩ := stands b later
            refine ⟨same, at_.stay shows_.disk_sound shows1.disk_sound visited.frame (fun _ => visited.books.has) ?_⟩
            exact fun n own => List.mem_cons_of_mem _ (inside n own)
        exact ⟨here.1, here.2.stay shows1.disk_sound shows2.disk_sound keeps2 (fun _ => books2.has) inside⟩
      obtain ⟨d3, t3, run3, shows3, steady3, keeps3, books3, count3⟩ := ih
        (removed + (entryItems first.root.row.items).length) shows2 stands2 (books2.perm perm.symm) (by
          have shorter : (first :: rest).flatMap pages =
              first.root.page :: (first.root.row.hanging ++ rest.flatMap pages) := rfl
          have hanging := first.root.row.gather_perm (f := Limb.pages first.height) (g := Item.chain)
          rw [shorter, List.length_cons, List.length_append, Row.hanging, hanging.length_eq,
            List.length_append] at enough
          rw [(pending_pages first rest).length_eq, List.length_append]
          omega)
      refine ⟨d3, t3, ?_, shows3, steady1.trans (steady2.trans steady3), ?_, books3,
        count3.trans (count2.trans visited.count)⟩
      · rw [List.map_cons, clearPages_cons, Action.bind_of_ok run1]
        dsimp only
        rw [if_pos (apart root isRoot), Action.bind_of_ok run2]
        rw [pending_entries, ← Nat.add_assoc, ← run3, List.map_append, List.map_reverse, roots_under]
      · have inner : ∀ n ∈ owned, n ∈ first.root.row.kids.flatMap (Limb.pages first.height) ++
            (rest.flatMap pages ++ owned) := fun n own => List.mem_append_right _ (List.mem_append_right _ own)
        exact (visited.frame.within fun n own => List.mem_cons_of_mem _ (inner n own)).trans
          ((keeps2.within inner).trans keeps3)

def barren (tree : Tree) : Tree := ⟨tree.kind, 0, ⟨tree.root.page, ⟨[], ()⟩⟩⟩

/-- A cleared tree: nothing hangs below its root any more, and what others own is left. -/
structure Cleared (d e : Disk) (tree : Tree) (others : List Nat) : Prop where
  limb : e.LimbAt tree.kind 1 tree.barren.root
  books : e.Books (tree.root.page :: others)
  frame : Keeps d e (Freelist.Others others) (Freelist.Others (tree.root.page :: others))
  count : e.count = d.count

theorem clear_run (tree : Tree) (shows_ : s.Shows d) (limb : d.LimbAt tree.kind (tree.height + 1) tree.root)
    (books : d.Books (tree.pages ++ others)) (one : 1 ∈ tree.root.page :: others) :
    ∃ e t, clear tree.root.page s = .ok (entryItems tree.items).length t ∧ t.Shows e ∧ s.Steady t ∧
      Cleared d e tree others := by
  obtain ⟨p, t1, loaded, shows1, steady1, is, -⟩ := loadPage_run shows_ limb.1
  obtain ⟨has, free⟩ := books.has (List.mem_append_left _ List.mem_cons_self)
  obtain ⟨d2, t2, run2, shows2, steady2, visited⟩ := visit_run tree.root.page [] shows1 limb books one
  obtain ⟨left, isLeft⟩ : ∃ left, d.count = left + 1 :=
    ⟨d.count - 1, (Nat.sub_add_cancel (Nat.le_trans has.1 has.2)).symm⟩
  -- below the root
  have perm : ((under tree.kind tree.height tree.root.row.kids).reverse.flatMap pages).Perm
      (tree.root.row.kids.flatMap (Limb.pages tree.height)) := by
    rw [← pages_under tree.kind]
    exact (List.reverse_perm _).flatMap_right _
  have booksK : d2.Books ((under tree.kind tree.height tree.root.row.kids).reverse.flatMap pages ++
      (tree.root.page :: others)) :=
    visited.books.perm (List.perm_middle.symm.trans (perm.symm.append_right _))
  have stands : ∀ b ∈ (under tree.kind tree.height tree.root.row.kids).reverse,
      b.kind = tree.kind ∧ d2.LimbAt tree.kind (b.height + 1) b.root := fun b member =>
    stands_under visited.kids b (List.mem_reverse.mp member)
  have enough : ((under tree.kind tree.height tree.root.row.kids).reverse.flatMap pages).length ≤ left := by
    have short := Freelist.length_le_count visited.books.nodup fun n inside => (visited.books.has inside).1
    rw [List.length_cons, List.length_append, visited.count, isLeft] at short
    rw [perm.length_eq]
    omega
  obtain ⟨d3, t3, run3, shows3, steady3, keeps3, books3, count3⟩ := clearPages_run tree.root.page left
    (0 + (entryItems tree.root.row.items).length) shows2 stands booksK List.mem_cons_self one enough
  -- the root
  have has3 : d3.Has tree.root.page := (books3.has List.mem_cons_self).1
  have kept : SameImage d d3 tree.root.page := by
    refine (visited.frame.images _ free fun away => away List.mem_cons_self).trans ?_
    refine keeps3.images _ ?_ fun away => away List.mem_cons_self
    exact (visited.frame.alike.isReserved _).trans free
  have at3 := limb.1.of_same (visited.frame.alike.trans keeps3.alike) shows_.disk_sound shows3.disk_sound has3 kept
  obtain ⟨q, t4, loaded4, shows4, steady4, is4, clear4, bears4⟩ := loadPage_run shows3 at3
  obtain ⟨soundQ, sizeQ⟩ := bears4.sound
  obtain ⟨_, r, reset⟩ := Page.reset_runs (.leaf tree.kind) soundQ sizeQ
  obtain ⟨bears, remade⟩ := Page.reset_bears soundQ sizeQ reset
  have isR : r.Of d3 tree.root.page (.leaf tree.kind) := ⟨remade.alike.number.trans is4.number,
    remade.alike.geometry.trans is4.geometry, remade.alike.limits.trans is4.limits, remade.kind⟩
  obtain ⟨data, t5, wrote, shows5, steady5, at5, size, header⟩ := writePage_run shows4 has3 isR remade.parked bears
  obtain ⟨t6, bumped, shows6, steady6⟩ := bumpGeneration_run shows5
  have quiet : Quiet d3 (d3.put tree.root.page data) (· = tree.root.page) fun _ => False :=
    quiet_put shows4.disk_sound (books3.has List.mem_cons_self).2 header
  have steadyAll := steady1.trans (steady2.trans (steady3.trans (steady4.trans (steady5.trans steady6))))
  refine ⟨_, t6, ?_, shows6, steadyAll, ⟨⟨?_, ?_, ?_, ?_⟩, ?_, ?_, count3.trans visited.count⟩⟩
  · have kind : p.kind.tree = tree.kind := is.kind ▸ PageKind.tree_at tree.kind tree.height
    have counted : clearPages tree.root.page tree.kind (left + 1) [tree.root.page] 0 t1 =
        .ok (entryItems tree.items).length t3 := by
      have answer := pending_entries tree []
      rw [List.append_nil, List.flatMap_singleton] at answer
      rw [List.map_reverse, roots_under, Nat.zero_add, ← answer] at run3
      rw [clearPages_cons, Action.bind_of_ok run2]
      dsimp only
      rw [if_neg (not_not_intro rfl), List.append_nil, Nat.zero_add]
      exact run3
    have emptied : Action.applied (Page.reset (.leaf tree.kind)) q = .ok r := Action.applied_ok.mpr reset
    unfold clear
    rw [Action.bind_of_ok loaded, Action.get_bind, shows1.count, isLeft, kind, Action.bind_of_ok counted,
      Action.bind_of_ok loaded4, emptied, Action.lift_ok_bind, Action.bind_of_ok wrote, Action.bind_of_ok bumped]
    rfl
  · have isLeaf : (PageKind.leaf tree.kind).isLeaf = true := by cases tree.kind <;> rfl
    rw [if_pos isLeaf] at at5
    exact at5
  · exact fun _ c member => nomatch member
  · exact fun item member => nomatch member
  · exact fun kid _ => trivial
  · exact books3.of_quiet shows4.disk_sound shows6.disk_sound quiet (fun n same => same ▸ List.mem_cons_self)
      fun _ => False.elim
  · have fresh := (List.nodup_cons.mp books3.nodup).1
    have below : Keeps d d2 (Freelist.Others (tree.root.page :: others))
        (Freelist.Others (tree.root.page :: others)) := visited.frame.within fun n own => by
        rcases List.mem_cons.mp own with rfl | other
        · exact List.mem_cons_self
        · exact List.mem_cons_of_mem _ (List.mem_append_right _ other)
    refine ((below.trans keeps3).mono (fun n away own => ?_) fun _ => id).trans
      (quiet.toKeeps.mono (fun n same own => fresh (same ▸ own)) fun _ => False.elim)
    exact away (List.mem_cons_of_mem _ own)

end Tree

end TreeFile
