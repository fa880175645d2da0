import Mathlib.Data.List.Flatten
import TreeFile.Balance
import TreeFile.Proofs.Tree.Spines

/-!
Balancing goes up from a changed page to the root. Whatever it does on the way, in the end the tree
stands on the disk with the same entries.
-/

namespace TreeFile

open Store PointerMap Disk Siblings

variable {s t : Store} {d e : Disk} {tree : TreeKind} {h H : Nat} {others : List Nat}

structure Rebuilt (d e : Disk) (tree : TreeKind) (others : List Nat) (deep : Prop) (a : Node (Limb h))
    (b : Node (Limb H)) : Prop where
  stands : e.LimbAt tree (H + 1) b
  books : e.Books (Limb.pages (H + 1) b ++ others)
  frame : Keeps d e (Freelist.Others others) (Freelist.Others others)
  grows : d.count ≤ e.count
  reshaped : Reshaped tree deep a b

theorem Rebuilt.mono {deep weaker : Prop} {a : Node (Limb h)} {b : Node (Limb H)}
    (rebuilt : Rebuilt d e tree others deep a b) (less : weaker → deep) : Rebuilt d e tree others weaker a b :=
  ⟨rebuilt.stands, rebuilt.books, rebuilt.frame, rebuilt.grows, rebuilt.reshaped.mono less⟩

/-- The same, as long as the root is changed in memory and yet to be written. -/
structure Reworked (d e : Disk) (tree : TreeKind) (others : List Nat) (deep : Prop) (a : Node (Limb h)) (top : Page)
    (b : Node (Limb H)) : Prop where
  pending : Pending e tree top b
  books : e.Books (Limb.pages (H + 1) b ++ others)
  frame : Keeps d e (Freelist.Others others) (Freelist.Others others)
  grows : d.count ≤ e.count
  reshaped : Reshaped tree deep a b

theorem Reworked.refl {deep : Prop} {p : Page} {node : Node (Limb h)} (pending : Pending d tree p node)
    (books : d.Books (Limb.pages (h + 1) node ++ others)) : Reworked d d tree others deep node p node :=
  ⟨pending, books, .refl d, Nat.le_refl _, .refl tree deep node⟩

namespace Balance

theorem writePending_ok {p : Page} {node : Node (Limb h)} (shows_ : s.Shows d) (pending : Pending d tree p node)
    (books : d.Books (Limb.pages (h + 1) node ++ others)) (run : writePage p s = .ok () t) :
    ∃ e, t.Shows e ∧ s.Steady t ∧ e.LimbAt tree (h + 1) node ∧ e.Books (Limb.pages (h + 1) node ++ others) ∧
      Quiet d e (· = node.page) (fun _ => False) := by
  have owned : node.page ∈ Limb.pages (h + 1) node ++ others := List.mem_append_left _ List.mem_cons_self
  obtain ⟨has, free⟩ := books.has owned
  have clear := writePage_ok run
  obtain ⟨data, u, wrote, showsU, steady, pageAt, size, header⟩ :=
    writePage_run shows_ has pending.mirrors.is clear pending.mirrors.bears
  rw [wrote] at run
  cases run
  have quiet : Quiet d (d.put node.page data) (· = node.page) fun _ => False :=
    quiet_put shows_.disk_sound free header
  have books1 := books.of_quiet shows_.disk_sound showsU.disk_sound quiet (fun n same => same ▸ owned)
    fun _ => False.elim
  have fresh := (List.nodup_cons.mp (List.nodup_append.mp books.nodup).1).1
  refine ⟨_, showsU, steady, (limbAt_node node).mpr ⟨⟨pageAt, ?_⟩, ?_⟩, books1, quiet⟩
  · refine pending.claims.keep quiet.toKeeps fun n inside => ⟨?_, id⟩
    rw [node.row.claims_pages] at inside
    exact (books.has (List.mem_append_left _ (List.mem_cons_of_mem _
      (node.row.hanging_perm.mem_iff.mpr (List.mem_append_left _ inside))))).2
  · refine pending.hangs.keep quiet.toKeeps shows_.disk_sound showsU.disk_sound ?_ fun _ _ => id
    refine spared_of_books books books1 (fun n below => ?_) fun n below same => fresh (same ▸ below)
    exact ⟨List.mem_append_left _ (List.mem_cons_of_mem _ below), List.mem_append_left _ (List.mem_cons_of_mem _ below)⟩

theorem written_ok {deep : Prop} {a : Node (Limb h)} {top : Page} {b : Node (Limb H)} (shows_ : s.Shows e)
    (reworked : Reworked d e tree others deep a top b) (run : writePage top s = .ok () t) :
    ∃ f, t.Shows f ∧ s.Steady t ∧ Rebuilt d f tree others deep a b := by
  obtain ⟨f, showsT, steady, at_, books, quiet⟩ := writePending_ok shows_ reworked.pending reworked.books run
  refine ⟨f, showsT, steady, at_, books, reworked.frame.trans (quiet.toKeeps.mono (fun n same other => ?_)
    fun _ => False.elim), Nat.le_trans reworked.grows (Nat.le_of_eq quiet.count.symm), reworked.reshaped⟩
  exact (List.nodup_append.mp books.nodup).2.2 n (same ▸ List.mem_cons_self) n other rfl

/-- A row hangs below a page, one more page is at hand, and no page is there twice. -/
structure Parted (number page : Nat) (row : Row (Limb h)) (others : List Nat) : Prop where
  fresh : number ∉ page :: (row.hanging ++ others)
  page : page ∉ row.hanging ++ others
  others : ∀ n ∈ row.hanging, n ∉ others
  near : row.near.Nodup
  far : ∀ n ∈ row.far, n ∉ row.near
  low : ∀ n ∈ number :: row.hanging, n ≠ 1

theorem parted {number page : Nat} {row : Row (Limb h)} (once : (number :: (page :: (row.hanging ++ others))).Nodup)
    (one : 1 ∈ page :: others) : Parted number page row others := by
  obtain ⟨fresh, oncePage⟩ := List.nodup_cons.mp once
  obtain ⟨freshPage, onceRest⟩ := List.nodup_cons.mp oncePage
  obtain ⟨onceRow, -, apart⟩ := List.nodup_append.mp onceRest
  obtain ⟨near, -, split⟩ := List.nodup_append.mp (row.hanging_perm.nodup_iff.mp onceRow)
  refine ⟨fresh, freshPage, fun n inside other => apart n inside n other rfl, near, fun n far near =>
    split n near n far rfl, ?_⟩
  rintro n member rfl
  rcases List.mem_cons.mp member with isNumber | inside
  · refine fresh (isNumber ▸ ?_)
    rcases List.mem_cons.mp one with isPage | other
    · exact List.mem_cons.mpr (.inl isPage)
    · exact List.mem_cons_of_mem _ (List.mem_append_right _ other)
  · rcases List.mem_cons.mp one with isPage | other
    · exact freshPage (isPage ▸ List.mem_append_left _ inside)
    · exact apart 1 inside 1 other rfl

theorem Parted.away {number page : Nat} {row : Row (Limb h)} (parted : Parted number page row others) {n : Nat}
    (inside : n ∈ number :: row.hanging) : n ∉ page :: others := by
  intro member
  rcases List.mem_cons.mp inside with rfl | inside
  · rcases List.mem_cons.mp member with isPage | other
    · exact parted.fresh (List.mem_cons.mpr (.inl isPage))
    · exact parted.fresh (List.mem_cons_of_mem _ (List.mem_append_right _ other))
  · rcases List.mem_cons.mp member with rfl | other
    · exact parted.page (List.mem_append_left _ inside)
    · exact parted.others n inside other

theorem near_hanging {row : Row (Limb h)} {n : Nat} (near : n ∈ row.near) : n ∈ row.hanging :=
  row.hanging_perm.mem_iff.mpr (List.mem_append_left _ near)

theorem far_hanging {row : Row (Limb h)} {n : Nat} (far : n ∈ row.far) : n ∈ row.hanging :=
  row.hanging_perm.mem_iff.mpr (List.mem_append_right _ far)

theorem hanging_owned {number page : Nat} {row : Row (Limb h)} {n : Nat} (inside : n ∈ row.hanging) :
    n ∈ number :: (page :: (row.hanging ++ others)) :=
  List.mem_cons_of_mem _ (List.mem_cons_of_mem _ (List.mem_append_left _ inside))

theorem held_part {limits : PayloadLimits} {kind : PageKind} {cells some_ : List Bytes} {row : Row (Limb h)}
    (held : Held limits kind cells (row.slots limits tree)) (sub : some_.Sublist cells) :
    ∃ part, part.Sublist row.cells ∧
      Held limits kind some_ ((⟨part, row.last⟩ : Row (Limb h)).slots limits tree) := by
  have mapped := sub.map (Cell.slot? limits kind)
  rw [show cells.map (Cell.slot? limits kind) = _ from held] at mapped
  unfold Row.slots at mapped
  rw [List.map_map] at mapped
  obtain ⟨part, sublist, same⟩ := List.sublist_map_iff.mp mapped
  refine ⟨part, sublist, ?_⟩
  unfold Held Row.slots
  rw [List.map_map]
  exact same

theorem near_part {row : Row (Limb h)} {part : List (Limb h × Item)} (sub : part.Sublist row.cells) :
    ((⟨part, row.last⟩ : Row (Limb h)).near).Sublist row.near :=
  (sub.flatMap _).append (.refl _)

theorem claim_run {p : Page} {number page self : Nat} {row : Row (Limb h)} {part : List (Limb h × Item)}
    (shows_ : s.Shows d) (books : d.Books (number :: (page :: (row.hanging ++ others))))
    (parted : Parted number page row others) (sub : part.Sublist row.cells)
    (mirrors : p.Mirrors d tree ⟨self, ⟨part, row.last⟩⟩) (clear : p.parked = [])
    (among : self = number ∨ self = page) (hangs : d.Hangs tree row) :
    ∃ e t, putForPage p s = .ok () t ∧ t.Shows e ∧ s.Steady t ∧ Quiet d e (fun _ => False) (· ∈ row.near) ∧
      e.Mapped (Row.claims self ⟨part, row.last⟩) ∧ e.Books (number :: (page :: (row.hanging ++ others))) ∧
      e.Hangs tree row := by
  have some_ := near_part sub
  have has : self ∈ number :: (page :: (row.hanging ++ others)) := by
    rcases among with rfl | rfl
    · exact List.mem_cons_self
    · exact List.mem_cons_of_mem _ List.mem_cons_self
  obtain ⟨e, t, run, showsT, steady, quiet, mapped⟩ := putForPage_run shows_ mirrors clear
    (fun n inside => books.described (hanging_owned (near_hanging (some_.subset inside)))
      (parted.low n (List.mem_cons_of_mem _ (near_hanging (some_.subset inside)))))
    (some_.nodup parted.near) (shows_.disk_sound.has_lt (books.has has).1)
  have quiet := quiet.mono (fun _ => id) fun n inside => some_.subset inside
  have booksT := books.of_quiet shows_.disk_sound showsT.disk_sound quiet (fun _ => False.elim) fun n inside =>
    hanging_owned (near_hanging inside)
  refine ⟨e, t, run, showsT, steady, quiet, mapped, booksT, hangs.keep quiet.toKeeps shows_.disk_sound
    showsT.disk_sound ?_ parted.far⟩
  exact spared_of_books books booksT (fun n inside => ⟨hanging_owned inside, hanging_owned inside⟩) fun _ _ => id

theorem fits_nil (p : Page) (kind : PageKind) : p.fits [] kind = true := by
  rw [Page.fits_eq]
  exact ⟨Nat.zero_le _, Nat.zero_le _⟩

theorem absorbChild_ok {root : Page} {page : Nat} {kid : Node (Limb h)} {result : Option Page}
    (shows_ : s.Shows d) (pending : Pending (h := h + 1) d tree root ⟨page, ⟨[], kid⟩⟩) (clear : root.parked = [])
    (books : d.Books (Limb.pages (h + 2) (⟨page, ⟨[], kid⟩⟩ : Node (Node (Limb h))) ++ others))
    (one : 1 ∈ page :: others) (run : absorbChild root s = .ok result t) :
    (∃ top e, result = some top ∧ t.Shows e ∧ s.Steady t ∧ Pending e tree top ⟨page, kid.row⟩ ∧ top.parked = [] ∧
        e.Books (Limb.pages (h + 1) (⟨page, kid.row⟩ : Node (Limb h)) ++ others) ∧
        Keeps d e (Freelist.Others others) (Freelist.Others others) ∧ e.count = d.count) ∨
      result = none ∧ t.Shows d ∧ s.Steady t ∧ kid.row.cells ≠ [] := by
  unfold absorbChild at run
  obtain ⟨number, isNumber, run⟩ := Action.lift_bind_ok.mp run
  obtain ⟨child, u, loaded, run⟩ := Action.bind_ok.mp run
  obtain ⟨cells, isCells, run⟩ := Action.lift_bind_ok.mp run
  obtain ⟨-, isPage⟩ := pending.mirrors.child clear isNumber
  have sameNumber : kid.page = number := Option.some.inj isPage
  have at_ := pending.hangs.kids kid (List.mem_singleton_self _)
  obtain ⟨nodeAt, hangs⟩ := (limbAt_node kid).mp at_
  rw [← sameNumber] at loaded
  obtain ⟨showsU, steadyU, mirrors, clearKid⟩ := loadPage_mirrors shows_ nodeAt loaded
  obtain ⟨found, isFound, held⟩ := mirrors.bears.logicalCells
  rw [isCells] at isFound
  cases isFound
  by_cases fits : root.fits cells child.kind = true
  · rw [if_pos fits] at run
    obtain ⟨top, rebuilt, run⟩ := Action.lift_bind_ok.mp run
    obtain ⟨⟨⟩, v, put, run⟩ := Action.bind_ok.mp run
    obtain ⟨⟨⟩, w, freed, run⟩ := Action.bind_ok.mp run
    obtain ⟨rfl, rfl⟩ := Action.pure_ok.mp run
    obtain ⟨sound, size⟩ := pending.mirrors.bears.sound
    have sameRight : child.header.rightChild = kid.row.right := mirrors.bears.right
    have small : (child.header.rightChild).getD 0 < 4294967296 := by
      cases right : child.header.rightChild with
      | none => exact Nat.zero_lt_succ _
      | some number => exact mirrors.bears.right_lt (sameRight.symm.trans right)
    rw [mirrors.is.limits, ← pending.mirrors.is.limits] at held
    obtain ⟨bears, remade, -⟩ := Page.rebuild_bears sound size held small (Action.applied_ok.mp rebuilt)
    have right : (if child.kind.isLeaf then none else some (child.header.rightChild.getD 0)) = kid.row.right := by
      rw [mirrors.is.kind, sameRight]
      cases h <;> cases tree <;> rfl
    rw [right, pending.mirrors.is.limits] at bears
    have is := pending.mirrors.is
    have topMirrors : top.Mirrors d tree ⟨page, kid.row⟩ :=
      ⟨⟨remade.alike.number.trans is.number, remade.alike.geometry.trans is.geometry,
        remade.alike.limits.trans is.limits, remade.kind.trans mirrors.is.kind⟩, bears⟩
    have moved : d.Books (kid.page :: (page :: (kid.row.hanging ++ others))) :=
      books.perm (.swap kid.page page (kid.row.hanging ++ others))
    have parted := parted moved.nodup one
    obtain ⟨e1, v', put', shows1, steady1, quiet1, mapped1, books1, hangs1⟩ := claim_run showsU moved parted
      (.refl _) topMirrors remade.parked (.inr rfl) hangs
    rw [put'] at put
    cases put
    rw [mirrors.is.number] at freed
    obtain ⟨e2, w', freed', shows2, steady2, keeps2, books2, count2⟩ :=
      Freelist.free_run shows1 books1 (parted.low _ List.mem_cons_self)
    rw [freed'] at freed
    cases freed
    have stays : ∀ n ∈ kid.row.hanging, n ∈ page :: (kid.row.hanging ++ others) := fun n inside =>
      List.mem_cons_of_mem _ (List.mem_append_left _ inside)
    have hangs2 : e2.Hangs tree kid.row := by
      refine hangs1.keep keeps2 shows1.disk_sound shows2.disk_sound ?_ fun n far away =>
        away (stays n (far_hanging far))
      exact spared_of_books books1 books2 (fun n inside => ⟨hanging_owned inside, stays n inside⟩) fun n inside away =>
        away (stays n inside)
    refine .inl ⟨top, e2, rfl, shows2, steadyU.trans (steady1.trans steady2),
      ⟨(topMirrors.alike quiet1.alike).alike keeps2.alike, fun parked => absurd remade.parked parked, hangs2, ?_⟩,
      remade.parked, books2, ?_, count2.trans quiet1.count⟩
    · refine mapped1.keep keeps2 fun n inside => ?_
      rw [kid.row.claims_pages] at inside
      exact ⟨(books1.has (hanging_owned (near_hanging inside))).2, fun away => away (stays n (near_hanging inside))⟩
    · refine (quiet1.toKeeps.mono (fun _ => False.elim) fun n near other => ?_).trans (keeps2.mono ?_ ?_)
      · exact parted.others n (near_hanging near) other
      · exact fun n away other => away (List.mem_cons_of_mem _ (List.mem_append_right _ other))
      · exact fun n away other => away (List.mem_cons_of_mem _ (List.mem_append_right _ other))
  · rw [if_neg fits] at run
    obtain ⟨rfl, rfl⟩ := Action.pure_ok.mp run
    refine .inr ⟨rfl, showsU, steadyU, fun nothing => fits ?_⟩
    have none_ : cells = [] := by
      refine List.eq_nil_of_length_eq_zero (held.length.trans ?_)
      rw [Page.Mirrors.length_slots, nothing]
      rfl
    rw [none_]
    exact fits_nil _ _

/-- Only the root of a tree may be without cells, or also its child, if this is all there is below it. -/
def Crowned (lax : Bool) (node : Node (Limb h)) : Prop :=
  node.row.Full lax ∨ node.row.cells = [] ∧ ∀ kid ∈ node.row.kids, Limb.FullBelow lax h kid

theorem collapse_ok (left : Nat) {root top : Page} {node : Node (Limb h)} (shows_ : s.Shows d)
    (pending : Pending d tree root node) (clear : root.parked = [])
    (books : d.Books (Limb.pages (h + 1) node ++ others)) (one : 1 ∈ node.page :: others)
    (run : collapse left root s = .ok top t) :
    ∃ (H : Nat) (T : Node (Limb H)) (e : Disk), t.Shows e ∧ s.Steady t ∧ top.parked = [] ∧
      Reworked d e tree others True node top T ∧
      ∀ lax, node.row.Full lax ∨ 0 < left ∧ Crowned lax node → T.row.Full lax := by
  induction left generalizing h node root s d with
  | zero =>
    obtain ⟨rfl, rfl⟩ := Action.pure_ok.mp run
    exact ⟨h, node, d, shows_, .refl _, clear, .refl pending books, fun lax full =>
      full.resolve_right fun more => absurd more.1 (Nat.lt_irrefl 0)⟩
  | succ left ih =>
    unfold collapse at run
    have leaf := pending.mirrors.isLeaf
    have count := pending.mirrors.count clear
    by_cases stop : (root.isLeaf || decide (root.cellCount ≠ 0)) = true
    · rw [if_pos stop] at run
      obtain ⟨rfl, rfl⟩ := Action.pure_ok.mp run
      refine ⟨h, node, d, shows_, .refl _, clear, .refl pending books, fun lax full => ?_⟩
      rcases full with full | ⟨-, full | ⟨empty, -⟩⟩
      · exact full
      · exact full
      · cases h with
        | zero => exact fun _ _ => trivial
        | succ h =>
          rw [leaf, count, empty] at stop
          exact absurd stop (by simp)
    · rw [if_neg stop] at run
      cases h with
      | zero =>
        rw [leaf] at stop
        exact absurd rfl stop
      | succ h =>
        obtain ⟨page, ⟨cells, kid⟩⟩ := node
        have empty : cells = [] := by
          simp only [Bool.or_eq_true, decide_eq_true_eq, not_or, Decidable.not_not] at stop
          exact List.eq_nil_of_length_eq_zero (count.symm.trans stop.2)
        subst empty
        obtain ⟨result, u, absorbed, run⟩ := Action.bind_ok.mp run
        rcases absorbChild_ok (h := h) shows_ pending clear books one absorbed with
          ⟨next, e, rfl, showsU, steady, pendingE, clearNext, booksE, frame, same⟩ | ⟨rfl, showsU, steady, some_⟩
        · dsimp only at run
          obtain ⟨H, T, f, showsT, steadyT, clearTop, reworked, fullT⟩ := ih showsU pendingE clearNext booksE one run
          refine ⟨H, T, f, showsT, steady.trans steadyT, clearTop, ⟨reworked.pending, reworked.books,
            frame.trans reworked.frame, same ▸ reworked.grows, (Reshaped.absorbed page kid).trans reworked.reshaped⟩,
            fun lax full => fullT lax (.inl ?_)⟩
          rcases full with full | ⟨-, full | ⟨-, below⟩⟩
          · exact (Limb.full_node.mp (full kid (List.mem_singleton_self _))).2
          · exact (Limb.full_node.mp (full kid (List.mem_singleton_self _))).2
          · exact below kid (List.mem_singleton_self _)
        · dsimp only at run
          obtain ⟨rfl, rfl⟩ := Action.pure_ok.mp run
          refine ⟨h + 1, ⟨page, ⟨[], kid⟩⟩, d, showsU, steady, clear, .refl pending books, fun lax full => ?_⟩
          rcases full with full | ⟨-, full | ⟨-, below⟩⟩
          · exact full
          · exact full
          · intro other member
            rw [List.mem_singleton.mp member]
            exact Limb.full_node.mpr ⟨.inr some_, below kid (List.mem_singleton_self _)⟩

theorem child_ok {root child : Page} {node : Node (Limb h)} {number : Nat} {cells : List Bytes}
    (shows_ : s.Shows d) (mirrors : root.Mirrors d tree node) (placed : root.placedCells = .ok cells)
    (run : build number root.kind cells root.header.rightChild s = .ok child t) :
    t = s ∧ Page.Mirrors { child with parked := root.parked } d tree ⟨number, node.row⟩ ∧ child.parked = [] ∧
      ∃ part, part.Sublist node.row.cells ∧ child.Mirrors d tree ⟨number, ⟨part, node.row.last⟩⟩ := by
  obtain ⟨rfl, blank, sameNumber, geometry, limits, size, filled⟩ := build_blank shows_ run
  have sound : blank.geometry.Sound := geometry ▸ shows_.disk_sound.geometry number
  obtain ⟨laid, blocks, all, tidy, unparked, held⟩ := mirrors.bears.layout
  rw [tidy.placedCells] at placed
  cases placed
  rw [mirrors.is.limits, mirrors.is.kind] at held
  rw [mirrors.is.kind] at filled
  obtain ⟨part, sub, heldPart⟩ := held_part held (Page.unpark_sublist unparked).1
  have sameRight : root.header.rightChild = node.row.right := mirrors.bears.right
  have small : (root.header.rightChild).getD 0 < 4294967296 := by
    cases right : root.header.rightChild with
    | none => exact Nat.zero_lt_succ _
    | some number => exact mirrors.bears.right_lt (sameRight.symm.trans right)
  rw [← limits] at heldPart held
  obtain ⟨placed, tidyChild, sameCells, remade, right, -⟩ :=
    Page.rebuild_ok sound size heldPart.reads heldPart.wide small filled
  rw [← sameCells] at heldPart unparked
  have rightNode : child.header.rightChild = node.row.right := by
    rw [right, sameRight]
    cases h <;> cases tree <;> rfl
  have sameLimits : child.limits = blank.limits := remade.alike.limits
  rw [← sameLimits, ← remade.kind] at heldPart held
  have is : child.Of d number (.at tree h) := ⟨remade.alike.number.trans sameNumber,
    remade.alike.geometry.trans geometry, sameLimits.trans limits, remade.kind⟩
  refine ⟨rfl, ⟨⟨is.number, is.geometry, is.limits, is.kind⟩, ⟨placed, [], all, ?_, unparked, ?_⟩, rightNode⟩,
    remade.parked, part, sub, is, ?_⟩
  · exact tidyChild.carry rfl rfl rfl rfl rfl rfl rfl rfl rfl tidyChild.area.header fun _ _ => rfl
  · rw [is.limits] at held ⊢
    exact held
  · rw [is.limits] at heldPart
    exact Page.bears_of_placed tidyChild remade.parked (is.limits.symm ▸ heldPart) rightNode

theorem stripped_ok {root top : Page} {node : Node (Limb h)} (kid : Node (Limb h))
    (mirrors : root.Mirrors d tree node) (small : kid.page < 4294967296)
    (run : Action.applied (do
      Page.reset (.interior root.kind.tree)
      Page.setRightChild kid.page) root = .ok top) :
    top.Mirrors (h := h + 1) d tree ⟨node.page, ⟨[], kid⟩⟩ ∧ top.parked = [] := by
  obtain ⟨sound, size⟩ := mirrors.bears.sound
  obtain ⟨⟨⟩, r, reset, run⟩ := Action.bind_ok.mp (Action.applied_ok.mp run)
  rw [mirrors.is.kind, PageKind.tree_at] at reset
  obtain ⟨bears, remade⟩ := Page.reset_bears sound size reset
  obtain ⟨bearsTop, alike, kind, parked⟩ := Page.setRightChild_bears bears small run
  exact ⟨⟨(⟨(alike.number.trans remade.alike.number).trans mirrors.is.number,
    (alike.geometry.trans remade.alike.geometry).trans mirrors.is.geometry,
    (alike.limits.trans remade.alike.limits).trans mirrors.is.limits, kind.trans remade.kind⟩), bearsTop⟩,
    parked.trans remade.parked⟩

theorem deepen_ok {root child top : Page} {node : Node (Limb h)} (shows_ : s.Shows d)
    (pending : Pending d tree root node) (books : d.Books (Limb.pages (h + 1) node ++ others))
    (one : 1 ∈ node.page :: others) (run : deepen root s = .ok (child, top) t) :
    ∃ number e, t.Shows e ∧ s.Steady t ∧ child.parked = root.parked ∧
      Family e tree top 0 child node.page ⟨[], ⟨number, node.row⟩⟩ ∧
      e.Books (Row.hanging (h := h + 1) ⟨[], ⟨number, node.row⟩⟩ ++ node.page :: others) ∧
      Keeps d e (Freelist.Others (node.page :: others)) (Freelist.Others (node.page :: others)) ∧
      d.count ≤ e.count := by
  obtain ⟨number, s1, taken, run⟩ := Action.bind_ok.mp run
  obtain ⟨cells, s2, placed, run⟩ := Action.bind_ok.mp run
  obtain ⟨isCells, rfl⟩ := Action.lift_ok.mp placed
  obtain ⟨bare, s3, built, run⟩ := Action.bind_ok.mp run
  obtain ⟨top', stripped, run⟩ := Action.lift_bind_ok.mp run
  obtain ⟨⟨⟩, s4, put, run⟩ := Action.bind_ok.mp run
  obtain ⟨⟨⟩, s5, claimed, run⟩ := Action.bind_ok.mp run
  obtain ⟨same, rfl⟩ := Action.pure_ok.mp run
  cases same
  obtain ⟨d1, shows1, steady1, keeps1, books1, grows⟩ := Freelist.allocate_ok shows_ books taken
  have books1 : d1.Books (number :: (node.page :: (node.row.hanging ++ others))) := books1
  have parted := parted books1.nodup one
  have mirrors1 := pending.mirrors.alike keeps1.alike
  obtain ⟨rfl, focus, clear, part, sub, mirrorsBare⟩ := child_ok shows1 mirrors1 isCells built
  have small : number < 4294967296 := shows1.disk_sound.has_lt (books1.has List.mem_cons_self).1
  obtain ⟨above, clearTop⟩ := stripped_ok ⟨number, node.row⟩ mirrors1 small stripped
  have isTop : top.number = node.page := above.is.number
  rw [isTop] at put
  have pageOwned : node.page ∈ number :: (node.page :: (node.row.hanging ++ others)) :=
    List.mem_cons_of_mem _ List.mem_cons_self
  obtain ⟨d2, s4', put', shows2, steady2, quiet2, entry2⟩ := put_run shows1 (e := ⟨.treeNode, node.page⟩)
    (books1.described List.mem_cons_self (parted.low _ List.mem_cons_self))
    (shows1.disk_sound.has_lt (books1.has pageOwned).1)
  rw [put'] at put
  cases put
  have books2 := books1.of_quiet shows1.disk_sound shows2.disk_sound quiet2 (fun _ => False.elim)
    fun n same => same ▸ List.mem_cons_self
  have hangs1 : d1.Hangs tree node.row := by
    refine pending.hangs.keep keeps1 shows_.disk_sound shows1.disk_sound ?_ fun _ _ => id
    have owned : ∀ n ∈ node.row.hanging, n ∈ Limb.pages (h + 1) node ++ others := fun n inside =>
      List.mem_append_left _ (List.mem_cons_of_mem _ inside)
    exact spared_of_books books books1 (fun n inside => ⟨owned n inside, hanging_owned inside⟩) fun n inside away =>
      away (owned n inside)
  have hangs2 : d2.Hangs tree node.row := by
    refine hangs1.keep quiet2.toKeeps shows1.disk_sound shows2.disk_sound ?_ fun n far isNumber => ?_
    · exact spared_of_books books1 books2 (fun n inside => ⟨hanging_owned inside, hanging_owned inside⟩) fun _ _ => id
    · exact parted.fresh (isNumber ▸ List.mem_cons_of_mem _ (List.mem_append_left _ (far_hanging far)))
  obtain ⟨d3, s5', claimed', shows3, steady3, quiet3, -, books3, hangs3⟩ := claim_run shows2 books2 parted sub
    (mirrorsBare.alike quiet2.alike) clear (.inl rfl) hangs2
  -- What is parked on a page has no part in its claims.
  have claimed : putForPage bare s4 = .ok () s5 := claimed
  rw [claimed'] at claimed
  cases claimed
  have claims3 : d3.Mapped [(number, ⟨.treeNode, node.page⟩)] := by
    have claims2 : d2.Mapped [(number, ⟨.treeNode, node.page⟩)] :=
      mapped_cons.mpr ⟨fun mapped => entry2 (quiet2.alike.mapped.symm.trans mapped), mapped_nil⟩
    refine claims2.keep quiet3.toKeeps fun n same => ?_
    rw [List.mem_singleton.mp same]
    exact ⟨(books2.has List.mem_cons_self).2, fun near =>
      parted.fresh (List.mem_cons_of_mem _ (List.mem_append_left _ (near_hanging near)))⟩
  have later : Keeps d1 d3 (fun _ => False) (· ∈ number :: node.row.hanging) :=
    (quiet2.toKeeps.mono (fun _ => id) fun n same => same ▸ List.mem_cons_self).trans
      (quiet3.toKeeps.mono (fun _ => id) fun n inside => List.mem_cons_of_mem _ (near_hanging inside))
  refine ⟨number, d3, shows3, steady1.trans (steady2.trans steady3), rfl, ⟨above.alike later.alike, clearTop,
    focus.alike later.alike, fun i inside other => absurd (Nat.le_zero.mp inside) other, fun kid member => ?_,
    nofun, claims3⟩, ?_, ?_, ?_⟩
  · rw [List.mem_singleton.mp member]
    exact hangs3
  · exact books3.perm (.cons _ List.perm_middle.symm)
  · refine (keeps1.mono (fun n away other => ?_) fun _ => False.elim).trans
      (later.mono (fun _ => False.elim) fun n inside => parted.away inside)
    rcases List.mem_cons.mp other with rfl | other
    · exact away (List.mem_append_left _ List.mem_cons_self)
    · exact away (List.mem_append_right _ other)
  · rw [quiet3.count, quiet2.count]
    exact grows

section Siblings

variable {parent page q : Page} {index number : Nat} {row row' : Row (Node (Limb h))}

theorem balanced_reshaped (family : Family d tree parent index page number row)
    (balanced : Balanced d e tree index page q number row row' others) :
    Reshaped (h := h + 1) (H := h + 1) tree (h ≠ 0) ⟨number, row⟩ ⟨number, row'⟩ := by
  obtain ⟨first, last, list, relaid, rfl, -⟩ := balanced.relaid
  refine ⟨rfl, ?_, fun inner α leaf item => ?_⟩
  · refine relaid.regrouped (fun none_ node among item own => ?_) (fun none_ item among => ?_) number
    · have leaf : h = 0 := (keeps_eq_false.mp none_).2
      have divides := ((family.hangs node among).items item own).fits.divides
      exact Bool.eq_false_iff.mpr fun divider => (divides.mp divider).2 leaf
    · exact (family.items item among).fits.divides.mpr ⟨(keeps_eq_false.mp none_).1, Nat.succ_ne_zero h⟩
  · have keep : keeps tree h = true := Bool.not_eq_false _ ▸ fun none_ => inner (keeps_eq_false.mp none_).2
    cases h with
    | zero => exact absurd rfl inner
    | succ k =>
      rw [keep] at relaid ⊢
      exact relaid.gather (f := Limb.scan leaf item (k + 1)) (g := item)

/-- If only the root was without cells, or a page that had to be balanced, then only the root is. -/
theorem balanced_full {lax : Bool} (balanced : Balanced d e tree index page q number row row' others)
    (below : ∀ node ∈ row.kids, node.row.Full lax)
    (around : ∀ i, i ≤ row.cells.length → i ≠ index → Limb.Full lax (h + 1) (row.kid i))
    (strict : lax = true → tree = .index) :
    Row.Full (h := h + 1) lax row' ∨ row.cells = [] ∧ row'.cells = [] ∧
      ∀ kid ∈ row'.kids, Limb.FullBelow lax (h + 1) kid := by
  obtain ⟨first, last, list, relaid, rfl, -⟩ := balanced.relaid
  by_cases some_ : ((row.window first last).flatten (keeps tree h)).cells = []
  · refine .inr ?_
    have none_ : row.cells = [] := by
      by_contra cells
      refine relaid.some_cells (.inr ⟨cells, ?_⟩) some_
      by_cases keep : keeps tree h = true
      · exact .inl keep
      · refine .inr fun i inside other => (Limb.full_node.mp (around i inside other)).1.resolve_left fun isLax => ?_
        have table := (keeps_eq_false.mp (Bool.eq_false_iff.mpr keep)).1
        rw [strict isLax.1] at table
        cases table
    refine ⟨none_, ?_, fun kid member => relaid.full_below below member⟩
    have length := relaid.length
    rw [relaid.single some_, none_] at length
    exact List.eq_nil_of_length_eq_zero (by simp only [List.length_nil] at length; omega)
  · exact .inl (relaid.full below around some_)

theorem balanced_cells (balanced : Balanced d e tree index page q number row row' others) (full : page.Overfull) :
    row'.cells ≠ [] := by
  obtain ⟨first, last, list, relaid, rfl, several⟩ := balanced.relaid
  have length := relaid.length
  have inside := relaid.inside
  have two := several full
  intro nothing
  rw [nothing] at length
  simp only [List.length_nil] at length
  omega

end Siblings

theorem settled_ok {root : Page} {node : Node (Limb h)} (shows_ : s.Shows d) (pending : Pending d tree root node)
    (books : d.Books (Limb.pages (h + 1) node ++ others)) (one : 1 ∈ node.page :: others)
    (clear : ¬ root.hasParked = true)
    (run : (do
      let s ← get
      writePage (← collapse (s.usableSize + s.pageCount) root)) s = .ok () t) :
    ∃ (H : Nat) (T : Node (Limb H)) (e : Disk), t.Shows e ∧ s.Steady t ∧ Rebuilt d e tree others (h ≠ 0) node T ∧
      ∀ lax, Crowned lax node → T.row.Full lax := by
  rw [Action.get_bind] at run
  obtain ⟨top, u, collapsed, run⟩ := Action.bind_ok.mp run
  obtain ⟨H, T, e, showsU, steadyU, clearTop, reworked, full⟩ :=
    collapse_ok _ shows_ pending (by simpa [Page.hasParked] using clear) books one collapsed
  obtain ⟨f, showsT, steadyT, rebuilt⟩ := written_ok showsU reworked run
  refine ⟨H, T, f, showsT, steadyU.trans steadyT, rebuilt.mono fun _ => trivial, fun lax crowned =>
    full lax (.inr ⟨?_, crowned⟩)⟩
  have usable := shows_.disk_sound.usable_bounds
  rw [shows_.usableSize]
  omega

theorem settleRoot_ok (left : Nat) {root : Page} {node : Node (Limb h)} (shows_ : s.Shows d)
    (pending : Pending d tree root node) (books : d.Books (Limb.pages (h + 1) node ++ others))
    (one : 1 ∈ node.page :: others) (run : settleRoot left root s = .ok () t) :
    ∃ (H : Nat) (T : Node (Limb H)) (e : Disk), t.Shows e ∧ s.Steady t ∧ Rebuilt d e tree others (h ≠ 0) node T ∧
      ∀ lax, (lax = true → tree = .index) → Crowned lax node → T.row.Full lax := by
  induction left generalizing h node root s d with
  | zero =>
    unfold settleRoot at run
    by_cases parked : root.hasParked = true
    · rw [if_pos parked] at run
      cases run
    · rw [if_neg parked] at run
      obtain ⟨H, T, e, showsT, steady, rebuilt, full⟩ := settled_ok shows_ pending books one parked run
      exact ⟨H, T, e, showsT, steady, rebuilt, fun lax _ => full lax⟩
  | succ left ih =>
    unfold settleRoot at run
    by_cases parked : root.hasParked = true
    · rw [if_pos parked] at run
      obtain ⟨⟨child, top⟩, u, deepened, run⟩ := Action.bind_ok.mp run
      obtain ⟨q, v, balanced, run⟩ := Action.bind_ok.mp run
      obtain ⟨number, d1, shows1, steady1, parkedChild, family, books1, frame1, grows1⟩ :=
        deepen_ok shows_ pending books one deepened
      obtain ⟨row', d2, shows2, steady2, balanced⟩ := Siblings.balance_ok shows1 family books1 one List.mem_cons_self
        balanced
      have books2 : d2.Books (Limb.pages (h + 2) (⟨node.page, row'⟩ : Node (Node (Limb h))) ++ others) :=
        balanced.books.perm List.perm_middle
      obtain ⟨H, T, e, showsT, steady3, rebuilt, full⟩ := ih (h := h + 1) shows2 balanced.pending books2 one run
      refine ⟨H, T, e, showsT, steady1.trans (steady2.trans steady3), ⟨rebuilt.stands, rebuilt.books, ?_,
        Nat.le_trans grows1 (Nat.le_trans balanced.grows rebuilt.grows), ?_⟩, fun lax strict crowned => ?_⟩
      · have wider : ∀ n ∈ others, n ∈ node.page :: others := fun n => List.mem_cons_of_mem _
        exact (frame1.within wider).trans ((balanced.frame.within wider).trans rebuilt.frame)
      · exact ((Reshaped.deepened node.page ⟨number, node.row⟩).trans (balanced_reshaped family balanced)).trans
          (rebuilt.reshaped.mono fun _ => Nat.succ_ne_zero h)
      · have some_ : node.row.cells ≠ [] := fun nothing => by
          have count := pending.mirrors.logicalCount
          rw [nothing] at count
          simp only [Page.logicalCount, List.length_nil] at count
          have none_ : root.parked = [] := List.eq_nil_of_length_eq_zero (by omega)
          simp [Page.hasParked, none_] at parked
        have below := crowned.resolve_right fun empty => some_ empty.1
        refine full lax strict ((balanced_full balanced (fun kid member => ?_) (fun i inside other => ?_) strict).imp_right
          And.right)
        · rw [List.mem_singleton.mp member]
          exact below
        · exact absurd (Nat.le_zero.mp inside) other
    · rw [if_neg parked] at run
      obtain ⟨H, T, e, showsT, steady, rebuilt, full⟩ := settled_ok shows_ pending books one parked run
      exact ⟨H, T, e, showsT, steady, rebuilt, fun lax _ => full lax⟩

/-- Nothing in a tree is without cells, except for the root and for a page that is still to be balanced. -/
structure NoEmptyPages (lax afterDelete : Bool) (tree : TreeKind) (spine : Spine h H) (node : Node (Limb h)) : Prop where
  strict : lax = true → tree = .index
  around : spine.Full lax
  below : node.row.Full lax ∨ h = H ∧ Crowned lax node
  some_ : node.row.cells = [] → afterDelete = true ∨ h = H ∨ lax = true ∧ h = 0

section Climb

variable {afterDelete : Bool} {page : Page} {node : Node (Limb h)} {spine : Spine h H} {frames : List Frame}

theorem NoEmptyPages.parent {lax : Bool} {p q : Page} {number index : Nat} {row row' : Row (Node (Limb h))}
    {above : Spine (h + 1) H} (dense : NoEmptyPages lax afterDelete tree (.under number row index above) node)
    (needed : needsBalance p afterDelete = true) (full : p.parked ≠ [] → p.Overfull)
    (balanced : Balanced d e tree index p q number (row.setKid index node) row' others) :
    NoEmptyPages lax afterDelete tree above ⟨number, row'⟩ := by
  obtain ⟨some_, inside, around, fullAbove⟩ := dense.around
  have less : h ≠ H := by
    have more := above.le
    omega
  have below : node.row.Full lax := dense.below.resolve_right fun top => less top.1
  have length := row.length_setKid index node
  have result := balanced_full balanced (fun kid member => ?_) (fun i bound other => ?_) dense.strict
  · refine ⟨dense.strict, fullAbove, ?_, fun nothing => ?_⟩
    · rcases result with fullRow | ⟨none_, empty, kids⟩
      · exact .inl fullRow
      · have isTop := some_.resolve_right fun cells => cells (List.eq_nil_of_length_eq_zero (by rw [← length, none_]; rfl))
        exact .inr ⟨isTop, .inr ⟨empty, kids⟩⟩
    · unfold needsBalance at needed
      by_cases parked : p.parked = []
      · refine .inl ?_
        simp only [Page.hasParked, parked, List.isEmpty_nil, Bool.not_true, Bool.false_or, Bool.and_eq_true] at needed
        exact needed.1
      · exact absurd nothing (balanced_cells balanced (full parked))
  · rcases Row.mem_kids_setKid inside member with rfl | ⟨i, bound, other, rfl⟩
    · exact below
    · exact (Limb.full_node.mp (around i bound other)).2
  · rw [length] at bound
    rw [Row.kid_setKid_other inside bound other]
    exact around i bound other

/-- Balancing a page on the way up leaves its parent changed in memory, at the end of the rest of the path. -/
theorem rise_ok {q : Page} {number : Nat} {row : Row (Node (Limb h))} {frame : Frame} {above : Spine (h + 1) H}
    (shows_ : s.Shows d) (pending : Pending d tree page node)
    (level : d.Level tree node.page frame number row) (rest : d.Stands tree number above frames)
    (books : d.Books (Limb.pages (h + 1) node ++ ((Spine.under number row frame.index above).pages ++ others)))
    (one : 1 ∈ above.top number :: others) (run : Siblings.balance frame.page frame.index page s = .ok q t) :
    ∃ row' e, t.Shows e ∧ s.Steady t ∧
      Siblings.Family d tree frame.page frame.index page number (row.setKid frame.index node) ∧
      Balanced d e tree frame.index page q number (row.setKid frame.index node) row' (number :: above.pages ++ others) ∧
      e.Books (Limb.pages (h + 2) (⟨number, row'⟩ : Node (Node (Limb h))) ++ (above.pages ++ others)) ∧
      e.Stands tree number above frames := by
  obtain ⟨more, isMore⟩ : ∃ more, more = number :: above.pages ++ others := ⟨_, rfl⟩
  have family := level.family pending rfl
  have booksRow : d.Books (Row.hanging (h := h + 1) (row.setKid frame.index node) ++ more) := by
    have hanging : Row.hanging (h := h + 1) (row.setKid frame.index node) = _ := row.gather_setKid frame.index node
    rw [hanging, isMore]
    rw [Spine.pages_under, List.cons_append, List.append_assoc] at books
    exact books.perm (Spine.pages_around.symm.trans List.perm_middle.symm)
  have oneMore : 1 ∈ more := by
    rw [isMore]
    rcases List.mem_cons.mp one with isTop | other
    · have top := above.top_mem number
      rw [← isTop] at top
      exact List.mem_append_left _ top
    · exact List.mem_append_right _ other
  obtain ⟨row', e, showsT, steady, balanced⟩ := Siblings.balance_ok shows_ family booksRow oneMore
    (isMore ▸ List.mem_cons_self) run
  have inMore : ∀ n ∈ number :: above.pages, n ∈ more := fun n member => isMore ▸ List.mem_append_left _ member
  have booksT := balanced.books
  rw [isMore] at booksT
  refine ⟨row', e, showsT, steady, family, isMore ▸ balanced, booksT.perm List.perm_middle, ?_⟩
  refine rest.keep balanced.frame shows_.disk_sound showsT.disk_sound ?_ (fun n around away =>
    away (inMore n (List.mem_cons_of_mem _ around))) ⟨?_, fun away => away (inMore _ List.mem_cons_self)⟩
  · exact spared_of_books booksRow balanced.books (fun n around =>
      ⟨List.mem_append_right _ (inMore n (List.mem_cons_of_mem _ around)),
        List.mem_append_right _ (inMore n (List.mem_cons_of_mem _ around))⟩) fun n around away =>
      away (inMore n (List.mem_cons_of_mem _ around))
  · exact (booksRow.has (List.mem_append_right _ (inMore _ List.mem_cons_self))).2

theorem climb_ok (shows_ : s.Shows d) (pending : Pending d tree page node)
    (stands : d.Stands tree node.page spine frames)
    (books : d.Books (Limb.pages (h + 1) node ++ (spine.pages ++ others))) (one : 1 ∈ spine.top node.page :: others)
    (run : climb afterDelete page frames s = .ok () t) :
    ∃ (K : Nat) (T : Node (Limb K)) (e : Disk), t.Shows e ∧ s.Steady t ∧
      Rebuilt d e tree others (h ≠ 0) (spine.plug node) T ∧
      ∀ lax, NoEmptyPages lax afterDelete tree spine node → T.row.Full lax := by
  induction spine generalizing page frames s d with
  | root =>
    cases stands
    obtain ⟨K, T, e, showsT, steady, rebuilt, full⟩ := settleRoot_ok _ shows_ pending books one run
    refine ⟨K, T, e, showsT, steady, rebuilt, fun lax dense => full lax dense.strict ?_⟩
    rcases dense.below with below | ⟨-, crowned⟩
    · exact .inl below
    · exact crowned
  | @under h H number row index above ih =>
    have whole := stands
    cases stands with
    | @under _ _ _ _ _ _ frame frames level rest =>
    unfold climb at run
    by_cases needed : needsBalance page afterDelete = true
    · rw [if_pos needed] at run
      obtain ⟨q, u, balanced, run⟩ := Action.bind_ok.mp run
      obtain ⟨row', d1, shows1, steady1, family, balanced, books1, stands1⟩ :=
        rise_ok shows_ pending level rest books one balanced
      obtain ⟨K, T, e, showsT, steady2, rebuilt, full⟩ := ih shows1 balanced.pending stands1 books1 one run
      refine ⟨K, T, e, showsT, steady1.trans steady2, ⟨rebuilt.stands, rebuilt.books, ?_,
        Nat.le_trans balanced.grows rebuilt.grows, ?_⟩, fun lax dense => full lax (dense.parent needed pending.full balanced)⟩
      · exact (balanced.frame.within fun n other => List.mem_append_right _ other).trans rebuilt.frame
      · exact (Reshaped.plug above (balanced_reshaped family balanced)).trans
          (rebuilt.reshaped.mono fun _ => Nat.succ_ne_zero h)
    · rw [if_neg needed] at run
      obtain ⟨e, showsT, steady, at_, books1, quiet⟩ := writePending_ok shows_ pending books run
      have once := List.nodup_append.mp books1.nodup
      have own : node.page ∈ Limb.pages (h + 1) node := List.mem_cons_self
      have around : ∀ n ∈ (Spine.under number row frame.index above).pages, n ∈ Limb.pages (h + 1) node ++
          ((Spine.under number row frame.index above).pages ++ others) := fun n member =>
        List.mem_append_right _ (List.mem_append_left _ member)
      have stands1 : e.Stands tree node.page (.under number row frame.index above) (frame :: frames) := by
        refine whole.keep quiet.toKeeps shows_.disk_sound showsT.disk_sound ?_ (fun _ _ => id)
          ⟨(books.has (List.mem_append_left _ own)).2, id⟩
        exact spared_of_books books books1 (fun n member => ⟨around n member, around n member⟩) fun n member same =>
          once.2.2 node.page own node.page (same ▸ List.mem_append_left _ member) rfl
      refine ⟨H, _, e, showsT, steady, ⟨stands1.plugged at_ rfl, ?_, ?_, Nat.le_of_eq quiet.count.symm, .refl _ _ _⟩,
        fun lax dense => ?_⟩
      · refine books1.perm ?_
        rw [← List.append_assoc]
        exact (Spine.pages_plug _ node).symm.append_right others
      · refine quiet.toKeeps.mono (fun n same other => ?_) fun _ => False.elim
        exact once.2.2 node.page own node.page (same ▸ List.mem_append_right _ other) rfl
      · have less : h ≠ H := by
          have more := above.le
          omega
        refine Spine.full_plug dense.around (fun top => absurd top less) fun _ => Limb.full_node.mpr ⟨?_, ?_⟩
        · by_cases empty : node.row.cells = []
          · rcases dense.some_ empty with delete | top | lax
            · have count := pending.mirrors.count (writePage_ok run)
              refine absurd ?_ needed
              simp [needsBalance, delete, count, empty]
            · exact absurd top less
            · exact .inl lax
          · exact .inr empty
        · exact dense.below.resolve_right fun top => less top.1

end Climb

end Balance

/-- Balancing along a path, after the page at its end was changed in memory: the tree stands on the
disk again, with the same entries in the same order and with no pages of anyone else touched. -/
theorem balance_ok {afterDelete : Bool} {frame : Frame} {frames : List Frame} {node : Node (Limb h)} {spine : Spine h H}
    (shows_ : s.Shows d) (pending : Pending d tree frame.page node) (stands : d.Stands tree node.page spine frames)
    (books : d.Books (Limb.pages (H + 1) (spine.plug node) ++ others)) (one : 1 ∈ spine.top node.page :: others)
    (run : balance (frame :: frames) afterDelete s = .ok () t) :
    ∃ (K : Nat) (T : Node (Limb K)) (e : Disk), t.Shows e ∧ s.Steady t ∧
      Rebuilt d e tree others (h ≠ 0) (spine.plug node) T ∧
      ∀ lax, Balance.NoEmptyPages lax afterDelete tree spine node → T.row.Full lax := by
  refine Balance.climb_ok shows_ pending stands (books.perm ?_) one run
  rw [← List.append_assoc]
  exact (spine.pages_plug node).append_right others

end TreeFile
