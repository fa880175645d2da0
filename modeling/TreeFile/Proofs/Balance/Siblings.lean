import TreeFile.Proofs.Balance.Gathering

/-!
Balancing siblings. The pages of a window are written anew, what they refer to is claimed for them,
pages that are left over are freed, and the parent gets the new dividers.
-/

namespace TreeFile

open Store PointerMap Disk

variable {s t : Store} {d e : Disk} {tree : TreeKind} {h : Nat} {trunks : List Trunk} {owned : List Nat}

namespace Siblings

theorem putForPage_run {p : Page} {node : Node (Limb h)} (shows_ : s.Shows d)
    (mirrors : p.Mirrors d tree node) (clear : p.parked = [])
    (described : ∀ n ∈ node.row.near, d.Described n) (once : node.row.near.Nodup)
    (small : node.page < 4294967296) :
    ∃ e t, putForPage p s = .ok () t ∧ t.Shows e ∧ s.Steady t ∧
      Quiet d e (fun _ => False) (· ∈ node.row.near) ∧ e.Mapped (node.row.claims node.page) := by
  have perm := node.row.pageClaims_perm d.limits tree node.page
  have pages : (pageClaims node.page (node.row.slots d.limits tree) node.row.right).pages.Perm
      node.row.near := by
    rw [← node.row.claims_pages node.page]
    exact perm.map Prod.fst
  have positive : ∀ kid ∈ node.row.kids, Limb.page? h kid ≠ some 0 := by
    intro kid member zero
    have near : 0 ∈ node.row.near :=
      Row.mem_gather.mpr (.inl ⟨kid, member, by rw [zero]; exact List.mem_singleton_self 0⟩)
    have low := (described 0 near).low
    omega
  have nonzero : ∀ slot ∈ node.row.slots d.limits tree, slot.left ≠ some 0 := by
    intro slot member
    obtain ⟨c, inside, rfl⟩ := List.mem_map.mp member
    exact positive c.1 (List.mem_append_left _ (List.mem_map_of_mem inside))
  have last : node.row.right ≠ some 0 :=
    positive node.row.last (List.mem_append_right _ (List.mem_singleton_self _))
  have parents : ∀ c ∈ node.row.claims node.page, c.2.parent = node.page := by
    intro c member
    rcases Row.mem_gather.mp member with ⟨kid, -, inside⟩ | ⟨item, -, inside⟩
    · obtain ⟨number, -, rfl⟩ := Option.map_eq_some_iff.mp (Option.mem_toList.mp inside)
      rfl
    · obtain ⟨number, -, rfl⟩ := Option.map_eq_some_iff.mp (Option.mem_toList.mp inside)
      rfl
  obtain ⟨e, t, run, showsT, steady, quiet, mapped⟩ := putAll_run
    (pageClaims node.page (node.row.slots d.limits tree) node.row.right) shows_
    (fun c member => ⟨described c.1 (pages.mem_iff.mp (List.mem_map_of_mem member)),
      by rw [parents c (perm.mem_iff.mp member)]; exact small⟩)
    (pages.nodup_iff.mpr once)
  refine ⟨e, t, ?_, showsT, steady, quiet.mono (fun _ => id) fun n => pages.mem_iff.mp, ?_⟩
  · rw [putForPage_eq mirrors.bears clear nonzero last s, mirrors.is.number]
    exact run
  · exact mapped.mono fun c member => perm.mem_iff.mpr member

theorem writeLaid_run {parent : PageNo} {p : Page} {node : Node (Limb h)} (shows_ : s.Shows d)
    (mirrors : p.Mirrors d tree node) (clear : p.parked = [])
    (described : ∀ n ∈ node.page :: node.row.near, d.Described n ∧ n ≠ 1)
    (once : (node.page :: node.row.near).Nodup) (small : parent < 4294967296) :
    ∃ e t, writeLaid parent p s = .ok () t ∧ t.Shows e ∧ s.Steady t ∧
      Quiet d e (· = node.page) (· ∈ node.page :: node.row.near) ∧ e.NodeAt tree node ∧
      e.Mapped [(node.page, ⟨.treeNode, parent⟩)] := by
  obtain ⟨own, other⟩ := described node.page List.mem_cons_self
  obtain ⟨fresh, onceNear⟩ := List.nodup_cons.mp once
  obtain ⟨data, t1, run1, shows1, steady1, pageAt1, size, header⟩ :=
    writePage_run shows_ own.has mirrors.is clear mirrors.bears
  have quiet1 : Quiet d (d.put node.page data) (· = node.page) fun _ => False :=
    quiet_put shows_.disk_sound own.free header
  have described1 : ∀ n, d.Described n → (d.put node.page data).Described n := fun n old =>
    ⟨old.low, old.has, old.free⟩
  obtain ⟨d2, t2, run2, shows2, steady2, quiet2, entry⟩ :=
    put_run (e := ⟨.treeNode, parent⟩) shows1 (described1 _ own) small
  have quiet12 : Quiet d d2 (· = node.page) (· = node.page) :=
    (quiet1.mono (fun _ => id) fun _ => False.elim).trans (quiet2.mono (fun _ => False.elim) fun _ => id)
  have mirrors2 := mirrors.alike quiet12.alike
  have described2 : ∀ n ∈ node.row.near, d2.Described n := by
    intro n inside
    obtain ⟨old, -⟩ := described n (List.mem_cons_of_mem _ inside)
    exact ⟨old.low, ⟨old.has.1, by rw [quiet12.count]; exact old.has.2⟩,
      (quiet12.alike.isReserved n).trans old.free⟩
  obtain ⟨d3, t3, run3, shows3, steady3, quiet3, claims⟩ := putForPage_run shows2 mirrors2 clear
    described2 onceNear (shows_.disk_sound.has_lt own.has)
  have has3 : d3.Has node.page := ⟨own.has.1, by rw [quiet3.count, quiet12.count]; exact own.has.2⟩
  refine ⟨d3, t3, ?_, shows3, steady1.trans (steady2.trans steady3), ?_, ⟨?_, claims⟩, ?_⟩
  · unfold writeLaid
    rw [Action.bind_of_ok run1, mirrors.is.number, Action.bind_of_ok run2]
    exact run3
  · exact (quiet12.mono (fun _ => id) fun n same => List.mem_cons.mpr (.inl same)).trans
      (quiet3.mono (fun _ => False.elim) fun n inside => List.mem_cons_of_mem _ inside)
  · have quiet23 : Quiet _ d3 (fun _ => False) fun _ => True :=
      (quiet2.mono (fun _ => id) fun _ _ => trivial).trans (quiet3.mono (fun _ => id) fun _ _ => trivial)
    have same := quiet23.images node.page own.free id
    rw [quiet23.alike.limits]
    exact pageAt1.of_same quiet23.alike shows1.disk_sound shows3.disk_sound has3 same
  · intro mapped c member
    rw [List.mem_singleton.mp member]
    have before := entry (quiet2.alike.mapped.symm.trans (quiet3.alike.mapped.symm.trans mapped))
    rw [quiet3.entries node.page ((quiet12.alike.isReserved _).trans own.free) fresh]
    exact before

def touched (node : Node (Limb h)) : List Nat := node.page :: node.row.near

theorem writeAll_run {parent : PageNo} {laid : List Laid} {nodes : List (Node (Limb h))} (shows_ : s.Shows d)
    (mirrors : List.Forall₂ (fun l node => Page.Mirrors l.page d tree node ∧ l.page.parked = []) laid nodes)
    (described : ∀ n ∈ nodes.flatMap touched, d.Described n ∧ n ≠ 1)
    (once : (nodes.flatMap touched).Nodup) (small : parent < 4294967296) :
    ∃ e t, (laid.forM fun l => writeLaid parent l.page) s = .ok () t ∧ t.Shows e ∧ s.Steady t ∧
      Quiet d e (· ∈ nodes.map Node.page) (· ∈ nodes.flatMap touched) ∧
      ∀ node ∈ nodes, e.NodeAt tree node ∧ e.Mapped [(node.page, ⟨.treeNode, parent⟩)] := by
  induction laid generalizing nodes s d with
  | nil =>
    cases mirrors
    exact ⟨d, s, rfl, shows_, .refl s, .refl d, nofun⟩
  | cons l laid ih =>
    obtain _ | ⟨first, rest⟩ := mirrors
    rename_i node nodes
    rw [List.flatMap_cons] at described once
    obtain ⟨onceFirst, onceRest, apart⟩ := List.nodup_append.mp once
    obtain ⟨d1, t1, run1, shows1, steady1, quiet1, at1, mapped1⟩ := writeLaid_run shows_ first.1 first.2
      (fun n inside => described n (List.mem_append_left _ inside)) onceFirst small
    have mirrors1 : List.Forall₂ (fun l node => Page.Mirrors l.page d1 tree node ∧ l.page.parked = [])
        laid nodes := rest.imp fun _ _ both => ⟨both.1.alike quiet1.alike, both.2⟩
    have described1 : ∀ n ∈ nodes.flatMap touched, d1.Described n ∧ n ≠ 1 := by
      intro n inside
      obtain ⟨old, other⟩ := described n (List.mem_append_right _ inside)
      exact ⟨⟨old.low, ⟨old.has.1, by rw [quiet1.count]; exact old.has.2⟩,
        (quiet1.alike.isReserved n).trans old.free⟩, other⟩
    obtain ⟨d2, t2, run2, shows2, steady2, quiet2, at2⟩ := ih shows1 mirrors1 described1 onceRest
    refine ⟨d2, t2, ?_, shows2, steady1.trans steady2, ?_, fun other member => ?_⟩
    · change (writeLaid parent l.page >>= fun _ => laid.forM fun l => writeLaid parent l.page) s = _
      rw [Action.bind_of_ok run1]
      exact run2
    · refine (quiet1.mono ?_ ?_).trans (quiet2.mono ?_ ?_)
      · exact fun n same => List.mem_cons.mpr (.inl same)
      · exact fun n inside => List.mem_append_left _ inside
      · exact fun n inside => List.mem_cons_of_mem _ inside
      · exact fun n inside => List.mem_append_right _ inside
    · rcases List.mem_cons.mp member with rfl | later
      · have free : ∀ n ∈ touched other, d1.isReserved n = false := fun n inside =>
          (quiet1.alike.isReserved n).trans (described n (List.mem_append_left _ inside)).1.free
        have away : ∀ n ∈ touched other, n ∉ nodes.flatMap touched := fun n inside later =>
          apart n inside n later rfl
        have own := (described other.page (List.mem_append_left _ List.mem_cons_self)).1.has
        have has2 : d2.Has other.page :=
          ⟨own.1, by rw [quiet2.count, quiet1.count]; exact own.2⟩
        refine ⟨at1.keep quiet2.toKeeps shows1.disk_sound shows2.disk_sound ?_ ?_, mapped1.keep quiet2.toKeeps ?_⟩
        · intro n same
          rw [List.mem_singleton.mp same]
          refine ⟨free _ List.mem_cons_self, has2, fun inside => away _ List.mem_cons_self ?_⟩
          obtain ⟨node, among, same⟩ := List.mem_map.mp inside
          exact List.mem_flatMap.mpr ⟨node, among, same ▸ List.mem_cons_self⟩
        · intro n inside
          have near : n ∈ touched other := List.mem_cons_of_mem _ inside
          exact ⟨free n near, away n near⟩
        · intro n same
          rw [show n = other.page from List.mem_singleton.mp same]
          exact ⟨free _ List.mem_cons_self, away _ List.mem_cons_self⟩
      · exact at2 other later

theorem freeAll_run (pages : List Nat) (shows_ : s.Shows d) (books : d.Books (pages ++ owned)) (one : 1 ∈ owned) :
    ∃ e t, pages.forM Freelist.free s = .ok () t ∧ t.Shows e ∧ s.Steady t ∧
      Keeps d e (Freelist.Others owned) (Freelist.Others owned) ∧ e.Books owned ∧ e.count = d.count := by
  induction pages generalizing s d with
  | nil => exact ⟨d, s, rfl, shows_, .refl s, .refl d, books, rfl⟩
  | cons page rest ih =>
    have other : page ≠ 1 := fun same =>
      (List.nodup_cons.mp books.nodup).1 (List.mem_append_right _ (same ▸ one))
    obtain ⟨d1, t1, run1, shows1, steady1, keeps1, books1, count1⟩ := Freelist.free_run shows_ books other
    obtain ⟨d2, t2, run2, shows2, steady2, keeps2, books2, count2⟩ := ih shows1 books1
    refine ⟨d2, t2, ?_, shows2, steady1.trans steady2, ?_, books2, count2.trans count1⟩
    · change (Freelist.free page >>= fun _ => rest.forM Freelist.free) s = _
      rw [Action.bind_of_ok run1]
      exact run2
    · exact (keeps1.within fun n own => List.mem_append_right _ own).trans keeps2

theorem freeAll_listing (pages : List Nat) (shows_ : s.Shows d) (listing : d.Listing trunks (pages ++ owned))
    (run : pages.forM Freelist.free s = .ok () t) :
    ∃ e more, t.Shows e ∧ s.Steady t ∧ Keeps d e (Freelist.Others owned) (fun _ => True) ∧
      e.Listing more owned ∧ (pages ++ Trunk.allPages trunks).Perm (Trunk.allPages more) ∧ e.count = d.count := by
  induction pages generalizing s d trunks with
  | nil =>
    obtain ⟨-, rfl⟩ := Action.pure_ok.mp run
    exact ⟨d, trunks, shows_, .refl s, .refl d, listing, .refl _, rfl⟩
  | cons page rest ih =>
    obtain ⟨⟨⟩, u, freed, run⟩ := Action.bind_ok.mp run
    have other : page ≠ 1 := by
      have checked := freed
      unfold Freelist.free at checked
      obtain ⟨⟨⟩, v, passed, -⟩ := Action.bind_ok.mp checked
      have low := (Freelist.checkPage_ok shows_ passed).1
      omega
    obtain ⟨d1, t1, trunks1, run1, shows1, steady1, keeps1, listing1, perm1, count1, -⟩ :=
      Freelist.free_listing shows_ listing other
    cases run1.symm.trans freed
    obtain ⟨d2, trunks2, shows2, steady2, keeps2, listing2, perm2, count2⟩ := ih shows1 listing1 run
    refine ⟨d2, trunks2, shows2, steady1.trans steady2, ?_, listing2, ?_, count2.trans count1⟩
    · exact (keeps1.mono (fun n away own => away (List.mem_append_right _ own)) fun _ _ => trivial).trans keeps2
    · exact (List.perm_middle.symm.trans (perm1.append_left rest)).trans perm2

/-- The numbers are those of old pages and of new ones; what is left over of the old ones is not
among them. -/
theorem numbers_listing {olds found : List PageNo} {count : Nat} (shows_ : s.Shows d)
    (listing : d.Listing trunks (olds ++ owned)) (run : numbers olds count s = .ok found t) :
    ∃ e fewer, t.Shows e ∧ s.Steady t ∧ Keeps d e (Freelist.Others (olds ++ owned)) (fun _ => False) ∧
      e.Listing fewer (found ++ ((olds.filter fun n => !found.contains n) ++ owned)) ∧
      (∀ n ∈ Trunk.allPages fewer, n ∈ Trunk.allPages trunks) ∧ d.count ≤ e.count ∧ found.length = count := by
  unfold numbers at run
  obtain ⟨more, u, taken, run⟩ := Action.bind_ok.mp run
  obtain ⟨isFound, rfl⟩ := Action.pure_ok.mp run
  obtain ⟨e, fewer, showsU, steady, keeps, listingE, inside, grows, length⟩ :=
    Freelist.allocateMany_listing _ shows_ listing taken
  obtain ⟨-, onceOlds, apart⟩ := List.nodup_append.mp listingE.once
  have onceOld : olds.Nodup := (List.nodup_append.mp onceOlds).1
  have sorted : found.Perm (olds.take count ++ more) := isFound ▸ List.mergeSort_perm _ _
  have whole := List.take_append_drop count olds
  have left : (olds.filter fun n => !found.contains n) = olds.drop count := by
    rw [← whole] at onceOld
    obtain ⟨-, -, apartTake⟩ := List.nodup_append.mp onceOld
    have inside : (olds.take count).filter (fun n => !found.contains n) = [] := by
      refine List.filter_eq_nil_iff.mpr fun n member => ?_
      have among := sorted.mem_iff.mpr (List.mem_append_left more member)
      simpa using among
    have outside : (olds.drop count).filter (fun n => !found.contains n) = olds.drop count := by
      refine List.filter_eq_self.mpr fun n member => ?_
      have away : n ∉ found := fun among => by
        rcases List.mem_append.mp (sorted.mem_iff.mp among) with kept | new
        · exact apartTake n kept n member rfl
        · exact apart n new n (List.mem_append_left _ (List.mem_of_mem_drop member)) rfl
      simpa using away
    conv_lhs => rw [← whole]
    rw [List.filter_append, inside, outside, List.nil_append]
  refine ⟨e, fewer, showsU, steady, keeps, listingE.perm ?_, inside, grows, ?_⟩
  · rw [left]
    have first : (more ++ (olds ++ owned)).Perm ((olds.take count ++ more) ++ (olds.drop count ++ owned)) := by
      conv_lhs => rw [← whole]
      grind
    exact first.trans (sorted.symm.append_right _)
  · have short := List.length_take_le count olds
    rw [sorted.length_eq, List.length_append, length]
    omega

theorem numbers_ok {olds found : List PageNo} {count : Nat} (shows_ : s.Shows d) (books : d.Books (olds ++ owned))
    (run : numbers olds count s = .ok found t) :
    ∃ e, t.Shows e ∧ s.Steady t ∧ Keeps d e (Freelist.Others (olds ++ owned)) (fun _ => False) ∧
      e.Books (found ++ ((olds.filter fun n => !found.contains n) ++ owned)) ∧ d.count ≤ e.count ∧
      found.length = count := by
  obtain ⟨trunks, ledger⟩ := books
  obtain ⟨e, fewer, showsT, steady, keeps, listing, inside, grows, length⟩ :=
    numbers_listing shows_ ledger.listing run
  exact ⟨e, showsT, steady, keeps, ⟨fewer, ledger.kept listing keeps inside⟩, grows, length⟩

theorem eraseIdx_eq {α : Type} (list : List α) (i : Nat) : list.eraseIdx i = list.take i ++ list.drop (i + 1) :=
  List.eraseIdx_eq_take_drop_succ list i

theorem dropDividers_ok {p q : Page} {slots : List Slot} {right : Option PageNo} {first count : Nat}
    (bears : p.Bears slots right) (clear : p.parked = []) (run : dropDividers first count p = .ok () q) :
    q.Bears (slots.take first ++ slots.drop (first + count)) right ∧ Page.Alike p q ∧ q.kind = p.kind ∧
      q.parked = [] := by
  induction count generalizing p slots with
  | zero =>
    obtain ⟨-, rfl⟩ := Action.pure_ok.mp run
    rw [Nat.add_zero, List.take_append_drop]
    exact ⟨bears, ⟨rfl, rfl, rfl⟩, rfl, clear⟩
  | succ count ih =>
    obtain ⟨⟨⟩, r, dropped, run⟩ := Action.bind_ok.mp run
    obtain ⟨inside, bearsR, alikeR, kindR, clearR⟩ := Page.drop_bears bears clear dropped
    obtain ⟨bearsQ, alikeQ, kindQ, clearQ⟩ := ih bearsR clearR run
    refine ⟨?_, alikeR.trans alikeQ, kindQ.trans kindR, clearQ⟩
    have length : (slots.take first).length = first := List.length_take_of_le (Nat.le_of_lt inside)
    rw [eraseIdx_eq, List.take_append_of_le_length (Nat.le_of_eq length.symm),
      List.take_of_length_le (Nat.le_of_eq length), List.drop_append, length,
      List.drop_eq_nil_of_le (by omega), List.nil_append, List.drop_drop] at bearsQ
    rw [show first + (count + 1) = first + 1 + (first + count - first) by omega]
    exact bearsQ

def headClaims (number : Nat) (slots : List Slot) : Claims :=
  slots.flatMap fun slot => (slot.stub.head.map fun head => (head, ⟨.overflowHead, number⟩)).toList

theorem insertDividers_step {p q : Page} {kind : PageKind} {i : Nat} {divider : Bytes} {rest : List Bytes}
    (run : insertDividers kind i (divider :: rest) p s = .ok q t) :
    ∃ info u r, Cell.decode divider.window 0 kind s.limits = .ok info ∧
      putAll (info.overflowPage.map fun head => (head, ⟨.overflowHead, p.number⟩)).toList s = .ok () u ∧
      Page.insert i divider p = .ok () r ∧ insertDividers kind (i + 1) rest r u = .ok q t := by
  unfold insertDividers at run
  rw [Action.get_bind] at run
  obtain ⟨info, read, run⟩ := Action.lift_bind_ok.mp run
  have claimed : ∃ u, putAll (info.overflowPage.map fun head => (head, ⟨.overflowHead, p.number⟩)).toList s =
        .ok () u ∧
      (do insertDividers kind (i + 1) rest (← Action.applied (Page.insert i divider) p) : StoreM Page) u =
        .ok q t := by
    cases chain : info.overflowPage with
    | none =>
      rw [chain] at run
      exact ⟨s, rfl, run⟩
    | some head =>
      rw [chain] at run
      obtain ⟨⟨⟩, u, claim, run⟩ := Action.bind_ok.mp run
      exact ⟨u, (congrFun (putAll_one head _) s).trans claim, run⟩
  obtain ⟨u, claim, run⟩ := claimed
  obtain ⟨r, inserted, run⟩ := Action.lift_bind_ok.mp run
  exact ⟨info, u, r, read, claim, Action.applied_ok.mp inserted, run⟩

section Dividers

variable {p q : Page} {kind : PageKind} {slots more : List Slot} {right : Option PageNo} {i : Nat}
  {dividers : List Bytes}

theorem insertDividers_bears (bears : p.Bears slots right) (full : p.parked ≠ [] → p.Overfull)
    (held : Held p.limits p.kind dividers more) (low : i ≤ slots.length)
    (run : insertDividers kind i dividers p s = .ok q t) :
    q.Bears (slots.take i ++ more ++ slots.drop i) right ∧ Page.Alike p q ∧ q.kind = p.kind ∧
      (q.parked ≠ [] → q.Overfull) := by
  induction dividers generalizing p i slots more s with
  | nil =>
    have none_ : more = [] := List.eq_nil_of_length_eq_zero held.length.symm
    subst none_
    obtain ⟨rfl, rfl⟩ := Action.pure_ok.mp run
    rw [List.append_nil, List.take_append_drop]
    exact ⟨bears, ⟨rfl, rfl, rfl⟩, rfl, full⟩
  | cons divider rest ih =>
    obtain ⟨slot, others, rfl⟩ : ∃ slot others, more = slot :: others := by
      cases more with
      | nil => cases held.length
      | cons slot others => exact ⟨slot, others, rfl⟩
    obtain ⟨holds, heldRest⟩ := Held.cons_iff.mp held
    obtain ⟨info, u, r, -, -, inserted, run⟩ := insertDividers_step run
    obtain ⟨-, bearsR, alikeR, kindR⟩ := Page.insert_bears bears holds inserted
    have overR := Page.insert_overfull bears holds full inserted
    have length : (slots.take i).length = i := List.length_take_of_le low
    rw [insertIdx_split slot low] at bearsR
    have heldR : Held r.limits r.kind rest others := by
      rw [alikeR.limits, kindR]
      exact heldRest
    obtain ⟨bearsQ, alikeQ, kindQ, overQ⟩ := ih bearsR overR heldR
      (by rw [List.length_append, length]; exact Nat.add_le_add_left (Nat.succ_le_succ (Nat.zero_le _)) i) run
    refine ⟨?_, alikeR.trans alikeQ, kindQ.trans kindR, overQ⟩
    have longer : (slots.take i ++ [slot]).length = i + 1 := by
      rw [List.length_append, length]
      rfl
    rw [List.append_cons, List.take_left' longer, List.drop_left' longer] at bearsQ
    simpa only [List.append_assoc, List.cons_append, List.nil_append] using bearsQ

theorem insertDividers_claims (shows_ : s.Shows d) (bears : p.Bears slots right)
    (held : Held d.limits kind dividers more) (limits : p.limits = d.limits) (isKind : p.kind = kind)
    (described : ∀ n ∈ (headClaims p.number more).pages, d.Described n)
    (once : (headClaims p.number more).pages.Nodup) (small : p.number < 4294967296)
    (run : insertDividers kind i dividers p s = .ok q t) :
    ∃ e, t.Shows e ∧ s.Steady t ∧
      Quiet d e (fun _ => False) (· ∈ (headClaims p.number more).pages) ∧
      e.Mapped (headClaims p.number more) := by
  induction dividers generalizing p i slots more s d with
  | nil =>
    have none_ : more = [] := List.eq_nil_of_length_eq_zero held.length.symm
    subst none_
    obtain ⟨-, rfl⟩ := Action.pure_ok.mp run
    exact ⟨d, shows_, .refl s, .refl d, mapped_nil⟩
  | cons divider rest ih =>
    obtain ⟨slot, others, rfl⟩ : ∃ slot others, more = slot :: others := by
      cases more with
      | nil => cases held.length
      | cons slot others => exact ⟨slot, others, rfl⟩
    obtain ⟨holds, heldRest⟩ := Held.cons_iff.mp held
    obtain ⟨info, u, r, read, claim, inserted, run⟩ := insertDividers_step run
    rw [shows_.limits] at read
    obtain ⟨found, reads, isSlot⟩ := holds
    rw [reads.1] at read
    cases read
    have first : (info.overflowPage.map fun head => (head, (⟨.overflowHead, p.number⟩ : PointerEntry))).toList =
        headClaims p.number [slot] := by
      unfold headClaims
      rw [List.flatMap_cons, List.flatMap_nil, List.append_nil, isSlot]
      rfl
    rw [first] at claim
    have split_ : headClaims p.number (slot :: others) =
        headClaims p.number [slot] ++ headClaims p.number others := by
      unfold headClaims
      rw [List.flatMap_cons, List.flatMap_cons, List.flatMap_nil, List.append_nil]
    have pages : (headClaims p.number (slot :: others)).pages =
        (headClaims p.number [slot]).pages ++ (headClaims p.number others).pages := by
      rw [split_]
      exact List.map_append
    rw [pages] at described once
    obtain ⟨onceFirst, onceRest, apart⟩ := List.nodup_append.mp once
    have parents : ∀ c ∈ headClaims p.number [slot], c.2.parent = p.number := by
      intro c member
      rw [← first] at member
      obtain ⟨head, -, rfl⟩ := Option.map_eq_some_iff.mp (Option.mem_toList.mp member)
      rfl
    obtain ⟨d1, v, again, shows1, steady1, quiet1, mapped1⟩ := putAll_run (headClaims p.number [slot]) shows_
      (fun c member => ⟨described c.1 (List.mem_append_left _ (List.mem_map_of_mem member)),
        parents c member ▸ small⟩) onceFirst
    rw [again] at claim
    cases claim
    have holds : Cell.Holds p.limits p.kind divider slot := by
      rw [limits, isKind]
      exact ⟨info, reads, isSlot⟩
    obtain ⟨-, bearsR, alikeR, kindR⟩ := Page.insert_bears bears holds inserted
    have described1 : ∀ n ∈ (headClaims r.number others).pages, d1.Described n := by
      intro n inside
      rw [alikeR.number] at inside
      have old := described n (List.mem_append_right _ inside)
      exact ⟨old.low, ⟨old.has.1, by rw [quiet1.count]; exact old.has.2⟩,
        (quiet1.alike.isReserved n).trans old.free⟩
    obtain ⟨d2, shows2, steady2, quiet2, mapped2⟩ :=
      ih shows1 bearsR (quiet1.alike.limits.symm ▸ heldRest)
        (alikeR.limits.trans (limits.trans quiet1.alike.limits.symm)) (kindR.trans isKind)
        described1 (by rw [alikeR.number]; exact onceRest) (by rw [alikeR.number]; exact small) run
    rw [alikeR.number] at quiet2 mapped2
    refine ⟨d2, shows2, steady1.trans steady2, ?_, ?_⟩
    · rw [pages]
      exact (quiet1.mono (fun _ => id) fun n => List.mem_append_left _).trans
        (quiet2.mono (fun _ => id) fun n => List.mem_append_right _)
    · rw [split_]
      refine mapped_append.mpr ⟨mapped1.keep quiet2.toKeeps fun n inside => ⟨?_, ?_⟩, mapped2⟩
      · exact (quiet1.alike.isReserved n).trans (described n (List.mem_append_left _ inside)).free
      · exact fun later => apart n inside n later rfl

end Dividers

theorem modify_append {α : Type} (a b : List α) {i : Nat} (f : α → α) (length : a.length = i) :
    (a ++ b).modify i f = a ++ b.modify 0 f := by
  induction a generalizing i with
  | nil => exact length ▸ rfl
  | cons x rest ih =>
    subst length
    rw [List.length_cons, List.cons_append, List.modify_succ_cons, ih rfl, List.cons_append]

theorem slots_setHead (limits : PayloadLimits) (tree : TreeKind) (row : Row (Limb h)) {kid : Limb h} {number : PageNo}
    (same : Limb.page? h kid = some number) :
    (row.setHead kid).slots limits tree =
        (row.slots limits tree).modify 0 (fun slot => { slot with left := some number }) ∧
      (row.setHead kid).right = if row.cells = [] then some number else row.right := by
  obtain ⟨cells, last⟩ := row
  cases cells with
  | nil => exact ⟨rfl, same⟩
  | cons c rest =>
    refine ⟨?_, (if_neg (List.cons_ne_nil _ _)).symm⟩
    change (⟨Limb.page? h kid, _⟩ : Slot) :: _ = _
    rw [same]
    rfl

theorem reseat_ok {p q : Page} {row : Row (Limb h)} {kid : Limb h} {number : PageNo} {first last : Nat}
    {limits : PayloadLimits} (bears : p.Bears (row.slots limits tree) row.right) (clear : p.parked = [])
    (order : first ≤ last) (inside : last ≤ row.cells.length) (same : Limb.page? h kid = some number)
    (small : number < 4294967296)
    (run : Action.applied (do
      dropDividers first (last - first)
      Page.setChild first number) p = .ok q) :
    q.Bears ((Row.prepend (row.cells.take first) ((row.drop last).setHead kid)).slots limits tree)
        ((row.drop last).setHead kid).right ∧
      Page.Alike p q ∧ q.kind = p.kind ∧ q.parked = [] := by
  obtain ⟨⟨⟩, r, dropped, run⟩ := Action.bind_ok.mp (Action.applied_ok.mp run)
  obtain ⟨bearsR, alikeR, kindR, clearR⟩ := dropDividers_ok bears clear dropped
  obtain ⟨-, alikeQ, kindQ, clearQ, bearsQ⟩ := Page.setChild_bears bearsR clearR small run
  refine ⟨?_, alikeR.trans alikeQ, kindQ.trans kindR, clearQ⟩
  obtain ⟨slots, right⟩ := slots_setHead limits tree (row.drop last) same
  have length : ((row.slots limits tree).take first).length = first := by
    rw [List.length_take, Page.Mirrors.length_slots]
    omega
  have rest : (row.slots limits tree).drop last = (row.drop last).slots limits tree := List.map_drop.symm
  have before : (row.slots limits tree).take first =
      (row.cells.take first).map fun c => ⟨Limb.page? h c.1, c.2.stub limits tree⟩ := List.map_take.symm
  rw [Nat.add_sub_cancel' order, rest] at bearsQ
  have behind : (row.drop last).cells = [] ↔ (row.drop last).slots limits tree = [] := by
    unfold Row.slots
    exact List.map_eq_nil_iff.symm
  rw [Row.slots_prepend, slots, right, ← before]
  have isEnd : first = ((row.slots limits tree).take first ++ (row.drop last).slots limits tree).length ↔
      (row.drop last).cells = [] := by
    rw [behind, List.length_append, length, ← List.length_eq_zero_iff]
    omega
  rw [modify_append _ _ _ length] at bearsQ
  simp only [isEnd] at bearsQ
  exact bearsQ

theorem headClaims_slots (number : Nat) (limits : PayloadLimits) (tree : TreeKind) (new : Row (Limb h)) :
    headClaims number (new.slots limits tree) = new.items.flatMap (Item.headClaim number) := by
  unfold headClaims Row.slots Row.items
  rw [List.flatMap_map, List.flatMap_map]
  rfl

section Reparent

variable {p r q : Page} {row new : Row (Limb h)} {number : PageNo} {first last : Nat} {dividers : List Bytes}

theorem reparent_bears {limits : PayloadLimits} (bears : p.Bears (row.slots limits tree) row.right)
    (clear : p.parked = []) (isLimits : p.limits = limits) (kind : p.kind = .at tree h)
    (order : first ≤ last) (inside : last ≤ row.cells.length) (same : Limb.page? h new.last = some number)
    (small : number < 4294967296) (held : Held limits (.at tree h) dividers (new.slots limits tree))
    (reseated : Action.applied (do
      dropDividers first (last - first)
      Page.setChild first number) p = .ok r)
    (run : insertDividers (.at tree h) first dividers r s = .ok q t) :
    q.Bears ((row.splice first last new).slots limits tree) (row.splice first last new).right ∧
      Page.Alike p q ∧ q.kind = p.kind ∧ (q.parked ≠ [] → q.Overfull) := by
  obtain ⟨bearsR, alikeR, kindR, clearR⟩ := reseat_ok bears clear order inside same small reseated
  rw [Row.slots_prepend] at bearsR
  have length : ((row.cells.take first).map fun c =>
      (⟨Limb.page? h c.1, c.2.stub limits tree⟩ : Slot)).length = first := by
    rw [List.length_map, List.length_take]
    omega
  have heldR : Held r.limits r.kind dividers (new.slots limits tree) := by
    rw [alikeR.limits, isLimits, kindR, kind]
    exact held
  obtain ⟨bearsQ, alikeQ, kindQ, full⟩ := insertDividers_bears bearsR (fun parked => absurd clearR parked)
    heldR (by rw [List.length_append, length]; exact Nat.le_add_right _ _) run
  rw [List.take_left' length, List.drop_left' length] at bearsQ
  refine ⟨?_, alikeR.trans alikeQ, kindQ.trans kindR, full⟩
  unfold Row.splice
  rw [Row.slots_prepend, Row.slots_prepend, ← List.append_assoc]
  exact bearsQ

theorem reparent_ok (shows_ : s.Shows d) (bears : p.Bears (row.slots d.limits tree) row.right)
    (clear : p.parked = []) (limits : p.limits = d.limits) (kind : p.kind = .at tree h)
    (order : first ≤ last) (inside : last ≤ row.cells.length) (same : Limb.page? h new.last = some number)
    (small : number < 4294967296) (smallParent : p.number < 4294967296)
    (held : Held d.limits (.at tree h) dividers (new.slots d.limits tree))
    (described : ∀ n ∈ new.items.flatMap (fun item => item.chain.take 1), d.Described n)
    (once : (new.items.flatMap fun item => item.chain.take 1).Nodup)
    (reseated : Action.applied (do
      dropDividers first (last - first)
      Page.setChild first number) p = .ok r)
    (run : insertDividers (.at tree h) first dividers r s = .ok q t) :
    ∃ e, t.Shows e ∧ s.Steady t ∧
      Quiet d e (fun _ => False) (· ∈ new.items.flatMap fun item => item.chain.take 1) ∧
      e.Mapped (new.items.flatMap (Item.headClaim p.number)) ∧
      q.Bears ((row.splice first last new).slots d.limits tree) (row.splice first last new).right ∧
      Page.Alike p q ∧ q.kind = p.kind ∧ (q.parked ≠ [] → q.Overfull) := by
  obtain ⟨bearsR, alikeR, kindR, -⟩ := reseat_ok bears clear order inside same small reseated
  have claims := headClaims_slots r.number d.limits tree new
  have pages : (headClaims r.number (new.slots d.limits tree)).pages =
      new.items.flatMap fun item => item.chain.take 1 := by
    rw [claims]
    unfold Claims.pages
    rw [List.map_flatMap]
    exact List.flatMap_congr fun item _ => item.headClaim_pages r.number
  obtain ⟨e, showsT, steady, quiet, mapped⟩ := insertDividers_claims shows_ bearsR held
    (alikeR.limits.trans limits) (kindR.trans kind) (by rw [pages]; exact described)
    (by rw [pages]; exact once) (by rw [alikeR.number]; exact smallParent) run
  rw [pages] at quiet
  rw [claims, alikeR.number] at mapped
  exact ⟨e, showsT, steady, quiet, mapped,
    reparent_bears bears clear limits kind order inside same small held reseated run⟩

end Reparent

theorem touched_perm (keep : Bool) (window : Row (Node (Limb h)))
    (nothing : keep = false → h = 0 ∧ ∀ item ∈ window.items, item.chain = []) :
    (window.kids.flatMap touched ++ window.items.flatMap fun item => item.chain.take 1).Perm
      (window.kids.map Node.page ++ (window.flatten keep).near) := by
  refine Row.gather_perm.symm.trans (Row.gather_nodes Node.page fun none_ => ?_)
  obtain ⟨rfl, items⟩ := nothing none_
  exact ⟨fun _ => rfl, fun item member => by rw [items item member]; rfl⟩

theorem keeps_eq_false {tree : TreeKind} {h : Nat} : keeps tree h = false ↔ tree = .table ∧ h = 0 := by
  cases h with
  | zero => cases tree <;> decide
  | succ h => cases tree <;> simp [keeps, PageKind.at, PageKind.interior]

theorem small_kids {F : Row (Limb h)} (sound : d.Sound) (books : d.Books owned)
    (inside : ∀ n ∈ F.near, n ∈ owned) : ∀ kid ∈ F.kids, (Limb.page? h kid).getD 0 < 4294967296 := by
  intro kid member
  cases page : Limb.page? h kid with
  | none => exact Nat.zero_lt_succ _
  | some number =>
    have near : number ∈ F.near :=
      Row.mem_gather.mpr (.inl ⟨kid, member, by rw [page]; exact List.mem_singleton_self _⟩)
    exact sound.has_lt (books.has (inside number near)).1

/-- The new pages of a window are written in place of the old ones. -/
structure Renewed (d e : Disk) (tree : TreeKind) (parent : PageNo) (F : Row (Limb h)) (new : Row (Node (Limb h)))
    (rest : List Nat) : Prop where
  keeps : Keeps d e (Freelist.Others (F.hanging ++ rest)) (Freelist.Others (F.far ++ rest))
  books : e.Books (new.kids.map Node.page ++ (F.hanging ++ rest))
  grows : d.count ≤ e.count
  nodes : ∀ node ∈ new.kids, e.NodeAt tree node ∧ e.Mapped [(node.page, ⟨.treeNode, parent⟩)]
  touched : (new.kids.flatMap touched ++ new.items.flatMap fun item => item.chain.take 1).Perm
    (new.kids.map Node.page ++ F.near)

theorem renew_ok {olds found rest : List PageNo} {F : Row (Limb h)} {cells : List Bytes} {spans : List Span}
    {laid : List Laid} {parent : PageNo} {u v w : Store} (shows_ : s.Shows d)
    (books : d.Books (olds ++ (F.hanging ++ rest))) (one : 1 ∈ rest) (small : parent < 4294967296)
    (held : Held d.limits (.at tree h) cells (F.slots d.limits tree))
    (covers : Covers (keeps tree h) F.cells.length 0 spans)
    (chosen : numbers olds spans.length s = .ok found u)
    (made : layOut (.at tree h) cells F.right (found.zip spans) u = .ok laid v)
    (written : (laid.forM fun l => writeLaid parent l.page) v = .ok () w)
    (freed : (olds.filter fun number => !found.contains number).forM Freelist.free w = .ok () t) :
    ∃ e, t.Shows e ∧ s.Steady t ∧ LaidOut e tree laid (F.assemble (keeps tree h) (found.zip spans)) ∧
      Renewed d e tree parent F (F.assemble (keeps tree h) (found.zip spans)) rest ∧
      (found.zip spans).map Prod.snd = spans ∧
      found = (F.assemble (keeps tree h) (found.zip spans)).kids.map Node.page := by
  obtain ⟨d1, shows1, steady1, keeps1, books1, grows, length⟩ := numbers_ok shows_ books chosen
  obtain ⟨zipSpans, zipSome, pages⟩ := Row.assemble_zip covers length
  obtain ⟨new, isNew⟩ : ∃ new, new = F.assemble (keeps tree h) (found.zip spans) := ⟨_, rfl⟩
  rw [← isNew] at pages
  have perm : (new.kids.flatMap touched ++ new.items.flatMap fun item => item.chain.take 1).Perm (found ++ F.near) := by
    have flat : new.flatten (keeps tree h) = F := by
      have covered : Covers (keeps tree h) F.cells.length 0 ((found.zip spans).map Prod.snd) := zipSpans.symm ▸ covers
      rw [isNew, Row.flatten_assemble covered]
      rfl
    have perm := touched_perm (keeps tree h) new fun none_ => by
      refine ⟨(keeps_eq_false.mp none_).2, fun item member => ?_⟩
      rw [isNew, none_] at member
      obtain ⟨span, rfl⟩ := Row.assemble_items member
      rfl
    rw [pages, flat] at perm
    exact perm
  have split := F.near_first found (olds.filter fun n => !found.contains n) rest
  obtain ⟨onceNear, -, apart⟩ := List.nodup_append.mp (split.nodup_iff.mp books1.nodup)
  have inBooks : ∀ n ∈ found ++ F.near, n ∈ found ++ ((olds.filter fun n => !found.contains n) ++ (F.hanging ++ rest)) :=
    fun n inside => split.mem_iff.mpr (List.mem_append_left _ inside)
  have notOne : ∀ n ∈ found ++ F.near, n ≠ 1 := fun n inside =>
    apart n inside 1 (List.mem_append_right _ (List.mem_append_right _ one))
  have touched_ : ∀ n ∈ new.kids.flatMap touched, n ∈ found ++ F.near := fun n inside =>
    perm.mem_iff.mp (List.mem_append_left _ inside)
  obtain ⟨rfl, laidOut, -⟩ := layOut_ok shows1 (keeps1.alike.limits.symm ▸ held) zipSome
    (fun entry inside =>
      shows1.disk_sound.has_lt (books1.has (List.mem_append_left _ (List.of_mem_zip inside).1)).1)
    (small_kids shows1.disk_sound books1 fun n inside => inBooks n (List.mem_append_right _ inside)) made
  rw [← isNew] at laidOut ⊢
  obtain ⟨d2, v, run2, shows2, steady2, quiet2, at2⟩ := writeAll_run shows1 laidOut.pages
    (fun n inside => ⟨books1.described (inBooks n (touched_ n inside)) (notOne n (touched_ n inside)),
      notOne n (touched_ n inside)⟩)
    ((List.nodup_append.mp (perm.nodup_iff.mpr onceNear)).1) small
  rw [run2] at written
  cases written
  rw [pages] at quiet2
  have books2 : d2.Books ((olds.filter fun n => !found.contains n) ++ (found ++ (F.hanging ++ rest))) :=
    (books1.of_quiet shows1.disk_sound shows2.disk_sound quiet2 (fun n => List.mem_append_left _)
      fun n inside => inBooks n (touched_ n inside)).perm (List.perm_append_comm_assoc _ _ _)
  obtain ⟨d3, w, run3, shows3, steady3, keeps3, books3, count3⟩ := freeAll_run _ shows2 books2
    (List.mem_append_right _ (List.mem_append_right _ one))
  rw [run3] at freed
  cases freed
  refine ⟨d3, shows3, steady1.trans (steady2.trans steady3), ?_, ⟨?_, ?_, ?_, ?_, pages.symm ▸ perm⟩, zipSpans, pages.symm⟩
  · exact ⟨laidOut.pages.imp fun _ _ both => ⟨both.1.alike (quiet2.alike.trans keeps3.alike), both.2⟩,
      by rw [(quiet2.alike.trans keeps3.alike).limits]; exact laidOut.dividers⟩
  · refine (keeps1.mono ?_ fun _ => False.elim).trans ((quiet2.toKeeps.mono ?_ ?_).trans (keeps3.mono ?_ ?_))
    · exact fun n away own => away (List.mem_append_right _ own)
    · exact fun n first own => (List.nodup_append.mp books1.nodup).2.2 n first n (List.mem_append_right _ own) rfl
    · exact fun n inside own => apart n (touched_ n inside) n (List.mem_append_right _ own) rfl
    · exact fun n away own => away (List.mem_append_right _ own)
    · refine fun n away own => away (List.mem_append_right _ ?_)
      rcases List.mem_append.mp own with far | other
      · exact List.mem_append_left _ (F.hanging_perm.mem_iff.mpr (List.mem_append_right _ far))
      · exact List.mem_append_right _ other
  · rw [pages]
    exact books3
  · rw [count3, quiet2.count]
    exact grows
  · intro node member
    obtain ⟨nodeAt, mapped⟩ := at2 node member
    have own : ∀ n ∈ touched node, d2.isReserved n = false ∧ d3.Has n ∧ ¬ Freelist.Others (found ++ (F.hanging ++ rest)) n := by
      intro n inside
      have among : n ∈ found ++ (F.hanging ++ rest) :=
        Row.near_inside n (touched_ n (List.mem_flatMap.mpr ⟨node, member, inside⟩))
      obtain ⟨has, free⟩ := books3.has among
      exact ⟨(keeps3.alike.isReserved n).symm.trans free, has, fun away => away among⟩
    refine ⟨nodeAt.keep keeps3 shows2.disk_sound shows3.disk_sound ?_ ?_, mapped.keep keeps3 ?_⟩
    · intro n same
      rw [List.mem_singleton.mp same]
      exact own _ List.mem_cons_self
    · intro n inside
      obtain ⟨free, -, away⟩ := own n (List.mem_cons_of_mem _ inside)
      exact ⟨free, away⟩
    · intro n same
      rw [show n = node.page from List.mem_singleton.mp same]
      obtain ⟨free, -, away⟩ := own _ List.mem_cons_self
      exact ⟨free, away⟩

end Siblings

end TreeFile
