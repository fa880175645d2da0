import TreeFile.Proofs.Balance.Reshaping

/-!
Spines: what is around a node of a tree, from its parent up to the root. A path that was taken down
to the node has loaded the pages of the spine.
-/

namespace TreeFile

open PointerMap Disk Siblings

/-- A tree with a hole for a node: `h` levels are below the hole and `H` below the root. -/
inductive Spine : Nat → Nat → Type
  | root {h : Nat} : Spine h h
  | under {h H : Nat} (page : Nat) (row : Row (Node (Limb h))) (index : Nat) (above : Spine (h + 1) H) : Spine h H

namespace Spine

variable {α : Type} {h H : Nat}

def plug : {h H : Nat} → Spine h H → Node (Limb h) → Node (Limb H)
  | _, _, .root, node => node
  | _, _, .under page row index above, node => above.plug ⟨page, row.setKid index node⟩

def top : {h H : Nat} → Spine h H → Nat → Nat
  | _, _, .root, number => number
  | _, _, .under page _ _ above, _ => above.top page

def pages : {h H : Nat} → Spine h H → List Nat
  | _, _, .root => []
  | _, _, .under page row index above => page :: (row.outside index index ++ above.pages)

def before (leaf : Row (Limb 0) → List α) (item : Item → List α) : {h H : Nat} → Spine h H → List α
  | _, _, .root => []
  | h, _, .under _ row index above =>
    above.before leaf item ++ Row.read (Limb.scan leaf item (h + 1)) item (row.cells.take index)

def after (leaf : Row (Limb 0) → List α) (item : Item → List α) : {h H : Nat} → Spine h H → List α
  | _, _, .root => []
  | h, _, .under _ row index above =>
    (row.drop index).behind (Limb.scan leaf item (h + 1)) item ++ above.after leaf item

def Full (lax : Bool) : {h H : Nat} → Spine h H → Prop
  | _, _, .root => True
  | h, H, .under _ row index above => (h + 1 = H ∨ row.cells ≠ []) ∧ index ≤ row.cells.length ∧
      (∀ i, i ≤ row.cells.length → i ≠ index → Limb.Full lax (h + 1) (row.kid i)) ∧ above.Full lax

section

variable {page index : Nat} {row : Row (Node (Limb h))} {above : Spine (h + 1) H} (leaf : Row (Limb 0) → List α)
  (item : Item → List α)

theorem before_under : (under page row index above).before leaf item =
    above.before leaf item ++ Row.read (Limb.scan leaf item (h + 1)) item (row.cells.take index) := rfl

theorem after_under : (under page row index above).after leaf item =
    (row.drop index).behind (Limb.scan leaf item (h + 1)) item ++ above.after leaf item := rfl

theorem pages_under : (under page row index above).pages = page :: (row.outside index index ++ above.pages) := rfl

end

theorem page_plug (spine : Spine h H) (node : Node (Limb h)) : (spine.plug node).page = spine.top node.page := by
  induction spine with
  | root => rfl
  | under page row index above ih => exact ih _

theorem scan_plug (leaf : Row (Limb 0) → List α) (item : Item → List α) (spine : Spine h H) (node : Node (Limb h)) :
    Limb.scan leaf item (H + 1) (spine.plug node) =
      spine.before leaf item ++ (Limb.scan leaf item (h + 1) node ++ spine.after leaf item) := by
  induction spine with
  | root => exact (List.append_nil _).symm
  | @under h H page row index above ih =>
    have inner : Limb.scan leaf item (h + 2) (⟨page, row.setKid index node⟩ : Node (Node (Limb h))) =
        Row.read (Limb.scan leaf item (h + 1)) item (row.cells.take index) ++
          (Limb.scan leaf item (h + 1) node ++ (row.drop index).behind (Limb.scan leaf item (h + 1)) item) :=
      row.gather_setKid index node
    refine (ih _).trans ((congrArg (fun read => above.before leaf item ++ (read ++ above.after leaf item))
      inner).trans ?_)
    rw [before_under, after_under]
    simp only [List.append_assoc]

theorem pages_around {page : Nat} {own a b rest : List Nat} :
    (page :: (a ++ (own ++ b)) ++ rest).Perm (own ++ page :: (a ++ b ++ rest)) := by
  grind

theorem pages_plug (spine : Spine h H) (node : Node (Limb h)) :
    (Limb.pages (H + 1) (spine.plug node)).Perm (Limb.pages (h + 1) node ++ spine.pages) := by
  induction spine with
  | root => exact .of_eq (List.append_nil _).symm
  | @under h H page row index above ih =>
    have inner : Limb.pages (h + 2) (⟨page, row.setKid index node⟩ : Node (Node (Limb h))) =
        page :: (Row.read (Limb.pages (h + 1)) Item.chain (row.cells.take index) ++
          (Limb.pages (h + 1) node ++ (row.drop index).behind (Limb.pages (h + 1)) Item.chain)) :=
      congrArg (page :: ·) (row.gather_setKid index node)
    exact (ih _).trans ((List.Perm.append_right above.pages (.of_eq inner)).trans pages_around)

end Spine

theorem Spine.le (spine : Spine h H) : h ≤ H := by
  induction spine with
  | root => exact Nat.le_refl _
  | under page row index above ih => exact Nat.le_of_succ_le ih

theorem Spine.top_mem (spine : Spine h H) (number : Nat) : spine.top number ∈ number :: spine.pages := by
  induction spine generalizing number with
  | root => exact List.mem_cons_self
  | under page row index above ih =>
    refine List.mem_cons_of_mem _ ?_
    rcases List.mem_cons.mp (ih page) with same | around
    · exact List.mem_cons.mpr (.inl same)
    · exact List.mem_cons_of_mem _ (List.mem_append_right _ around)

theorem Spine.full_plug {lax : Bool} {spine : Spine h H} (full : spine.Full lax) {node : Node (Limb h)}
    (top : h = H → node.row.Full lax) (inner : h ≠ H → Limb.Full lax (h + 1) node) :
    (spine.plug node).row.Full lax := by
  induction spine with
  | root => exact top rfl
  | @under h H page row index above ih =>
    obtain ⟨some_, inside, others, full⟩ := full
    have less : h ≠ H := by
      have more := above.le
      omega
    have length := row.length_setKid index node
    have kids : Row.Full (h := h + 1) lax (row.setKid index node) := by
      intro kid member
      rcases Row.mem_kids_setKid inside member with same | ⟨i, bound, other, same⟩
      · exact same ▸ inner less
      · exact same ▸ others i bound other
    refine ih full (fun _ => kids) fun other => ⟨.inr fun nothing => ?_, kids⟩
    refine (some_.resolve_left other) (List.length_eq_zero_iff.mp ?_)
    rw [← length]
    exact List.length_eq_zero_iff.mpr nothing

/-- The same entries in the same order below the same page. If `deep` holds, the leaves are the
same, too. -/
structure Reshaped (tree : TreeKind) (deep : Prop) (a : Node (Limb h)) (b : Node (Limb H)) : Prop where
  page : b.page = a.page
  items : Regrouped tree (Limb.items (h + 1) a) (Limb.items (H + 1) b)
  scan : deep → ∀ (α : Type) (leaf : Row (Limb 0) → List α) (item : Item → List α),
    Limb.scan leaf item (h + 1) a = Limb.scan leaf item (H + 1) b

namespace Reshaped

variable {tree : TreeKind} {deep : Prop} {k : Nat} {a : Node (Limb h)} {b : Node (Limb H)} {c : Node (Limb k)}

theorem refl (tree : TreeKind) (deep : Prop) (a : Node (Limb h)) : Reshaped tree deep a a :=
  ⟨rfl, .refl tree _, fun _ _ _ _ => rfl⟩

theorem trans (first : Reshaped tree deep a b) (second : Reshaped tree deep b c) : Reshaped tree deep a c :=
  ⟨second.page.trans first.page, first.items.trans second.items, fun isDeep α leaf item =>
    (first.scan isDeep α leaf item).trans (second.scan isDeep α leaf item)⟩

theorem mono {weaker : Prop} (reshaped : Reshaped tree deep a b) (less : weaker → deep) : Reshaped tree weaker a b :=
  ⟨reshaped.page, reshaped.items, fun isWeaker => reshaped.scan (less isWeaker)⟩

theorem scan_single {α : Type} (leaf : Row (Limb 0) → List α) (item : Item → List α) (page : Nat)
    (kid : Node (Limb h)) : Limb.scan leaf item (h + 2) (⟨page, ⟨[], kid⟩⟩ : Node (Node (Limb h))) =
      Limb.scan leaf item (h + 1) (⟨page, kid.row⟩ : Node (Limb h)) := by
  cases h <;> rfl

theorem absorbed (page : Nat) (kid : Node (Limb h)) :
    Reshaped (h := h + 1) tree deep ⟨page, ⟨[], kid⟩⟩ (⟨page, kid.row⟩ : Node (Limb h)) :=
  ⟨rfl, .of_eq (scan_single _ _ page kid), fun _ _ leaf item => scan_single leaf item page kid⟩

theorem deepened (page : Nat) (kid : Node (Limb h)) :
    Reshaped (H := h + 1) tree deep (⟨page, kid.row⟩ : Node (Limb h)) ⟨page, ⟨[], kid⟩⟩ :=
  ⟨rfl, .of_eq (scan_single _ _ page kid).symm, fun _ _ leaf item => (scan_single leaf item page kid).symm⟩

theorem plug (spine : Spine h H) {a b : Node (Limb h)} (reshaped : Reshaped tree deep a b) :
    Reshaped tree deep (spine.plug a) (spine.plug b) := by
  refine ⟨?_, ?_, fun isDeep α leaf item => ?_⟩
  · rw [spine.page_plug, spine.page_plug, reshaped.page]
  · have items := reshaped.items.context (spine.before Row.items fun item => [item])
      (spine.after Row.items fun item => [item])
    unfold Limb.items at items ⊢
    rw [spine.scan_plug, spine.scan_plug, ← List.append_assoc, ← List.append_assoc]
    exact items
  · rw [spine.scan_plug, spine.scan_plug, reshaped.scan isDeep]

end Reshaped

namespace Row

variable {h : Nat}

theorem slots_swap (limits : PayloadLimits) (tree : TreeKind) (cells : List (Limb h × Item)) {behind : Row (Limb h)} {kid : Limb h}
    (same : Limb.page? h kid = Limb.page? h behind.head) :
    (prepend cells (behind.setHead kid)).slots limits tree = (prepend cells behind).slots limits tree ∧
      (prepend cells (behind.setHead kid)).right = (prepend cells behind).right := by
  obtain ⟨rest, last⟩ := behind
  cases rest with
  | nil => exact ⟨rfl, same⟩
  | cons c rest =>
    refine ⟨?_, rfl⟩
    unfold slots prepend setHead
    dsimp only
    rw [List.map_append, List.map_append, List.map_cons, List.map_cons,
      show Limb.page? h kid = Limb.page? h c.1 from same]

variable {row : Row (Node (Limb h))} {i : Nat}

theorem slots_setKid (limits : PayloadLimits) (tree : TreeKind) {node : Node (Limb h)}
    (same : node.page = (row.kid i).page) :
    slots (h := h + 1) limits tree (row.setKid i node) = slots (h := h + 1) limits tree row ∧
      right (h := h + 1) (row.setKid i node) = right (h := h + 1) row := by
  have swapped := slots_swap (h := h + 1) limits tree (row.cells.take i) (congrArg some same)
  have whole : prepend (row.cells.take i) (row.drop i) = row := row.prepend_drop i
  exact ⟨swapped.1.trans (congrArg (slots (h := h + 1) limits tree) whole),
    swapped.2.trans (congrArg (right (h := h + 1)) whole)⟩

theorem claims_setKid (page : Nat) {node : Node (Limb h)} (same : node.page = (row.kid i).page) :
    claims (h := h + 1) page (row.setKid i node) = claims (h := h + 1) page row := by
  rw [claims_nodes, claims_nodes, gather_setKid, row.gather_kid i, same]

theorem kid_cases {kid : Node (Limb h)} (member : kid ∈ row.kids) : kid = row.kid i ∨ row.KidOutside i i kid := by
  rw [← row.splice_window (Nat.le_refl i), kids_splice, window_self] at member
  unfold KidOutside
  simp only [List.mem_append, kids, List.map_nil, List.nil_append, List.mem_singleton] at member ⊢
  tauto

theorem item_outside {item : Item} (member : item ∈ row.items) : row.ItemOutside i i item := by
  rw [← row.splice_window (Nat.le_refl i), items_splice, window_self] at member
  unfold ItemOutside
  simp only [List.mem_append, items, List.map_nil, List.not_mem_nil, or_false] at member ⊢
  exact member

theorem kid_outside {j : Nat} (inside : j ≤ row.cells.length) (other : j ≠ i) (bound : i ≤ row.cells.length) :
    row.KidOutside i i (row.kid j) := by
  rcases Nat.lt_or_gt_of_ne other with less | more
  · refine .inl (List.mem_map.mpr ⟨(row.kid j, row.items.getD j default), ?_, rfl⟩)
    rw [← cells_get (by omega)]
    exact List.mem_take_iff_getElem.mpr ⟨j, by omega, rfl⟩
  · refine .inr ?_
    rw [kids_drop bound, List.drop_drop]
    have got := kids_get inside
    refine List.mem_of_getElem? (i := j - (i + 1)) ?_
    rw [List.getElem?_drop, Nat.add_sub_cancel' (by omega)]
    exact got

end Row

namespace Disk

variable {d e : Disk} {tree : TreeKind} {h H : Nat}

/-- A page on the way down to a node. It was loaded, and apart from the node all that hangs in its
row is there. -/
structure Level (d : Disk) (tree : TreeKind) (number : Nat) (frame : Frame) (page : Nat)
    (row : Row (Node (Limb h))) : Prop where
  mirrors : frame.page.Mirrors (h := h + 1) d tree ⟨page, row⟩
  clear : frame.page.parked = []
  inside : frame.index ≤ row.cells.length
  hole : (row.kid frame.index).page = number
  stands : d.NodeAt (h := h + 1) tree ⟨page, row⟩
  items : ∀ item ∈ row.items, d.Carries tree (h + 1) item
  others : ∀ i, i ≤ row.cells.length → i ≠ frame.index → d.LimbAt tree (h + 1) (row.kid i)

/-- The pages of a spine are there, and a path has loaded them. -/
inductive Stands (d : Disk) (tree : TreeKind) : {h H : Nat} → Nat → Spine h H → List Frame → Prop
  | root {h number : Nat} : Stands d tree number (.root : Spine h h) []
  | under {h H number page : Nat} {row : Row (Node (Limb h))} {above : Spine (h + 1) H} {frame : Frame}
      {frames : List Frame} (level : d.Level tree number frame page row) (rest : Stands d tree page above frames) :
      Stands d tree number (.under page row frame.index above) (frame :: frames)

namespace Level

variable {number page : Nat} {frame : Frame} {row : Row (Node (Limb h))} (level : d.Level tree number frame page row)

include level

theorem near : ∀ n ∈ Row.near (h := h + 1) row, n = number ∨ n ∈ row.outside frame.index frame.index := by
  intro n member
  rcases Row.mem_gather.mp member with ⟨kid, among, own⟩ | ⟨item, among, own⟩
  · have isPage : n = Node.page kid := List.mem_singleton.mp own
    rcases Row.kid_cases (i := frame.index) among with rfl | away
    · exact .inl (isPage.trans level.hole)
    · exact .inr (away.pages n (isPage ▸ List.mem_cons_self))
  · exact .inr ((Row.item_outside among).chain n (List.mem_of_mem_take own))

theorem mirrors_kid {kid : Node (Limb h)} (same : kid.page = number) :
    frame.page.Mirrors d tree (⟨page, row.setKid frame.index kid⟩ : Node (Limb (h + 1))) := by
  obtain ⟨slots, right⟩ := Row.slots_setKid (i := frame.index) d.limits tree (same.trans level.hole.symm)
  have bears := level.mirrors.bears
  rw [← slots, ← right] at bears
  exact ⟨level.mirrors.is, bears⟩

theorem family {q : Page} {node : Node (Limb h)} (pending : Pending d tree q node) (same : node.page = number) :
    Family d tree frame.page frame.index q page (row.setKid frame.index node) := by
  have kid := Row.kid_setKid level.inside node
  have length := row.length_setKid frame.index node
  have other : ∀ i, i ≤ row.cells.length → i ≠ frame.index → (row.setKid frame.index node).kid i = row.kid i :=
    fun i inside away => Row.kid_setKid_other level.inside inside away node
  refine ⟨level.mirrors_kid same, level.clear, ?_, fun i inside away => ?_, fun node' member => ?_,
    fun item member => ?_, ?_⟩
  · rw [kid]
    exact pending.mirrors
  · rw [length] at inside
    rw [other i inside away]
    exact ((limbAt_node _).mp (level.others i inside away)).1
  · rcases Row.mem_kids_setKid level.inside member with rfl | ⟨i, inside, away, rfl⟩
    · exact pending.hangs
    · exact ((limbAt_node _).mp (level.others i inside away)).2
  · rw [Row.items_setKid] at member
    exact level.items item member
  · exact (congrArg d.Mapped (Row.claims_setKid page (same.trans level.hole.symm))).mpr level.stands.claims

theorem plugged {node : Node (Limb h)} (at_ : d.LimbAt tree (h + 1) node) (same : node.page = number) :
    d.LimbAt tree (h + 2) (⟨page, row.setKid frame.index node⟩ : Node (Node (Limb h))) := by
  have samePage : node.page = (row.kid frame.index).page := same.trans level.hole.symm
  obtain ⟨slots, right⟩ := Row.slots_setKid d.limits tree samePage
  refine ⟨?_, ?_, fun item member => ?_, fun kid member => ?_⟩
  · have pageAt := level.stands.page
    rw [← slots, ← right] at pageAt
    exact pageAt
  · exact (congrArg d.Mapped (Row.claims_setKid page samePage)).mpr level.stands.claims
  · have inRow : item ∈ row.items := by
      rw [← row.items_setKid frame.index node]
      exact member
    exact level.items item inRow
  · rcases Row.mem_kids_setKid level.inside member with same | ⟨i, inside, away, same⟩
    · exact same ▸ at_
    · exact same ▸ level.others i inside away

theorem keep {P E : Nat → Prop} (keeps : Keeps d e P E) (sound : d.Sound) (soundE : e.Sound)
    (spared : Spared d e P (page :: row.outside frame.index frame.index))
    (entries : ∀ n ∈ row.outside frame.index frame.index, ¬ E n) (hole : d.isReserved number = false ∧ ¬ E number) :
    e.Level tree number frame page row := by
  have around := spared.mono fun n => List.mem_cons_of_mem page (a := n)
  refine ⟨level.mirrors.alike keeps.alike, level.clear, level.inside, level.hole, ?_, fun item member => ?_,
    fun i inside other => ?_⟩
  · refine level.stands.keep keeps sound soundE (spared.mono fun n same => ?_) fun n member => ?_
    · rw [List.mem_singleton.mp same]
      exact List.mem_cons_self
    · rcases level.near n member with rfl | away
      · exact hole
      · exact ⟨(around n away).1, entries n away⟩
  · have away := Row.item_outside (i := frame.index) member
    exact (level.items item member).keep keeps sound soundE (around.mono away.chain) fun n link =>
      entries n (away.chain n (List.mem_of_mem_drop link))
  · have away := Row.kid_outside inside other level.inside
    exact (level.others i inside other).keep keeps sound soundE (around.mono away.pages) fun n below =>
      entries n (away.pages n (List.mem_of_mem_drop below))

end Level

namespace Stands

variable {number : Nat} {spine : Spine h H} {frames : List Frame}

theorem keep {P E : Nat → Prop} (stands : d.Stands tree number spine frames) (keeps : Keeps d e P E)
    (sound : d.Sound) (soundE : e.Sound) (spared : Spared d e P spine.pages) (entries : ∀ n ∈ spine.pages, ¬ E n)
    (hole : d.isReserved number = false ∧ ¬ E number) : e.Stands tree number spine frames := by
  induction stands with
  | root => exact .root
  | @under h H number page row above frame frames level rest ih =>
    have inner : ∀ n ∈ page :: row.outside frame.index frame.index,
        n ∈ (Spine.under page row frame.index above).pages := fun n member => by
      rcases List.mem_cons.mp member with rfl | away
      · exact List.mem_cons_self
      · exact List.mem_cons_of_mem _ (List.mem_append_left _ away)
    have outer : ∀ n ∈ above.pages, n ∈ (Spine.under page row frame.index above).pages := fun n member =>
      List.mem_cons_of_mem _ (List.mem_append_right _ member)
    refine .under (level.keep keeps sound soundE (spared.mono inner) (fun n away => entries n (inner n ?_)) hole)
      (ih (spared.mono outer) (fun n member => entries n (outer n member)) ⟨(spared page ?_).1, entries page ?_⟩)
    · exact List.mem_cons_of_mem _ away
    · exact List.mem_cons_self
    · exact List.mem_cons_self

theorem plugged {node : Node (Limb h)} (stands : d.Stands tree number spine frames)
    (at_ : d.LimbAt tree (h + 1) node) (same : node.page = number) : d.LimbAt tree (H + 1) (spine.plug node) := by
  induction stands with
  | root => exact at_
  | under level _ ih => exact ih (level.plugged at_ same) rfl

end Stands

end Disk

end TreeFile
