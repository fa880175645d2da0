import TreeFile.Proofs.Balance.Parents

/-!
What stays as it is when a window of a tree is laid out anew: the entries in their order, and that
no page below the root is without cells.
-/

namespace TreeFile

open Siblings

namespace Row

section

variable {T α : Type} {keep : Bool} {index first last : Nat} {row : Row (Node T)} {list : List (Nat × Span)}

theorem mem_window {row : Row T} {i : Nat} (low : first ≤ i) (high : i ≤ last) (inside : last ≤ row.cells.length) :
    row.kid i ∈ (row.window first last).kids := by
  obtain ⟨k, rfl⟩ := Nat.exists_eq_add_of_le low
  clear low
  induction k generalizing first with
  | zero =>
    rw [Nat.add_zero] at high ⊢
    rcases Nat.lt_or_eq_of_le high with less | same
    · rw [window_step less inside, kids_prepend]
      exact List.mem_cons_self
    · rw [← same]
      rw [window_self]
      exact List.mem_singleton_self _
  | succ k ih =>
    rw [window_step (by omega) inside, kids_prepend]
    refine List.mem_cons_of_mem _ ?_
    rw [show first + (k + 1) = first + 1 + k by omega]
    exact ih (by omega)

theorem Relaid.some_cells (relaid : Relaid keep index row first last list)
    (cause : (row.kid index).row.cells ≠ [] ∨ row.cells ≠ [] ∧
      (keep = true ∨ ∀ i, i ≤ row.cells.length → i ≠ index → (row.kid i).row.cells ≠ [])) :
    ((row.window first last).flatten keep).cells ≠ [] := by
  have low := relaid.low
  have high := relaid.high
  have inside := relaid.inside
  have of_item : ∀ item ∈ ((row.window first last).flatten keep).items,
      ((row.window first last).flatten keep).cells ≠ [] := by
    intro item member nothing
    unfold items at member
    rw [nothing] at member
    cases member
  have of_kid : ∀ i, first ≤ i → i ≤ last → (row.kid i).row.cells ≠ [] →
      ((row.window first last).flatten keep).cells ≠ [] := by
    intro i less more some_
    obtain ⟨c, member⟩ := List.exists_mem_of_ne_nil _ some_
    exact of_item c.2 (mem_items_flatten.mpr (.inl ⟨row.kid i, mem_window less more inside,
      List.mem_map_of_mem member⟩))
  rcases cause with own | ⟨some_, isKept | others⟩
  · exact of_kid index low high own
  · have wide := relaid.wide some_
    have member : row.items.getD first default ∈ (row.window first last).items := by
      rw [window_step wide inside, items_prepend]
      exact List.mem_cons_self
    exact of_item _ (mem_items_flatten.mpr (.inr ⟨isKept, member⟩))
  · have wide := relaid.wide some_
    by_cases atFirst : index = first
    · exact of_kid last (by omega) (Nat.le_refl _) (others last inside (by omega))
    · exact of_kid first (Nat.le_refl _) (by omega) (others first (by omega) (Ne.symm atFirst))

theorem Relaid.gather {f : T → List α} {g : Item → List α} (relaid : Relaid true index row first last list) :
    row.gather (fun node => node.row.gather f g) g =
      (row.splice first last (row.relaid true first last list)).gather (fun node => node.row.gather f g) g := by
  rw [gather_window (Nat.le_trans relaid.low relaid.high), gather_splice, gather_flatten, gather_flatten,
    relaid.flatten]

theorem gather_sublist {row : Row T} (f : T → List α) (g : Item → List α) :
    (row.gather f fun _ => []).Sublist (row.gather f g) := by
  obtain ⟨cells, last⟩ := row
  unfold Row.gather
  refine List.Sublist.append ?_ (.refl _)
  dsimp only
  induction cells with
  | nil => exact .slnil
  | cons c rest ih =>
    rw [read_cons, read_cons]
    exact ((List.Sublist.refl _).append (List.nil_sublist _)).append ih

theorem items_flatten_leaf (window : Row (Node T)) :
    window.gather (fun node => node.row.items) (fun _ => []) = (window.flatten false).items := by
  have all : ∀ {S : Type} (row : Row S), row.gather (fun _ => []) (fun item => [item]) = row.items := by
    intro S row
    rw [gather_items, List.map_id']
  rw [← all, ← gather_flatten_leaf (fun _ => rfl)]
  exact gather_congr (fun node _ => (all node.row).symm) fun _ _ => rfl

theorem filter_gather {row : Row T} (p : α → Bool) (f : T → List α) (g : Item → List α) :
    (row.gather f g).filter p = row.gather (fun kid => (f kid).filter p) fun item => (g item).filter p := by
  unfold Row.gather read
  rw [List.filter_append, List.filter_flatMap]
  simp only [List.filter_append]

end

section

variable {h index first last : Nat} {tree : TreeKind} {row : Row (Node (Limb h))} {list : List (Nat × Span)}

theorem Relaid.full_below {lax : Bool} (relaid : Relaid (keeps tree h) index row first last list)
    (below : ∀ node ∈ row.kids, node.row.Full lax) {node : Node (Limb h)}
    (member : node ∈ (row.splice first last (row.relaid (keeps tree h) first last list)).kids) :
    node.row.Full lax := by
  rcases relaid.kids member with isNew | ⟨i, inside, -, rfl⟩
  · intro kid own
    cases keep : keeps tree h with
    | false =>
      obtain ⟨-, rfl⟩ := keeps_eq_false.mp keep
      trivial
    | true =>
      rw [keep] at relaid isNew
      have inner := mem_kids_flatten.mpr ⟨node, isNew, own⟩
      rw [relaid.flatten] at inner
      obtain ⟨old, among, inOld⟩ := mem_kids_flatten.mp inner
      exact below old (mem_kids_window among) kid inOld
  · exact below _ (row.kid_mem i)

theorem Relaid.full {lax : Bool} (relaid : Relaid (keeps tree h) index row first last list)
    (below : ∀ node ∈ row.kids, node.row.Full lax)
    (others : ∀ i, i ≤ row.cells.length → i ≠ index → Limb.Full lax (h + 1) (row.kid i))
    (some_ : ((row.window first last).flatten (keeps tree h)).cells ≠ []) :
    Row.Full (h := h + 1) lax (row.splice first last (row.relaid (keeps tree h) first last list)) := by
  intro node member
  rcases relaid.kids member with isNew | ⟨i, inside, other, same⟩
  · exact Limb.full_node.mpr ⟨.inr (assemble_peopled relaid.covers (relaid.peopled some_) node isNew),
      relaid.full_below below member⟩
  · exact same ▸ others i inside other

theorem length_splice {new : Row (Node (Limb h))} (inside : first ≤ row.cells.length) :
    (row.splice first last new).cells.length = first + new.cells.length + (row.cells.length - last) := by
  have items : (row.splice first last new).items.length = _ := congrArg List.length (items_splice first last)
  have length : ∀ row : Row (Node (Limb h)), row.items.length = row.cells.length := fun _ => List.length_map _
  simp only [List.length_append, List.length_map, length, List.length_take, drop, List.length_drop] at items
  omega

theorem Relaid.length (relaid : Relaid (keeps tree h) index row first last list) :
    (row.splice first last (row.relaid (keeps tree h) first last list)).cells.length + (last - first) + 1 =
      row.cells.length + list.length := by
  have some_ : list ≠ [] := by
    rintro rfl
    exact relaid.covers.elim
  have pages : (row.relaid (keeps tree h) first last list).kids.map Node.page = list.map Prod.fst :=
    assemble_pages some_
  have count := congrArg List.length pages
  rw [List.length_map, List.length_map, length_kids] at count
  have low := relaid.low
  have high := relaid.high
  have inside := relaid.inside
  rw [length_splice (by omega)]
  omega

theorem Relaid.regrouped (relaid : Relaid (keeps tree h) index row first last list)
    (entries : keeps tree h = false → ∀ node ∈ row.kids, ∀ item ∈ node.row.items, item.divider = false)
    (dividers : keeps tree h = false → ∀ item ∈ row.items, item.divider = true) (page : Nat) :
    Regrouped tree (Limb.items (h + 2) (⟨page, row⟩ : Node (Node (Limb h))))
      (Limb.items (h + 2)
        (⟨page, row.splice first last (row.relaid (keeps tree h) first last list)⟩ : Node (Node (Limb h)))) := by
  have order := Nat.le_trans relaid.low relaid.high
  have node : ∀ row : Row (Node (Limb h)), Limb.items (h + 2) (⟨page, row⟩ : Node (Node (Limb h))) =
      row.gather (fun node => node.row.gather (Limb.items h) fun item => [item]) fun item => [item] := by
    intro row
    have outer := Limb.items_node (h := h + 1) (⟨page, row⟩ : Node (Node (Limb h)))
    exact outer.trans (gather_congr (fun kid _ => Limb.items_node kid) fun _ _ => rfl)
  rw [node, node]
  cases keep : keeps tree h with
  | true =>
    rw [keep] at relaid
    exact .of_eq relaid.gather
  | false =>
    rw [keep] at relaid
    obtain ⟨rfl, rfl⟩ := keeps_eq_false.mp keep
    rw [gather_window order, gather_splice]
    have leaf : ∀ window : Row (Node (Limb 0)), window.gather
        (fun node => node.row.gather (Limb.items 0) fun item => [item]) (fun item => [item]) =
          window.gather (fun node => node.row.items) fun item => [item] := fun window =>
      gather_congr (fun node _ => Limb.items_node (h := 0) node ▸ rfl) fun _ _ => rfl
    rw [leaf, leaf]
    have plain : (row.window first last).gather (fun node => node.row.items) (fun _ => []) =
        ((row.window first last).flatten false).items := items_flatten_leaf _
    refine Regrouped.context (.trans (b := ((row.window first last).flatten false).items) (.of_sublist ?_ ?_) ?_) _ _
    · rw [← plain]
      exact gather_sublist _ _
    · rw [← plain]
      unfold entryItems
      rw [filter_gather, filter_gather]
      refine gather_congr (fun _ _ => rfl) fun item member => ?_
      rw [List.filter_singleton, dividers rfl item (mem_items_window member)]
      rfl
    · refine regrouped_assemble relaid.covers (fun several => relaid.peopled fun none_ => several ?_) ?_
      · exact relaid.single none_
      · intro item member
        rcases mem_items_flatten.mp member with ⟨node, among, own⟩ | ⟨isKept, -⟩
        · exact entries rfl node (mem_kids_window among) item own
        · cases isKept

end

end Row

end TreeFile
