import Mathlib.Data.List.Perm.Basic
import TreeFile.Proofs.Tree.Limbs

/-!
One item of a row changed: put in the place of another, put into the row of a leaf, or taken out of
it. Said with the children and the pages of the chains that the row has then.
-/

namespace TreeFile

open PointerMap

namespace Row

section

variable {T : Type} {row : Row T} {i : Nat}

def item (row : Row T) (i : Nat) : Item := row.items.getD i default

theorem item_eq (among : i < row.items.length) : row.item i = row.items[i] := by
  unfold item
  rw [List.getD_eq_getElem?_getD, List.getElem?_eq_getElem among]
  rfl

theorem item_mem (inside : i < row.cells.length) : row.item i ∈ row.items := by
  rw [item_eq (row.length_items.symm ▸ inside)]
  exact List.getElem_mem _

variable {item : Item}

def setItem (row : Row T) (i : Nat) (item : Item) : Row T := ⟨row.cells.set i (row.kid i, item), row.last⟩

theorem items_setItem : (row.setItem i item).items = row.items.set i item := List.map_set

theorem kids_setItem (inside : i < row.cells.length) : (row.setItem i item).kids = row.kids := by
  have same : (row.cells.map Prod.fst).set i (row.kid i) = row.cells.map Prod.fst := by
    have among : i < (row.cells.map Prod.fst).length := by
      rw [List.length_map]
      exact inside
    have here : row.kid i = (row.cells.map Prod.fst)[i] := by
      rw [List.getElem_map, row.cells_get inside]
    rw [here, List.set_getElem_self]
  unfold setItem kids
  rw [List.map_set, same]

theorem setKid_eq (row : Row T) (inside : i < row.cells.length) (kid : T) :
    row.setKid i kid = ⟨row.cells.set i (kid, row.item i), row.last⟩ := by
  have rest : row.drop i = ⟨(row.kid i, row.item i) :: row.cells.drop (i + 1), row.last⟩ := by
    unfold drop
    rw [List.drop_eq_getElem_cons inside, cells_get inside]
    rfl
  unfold setKid
  rw [rest, List.set_eq_take_append_cons_drop, if_pos inside]
  rfl

theorem gather_setItem {α : Type} (f : T → List α) (g : Item → List α) (inside : i < row.cells.length) :
    (row.setItem i item).gather f g = read f g (row.cells.take i) ++ (f (row.kid i) ++
      (g item ++ (row.drop (i + 1)).gather f g)) := by
  unfold gather setItem drop
  dsimp only
  rw [List.set_eq_take_append_cons_drop, if_pos inside, read_append, read_cons]
  simp only [List.append_assoc]

/-- A kid and the item behind it changed. -/
theorem gather_exchange {α : Type} (f : T → List α) (g : Item → List α) (inside : i < row.cells.length) (kid : T) :
    ((row.setKid i kid).setItem i item).gather f g = read f g (row.cells.take i) ++ (f kid ++
      (g item ++ (row.drop (i + 1)).gather f g)) := by
  rw [gather_setItem f g (row.length_setKid i kid ▸ inside), kid_setKid (Nat.le_of_lt inside), setKid_eq row inside]
  unfold drop
  dsimp only
  rw [List.take_set_of_le (Nat.le_refl i), List.drop_set_of_lt (Nat.lt_succ_self i)]

end

variable {h i : Nat} {item : Item}

def insertItem (row : Row (Limb 0)) (i : Nat) (item : Item) : Row (Limb 0) := ⟨row.cells.insertIdx i ((), item), row.last⟩

def eraseItem (row : Row (Limb 0)) (i : Nat) : Row (Limb 0) := ⟨row.cells.eraseIdx i, row.last⟩

theorem items_insertItem (row : Row (Limb 0)) : (row.insertItem i item).items = row.items.insertIdx i item := by
  unfold insertItem items
  rw [List.map_insertIdx]

theorem items_eraseItem (row : Row (Limb 0)) : (row.eraseItem i).items = row.items.eraseIdx i := by
  unfold eraseItem items
  rw [List.eraseIdx_map]

/-- What hangs below a row, except for the chain of one item. -/
def besides (row : Row (Limb h)) (i : Nat) : List Nat :=
  row.kids.flatMap (Limb.pages h) ++ (row.items.eraseIdx i).flatMap Item.chain

theorem hanging_besides {row : Row (Limb h)} (inside : i < row.cells.length) :
    row.hanging.Perm ((row.item i).chain ++ row.besides i) := by
  have among : i < row.items.length := row.length_items.symm ▸ inside
  have split := (List.getElem_cons_eraseIdx_perm among).flatMap_right Item.chain
  rw [List.flatMap_cons, ← item_eq among] at split
  exact gather_perm.trans ((split.symm.append_left _).trans (List.perm_append_comm_assoc _ _ _))

theorem hanging_setItem {row : Row (Limb h)} (inside : i < row.cells.length) :
    (row.setItem i item).hanging.Perm (item.chain ++ row.besides i) := by
  have among : i < row.items.length := row.length_items.symm ▸ inside
  have split := (List.set_perm_cons_eraseIdx among item).flatMap_right Item.chain
  rw [List.flatMap_cons, ← items_setItem] at split
  refine gather_perm.trans ?_
  rw [kids_setItem inside]
  exact (split.append_left _).trans (List.perm_append_comm_assoc _ _ _)

theorem kids_leaf (row : Row (Limb 0)) : row.kids.flatMap (Limb.pages 0) = [] :=
  List.flatMap_eq_nil_iff.mpr fun _ _ => rfl

theorem hanging_leaf (row : Row (Limb 0)) : row.hanging.Perm (row.items.flatMap Item.chain) := by
  refine gather_perm.trans (List.Perm.of_eq ?_)
  rw [kids_leaf]
  rfl

theorem hanging_insertItem {row : Row (Limb 0)} (low : i ≤ row.cells.length) :
    (row.insertItem i item).hanging.Perm (item.chain ++ row.hanging) := by
  have split := (List.perm_insertIdx item row.items (row.length_items.symm ▸ low)).flatMap_right Item.chain
  rw [List.flatMap_cons, ← items_insertItem] at split
  exact (hanging_leaf _).trans (split.trans (row.hanging_leaf.symm.append_left _))

theorem hanging_eraseItem (row : Row (Limb 0)) (i : Nat) : (row.eraseItem i).hanging.Perm (row.besides i) := by
  refine (hanging_leaf _).trans (List.Perm.of_eq ?_)
  rw [items_eraseItem]
  unfold besides
  rw [kids_leaf]
  rfl

theorem kid_besides {row : Row (Limb h)} {kid : Limb h} (member : kid ∈ row.kids) :
    ∀ n ∈ Limb.pages h kid, n ∈ row.besides i := fun _ inside =>
  List.mem_append_left _ (List.mem_flatMap.mpr ⟨kid, member, inside⟩)

theorem item_besides {row : Row (Limb h)} (member : item ∈ row.items.eraseIdx i) :
    ∀ n ∈ item.chain, n ∈ row.besides i := fun _ inside =>
  List.mem_append_right _ (List.mem_flatMap.mpr ⟨item, member, inside⟩)

theorem slots_setItem (limits : PayloadLimits) (tree : TreeKind) (row : Row (Limb h)) :
    (row.setItem i item).slots limits tree =
      (row.slots limits tree).set i ⟨Limb.page? h (row.kid i), item.stub limits tree⟩ := List.map_set

theorem slots_insertItem (limits : PayloadLimits) (tree : TreeKind) (row : Row (Limb 0)) :
    (row.insertItem i item).slots limits tree = (row.slots limits tree).insertIdx i ⟨none, item.stub limits tree⟩ := by
  unfold insertItem slots
  rw [List.map_insertIdx]
  rfl

theorem slots_eraseItem (limits : PayloadLimits) (tree : TreeKind) (row : Row (Limb 0)) :
    (row.eraseItem i).slots limits tree = (row.slots limits tree).eraseIdx i := by
  unfold eraseItem slots
  rw [List.eraseIdx_map]

end Row

end TreeFile
