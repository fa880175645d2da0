import TreeFile.Cursor.Walk
import TreeFile.Proofs.Tree.Limbs

/-!
The order of items. In a table rows come in the order of their numbers, and a divider comes behind
the row it repeats. In an index keys come in the order that was chosen for it.
-/

namespace TreeFile

namespace Item

def Before (tree : TreeKind) (order : KeyOrder) (a b : Item) : Prop :=
  match tree with
  | .table => a.row < b.row ∨ a.row = b.row ∧ a.divider = false ∧ b.divider = true
  | .index => order.compare a.payload b.payload = .lt

def key (tree : TreeKind) (item : Item) : Key :=
  match tree with
  | .table => .row item.row
  | .index => .bytes item.payload

def dividing (row : RowId) : Item := ⟨row, .empty, [], true⟩

end Item

def Sorted (tree : TreeKind) (order : KeyOrder) (items : List Item) : Prop :=
  items.Pairwise (Item.Before tree order)

def entryItems (items : List Item) : List Item := items.filter fun item => !item.divider

/-- The entries are the same, and wherever `a` is in order, so is `b`. -/
structure Regrouped (tree : TreeKind) (a b : List Item) : Prop where
  entries : entryItems a = entryItems b
  sorted : ∀ order x y, Sorted tree order (x ++ a ++ y) → Sorted tree order (x ++ b ++ y)

namespace Regrouped

variable {tree : TreeKind} {a b c : List Item}

theorem refl (tree : TreeKind) (a : List Item) : Regrouped tree a a := ⟨rfl, fun _ _ _ => id⟩

theorem ordered (regrouped : Regrouped tree a b) {order : KeyOrder} (sorted : Sorted tree order a) :
    Sorted tree order b := by
  have all := regrouped.sorted order [] []
  rw [List.nil_append, List.nil_append, List.append_nil, List.append_nil] at all
  exact all sorted

theorem of_eq (same : a = b) : Regrouped tree a b := same ▸ .refl tree a

theorem trans (first : Regrouped tree a b) (second : Regrouped tree b c) : Regrouped tree a c :=
  ⟨first.entries.trans second.entries,
    fun order x y old => second.sorted order x y (first.sorted order x y old)⟩

theorem context (inner : Regrouped tree a b) (x y : List Item) :
    Regrouped tree (x ++ a ++ y) (x ++ b ++ y) := by
  refine ⟨?_, fun order u v old => ?_⟩
  · unfold entryItems
    simp only [List.filter_append]
    rw [show a.filter (fun item => !item.divider) = b.filter fun item => !item.divider from inner.entries]
  · have bigger := inner.sorted order (u ++ x) (y ++ v)
    simp only [List.append_assoc] at bigger old ⊢
    exact bigger old

theorem of_sublist (less : b.Sublist a) (entries : entryItems a = entryItems b) : Regrouped tree a b :=
  ⟨entries, fun _ x y old =>
    old.sublist (((List.Sublist.refl x).append less).append (List.Sublist.refl y))⟩

end Regrouped

variable {order : KeyOrder}

theorem Sorted.insert_dividing {a b : Item} {x y : List Item} (entryA : a.divider = false)
    (entryB : b.divider = false) (sorted : Sorted .table order (x ++ a :: b :: y)) :
    Sorted .table order (x ++ a :: .dividing a.row :: b :: y) := by
  unfold Sorted at *
  rw [List.pairwise_append, List.pairwise_cons, List.pairwise_cons] at *
  obtain ⟨front, ⟨afterA, afterB, rest⟩, between⟩ := sorted
  have rowA : ∀ {c : Item}, Item.Before .table order c a → c.row < a.row := by
    rintro c (less | ⟨-, -, isDivider⟩)
    · exact less
    · rw [entryA] at isDivider
      cases isDivider
  have step : a.row < b.row := by
    rcases afterA b List.mem_cons_self with less | ⟨-, -, isDivider⟩
    · exact less
    · rw [entryB] at isDivider
      cases isDivider
  have behind : ∀ c ∈ b :: y, a.row < c.row := by
    intro c member
    rcases List.mem_cons.mp member with rfl | later
    · exact step
    · rcases afterB c later with less | ⟨same, -, -⟩
      · exact Int64.lt_trans step less
      · exact same ▸ step
  refine ⟨front, ⟨fun c member => ?_, fun c member => .inl (behind c member),
    List.pairwise_cons.mpr ⟨afterB, rest⟩⟩, fun c first other member => ?_⟩
  · rcases List.mem_cons.mp member with rfl | later
    · exact .inr ⟨rfl, entryA, rfl⟩
    · exact afterA c later
  · rcases List.mem_cons.mp member with rfl | later
    · exact between c first other List.mem_cons_self
    · rcases List.mem_cons.mp later with rfl | last
      · exact .inl (rowA (between c first a List.mem_cons_self))
      · exact between c first other (List.mem_cons_of_mem _ last)

theorem Regrouped.insert_dividing {a b : Item} (entryA : a.divider = false) (entryB : b.divider = false) :
    Regrouped .table [a, b] [a, .dividing a.row, b] := by
  refine ⟨?_, fun order x y old => ?_⟩
  · unfold entryItems Item.dividing
    simp [entryA, entryB]
  · simp only [List.append_assoc, List.cons_append, List.nil_append] at old ⊢
    exact old.insert_dividing entryA entryB

end TreeFile
