import TreeFile.Proofs.Integrity.Cells
import TreeFile.Proofs.Tree.Order

/-!
Items between bounds. What hangs in a row is in order if what hangs left of each of its items, and behind
the last, is in order between the items beside it.
-/

namespace TreeFile

namespace Bytes

theorem order_go (a b : Bytes) {i n : Nat} (whole : i + n = min a.size b.size) :
    order.go a b i n = List.compareLex compare (a.data.toList.drop i) (b.data.toList.drop i) := by
  have sizeA : a.data.toList.length = a.size := rfl
  have sizeB : b.data.toList.length = b.size := rfl
  induction n generalizing i with
  | zero =>
    unfold order.go
    rcases Nat.lt_trichotomy a.size b.size with less | same | more
    · have insideB : i < b.data.toList.length := by omega
      rw [List.drop_eq_nil_of_le (by omega), List.drop_eq_getElem_cons insideB, List.compareLex_nil_cons]
      exact Std.compare_eq_lt.mpr less
    · rw [List.drop_eq_nil_of_le (by omega), List.drop_eq_nil_of_le (by omega), List.compareLex_nil_nil]
      exact Std.compare_eq_iff_eq.mpr same
    · have insideA : i < a.data.toList.length := by omega
      have outsideB : b.data.toList.length ≤ i := by omega
      rw [List.drop_eq_nil_of_le outsideB, List.drop_eq_getElem_cons insideA, List.compareLex_cons_nil]
      exact Std.compare_eq_gt.mpr more
  | succ n ih =>
    have insideA : i < a.data.toList.length := by omega
    have insideB : i < b.data.toList.length := by omega
    have first : a.get! i = a.data.toList[i] := getElem!_pos a.data i insideA
    have second : b.get! i = b.data.toList[i] := getElem!_pos b.data i insideB
    have step : order.go a b i (n + 1) = (compare (a.get! i) (b.get! i)).then (order.go a b (i + 1) n) := by
      rw [order.go]
      cases compare (a.get! i) (b.get! i) <;> rfl
    rw [step, ih (by omega), List.drop_eq_getElem_cons insideA, List.drop_eq_getElem_cons insideB,
      List.compareLex_cons_cons, first, second]

theorem order_eq (a b : Bytes) : order a b = List.compareLex compare a.data.toList b.data.toList :=
  order_go a b (Nat.zero_add _)

theorem order_gt_iff {a b : Bytes} : order a b = .gt ↔ order b a = .lt := by
  rw [order_eq, order_eq]
  exact Std.OrientedCmp.gt_iff_lt

theorem order_trans {a b c : Bytes} (first : order a b = .lt) (second : order b c = .lt) : order a c = .lt := by
  rw [order_eq] at first second ⊢
  exact Std.TransCmp.lt_trans first second

end Bytes

instance : Std.TransCmp KeyOrder.binary.compare := by
  have same : KeyOrder.binary.compare = fun a b => List.compareLex compare a.data.toList b.data.toList :=
    funext fun a => funext fun b => Bytes.order_eq a b
  rw [same]
  exact { eq_swap := Std.OrientedCmp.eq_swap, isLE_trans := Std.TransCmp.isLE_trans }

namespace Item

variable {tree : TreeKind} {a b c : Item}

theorem Before.trans (first : Before tree .binary a b) (second : Before tree .binary b c) :
    Before tree .binary a c := by
  cases tree with
  | index => exact Bytes.order_trans first second
  | table =>
    rcases first with less | ⟨same, entry, divider⟩
    · rcases second with later | ⟨same, -, -⟩
      · exact .inl (Int64.lt_trans less later)
      · exact .inl (same ▸ less)
    · rcases second with later | ⟨-, entry, -⟩
      · exact .inl (same ▸ later)
      · rw [divider] at entry
        cases entry

def Bounds (tree : TreeKind) (item : Item) : Prop := tree = .table → item.divider = true

theorem Bounds.before (bounds : a.Bounds tree) :
    Before tree .binary a b ↔ Integrity.compareKeys (b.key tree) (a.key tree) = .gt := by
  cases tree with
  | index => exact Bytes.order_gt_iff.symm
  | table =>
    have divides : a.divider = true := bounds rfl
    refine Iff.trans ?_ Std.compare_eq_gt.symm
    constructor
    · rintro (less | ⟨-, entry, -⟩)
      · exact less
      · rw [divides] at entry
        cases entry
    · exact .inl

theorem before_of_entry (entry : tree = .table → b.divider = false)
    (follows : Integrity.compareKeys (b.key tree) (a.key tree) = .gt) : Before tree .binary a b := by
  cases tree with
  | index => exact Bytes.order_gt_iff.mp follows
  | table => exact .inl (Std.compare_eq_gt.mp follows)

end Item

/-- The items are in order, from the bound in front of them to the one behind. -/
def Fenced (tree : TreeKind) (lower upper : Option Item) (items : List Item) : Prop :=
  Sorted tree .binary (lower.toList ++ items ++ upper.toList)

variable {tree : TreeKind} {lower upper before : Option Item} {item : Item} {items more : List Item}

theorem Sorted.glue (first : Sorted tree .binary (items ++ [item])) (second : Sorted tree .binary (item :: more)) :
    Sorted tree .binary (items ++ item :: more) := by
  unfold Sorted at *
  rw [List.pairwise_append] at first ⊢
  obtain ⟨front, -, toItem⟩ := first
  refine ⟨front, second, fun a memberA b memberB => ?_⟩
  have near := toItem a memberA item (List.mem_singleton_self item)
  rcases List.mem_cons.mp memberB with rfl | later
  · exact near
  · exact near.trans ((List.pairwise_cons.mp second).1 b later)

theorem Fenced.sorted (fenced : Fenced tree lower upper items) : Sorted tree .binary items := by
  unfold Fenced Sorted at *
  exact (List.pairwise_append.mp (List.pairwise_append.mp fenced).1).2.1

theorem Fenced.cons (first : Fenced tree lower (some item) items) (rest : Fenced tree (some item) upper more) :
    Fenced tree lower upper (items ++ item :: more) := by
  unfold Fenced at *
  have second : Sorted tree .binary (item :: (more ++ upper.toList)) := rest
  simpa using first.glue second

theorem fenced_item (first : ∀ bound ∈ lower, Item.Before tree .binary bound item)
    (second : ∀ bound ∈ upper, Item.Before tree .binary item bound) : Fenced tree lower upper [item] := by
  have front : Sorted tree .binary (lower.toList ++ [item]) := by
    cases lower with
    | none => exact List.pairwise_singleton _ item
    | some bound => exact List.pairwise_pair.mpr (first bound rfl)
  have back : Sorted tree .binary (item :: upper.toList) := by
    cases upper with
    | none => exact List.pairwise_singleton _ item
    | some bound => exact List.pairwise_pair.mpr (second bound rfl)
  unfold Fenced
  rw [List.append_assoc]
  exact front.glue back

theorem Fenced.of_each (sorted : Sorted tree .binary items)
    (each : ∀ item ∈ items, Fenced tree lower upper [item]) (stocked : items = [] → lower = none) :
    Fenced tree lower upper items := by
  unfold Fenced Sorted at each ⊢
  unfold Sorted at sorted
  simp only [List.append_assoc, List.pairwise_append, List.singleton_append, List.pairwise_cons, List.mem_append,
    List.mem_cons] at each ⊢
  cases items with
  | nil =>
    rw [stocked rfl]
    cases upper <;> simp
  | cons item rest =>
    obtain ⟨front, ⟨-, back⟩, across⟩ := each item List.mem_cons_self
    refine ⟨front, ⟨sorted, back, fun a member => (each a member).2.1.1⟩, fun bound isLower b member => ?_⟩
    rcases member with inside | isUpper
    · exact (each b inside).2.2 bound isLower b (.inl rfl)
    · exact across bound isLower b (.inr isUpper)

namespace Integrity

variable {range : KeyRange}

structure KeyRange.Of (tree : TreeKind) (range : KeyRange) (lower upper : Option Item) : Prop where
  low : range.lower = lower.map (Item.key tree)
  high : range.upper = upper.map (Item.key tree)
  bounds : ∀ bound ∈ lower.toList ++ upper.toList, bound.Bounds tree

theorem KeyRange.Of.fenced (of_ : range.Of tree lower upper) (entry : tree = .table → item.divider = false)
    (inside : range.contains tree (item.key tree) = true) : Fenced tree lower upper [item] := by
  unfold KeyRange.contains at inside
  rw [of_.low, of_.high, Bool.and_eq_true] at inside
  apply fenced_item
  · intro bound isLower
    rw [Option.mem_def] at isLower
    subst isLower
    exact (of_.bounds bound List.mem_cons_self).before.mpr (beq_iff_eq.mp inside.1)
  · intro bound isUpper
    rw [Option.mem_def] at isUpper
    subst isUpper
    have bounds := of_.bounds bound (List.mem_append_right _ List.mem_cons_self)
    have within := inside.2
    cases tree with
    | index => exact beq_iff_eq.mp within
    | table =>
      have atMost : compare item.row bound.row ≠ .gt := bne_iff_ne.mp within
      rcases Int64.lt_or_eq_of_le (Int64.not_lt.mp (mt Std.compare_eq_gt.mpr atMost)) with less | same
      · exact .inl less
      · exact .inr ⟨same, entry rfl, bounds rfl⟩

theorem Rising.sorted (entries : ∀ item ∈ items, tree = .table → item.divider = false)
    (rising : Rising (before.map (Item.key tree)) (items.map (Item.key tree))) :
    Sorted tree .binary (before.toList ++ items) := by
  induction items generalizing before with
  | nil => cases before <;> simp [Sorted]
  | cons item rest ih =>
    obtain ⟨first, later⟩ := rising
    obtain ⟨entry, others⟩ := List.forall_mem_cons.mp entries
    have later : Rising ((some item).map (Item.key tree)) (rest.map (Item.key tree)) := later
    refine Sorted.glue ?_ (ih others later)
    cases before with
    | none => exact List.pairwise_singleton _ item
    | some last => exact List.pairwise_pair.mpr (Item.before_of_entry entry (beq_iff_eq.mp first))

end Integrity

end TreeFile
