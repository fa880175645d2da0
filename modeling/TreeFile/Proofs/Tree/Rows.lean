import TreeFile.Proofs.Overflow.Chains

/-!
Rows: items with what hangs left of each of them and behind the last. What is read off a row from
left to right does not change when rows are joined or cut at an item.
-/

namespace TreeFile

theorem insertIdx_split {α : Type} {list : List α} {i : Nat} (x : α) (low : i ≤ list.length) :
    list.insertIdx i x = list.take i ++ x :: list.drop i := by
  induction list generalizing i with
  | nil =>
    have zero : i = 0 := Nat.le_zero.mp low
    subst zero
    rfl
  | cons first rest ih =>
    cases i with
    | zero => rfl
    | succ i => rw [List.insertIdx_succ_cons, ih (Nat.le_of_succ_le_succ low), List.take_succ_cons,
        List.drop_succ_cons, List.cons_append]

structure Row (T : Type) where
  cells : List (T × Item)
  last : T

structure Node (T : Type) where
  page : Nat
  row : Row T

namespace Row

variable {T α : Type} {f : T → List α} {g : Item → List α} {row : Row T} {a b : List (T × Item)}

def items (row : Row T) : List Item := row.cells.map Prod.snd

def kids (row : Row T) : List T := row.cells.map Prod.fst ++ [row.last]

def read (f : T → List α) (g : Item → List α) (cells : List (T × Item)) : List α :=
  cells.flatMap fun c => f c.1 ++ g c.2

def gather (f : T → List α) (g : Item → List α) (row : Row T) : List α :=
  read f g row.cells ++ f row.last

theorem read_nil : read f g [] = [] := rfl

theorem read_cons (c : T × Item) : read f g (c :: a) = f c.1 ++ g c.2 ++ read f g a := rfl

theorem read_append : read f g (a ++ b) = read f g a ++ read f g b := List.flatMap_append

theorem mem_gather {x : α} : x ∈ row.gather f g ↔
    (∃ kid ∈ row.kids, x ∈ f kid) ∨ ∃ item ∈ row.items, x ∈ g item := by
  unfold gather read kids items
  simp only [List.mem_append, List.mem_flatMap, List.mem_map, List.mem_singleton]
  constructor
  · rintro (⟨c, member, first | second⟩ | last)
    · exact .inl ⟨c.1, .inl ⟨c, member, rfl⟩, first⟩
    · exact .inr ⟨c.2, ⟨c, member, rfl⟩, second⟩
    · exact .inl ⟨row.last, .inr rfl, last⟩
  · rintro (⟨kid, ⟨c, member, rfl⟩ | rfl, inside⟩ | ⟨item, ⟨c, member, rfl⟩, inside⟩)
    · exact .inl ⟨c, member, .inl inside⟩
    · exact .inr inside
    · exact .inl ⟨c, member, .inr inside⟩

theorem gather_perm : (row.gather f g).Perm (row.kids.flatMap f ++ row.items.flatMap g) := by
  obtain ⟨cells, last⟩ := row
  unfold gather kids items
  dsimp only
  classical
  induction cells with
  | nil => simp [read_nil]
  | cons c rest ih =>
    simp only [read_cons, List.map_cons, List.flatMap_cons, List.cons_append]
    grind

def head : Row T → T
  | ⟨[], last⟩ => last
  | ⟨c :: _, _⟩ => c.1

def setHead (kid : T) : Row T → Row T
  | ⟨[], _⟩ => ⟨[], kid⟩
  | ⟨c :: rest, last⟩ => ⟨(kid, c.2) :: rest, last⟩

def behind (f : T → List α) (g : Item → List α) : Row T → List α
  | ⟨[], _⟩ => []
  | ⟨c :: rest, last⟩ => g c.2 ++ gather f g ⟨rest, last⟩

def prepend (cells : List (T × Item)) (row : Row T) : Row T := ⟨cells ++ row.cells, row.last⟩

def drop (row : Row T) (i : Nat) : Row T := ⟨row.cells.drop i, row.last⟩

def kid (row : Row T) (i : Nat) : T := (row.drop i).head

def setKid (row : Row T) (i : Nat) (kid : T) : Row T :=
  prepend (row.cells.take i) ((row.drop i).setHead kid)

theorem gather_head : row.gather f g = f row.head ++ row.behind f g := by
  obtain ⟨cells, last⟩ := row
  cases cells with
  | nil =>
    unfold gather behind head
    rw [read_nil, List.nil_append, List.append_nil]
  | cons c rest =>
    unfold gather behind head
    dsimp only
    unfold gather
    rw [read_cons]
    simp only [List.append_assoc]

theorem head_setHead (kid : T) : (row.setHead kid).head = kid := by
  obtain ⟨cells, last⟩ := row
  cases cells <;> rfl

theorem behind_setHead (kid : T) : (row.setHead kid).behind f g = row.behind f g := by
  obtain ⟨cells, last⟩ := row
  cases cells <;> rfl

theorem setHead_head : row.setHead row.head = row := by
  obtain ⟨cells, last⟩ := row
  cases cells <;> rfl

theorem items_setHead (kid : T) : (row.setHead kid).items = row.items := by
  obtain ⟨cells, last⟩ := row
  cases cells <;> rfl

theorem kids_head : row.kids = row.head :: (row.kids.drop 1) := by
  obtain ⟨cells, last⟩ := row
  cases cells <;> rfl

theorem kids_setHead (kid : T) : (row.setHead kid).kids = kid :: (row.kids.drop 1) := by
  obtain ⟨cells, last⟩ := row
  cases cells <;> rfl

theorem gather_prepend : (prepend a row).gather f g = read f g a ++ row.gather f g := by
  unfold gather prepend
  rw [read_append, List.append_assoc]

theorem kids_prepend : (prepend a row).kids = a.map Prod.fst ++ row.kids := by
  unfold kids prepend
  rw [List.map_append, List.append_assoc]

theorem items_prepend : (prepend a row).items = a.map Prod.snd ++ row.items := by
  unfold items prepend
  rw [List.map_append]

theorem prepend_drop (i : Nat) : prepend (row.cells.take i) (row.drop i) = row := by
  unfold prepend drop
  rw [List.take_append_drop]

theorem gather_kid (i : Nat) : row.gather f g =
    read f g (row.cells.take i) ++ (f (row.kid i) ++ (row.drop i).behind f g) := by
  unfold kid
  rw [← gather_head, ← gather_prepend, prepend_drop]

theorem gather_setKid (i : Nat) (kid : T) : (row.setKid i kid).gather f g =
    read f g (row.cells.take i) ++ (f kid ++ (row.drop i).behind f g) := by
  unfold setKid
  rw [gather_prepend, gather_head, head_setHead, behind_setHead]

theorem items_setKid (i : Nat) (kid : T) : (row.setKid i kid).items = row.items := by
  unfold setKid
  rw [items_prepend, items_setHead, ← items_prepend, prepend_drop]

theorem length_setKid (i : Nat) (kid : T) :
    (row.setKid i kid).cells.length = row.cells.length := by
  have same := congrArg List.length (row.items_setKid i kid)
  unfold items at same
  rw [List.length_map, List.length_map] at same
  exact same

theorem kid_mem (i : Nat) : row.kid i ∈ row.kids := by
  have same := row.prepend_drop i
  rw [← same, kids_prepend, same]
  refine List.mem_append_right _ ?_
  rw [kids_head]
  exact List.mem_cons_self

theorem kid_setKid {i : Nat} (inside : i ≤ row.cells.length) (kid : T) :
    (row.setKid i kid).kid i = kid := by
  have length : (row.cells.take i).length = i := List.length_take_of_le inside
  have whole : (row.setKid i kid).drop i = (row.drop i).setHead kid := by
    unfold setKid prepend drop
    dsimp only
    rw [List.drop_append_of_le_length (Nat.le_of_eq length.symm),
      List.drop_eq_nil_of_le (Nat.le_of_eq length), List.nil_append]
  unfold Row.kid
  rw [whole, head_setHead]

theorem length_items (row : Row T) : row.items.length = row.cells.length := List.length_map _

theorem length_kids : row.kids.length = row.cells.length + 1 := by
  unfold kids
  rw [List.length_append, List.length_map]
  rfl

theorem kids_drop {i : Nat} (inside : i ≤ row.cells.length) : (row.drop i).kids = row.kids.drop i := by
  unfold drop kids
  rw [List.drop_append_of_le_length (by rw [List.length_map]; exact inside), List.map_drop]

theorem kids_get {i : Nat} (inside : i ≤ row.cells.length) : row.kids[i]? = some (row.kid i) := by
  have length : ((row.cells.take i).map Prod.fst).length = i := by
    rw [List.length_map, List.length_take_of_le inside]
  have same := row.prepend_drop i
  rw [← same, kids_prepend, same, List.getElem?_append_right (Nat.le_of_eq length), length, Nat.sub_self,
    kids_head]
  rfl

theorem mem_kids {kid : T} : kid ∈ row.kids ↔ ∃ i, i ≤ row.cells.length ∧ kid = row.kid i := by
  constructor
  · intro member
    obtain ⟨i, less, got⟩ := List.mem_iff_getElem.mp member
    rw [length_kids] at less
    have inside := Nat.le_of_lt_succ less
    have same := kids_get inside
    rw [List.getElem?_eq_getElem (by rw [length_kids]; exact less), got] at same
    exact ⟨i, inside, Option.some.inj same⟩
  · rintro ⟨i, -, rfl⟩
    exact row.kid_mem i

theorem kids_setKid {i : Nat} (inside : i ≤ row.cells.length) (kid : T) :
    (row.setKid i kid).kids = row.kids.set i kid := by
  have length : ((row.cells.take i).map Prod.fst).length = i := by
    rw [List.length_map, List.length_take_of_le inside]
  have whole : row.kids = (row.cells.take i).map Prod.fst ++ (row.drop i).kids := by
    rw [← kids_prepend, prepend_drop]
  unfold setKid
  rw [kids_prepend, kids_setHead, whole, List.set_append_right _ _ (Nat.le_of_eq length), length, Nat.sub_self,
    kids_head]
  rfl

theorem kid_setKid_other {i j : Nat} (inside : i ≤ row.cells.length) (insideJ : j ≤ row.cells.length)
    (other : j ≠ i) (kid : T) : (row.setKid i kid).kid j = row.kid j := by
  have new : (row.setKid i kid).kids[j]? = some ((row.setKid i kid).kid j) :=
    kids_get (by rw [length_setKid]; exact insideJ)
  rw [kids_setKid inside, List.getElem?_set_ne (Ne.symm other), kids_get insideJ] at new
  exact Option.some.inj new.symm

theorem mem_kids_setKid {i : Nat} (inside : i ≤ row.cells.length) {kid other : T}
    (member : other ∈ (row.setKid i kid).kids) :
    other = kid ∨ ∃ j, j ≤ row.cells.length ∧ j ≠ i ∧ other = row.kid j := by
  obtain ⟨j, bound, rfl⟩ := mem_kids.mp member
  rw [length_setKid] at bound
  by_cases here : j = i
  · rw [here]
    exact .inl (kid_setKid inside kid)
  · exact .inr ⟨j, bound, here, kid_setKid_other inside bound here kid⟩

theorem cells_get {i : Nat} (inside : i < row.cells.length) :
    row.cells[i] = (row.kid i, row.items.getD i default) := by
  unfold kid drop items
  rw [List.drop_eq_getElem_cons inside, List.getD_eq_getElem?_getD, List.getElem?_map,
    List.getElem?_eq_getElem inside]
  rfl

/-- The rows of the nodes, one after the other. The items between the nodes stay in between if
`keep` says so. -/
def flatten (keep : Bool) (window : Row (Node T)) : Row T where
  cells := (window.cells.flatMap fun c =>
    c.1.row.cells ++ if keep then [(c.1.row.last, c.2)] else []) ++ window.last.row.cells
  last := window.last.row.last

theorem flatten_cons (keep : Bool) (node : Node T) (item : Item) (rest : List (Node T × Item))
    (last : Node T) : flatten keep ⟨(node, item) :: rest, last⟩ =
      prepend (node.row.cells ++ if keep then [(node.row.last, item)] else [])
        (flatten keep ⟨rest, last⟩) := by
  unfold flatten prepend
  simp only [List.flatMap_cons, List.append_assoc]

theorem gather_flatten (window : Row (Node T)) :
    window.gather (fun node => node.row.gather f g) g = (window.flatten true).gather f g := by
  obtain ⟨cells, last⟩ := window
  induction cells with
  | nil => rfl
  | cons c rest ih =>
    obtain ⟨node, item⟩ := c
    rw [flatten_cons, gather_prepend, ← ih]
    unfold gather
    dsimp only
    rw [read_cons, if_pos rfl, read_append, read_cons, read_nil]
    simp only [List.append_assoc, List.append_nil]

theorem gather_flatten_leaf (nothing : ∀ kid, f kid = []) (window : Row (Node T)) :
    window.gather (fun node => node.row.gather f g) (fun _ => []) =
      (window.flatten false).gather f g := by
  obtain ⟨cells, last⟩ := window
  induction cells with
  | nil => rfl
  | cons c rest ih =>
    obtain ⟨node, item⟩ := c
    rw [flatten_cons, gather_prepend, ← ih]
    unfold gather
    dsimp only
    rw [read_cons, if_neg (by decide), List.append_nil, List.append_nil, nothing node.row.last]
    simp only [List.append_assoc, List.append_nil]

theorem gather_kids (k : T → α) : row.gather (fun kid => [k kid]) (fun _ => []) = row.kids.map k := by
  obtain ⟨cells, last⟩ := row
  unfold gather read kids
  rw [List.map_append, List.map_map]
  congr 1
  dsimp only
  simp only [List.append_nil]
  exact List.map_eq_flatMap.symm

theorem gather_items (k : Item → α) : row.gather (fun _ => []) (fun item => [k item]) = row.items.map k := by
  obtain ⟨cells, last⟩ := row
  unfold gather read items
  rw [List.map_map, List.append_nil]
  exact List.map_eq_flatMap.symm

theorem mem_behind {x : α} : x ∈ row.behind f g ↔
    (∃ kid ∈ row.kids.drop 1, x ∈ f kid) ∨ ∃ item ∈ row.items, x ∈ g item := by
  obtain ⟨cells, last⟩ := row
  cases cells with
  | nil =>
    change x ∈ [] ↔ (∃ kid ∈ [], x ∈ f kid) ∨ ∃ item ∈ [], x ∈ g item
    simp only [List.not_mem_nil, false_and, exists_false, or_self]
  | cons c rest =>
    change x ∈ g c.2 ++ gather f g ⟨rest, last⟩ ↔
      (∃ kid ∈ kids ⟨rest, last⟩, x ∈ f kid) ∨ ∃ item ∈ c.2 :: items ⟨rest, last⟩, x ∈ g item
    rw [List.mem_append, mem_gather, List.exists_mem_cons_iff]
    exact or_left_comm

theorem mem_read {x : α} : x ∈ read f g a ↔ ∃ c ∈ a, x ∈ f c.1 ∨ x ∈ g c.2 := by
  unfold read
  simp only [List.mem_flatMap, List.mem_append]

theorem mem_kids_flatten {window : Row (Node T)} {kid : T} :
    kid ∈ (window.flatten true).kids ↔ ∃ node ∈ window.kids, kid ∈ node.row.kids := by
  have same := gather_flatten (f := fun kid => [kid]) (g := fun _ => []) window
  rw [gather_kids, List.map_id'] at same
  rw [← same, mem_gather]
  simp only [List.not_mem_nil, and_false, exists_false, or_false, gather_kids, List.map_id']

theorem mem_items_flatten {keep : Bool} {window : Row (Node T)} {item : Item} :
    item ∈ (window.flatten keep).items ↔
      (∃ node ∈ window.kids, item ∈ node.row.items) ∨ keep = true ∧ item ∈ window.items := by
  cases keep with
  | true =>
    have same := gather_flatten (f := fun _ => []) (g := fun item => [item]) window
    rw [gather_items, List.map_id'] at same
    rw [← same, mem_gather]
    simp only [gather_items, List.map_id', List.mem_singleton, exists_eq_right', true_and]
  | false =>
    have same := gather_flatten_leaf (f := fun _ => []) (g := fun item => [item]) (fun _ => rfl) window
    rw [gather_items, List.map_id'] at same
    rw [← same, mem_gather]
    simp only [gather_items, List.map_id', List.not_mem_nil, and_false, exists_false, or_false, Bool.false_eq_true,
      false_and]

end Row

end TreeFile
