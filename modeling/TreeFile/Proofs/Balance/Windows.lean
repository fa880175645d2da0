import TreeFile.Proofs.Balance.Distribution
import TreeFile.Proofs.Tree.Order

/-!
A window on a row: some neighbouring kids with the items between them. Balancing puts another
window in its place, which has the same kids and items one level down.
-/

namespace TreeFile

namespace Row

variable {T α : Type} {f : T → List α} {g : Item → List α} {row new : Row T}

def window (row : Row T) (first last : Nat) : Row T :=
  ⟨(row.cells.drop first).take (last - first), row.kid last⟩

def splice (row : Row T) (first last : Nat) (new : Row T) : Row T :=
  prepend (row.cells.take first) (prepend new.cells ((row.drop last).setHead new.last))

theorem splice_window {first last : Nat} (order : first ≤ last) :
    row.splice first last (row.window first last) = row := by
  unfold splice window kid
  rw [setHead_head]
  unfold prepend drop
  obtain ⟨cells, behind⟩ := row
  have rest : cells.drop last = (cells.drop first).drop (last - first) := by
    rw [List.drop_drop, Nat.add_sub_cancel' order]
  dsimp only
  rw [rest, List.take_append_drop, List.take_append_drop]

theorem gather_splice (first last : Nat) : (row.splice first last new).gather f g =
    read f g (row.cells.take first) ++ new.gather f g ++ (row.drop last).behind f g := by
  unfold splice
  rw [gather_prepend, gather_prepend, gather_head, head_setHead, behind_setHead]
  unfold gather
  simp only [List.append_assoc]

theorem gather_window {first last : Nat} (order : first ≤ last) : row.gather f g =
    read f g (row.cells.take first) ++ (row.window first last).gather f g ++
      (row.drop last).behind f g := by
  rw [← gather_splice, splice_window order]

theorem kids_splice (first last : Nat) : (row.splice first last new).kids =
    (row.cells.take first).map Prod.fst ++ new.kids ++ (row.drop last).kids.drop 1 := by
  unfold splice
  rw [kids_prepend, kids_prepend, kids_setHead]
  unfold kids
  simp only [List.append_assoc, List.cons_append, List.nil_append]

theorem items_splice (first last : Nat) : (row.splice first last new).items =
    (row.cells.take first).map Prod.snd ++ new.items ++ (row.drop last).items := by
  unfold splice
  rw [items_prepend, items_prepend, items_setHead]
  unfold items
  rw [List.append_assoc]

theorem mem_kids_splice {first last : Nat} {kid : T} (member : kid ∈ (row.splice first last new).kids) :
    kid ∈ new.kids ∨ kid ∈ (row.cells.take first).map Prod.fst ∨ kid ∈ (row.drop last).kids.drop 1 := by
  rw [kids_splice] at member
  simp only [List.mem_append] at member
  tauto

theorem mem_kids_window {first last : Nat} {kid : T} (member : kid ∈ (row.window first last).kids) :
    kid ∈ row.kids := by
  rcases List.mem_append.mp member with inside | final
  · unfold window at inside
    dsimp only at inside
    rw [List.map_take, List.map_drop] at inside
    exact List.mem_append_left _ (List.mem_of_mem_drop (List.mem_of_mem_take inside))
  · rw [List.mem_singleton.mp final]
    exact row.kid_mem last

theorem mem_items_window {first last : Nat} {item : Item}
    (member : item ∈ (row.window first last).items) : item ∈ row.items := by
  unfold items window at member
  dsimp only at member
  rw [List.map_take, List.map_drop] at member
  exact List.mem_of_mem_drop (List.mem_of_mem_take member)

theorem kids_window {first last : Nat} (order : first ≤ last) (inside : last ≤ row.cells.length) :
    (row.window first last).kids = (row.kids.drop first).take (last + 1 - first) := by
  have length : (row.cells.map Prod.fst).length = row.cells.length := List.length_map _
  have final : (row.kids.drop first)[last - first]? = some (row.kid last) := by
    rw [List.getElem?_drop, Nat.add_sub_cancel' order, kids_get inside]
  rw [Nat.sub_add_comm order, List.take_add_one, final]
  unfold kids window
  dsimp only
  rw [List.drop_append_of_le_length (by omega), List.take_append_of_le_length (by rw [List.length_drop]; omega),
    List.map_take, List.map_drop]
  rfl

theorem items_window (first last : Nat) :
    (row.window first last).items = (row.items.drop first).take (last - first) := by
  unfold items window
  rw [List.map_take, List.map_drop]

theorem drop_cons {i : Nat} (inside : i < row.cells.length) :
    row.cells.drop i = (row.kid i, row.items.getD i default) :: row.cells.drop (i + 1) := by
  rw [List.drop_eq_getElem_cons inside, cells_get inside]

theorem window_self (i : Nat) : row.window i i = ⟨[], row.kid i⟩ := by
  unfold window
  rw [Nat.sub_self, List.take_zero]

theorem window_step {first last : Nat} (less : first < last) (inside : last ≤ row.cells.length) :
    row.window first last =
      prepend [(row.kid first, row.items.getD first default)] (row.window (first + 1) last) := by
  unfold window prepend
  rw [drop_cons (by omega), show last - first = last - (first + 1) + 1 by omega, List.take_succ_cons]
  rfl

def between (row : Row T) (span : Span) : List (T × Item) := (row.cells.drop span.start).take span.length

/-- What stands behind a span. The items of a leaf of a table stay on the leaf, and a divider
repeats the last row number. -/
def divider (keep : Bool) (row : Row T) (span : Span) : Item :=
  if keep then row.items.getD span.stop default
  else .dividing (row.items.getD (span.stop - 1) default).row

def assemble (keep : Bool) (row : Row T) : List (Nat × Span) → Row (Node T)
  | [] => ⟨[], ⟨0, row⟩⟩
  | [(number, span)] => ⟨[], ⟨number, ⟨row.between span, row.last⟩⟩⟩
  | (number, span) :: next :: rest =>
    prepend [(⟨number, ⟨row.between span, row.kid span.stop⟩⟩, row.divider keep span)]
      (assemble keep row (next :: rest))

variable {keep : Bool} {start : Nat}

theorem between_append (row : Row T) {span : Span} (order : span.start ≤ span.stop) :
    row.between span ++ row.cells.drop span.stop = row.cells.drop span.start := by
  unfold between Span.length
  have rest : row.cells.drop span.stop = (row.cells.drop span.start).drop (span.stop - span.start) := by
    rw [List.drop_drop, Nat.add_sub_cancel' order]
  rw [rest, List.take_append_drop]

theorem flatten_assemble {list : List (Nat × Span)}
    (covers : Covers keep row.cells.length start (list.map Prod.snd)) :
    (assemble keep row list).flatten keep = row.drop start := by
  induction list generalizing start with
  | nil => exact covers.elim
  | cons first rest ih =>
    obtain ⟨number, span⟩ := first
    cases rest with
    | nil =>
      obtain ⟨same, order, stop⟩ := covers
      dsimp only at same order stop
      unfold flatten assemble drop between Span.length
      dsimp only
      rw [List.flatMap_nil, List.nil_append, same, stop]
      congr 1
      exact List.take_of_length_le (Nat.le_of_eq List.length_drop)
    | cons next others =>
      obtain ⟨same, order, later⟩ := covers
      change Covers keep row.cells.length (span.stop + Distribution.gap keep)
        ((next :: others).map Prod.snd) at later
      dsimp only at same order
      have bound := later.start_le
      have joined := row.between_append (same ▸ order : span.start ≤ span.stop)
      unfold assemble
      change flatten keep ⟨(_, _) :: _, _⟩ = _
      rw [flatten_cons]
      change prepend _ ((assemble keep row (next :: others)).flatten keep) = _
      rw [ih later, ← same]
      unfold prepend drop
      congr 1
      rw [← joined, List.append_assoc]
      congr 1
      cases keep with
      | false => rfl
      | true =>
        have inside : span.stop < row.cells.length := Nat.lt_of_succ_le bound
        rw [drop_cons inside]
        rfl

theorem assemble_pages {list : List (Nat × Span)} (some_ : list ≠ []) :
    (assemble keep row list).kids.map Node.page = list.map Prod.fst := by
  induction list with
  | nil => exact absurd rfl some_
  | cons first rest ih =>
    cases rest with
    | nil => rfl
    | cons next others =>
      unfold assemble
      rw [kids_prepend, List.map_append, ih (List.cons_ne_nil _ _)]
      rfl

theorem assemble_zip {numbers : List Nat} {spans : List Span} (covers : Covers keep row.cells.length start spans)
    (length : numbers.length = spans.length) : (numbers.zip spans).map Prod.snd = spans ∧ numbers.zip spans ≠ [] ∧
      (assemble keep row (numbers.zip spans)).kids.map Node.page = numbers := by
  have zipped : (numbers.zip spans).map Prod.snd = spans := List.map_snd_zip (Nat.le_of_eq length.symm)
  have some_ : numbers.zip spans ≠ [] := by
    intro nothing
    rw [nothing] at zipped
    rw [← zipped] at covers
    exact covers.elim
  exact ⟨zipped, some_, (assemble_pages some_).trans (List.map_fst_zip (Nat.le_of_eq length))⟩

theorem assemble_items {list : List (Nat × Span)} {item : Item}
    (member : item ∈ (assemble keep row list).items) : ∃ span, item = row.divider keep span := by
  induction list with
  | nil => cases member
  | cons first rest ih =>
    cases rest with
    | nil => cases member
    | cons next others =>
      unfold assemble at member
      rw [items_prepend] at member
      rcases List.mem_cons.mp member with rfl | later
      · exact ⟨first.2, rfl⟩
      · exact ih later

theorem assemble_peopled {list : List (Nat × Span)}
    (covers : Covers keep row.cells.length start (list.map Prod.snd))
    (peopled : Peopled (list.map Prod.snd)) : ∀ node ∈ (assemble keep row list).kids, node.row.cells ≠ [] := by
  have wide : ∀ span : Span, span.start < span.stop → span.stop ≤ row.cells.length → row.between span ≠ [] := by
    intro span order bound nothing
    have length := congrArg List.length nothing
    unfold between Span.length at length
    rw [List.length_take, List.length_drop, List.length_nil] at length
    omega
  induction list generalizing start with
  | nil => exact covers.elim
  | cons first rest ih =>
    obtain ⟨number, span⟩ := first
    have order := peopled span List.mem_cons_self
    cases rest with
    | nil =>
      intro node member
      rw [List.mem_singleton.mp member]
      exact wide span order (Nat.le_of_eq covers.2.2)
    | cons next others =>
      have later := covers.2.2
      change Covers keep row.cells.length (span.stop + Distribution.gap keep)
        ((next :: others).map Prod.snd) at later
      have bound := later.start_le
      intro node member
      unfold assemble at member
      rw [kids_prepend] at member
      rcases List.mem_cons.mp member with rfl | inside
      · exact wide span order (by omega)
      · exact ih later (fun other inner => peopled other (List.mem_cons_of_mem _ inner)) node inside

theorem items_between (row : Row T) (span : Span) :
    (row.between span).map Prod.snd = (row.items.drop span.start).take span.length := by
  unfold between items
  rw [List.map_take, List.map_drop]

theorem between_last {span : Span} (some_ : span.start < span.stop) (inside : span.stop ≤ row.cells.length) :
    ∃ before, (row.between span).map Prod.snd = before ++ [row.items.getD (span.stop - 1) default] := by
  have length : row.items.length = row.cells.length := List.length_map _
  have longer : span.length = span.stop - 1 - span.start + 1 := by
    unfold Span.length
    omega
  refine ⟨(row.items.drop span.start).take (span.stop - 1 - span.start), ?_⟩
  rw [items_between, longer, List.take_add_one, List.getElem?_drop,
    show span.start + (span.stop - 1 - span.start) = span.stop - 1 by omega, List.getD_eq_getElem?_getD,
    List.getElem?_eq_getElem (by omega)]
  rfl

theorem assemble_dividers {list : List (Nat × Span)}
    (covers : Covers false row.cells.length start (list.map Prod.snd)) (peopled : Peopled (list.map Prod.snd)) :
    ∀ c ∈ (assemble false row list).cells, ∃ before item, c.1.row.items = before ++ [item] ∧ c.2 = .dividing item.row := by
  induction list generalizing start with
  | nil => exact covers.elim
  | cons first rest ih =>
    obtain ⟨number, span⟩ := first
    cases rest with
    | nil => exact fun c member => absurd member List.not_mem_nil
    | cons next others =>
      have later := covers.2.2
      change Covers false row.cells.length (span.stop + Distribution.gap false)
        ((next :: others).map Prod.snd) at later
      have bound := later.start_le
      obtain ⟨before, last⟩ := row.between_last (peopled span List.mem_cons_self) (by omega)
      intro c member
      rcases List.mem_cons.mp member with rfl | inside
      · exact ⟨before, _, last, rfl⟩
      · exact ih later (fun other inner => peopled other (List.mem_cons_of_mem _ inner)) c inside

/-- A window and its one row have the same content. Where the items between the nodes are left out,
nothing may be read off these or off what hangs left of items. -/
theorem gather_keep {window : Row (Node T)}
    (nothing : keep = false → (∀ kid, f kid = []) ∧ ∀ item ∈ window.items, g item = []) :
    window.gather (fun node => node.row.gather f g) g = (window.flatten keep).gather f g := by
  cases keep with
  | true => exact gather_flatten window
  | false =>
    obtain ⟨kids, items⟩ := nothing rfl
    rw [← gather_flatten_leaf kids window]
    exact gather_congr (fun _ _ => rfl) items

theorem gather_nodes {window : Row (Node T)} (k : Node T → α)
    (nothing : keep = false → (∀ kid, f kid = []) ∧ ∀ item ∈ window.items, g item = []) :
    (window.gather (fun node => k node :: node.row.gather f g) g).Perm
      (window.kids.map k ++ (window.flatten keep).gather f g) := by
  rw [← gather_keep nothing, ← gather_kids k]
  exact gather_split _ _ _ _ (fun _ _ => rfl) fun _ _ => rfl

theorem hanging_window {h : Nat} {window : Row (Node (Limb h))}
    (nothing : keep = false → h = 0 ∧ ∀ item ∈ window.items, item.chain = []) :
    (hanging (h := h + 1) window).Perm (window.kids.map Node.page ++ (window.flatten keep).hanging) :=
  gather_nodes Node.page fun none_ => by
    obtain ⟨rfl, items⟩ := nothing none_
    exact ⟨fun _ => rfl, items⟩

/-- How the kids from `first` to `last` are laid out anew, among them the one at `index`. -/
structure Relaid (keep : Bool) (index : Nat) (row : Row (Node T)) (first last : Nat)
    (list : List (Nat × Span)) : Prop where
  low : first ≤ index
  high : index ≤ last
  inside : last ≤ row.cells.length
  wide : row.cells ≠ [] → first < last
  covers : Covers keep ((row.window first last).flatten keep).cells.length 0 (list.map Prod.snd)
  peopled : ((row.window first last).flatten keep).cells ≠ [] → Peopled (list.map Prod.snd)
  single : ((row.window first last).flatten keep).cells = [] → list.length = 1

def relaid (keep : Bool) (row : Row (Node T)) (first last : Nat) (list : List (Nat × Span)) :
    Row (Node T) := ((row.window first last).flatten keep).assemble keep list

theorem Relaid.flatten {index first last : Nat} {row : Row (Node T)} {list : List (Nat × Span)}
    (relaid : Relaid keep index row first last list) :
    (row.relaid keep first last list).flatten keep = (row.window first last).flatten keep := by
  unfold Row.relaid
  rw [flatten_assemble relaid.covers]
  rfl

theorem kid_of_before {i : Nat} {kid : T} (inside : i ≤ row.cells.length)
    (member : kid ∈ (row.cells.take i).map Prod.fst) : ∃ j, j < i ∧ kid = row.kid j := by
  obtain ⟨c, among, rfl⟩ := List.mem_map.mp member
  obtain ⟨j, less, rfl⟩ := List.mem_iff_getElem.mp among
  rw [List.length_take] at less
  have short : j < row.cells.length := by omega
  refine ⟨j, by omega, ?_⟩
  rw [List.getElem_take, cells_get short]

theorem kid_of_behind {i : Nat} {kid : T} (inside : i ≤ row.cells.length)
    (member : kid ∈ (row.drop i).kids.drop 1) : ∃ j, i < j ∧ j ≤ row.cells.length ∧ kid = row.kid j := by
  rw [kids_drop inside, List.drop_drop] at member
  obtain ⟨j, less, rfl⟩ := List.mem_iff_getElem.mp member
  rw [List.length_drop, length_kids] at less
  refine ⟨i + 1 + j, by omega, by omega, ?_⟩
  rw [List.getElem_drop]
  have got : row.kids[i + 1 + j]? = some (row.kid (i + 1 + j)) := kids_get (by omega)
  rw [List.getElem?_eq_getElem (by rw [length_kids]; omega)] at got
  exact Option.some.inj got

theorem Relaid.kids {index first last : Nat} {row : Row (Node T)} {list : List (Nat × Span)}
    (relaid : Relaid keep index row first last list) {node : Node T}
    (member : node ∈ (row.splice first last (row.relaid keep first last list)).kids) :
    node ∈ (row.relaid keep first last list).kids ∨
      ∃ i, i ≤ row.cells.length ∧ i ≠ index ∧ node = row.kid i := by
  have low := relaid.low
  have high := relaid.high
  have inside := relaid.inside
  rcases mem_kids_splice member with new | before | behind
  · exact .inl new
  · obtain ⟨i, less, same⟩ := kid_of_before (by omega) before
    exact .inr ⟨i, by omega, by omega, same⟩
  · obtain ⟨i, more, bound, same⟩ := kid_of_behind inside behind
    exact .inr ⟨i, bound, by omega, same⟩

theorem drop_getD {items : List Item} {i : Nat} (inside : i < items.length) :
    items.drop i = items.getD i default :: items.drop (i + 1) := by
  rw [List.drop_eq_getElem_cons inside, List.getD_eq_getElem?_getD, List.getElem?_eq_getElem inside]
  rfl

theorem regrouped_assemble {row : Row (Limb 0)} {list : List (Nat × Span)}
    (covers : Covers false row.cells.length start (list.map Prod.snd))
    (peopled : list.length ≠ 1 → Peopled (list.map Prod.snd))
    (entries : ∀ item ∈ row.items, item.divider = false) :
    Regrouped .table (row.items.drop start)
      ((assemble false row list).gather (fun node => node.row.items) fun item => [item]) := by
  have length : row.items.length = row.cells.length := List.length_map _
  induction list generalizing start with
  | nil => exact covers.elim
  | cons first rest ih =>
    obtain ⟨number, span⟩ := first
    cases rest with
    | nil =>
      obtain ⟨same, order, stop⟩ := covers
      dsimp only at same order stop
      refine .of_eq ?_
      change _ = (row.between span).map Prod.snd
      rw [items_between, same, List.take_of_length_le]
      unfold Span.length
      rw [List.length_drop]
      omega
    | cons next others =>
      have wide := peopled (by simp)
      have order := wide span List.mem_cons_self
      have later := covers.2.2
      have same : span.start = start := covers.1
      change Covers false row.cells.length (span.stop + 0) ((next :: others).map Prod.snd) at later
      rw [Nat.add_zero] at later
      have bound := later.start_le
      have regrouped := ih later fun _ other inner => wide other (List.mem_cons_of_mem _ inner)
      have more : span.stop < row.items.length := by
        cases others with
        | nil =>
          have last := wide next.2 (List.mem_cons_of_mem _ List.mem_cons_self)
          have stop := later.2.2
          have begin_ := later.1
          omega
        | cons second others =>
          have least := later.2.2.start_le
          have last := wide next.2 (List.mem_cons_of_mem _ List.mem_cons_self)
          have begin_ := later.1
          omega
      obtain ⟨a, isA⟩ : ∃ a, a = row.items.getD (span.stop - 1) default := ⟨_, rfl⟩
      obtain ⟨b, isB⟩ : ∃ b, b = row.items.getD span.stop default := ⟨_, rfl⟩
      have dropA : row.items.drop (span.stop - 1) = a :: row.items.drop span.stop := by
        rw [drop_getD (by omega), isA, Nat.sub_add_cancel (by omega)]
      have dropB : row.items.drop span.stop = b :: row.items.drop (span.stop + 1) := by
        rw [drop_getD more, isB]
      have entryA : a.divider = false :=
        entries a (List.mem_of_mem_drop (dropA ▸ List.mem_cons_self))
      have entryB : b.divider = false :=
        entries b (List.mem_of_mem_drop (dropB ▸ List.mem_cons_self))
      obtain ⟨before, span_⟩ := row.between_last order (by omega)
      rw [← isA] at span_
      have front : row.items.drop start = before ++ a :: row.items.drop span.stop := by
        have joined := congrArg (List.map Prod.snd) (row.between_append (Nat.le_of_lt order))
        rw [List.map_append, List.map_drop, List.map_drop, same, span_, ← List.append_cons] at joined
        exact joined.symm
      have step := (Regrouped.insert_dividing entryA entryB).context before
        (row.items.drop (span.stop + 1))
      have after := regrouped.context (before ++ [a, .dividing a.row]) []
      unfold assemble
      rw [gather_prepend, read_cons, read_nil]
      change Regrouped .table _ ((row.between span).map Prod.snd ++ [row.divider false span] ++ [] ++ _)
      have isDivider : row.divider false span = .dividing a.row := by
        rw [isA]
        rfl
      rw [span_, isDivider, front, dropB]
      rw [dropB] at after
      simp only [List.append_assoc, List.cons_append, List.nil_append, List.append_nil] at step after ⊢
      exact step.trans after

end Row

end TreeFile
