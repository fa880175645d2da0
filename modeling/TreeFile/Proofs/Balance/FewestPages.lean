import TreeFile.Proofs.Balance.Distribution

/-!
A distribution takes as few pages as there can be. Each page is filled as far as it goes, so whatever
another layout has put on its first pages is on as many pages here, or further to the left. Evening out
moves cells between neighbours, but gives up no page.
-/

namespace TreeFile

/-- The cells, but for those between two pages where these are promoted, lie on pages one after the
other, on each some of them and no more than it has room for. -/
structure Layout (promote : Bool) (sizes : List Nat) (capacity : Nat) (spans : List Span) : Prop where
  covers : Covers promote sizes.length 0 spans
  peopled : Peopled spans
  fits : Fits sizes capacity spans

namespace Distribution

variable {promote : Bool} {sizes all : List Nat} {capacity : Nat}

theorem le_fill {room n : Nat} (inside : n ≤ sizes.length) (light : total (sizes.take n) ≤ room) :
    n ≤ fill room sizes := by
  induction sizes generalizing room n with
  | nil => exact Nat.le_trans inside (Nat.zero_le _)
  | cons size rest ih =>
    cases n with
    | zero => exact Nat.zero_le _
    | succ n =>
      rw [List.take_succ_cons, total_cons] at light
      have first : size ≤ room := by omega
      have rest_light : total (rest.take n) ≤ room - size := by omega
      have later := ih (Nat.le_of_succ_le_succ inside) rest_light
      unfold fill
      rw [if_pos first]
      exact Nat.succ_le_succ later

theorem total_drop_le (sizes : List Nat) (n : Nat) : total (sizes.drop n) ≤ total sizes := by
  have whole := total_append (sizes.take n) (sizes.drop n)
  rw [List.take_append_drop] at whole
  omega

theorem weight_end (sizes : List Nat) {start middle stop : Nat} (low : start ≤ middle) :
    (⟨middle, stop⟩ : Span).weight sizes ≤ (⟨start, stop⟩ : Span).weight sizes := by
  have part := total_drop_le ((sizes.drop start).take (stop - start)) (middle - start)
  rw [List.drop_take, List.drop_drop, Nat.add_sub_cancel' low,
    show stop - start - (middle - start) = stop - middle by omega] at part
  exact part

/-- A page that begins no further to the left than a span of another layout ends no further to the
left, either. -/
theorem fill_ahead {span : Span} {start : Nat} (part : all.drop start = sizes) (light : span.weight all ≤ capacity)
    (behind : span.start ≤ start) (inside : span.stop ≤ all.length) : span.stop ≤ start + fill capacity sizes := by
  by_cases passed : span.stop ≤ start
  · exact Nat.le_trans passed (Nat.le_add_right _ _)
  have length : sizes.length = all.length - start := part ▸ List.length_drop
  have tail : total (sizes.take (span.stop - start)) ≤ capacity :=
    Nat.le_trans (part ▸ weight_end all behind) light
  have reached := le_fill (by omega) tail
  omega

/-- The induction follows the pages that are filled; the other layout loses its first span with each, and stays
behind. -/
theorem pack_fewest {left start origin : Nat} {spans others : List Span} (part : all.drop start = sizes)
    (run : pack capacity promote left start sizes = .ok spans)
    (covers : Covers promote all.length origin others) (fits : Fits all capacity others) (behind : origin ≤ start) :
    spans.length ≤ others.length := by
  induction left generalizing start origin sizes spans others with
  | zero =>
    rcases pack_cases run with ⟨-, rfl⟩ | ⟨_, _, _, _, impossible, _⟩
    · cases others with
      | nil => exact covers.elim
      | cons span rest => exact Nat.succ_le_succ (Nat.zero_le _)
    · cases impossible
  | succ left ih =>
    cases others with
    | nil => exact covers.elim
    | cons span rest =>
      rcases pack_cases run with ⟨-, rfl⟩ | ⟨-, size, remaining, less, same, dropped, goes_on⟩
      · exact Nat.succ_le_succ (Nat.zero_le _)
      cases same
      have ahead := fill_ahead part (fits span List.mem_cons_self)
        (Nat.le_trans (Nat.le_of_eq covers.head.1) behind)
      have more : (sizes.drop (fill capacity sizes)).length ≠ 0 := by
        rw [dropped]
        exact Nat.succ_ne_zero _
      rw [← part, List.drop_drop, List.length_drop, part] at more
      cases rest with
      | nil =>
        have stop := covers.2.2
        have reached := ahead (Nat.le_of_eq stop)
        omega
      | cons next rest =>
        have later := covers.2.2
        have reached := ahead (Nat.le_trans (Nat.le_add_right _ _) later.start_le)
        rcases goes_on with ⟨-, -, split_⟩ | ⟨packed, list, isList, -, goes_on, rfl⟩
        · unfold splitLast at split_
          split at split_
          · cases split_
          · cases split_
            exact Nat.succ_le_succ (Nat.succ_le_succ (Nat.zero_le _))
        · refine Nat.succ_le_succ (ih ?_ goes_on later (fun other member =>
            fits other (List.mem_cons_of_mem _ member)) (Nat.add_le_add_right reached _))
          rw [isList, ← List.drop_drop, ← List.drop_drop, part, dropped]
          unfold gap
          cases promote <;> rfl

theorem length_evenAll (sizes : List Nat) (capacity : Nat) (promote : Bool) (spans : List Span) :
    (evenAll sizes capacity promote spans).length = spans.length := by
  induction spans with
  | nil => rfl
  | cons span rest ih =>
    unfold evenAll
    cases evened : evenAll sizes capacity promote rest with
    | nil =>
      rw [evened] at ih
      exact congrArg Nat.succ ih
    | cons next others =>
      rw [evened] at ih
      exact congrArg Nat.succ ih

end Distribution

/-- Cells that are small enough are laid out on as few pages as any layout takes, even one that leaves pages
empty. -/
theorem distribute_fewest {sizes : List Nat} {capacity : Nat} {promote : Bool} (some_ : sizes ≠ [])
    (modest : Distribution.Modest promote capacity sizes) :
    ∃ spans, distribute sizes capacity promote = .ok spans ∧ Layout promote sizes capacity spans ∧
      ∀ others, Covers promote sizes.length 0 others → Fits sizes capacity others →
        spans.length ≤ others.length := by
  obtain ⟨spans, run, covers, peopled, fits⟩ := distribute_run modest
  refine ⟨spans, run, ⟨covers, peopled some_, fits⟩, fun others coversOthers fitsOthers => ?_⟩
  unfold distribute at run
  obtain ⟨packed, pack_, made⟩ := Except.bind_ok.mp run
  cases Except.pure_ok.mp made
  rw [Distribution.length_evenAll]
  exact Distribution.pack_fewest rfl pack_ coversOthers fitsOthers (Nat.le_refl 0)

/-- Four of the cells fill a page, but then the fifth one would be promoted with nothing behind it. -/
theorem distribute_fewest_five : [100, 100, 100, 100, 100] ≠ [] ∧
    Distribution.Modest true 400 [100, 100, 100, 100, 100] ∧
    ∃ spans, distribute [100, 100, 100, 100, 100] 400 true = .ok spans ∧
      Layout true [100, 100, 100, 100, 100] 400 spans ∧
      ∀ others, Covers true 5 0 others → Fits [100, 100, 100, 100, 100] 400 others →
        spans.length ≤ others.length := by
  have some_ : [100, 100, 100, 100, 100] ≠ [] := List.cons_ne_nil _ _
  have modest : Distribution.Modest true 400 [100, 100, 100, 100, 100] := by
    unfold Distribution.Modest
    decide
  exact ⟨some_, modest, distribute_fewest some_ modest⟩

example : distribute [100, 100, 100, 100, 100] 400 true = .ok [⟨0, 2⟩, ⟨3, 5⟩] := by cbv

end TreeFile
