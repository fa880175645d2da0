import TreeFile.Balance.Distribution
import TreeFile.Proofs.Action

/-!
What a distribution yields: spans that follow each other and leave out no cell but those that are
promoted, none of which is empty unless there is nothing to distribute, and each of which fits on a
page. There is one whenever the cells are small enough.
-/

namespace TreeFile

def Distribution.gap (promote : Bool) : Nat := if promote then 1 else 0

def Covers (promote : Bool) (stop : Nat) : (start : Nat) → List Span → Prop
  | _, [] => False
  | start, [span] => span.start = start ∧ start ≤ span.stop ∧ span.stop = stop
  | start, span :: next :: rest =>
    span.start = start ∧ start ≤ span.stop ∧
      Covers promote stop (span.stop + Distribution.gap promote) (next :: rest)

def Fits (sizes : List Nat) (capacity : Nat) (spans : List Span) : Prop :=
  ∀ span ∈ spans, span.weight sizes ≤ capacity

def Peopled (spans : List Span) : Prop := ∀ span ∈ spans, span.start < span.stop

namespace Covers

open Distribution

variable {promote : Bool} {stop start : Nat} {span next : Span} {spans rest : List Span}

theorem cons (first : span.start = start) (order : start ≤ span.stop)
    (later : Covers promote stop (span.stop + gap promote) spans) :
    Covers promote stop start (span :: spans) := by
  cases spans with
  | nil => exact later.elim
  | cons next rest => exact ⟨first, order, later⟩

theorem head (covers : Covers promote stop start (span :: rest)) :
    span.start = start ∧ start ≤ span.stop := by
  cases rest with
  | nil => exact ⟨covers.1, covers.2.1⟩
  | cons next rest => exact ⟨covers.1, covers.2.1⟩

theorem start_le (covers : Covers promote stop start spans) : start ≤ stop := by
  induction spans generalizing start with
  | nil => exact covers.elim
  | cons span rest ih =>
    cases rest with
    | nil => exact Nat.le_trans covers.2.1 (Nat.le_of_eq covers.2.2)
    | cons next rest =>
      have later := ih covers.2.2
      have order := covers.2.1
      omega

theorem move (covers : Covers promote stop start (span :: rest)) {other : Span}
    (same : other.stop = span.stop) (order : other.start ≤ other.stop) :
    Covers promote stop other.start (other :: rest) := by
  cases rest with
  | nil => exact ⟨rfl, order, same.trans covers.2.2⟩
  | cons next rest => exact ⟨rfl, order, same ▸ covers.2.2⟩

end Covers

namespace Distribution

variable {promote : Bool} {sizes : List Nat} {capacity : Nat}

theorem fill_le (room : Nat) (sizes : List Nat) : fill room sizes ≤ sizes.length := by
  induction sizes generalizing room with
  | nil => exact Nat.le_refl 0
  | cons size rest ih =>
    unfold fill
    split
    · exact Nat.succ_le_succ (ih _)
    · exact Nat.zero_le _

theorem splitLast_ok {first : Span} {total : Nat} {spans : List Span}
    (run : splitLast first total = .ok spans) (isTotal : total = first.stop + 1) :
    Covers true total first.start spans ∧ Peopled spans := by
  unfold splitLast Span.length at run
  split at run
  · cases run
  · rename_i long
    cases run
    have joint : first.stop = first.stop - 1 + 1 := by omega
    refine ⟨⟨rfl, by dsimp only; omega, joint, ?_, rfl⟩, fun span member => ?_⟩
    · change first.stop - 1 + 1 ≤ total
      omega
    · simp only [List.mem_cons, List.not_mem_nil, or_false] at member
      rcases member with rfl | rfl
      · dsimp only
        omega
      · dsimp only
        omega

theorem pack_single (start : Nat) (nothing : sizes.drop (fill capacity sizes) = []) :
    Covers promote (start + sizes.length) start [⟨start, start + fill capacity sizes⟩] ∧
      (sizes ≠ [] → Peopled [⟨start, start + fill capacity sizes⟩]) := by
  have all := List.drop_eq_nil_iff.mp nothing
  have least := fill_le capacity sizes
  refine ⟨⟨rfl, Nat.le_add_right _ _, by dsimp only; omega⟩, fun some_ span member => ?_⟩
  rw [List.mem_singleton.mp member]
  have positive := List.length_pos_iff.mpr some_
  dsimp only
  omega

theorem pack_cases {left start : Nat} {spans : List Span}
    (run : pack capacity promote left start sizes = .ok spans) :
    (sizes.drop (fill capacity sizes) = [] ∧ spans = [⟨start, start + fill capacity sizes⟩]) ∨
      fill capacity sizes ≠ 0 ∧ ∃ size rest less, left = less + 1 ∧
        sizes.drop (fill capacity sizes) = size :: rest ∧
        ((promote = true ∧ rest = [] ∧
            splitLast ⟨start, start + fill capacity sizes⟩ (start + fill capacity sizes + 1) = .ok spans) ∨
          ∃ more others, others = (if promote then rest else size :: rest) ∧ others ≠ [] ∧
            pack capacity promote less (start + fill capacity sizes + gap promote) others = .ok more ∧
            spans = ⟨start, start + fill capacity sizes⟩ :: more) := by
  unfold pack at run
  dsimp only at run
  cases dropped : sizes.drop (fill capacity sizes) with
  | nil =>
    rw [dropped] at run
    exact .inl ⟨rfl, (Except.pure_ok.mp run).symm⟩
  | cons size rest =>
    rw [dropped] at run
    dsimp only at run
    refine .inr ?_
    by_cases none_ : fill capacity sizes = 0
    · rw [if_pos none_] at run
      exact absurd run Except.throw_bind_ok
    rw [if_neg none_] at run
    refine ⟨none_, size, rest, ?_⟩
    cases left with
    | zero => exact absurd run Except.throw_ok
    | succ less =>
      refine ⟨less, rfl, rfl, ?_⟩
      dsimp only at run
      cases promote with
      | false =>
        rw [if_pos (show (!false) = true from rfl)] at run
        obtain ⟨more, packed, made⟩ := Except.bind_ok.mp run
        exact .inr ⟨more, size :: rest, rfl, List.cons_ne_nil _ _, packed, (Except.pure_ok.mp made).symm⟩
      | true =>
        rw [if_neg (by decide)] at run
        cases rest with
        | nil => exact .inl ⟨rfl, rfl, run⟩
        | cons after others =>
          obtain ⟨more, packed, made⟩ := Except.bind_ok.mp run
          exact .inr ⟨more, after :: others, rfl, List.cons_ne_nil _ _, packed,
            (Except.pure_ok.mp made).symm⟩

theorem pack_ok {left start : Nat} {spans : List Span}
    (run : pack capacity promote left start sizes = .ok spans) :
    Covers promote (start + sizes.length) start spans ∧ (sizes ≠ [] → Peopled spans) := by
  induction left generalizing start sizes spans with
  | zero =>
    rcases pack_cases run with ⟨nothing, rfl⟩ | ⟨_, _, _, _, impossible, _⟩
    · exact pack_single start nothing
    · cases impossible
  | succ left ih =>
    rcases pack_cases run with ⟨nothing, rfl⟩ | ⟨some_, size, rest, less, same, dropped, goes_on⟩
    · exact pack_single start nothing
    cases same
    have length : sizes.length = fill capacity sizes + (rest.length + 1) := by
      have whole := congrArg List.length (sizes.take_append_drop (fill capacity sizes))
      rw [dropped, List.length_append, List.length_take_of_le (fill_le capacity sizes)] at whole
      exact whole.symm
    rcases goes_on with ⟨rfl, rfl, split_⟩ | ⟨more, others, isOthers, nonempty, packed, rfl⟩
    · obtain ⟨covers, peopled⟩ := splitLast_ok split_ rfl
      rw [length]
      exact ⟨covers, fun _ => peopled⟩
    · obtain ⟨covers, peopled⟩ := ih packed
      have stop : start + fill capacity sizes + gap promote + others.length = start + sizes.length := by
        rw [isOthers]
        unfold gap
        cases promote <;> simp only [reduceIte, Bool.false_eq_true, List.length_cons] <;> omega
      rw [stop] at covers
      refine ⟨covers.cons rfl (Nat.le_add_right _ _), fun _ span member => ?_⟩
      rcases List.mem_cons.mp member with rfl | later
      · dsimp only
        omega
      · exact peopled nonempty span later

theorem total_take_mono (sizes : List Nat) {m n : Nat} (less : m ≤ n) :
    total (sizes.take m) ≤ total (sizes.take n) := by
  have whole := total_append ((sizes.take n).take m) ((sizes.take n).drop m)
  rw [List.take_append_drop, List.take_take, Nat.min_eq_left less] at whole
  omega

theorem fill_fits (room : Nat) (sizes : List Nat) : total (sizes.take (fill room sizes)) ≤ room := by
  induction sizes generalizing room with
  | nil => exact Nat.zero_le room
  | cons size rest ih =>
    unfold fill
    by_cases small : size ≤ room
    · rw [if_pos small, List.take_succ_cons, total_cons]
      have later := ih (room - size)
      omega
    · rw [if_neg small]
      exact Nat.zero_le room

theorem weight_le {span : Span} {all : List Nat} {start taken : Nat} (part : all.drop start = sizes)
    (first : span.start = start) (short : span.stop ≤ start + taken) :
    span.weight all ≤ total (sizes.take taken) := by
  unfold Span.weight Span.length
  rw [first, part]
  exact total_take_mono sizes (by omega)

theorem pack_fits {all : List Nat} {left start : Nat} {spans : List Span}
    (small : ∀ size ∈ sizes, size ≤ capacity) (part : all.drop start = sizes)
    (run : pack capacity promote left start sizes = .ok spans) : Fits all capacity spans := by
  induction left generalizing start sizes spans with
  | zero =>
    rcases pack_cases run with ⟨-, rfl⟩ | ⟨_, _, _, _, impossible, _⟩
    · intro span member
      rw [List.mem_singleton.mp member]
      exact Nat.le_trans (weight_le part rfl (Nat.le_refl _)) (fill_fits capacity sizes)
    · cases impossible
  | succ left ih =>
    have own : ∀ span : Span, span.start = start → span.stop ≤ start + fill capacity sizes →
        span.weight all ≤ capacity := fun span first short =>
      Nat.le_trans (weight_le part first short) (fill_fits capacity sizes)
    rcases pack_cases run with ⟨-, rfl⟩ | ⟨some_, size, rest, less, same, dropped, goes_on⟩
    · intro span member
      rw [List.mem_singleton.mp member]
      exact own _ rfl (Nat.le_refl _)
    cases same
    have behind : all.drop (start + fill capacity sizes) = size :: rest := by
      rw [← List.drop_drop, part, dropped]
    have others : ∀ other ∈ size :: rest, other ≤ capacity := fun other member =>
      small other (List.mem_of_mem_drop (dropped ▸ member))
    rcases goes_on with ⟨rfl, rfl, split_⟩ | ⟨more, list, isList, -, packed, rfl⟩
    · unfold splitLast at split_
      split at split_
      · cases split_
      · cases split_
        intro span member
        simp only [List.mem_cons, List.not_mem_nil, or_false] at member
        rcases member with rfl | rfl
        · exact own _ rfl (Nat.sub_le _ _)
        · refine Nat.le_trans (weight_le behind rfl (Nat.le_refl (_ + 1))) ?_
          exact others size List.mem_cons_self
    · intro span member
      rcases List.mem_cons.mp member with rfl | later
      · exact own _ rfl (Nat.le_refl _)
      · refine ih (fun other member => others other ?_) ?_ packed span later
        · rw [isList] at member
          split at member
          · exact List.mem_cons_of_mem _ member
          · exact member
        · rw [isList, ← List.drop_drop, behind]
          unfold gap
          cases promote <;> rfl

def incoming (sizes : List Nat) (promote : Bool) (a : Span) : Nat :=
  if promote then sizes.getD a.stop 0 else sizes.getD (a.stop - 1) 0

theorem evenOut_cases (left : Nat) (a b : Span) :
    evenOut sizes capacity promote (left + 1) a b = (a, b) ∨
      1 < a.length ∧ b.weight sizes + incoming sizes promote a ≤ capacity ∧
        evenOut sizes capacity promote (left + 1) a b =
          evenOut sizes capacity promote left ⟨a.start, a.stop - 1⟩ ⟨b.start - 1, b.stop⟩ := by
  rw [evenOut]
  by_cases short : a.length ≤ 1
  · rw [if_pos short]
    exact .inl rfl
  rw [if_neg short]
  by_cases heavy : (decide (b.weight sizes + incoming sizes promote a > capacity) ||
      decide (b.weight sizes + incoming sizes promote a >
        a.weight sizes - sizes.getD (a.stop - 1) 0)) = true
  · exact .inl (if_pos heavy)
  · refine .inr ⟨Nat.lt_of_not_le short, ?_, if_neg heavy⟩
    simp only [Bool.or_eq_true, decide_eq_true_eq, not_or] at heavy
    exact Nat.le_of_not_lt heavy.1

structure Evened (promote : Bool) (a b a' b' : Span) : Prop where
  start : a'.start = a.start
  stop : b'.stop = b.stop
  joint : a'.stop + gap promote = b'.start
  order : a.start ≤ a'.stop
  less : b'.start ≤ b.start
  peopled : a.start < a.stop → a.start < a'.stop

theorem evenOut_ok {left : Nat} {a b : Span} (joint : a.stop + gap promote = b.start)
    (order : a.start ≤ a.stop) :
    Evened promote a b (evenOut sizes capacity promote left a b).1
      (evenOut sizes capacity promote left a b).2 := by
  induction left generalizing a b with
  | zero => exact ⟨rfl, rfl, joint, order, Nat.le_refl _, id⟩
  | succ left ih =>
    rcases @evenOut_cases promote sizes capacity left a b with done | ⟨long, -, goes_on⟩
    · rw [done]
      exact ⟨rfl, rfl, joint, order, Nat.le_refl _, id⟩
    · unfold Span.length at long
      rw [goes_on]
      have joined : a.stop - 1 + gap promote = b.start - 1 := by omega
      have orderA : a.start ≤ a.stop - 1 := by omega
      have rest := @ih ⟨a.start, a.stop - 1⟩ ⟨b.start - 1, b.stop⟩ joined orderA
      exact ⟨rest.start, rest.stop, rest.joint, rest.order, Nat.le_trans rest.less (Nat.sub_le _ _),
        fun _ => rest.peopled (by dsimp only; omega)⟩

theorem weight_grow (sizes : List Nat) {span : Span} (positive : 0 < span.start)
    (order : span.start ≤ span.stop) :
    (⟨span.start - 1, span.stop⟩ : Span).weight sizes =
      sizes.getD (span.start - 1) 0 + span.weight sizes := by
  obtain ⟨start, stop⟩ := span
  cases start with
  | zero => cases positive
  | succ i =>
    unfold Span.weight Span.length
    dsimp only at order ⊢
    rw [Nat.add_sub_cancel, show stop - i = stop - (i + 1) + 1 by omega]
    rw [List.getD_eq_getElem?_getD]
    by_cases inside : i < sizes.length
    · rw [List.drop_eq_getElem_cons inside, List.take_succ_cons, total_cons,
        List.getElem?_eq_getElem inside]
      rfl
    · rw [List.drop_eq_nil_of_le (by omega), List.drop_eq_nil_of_le (by omega), List.take_nil,
        List.take_nil, List.getElem?_eq_none (by omega)]
      rfl

theorem evenOut_fits {left : Nat} {a b : Span} (joint : a.stop + gap promote = b.start)
    (order : b.start ≤ b.stop) (fits : Fits sizes capacity [a, b]) :
    Fits sizes capacity [(evenOut sizes capacity promote left a b).1,
      (evenOut sizes capacity promote left a b).2] := by
  induction left generalizing a b with
  | zero => exact fits
  | succ left ih =>
    rcases @evenOut_cases promote sizes capacity left a b with done | ⟨long, room, goes_on⟩
    · rw [done]
      exact fits
    · rw [goes_on]
      unfold Span.length at long
      have isIncoming : incoming sizes promote a = sizes.getD (b.start - 1) 0 := by
        rw [← joint]
        unfold incoming gap
        cases promote <;> rfl
      refine ih (by dsimp only; omega) (by dsimp only; omega) fun span member => ?_
      simp only [List.mem_cons, List.not_mem_nil, or_false] at member
      rcases member with rfl | rfl
      · refine Nat.le_trans ?_ (fits a List.mem_cons_self)
        exact weight_le rfl rfl (show a.stop - 1 ≤ a.start + (a.stop - a.start) by omega)
      · rw [weight_grow sizes (by omega) order, ← isIncoming, Nat.add_comm]
        exact room

theorem evenAll_ok {stop start : Nat} {spans : List Span} (covers : Covers promote stop start spans) :
    Covers promote stop start (evenAll sizes capacity promote spans) ∧
      (Peopled spans → Peopled (evenAll sizes capacity promote spans)) := by
  induction spans generalizing start with
  | nil => exact covers.elim
  | cons span rest ih =>
    unfold evenAll
    cases rest with
    | nil => exact ⟨covers, id⟩
    | cons next others =>
      obtain ⟨later, peopled⟩ := ih covers.2.2
      obtain ⟨first, order⟩ := covers.head
      cases evened : evenAll sizes capacity promote (next :: others) with
      | nil =>
        rw [evened] at later
        exact later.elim
      | cons next others =>
        rw [evened] at later peopled
        dsimp only
        obtain ⟨startNext, orderNext⟩ := later.head
        obtain ⟨sameStart, sameStop, joined, low, less, some_⟩ :=
          @evenOut_ok promote sizes capacity span.length span next startNext.symm
            (Nat.le_trans (Nat.le_of_eq first) order)
        have wide : (evenOut sizes capacity promote span.length span next).2.start ≤
            (evenOut sizes capacity promote span.length span next).2.stop := by omega
        refine ⟨.cons (sameStart.trans first) (by omega) ?_, fun all inner member => ?_⟩
        · rw [joined]
          exact later.move sameStop wide
        · have old := peopled fun other inside => all other (List.mem_cons_of_mem _ inside)
          rcases List.mem_cons.mp member with rfl | second
          · rw [sameStart]
            exact some_ (all span List.mem_cons_self)
          · rcases List.mem_cons.mp second with rfl | later
            · have positive := old next List.mem_cons_self
              omega
            · exact old inner (List.mem_cons_of_mem _ later)

theorem evenAll_fits {stop start : Nat} {spans : List Span} (covers : Covers promote stop start spans)
    (fits : Fits sizes capacity spans) : Fits sizes capacity (evenAll sizes capacity promote spans) := by
  induction spans generalizing start with
  | nil => exact covers.elim
  | cons span rest ih =>
    unfold evenAll
    cases rest with
    | nil => exact fits
    | cons next others =>
      have later := (@evenAll_ok promote sizes capacity _ _ _ covers.2.2).1
      have room := ih covers.2.2 fun other member => fits other (List.mem_cons_of_mem _ member)
      cases evened : evenAll sizes capacity promote (next :: others) with
      | nil =>
        rw [evened] at later
        exact later.elim
      | cons next others =>
        rw [evened] at later room
        dsimp only
        obtain ⟨startNext, orderNext⟩ := later.head
        have both : Fits sizes capacity [span, next] := by
          intro other member
          simp only [List.mem_cons, List.not_mem_nil, or_false] at member
          rcases member with rfl | rfl
          · exact fits other List.mem_cons_self
          · exact room other List.mem_cons_self
        have evenly := @evenOut_fits promote sizes capacity span.length span next startNext.symm
          (startNext ▸ orderNext) both
        intro inner member
        rcases List.mem_cons.mp member with rfl | second
        · exact evenly _ List.mem_cons_self
        · rcases List.mem_cons.mp second with rfl | inside
          · exact evenly _ (List.mem_cons_of_mem _ List.mem_cons_self)
          · exact room inner (List.mem_cons_of_mem _ inside)

/-- Every cell has room on a page, and where a cell has to be promoted any two have. -/
def Modest (promote : Bool) (capacity : Nat) (sizes : List Nat) : Prop :=
  ∀ size ∈ sizes, (if promote then 2 * size else size) ≤ capacity

theorem Modest.le (modest : Modest promote capacity sizes) : ∀ size ∈ sizes, size ≤ capacity := by
  intro size member
  have small := modest size member
  cases promote
  · exact small
  · rw [if_pos rfl] at small
    omega

theorem fill_pos (modest : Modest promote capacity sizes) (some_ : sizes ≠ []) :
    0 < fill capacity sizes := by
  cases sizes with
  | nil => exact absurd rfl some_
  | cons size rest =>
    unfold fill
    rw [if_pos (modest.le size List.mem_cons_self)]
    exact Nat.succ_pos _

theorem fill_two (modest : Modest true capacity sizes) (two : 2 ≤ sizes.length) :
    2 ≤ fill capacity sizes := by
  obtain _ | ⟨first, _ | ⟨second, rest⟩⟩ := sizes
  · cases two
  · exact absurd two (Nat.lt_irrefl 1)
  · have one := modest first List.mem_cons_self
    have other := modest second (List.mem_cons_of_mem _ List.mem_cons_self)
    rw [if_pos rfl] at one other
    unfold fill
    rw [if_pos (by omega)]
    unfold fill
    rw [if_pos (by omega)]
    omega

theorem pack_run {left start : Nat} (enough : sizes.length ≤ left)
    (modest : Modest promote capacity sizes) :
    ∃ spans, pack capacity promote left start sizes = .ok spans := by
  induction left generalizing start sizes with
  | zero =>
    cases List.eq_nil_of_length_eq_zero (Nat.le_zero.mp enough)
    unfold pack
    exact ⟨_, rfl⟩
  | succ left ih =>
    unfold pack
    dsimp only
    cases dropped : sizes.drop (fill capacity sizes) with
    | nil => exact ⟨_, rfl⟩
    | cons size rest =>
      have length : sizes.length = fill capacity sizes + (rest.length + 1) := by
        have whole := congrArg List.length dropped
        rw [List.length_drop, List.length_cons] at whole
        have least := fill_le capacity sizes
        omega
      have positive := fill_pos modest fun none_ => by
        rw [none_] at length
        cases length
      have later : Modest promote capacity (size :: rest) := fun other member =>
        modest other (List.mem_of_mem_drop (dropped ▸ member))
      dsimp only
      rw [if_neg (Nat.pos_iff_ne_zero.mp positive)]
      cases promote with
      | false =>
        have shorter : (size :: rest).length ≤ left := by
          rw [List.length_cons]
          omega
        obtain ⟨more, packed⟩ := @ih _ (start + fill capacity sizes) shorter later
        rw [if_pos (show (!false) = true from rfl), packed]
        exact ⟨_, rfl⟩
      | true =>
        rw [if_neg (by decide)]
        cases rest with
        | nil =>
          have two := fill_two modest (by rw [length, List.length_nil]; omega)
          have long : ¬ (⟨start, start + fill capacity sizes⟩ : Span).length < 2 := by
            unfold Span.length
            dsimp only
            omega
          rw [if_pos List.isEmpty_nil]
          exact ⟨_, if_neg long⟩
        | cons after others =>
          obtain ⟨more, packed⟩ := @ih (after :: others) (start + fill capacity sizes + 1)
            (by omega) fun other member => later other (List.mem_cons_of_mem _ member)
          rw [if_neg (show ¬ (after :: others).isEmpty = true from Bool.false_ne_true), packed]
          exact ⟨_, rfl⟩

end Distribution

theorem distribute_ok {sizes : List Nat} {capacity : Nat} {promote : Bool} {spans : List Span}
    (run : distribute sizes capacity promote = .ok spans) :
    Covers promote sizes.length 0 spans ∧ (sizes ≠ [] → Peopled spans) ∧ (sizes = [] → spans.length = 1) := by
  have single : sizes = [] → spans.length = 1 := by
    rintro rfl
    unfold distribute Distribution.pack at run
    cases run
    rfl
  unfold distribute at run
  obtain ⟨packed, pack_, made⟩ := Except.bind_ok.mp run
  cases Except.pure_ok.mp made
  obtain ⟨covers, peopled⟩ := Distribution.pack_ok pack_
  rw [Nat.zero_add] at covers
  obtain ⟨even, stays⟩ := Distribution.evenAll_ok covers
  exact ⟨even, fun some_ => stays (peopled some_), single⟩

theorem distribute_run {sizes : List Nat} {capacity : Nat} {promote : Bool}
    (modest : Distribution.Modest promote capacity sizes) :
    ∃ spans, distribute sizes capacity promote = .ok spans ∧ Covers promote sizes.length 0 spans ∧
      (sizes ≠ [] → Peopled spans) ∧ Fits sizes capacity spans := by
  obtain ⟨packed, run⟩ := @Distribution.pack_run _ _ _ _ 0 (Nat.le_refl sizes.length) modest
  have covers := (Distribution.pack_ok run).1
  have done : distribute sizes capacity promote =
      .ok (Distribution.evenAll sizes capacity promote packed) := by
    unfold distribute
    rw [run]
    rfl
  obtain ⟨even, peopled, -⟩ := distribute_ok done
  exact ⟨_, done, even, peopled, Distribution.evenAll_fits covers
    (Distribution.pack_fits modest.le rfl run)⟩

end TreeFile
