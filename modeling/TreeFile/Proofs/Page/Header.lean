import TreeFile.Page.Header
import TreeFile.Proofs.Bytes

/-!
Page headers come back as they were written, and writing one changes no byte outside it.
-/

namespace TreeFile

theorem PageKind.ofFlags?_flags (kind : PageKind) : PageKind.ofFlags? kind.flags = some kind := by
  cases kind <;> rfl

theorem PageKind.flags_of_ofFlags? {flags : UInt8} {kind : PageKind} (found : ofFlags? flags = some kind) :
    kind.flags = flags := by
  unfold ofFlags? at found
  split at found
  · cases found
    exact Eq.symm ‹_›
  split at found
  · cases found
    exact Eq.symm ‹_›
  split at found
  · cases found
    exact Eq.symm ‹_›
  split at found
  · cases found
    exact Eq.symm ‹_›
  · cases found

theorem PageKind.headerSize_bounds (kind : PageKind) : 8 ≤ kind.headerSize ∧ kind.headerSize ≤ 12 := by
  cases kind <;> decide

theorem PageKind.headerSize_leaf {kind : PageKind} (leaf : kind.isLeaf = true) :
    kind.headerSize = 8 := by
  unfold headerSize
  rw [if_pos leaf]

theorem PageKind.headerSize_interior {kind : PageKind} (interior : kind.isLeaf = false) :
    kind.headerSize = 12 := by
  unfold headerSize
  rw [interior]
  rfl

namespace PageHeader

structure Valid (h : PageHeader) : Prop where
  firstFree : h.firstFree < 65536
  cellCount : h.cellCount < 65536
  contentPos : 0 < h.contentStart
  contentLe : h.contentStart ≤ 65536
  fragments : h.fragments < 256
  rightSome : h.rightChild.isSome = !h.kind.isLeaf
  rightLt : ∀ child, h.rightChild = some child → child < 4294967296

structure At (d : Bytes) (start : Nat) (h : PageHeader) : Prop where
  room : start + h.kind.headerSize ≤ d.size
  flags : d.get! start = h.kind.flags
  firstFree : d.at16 (start + 1) = h.firstFree
  cellCount : d.at16 (start + 3) = h.cellCount
  contentStart : d.at16 (start + 5) = h.contentStart % 65536
  fragments : (d.get! (start + 7)).toNat = h.fragments
  rightChild : h.rightChild = if h.kind.isLeaf then none else some (d.at32 (start + 8))
  contentPos : 0 < h.contentStart
  contentLe : h.contentStart ≤ 65536

theorem At.valid {d : Bytes} {start : Nat} {h : PageHeader} (here : At d start h) : h.Valid where
  firstFree := by
    rw [← here.firstFree]
    exact Bytes.at16_lt d (start + 1)
  cellCount := by
    rw [← here.cellCount]
    exact Bytes.at16_lt d (start + 3)
  contentPos := here.contentPos
  contentLe := here.contentLe
  fragments := by
    rw [← here.fragments]
    exact (d.get! (start + 7)).toNat_lt
  rightSome := by
    rw [here.rightChild]
    cases h.kind.isLeaf <;> rfl
  rightLt := by
    intro child same
    rw [here.rightChild] at same
    split at same
    · cases same
    · cases same
      exact Bytes.at32_lt d (start + 8)

theorem At.of_sameOn {d e : Bytes} {start : Nat} {h : PageHeader} (here : At d start h)
    (size : e.size = d.size) (same : Bytes.SameOn d e start (start + h.kind.headerSize)) :
    At e start h := by
  have bounds := h.kind.headerSize_bounds
  refine ⟨by rw [size]; exact here.room, ?_, ?_, ?_, ?_, ?_, ?_, here.contentPos, here.contentLe⟩
  · rw [same start (by omega) (by omega)]
    exact here.flags
  · rw [same.at16 (by omega) (by omega)]
    exact here.firstFree
  · rw [same.at16 (by omega) (by omega)]
    exact here.cellCount
  · rw [same.at16 (by omega) (by omega)]
    exact here.contentStart
  · rw [same (start + 7) (by omega) (by omega)]
    exact here.fragments
  · rw [here.rightChild]
    cases leaf : h.kind.isLeaf with
    | true => simp only [if_true]
    | false =>
      have wide := PageKind.headerSize_interior leaf
      have child := same.at32 (i := start + 8) (by omega) (by omega)
      rw [child]

theorem parse_of_at {d : Bytes} {start : Nat} {h : PageHeader} (here : At d start h) :
    parse d start = .ok h := by
  have bounds := h.kind.headerSize_bounds
  have room := here.room
  have content : (if d.at16 (start + 5) = 0 then 65536 else d.at16 (start + 5)) =
      h.contentStart := by
    have positive := here.contentPos
    have limit := here.contentLe
    rw [here.contentStart]
    split <;> omega
  have right := here.rightChild
  unfold parse
  rw [Bytes.get?_eq, if_pos (by omega), here.flags]
  simp only [require, Except.ok_bind, PageKind.ofFlags?_flags]
  rw [Bytes.u16?_of_le (by omega), Bytes.u16?_of_le (by omega), Bytes.u16?_of_le (by omega),
    Bytes.get?_eq, if_pos (by omega)]
  simp only [Except.ok_bind, content, here.firstFree, here.cellCount, here.fragments]
  cases leaf : h.kind.isLeaf with
  | true =>
    rw [leaf] at right
    simp only [if_true] at right ⊢
    rw [Except.pure_bind_run, ← right]
    rfl
  | false =>
    have wide := PageKind.headerSize_interior leaf
    rw [leaf] at right
    simp only [Bool.false_eq_true, if_false] at right ⊢
    have whole : h = { h with rightChild := some (d.at32 (start + 8)) } := by rw [← right]
    rw [Bytes.u32?_of_le (by omega)]
    exact congrArg Except.ok whole.symm

theorem require_ok {α : Type} {found : Option α} {a : α} : require found = .ok a ↔ found = some a := by
  cases found with
  | none => exact ⟨nofun, nofun⟩
  | some b =>
    constructor
    · intro run
      cases run
      rfl
    · intro same
      cases same
      rfl

theorem at_of_parse {d : Bytes} {start : Nat} {h : PageHeader} (run : parse d start = .ok h) :
    At d start h := by
  unfold parse at run
  obtain ⟨flags, hflags, run⟩ := Except.bind_ok.mp run
  split at run
  case h_2 => exact absurd run Except.throw_ok
  rename_i kind found
  obtain ⟨firstFree, hfirst, run⟩ := Except.bind_ok.mp run
  obtain ⟨cellCount, hcount, run⟩ := Except.bind_ok.mp run
  obtain ⟨stored, hstored, run⟩ := Except.bind_ok.mp run
  obtain ⟨fragments, hfragments, run⟩ := Except.bind_ok.mp run
  have hflags := require_ok.mp hflags
  have hfirst := require_ok.mp hfirst
  have hcount := require_ok.mp hcount
  have hstored := require_ok.mp hstored
  have hfragments := require_ok.mp hfragments
  rw [Bytes.get?_eq, Option.ite_none_right_eq_some] at hflags hfragments
  rw [Bytes.u16?_eq, Option.ite_none_right_eq_some] at hfirst hcount hstored
  obtain ⟨inFlags, hflags⟩ := hflags
  obtain ⟨-, hfirst⟩ := hfirst
  obtain ⟨-, hcount⟩ := hcount
  obtain ⟨-, hstored⟩ := hstored
  obtain ⟨inside, hfragments⟩ := hfragments
  have small := Bytes.at16_lt d (start + 5)
  have content : (if stored = 0 then 65536 else stored) % 65536 = stored ∧
      0 < (if stored = 0 then 65536 else stored) ∧ (if stored = 0 then 65536 else stored) ≤ 65536 := by
    rw [Option.some.injEq] at hstored
    split <;> omega
  have byte : d.get! start = kind.flags :=
    (Option.some.inj hflags).trans (PageKind.flags_of_ofFlags? found).symm
  dsimp only at run
  cases leaf : kind.isLeaf with
  | true =>
    rw [leaf, if_pos rfl, Except.pure_bind_run] at run
    obtain rfl := Except.pure_ok.mp run
    refine ⟨?_, byte, Option.some.inj hfirst, Option.some.inj hcount, ?_, ?_, ?_, content.2.1, content.2.2⟩
    · rw [PageKind.headerSize_leaf leaf]
      omega
    · rw [content.1]
      exact Option.some.inj hstored
    · rw [Option.some.inj hfragments]
    · rw [leaf]
      rfl
  | false =>
    rw [leaf, if_neg (by decide)] at run
    cases word : d.u32? (start + 8) with
    | none =>
      rw [word] at run
      cases run
    | some child =>
      rw [word] at run
      cases run
      rw [Bytes.u32?_eq, Option.ite_none_right_eq_some] at word
      refine ⟨?_, byte, Option.some.inj hfirst, Option.some.inj hcount, ?_, ?_, ?_, content.2.1,
        content.2.2⟩
      · rw [PageKind.headerSize_interior leaf]
        exact word.1
      · rw [content.1]
        exact Option.some.inj hstored
      · rw [Option.some.inj hfragments]
      · rw [leaf]
        exact congrArg some (Option.some.inj word.2).symm

def Apart (d e : Bytes) (start : Nat) (kind : PageKind) : Prop :=
  e.size = d.size ∧ ∀ i, i < start ∨ start + kind.headerSize ≤ i → e.get! i = d.get! i

theorem writeFixed_ok {h : PageHeader} {start : Nat} {d d' : Bytes} (valid : h.Valid)
    (run : (do
      Bytes.putOr ⟨.internal, none⟩ start (Bytes.ofList [h.kind.flags])
      Bytes.putU16 (start + 1) h.firstFree
      Bytes.putU16 (start + 3) h.cellCount
      Bytes.putU16 (start + 5) h.contentStart
      Bytes.putByte (start + 7) (UInt8.ofNat h.fragments) : Action Bytes Unit) d = .ok () d') :
    start + 8 ≤ d.size ∧ d'.size = d.size ∧
      (∀ i, i < start ∨ start + 8 ≤ i → d'.get! i = d.get! i) ∧
      d'.get! start = h.kind.flags ∧ d'.at16 (start + 1) = h.firstFree ∧
      d'.at16 (start + 3) = h.cellCount ∧ d'.at16 (start + 5) = h.contentStart % 65536 ∧
      (d'.get! (start + 7)).toNat = h.fragments := by
  obtain ⟨_, d1, run1, run⟩ := Action.bind_ok.mp run
  obtain ⟨_, d2, run2, run⟩ := Action.bind_ok.mp run
  obtain ⟨_, d3, run3, run⟩ := Action.bind_ok.mp run
  obtain ⟨_, d4, run4, run5⟩ := Action.bind_ok.mp run
  obtain ⟨fits1, same1⟩ := Bytes.putOr_ok.mp run1
  obtain ⟨fits2, same2⟩ := Bytes.putU16_ok.mp run2
  obtain ⟨fits3, same3⟩ := Bytes.putU16_ok.mp run3
  obtain ⟨fits4, same4⟩ := Bytes.putU16_ok.mp run4
  obtain ⟨fits5, same5⟩ := Bytes.putByte_ok.mp run5
  have size1 : d1.size = d.size := by rw [same1, Bytes.size_overwrite fits1]
  have size2 : d2.size = d1.size := by rw [same2, Bytes.size_overwrite fits2]
  have size3 : d3.size = d2.size := by rw [same3, Bytes.size_overwrite fits3]
  have size4 : d4.size = d3.size := by rw [same4, Bytes.size_overwrite fits4]
  have size5 : d'.size = d4.size := by rw [same5, Bytes.size_overwrite fits5]
  have first : d2.at16 (start + 1) = h.firstFree := by
    rw [same2, Bytes.at16_overwrite_same fits2, Nat.mod_eq_of_lt valid.firstFree]
  have count : d3.at16 (start + 3) = h.cellCount := by
    rw [same3, Bytes.at16_overwrite_same fits3, Nat.mod_eq_of_lt valid.cellCount]
  have content : d4.at16 (start + 5) = h.contentStart % 65536 := by
    rw [same4, Bytes.at16_overwrite_same fits4]
  have keep2 : ∀ i, i < start + 1 ∨ start + 3 ≤ i → d2.get! i = d1.get! i := fun i outside =>
    same2 ▸ Bytes.get_overwrite_outside fits2 outside
  have keep3 : ∀ i, i < start + 3 ∨ start + 5 ≤ i → d3.get! i = d2.get! i := fun i outside =>
    same3 ▸ Bytes.get_overwrite_outside fits3 outside
  have keep4 : ∀ i, i < start + 5 ∨ start + 7 ≤ i → d4.get! i = d3.get! i := fun i outside =>
    same4 ▸ Bytes.get_overwrite_outside fits4 outside
  have keep5 : ∀ i, i < start + 7 ∨ start + 8 ≤ i → d'.get! i = d4.get! i := fun i outside =>
    same5 ▸ Bytes.get_overwrite_outside fits5 outside
  refine ⟨by omega, by omega, ?_, ?_, ?_, ?_, ?_, ?_⟩
  · intro i outside
    rw [keep5 i (by omega), keep4 i (by omega), keep3 i (by omega), keep2 i (by omega), same1]
    exact Bytes.get_overwrite_outside fits1 (by
      have one : (Bytes.ofList [h.kind.flags]).size = 1 := rfl
      omega)
  · rw [keep5 _ (by omega), keep4 _ (by omega), keep3 _ (by omega), keep2 _ (by omega), same1]
    exact (Bytes.hasAt_overwrite fits1).2 0 Nat.zero_lt_one
  · rw [← first, same5, Bytes.at16_overwrite fits5 (by omega), same4,
      Bytes.at16_overwrite fits4 (by omega), same3, Bytes.at16_overwrite fits3 (by omega)]
  · rw [← count, same5, Bytes.at16_overwrite fits5 (by omega), same4,
      Bytes.at16_overwrite fits4 (by omega)]
  · rw [← content, same5, Bytes.at16_overwrite fits5 (by omega)]
  · have fits : start + 7 + (Bytes.ofList [UInt8.ofNat h.fragments]).size ≤ d4.size := fits5
    have here := (Bytes.hasAt_overwrite fits).2 0 Nat.zero_lt_one
    rw [Nat.add_zero, Bytes.get_ofList] at here
    rw [same5, here]
    exact Nat.mod_eq_of_lt valid.fragments

theorem write_ok {h : PageHeader} {start : Nat} {d d' : Bytes} (valid : h.Valid)
    (run : h.write start d = .ok () d') : Apart d d' start h.kind ∧ At d' start h := by
  have shape : h.write start = (do
      (do
        Bytes.putOr ⟨.internal, none⟩ start (Bytes.ofList [h.kind.flags])
        Bytes.putU16 (start + 1) h.firstFree
        Bytes.putU16 (start + 3) h.cellCount
        Bytes.putU16 (start + 5) h.contentStart
        Bytes.putByte (start + 7) (UInt8.ofNat h.fragments) : Action Bytes Unit)
      h.rightChild.elim (pure ()) fun child => Bytes.putU32 (start + 8) child) := by
    simp only [write, bind_assoc]
    cases h.rightChild <;> rfl
  rw [shape] at run
  obtain ⟨_, e, fixed, run⟩ := Action.bind_ok.mp run
  obtain ⟨room, size, outside, flags, first, count, content, fragments⟩ :=
    writeFixed_ok valid fixed
  have some := valid.rightSome
  cases right : h.rightChild with
  | none =>
    rw [right] at run some
    obtain ⟨-, rfl⟩ := Action.pure_ok.mp run
    have leaf : h.kind.isLeaf = true := by simpa using some
    have narrow := PageKind.headerSize_leaf leaf
    refine ⟨⟨size, fun i hi => outside i (by omega)⟩, ?_⟩
    refine ⟨by omega, flags, first, count, content, fragments, ?_, valid.contentPos,
      valid.contentLe⟩
    rw [right, if_pos leaf]
  | some child =>
    rw [right] at run some
    have interior : h.kind.isLeaf = false := by simpa using some
    have wide := PageKind.headerSize_interior interior
    obtain ⟨fits, same⟩ := Bytes.putU32_ok.mp run
    have length : d'.size = e.size := by rw [same, Bytes.size_overwrite fits]
    have keep : ∀ i, i < start + 8 ∨ start + 12 ≤ i → d'.get! i = e.get! i := fun i outside =>
      same ▸ Bytes.get_overwrite_outside fits outside
    have number : ∀ i, i + 2 ≤ start + 8 → d'.at16 i = e.at16 i := by
      intro i hi
      rw [same, Bytes.at16_overwrite fits (by omega)]
    refine ⟨⟨by omega, ?_⟩, ?_⟩
    · intro i hi
      rw [keep i (by omega), outside i (by omega)]
    · refine ⟨by omega, ?_, ?_, ?_, ?_, ?_, ?_, valid.contentPos, valid.contentLe⟩
      · rw [keep _ (by omega), flags]
      · rw [number _ (by omega), first]
      · rw [number _ (by omega), count]
      · rw [number _ (by omega), content]
      · rw [keep _ (by omega), fragments]
      · rw [right, interior, same, Bytes.at32_overwrite_same fits,
          Nat.mod_eq_of_lt (valid.rightLt child right)]
        rfl

end PageHeader

end TreeFile
