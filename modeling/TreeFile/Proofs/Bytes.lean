import TreeFile.Bytes
import TreeFile.Proofs.Action

/-!
Reading bytes back after they were written: what a write leaves alone, and that numbers and
strings come back as they were put.
-/

namespace TreeFile

namespace Bytes

theorem get_eq (d : Bytes) (i : Nat) : d.get! i = if h : i < d.size then d[i] else 0 := by
  change d.data[i]! = _
  by_cases h : i < d.size
  · rw [dif_pos h]
    exact getElem!_pos d.data i h
  · rw [dif_neg h]
    exact getElem!_neg d.data i h

theorem get_of_lt {d : Bytes} {i : Nat} (h : i < d.size) : d.get! i = d[i] := by
  rw [get_eq, dif_pos h]

theorem get_of_ge {d : Bytes} {i : Nat} (h : d.size ≤ i) : d.get! i = 0 := by
  rw [get_eq, dif_neg (Nat.not_lt.mpr h)]

theorem ext_get {a b : Bytes} (size : a.size = b.size)
    (same : ∀ i, i < a.size → a.get! i = b.get! i) : a = b := by
  apply ByteArray.ext_getElem size
  intro i ha hb
  rw [← get_of_lt ha, ← get_of_lt hb]
  exact same i ha

@[simp] theorem size_ofList (l : List UInt8) : (ofList l).size = l.length := rfl

theorem get_ofList (l : List UInt8) (i : Nat) : (ofList l).get! i = l.getD i 0 := by
  by_cases h : i < l.length
  · rw [get_of_lt (d := ofList l) h]
    simp [ofList, ByteArray.getElem_eq_getElem_data, List.getD_eq_getElem?_getD, h]
  · rw [get_of_ge (Nat.not_lt.mp h)]
    simp [List.getD_eq_getElem?_getD, Nat.not_lt.mp h]

@[simp] theorem size_zeros (n : Nat) : (zeros n).size = n := by
  simp [zeros, ByteArray.size]

@[simp] theorem get_zeros (n i : Nat) : (zeros n).get! i = 0 := by
  by_cases h : i < n
  · rw [get_of_lt (by rw [size_zeros]; exact h)]
    simp [zeros, ByteArray.getElem_eq_getElem_data]
  · exact get_of_ge (by rw [size_zeros]; omega)

theorem get_append (a b : Bytes) (i : Nat) :
    (a ++ b).get! i = if i < a.size then a.get! i else b.get! (i - a.size) := by
  by_cases h : i < a.size
  · rw [if_pos h, get_of_lt h, get_of_lt (by rw [ByteArray.size_append]; omega),
      ByteArray.getElem_append_left h]
  · rw [if_neg h]
    by_cases hb : i < a.size + b.size
    · rw [get_of_lt (by rw [ByteArray.size_append]; exact hb), get_of_lt (d := b) (by omega),
        ByteArray.getElem_append_right (by omega)]
    · rw [get_of_ge (by rw [ByteArray.size_append]; omega), get_of_ge (by omega)]

theorem size_extract_of_le {d : Bytes} {a b : Nat} (h : b ≤ d.size) :
    (d.extract a b).size = b - a := by
  rw [ByteArray.size_extract]
  omega

theorem extract_self (d : Bytes) (i : Nat) : d.extract i i = .empty :=
  ByteArray.extract_eq_empty_iff.mpr (Nat.min_le_left i _)

theorem get_extract (d : Bytes) (a b i : Nat) :
    (d.extract a b).get! i = if a + i < b then d.get! (a + i) else 0 := by
  by_cases h : a + i < min b d.size
  · rw [if_pos (by omega), get_of_lt (by rw [ByteArray.size_extract]; omega),
      get_of_lt (d := d) (by omega), ByteArray.getElem_extract]
  · rw [get_of_ge (by rw [ByteArray.size_extract]; omega)]
    split
    · exact (get_of_ge (by omega)).symm
    · rfl

@[simp] theorem size_resize (d : Bytes) (n : Nat) : (d.resize n).size = n := by
  unfold resize
  split
  · rw [size_extract_of_le (by omega)]
    omega
  · rw [ByteArray.size_append, size_zeros]
    omega

theorem get_resize (d : Bytes) (n i : Nat) :
    (d.resize n).get! i = if i < n then d.get! i else 0 := by
  unfold resize
  split
  · rw [get_extract]
    simp
  · rw [get_append]
    by_cases h : i < d.size
    · rw [if_pos h, if_pos (by omega)]
    · rw [if_neg h, get_zeros, get_of_ge (Nat.not_lt.mp h), ite_self]

theorem resize_self (d : Bytes) : d.resize d.size = d := by
  apply ext_get (size_resize d d.size)
  intro i hi
  rw [size_resize] at hi
  rw [get_resize, if_pos hi]

theorem overwrite_eq (d src : Bytes) (start : Nat) :
    d.overwrite start src = d.extract 0 start ++ src ++ d.extract (start + src.size) d.size := by
  unfold overwrite
  rw [ByteArray.copySlice_eq_append]
  simp only [ByteArray.size_data, Nat.sub_zero, Nat.min_self, Nat.zero_add,
    ByteArray.extract_zero_size]

theorem size_overwrite {d c : Bytes} {start : Nat} (fits : start + c.size ≤ d.size) :
    (d.overwrite start c).size = d.size := by
  rw [overwrite_eq, ByteArray.size_append, ByteArray.size_append, size_extract_of_le (by omega),
    size_extract_of_le (by omega)]
  omega

theorem get_overwrite {d src : Bytes} {start : Nat} (fits : start + src.size ≤ d.size) (i : Nat) :
    (d.overwrite start src).get! i =
      if start ≤ i ∧ i < start + src.size then src.get! (i - start) else d.get! i := by
  have before : (d.extract 0 start).size = start := by
    rw [size_extract_of_le (by omega)]
    omega
  have both : (d.extract 0 start ++ src).size = start + src.size := by
    rw [ByteArray.size_append, before]
  rw [overwrite_eq, get_append, both]
  by_cases h2 : i < start + src.size
  · rw [if_pos h2, get_append, before]
    by_cases h1 : i < start
    · have outside : ¬ (start ≤ i ∧ i < start + src.size) := by omega
      rw [if_pos h1, if_neg outside, get_extract, Nat.zero_add, if_pos h1]
    · rw [if_neg h1, if_pos ⟨Nat.not_lt.mp h1, h2⟩]
  · have outside : ¬ (start ≤ i ∧ i < start + src.size) := by omega
    have same : start + src.size + (i - (start + src.size)) = i := by omega
    rw [if_neg h2, if_neg outside, get_extract, same]
    split
    · rfl
    · exact (get_of_ge (by omega)).symm

theorem get_overwrite_outside {d c : Bytes} {start i : Nat} (fits : start + c.size ≤ d.size)
    (outside : i < start ∨ start + c.size ≤ i) : (d.overwrite start c).get! i = d.get! i := by
  rw [get_overwrite fits, if_neg (by omega)]

def SameOn (d e : Bytes) (a b : Nat) : Prop := ∀ i, a ≤ i → i < b → e.get! i = d.get! i

theorem SameOn.refl (d : Bytes) (a b : Nat) : SameOn d d a b := fun _ _ _ => rfl

theorem SameOn.trans {d e f : Bytes} {a b : Nat} (first : SameOn d e a b)
    (second : SameOn e f a b) : SameOn d f a b :=
  fun i lower upper => (second i lower upper).trans (first i lower upper)

theorem SameOn.mono {d e : Bytes} {a b a' b' : Nat} (same : SameOn d e a b) (lower : a ≤ a')
    (upper : b' ≤ b) : SameOn d e a' b' :=
  fun i hl hu => same i (Nat.le_trans lower hl) (Nat.lt_of_lt_of_le hu upper)

theorem sameOn_overwrite {d src : Bytes} {start a b : Nat} (fits : start + src.size ≤ d.size)
    (apart : b ≤ start ∨ start + src.size ≤ a) : SameOn d (d.overwrite start src) a b := by
  intro i lower upper
  rw [get_overwrite fits, if_neg (by omega)]

theorem extract_overwrite {d src : Bytes} {start a b : Nat} (fits : start + src.size ≤ d.size)
    (apart : b ≤ start ∨ start + src.size ≤ a) :
    (d.overwrite start src).extract a b = d.extract a b := by
  apply ext_get
  · simp only [ByteArray.size_extract, size_overwrite fits]
  · intro k hk
    rw [ByteArray.size_extract, size_overwrite fits] at hk
    rw [get_extract, get_extract, sameOn_overwrite fits apart (a + k) (by omega) (by omega)]

def HasAt (d : Bytes) (i : Nat) (c : Bytes) : Prop :=
  i + c.size ≤ d.size ∧ ∀ k, k < c.size → d.get! (i + k) = c.get! k

theorem HasAt.extract {d c : Bytes} {i : Nat} (has : HasAt d i c) :
    d.extract i (i + c.size) = c := by
  apply ext_get
  · rw [size_extract_of_le has.1]
    omega
  · intro k hk
    rw [size_extract_of_le has.1] at hk
    rw [get_extract, if_pos (by omega)]
    exact has.2 k (by omega)

theorem HasAt.extract_inside {d c : Bytes} {i a b : Nat} (has : HasAt d i c) (order : a ≤ b)
    (inside : b ≤ c.size) : d.extract (i + a) (i + b) = c.extract a b := by
  have room := has.1
  apply ext_get
  · rw [size_extract_of_le (by omega), size_extract_of_le inside]
    omega
  · intro k h
    rw [size_extract_of_le (by omega)] at h
    rw [get_extract, get_extract, if_pos (by omega), if_pos (by omega), Nat.add_assoc]
    exact has.2 (a + k) (by omega)

theorem hasAt_extract {d : Bytes} {a b : Nat} (lower : a ≤ b) (upper : b ≤ d.size) :
    HasAt d a (d.extract a b) := by
  have size : (d.extract a b).size = b - a := size_extract_of_le upper
  constructor
  · omega
  · intro k hk
    rw [get_extract, if_pos (by omega)]

theorem HasAt.of_sameOn {d e c : Bytes} {i : Nat} (has : HasAt d i c) (size : e.size = d.size)
    (same : SameOn d e i (i + c.size)) : HasAt e i c := by
  constructor
  · rw [size]
    exact has.1
  · intro k hk
    rw [same (i + k) (by omega) (by omega)]
    exact has.2 k hk

theorem hasAt_overwrite {d src : Bytes} {start : Nat} (fits : start + src.size ≤ d.size) :
    HasAt (d.overwrite start src) start src := by
  constructor
  · rw [size_overwrite fits]
    exact fits
  · intro k hk
    rw [get_overwrite fits, if_pos ⟨by omega, by omega⟩]
    congr 1
    omega

theorem HasAt.append_left {d a b : Bytes} {i : Nat} (has : HasAt d i (a ++ b)) : HasAt d i a := by
  obtain ⟨room, same⟩ := has
  rw [ByteArray.size_append] at room same
  refine ⟨by omega, ?_⟩
  intro k hk
  rw [same k (by omega), get_append, if_pos hk]

theorem HasAt.append_right {d a b : Bytes} {i : Nat} (has : HasAt d i (a ++ b)) :
    HasAt d (i + a.size) b := by
  obtain ⟨room, same⟩ := has
  rw [ByteArray.size_append] at room same
  refine ⟨by omega, ?_⟩
  intro k hk
  rw [Nat.add_assoc, same (a.size + k) (by omega), get_append, if_neg (by omega),
    Nat.add_sub_cancel_left]

theorem hasAt_append_self (d c : Bytes) : HasAt (d ++ c) 0 d := by
  rw [HasAt, ByteArray.size_append]
  refine ⟨by omega, ?_⟩
  intro k hk
  rw [Nat.zero_add, get_append, if_pos hk]

theorem hasAt_self (d : Bytes) : HasAt d 0 d :=
  ⟨by omega, fun k _ => by rw [Nat.zero_add]⟩

def at16 (d : Bytes) (i : Nat) : Nat := (d.get! i).toNat * 256 + (d.get! (i + 1)).toNat

def at32 (d : Bytes) (i : Nat) : Nat :=
  (d.get! i).toNat * 16777216 + (d.get! (i + 1)).toNat * 65536 +
    (d.get! (i + 2)).toNat * 256 + (d.get! (i + 3)).toNat

theorem at16_lt (d : Bytes) (i : Nat) : d.at16 i < 65536 := by
  have high := (d.get! i).toNat_lt
  have low := (d.get! (i + 1)).toNat_lt
  unfold at16
  omega

theorem at32_lt (d : Bytes) (i : Nat) : d.at32 i < 4294967296 := by
  have b0 := (d.get! i).toNat_lt
  have b1 := (d.get! (i + 1)).toNat_lt
  have b2 := (d.get! (i + 2)).toNat_lt
  have b3 := (d.get! (i + 3)).toNat_lt
  unfold at32
  omega

@[simp] theorem size_ofNat16 (n : Nat) : (ofNat16 n).size = 2 := rfl

@[simp] theorem size_ofNat32 (n : Nat) : (ofNat32 n).size = 4 := rfl

theorem at16_of_hasAt {d : Bytes} {i n : Nat} (has : HasAt d i (ofNat16 n)) :
    d.at16 i = n % 65536 := by
  have b0 := has.2 0 (by simp)
  have b1 := has.2 1 (by simp)
  rw [Nat.add_zero] at b0
  unfold at16
  rw [b0, b1, ofNat16, get_ofList, get_ofList]
  simp only [List.getD_cons_zero, List.getD_cons_succ, UInt8.toNat_ofNat']
  omega

theorem at32_of_hasAt {d : Bytes} {i n : Nat} (has : HasAt d i (ofNat32 n)) :
    d.at32 i = n % 4294967296 := by
  have b0 := has.2 0 (by simp)
  have b1 := has.2 1 (by simp)
  have b2 := has.2 2 (by simp)
  have b3 := has.2 3 (by simp)
  rw [Nat.add_zero] at b0
  unfold at32
  rw [b0, b1, b2, b3, ofNat32]
  simp only [get_ofList, List.getD_cons_zero, List.getD_cons_succ, UInt8.toNat_ofNat']
  omega

theorem get_ofNat32_at32 (d : Bytes) {i k : Nat} (low : i ≤ k) (high : k < i + 4) :
    (ofNat32 (d.at32 i)).get! (k - i) = d.get! k := by
  have b0 := (d.get! i).toNat_lt
  have b1 := (d.get! (i + 1)).toNat_lt
  have b2 := (d.get! (i + 2)).toNat_lt
  have b3 := (d.get! (i + 3)).toNat_lt
  have cases : k = i ∨ k = i + 1 ∨ k = i + 2 ∨ k = i + 3 := by omega
  rw [ofNat32, get_ofList]
  apply UInt8.toNat_inj.mp
  rcases cases with rfl | rfl | rfl | rfl
  · rw [Nat.sub_self, List.getD_cons_zero, UInt8.toNat_ofNat']
    unfold at32
    omega
  all_goals
    rw [Nat.add_sub_cancel_left]
    simp only [List.getD_cons_succ, List.getD_cons_zero, UInt8.toNat_ofNat']
    unfold at32
    omega

theorem SameOn.at16 {d e : Bytes} {a b i : Nat} (same : SameOn d e a b) (lower : a ≤ i)
    (upper : i + 2 ≤ b) : e.at16 i = d.at16 i := by
  unfold Bytes.at16
  rw [same i (by omega) (by omega), same (i + 1) (by omega) (by omega)]

theorem SameOn.at32 {d e : Bytes} {a b i : Nat} (same : SameOn d e a b) (lower : a ≤ i)
    (upper : i + 4 ≤ b) : e.at32 i = d.at32 i := by
  unfold Bytes.at32
  rw [same i (by omega) (by omega), same (i + 1) (by omega) (by omega),
    same (i + 2) (by omega) (by omega), same (i + 3) (by omega) (by omega)]

theorem at16_overwrite_same {d : Bytes} {i n : Nat} (fits : i + 2 ≤ d.size) :
    (d.overwrite i (ofNat16 n)).at16 i = n % 65536 :=
  at16_of_hasAt (hasAt_overwrite (show i + (ofNat16 n).size ≤ d.size from fits))

theorem at32_overwrite_same {d : Bytes} {i n : Nat} (fits : i + 4 ≤ d.size) :
    (d.overwrite i (ofNat32 n)).at32 i = n % 4294967296 :=
  at32_of_hasAt (hasAt_overwrite (show i + (ofNat32 n).size ≤ d.size from fits))

theorem at16_overwrite {d c : Bytes} {start i : Nat} (fits : start + c.size ≤ d.size)
    (apart : i + 2 ≤ start ∨ start + c.size ≤ i) : (d.overwrite start c).at16 i = d.at16 i :=
  (sameOn_overwrite fits apart).at16 (Nat.le_refl i) (Nat.le_refl _)

theorem at32_overwrite {d src : Bytes} {start i : Nat} (fits : start + src.size ≤ d.size)
    (apart : i + 4 ≤ start ∨ start + src.size ≤ i) : (d.overwrite start src).at32 i = d.at32 i :=
  (sameOn_overwrite fits apart).at32 (Nat.le_refl i) (Nat.le_refl _)

end Bytes

namespace Window

theorem u16?_eq (w : Window) (i : Nat) :
    w.u16? i = if i + 2 ≤ w.size ∧ i + 2 ≤ w.bytes.size then some (w.bytes.at16 i) else none := by
  simp only [u16?, holds, Bool.and_eq_true, decide_eq_true_eq, Bytes.at16]

theorem u32?_eq (w : Window) (i : Nat) :
    w.u32? i = if i + 4 ≤ w.size ∧ i + 4 ≤ w.bytes.size then some (w.bytes.at32 i) else none := by
  simp only [u32?, holds, Bool.and_eq_true, decide_eq_true_eq, Bytes.at32]

theorem get?_eq (w : Window) (i : Nat) :
    w.get? i = if i < w.size ∧ i < w.bytes.size then some (w.bytes.get! i) else none := by
  unfold get?
  by_cases h : i < w.size
  · by_cases hb : i < w.bytes.size
    · simp only [h, hb, if_true, dif_pos, and_self, Bytes.get_of_lt hb]
    · simp only [h, hb, if_true, dif_neg, and_false, if_false, not_false_eq_true]
  · simp only [h, if_false, false_and]

end Window

namespace Bytes

theorem get?_eq (d : Bytes) (i : Nat) : d.get? i = if i < d.size then some (d.get! i) else none := by
  rw [get?, Window.get?_eq]
  simp only [window, and_self]

theorem u16?_eq (d : Bytes) (i : Nat) :
    d.u16? i = if i + 2 ≤ d.size then some (d.at16 i) else none := by
  rw [u16?, Window.u16?_eq]
  simp only [window, and_self]

theorem u32?_eq (d : Bytes) (i : Nat) :
    d.u32? i = if i + 4 ≤ d.size then some (d.at32 i) else none := by
  rw [u32?, Window.u32?_eq]
  simp only [window, and_self]

theorem u16?_of_le {d : Bytes} {i : Nat} (h : i + 2 ≤ d.size) : d.u16? i = some (d.at16 i) := by
  rw [u16?_eq, if_pos h]

theorem u32?_of_le {d : Bytes} {i : Nat} (h : i + 4 ≤ d.size) : d.u32? i = some (d.at32 i) := by
  rw [u32?_eq, if_pos h]

theorem u32_of_le {d : Bytes} {i : Nat} (h : i + 4 ≤ d.size) : d.u32 i = .ok (d.at32 i) := by
  unfold u32
  rw [u32?_of_le h]

theorem slice_ok {d c : Bytes} {a b : Nat} :
    d.slice a b = .ok c ↔ (a ≤ b ∧ b ≤ d.size) ∧ d.extract a b = c := by
  unfold slice
  split
  · rename_i inside
    simp only [inside, and_self, true_and]
    constructor
    · intro h
      cases h
      rfl
    · rintro rfl
      rfl
  · rename_i outside
    constructor
    · intro h
      cases h
    · rintro ⟨inside, -⟩
      exact absurd inside outside

theorem putOr_ok {e : Error} {start : Nat} {src d d' : Bytes} :
    putOr e start src d = .ok () d' ↔ start + src.size ≤ d.size ∧ d' = d.overwrite start src := by
  unfold putOr
  split
  · rename_i fits
    simp only [fits, true_and]
    constructor
    · intro h
      cases h
      rfl
    · rintro rfl
      rfl
  · rename_i long
    constructor
    · intro h
      cases h
    · rintro ⟨fits, -⟩
      exact absurd fits long

theorem put_ok {start : Nat} {src d d' : Bytes} :
    put start src d = .ok () d' ↔ start + src.size ≤ d.size ∧ d' = d.overwrite start src := putOr_ok

theorem putByte_ok {i : Nat} {value : UInt8} {d d' : Bytes} :
    putByte i value d = .ok () d' ↔ i + 1 ≤ d.size ∧ d' = d.overwrite i (ofList [value]) := putOr_ok

theorem putU16_ok {i value : Nat} {d d' : Bytes} :
    putU16 i value d = .ok () d' ↔ i + 2 ≤ d.size ∧ d' = d.overwrite i (ofNat16 value) := putOr_ok

theorem putU32_ok {i value : Nat} {d d' : Bytes} :
    putU32 i value d = .ok () d' ↔ i + 4 ≤ d.size ∧ d' = d.overwrite i (ofNat32 value) := putOr_ok

theorem clear_ok {start stop : Nat} {d d' : Bytes} :
    clear start stop d = .ok () d' ↔
      (start ≤ stop ∧ stop ≤ d.size) ∧ d' = d.overwrite start (zeros (stop - start)) := by
  unfold clear
  split
  · rename_i order
    rw [put_ok, size_zeros]
    have same : start + (stop - start) ≤ d.size ↔ stop ≤ d.size := by omega
    rw [same]
    simp only [order, true_and]
  · rename_i order
    constructor
    · intro h
      cases h
    · rintro ⟨⟨h, -⟩, -⟩
      exact absurd h order

theorem move_ok {start stop target : Nat} {d d' : Bytes} :
    move start stop target d = .ok () d' ↔
      (start ≤ stop ∧ stop ≤ d.size ∧ target + (stop - start) ≤ d.size) ∧
        d' = d.overwrite target (d.extract start stop) := by
  unfold move
  rw [Action.get_bind, Action.lift_bind_ok]
  constructor
  · rintro ⟨moved, sliced, run⟩
    obtain ⟨⟨order, bound⟩, rfl⟩ := slice_ok.mp sliced
    obtain ⟨fits, rfl⟩ := put_ok.mp run
    rw [size_extract_of_le bound] at fits
    exact ⟨⟨order, bound, fits⟩, rfl⟩
  · rintro ⟨⟨order, bound, fits⟩, rfl⟩
    refine ⟨_, slice_ok.mpr ⟨⟨order, bound⟩, rfl⟩, put_ok.mpr ⟨?_, rfl⟩⟩
    rw [size_extract_of_le bound]
    exact fits

end Bytes

end TreeFile
