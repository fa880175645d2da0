import Mathlib.Algebra.Group.Nat.Defs
import TreeFile.Varint
import TreeFile.Proofs.Bytes

/-!
Varints read back as they were written, and what is read depends on the bytes of the number alone.
-/

namespace TreeFile

namespace Varint

def Shows (w : Window) (i : Nat) (l : List UInt8) : Prop :=
  ∀ k, k < l.length → w.get? (i + k) = some (l.getD k 0)

theorem length_septets (count value : Nat) (tail : List UInt8) :
    (septets count value tail).length = count + tail.length := by
  induction count generalizing value tail with
  | zero => simp only [septets, Nat.zero_add]
  | succ count ih =>
    rw [septets, ih]
    simp only [List.length_cons]
    omega

theorem length_pos (value : Nat) : 1 ≤ length value ∧ length value ≤ 9 := by
  unfold length
  repeat' split
  all_goals omega

theorem length_toList (value : Nat) : (toList value).length = length value := by
  have bounds := length_pos value
  unfold toList
  split
  · rw [length_septets]
    simp only [List.length_cons, List.length_nil]
    omega
  · rw [length_septets]
    simp only [List.length_cons, List.length_nil]
    omega

@[simp] theorem size_encode (value : Nat) : (encode value).size = length value := by
  rw [encode, Bytes.size_ofList, length_toList]

theorem go_of_small {w : Window} {i left value : Nat} {b : UInt8}
    (here : w.get? (i + (7 - left)) = some b) (small : b < 128) :
    decode?.go w i (left + 1) value = some (value * 128 + b.toNat % 128, 8 - left) := by
  simp only [decode?.go, here, small, if_true]

theorem go_of_marked {w : Window} {i left value : Nat} {b : UInt8}
    (here : w.get? (i + (7 - left)) = some b) (marked : ¬ b < 128) :
    decode?.go w i (left + 1) value = decode?.go w i left (value * 128 + b.toNat % 128) := by
  simp only [decode?.go, here, marked, if_false]

theorem go_septets {w : Window} {i : Nat} (count : Nat) :
    ∀ (left acc value : Nat) (tail : List UInt8), left ≤ 8 → count ≤ left →
      Shows w (i + (8 - left)) (septets count value tail) →
      decode?.go w i left acc =
        decode?.go w i (left - count) (acc * 128 ^ count + value % 128 ^ count) ∧
      Shows w (i + (8 - (left - count))) tail := by
  induction count with
  | zero =>
    intro left acc value tail _ _ shows
    refine ⟨?_, shows⟩
    simp only [Nat.sub_zero, Nat.pow_zero, Nat.mul_one, Nat.mod_one, Nat.add_zero]
  | succ count ih =>
    intro left acc value tail bound room shows
    rw [septets] at shows
    obtain ⟨first, rest⟩ := ih left acc (value / 128) _ bound (by omega) shows
    have here := rest 0 (by simp)
    rw [Nat.add_zero, List.getD_cons_zero] at here
    obtain ⟨m, hm⟩ : ∃ m, left - count = m + 1 := ⟨left - count - 1, by omega⟩
    have place : i + (8 - (left - count)) = i + (7 - m) := by omega
    have next : left - (count + 1) = m := by omega
    have group : (UInt8.ofNat (value % 128 + 128)).toNat = value % 128 + 128 := by
      rw [UInt8.toNat_ofNat']
      omega
    have marked : ¬ UInt8.ofNat (value % 128 + 128) < 128 := by
      rw [UInt8.lt_iff_toNat_lt, group]
      change ¬ value % 128 + 128 < 128
      omega
    rw [place] at here
    constructor
    · rw [first, hm, go_of_marked here marked, next, group]
      congr 1
      have split := @Nat.mod_mul 128 (128 ^ count) value
      rw [Nat.pow_succ, Nat.mul_comm (128 ^ count) 128, split, Nat.add_mul]
      have order : acc * 128 ^ count * 128 = acc * (128 * 128 ^ count) := by
        rw [Nat.mul_assoc, Nat.mul_comm (128 ^ count) 128]
      rw [order]
      have low : (value % 128 + 128) % 128 = value % 128 := by omega
      rw [low, Nat.mul_comm (value / 128 % 128 ^ count) 128]
      omega
    · rw [next]
      intro k hk
      have there := rest (k + 1) (by simp only [List.length_cons]; omega)
      rw [List.getD_cons_succ] at there
      rw [← there]
      congr 1
      omega

theorem lt_of_length {value n : Nat} (short : length value = n + 1) (h : n < 8) :
    value / 128 < 128 ^ n := by
  revert short
  unfold length
  repeat' split
  all_goals
    intro short
    obtain rfl : n = _ := (Nat.succ.inj short).symm
    simp only [Nat.reducePow]
    omega

theorem decode?_of_shows {w : Window} {i value : Nat} (bound : value < 18446744073709551616)
    (shows : Shows w i (toList value)) : decode? w i = some (value, length value) := by
  have lengths := length_pos value
  unfold decode?
  unfold toList at shows
  by_cases long : length value = 9
  · rw [if_pos long] at shows
    obtain ⟨run, rest⟩ := go_septets 8 8 0 (value / 256) _ (by omega) (by omega) (by simpa using shows)
    have here := rest 0 (by simp)
    simp only [Nat.add_zero, Nat.sub_self, Nat.sub_zero, List.getD_cons_zero] at here
    rw [run]
    simp only [Nat.sub_self, decode?.go, here, Nat.zero_mul, Nat.zero_add, UInt8.toNat_ofNat', long]
    have top : value / 256 % 128 ^ 8 = value / 256 := by
      apply Nat.mod_eq_of_lt
      simp only [Nat.reducePow]
      omega
    rw [top]
    congr 2
    omega
  · rw [if_neg long] at shows
    obtain ⟨n, hn⟩ : ∃ n, length value = n + 1 := ⟨length value - 1, by omega⟩
    rw [hn, Nat.add_sub_cancel] at shows
    obtain ⟨run, rest⟩ := go_septets n 8 0 (value / 128) _ (by omega) (by omega) (by simpa using shows)
    have here := rest 0 (by simp)
    simp only [Nat.add_zero, List.getD_cons_zero] at here
    obtain ⟨m, hm⟩ : ∃ m, 8 - n = m + 1 := ⟨7 - n, by omega⟩
    have place : i + (8 - (8 - n)) = i + (7 - m) := by omega
    have last : (UInt8.ofNat (value % 128)).toNat = value % 128 := by
      rw [UInt8.toNat_ofNat']
      omega
    have small : UInt8.ofNat (value % 128) < 128 := by
      rw [UInt8.lt_iff_toNat_lt, last]
      change value % 128 < 128
      omega
    rw [place] at here
    rw [run, hm, go_of_small here small, last, Nat.zero_mul, Nat.zero_add,
      Nat.mod_eq_of_lt (lt_of_length hn (by omega))]
    congr 2
    · omega
    · omega

theorem decode?_of_hasAt {d : Bytes} {i value : Nat} (bound : value < 18446744073709551616)
    (has : d.HasAt i (encode value)) : decode? d.window i = some (value, length value) := by
  apply decode?_of_shows bound
  intro k hk
  have room := has.1
  have byte := has.2 k
  rw [size_encode] at room byte
  rw [length_toList] at hk
  rw [Window.get?_eq]
  simp only [Bytes.window, and_self]
  rw [if_pos (by omega), byte hk, encode, Bytes.get_ofList]

theorem go_bounds {w : Window} {i : Nat} (left : Nat) :
    ∀ {acc value n : Nat}, left ≤ 8 → decode?.go w i left acc = some (value, n) →
      9 - left ≤ n ∧ n ≤ 9 ∧ ∀ k, 8 - left ≤ k → k < n → i + k < w.size ∧ i + k < w.bytes.size := by
  induction left with
  | zero =>
    intro acc value n _ run
    rw [decode?.go, Window.get?_eq] at run
    split at run
    · rename_i b hb
      split at hb
      · cases run
        refine ⟨by omega, by omega, ?_⟩
        intro k lower upper
        have : k = 8 := by omega
        omega
      · cases hb
    · cases run
  | succ left ih =>
    intro acc value n bound run
    rw [decode?.go, Window.get?_eq] at run
    split at run
    · rename_i b hb
      split at hb
      · rename_i inside
        split at run
        · cases run
          refine ⟨by omega, by omega, ?_⟩
          intro k lower upper
          have : k = 7 - left := by omega
          omega
        · obtain ⟨lower, upper, reads⟩ := ih (by omega) run
          refine ⟨by omega, upper, ?_⟩
          intro k hk hn
          by_cases first : k = 7 - left
          · omega
          · exact reads k (by omega) hn
      · cases hb
    · cases run

theorem go_congr {w v : Window} {i j : Nat} (left : Nat) :
    ∀ {acc value n : Nat}, left ≤ 8 → decode?.go w i left acc = some (value, n) →
      (∀ k, 8 - left ≤ k → k < n → v.get? (j + k) = w.get? (i + k)) →
      decode?.go v j left acc = some (value, n) := by
  induction left with
  | zero =>
    intro acc value n _ run same
    have bounds := go_bounds 0 (by omega) run
    rw [decode?.go] at run ⊢
    rw [same 8 (by omega) (by omega)]
    exact run
  | succ left ih =>
    intro acc value n bound run same
    have bounds := go_bounds (left + 1) bound run
    rw [decode?.go] at run ⊢
    rw [same (7 - left) (by omega) (by omega)]
    cases h : w.get? (i + (7 - left)) with
    | none =>
      rw [h] at run
      cases run
    | some b =>
      simp only [h] at run ⊢
      by_cases small : b < 128
      · simp only [small, if_true] at run ⊢
        exact run
      · simp only [small, if_false] at run ⊢
        exact ih (by omega) run fun k lower upper => same k (by omega) upper

theorem decode?_bounds {w : Window} {i value n : Nat} (run : decode? w i = some (value, n)) :
    1 ≤ n ∧ n ≤ 9 ∧ i + n ≤ w.size ∧ i + n ≤ w.bytes.size := by
  obtain ⟨lower, upper, reads⟩ := go_bounds 8 (by omega) run
  have last := reads (n - 1) (by omega) (by omega)
  refine ⟨by omega, upper, by omega, by omega⟩

theorem decode?_congr {w v : Window} {i j value n : Nat} (run : decode? w i = some (value, n))
    (same : ∀ k, k < n → v.get? (j + k) = w.get? (i + k)) : decode? v j = some (value, n) :=
  go_congr 8 (by omega) run fun k _ upper => same k upper

theorem decode?_move {c d : Bytes} {i j value n : Nat} (found : decode? c.window i = some (value, n))
    (room : j + n ≤ d.size) (same : ∀ k, k < n → d.get! (j + k) = c.get! (i + k)) :
    decode? d.window j = some (value, n) := by
  have bounds := decode?_bounds found
  have size : c.window.bytes.size = c.size := rfl
  apply decode?_congr found
  intro k hk
  rw [Window.get?_eq, Window.get?_eq]
  simp only [Bytes.window, and_self]
  rw [if_pos (by omega), if_pos (by omega), same k hk]

theorem decode?_overwrite {d c : Bytes} {i start value n : Nat} (fits : start + c.size ≤ d.size)
    (apart : i + n ≤ start ∨ start + c.size ≤ i) (found : decode? d.window i = some (value, n)) :
    decode? (d.overwrite start c).window i = some (value, n) := by
  obtain ⟨-, -, inside, -⟩ := decode?_bounds found
  have room : i + n ≤ (d.overwrite start c).size := by
    rw [Bytes.size_overwrite fits]
    exact inside
  exact decode?_move found room fun k _ => Bytes.get_overwrite_outside fits (by omega)

theorem read_ok {w : Window} {i : Nat} {found : Nat × Nat} :
    read w i = .ok found ↔ decode? w i = some found := by
  unfold read
  cases h : decode? w i with
  | none =>
    simp only
    split
    · constructor
      · intro run
        cases run
      · intro run
        cases run
    · constructor
      · intro run
        cases run
      · intro run
        cases run
  | some got =>
    have bounds := decode?_bounds (show decode? w i = some (got.1, got.2) from h)
    rw [if_pos (by omega)]
    simp only [Except.ok.injEq, Option.some.injEq]

theorem read32_ok {w : Window} {i value n : Nat} :
    read32 w i = .ok (value, n) ↔ decode? w i = some (value, n) ∧ value < 4294967296 := by
  unfold read32
  rw [Except.bind_ok]
  constructor
  · rintro ⟨⟨v, m⟩, found, run⟩
    have got := read_ok.mp found
    simp only at run
    split at run
    · rename_i small
      cases run
      exact ⟨got, small⟩
    · cases run
  · rintro ⟨found, small⟩
    refine ⟨(value, n), read_ok.mpr found, ?_⟩
    have size : value < UInt32.size := small
    simp only [size, if_true]
    rfl

end Varint

end TreeFile
