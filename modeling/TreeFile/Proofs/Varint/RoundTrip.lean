import TreeFile.Proofs.Varint.ReadBack

/-!
Varints as a code. A number has no shorter form than the one it is written in, and what is read is a number of 64
bits. The strings that do not begin with a number are those that end inside one.
-/

namespace TreeFile

namespace Varint

variable {w : Window} {d : Bytes} {i value n : Nat}

/-- What `n` bytes say lies below this. Each has seven bits for it, but a ninth has eight. -/
def room (n : Nat) : Nat := if n = 9 then 2 ^ 64 else 128 ^ n

theorem le_of_length (long : length value = n + 1) (positive : 0 < n) : 128 ^ n ≤ value := by
  revert long
  unfold length
  repeat' split
  all_goals
    intro long
    obtain rfl : n = _ := (Nat.succ.inj long).symm
    simp only [Nat.reducePow]
    omega

theorem length_le_of_lt_room (positive : 1 ≤ n) (bound : value < room n) : length value ≤ n := by
  refine Nat.le_of_not_lt fun more => ?_
  have most := (length_pos value).2
  obtain ⟨m, long⟩ : ∃ m, length value = m + 1 := ⟨length value - 1, by omega⟩
  have least := le_of_length long (by omega)
  have order : 128 ^ n ≤ 128 ^ m := Nat.pow_le_pow_right (by decide) (by omega)
  rw [room, if_neg (by omega)] at bound
  omega

theorem room_le (few : n ≤ 9) : room n ≤ 2 ^ 64 := by
  unfold room
  split
  · exact Nat.le_refl _
  · have small : n ≤ 8 := by omega
    exact Nat.le_trans (Nat.pow_le_pow_right (by decide) small) (by decide)

theorem go_lt_room (left : Nat) :
    ∀ {acc value n : Nat}, left ≤ 8 → acc < 128 ^ (8 - left) → decode?.go w i left acc = some (value, n) →
      value < room n := by
  induction left with
  | zero =>
    intro acc value n _ bound run
    rw [decode?.go] at run
    split at run
    · rename_i b _
      cases run
      have byte := b.toNat_lt
      simp only [Nat.sub_zero, Nat.reducePow] at bound
      simp only [room, if_true, Nat.reducePow]
      omega
    · cases run
  | succ left ih =>
    intro acc value n short bound run
    have step : ∀ b : UInt8, acc * 128 + b.toNat % 128 < 128 ^ (8 - left) := by
      intro b
      have more : 8 - left = 8 - (left + 1) + 1 := by omega
      rw [more, Nat.pow_succ]
      omega
    rw [decode?.go] at run
    split at run
    · rename_i b _
      split at run
      · cases run
        rw [room, if_neg (by omega)]
        exact step b
      · exact ih (by omega) (step b) run
    · cases run

theorem decode?_lt_room (run : decode? w i = some (value, n)) : value < room n :=
  go_lt_room 8 (by omega) (by decide) run

theorem go_eq_none (left : Nat) :
    ∀ {acc : Nat}, left ≤ 8 → (decode?.go d.window i left acc = none ↔
      d.size < i + 9 ∧ ∀ k, 8 - left ≤ k → i + k < d.size → 128 ≤ d.get! (i + k)) := by
  have shown : ∀ k, d.window.get? k = if k < d.size then some (d.get! k) else none := fun k => d.get?_eq k
  induction left with
  | zero =>
    intro acc _
    rw [decode?.go, shown]
    by_cases inside : i + 8 < d.size
    · simp only [inside, if_true, reduceCtorEq, false_iff]
      rintro ⟨short, -⟩
      omega
    · simp only [inside, if_false, true_iff]
      refine ⟨by omega, fun k late there => ?_⟩
      omega
  | succ left ih =>
    intro acc bound
    have place : 8 - (left + 1) = 7 - left := by omega
    rw [decode?.go, shown, place]
    by_cases inside : i + (7 - left) < d.size
    · simp only [inside, if_true]
      by_cases last : d.get! (i + (7 - left)) < 128
      · simp only [last, if_true, reduceCtorEq, false_iff]
        rintro ⟨-, marked⟩
        exact absurd last (UInt8.not_lt.mpr (marked _ (Nat.le_refl _) inside))
      · simp only [last, if_false]
        rw [ih (by omega)]
        refine and_congr_right fun short => ⟨fun marked k late there => ?_, fun marked k late => marked k (by omega)⟩
        by_cases here : k = 7 - left
        · rw [here]
          exact UInt8.not_lt.mp last
        · exact marked k (by omega) there
    · simp only [inside, if_false, true_iff]
      refine ⟨by omega, fun k late there => ?_⟩
      omega

theorem decode?_eq_none :
    decode? d.window 0 = none ↔ d.size < 9 ∧ ∀ k, k < d.size → 128 ≤ d.get! k := by
  have marks : decode? d.window 0 = none ↔ _ := go_eq_none 8 (Nat.le_refl 8)
  simpa only [Nat.zero_add, Nat.sub_self, Nat.zero_le, true_implies] using marks

theorem length_le_of_decode? (run : decode? w i = some (value, n)) : length value ≤ n := by
  have bounds := decode?_bounds run
  exact length_le_of_lt_room bounds.1 (decode?_lt_room run)

theorem decode?_extract (run : decode? d.window 0 = some (value, n)) (rest : Bytes) :
    decode? (Bytes.window (d.extract 0 n ++ rest)) 0 = some (value, n) := by
  obtain ⟨-, -, inside, -⟩ := decode?_bounds run
  have inside : n ≤ d.size := Nat.le_trans (Nat.le_add_left n 0) inside
  have size := Bytes.size_extract_of_le (a := 0) inside
  rw [Nat.sub_zero] at size
  refine decode?_move run ?_ fun k hk => ?_
  · rw [ByteArray.size_append, size]
    omega
  · rw [Nat.zero_add, Bytes.get_append, if_pos (by omega), Bytes.get_extract, if_pos (by omega), Nat.zero_add]

theorem put_encode (fits : length value ≤ d.size) :
    put value d = .ok (length value) (d.overwrite 0 (encode value)) ∧
      (d.overwrite 0 (encode value)).extract 0 (length value) = encode value := by
  have inside : 0 + (encode value).size ≤ d.size := by
    rw [size_encode, Nat.zero_add]
    exact fits
  have same := (Bytes.hasAt_overwrite inside).extract
  rw [size_encode, Nat.zero_add] at same
  exact ⟨if_pos fits, same⟩

/-- A number of 64 bits is read as it was written, whatever comes behind it, and no shorter string says it. The
strings that say no number are those of less than nine bytes which all go on. A number that is read has 64 bits. It
takes no fewer bytes than it is written in, at most nine and not more than there are, and the bytes behind them do
not matter. -/
theorem encode_shortest :
    (∀ value, value < 2 ^ 64 → (encode value).size = length value ∧
      (∀ d : Bytes, length value ≤ d.size →
        ∃ e, put value d = .ok (length value) e ∧ e.extract 0 (length value) = encode value) ∧
      (∀ rest, decode? (encode value ++ rest).window 0 = some (value, length value)) ∧
      ∀ d : Bytes, d.size < length value → ∀ n, decode? d.window 0 ≠ some (value, n)) ∧
    ∀ d : Bytes,
      (decode? d.window 0 = none ↔ d.size < 9 ∧ ∀ i, i < d.size → 128 ≤ d.get! i) ∧
      ∀ value n, decode? d.window 0 = some (value, n) →
        value < 2 ^ 64 ∧ length value ≤ n ∧ n ≤ 9 ∧ n ≤ d.size ∧
        ∀ rest, decode? (Bytes.window (d.extract 0 n ++ rest)) 0 = some (value, n) := by
  constructor
  · intro value bound
    refine ⟨size_encode value, fun d fits => ⟨_, put_encode fits⟩, fun rest => ?_, fun d short n run => ?_⟩
    · exact decode?_of_hasAt bound (Bytes.hasAt_append_self (encode value) rest)
    · have shortest := length_le_of_decode? run
      obtain ⟨-, -, -, inside⟩ := decode?_bounds run
      change 0 + n ≤ d.size at inside
      omega
  · intro d
    refine ⟨decode?_eq_none, fun value n run => ?_⟩
    obtain ⟨-, few, inside, -⟩ := decode?_bounds run
    rw [Nat.zero_add] at inside
    exact ⟨Nat.lt_of_lt_of_le (decode?_lt_room run) (room_le few), length_le_of_decode? run, few, inside,
      decode?_extract run⟩

/-- The largest number takes nine bytes. A small one may be read from more bytes than it is written in. -/
theorem encode_shortest_largest : 18446744073709551615 < 2 ^ 64 ∧
    decode? (encode 18446744073709551615 ++ Bytes.zeros 3).window 0 = some (18446744073709551615, 9) ∧
    (Bytes.zeros 8).size < length 18446744073709551615 ∧
    decode? (Bytes.zeros 8).window 0 ≠ some (18446744073709551615, 8) ∧
    decode? (Bytes.ofList [128, 5, 7]).window 0 = some (5, 2) ∧ length 5 ≤ 2 ∧
    decode? (Bytes.window ((Bytes.ofList [128, 5, 7]).extract 0 2 ++ Bytes.zeros 3)) 0 = some (5, 2) := by
  have bound : 18446744073709551615 < 2 ^ 64 := by decide
  have short : (Bytes.zeros 8).size < length 18446744073709551615 := by
    rw [Bytes.size_zeros]
    decide
  have long : decode? (Bytes.ofList [128, 5, 7]).window 0 = some (5, 2) := by decide
  obtain ⟨-, -, reads, none⟩ := encode_shortest.1 18446744073709551615 bound
  obtain ⟨-, shortest, -, -, rest⟩ := (encode_shortest.2 (Bytes.ofList [128, 5, 7])).2 5 2 long
  exact ⟨bound, reads (Bytes.zeros 3), short, none (Bytes.zeros 8) short 8, long, shortest, rest (Bytes.zeros 3)⟩

end Varint

end TreeFile
