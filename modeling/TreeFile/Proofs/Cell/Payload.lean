import TreeFile.Payload

/-!
The limits on kept payload that settings can give, and what follows for a single payload.
-/

namespace TreeFile

namespace PayloadLimits

/-- The limits leave room for two cells of an index on a page, and their order is the right one. -/
structure Fair (p : PayloadLimits) : Prop where
  index : p.minIndex ≤ p.maxIndex
  row : p.minRow ≤ p.maxRow
  usable : 480 ≤ p.usableSize
  large : p.usableSize ≤ 65536
  maxIndex : p.maxIndex ≤ p.usableSize - 35
  maxRow : p.maxRow = p.usableSize - 35

theorem share_mono (usableSize : Nat) {a b : UInt8} (h : a ≤ b) :
    share usableSize a ≤ share usableSize b := by
  have order : a.toNat ≤ b.toNat := UInt8.le_iff_toNat_le.mp h
  have product := Nat.mul_le_mul_left (usableSize - 12) order
  have quotient := Nat.div_le_div_right (c := 255) product
  unfold share
  omega

theorem share_le (usableSize : Nat) (a : UInt8) : share usableSize a ≤ usableSize - 35 := by
  have bound : a.toNat ≤ 255 := Nat.le_of_lt_succ a.toNat_lt
  have product := Nat.mul_le_mul_left (usableSize - 12) bound
  have quotient := Nat.div_le_div_right (c := 255) product
  rw [Nat.mul_div_cancel _ (by decide)] at quotient
  unfold share
  omega

theorem fair_of_fractions {usableSize : Nat} {max min leaf : UInt8} (small : 480 ≤ usableSize)
    (large : usableSize ≤ 65536) (order : min ≤ max) :
    (ofFractions usableSize max min leaf).Fair where
  index := share_mono usableSize order
  row := share_le usableSize leaf
  usable := small
  large := large
  maxIndex := share_le usableSize max
  maxRow := rfl

theorem Fair.bounds_le {p : PayloadLimits} (fair : p.Fair) (kind : PageKind) :
    (p.bounds kind).2 ≤ (p.bounds kind).1 := by
  cases kind
  · exact fair.row
  · exact fair.row
  · exact fair.index
  · exact fair.index

theorem Fair.kept_le {p : PayloadLimits} (fair : p.Fair) (kind : PageKind) (size : Nat) :
    p.kept kind size ≤ size := by
  have order := fair.bounds_le kind
  unfold kept keptPayload
  split
  · exact Nat.le_refl size
  · dsimp only
    split
    · omega
    · omega

theorem Fair.kept_le_bound {p : PayloadLimits} (fair : p.Fair) (kind : PageKind) (size : Nat) :
    p.kept kind size ≤ (p.bounds kind).1 := by
  have order := fair.bounds_le kind
  unfold kept keptPayload
  dsimp only
  split
  · assumption
  · split
    · assumption
    · exact order

theorem chainLength_eq_zero {p : PayloadLimits} (fair : p.Fair) {size kept : Nat} :
    p.chainLength size kept = 0 ↔ size ≤ kept := by
  have usable := fair.usable
  have capacity : 0 < overflowCapacity p.usableSize := by
    unfold overflowCapacity
    omega
  unfold chainLength
  dsimp only
  rw [Nat.div_eq_zero_iff]
  omega

end PayloadLimits

end TreeFile
