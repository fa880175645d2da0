import TreeFile.PointerMap.Layout
import TreeFile.Payload

/-!
Arithmetic on words of 32 bits, which gives up where a result is no word. The places of the pointer
map and the limits on kept payload are worked out in this way, too.
-/

namespace TreeFile

namespace Word

def ofNat? (n : Nat) : Option Nat := if n < UInt32.size then some n else none

def add? (a b : Nat) : Option Nat := ofNat? (a + b)

def mul? (a b : Nat) : Option Nat := ofNat? (a * b)

def sub? (a b : Nat) : Option Nat := if b ≤ a then some (a - b) else none

def rem? (a b : Nat) : Option Nat := if b = 0 then none else some (a % b)

variable {a b : Nat}

theorem ofNat?_eq (fits : a < 4294967296) : ofNat? a = some a := if_pos fits

theorem add?_eq (fits : a + b < 4294967296) : add? a b = some (a + b) := if_pos fits

theorem mul?_eq (fits : a * b < 4294967296) : mul? a b = some (a * b) := if_pos fits

theorem sub?_eq (order : b ≤ a) : sub? a b = some (a - b) := if_pos order

theorem rem?_eq (positive : 0 < b) : rem? a b = some (a % b) := if_neg (Nat.ne_of_gt positive)

end Word

open Word

namespace PointerMap

def mapPage? (usableSize pageSize : Nat) (page : PageNo) : Option PageNo :=
  if page < 2 then some 0
  else do
    let group ← add? (usableSize / entrySize) 1
    let start ← mul? ((← sub? page 2) / group) group
    let map ← add? start 2
    let pending ← add? (← ofNat? (pendingByte / pageSize)) 1
    if map = pending then add? map 1 else some map

def entryStart? (map page : PageNo) : Option Nat := do
  mul? entrySize (← sub? (← sub? page map) 1)

theorem mapPage?_eq {usableSize pageSize page : Nat} (usable : usableSize < 4294967296) (size : 2 ≤ pageSize)
    (word : page < 4294967296) :
    mapPage? usableSize pageSize page = some (mapPage usableSize pageSize page) := by
  unfold mapPage? mapPage
  by_cases first : page < 2
  · rw [if_pos first, if_pos first]
  · have group : usableSize / entrySize + 1 < 4294967296 := by
      unfold entrySize
      omega
    have start : (page - 2) / groupSize usableSize * groupSize usableSize + 2 ≤ page := by
      have below := Nat.div_mul_le_self (page - 2) (groupSize usableSize)
      omega
    have pending : pendingByte / pageSize ≤ 536870912 :=
      Nat.div_le_div_left size (show 0 < 2 by decide) (a := pendingByte)
    rw [if_neg first, if_neg first, add?_eq group, sub?_eq (Nat.le_of_not_lt first), ofNat?_eq (by omega)]
    simp only [Option.bind_eq_bind, Option.bind_some]
    change (mul? ((page - 2) / groupSize usableSize) (groupSize usableSize)).bind _ = _
    rw [mul?_eq (by omega), Option.bind_some, add?_eq (by omega), add?_eq (by omega), Option.bind_some,
      Option.bind_some]
    change (if _ = pendingPage pageSize then _ else _) = _
    split
    · rename_i same
      have early := Nat.le_trans (Nat.le_of_eq same) (Nat.succ_le_succ pending)
      exact add?_eq (by omega)
    · rfl

theorem entryStart?_eq {map page : Nat} (behind : map < page) (short : entryStart map page < 4294967296) :
    entryStart? map page = some (entryStart map page) := by
  unfold entryStart?
  rw [sub?_eq (Nat.le_of_lt behind), Option.bind_eq_bind, Option.bind_some,
    sub?_eq (Nat.sub_pos_of_lt behind), Option.bind_some]
  exact mul?_eq short

end PointerMap

def keptPayload? (size max min usableSize : Nat) : Option Nat :=
  if size ≤ max then some size
  else do
    let surplus ← rem? (← sub? size min) (← sub? usableSize 4)
    let even ← add? min surplus
    if even ≤ max then some even else some min

theorem keptPayload?_eq {size max min usableSize : Nat} (order : min ≤ max) (room : 4 < usableSize)
    (word : size < 4294967296) :
    keptPayload? size max min usableSize = some (keptPayload size max min usableSize) := by
  unfold keptPayload? keptPayload
  by_cases whole : size ≤ max
  · rw [if_pos whole, if_pos whole]
  · have long : min ≤ size := Nat.le_trans order (Nat.le_of_not_le whole)
    have surplus := Nat.mod_le (size - min) (usableSize - 4)
    rw [if_neg whole, if_neg whole, sub?_eq long, sub?_eq (Nat.le_of_lt room)]
    simp only [Option.bind_eq_bind, Option.bind_some]
    rw [rem?_eq (Nat.sub_pos_of_lt room), Option.bind_some, add?_eq (by omega), Option.bind_some]
    exact (apply_ite some _ _ _).symm

namespace PayloadLimits

/-- A share of the room on a page, worked out in words. Only a share too small for the cost of a cell may
lie below zero, and counts as nothing. -/
def share? (usableSize : Nat) (fraction : UInt8) : Option Nat := do
  let scaled ← mul? (← sub? usableSize 12) fraction.toNat
  return scaled / 255 - 23

def ofFractions? (usableSize : Nat) (max min leaf : UInt8) : Option PayloadLimits := do
  let maxIndex ← share? usableSize max
  let minIndex ← share? usableSize min
  let maxRow ← sub? usableSize 35
  let minRow ← share? usableSize leaf
  return { usableSize, maxIndex, minIndex, maxRow, minRow }

variable {usableSize : Nat}

theorem share?_eq (small : 12 ≤ usableSize) (large : usableSize ≤ 65536) (fraction : UInt8) :
    share? usableSize fraction = some (share usableSize fraction) := by
  have bound : fraction.toNat ≤ 255 := Nat.le_of_lt_succ fraction.toNat_lt
  have product : (usableSize - 12) * fraction.toNat ≤ 65536 * 255 :=
    Nat.mul_le_mul (Nat.le_trans (Nat.sub_le _ _) large) bound
  unfold share?
  rw [sub?_eq small, Option.bind_eq_bind, Option.bind_some, mul?_eq (Nat.lt_of_le_of_lt product (by decide))]
  rfl

theorem ofFractions?_eq (small : 35 ≤ usableSize) (large : usableSize ≤ 65536) (max min leaf : UInt8) :
    ofFractions? usableSize max min leaf = some (ofFractions usableSize max min leaf) := by
  have share : ∀ fraction, share? usableSize fraction = some (PayloadLimits.share usableSize fraction) :=
    share?_eq (Nat.le_trans (by decide) small) large
  unfold ofFractions?
  rw [share max, share min, share leaf, sub?_eq small]
  rfl

end PayloadLimits

end TreeFile
