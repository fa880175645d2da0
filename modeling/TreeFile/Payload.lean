import TreeFile.Config
import TreeFile.PageKind

/-!
How much of a payload a cell keeps on its page, and how many pages the rest takes.
-/

namespace TreeFile

def overflowCapacity (usableSize : Nat) : Nat := usableSize - 4

/-- The part of a payload of `size` bytes that stays in the cell. A payload up to `max` stays
whole. A longer one keeps as much as lets the chain end on a full page, or `min` if that is more
than `max`. -/
def keptPayload (size max min usableSize : Nat) : Nat :=
  if size ≤ max then size
  else
    let even := min + (size - min) % overflowCapacity usableSize
    if even ≤ max then even else min

/-- The limits on payload kept in a cell, which follow from the usable size and three shares. -/
structure PayloadLimits where
  usableSize : Nat
  maxIndex : Nat
  minIndex : Nat
  maxRow : Nat
  minRow : Nat
deriving DecidableEq, Repr, Inhabited

namespace PayloadLimits

/-- A share of the room on a page, out of 255, less the largest cost of a cell. -/
def share (usableSize : Nat) (fraction : UInt8) : Nat :=
  (usableSize - 12) * fraction.toNat / 255 - 23

def ofFractions (usableSize : Nat) (max min leaf : UInt8) : PayloadLimits where
  usableSize := usableSize
  maxIndex := share usableSize max
  minIndex := share usableSize min
  maxRow := usableSize - 35
  minRow := share usableSize leaf

def ofConfig (c : Config) : PayloadLimits :=
  ofFractions c.usableSize c.maxFraction c.minFraction c.leafFraction

def bounds (p : PayloadLimits) (kind : PageKind) : Nat × Nat :=
  match kind.tree with
  | .table => (p.maxRow, p.minRow)
  | .index => (p.maxIndex, p.minIndex)

def kept (p : PayloadLimits) (kind : PageKind) (size : Nat) : Nat :=
  keptPayload size (p.bounds kind).1 (p.bounds kind).2 p.usableSize

/-- The bytes each page of a chain carries when `rest` bytes go into it: all pages but the last
are full. -/
def chunks (p : PayloadLimits) (rest : Nat) : List Nat :=
  let capacity := overflowCapacity p.usableSize
  let full := List.replicate (rest / capacity) capacity
  if rest % capacity = 0 then full else full ++ [rest % capacity]

def chainLength (p : PayloadLimits) (size kept : Nat) : Nat :=
  let capacity := overflowCapacity p.usableSize
  (size - kept + capacity - 1) / capacity

end PayloadLimits

end TreeFile
