import TreeFile.Error
import TreeFile.Total

/-!
Distributing a row of cells over pages: as few pages as possible, filled from the left, and then
evened out between neighbours from the right. On some pages each cell between two pages moves up
to the parent and belongs to neither.
-/

namespace TreeFile

structure Span where
  start : Nat
  stop : Nat
deriving DecidableEq, Repr, Inhabited

namespace Span

def length (s : Span) : Nat := s.stop - s.start

def weight (sizes : List Nat) (s : Span) : Nat := total ((sizes.drop s.start).take s.length)

end Span

namespace Error

def cellTooLarge (size : Nat) : Error := internal s!"cell of {size} bytes larger than a page"

def noSplit : Error := internal "cannot split interior cells without an empty page"

end Error

namespace Distribution

def fill (room : Nat) : List Nat → Nat
  | [] => 0
  | size :: rest => if size ≤ room then fill (room - size) rest + 1 else 0

/-- Ends the row `first` with two spans, where nothing would be left for the second: the last
cell of the first one is promoted in place of the one behind it. -/
def splitLast (first : Span) (total : Nat) : Except Error (List Span) :=
  if first.length < 2 then .error .noSplit
  else .ok [⟨first.start, first.stop - 1⟩, ⟨first.stop, total⟩]

/-- Fills pages with the cells from `start` on, whose sizes are given. Each page takes a cell at
least, so there are no more than `left` of them. -/
def pack (capacity : Nat) (promote : Bool) : (left start : Nat) → List Nat →
    Except Error (List Span)
  | left, start, sizes => do
    let taken := fill capacity sizes
    let span : Span := ⟨start, start + taken⟩
    match sizes.drop taken with
    | [] => return [span]
    | size :: rest =>
      if taken = 0 then throw (.cellTooLarge size)
      match left with
      | 0 => throw (.cellTooLarge size)
      | left + 1 =>
        if !promote then return span :: (← pack capacity promote left span.stop (size :: rest))
        else if rest.isEmpty then splitLast span (span.stop + 1)
        else return span :: (← pack capacity promote left (span.stop + 1) rest)

/-- Moves cells from the end of `a` to the start of `b` while `b` has room and does not get
heavier than `a`. -/
def evenOut (sizes : List Nat) (capacity : Nat) (promote : Bool) : (left : Nat) → (a b : Span) →
    Span × Span
  | 0, a, b => (a, b)
  | left + 1, a, b =>
    if a.length ≤ 1 then (a, b)
    else
      let last := sizes.getD (a.stop - 1) 0
      let incoming := if promote then sizes.getD a.stop 0 else last
      let weight := b.weight sizes + incoming
      if weight > capacity || weight > a.weight sizes - last then (a, b)
      else evenOut sizes capacity promote left ⟨a.start, a.stop - 1⟩ ⟨b.start - 1, b.stop⟩

def evenAll (sizes : List Nat) (capacity : Nat) (promote : Bool) : List Span → List Span
  | [] => []
  | span :: rest =>
    match evenAll sizes capacity promote rest with
    | [] => [span]
    | next :: others =>
      let (span, next) := evenOut sizes capacity promote span.length span next
      span :: next :: others

end Distribution

/-- The spans of cells of the given sizes that go to pages of `capacity` bytes. With `promote`,
the cell between two spans goes to the parent. -/
def distribute (sizes : List Nat) (capacity : Nat) (promote : Bool) : Except Error (List Span) :=
  return Distribution.evenAll sizes capacity promote
    (← Distribution.pack capacity promote sizes.length 0 sizes)

end TreeFile
