/-!
Sets of small numbers, for marking which pages of a file have been reached.
-/

namespace TreeFile

structure BitSet where
  bits : Array Bool
deriving DecidableEq, Repr, Inhabited

namespace BitSet

def empty (size : Nat) : BitSet := ⟨Array.replicate size false⟩

def size (s : BitSet) : Nat := s.bits.size

def contains (s : BitSet) (i : Nat) : Bool := s.bits.getD i false

def set (s : BitSet) (i : Nat) (value : Bool) : BitSet := ⟨s.bits.setIfInBounds i value⟩

def testAndSet (s : BitSet) (i : Nat) : Option Bool × BitSet :=
  if i < s.size then (some (s.contains i), s.set i true) else (none, s)

def count (s : BitSet) : Nat := s.bits.count true

end BitSet

end TreeFile
