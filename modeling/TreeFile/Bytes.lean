import TreeFile.Action

/-!
Byte strings with big-endian numbers in them. Every access is checked against the length of the
string, or against the length of a window that hides the tail of a longer one.
-/

namespace TreeFile

abbrev Bytes := ByteArray

instance : DecidableEq Bytes := ByteArray.instDecidableEq

namespace Bytes

def zeros (n : Nat) : Bytes := ⟨Array.replicate n 0⟩

def ofList (bytes : List UInt8) : Bytes := ⟨bytes.toArray⟩

def ofNat16 (value : Nat) : Bytes :=
  ofList [UInt8.ofNat (value / 256), UInt8.ofNat value]

def ofNat32 (value : Nat) : Bytes :=
  ofList [UInt8.ofNat (value / 16777216), UInt8.ofNat (value / 65536),
    UInt8.ofNat (value / 256), UInt8.ofNat value]

def resize (d : Bytes) (n : Nat) : Bytes :=
  if n ≤ d.size then d.extract 0 n else d ++ zeros (n - d.size)

def slice (d : Bytes) (start stop : Nat) : Except Error Bytes :=
  if start ≤ stop ∧ stop ≤ d.size then .ok (d.extract start stop) else .error .outOfBounds

def overwrite (d : Bytes) (start : Nat) (src : Bytes) : Bytes :=
  src.copySlice 0 d start src.size

def order (a b : Bytes) : Ordering :=
  go 0 (min a.size b.size)
where
  go (i : Nat) : Nat → Ordering
    | 0 => compare a.size b.size
    | n + 1 =>
      match compare (a.get! i) (b.get! i) with
      | .eq => go (i + 1) n
      | different => different

end Bytes

/-- The first `size` bytes of a string that may be longer. -/
structure Window where
  bytes : Bytes
  size : Nat

namespace Window

def get? (w : Window) (i : Nat) : Option UInt8 :=
  if i < w.size then
    if h : i < w.bytes.size then some w.bytes[i] else none
  else none

def holds (w : Window) (i n : Nat) : Bool :=
  i + n ≤ w.size && i + n ≤ w.bytes.size

def u16? (w : Window) (i : Nat) : Option Nat :=
  if w.holds i 2 then
    some ((w.bytes.get! i).toNat * 256 + (w.bytes.get! (i + 1)).toNat)
  else none

def u32? (w : Window) (i : Nat) : Option Nat :=
  if w.holds i 4 then
    some ((w.bytes.get! i).toNat * 16777216 + (w.bytes.get! (i + 1)).toNat * 65536 +
      (w.bytes.get! (i + 2)).toNat * 256 + (w.bytes.get! (i + 3)).toNat)
  else none

end Window

namespace Error

def u16PastEnd (i : Nat) : Error := corrupt s!"u16 read at offset {i} past end of page"
def u32PastEnd (i : Nat) : Error := corrupt s!"u32 read at offset {i} past end of page"

end Error

namespace Bytes

def window (d : Bytes) : Window := ⟨d, d.size⟩

def get? (d : Bytes) (i : Nat) : Option UInt8 := d.window.get? i
def u16? (d : Bytes) (i : Nat) : Option Nat := d.window.u16? i
def u32? (d : Bytes) (i : Nat) : Option Nat := d.window.u32? i

def u16 (d : Bytes) (i : Nat) : Except Error Nat :=
  match d.u16? i with
  | some value => .ok value
  | none => .error (.u16PastEnd i)

def u32 (d : Bytes) (i : Nat) : Except Error Nat :=
  match d.u32? i with
  | some value => .ok value
  | none => .error (.u32PastEnd i)

def putOr (e : Error) (start : Nat) (src : Bytes) : Action Bytes Unit := fun d =>
  if start + src.size ≤ d.size then .ok () (d.overwrite start src) else .error e d

def put (start : Nat) (src : Bytes) : Action Bytes Unit := putOr .outOfBounds start src

def putByte (i : Nat) (value : UInt8) : Action Bytes Unit := put i (ofList [value])

def putU16 (i value : Nat) : Action Bytes Unit := putOr ⟨.corrupt, none⟩ i (ofNat16 value)

def putU32 (i value : Nat) : Action Bytes Unit := putOr ⟨.corrupt, none⟩ i (ofNat32 value)

def clear (start stop : Nat) : Action Bytes Unit :=
  if start ≤ stop then put start (zeros (stop - start)) else throw .outOfBounds

def move (start stop target : Nat) : Action Bytes Unit := do
  let moved ← (← get).slice start stop
  put target moved

end Bytes

end TreeFile
