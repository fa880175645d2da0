import TreeFile.Bytes

/-!
Varints: numbers below 2^64 in one to nine bytes. The first eight bytes carry seven bits each,
highest first, with the high bit set on every byte but the last; a ninth byte carries all eight
of its bits.
-/

namespace TreeFile

namespace Error

def varintPastEnd (i : Nat) : Error := corrupt s!"varint offset {i} past end of page"
def varintTruncated (i : Nat) : Error := corrupt s!"truncated varint at offset {i}"
def varintTooWide (value i : Nat) : Error := corrupt s!"size {value} at offset {i} exceeds 32 bits"

end Error

namespace Varint

def maxLength : Nat := 9

def decode? (w : Window) (i : Nat) : Option (Nat × Nat) :=
  go 8 0
where
  /-- Goes on with the number whose leading bits are `value`, before at most `left` more bytes of
  seven bits. -/
  go : Nat → Nat → Option (Nat × Nat)
    | 0, value =>
      match w.get? (i + 8) with
      | some b => some (value * 256 + b.toNat, 9)
      | none => none
    | left + 1, value =>
      match w.get? (i + (7 - left)) with
      | some b =>
        let value := value * 128 + b.toNat % 128
        if b < 128 then some (value, 8 - left) else go left value
      | none => none

def read (w : Window) (i : Nat) : Except Error (Nat × Nat) :=
  if i ≤ w.size then
    match decode? w i with
    | some found => .ok found
    | none => .error (.varintTruncated i)
  else .error (.varintPastEnd i)

def read32 (w : Window) (i : Nat) : Except Error (Nat × Nat) := do
  let (value, length) ← read w i
  if value < UInt32.size then return (value, length) else throw (.varintTooWide value i)

def length (value : Nat) : Nat :=
  if value ≤ 0x7f then 1
  else if value ≤ 0x3fff then 2
  else if value ≤ 0x1fffff then 3
  else if value ≤ 0xfffffff then 4
  else if value ≤ 0x7ffffffff then 5
  else if value ≤ 0x3ffffffffff then 6
  else if value ≤ 0x1ffffffffffff then 7
  else if value ≤ 0xffffffffffffff then 8
  else 9

def septets : Nat → Nat → List UInt8 → List UInt8
  | 0, _, tail => tail
  | count + 1, value, tail =>
    septets count (value / 128) (UInt8.ofNat (value % 128 + 128) :: tail)

def toList (value : Nat) : List UInt8 :=
  if length value = 9 then septets 8 (value / 256) [UInt8.ofNat (value % 256)]
  else septets (length value - 1) (value / 128) [UInt8.ofNat (value % 128)]

def encode (value : Nat) : Bytes := Bytes.ofList (toList value)

/-- Writes `value` at the start of `d` and answers the count of bytes written, which is zero if
they do not fit. -/
def put (value : Nat) : Action Bytes Nat := fun d =>
  if length value ≤ d.size then .ok (length value) (d.overwrite 0 (encode value)) else .ok 0 d

end Varint

end TreeFile
