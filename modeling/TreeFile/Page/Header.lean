import TreeFile.Bytes
import TreeFile.Config
import TreeFile.PageKind

/-!
The header of a tree page: its kind, where its free blocks start, how many cells it has, where
their bodies start, how many stray free bytes it has, and on interior pages the rightmost child.
-/

namespace TreeFile

structure PageHeader where
  kind : PageKind
  firstFree : Nat
  cellCount : Nat
  contentStart : Nat
  fragments : Nat
  rightChild : Option PageNo
deriving DecidableEq, Repr, Inhabited

namespace Error

def pageHeaderTruncated : Error := corrupt "page header truncated"

def hexDigit (n : Nat) : Char := if n < 10 then Char.ofNat (48 + n) else Char.ofNat (87 + n)

def badPageFlags (flags : UInt8) : Error :=
  let digits := String.ofList [hexDigit (flags.toNat / 16), hexDigit (flags.toNat % 16)]
  corrupt s!"invalid page flags 0x{digits}"

end Error

namespace PageHeader

def empty (kind : PageKind) (usableSize : Nat) : PageHeader where
  kind := kind
  firstFree := 0
  cellCount := 0
  contentStart := usableSize
  fragments := 0
  rightChild := if kind.isLeaf then none else some 0

def require {α : Type} : Option α → Except Error α
  | some a => .ok a
  | none => .error .pageHeaderTruncated

def parse (d : Bytes) (start : Nat) : Except Error PageHeader := do
  let flags ← require (d.get? start)
  let some kind := PageKind.ofFlags? flags | throw (.badPageFlags flags)
  let firstFree ← require (d.u16? (start + 1))
  let cellCount ← require (d.u16? (start + 3))
  let storedStart ← require (d.u16? (start + 5))
  let fragments ← require (d.get? (start + 7))
  let rightChild ← if kind.isLeaf then pure none else some <$> require (d.u32? (start + 8))
  return {
    kind, firstFree, cellCount
    contentStart := if storedStart = 0 then 65536 else storedStart
    fragments := fragments.toNat
    rightChild }

def write (h : PageHeader) (start : Nat) : Action Bytes Unit := do
  Bytes.putOr ⟨.internal, none⟩ start (Bytes.ofList [h.kind.flags])
  Bytes.putU16 (start + 1) h.firstFree
  Bytes.putU16 (start + 3) h.cellCount
  Bytes.putU16 (start + 5) h.contentStart
  Bytes.putByte (start + 7) (UInt8.ofNat h.fragments)
  match h.rightChild with
  | some child => Bytes.putU32 (start + 8) child
  | none => pure ()

end PageHeader

end TreeFile
