import TreeFile.Error

/-!
The settings a file is created with: the page size, the bytes kept free at the end of each page,
the vacuum mode, the fractions that decide how much payload a page keeps, and a limit on growth.
-/

namespace TreeFile

abbrev PageNo := Nat

def minPageSize : Nat := 512
def maxPageSize : Nat := 65536

def minUsableSize : Nat := 480

def isPageSize (size : Nat) : Bool :=
  size == 512 || size == 1024 || size == 2048 || size == 4096 || size == 8192 ||
    size == 16384 || size == 32768 || size == 65536

inductive VacuumMode where
  | none
  | full
  | incremental
deriving DecidableEq, Repr, Inhabited

def VacuumMode.isEnabled (mode : VacuumMode) : Bool := mode != .none

structure Config where
  pageSize : Nat := 4096
  reserved : UInt8 := 0
  vacuum : VacuumMode := .none
  /-- Largest and smallest share of an index page, out of 255, that one key may take. -/
  maxFraction : UInt8 := 64
  minFraction : UInt8 := 32
  leafFraction : UInt8 := 32
  maxPages : UInt32 := 0xfffffffe
deriving DecidableEq, Repr, Inhabited

namespace Error

def badPageSize (size : Nat) : Error := misuse s!"invalid page size {size}"

def usableTooSmall (usable : Nat) : Error :=
  misuse s!"usable size {usable} below minimum {minUsableSize}"

def badFractions (max min leaf : UInt8) : Error :=
  misuse s!"embedded fractions {max}/{min}/{leaf} out of order"

def noPagesAllowed : Error := misuse "max page count is zero"

end Error

namespace Config

def usableSize (c : Config) : Nat := c.pageSize - c.reserved.toNat

def validate (c : Config) : Except Error Unit :=
  if !isPageSize c.pageSize then .error (.badPageSize c.pageSize)
  else if c.usableSize < minUsableSize then .error (.usableTooSmall c.usableSize)
  else if c.minFraction == 0 || c.minFraction > c.maxFraction || c.leafFraction == 0 then
    .error (.badFractions c.maxFraction c.minFraction c.leafFraction)
  else if c.maxPages < 1 then .error .noPagesAllowed
  else .ok ()

end Config

end TreeFile
