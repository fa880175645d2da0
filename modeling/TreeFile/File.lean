import TreeFile.Bytes

/-!
Files in memory: reading past the end gives zeroes, writing past the end makes the file longer.
A file can be told to refuse calls, so that one can see what a failing disk does to those who
use it.
-/

namespace TreeFile

inductive FileCall where
  | read
  | write
  | truncate
  | sync
  | size
deriving DecidableEq, Repr

/-- Calls to be refused: those of one kind, after some more have been let through. -/
structure Refusal where
  call : FileCall
  after : Nat
  once : Bool
  error : Error
deriving DecidableEq, Repr

structure File where
  bytes : Bytes := .empty
  refusal : Option Refusal := none

instance : Inhabited File := ⟨{}⟩

namespace Error

def badOffset (offset : Int) : Error := ⟨.ioErr, some s!"bad file offset {offset}"⟩

end Error

namespace File

def checkCall (call : FileCall) : Action File Unit := fun f =>
  match f.refusal with
  | none => .ok () f
  | some r =>
    if r.call ≠ call then .ok () f
    else if r.after > 0 then .ok () { f with refusal := some { r with after := r.after - 1 } }
    else .error r.error (if r.once then { f with refusal := none } else f)

def position (offset : Int) : Except Error Nat :=
  if offset < 0 then .error (.badOffset offset) else .ok offset.toNat

def read (n : Nat) (offset : Int) : Action File (Nat × Bytes) := do
  checkCall .read
  let start ← position offset
  let d := (← get).bytes
  let present := min n (d.size - start)
  return (present, Bytes.resize (d.extract start (start + present)) n)

def write (src : Bytes) (offset : Int) : Action File Unit := do
  checkCall .write
  let start ← position offset
  modify fun f =>
    let d := if f.bytes.size < start + src.size then f.bytes.resize (start + src.size) else f.bytes
    { f with bytes := d.overwrite start src }

def truncate (size : Int) : Action File Unit := do
  checkCall .truncate
  let size ← position size
  modify fun f => if size < f.bytes.size then { f with bytes := f.bytes.extract 0 size } else f

def sync : Action File Unit := checkCall .sync

def size : Action File Nat := do
  checkCall .size
  return (← get).bytes.size

end File

end TreeFile
