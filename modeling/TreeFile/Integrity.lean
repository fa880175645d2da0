import TreeFile.Integrity.Tree

/-!
Checking a file: its trees and its freelist must be sound, and every page must be in use exactly
once.
-/

namespace TreeFile

namespace Integrity

def checkFreePages : List PageNo → CheckM Bool
  | [] => return true
  | page :: rest => do
    if ← isFull then return false
    if (← get).store.isMapPage page then report s!"Freelist page {page} is a pointer-map page"
    else if ← mark page "Freelist page" then checkEntry page ⟨.free, 0⟩
    checkFreePages rest

def checkFreelist : CheckM Unit := do
  match ← attempt Freelist.walk with
  | .error e =>
    let e := e.message
    report s!"Freelist: {e}"
  | .ok free =>
    if ← checkFreePages free.pages then
      let expected ← onStore Freelist.count
      let size := free.size
      if size ≠ expected then
        report s!"Freelist holds {size} pages but the header says {expected}"

def markReserved (s : Store) : (left page : Nat) → BitSet → BitSet
  | 0, _, reached => reached
  | left + 1, page, reached =>
    markReserved s left (page + 1)
      (if page ≥ 2 && s.isReserved page then reached.set page true else reached)

def checkLargestRoot (roots : List PageNo) : CheckM Unit := do
  if (← get).store.vacuum.isEnabled then
    let largest ← onStore (Store.headerWord FileHeader.largestRootOffset)
    roots.forM fun root => do
      if root > largest then report s!"Root page {root} above largest root page {largest}"

def checkUnused : (left page : Nat) → CheckM Unit
  | 0, _ => pure ()
  | left + 1, page => do
    if !(← isFull) then
      if !(← get).reached.contains page then report s!"Page {page} is never used"
      checkUnused left (page + 1)

/-- Checks the trees of the given roots and of page 1, the freelist, and that nothing is left. -/
def checkAll (roots : List PageNo) : CheckM Unit := do
  (if roots.contains 1 then roots else 1 :: roots).forM checkRoot
  checkFreelist
  checkLargestRoot roots
  checkUnused (← get).pageCount 1

/-- Checks a file with the given roots and reports at most `maxErrors` faults, or all of them if
that is zero. -/
def check (roots : List PageNo) (maxErrors : Nat) : StoreM IntegrityReport := fun store =>
  let count := store.pageCount
  let start : Check := {
    store, maxErrors, pageCount := count
    reached := markReserved store (count + 1) 0 (BitSet.empty (count + 1)) }
  match checkAll roots start with
  | .ok () c => .ok ⟨c.errors.reverse, c.pagesChecked⟩ c.store
  | .error e c => .error e c.store

end Integrity

end TreeFile
