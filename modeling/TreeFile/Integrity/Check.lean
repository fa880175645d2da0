import TreeFile.BitSet
import TreeFile.PointerMap.Entry

/-!
A check of a file under way: which pages have been reached, and what has been found. Findings are
collected as text, so that one check finds as much as it can.
-/

namespace TreeFile

structure IntegrityReport where
  errors : List String
  pagesChecked : Nat
deriving DecidableEq, Repr, Inhabited

def IntegrityReport.isOk (r : IntegrityReport) : Bool := r.errors.isEmpty

namespace Integrity

structure Check where
  store : Store
  reached : BitSet
  errors : List String := []
  maxErrors : Nat
  pagesChecked : Nat := 0
  pageCount : Nat

abbrev CheckM := Action Check

instance : Inhabited Check :=
  ⟨{ store := default, reached := default, maxErrors := 0, pageCount := 0 }⟩

def onStore {α : Type} (act : StoreM α) : CheckM α :=
  Action.zoom Check.store (fun c store => { c with store }) act

def attempt {α : Type} (act : StoreM α) : CheckM (Except Error α) :=
  Action.attempt (onStore act)

def Check.isFull (c : Check) : Bool := c.maxErrors ≠ 0 && c.errors.length ≥ c.maxErrors

def isFull : CheckM Bool := return (← get).isFull

def report (finding : String) : CheckM Unit :=
  modify fun c => if c.isFull then c else { c with errors := finding :: c.errors }

def mark (page : PageNo) (what : String) : CheckM Bool := do
  let c ← get
  if page = 0 || page > c.pageCount then
    report s!"{what} {page} out of range"
    return false
  match c.reached.testAndSet page with
  | (some false, reached) =>
    modify fun c => { c with reached, pagesChecked := c.pagesChecked + 1 }
    return true
  | (_, reached) =>
    modify fun c => { c with reached }
    report s!"{what} {page} referenced multiple times"
    return false

def checkEntry (page : PageNo) (expected : PointerEntry) : CheckM Unit := do
  if (← get).store.vacuum.isEnabled && page ≠ 1 then
    match ← attempt (PointerMap.lookUp page) with
    | .ok found =>
      if found ≠ expected then
        let foundRole := found.role.name
        let foundParent := found.parent
        let role := expected.role.name
        let parent := expected.parent
        report (s!"Page {page}: pointer map says {foundRole} of {foundParent}, " ++
          s!"expected {role} of {parent}")
    | .error e =>
      let e := e.message
      report s!"Page {page}: pointer map unreadable: {e}"

end Integrity

end TreeFile
