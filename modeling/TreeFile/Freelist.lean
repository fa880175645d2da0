import Std.Data.TreeSet
import TreeFile.PointerMap.Entry

/-!
The freelist: pages that are in the file but not in use. Trunk pages form a chain that starts in
the file header, and each of them lists leaf pages, whose content does not count. A trunk holds
the next trunk, the number of its leaves, and the leaves.
-/

namespace TreeFile

abbrev PageSet := Std.TreeSet PageNo

structure FreePages where
  trunks : List PageNo := []
  leaves : List PageNo := []
deriving DecidableEq, Repr, Inhabited

namespace FreePages

def size (f : FreePages) : Nat := f.trunks.length + f.leaves.length

def isEmpty (f : FreePages) : Bool := f.size == 0

def pages (f : FreePages) : List PageNo := f.trunks ++ f.leaves

end FreePages

namespace Error

def freePageOutOfRange (what : String) (page : PageNo) : Error :=
  corrupt s!"freelist {what} {page} out of range"

def trunkLeafCount (page : PageNo) (count : Nat) : Error :=
  corrupt s!"freelist trunk {page} claims {count} leaves"

def trunkWithoutCount : Error := corrupt "freelist has a trunk but a zero page count"
def trunkTwice (page : PageNo) : Error := corrupt s!"freelist trunk {page} visited twice"
def leafTwice (page : PageNo) : Error := corrupt s!"free page {page} listed twice"
def trunkLoop : Error := corrupt "freelist trunk chain loops"
def freeCountUnderflow : Error := corrupt "free page count underflow"

end Error

namespace Freelist

open Store FileHeader

def writeCapacity (usableSize : Nat) : Nat := usableSize / 4 - 8

def readCapacity (usableSize : Nat) : Nat := (usableSize - 8) / 4

def next (trunk : Bytes) : PageNo := (trunk.u32? 0).getD 0

def leafStart (i : Nat) : Nat := 8 + 4 * i

def leaf (trunk : Bytes) (i : Nat) : PageNo := (trunk.u32? (leafStart i)).getD 0

def count : StoreM Nat := headerWord freeCountOffset

def firstTrunk : StoreM PageNo := headerWord firstTrunkOffset

def checkPage (what : String) (page : PageNo) : StoreM Unit := do
  if page < 2 || page > (← get).pageCount then throw (.freePageOutOfRange what page)

def readTrunk (page : PageNo) : StoreM (Bytes × Nat) := do
  let data ← readPage page
  let leaves := (data.u32? 4).getD 0
  if leaves > readCapacity (← get).usableSize then throw (.trunkLeafCount page leaves)
  return (data, leaves)

/-- Makes the file longer until its last page is one that may be used. At most two pages in a row
may not. -/
def extendFile : StoreM PageNo :=
  go 2
where
  go : Nat → StoreM PageNo
    | 0 => onPager Pager.extend
    | left + 1 => do
      let page ← onPager Pager.extend
      if (← get).isReserved page then go left else return page

def takeFirst (trunk : PageNo) : StoreM PageNo := do
  checkPage "trunk" trunk
  let free ← count
  if free = 0 then throw .trunkWithoutCount
  let (data, leaves) ← readTrunk trunk
  let page ←
    if leaves = 0 then do
      setHeaderWord firstTrunkOffset (next data)
      pure trunk
    else do
      let page := leaf data (leaves - 1)
      checkPage "leaf" page
      putPage trunk (← Action.applied (Bytes.putU32 4 (leaves - 1)) data)
      pure page
  setHeaderWord freeCountOffset (free - 1)
  putFresh page .empty
  return page

def allocate : StoreM PageNo := do
  let trunk ← firstTrunk
  if trunk ≠ 0 then takeFirst trunk else extendFile

def allocateMany : Nat → StoreM (List PageNo)
  | 0 => return []
  | n + 1 => do
    let page ← allocate
    return page :: (← allocateMany n)

def addLeaf (trunk page : PageNo) : StoreM Bool := do
  if trunk = 0 then return false
  checkPage "trunk" trunk
  let (data, leaves) ← readTrunk trunk
  if leaves < writeCapacity (← get).usableSize then
    let data ← Action.applied (do
      Bytes.putU32 (leafStart leaves) page
      Bytes.putU32 4 (leaves + 1)) data
    putPage trunk data
    return true
  else return false

def free (page : PageNo) : StoreM Unit := do
  checkPage "page" page
  let freeCount ← count
  let trunk ← firstTrunk
  setHeaderWord freeCountOffset (freeCount + 1)
  if !(← addLeaf trunk page) then
    putFresh page (Bytes.ofNat32 trunk)
    setHeaderWord firstTrunkOffset page
  PointerMap.put page ⟨.free, 0⟩

def walkLeaves (trunk : Bytes) : (left i : Nat) → PageSet → StoreM (List PageNo × PageSet)
  | 0, _, seen => return ([], seen)
  | left + 1, i, seen => do
    let page := leaf trunk i
    checkPage "leaf" page
    if seen.contains page then throw (.leafTwice page)
    let (rest, seen) ← walkLeaves trunk left (i + 1) (seen.insert page)
    return (page :: rest, seen)

/-- The free pages from `trunk` on. No more than `left` trunks can follow, as none is met twice. -/
def walkFrom : (left : Nat) → (trunk : PageNo) → PageSet → StoreM FreePages
  | left, trunk, seen => do
    if trunk = 0 then return {}
    checkPage "trunk" trunk
    if seen.contains trunk then throw (.trunkTwice trunk)
    let (data, count) ← readTrunk trunk
    let (leaves, seen) ← walkLeaves data count 0 (seen.insert trunk)
    match left with
    | 0 => throw (.trunkTwice trunk)
    | left + 1 =>
      let rest ← walkFrom left (next data) seen
      return ⟨trunk :: rest.trunks, leaves ++ rest.leaves⟩

def walk : StoreM FreePages := do
  walkFrom (← get).pageCount (← firstTrunk) {}

def decrementCount : StoreM Unit := do
  let free ← count
  if free = 0 then throw .freeCountUnderflow
  setHeaderWord freeCountOffset (free - 1)

def linkTrunk (before : Option PageNo) (trunk : PageNo) : StoreM Unit :=
  match before with
  | none => setHeaderWord firstTrunkOffset trunk
  | some before => do
    let data ← readPage before
    putPage before (← Action.applied (Bytes.putU32 0 trunk) data)

def removeTrunk (before : Option PageNo) (data : Bytes) (leaves : Nat) : StoreM Unit := do
  if leaves = 0 then linkTrunk before (next data)
  else
    let heir := leaf data 0
    checkPage "leaf" heir
    let others ← data.slice (leafStart 1) (leafStart leaves)
    putFresh heir (Bytes.ofNat32 (next data) ++ Bytes.ofNat32 (leaves - 1) ++ others)
    linkTrunk before heir
  decrementCount

def findLeaf (trunk : Bytes) (leaves : Nat) (page : PageNo) : Option Nat :=
  (List.range leaves).find? fun i => leaf trunk i == page

def removeLeaf (trunk : PageNo) (data : Bytes) (leaves i : Nat) : StoreM Unit := do
  let data ← Action.applied (do
    Bytes.putU32 (leafStart i) (leaf data (leaves - 1))
    Bytes.putU32 4 (leaves - 1)) data
  putPage trunk data
  decrementCount

def removeFrom (page : PageNo) : (left : Nat) → (before : Option PageNo) → (trunk : PageNo) →
    StoreM Bool
  | left, before, trunk => do
    if trunk = 0 then return false
    checkPage "trunk" trunk
    match left with
    | 0 => throw .trunkLoop
    | left + 1 =>
      let (data, leaves) ← readTrunk trunk
      if trunk = page then
        removeTrunk before data leaves
        return true
      match findLeaf data leaves page with
      | some i =>
        removeLeaf trunk data leaves i
        return true
      | none => removeFrom page left (some trunk) (next data)

def remove (page : PageNo) : StoreM Bool := do
  removeFrom page (← get).pageCount none (← firstTrunk)

end Freelist

end TreeFile
