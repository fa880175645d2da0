import TreeFile.Proofs.Database.Atomicity

/-!
All that a user of an open database can call, and runs of calls. A call may fail; the run then goes on
with what the call has left.
-/

namespace TreeFile

inductive CursorQuery where
  | first
  | last
  | next
  | previous
  | seek (key : Key) (bias : SeekBias)
  | rowId
  | key
  | payload
  | payloadSize
  | payloadRange (start length : Nat)
  | count
  | scan (started : Bool) (limit : Nat)

inductive Query where
  | openCursor (root : PageNo) (order : KeyOrder)
  | metaValue (i : Nat)
  | header
  | freeCount
  | pageData (page : PageNo)
  | pointerEntry (page : PageNo)
  | checkIntegrity (roots : List PageNo) (maxErrors : Nat)
  | cursor (cursor : Cursor) (query : CursorQuery)

/-- The calls that a user has, and what may happen to the file meanwhile. -/
inductive Call where
  | query (query : Query)
  | statement (statement : Statement)
  | begin
  | commit
  | rollback
  | setMeta (i : Nat) (value : UInt32)
  | refuse (refusal : Option Refusal)

namespace CursorQuery

def run : CursorQuery → CursorM Unit
  | first => do let _ ← Cursor.first
  | last => do let _ ← Cursor.last
  | next => do let _ ← Cursor.next
  | previous => do let _ ← Cursor.previous
  | seek wanted bias => do let _ ← Cursor.seek wanted bias
  | rowId => do let _ ← Cursor.rowId
  | key => do let _ ← Cursor.key
  | payload => do let _ ← Cursor.payload
  | payloadSize => do let _ ← Cursor.payloadSize
  | payloadRange start length => do let _ ← Cursor.payloadRange start length
  | count => do let _ ← Cursor.count
  | scan started limit => do let _ ← Cursor.scan started limit

instance {P : Trait} [P.Reading] (query : CursorQuery) : Obeys P query.run := by
  cases query <;>
  · unfold run
    infer_instance

end CursorQuery

theorem Statement.through_inside (cursor : Cursor) (act : CursorM Unit) :
    through cursor act = act.inside (fun s => ⟨cursor, s⟩) (fun a _ => a) fun _ s => s.store := by
  funext s
  unfold through Action.inside
  cases act ⟨cursor, s⟩ <;> rfl

instance {P : Trait} [P.Reading] (cursor : Cursor) (act : CursorM Unit) [Obeys P act] :
    Obeys P (Statement.through cursor act) := by
  rw [Statement.through_inside]
  exact .inside (fun _ => rfl) fun _ _ => rfl

/-- It can be said of a statement if all of this can be said of what the statement consists of. -/
class Trait.Undoing (P : Trait) {ι : outParam Type} (Q : outParam (ι → Trait)) : Prop where
  atomically : ∀ {α : Type} {act : StoreM α}, (∀ i, Obeys (Q i) act) → Obeys P (Store.atomically act)

section

variable {P : Trait} {ι : Type} {Q : ι → Trait} [P.Reading] [P.Undoing Q]

omit [P.Reading] in
instance {α : Type} (act : StoreM α) [∀ i, Obeys (Q i) act] : Obeys P (Store.atomically act) :=
  Trait.Undoing.atomically inferInstance

omit [P.Undoing Q] in
instance (act : StoreM Unit) (saved : Option Key → Option Key) [Obeys P (Store.atomically act)] :
    Obeys P (Cursor.statement act saved) := by
  unfold Cursor.statement
  refine .andThen inferInstance fun answer => ?_
  cases answer <;> infer_instance

namespace Statement

variable [∀ i, (Q i).Writing]

instance (root : PageNo) : Obeys P (clearTree root).run := by
  unfold run Database.clearTree
  infer_instance

instance : Obeys P allocatePage.run := by
  unfold run Database.allocatePage
  infer_instance

instance (page : PageNo) : Obeys P (freePage page).run := by
  unfold run Database.freePage
  infer_instance

instance (cursor : Cursor) (new : NewEntry) : Obeys P (insert cursor new).run := by
  unfold run Cursor.insert
  infer_instance

instance (cursor : Cursor) : Obeys P (delete cursor).run := by
  have deletes : Obeys P Cursor.delete := by
    unfold Cursor.delete
    refine .andThen inferInstance fun _ => .andThen inferInstance fun _ => ?_
    infer_instance
  unfold run
  infer_instance

end Statement

instance Statement.vacuums [∀ i, (Q i).Shrinking] [∀ i, (Q i).Linking] : Obeys P vacuumStep.run := by
  unfold run Database.vacuumStep
  infer_instance

end

namespace Query

def run : Query → StoreM Unit
  | openCursor root order => do let _ ← Database.findTree root order
  | metaValue i => do let _ ← Database.metaValue i
  | header => do let _ ← Database.header
  | freeCount => do let _ ← Database.freeCount
  | pageData page => do let _ ← Database.pageData page
  | pointerEntry page => do let _ ← Database.pointerEntry page
  | checkIntegrity roots maxErrors => do let _ ← Database.checkIntegrity roots maxErrors
  | cursor c query => Statement.through c query.run

instance {P : Trait} [P.Reading] (query : Query) : Obeys P query.run := by
  cases query <;>
  · unfold run
    infer_instance

end Query

namespace Call

def run : Call → StoreM Unit
  | query q => q.run
  | statement s => s.run
  | begin => Database.begin
  | commit => Database.commit
  | rollback => Database.rollback
  | setMeta i value => Database.setMetaValue i value.toNat
  | refuse refusal => modify fun s => { s with pager.file.refusal := refusal }

def runAll (s : Store) (calls : List Call) : Store := calls.foldl (fun s call => call.run.final s) s

end Call

end TreeFile
