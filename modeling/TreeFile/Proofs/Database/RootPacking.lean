import TreeFile.Proofs.Database.Creating
import TreeFile.Proofs.PointerMap.Entries

/-!
Where the roots of a new auto-vacuum file are. With the roots in use kept in a list, they are just the
pages from the third to the largest root that are not reserved. A new one comes next to these, and the
largest takes the place of one that goes.
-/

namespace TreeFile

open FileHeader (Says Resets)
open Action (Ends)
open Pager (Copies)
open Store (Becomes movedRoot)

namespace Store

variable {c : Config} {s t : Store}

theorem isReserved_congr (pageSize : t.pageSize = s.pageSize) (usableSize : t.usableSize = s.usableSize)
    (enabled : t.vacuum.isEnabled = s.vacuum.isEnabled) : t.isReserved = s.isReserved := by
  funext page
  unfold isReserved isMapPage
  rw [pageSize, usableSize, enabled]

structure Mapped (s : Store) (c : Config) : Prop where
  valid : c.validate = .ok ()
  enabled : s.vacuum.isEnabled = true
  pageSize : s.pageSize = c.pageSize
  usableSize : s.usableSize = c.usableSize

def Mapped.bare (c : Config) : Disk where
  pageSize := c.pageSize
  usableSize := c.usableSize
  limits := .ofConfig c
  mapped := true
  maxPages := c.maxPages.toNat
  count := 0
  image := fun _ => .zeros c.pageSize

theorem Mapped.bare_sound (mapped : s.Mapped c) : (bare c).Sound :=
  ⟨⟨c, mapped.valid, rfl, rfl, rfl, rfl⟩, fun _ => Bytes.size_zeros _, Nat.zero_le _⟩

theorem Mapped.isReserved (mapped : s.Mapped c) : s.isReserved = (bare c).isReserved := by
  funext page
  unfold Store.isReserved isMapPage Disk.isReserved
  rw [mapped.enabled, mapped.pageSize, mapped.usableSize]
  rfl

theorem Mapped.isReserved_two (mapped : s.Mapped c) : s.isReserved 2 = true := by
  have bounds := mapped.bare_sound.pageSize_bounds
  have large : 16384 ≤ 0x40000000 / c.pageSize :=
    (Nat.le_div_iff_mul_le (Nat.lt_of_lt_of_le (by decide) bounds.1)).mpr (Nat.mul_le_mul_left 16384 bounds.2)
  have own : PointerMap.mapPage c.usableSize c.pageSize 2 = 2 := by
    unfold PointerMap.mapPage
    rw [if_neg (by decide), Nat.sub_self, Nat.zero_div, Nat.zero_mul, Nat.zero_add]
    dsimp only
    rw [if_neg]
    show 2 ≠ 0x40000000 / c.pageSize + 1
    omega
  rw [mapped.isReserved]
  unfold Disk.isReserved PointerMap.isMapPage
  rw [show (bare c).mapped = true from rfl, show (bare c).usableSize = c.usableSize from rfl,
    show (bare c).pageSize = c.pageSize from rfl, own]
  rfl

theorem Mapped.firstUnreserved (mapped : s.Mapped c) (page : Nat) :
    s.isReserved (s.firstUnreserved page) = false ∧
      ∀ n : Nat, page ≤ n → n < s.firstUnreserved page → s.isReserved n = true := by
  unfold Store.firstUnreserved
  cases first : s.isReserved page with
  | false => exact ⟨first, fun n low high => absurd high (Nat.not_lt.mpr low)⟩
  | true =>
    cases second : s.isReserved (page + 1) with
    | false =>
      refine ⟨second, fun n low high => ?_⟩
      rw [show n = page from Nat.le_antisymm (Nat.le_of_lt_succ high) low]
      exact first
    | true =>
      have third : s.isReserved (page + 2) = false := by
        rw [mapped.isReserved] at first second ⊢
        exact Disk.isReserved_row mapped.bare_sound first second
      refine ⟨third, fun n low high => ?_⟩
      have near : n < page + 2 := high
      rcases (show n = page ∨ n = page + 1 by omega) with rfl | rfl
      · exact first
      · exact second

theorem lastUnreserved_spec (s : Store) {page : Nat} (positive : 1 ≤ page) :
    (s.lastUnreserved page = 1 ∨ s.isReserved (s.lastUnreserved page) = false) ∧
      ∀ n : Nat, s.lastUnreserved page < n → n ≤ page → s.isReserved n = true := by
  induction page with
  | zero => exact absurd positive (by decide)
  | succ page ih =>
    unfold lastUnreserved
    by_cases back : (page + 1 > 1 && s.isReserved (page + 1)) = true
    · rw [if_pos back]
      obtain ⟨more, reserved⟩ := Bool.and_eq_true_iff.mp back
      obtain ⟨last, after⟩ := ih (Nat.lt_succ_iff.mp (of_decide_eq_true more))
      refine ⟨last, fun n above below => ?_⟩
      rcases Nat.lt_or_eq_of_le below with less | rfl
      · exact after n above (Nat.le_of_lt_succ less)
      · exact reserved
    · rw [if_neg back]
      refine ⟨?_, fun n above below => absurd below (Nat.not_le.mpr above)⟩
      cases reserved : s.isReserved (page + 1) with
      | false => exact .inr rfl
      | true =>
        rw [reserved, Bool.and_true, decide_eq_true_eq] at back
        exact .inl (Nat.le_antisymm (Nat.le_of_not_lt back) (Nat.le_add_left 1 page))

end Store

/-- The roots in use, those that will be in use after a rollback, and whether a commit has failed since
these were. -/
structure Roots where
  live : List PageNo := []
  begun : List PageNo := []
  failed : Bool := false

namespace Roots

def after (roots : Roots) (s : Store) : Call → Roots
  | .statement (.createTree kind) =>
    match Database.createTree kind s with
    | .ok root _ => { roots with live := root :: roots.live }
    | .error _ _ => roots
  | .statement (.dropTree root) =>
    match Database.dropTree root s with
    -- a root that moved is in the place of the one that went
    | .ok moved _ => { roots with live := roots.live.erase (moved.getD root) }
    | .error _ _ => roots
  | .commit =>
    match Database.commit s with
    | .ok _ _ => { live := roots.live, begun := roots.live }
    | .error _ _ => { roots with failed := true }
  | .rollback => { live := roots.begun, begun := roots.begun }
  | _ => roots

/-- Whether the call names a root in use, if it removes one, and does not take back a commit that has
failed. -/
def allows (roots : Roots) : Call → Bool
  | .statement (.dropTree root) => root ∈ roots.live
  | .rollback => !roots.failed
  | _ => true

def afterAll (roots : Roots) (s : Store) : List Call → Roots
  | [] => roots
  | call :: rest => afterAll (roots.after s call) (call.run.final s) rest

def allowsAll (roots : Roots) (s : Store) : List Call → Bool
  | [] => true
  | call :: rest => roots.allows call && allowsAll (roots.after s call) (call.run.final s) rest

theorem after_quiet {call : Call} (quiet : call.isQuiet = true) (roots : Roots) (s : Store) :
    roots.after s call = roots := by
  cases call with
  | statement statement =>
    cases statement with
    | createTree kind => cases quiet
    | dropTree root => cases quiet
    | _ => rfl
  | commit => cases quiet
  | rollback => cases quiet
  | _ => rfl

end Roots

namespace Database

def largestRoot (s : Store) : Nat := (s.pager.image 1).at32 FileHeader.largestRootOffset

/-- These are the roots in use: the pages from the third to the largest root that are not reserved. The
next root comes right behind them. When one is removed, the largest one takes its place. -/
structure Packed (roots : List PageNo) (s : Store) : Prop where
  distinct : roots.Nodup
  members : ∀ page : Nat, page ∈ roots ↔ 3 ≤ page ∧ page ≤ largestRoot s ∧ s.isReserved page = false
  created : ∀ {kind} {root : Nat} {t}, createTree kind s = .ok root t →
    largestRoot s < root ∧ s.isReserved root = false ∧
      ∀ page : Nat, largestRoot s < page → page < root → s.isReserved page = true
  dropped : ∀ {root moved t}, root ∈ roots → dropTree root s = .ok moved t →
    largestRoot s ∈ roots ∧ moved = if root = largestRoot s then none else some (largestRoot s)

end Database

structure PackedUpTo (reserved : Nat → Bool) (largest : Nat) (roots : List PageNo) : Prop where
  distinct : roots.Nodup
  members : ∀ page : Nat, page ∈ roots ↔ 3 ≤ page ∧ page ≤ largest ∧ reserved page = false
  largest : largest = 1 ∨ largest ∈ roots

namespace PackedUpTo

variable {c : Config} {s : Store} {reserved : Nat → Bool} {largest : Nat} {roots : List PageNo}

theorem none (reserved : Nat → Bool) : PackedUpTo reserved 1 [] :=
  ⟨.nil, fun page => ⟨nofun, fun ⟨low, high, _⟩ => absurd (Nat.le_trans low high) (by decide)⟩, .inl rfl⟩

theorem positive (packed : PackedUpTo reserved largest roots) : 1 ≤ largest := by
  rcases packed.largest with one | member
  · exact Nat.le_of_eq one.symm
  · exact Nat.le_trans (by decide) ((packed.members largest).mp member).1

theorem next (packed : PackedUpTo reserved largest roots) : max largest 1 + 1 = largest + 1 := by
  rw [Nat.max_eq_left packed.positive]

theorem largest_mem (packed : PackedUpTo reserved largest roots) {root : PageNo} (member : root ∈ roots) :
    largest ∈ roots := by
  refine packed.largest.resolve_left fun one => ?_
  obtain ⟨low, high, -⟩ := (packed.members root).mp member
  rw [one] at high
  exact absurd (Nat.le_trans low high) (by decide)

theorem add (packed : PackedUpTo s.isReserved largest roots) (mapped : s.Mapped c) :
    PackedUpTo s.isReserved (s.firstUnreserved (largest + 1)) (s.firstUnreserved (largest + 1) :: roots) := by
  obtain ⟨free, between⟩ := mapped.firstUnreserved (largest + 1)
  have above := s.firstUnreserved_le (largest + 1)
  have positive := packed.positive
  generalize (s.firstUnreserved (largest + 1) : Nat) = root at free between above
  refine ⟨List.nodup_cons.mpr ⟨fun member => ?_, packed.distinct⟩, fun page => ?_, .inr List.mem_cons_self⟩
  · exact Nat.not_le.mpr above ((packed.members root).mp member).2.1
  rw [List.mem_cons, packed.members]
  constructor
  · rintro (rfl | ⟨low, high, unreserved⟩)
    · refine ⟨?_, Nat.le_refl _, free⟩
      have two : page ≠ 2 := by
        rintro rfl
        rw [mapped.isReserved_two] at free
        cases free
      omega
    · exact ⟨low, by omega, unreserved⟩
  · rintro ⟨low, high, unreserved⟩
    by_cases old : page ≤ largest
    · exact .inr ⟨low, old, unreserved⟩
    · refine .inl (Nat.le_antisymm high (Nat.le_of_not_lt fun less => ?_))
      rw [between page (by omega) less] at unreserved
      cases unreserved

theorem remove (packed : PackedUpTo s.isReserved largest roots) (mapped : s.Mapped c)
    (member : largest ∈ roots) :
    PackedUpTo s.isReserved (s.lastUnreserved (largest - 1)) (roots.erase largest) := by
  obtain ⟨low, -, -⟩ := (packed.members largest).mp member
  obtain ⟨free, after⟩ := s.lastUnreserved_spec (show 1 ≤ largest - 1 by omega)
  obtain ⟨root, same⟩ : ∃ root : Nat, s.lastUnreserved (largest - 1) = root := ⟨_, rfl⟩
  have below : root ≤ largest - 1 := same ▸ s.lastUnreserved_le _
  have first : 1 ≤ root := same ▸ s.lastUnreserved_pos (by omega)
  have after : ∀ page, root < page → page ≤ largest - 1 → s.isReserved page = true := same ▸ after
  rw [same] at free ⊢
  have members : ∀ page : Nat, page ∈ roots.erase largest ↔
      3 ≤ page ∧ page ≤ root ∧ s.isReserved page = false := by
    intro page
    rw [packed.distinct.mem_erase_iff, packed.members]
    constructor
    · rintro ⟨other, low, high, unreserved⟩
      refine ⟨low, Nat.le_of_not_lt fun above => ?_, unreserved⟩
      have other : page ≠ largest := other
      rw [after page above (by omega)] at unreserved
      cases unreserved
    · rintro ⟨low, high, unreserved⟩
      exact ⟨show page ≠ largest by omega, low, by omega, unreserved⟩
  refine ⟨packed.distinct.erase largest, members, ?_⟩
  by_cases one : root = 1
  · exact .inl one
  · have unreserved := free.resolve_left one
    have two : root ≠ 2 := by
      rintro rfl
      rw [mapped.isReserved_two] at unreserved
      cases unreserved
    exact .inr ((members root).mpr ⟨by omega, Nat.le_refl _, unreserved⟩)

end PackedUpTo

namespace Database

/-- The largest root is known, and so is the one that a rollback brings back unless a commit has failed.
The roots are packed up to them. -/
structure KeepsRoots (c : Config) (roots : Roots) (s : Store) : Prop where
  mapped : s.Mapped c
  known : ∃ size largest begun : Nat,
    Copies size (fun d => roots.failed = true ∨ Says size (fun root _ => root = begun) d) none
      (Says size fun root _ => root = largest) s.pager ∧
    PackedUpTo s.isReserved largest roots.live ∧ PackedUpTo s.isReserved begun roots.begun

variable {c : Config} {roots roots' : Roots} {s t : Store} {size largest begun : Nat}

theorem KeepsRoots.of_becomes (mapped : s.Mapped c)
    (becomes : Becomes size (fun d => roots.failed = true ∨ Says size (fun root _ => root = begun) d) none
      (Says size fun root _ => root = largest) s t)
    (live : PackedUpTo s.isReserved largest roots.live)
    (old : PackedUpTo s.isReserved begun roots.begun) : KeepsRoots c roots t := by
  have settled := becomes.settled
  have same : t.isReserved = s.isReserved := funext settled.isReserved
  refine ⟨⟨mapped.valid, settled.vacuum ▸ mapped.enabled, settled.pageSize.trans mapped.pageSize,
    settled.usableSize.trans mapped.usableSize⟩, size, largest, begun, becomes.copies, ?_, ?_⟩
  · exact same ▸ live
  · exact same ▸ old

theorem resets (largest root : Nat) :
    Resets (fun word _ => word = largest) (fun word _ => word = root) root :=
  ⟨fun _ _ _ => rfl, fun _ same _ _ old => old.trans same.symm⟩

theorem createTree_ends {known : Bytes → Prop} (mapped : s.Mapped c)
    (live : PackedUpTo s.isReserved largest roots.live)
    (becomes : Becomes size known none (Says size fun root _ => root = largest) s s) (kind : TreeKind) :
    Ends (Database.createTree kind) s
      (fun root t => root = s.firstUnreserved (largest + 1) ∧
        Becomes size known none (Says size fun word _ => word = s.firstUnreserved (largest + 1)) s t)
      (Becomes size known none (Says size fun root _ => root = largest) s) := by
  have resets : ∀ word _ : Nat, word = largest →
      Resets (fun word _ => word = largest) (fun word _ => word = s.firstUnreserved (largest + 1))
        (s.firstUnreserved (max word 1 + 1)) := by
    rintro _ _ rfl
    rw [live.next]
    exact resets _ _
  refine (becomes.createTree mapped.enabled resets kind).imp ?_ fun _ => id
  rintro root t _ ⟨⟨_, _, rfl, isRoot⟩, becomesT⟩
  exact ⟨live.next ▸ isRoot, becomesT⟩

theorem dropTree_ends {known : Bytes → Prop} (mapped : s.Mapped c)
    (becomes : Becomes size known none (Says size fun root _ => root = largest) s s) (root : PageNo) :
    Ends (Database.dropTree root) s
      (fun moved t => moved = movedRoot largest root ∧
        Becomes size known none (Says size fun word _ => word = s.lastUnreserved (largest - 1)) s t)
      (Becomes size known none (Says size fun root _ => root = largest) s) := by
  have resets : ∀ word _ : Nat, word = largest → 2 ≤ word →
      Resets (fun word _ => word = largest) (fun word _ => word = s.lastUnreserved (largest - 1))
        (s.lastUnreserved (word - 1)) := by
    rintro _ _ rfl -
    exact resets _ _
  refine (becomes.dropTree mapped.enabled resets root).imp ?_ fun _ => id
  rintro moved t _ ⟨⟨_, _, rfl, isMoved⟩, becomesT⟩
  exact ⟨isMoved, becomesT⟩

theorem KeepsRoots.createTree (keeps : KeepsRoots c roots s) (kind : TreeKind) :
    KeepsRoots c (roots.after s (.statement (.createTree kind)))
      ((Call.statement (.createTree kind)).run.final s) := by
  obtain ⟨mapped, size, largest, begun, copies, live, old⟩ := keeps
  have ends := createTree_ends mapped live ⟨copies, .refl s⟩ kind
  rw [Call.createTree_final]
  unfold Roots.after
  dsimp only
  cases run : Database.createTree kind s with
  | ok root t =>
    obtain ⟨rfl, becomes⟩ := ends.ok run
    rw [Action.final_of_ok run]
    exact .of_becomes mapped becomes (live.add mapped) old
  | error e t =>
    rw [Action.final_of_error run]
    exact .of_becomes mapped (ends.error run) live old

theorem movedRoot_getD (largest root : Nat) : (movedRoot largest root).getD root = largest := by
  unfold movedRoot
  split
  · assumption
  · rfl

theorem KeepsRoots.dropTree (keeps : KeepsRoots c roots s) {root : PageNo} (member : root ∈ roots.live) :
    KeepsRoots c (roots.after s (.statement (.dropTree root)))
      ((Call.statement (.dropTree root)).run.final s) := by
  obtain ⟨mapped, size, largest, begun, copies, live, old⟩ := keeps
  have ends := dropTree_ends mapped ⟨copies, .refl s⟩ root
  rw [Call.dropTree_final]
  unfold Roots.after
  dsimp only
  cases run : Database.dropTree root s with
  | ok moved t =>
    obtain ⟨rfl, becomes⟩ := ends.ok run
    rw [Action.final_of_ok run]
    dsimp only
    rw [movedRoot_getD]
    exact .of_becomes mapped becomes (live.remove mapped (live.largest_mem member)) old
  | error e t =>
    rw [Action.final_of_error run]
    exact .of_becomes mapped (ends.error run) live old

theorem KeepsRoots.commit (keeps : KeepsRoots c roots s) :
    KeepsRoots c (roots.after s .commit) (Call.commit.run.final s) := by
  obtain ⟨mapped, size, largest, begun, copies, live, old⟩ := keeps
  have ends := commit_ends ⟨copies, .refl s⟩
  show KeepsRoots c _ (Database.commit.final s)
  unfold Roots.after
  dsimp only
  cases run : Database.commit s with
  | ok _ t =>
    obtain ⟨copiesT, settled⟩ := ends.ok run
    rw [Action.final_of_ok run]
    exact .of_becomes mapped ⟨copiesT.weaken fun _ => .inr, settled⟩ live live
  | error e t =>
    obtain ⟨copiesT, settled⟩ := ends.error run
    rw [Action.final_of_error run]
    exact .of_becomes mapped ⟨copiesT.weaken fun _ _ => .inl rfl, settled⟩ live old

theorem KeepsRoots.rollback (keeps : KeepsRoots c roots s) (calm : roots.failed = false) :
    KeepsRoots c (roots.after s .rollback) (Call.rollback.run.final s) := by
  obtain ⟨mapped, size, largest, begun, copies, live, old⟩ := keeps
  have back : ∀ d, roots.failed = true ∨ Says size (fun root _ => root = begun) d →
      Says size (fun root _ => root = begun) d := fun d known => known.resolve_left (by rw [calm]; decide)
  have becomes : Becomes size _ none (Says size fun root _ => root = begun) s (Call.rollback.run.final s) :=
    ((rollback_ends ⟨copies, .refl s⟩).imp (fun _ t _ becomes => ⟨becomes.copies.imp back, becomes.settled⟩)
      fun _ => False.elim).final
  exact .of_becomes mapped ⟨becomes.copies.weaken fun d known => .inr (back d known), becomes.settled⟩ old old

theorem KeepsRoots.setMode (keeps : KeepsRoots c roots s) (value : UInt32) :
    KeepsRoots c roots ((Call.setMeta modeIndex value).run.final s) := by
  obtain ⟨mapped, size, largest, begun, copies, live, old⟩ := keeps
  let start : Store := { s with vacuum := .ofWord value.toNat }
  have enabled : start.vacuum.isEnabled = true := by
    show (VacuumMode.ofWord value.toNat).isEnabled = true
    unfold VacuumMode.ofWord
    split <;> rfl
  have same : start.isReserved = s.isReserved :=
    Store.isReserved_congr rfl rfl (enabled.trans mapped.enabled.symm)
  have becomes := (setMode_ends value.toNat_lt copies mapped.enabled (fun _ _ => id) fun _ _ _ _ => id).final
  have mapped : start.Mapped c := ⟨mapped.valid, enabled, mapped.pageSize, mapped.usableSize⟩
  exact .of_becomes mapped becomes (same ▸ live) (same ▸ old)

theorem KeepsRoots.step (keeps : KeepsRoots c roots s) (call : Call) (allowed : roots.allows call = true) :
    KeepsRoots c (roots.after s call) (call.run.final s) := by
  rcases call.kinds with quiet | ⟨kind, rfl⟩ | ⟨root, rfl⟩ | rfl | rfl | ⟨value, rfl⟩
  · obtain ⟨mapped, size, largest, begun, copies, live, old⟩ := keeps
    have becomes : Becomes size _ none _ s s := ⟨copies, .refl s⟩
    rw [Roots.after_quiet quiet]
    exact .of_becomes mapped (becomes.quietly quiet) live old
  · exact keeps.createTree kind
  · exact keeps.dropTree (of_decide_eq_true allowed)
  · exact keeps.commit
  · exact keeps.rollback (by simpa [Roots.allows] using allowed)
  · exact keeps.setMode value

theorem KeepsRoots.run (keeps : KeepsRoots c roots s) {calls : List Call}
    (allowed : roots.allowsAll s calls = true) :
    KeepsRoots c (roots.afterAll s calls) (Call.runAll s calls) := by
  induction calls generalizing s roots with
  | nil => exact keeps
  | cons call rest ih =>
    obtain ⟨first, later⟩ := Bool.and_eq_true_iff.mp allowed
    exact ih (keeps.step call first) later

theorem KeepsRoots.packed (keeps : KeepsRoots c roots s) : Packed roots.live s := by
  obtain ⟨mapped, size, largest, begun, copies, live, old⟩ := keeps
  have raw : s.pager.image 1 = s.pager.raw 1 := if_neg (Nat.not_lt.mpr copies.count.1)
  have isLargest : largestRoot s = largest := by
    unfold largestRoot
    rw [raw]
    exact copies.starts.now.words
  have becomes : Becomes size _ none _ s s := ⟨copies, .refl s⟩
  refine ⟨live.distinct, isLargest ▸ live.members, fun {kind root t} run => ?_, fun {root moved t} member run => ?_⟩
  · obtain ⟨rfl, -⟩ := (createTree_ends mapped live becomes kind).ok run
    obtain ⟨free, between⟩ := mapped.firstUnreserved (largest + 1)
    rw [isLargest]
    exact ⟨s.firstUnreserved_le _, free, between⟩
  · obtain ⟨isMoved, -⟩ := (dropTree_ends mapped becomes root).ok run
    rw [isLargest]
    exact ⟨live.largest_mem member, isMoved⟩

def Made (c : Config) (s : Store) : Prop :=
  (∃ file, file.bytes.size = 0 ∧ openFile file c = .ok s) ∨ inMemory c = .ok s

theorem Made.keepsRoots (made : Made c s) (enabled : c.vacuum.isEnabled = true) : KeepsRoots c {} s := by
  obtain ⟨follows, rests⟩ : Follows s c ∧ Rests (firstLargest c.vacuum) (firstMode c.vacuum) s := by
    rcases made with ⟨file, empty, run⟩ | run
    · exact (openFile_ok (by rw [empty]; decide) run).2 empty
    · exact inMemory_ok run
  have one : firstLargest c.vacuum = 1 := if_pos enabled
  have imp : ∀ d, Says s.pager.pageSize (fun root mode => root = firstLargest c.vacuum ∧
      mode = firstMode c.vacuum) d → Says s.pager.pageSize (fun root _ => root = 1) d :=
    fun d stated => stated.imp fun _ _ words => words.1.trans one
  exact ⟨⟨follows.valid, follows.vacuum ▸ enabled, follows.pageSize, follows.usableSize⟩, _, 1, 1,
    (rests.imp imp).weaken fun d known => .inr (imp d known), .none _, .none _⟩

/-- In every run from a new auto-vacuum file, in which trees are removed by roots in use and no commit
that failed is taken back, the roots in use are packed. -/
theorem roots_packed (made : Made c s) (enabled : c.vacuum.isEnabled = true) {calls : List Call}
    (allowed : Roots.allowsAll {} s calls = true) :
    Packed (Roots.afterAll {} s calls).live (Call.runAll s calls) :=
  ((made.keepsRoots enabled).run allowed).packed

def planting : List Call :=
  [.statement (.createTree .table), .rollback, .statement (.createTree .index), .commit,
    .statement (.createTree .table)]

theorem roots_packed_planted : ∃ s, inMemory compact = .ok s ∧ Roots.allowsAll {} s planting = true ∧
    Packed (Roots.afterAll {} s planting).live (Call.runAll s planting) := by
  obtain ⟨s, made, -⟩ := inMemory_run (c := compact) rfl
  have allowed : Roots.allowsAll {} s planting = true := by
    have kept : ((Roots.after {} s (.statement (.createTree .table))).allows .rollback) = true := by
      unfold Roots.after
      dsimp only
      split <;> rfl
    show (true && (Roots.allows _ .rollback && (true && (true && (true && true))))) = true
    rw [kept]
    rfl
  exact ⟨s, made, allowed, roots_packed (.inr made) rfl allowed⟩

end Database

end TreeFile
