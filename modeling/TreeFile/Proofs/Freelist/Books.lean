import TreeFile.Freelist
import TreeFile.Proofs.PointerMap.Entries

/-!
The books of a disk: every page that is not reserved is either on the freelist or has an owner, and
never both.
-/

namespace TreeFile

structure Trunk where
  page : Nat
  leaves : List Nat
deriving DecidableEq

namespace Trunk

def pages (t : Trunk) : List Nat := t.page :: t.leaves

def firstOr (last : Nat) : List Trunk → Nat
  | [] => last
  | t :: _ => t.page

def allPages (trunks : List Trunk) : List Nat := trunks.flatMap pages

theorem allPages_cons (t : Trunk) (rest : List Trunk) :
    allPages (t :: rest) = t.page :: (t.leaves ++ allPages rest) := rfl

theorem allPages_append (a b : List Trunk) : allPages (a ++ b) = allPages a ++ allPages b :=
  List.flatMap_append

theorem firstOr_append (last : Nat) (a b : List Trunk) :
    firstOr last (a ++ b) = firstOr (firstOr last b) a := by
  cases a <;> rfl

theorem page_mem {t : Trunk} {trunks : List Trunk} (member : t ∈ trunks) :
    t.page ∈ allPages trunks :=
  List.mem_flatMap.mpr ⟨t, member, List.mem_cons_self⟩

theorem leaf_mem {t : Trunk} {trunks : List Trunk} (member : t ∈ trunks) {n : Nat}
    (leaf : n ∈ t.leaves) : n ∈ allPages trunks :=
  List.mem_flatMap.mpr ⟨t, member, List.mem_cons_of_mem _ leaf⟩

theorem length_le (trunks : List Trunk) : trunks.length ≤ (allPages trunks).length := by
  induction trunks with
  | nil => exact Nat.le_refl 0
  | cons t rest ih =>
    rw [allPages_cons, List.length_cons, List.length_cons, List.length_append]
    omega

end Trunk

namespace Disk

variable {d e : Disk} {trunks : List Trunk} {owned : List Nat}

structure TrunkAt (d : Disk) (t : Trunk) (next : Nat) : Prop where
  next : (d.image t.page).at32 0 = next
  count : (d.image t.page).at32 4 = t.leaves.length
  leaf : ∀ i (h : i < t.leaves.length),
    (d.image t.page).at32 (Freelist.leafStart i) = t.leaves[i]
  room : t.leaves.length ≤ Freelist.readCapacity d.usableSize

def Trunks (d : Disk) (last : Nat) : List Trunk → Prop
  | [] => True
  | t :: rest => d.TrunkAt t (Trunk.firstOr last rest) ∧ d.Trunks last rest

theorem Trunks.append {last : Nat} {a b : List Trunk} : d.Trunks last (a ++ b) ↔
    d.Trunks (Trunk.firstOr last b) a ∧ d.Trunks last b := by
  induction a with
  | nil => exact (and_iff_right trivial).symm
  | cons t rest ih =>
    change d.TrunkAt t (Trunk.firstOr last (rest ++ b)) ∧ d.Trunks last (rest ++ b) ↔
      (d.TrunkAt t (Trunk.firstOr (Trunk.firstOr last b) rest) ∧ _) ∧ _
    rw [ih, Trunk.firstOr_append, and_assoc]

theorem TrunkAt.congr {t : Trunk} {next : Nat} (at_ : d.TrunkAt t next)
    (usable : e.usableSize = d.usableSize) (same : e.image t.page = d.image t.page) :
    e.TrunkAt t next := by
  obtain ⟨one, two, three, four⟩ := at_
  refine ⟨?_, ?_, ?_, ?_⟩
  · rw [same]
    exact one
  · rw [same]
    exact two
  · rw [same]
    exact three
  · rw [usable]
    exact four

theorem Trunks.congr {last : Nat} (row : d.Trunks last trunks) (usable : e.usableSize = d.usableSize)
    (same : ∀ t ∈ trunks, e.image t.page = d.image t.page) : e.Trunks last trunks := by
  induction trunks with
  | nil => trivial
  | cons t rest ih =>
    exact ⟨row.1.congr usable (same t List.mem_cons_self),
      ih row.2 fun t member => same t (List.mem_cons_of_mem _ member)⟩

structure Partition (d : Disk) (pages : List Nat) : Prop where
  once : pages.Nodup
  all : ∀ n, n ∈ pages ↔ d.Has n ∧ d.isReserved n = false

theorem Partition.perm {pages others : List Nat} (part : d.Partition pages)
    (perm : pages.Perm others) : d.Partition others :=
  ⟨perm.nodup part.once, fun n => perm.mem_iff.symm.trans (part.all n)⟩

theorem Partition.congr {pages : List Nat} (part : d.Partition pages) (alike : Alike d e)
    (count : e.count = d.count) : e.Partition pages := by
  refine ⟨part.once, fun n => ?_⟩
  rw [alike.isReserved]
  unfold Has
  rw [count]
  exact part.all n

/-- Of all pages but the first only those of `P` get another content, and the first changes only where the
header states the freelist. -/
structure Edits (d e : Disk) (P : Nat → Prop) : Prop where
  alike : Alike d e
  count : e.count = d.count
  images : ∀ n, n ≠ 1 → ¬ P n → e.image n = d.image n
  header : ∀ i, i < 32 ∨ 40 ≤ i → (e.image 1).get! i = (d.image 1).get! i

namespace Edits

variable {f : Disk} {P Q : Nat → Prop}

theorem refl (d : Disk) : Edits d d P := ⟨.refl d, rfl, fun _ _ _ => rfl, fun _ _ => rfl⟩

theorem trans (first : Edits d e P) (second : Edits e f P) : Edits d f P :=
  ⟨first.alike.trans second.alike, second.count.trans first.count,
    fun n other away => (second.images n other away).trans (first.images n other away),
    fun i outside => (second.header i outside).trans (first.header i outside)⟩

theorem mono (edits : Edits d e P) (pages : ∀ n, P n → Q n) : Edits d e Q :=
  ⟨edits.alike, edits.count, fun n other away => edits.images n other fun inside => away (pages n inside),
    edits.header⟩

theorem put {page : Nat} (data : Bytes) (other : page ≠ 1) : Edits d (d.put page data) (· = page) :=
  ⟨alike_put d page data, rfl, fun _ _ away => d.put_other data away,
    fun i _ => by rw [d.put_other data fun same => other same.symm]⟩

theorem has (edits : Edits d e P) {n : Nat} (has : d.Has n) : e.Has n := ⟨has.1, edits.count ▸ has.2⟩

theorem keeps (edits : Edits d e P) (sound : d.Sound) (plain : ∀ n, P n → d.isMap n = false) :
    Keeps d e P (fun _ => False) := by
  refine ⟨edits.alike, fun n _ away i low => ?_, fun n _ _ => ?_, fun i _ outside => edits.header i outside⟩
  · by_cases first : n = 1
    · subst first
      rw [if_pos rfl] at low
      exact edits.header i (by omega)
    · rw [edits.images n first away]
  · refine entry_congr edits.alike fun mapped nonzero _ => edits.images _ ?_ ?_
    all_goals
      have map := mapPage_isMap sound mapped nonzero
    · intro first
      rw [first, isMap_of_free (isReserved_one sound)] at map
      cases map
    · intro inside
      rw [plain _ inside] at map
      cases map

end Edits

theorem word_put_other {page : Nat} (data : Bytes) (offset : Nat) (other : page ≠ 1) :
    (d.put page data).word offset = d.word offset := by
  unfold word
  rw [d.put_other data fun same => other same.symm]

/-- The freelist consists of these trunks. It lists no page twice, and neither page 1 nor a map page. -/
structure Shelf (d : Disk) (trunks : List Trunk) : Prop where
  one : d.Has 1
  once : (Trunk.allPages trunks).Nodup
  low : ∀ n ∈ Trunk.allPages trunks, 2 ≤ n
  has : ∀ n ∈ Trunk.allPages trunks, d.Has n
  plain : ∀ n ∈ Trunk.allPages trunks, d.isMap n = false
  first : d.word FileHeader.firstTrunkOffset = Trunk.firstOr 0 trunks
  count : d.word FileHeader.freeCountOffset = (Trunk.allPages trunks).length
  row : d.Trunks 0 trunks

namespace Shelf

variable (shelf : d.Shelf trunks)

include shelf

theorem ne_one {n : Nat} (free : n ∈ Trunk.allPages trunks) : n ≠ 1 := Nat.ne_of_gt (shelf.low n free)

theorem small (sound : d.Sound) {n : Nat} (free : n ∈ Trunk.allPages trunks) : n < 4294967296 :=
  sound.has_lt (shelf.has n free)

theorem take {P : Nat → Prop} {rest : List Trunk} {page : Nat} (edits : Edits d e P)
    (perm : (Trunk.allPages trunks).Perm (page :: Trunk.allPages rest))
    (first : e.word FileHeader.firstTrunkOffset = Trunk.firstOr 0 rest)
    (free : e.word FileHeader.freeCountOffset = d.word FileHeader.freeCountOffset - 1) (row : e.Trunks 0 rest) :
    e.Shelf rest := by
  have inside : ∀ n ∈ Trunk.allPages rest, n ∈ Trunk.allPages trunks := fun n member =>
    perm.mem_iff.mpr (List.mem_cons_of_mem _ member)
  refine ⟨edits.has shelf.one, (List.nodup_cons.mp (perm.nodup shelf.once)).2, fun n member => shelf.low n (inside n member),
    fun n member => edits.has (shelf.has n (inside n member)), fun n member => ?_, first, ?_, row⟩
  · rw [edits.alike.isMap]
    exact shelf.plain n (inside n member)
  · rw [free, shelf.count, perm.length_eq]
    rfl

theorem of_images (alike : Alike d e) (count : e.count = d.count)
    (images : ∀ n, n = 1 ∨ n ∈ Trunk.allPages trunks → e.image n = d.image n) : e.Shelf trunks := by
  have word : ∀ offset, e.word offset = d.word offset := fun offset => by
    unfold word
    rw [images 1 (.inl rfl)]
  have has : ∀ n, d.Has n → e.Has n := fun n old => ⟨old.1, count ▸ old.2⟩
  refine ⟨has 1 shelf.one, shelf.once, shelf.low, fun n free => has n (shelf.has n free), fun n free => ?_,
    (word _).trans shelf.first, (word _).trans shelf.count,
    shelf.row.congr alike.usableSize fun t member => images _ (.inr (Trunk.page_mem member))⟩
  rw [alike.isMap]
  exact shelf.plain n free

end Shelf

/-- The freelist consists of these trunks, and all other pages have owners. Page 1 always has
one. -/
structure Listing (d : Disk) (trunks : List Trunk) (owned : List Nat) : Prop where
  part : d.Partition (Trunk.allPages trunks ++ owned)
  one : 1 ∈ owned
  first : d.word FileHeader.firstTrunkOffset = Trunk.firstOr 0 trunks
  count : d.word FileHeader.freeCountOffset = (Trunk.allPages trunks).length
  row : d.Trunks 0 trunks

/-- Moreover the pointer map says of the pages on the freelist that they are free. -/
structure Ledger (d : Disk) (trunks : List Trunk) (owned : List Nat) : Prop where
  part : d.Partition (Trunk.allPages trunks ++ owned)
  one : 1 ∈ owned
  first : d.word FileHeader.firstTrunkOffset = Trunk.firstOr 0 trunks
  count : d.word FileHeader.freeCountOffset = (Trunk.allPages trunks).length
  row : d.Trunks 0 trunks
  mapped : d.mapped = true → ∀ n ∈ Trunk.allPages trunks, d.entry n = some ⟨.free, 0⟩

def Books (d : Disk) (owned : List Nat) : Prop := ∃ trunks, d.Ledger trunks owned

/-- Before the first commit of a file without a pointer map every page is on the freelist or has an owner. -/
theorem unsaved_ledger {images : List PageImage} (few : images.length ≤ 1000)
    (pages : (Trunk.allPages trunks ++ owned).Perm (List.range' 1 images.length)) (one : 1 ∈ owned)
    (first : (Store.unsaved images).disk.word FileHeader.firstTrunkOffset = Trunk.firstOr 0 trunks)
    (count : (Store.unsaved images).disk.word FileHeader.freeCountOffset = (Trunk.allPages trunks).length)
    (row : (Store.unsaved images).disk.Trunks 0 trunks) : (Store.unsaved images).disk.Ledger trunks owned := by
  refine ⟨⟨pages.symm.nodup List.nodup_range', fun n => ?_⟩, one, first, count, row, nofun⟩
  have has : (Store.unsaved images).disk.Has n ↔ 1 ≤ n ∧ n ≤ images.length := .rfl
  rw [pages.mem_iff, List.mem_range'_1, has]
  constructor
  · rintro ⟨low, high⟩
    have other : n ≠ pendingPage 512 := by
      unfold pendingPage pendingByte
      omega
    exact ⟨⟨low, by omega⟩, beq_eq_false_iff_ne.mpr other⟩
  · rintro ⟨⟨low, high⟩, -⟩
    omega

namespace Listing

variable (listing : d.Listing trunks owned)

include listing

theorem apart {n : Nat} (free : n ∈ Trunk.allPages trunks) : n ∉ owned := fun inside =>
  (List.nodup_append.mp listing.part.once).2.2 n free n inside rfl

theorem has_free {n : Nat} (free : n ∈ Trunk.allPages trunks) :
    d.Has n ∧ d.isReserved n = false :=
  (listing.part.all n).mp (List.mem_append_left _ free)

theorem has_owned {n : Nat} (inside : n ∈ owned) : d.Has n ∧ d.isReserved n = false :=
  (listing.part.all n).mp (List.mem_append_right _ inside)

theorem low {n : Nat} (free : n ∈ Trunk.allPages trunks) : 2 ≤ n := by
  have positive := (listing.has_free free).1.1
  have other : n ≠ 1 := by
    rintro rfl
    exact listing.apart free listing.one
  omega

theorem has_one : d.Has 1 := (listing.has_owned listing.one).1

theorem shelf : d.Shelf trunks :=
  ⟨listing.has_one, (List.nodup_append.mp listing.part.once).1, fun _ => listing.low,
    fun _ free => (listing.has_free free).1, fun _ free => isMap_of_free (listing.has_free free).2, listing.first,
    listing.count, listing.row⟩

theorem once : owned.Nodup := (List.nodup_append.mp listing.part.once).2.1

theorem perm {others : List Nat} (same : owned.Perm others) : d.Listing trunks others :=
  ⟨listing.part.perm (same.append_left _), same.mem_iff.mp listing.one, listing.first, listing.count,
    listing.row⟩

theorem of_quiet {P E : Nat → Prop} (sound : d.Sound) (soundE : e.Sound) (quiet : Quiet d e P E)
    (pages : ∀ n, P n → n ∈ owned) : e.Listing trunks owned := by
  have image : ∀ n ∈ Trunk.allPages trunks, e.image n = d.image n := by
    intro n free
    have away : ¬ P n := fun inside => listing.apart free (pages n inside)
    have low := listing.low free
    exact (quiet.images n (listing.has_free free).2 away).image sound soundE quiet.alike (by omega)
  refine ⟨listing.part.congr quiet.alike quiet.count, listing.one, ?_, ?_, ?_⟩
  · rw [quiet.word (by decide)]
    exact listing.first
  · rw [quiet.word (by decide)]
    exact listing.count
  · exact listing.row.congr quiet.alike.usableSize fun t member => image _ (Trunk.page_mem member)

theorem taken {rest : List Trunk} {page : Nat} (alike : Alike d e) (count : e.count = d.count)
    (perm : (Trunk.allPages trunks).Perm (page :: Trunk.allPages rest)) (shelf : e.Shelf rest) :
    e.Listing rest (page :: owned) := by
  refine ⟨(listing.part.perm ?_).congr alike count, List.mem_cons_of_mem _ listing.one, shelf.first, shelf.count,
    shelf.row⟩
  exact (perm.append_right owned).trans List.perm_middle.symm

theorem ledger (mapped : d.mapped = true → ∀ n ∈ Trunk.allPages trunks, d.entry n = some ⟨.free, 0⟩) :
    d.Ledger trunks owned :=
  ⟨listing.part, listing.one, listing.first, listing.count, listing.row, mapped⟩

end Listing

namespace Ledger

variable (ledger : d.Ledger trunks owned)

include ledger

theorem listing : d.Listing trunks owned :=
  ⟨ledger.part, ledger.one, ledger.first, ledger.count, ledger.row⟩

theorem apart {n : Nat} (free : n ∈ Trunk.allPages trunks) : n ∉ owned := ledger.listing.apart free

theorem has_free {n : Nat} (free : n ∈ Trunk.allPages trunks) :
    d.Has n ∧ d.isReserved n = false := ledger.listing.has_free free

theorem has_owned {n : Nat} (inside : n ∈ owned) : d.Has n ∧ d.isReserved n = false :=
  ledger.listing.has_owned inside

theorem low {n : Nat} (free : n ∈ Trunk.allPages trunks) : 2 ≤ n := ledger.listing.low free

theorem has_one : d.Has 1 := ledger.listing.has_one

theorem perm {others : List Nat} (same : owned.Perm others) : d.Ledger trunks others :=
  (ledger.listing.perm same).ledger ledger.mapped

theorem of_quiet {P E : Nat → Prop} (sound : d.Sound) (soundE : e.Sound) (quiet : Quiet d e P E)
    (pages : ∀ n, P n → n ∈ owned) (entries : ∀ n, E n → n ∈ owned) : e.Ledger trunks owned := by
  refine (ledger.listing.of_quiet sound soundE quiet pages).ledger fun mapped n free => ?_
  rw [quiet.entries n (ledger.has_free free).2 fun inside => ledger.apart free (entries n inside)]
  exact ledger.mapped (quiet.alike.mapped.symm.trans mapped) n free

theorem kept {P : Nat → Prop} {fewer : List Trunk} {others : List Nat} (listing : e.Listing fewer others)
    (keeps : Keeps d e P (fun _ => False)) (inside : ∀ n ∈ Trunk.allPages fewer, n ∈ Trunk.allPages trunks) :
    e.Ledger fewer others := by
  refine listing.ledger fun mapped n free => ?_
  rw [keeps.entries n (ledger.has_free (inside n free)).2 id]
  exact ledger.mapped (keeps.alike.mapped.symm.trans mapped) n (inside n free)

end Ledger

namespace Books

theorem perm {others : List Nat} (books : d.Books owned) (same : owned.Perm others) :
    d.Books others := by
  obtain ⟨trunks, ledger⟩ := books
  exact ⟨trunks, ledger.perm same⟩

theorem of_quiet {P E : Nat → Prop} (books : d.Books owned) (sound : d.Sound) (soundE : e.Sound)
    (quiet : Quiet d e P E) (pages : ∀ n, P n → n ∈ owned) (entries : ∀ n, E n → n ∈ owned) :
    e.Books owned := by
  obtain ⟨trunks, ledger⟩ := books
  exact ⟨trunks, ledger.of_quiet sound soundE quiet pages entries⟩

theorem one (books : d.Books owned) : 1 ∈ owned := by
  obtain ⟨trunks, ledger⟩ := books
  exact ledger.one

theorem nodup (books : d.Books owned) : owned.Nodup := by
  obtain ⟨trunks, ledger⟩ := books
  exact (List.nodup_append.mp ledger.part.once).2.1

theorem has (books : d.Books owned) {n : Nat} (inside : n ∈ owned) :
    d.Has n ∧ d.isReserved n = false := by
  obtain ⟨trunks, ledger⟩ := books
  exact ledger.has_owned inside

theorem described (books : d.Books owned) {n : Nat} (inside : n ∈ owned) (other : n ≠ 1) :
    d.Described n := by
  obtain ⟨has, free⟩ := books.has inside
  exact ⟨by have low := has.1; omega, has, free⟩

end Books

theorem Edits.put_header {data : Bytes}
    (same : ∀ i, i < 32 ∨ 40 ≤ i → data.get! i = (d.image 1).get! i) :
    Edits d (d.put 1 data) (fun _ => False) :=
  ⟨alike_put d 1 data, rfl, fun _ other _ => d.put_other data other, fun i outside => by
    rw [put_self]
    exact same i outside⟩

theorem Books.put_header {data : Bytes} (books : d.Books owned) (sound : d.Sound)
    (same : ∀ i, 32 ≤ i → i < 40 → data.get! i = (d.image 1).get! i) : (d.put 1 data).Books owned := by
  obtain ⟨trunks, ledger⟩ := books
  have word : ∀ offset, 32 ≤ offset → offset + 4 ≤ 40 → (d.put 1 data).word offset = d.word offset := by
    intro offset low high
    refine word_congr fun i above below => ?_
    rw [put_self]
    exact same i (by omega) (by omega)
  refine ⟨trunks, ledger.part.congr (alike_put d 1 data) rfl, ledger.one, ?_, ?_, ?_, fun mapped n inside => ?_⟩
  · rw [word _ (by decide) (by decide)]
    exact ledger.first
  · rw [word _ (by decide) (by decide)]
    exact ledger.count
  · refine ledger.row.congr rfl fun t member => put_other d data ?_
    have low := ledger.low (Trunk.page_mem member)
    omega
  · rw [entry_put sound n data (isReserved_one sound)]
    exact ledger.mapped mapped n inside

end Disk

end TreeFile
