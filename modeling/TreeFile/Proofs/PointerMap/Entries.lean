import TreeFile.PointerMap.Entry
import TreeFile.Proofs.Store.DiskPages

/-!
The pointer map on a disk. Recording the use of a page changes its entry and no other, and no page
outside the map.
-/

namespace TreeFile

namespace PointerMap

theorem mapPage_isMapPage {usableSize pageSize page : Nat} (usable : 5 ≤ usableSize)
    (nonzero : mapPage usableSize pageSize page ≠ 0) :
    isMapPage usableSize pageSize (mapPage usableSize pageSize page) = true := by
  have low : ¬ page < 2 := fun small => nonzero (if_pos small)
  have wide : 2 ≤ groupSize usableSize :=
    Nat.succ_le_succ ((Nat.le_div_iff_mul_le (by decide)).mpr usable)
  obtain ⟨g, isSize⟩ : ∃ g, g = groupSize usableSize := ⟨_, rfl⟩
  obtain ⟨k, isGroup⟩ : ∃ k, k = (page - 2) / g := ⟨_, rfl⟩
  rw [← isSize] at wide
  -- the first two pages of a group are of that group
  have group : ∀ j : Nat, j < 2 → mapPage usableSize pageSize (k * g + j + 2) =
      if k * g + 2 = pendingPage pageSize then k * g + 2 + 1 else k * g + 2 := by
    intro j less
    have whole : (k * g + j) / g = k := by
      rw [Nat.mul_comm, Nat.mul_add_div (by omega), Nat.div_eq_of_lt (by omega), Nat.add_zero]
    unfold mapPage
    rw [if_neg (Nat.not_lt.mpr (Nat.le_add_left 2 (k * g + j))), ← isSize, Nat.add_sub_cancel, whole]
  have here : mapPage usableSize pageSize page =
      if k * g + 2 = pendingPage pageSize then k * g + 2 + 1 else k * g + 2 := by
    unfold mapPage
    rw [if_neg low, ← isSize, ← isGroup]
  have own : ∀ j : Nat, j < 2 → mapPage usableSize pageSize page = k * g + j + 2 →
      isMapPage usableSize pageSize (mapPage usableSize pageSize page) = true := by
    intro j less same
    have fixed : mapPage usableSize pageSize (k * g + j + 2) = k * g + j + 2 :=
      (group j less).trans (here.symm.trans same)
    unfold isMapPage
    rw [same, fixed, BEq.rfl, Bool.and_true]
    exact decide_eq_true (Nat.le_add_left 2 _)
  by_cases pending : k * g + 2 = pendingPage pageSize
  · exact own 1 (by decide) (here.trans (if_pos pending))
  · exact own 0 (by decide) (here.trans (if_neg pending))

theorem mapPage_room {usableSize page : Nat} (pageSize : Nat) (usable : 5 ≤ usableSize) (low : 2 ≤ page) :
    ∃ map : Nat, mapPage usableSize pageSize page = map ∧ 2 ≤ map ∧
      isMapPage usableSize pageSize map = true ∧ (map ≤ page ∨ page = pendingPage pageSize) ∧
      (map < page → entryStart map page + 5 ≤ usableSize) := by
  have size : groupSize usableSize = usableSize / 5 + 1 := rfl
  have quotient := Nat.div_mul_le_self usableSize 5
  have positive : 1 ≤ usableSize / 5 := (Nat.le_div_iff_mul_le (by decide)).mpr (by omega)
  obtain ⟨g, isSize⟩ : ∃ g, g = groupSize usableSize := ⟨_, rfl⟩
  obtain ⟨k, isGroup⟩ : ∃ k, k = (page - 2) / g := ⟨_, rfl⟩
  obtain ⟨pending, isPending⟩ : ∃ pending : Nat, pending = pendingPage pageSize := ⟨_, rfl⟩
  have below : k * g ≤ page - 2 := isGroup ▸ Nat.div_mul_le_self _ _
  have above : page - 2 < k * g + g := by
    have split := Nat.div_add_mod (page - 2) g
    have less := Nat.mod_lt (page - 2) (show g > 0 by omega)
    rw [← isGroup, Nat.mul_comm] at split
    omega
  obtain ⟨map, isMap⟩ : ∃ map : Nat, map = if k * g + 2 = pending then k * g + 3 else k * g + 2 :=
    ⟨_, rfl⟩
  have here : mapPage usableSize pageSize page = map := by
    unfold mapPage
    rw [if_neg (Nat.not_lt.mpr low), ← isSize, ← isGroup, ← isPending]
    exact isMap.symm
  have two : 2 ≤ map := by
    split at isMap <;> omega
  have own : isMapPage usableSize pageSize map = true := by
    rw [← here]
    exact mapPage_isMapPage usable (here ▸ Nat.ne_of_gt (Nat.lt_of_succ_le (Nat.le_of_succ_le two)))
  refine ⟨map, here, two, own, ?_, fun behind => ?_⟩
  · rw [← isPending]
    split at isMap <;> omega
  · change 5 * (page - map - 1) + 5 ≤ usableSize
    split at isMap <;> omega

theorem mapPage_bounds {usableSize pageSize page : Nat} (usable : 5 ≤ usableSize) (low : 2 ≤ page)
    (notMap : isMapPage usableSize pageSize page = false) (notPending : page ≠ pendingPage pageSize) :
    ∃ map : Nat, mapPage usableSize pageSize page = map ∧ 2 ≤ map ∧ map < page ∧
      isMapPage usableSize pageSize map = true ∧ entryStart map page + 5 ≤ usableSize := by
  obtain ⟨map, here, two, own, order, room⟩ := mapPage_room pageSize usable low
  have other : map ≠ page := by
    rintro rfl
    rw [own] at notMap
    cases notMap
  have behind : map < page := Nat.lt_of_le_of_ne (order.resolve_right notPending) other
  exact ⟨map, here, two, behind, own, room behind⟩

theorem isMapPage_group {usableSize pageSize page : Nat}
    (map : isMapPage usableSize pageSize page = true) :
    ∃ k, page = k * groupSize usableSize + 2 ∨
      page = k * groupSize usableSize + 3 ∧
        k * groupSize usableSize + 2 = pendingPage pageSize := by
  unfold isMapPage at map
  simp only [Bool.and_eq_true, decide_eq_true_eq, beq_iff_eq] at map
  obtain ⟨low, same⟩ := map
  unfold mapPage at same
  rw [if_neg (Nat.not_lt.mpr low)] at same
  refine ⟨(page - 2) / groupSize usableSize, ?_⟩
  dsimp only at same
  split at same
  · next pending =>
    exact .inr ⟨same.symm, pending⟩
  · exact .inl same.symm

theorem ofNumber?_number (role : PageRole) : PageRole.ofNumber? role.number = some role := by
  cases role <;> rfl

end PointerMap

namespace Disk

variable {d e f : Disk}

def mapPage (d : Disk) (page : Nat) : Nat := PointerMap.mapPage d.usableSize d.pageSize page

def entry (d : Disk) (page : Nat) : Option PointerEntry :=
  if d.mapped && d.mapPage page != 0 && d.mapPage page < page then
    let data := d.image (d.mapPage page)
    let start := PointerMap.entryStart (d.mapPage page) page
    (PageRole.ofNumber? (data.get! start)).map fun role => ⟨role, data.at32 (start + 1)⟩
  else none

structure Described (d : Disk) (page : Nat) : Prop where
  low : 2 ≤ page
  has : d.Has page
  free : d.isReserved page = false

theorem Described.bounds {page : Nat} (described : d.Described page) (sound : d.Sound)
    (mapped : d.mapped = true) : 2 ≤ d.mapPage page ∧ d.mapPage page < page ∧
      d.isReserved (d.mapPage page) = true ∧
      PointerMap.entryStart (d.mapPage page) page + 5 ≤ d.usableSize := by
  have free := described.free
  have usable := sound.usable_bounds
  unfold isReserved at free
  rw [mapped, Bool.true_and, Bool.or_eq_false_iff] at free
  obtain ⟨map, here, low, less, isMap, room⟩ := PointerMap.mapPage_bounds (by omega) described.low
    free.1 (by simpa using free.2)
  have here : d.mapPage page = map := here
  rw [here]
  refine ⟨low, less, ?_, room⟩
  unfold isReserved
  rw [mapped, isMap]
  rfl

def isMap (d : Disk) (page : Nat) : Bool :=
  d.mapped && PointerMap.isMapPage d.usableSize d.pageSize page

theorem isMap_of_free {page : Nat} (free : d.isReserved page = false) : d.isMap page = false :=
  (Bool.or_eq_false_iff.mp free).1

theorem mapPage_isMap (sound : d.Sound) (mapped : d.mapped = true) {page : Nat}
    (nonzero : d.mapPage page ≠ 0) : d.isMap (d.mapPage page) = true := by
  have usable := sound.usable_bounds
  have own : PointerMap.isMapPage d.usableSize d.pageSize (d.mapPage page) = true :=
    PointerMap.mapPage_isMapPage (by omega) nonzero
  unfold isMap
  rw [mapped, own]
  rfl

theorem mapPage_isReserved (sound : d.Sound) (mapped : d.mapped = true) {page : Nat}
    (nonzero : d.mapPage page ≠ 0) : d.isReserved (d.mapPage page) = true :=
  Bool.or_eq_true_iff.mpr (.inl (mapPage_isMap sound mapped nonzero))

theorem isReserved_one (sound : d.Sound) : d.isReserved 1 = false := by
  have bounds := sound.pageSize_bounds
  unfold isReserved PointerMap.isMapPage pendingPage pendingByte
  have large : 16384 ≤ 0x40000000 / d.pageSize := (Nat.le_div_iff_mul_le (by omega)).mpr (by omega)
  simp
  omega

theorem isReserved_cases {page : Nat} (reserved : d.isReserved page = true) :
    page = pendingPage d.pageSize ∨ PointerMap.isMapPage d.usableSize d.pageSize page = true := by
  unfold isReserved at reserved
  simp only [Bool.or_eq_true, Bool.and_eq_true, beq_iff_eq] at reserved
  exact reserved.symm.imp_right And.right

theorem isReserved_row (sound : d.Sound) {page : Nat} (first : d.isReserved page = true)
    (second : d.isReserved (page + 1) = true) : d.isReserved (page + 2) = false := by
  have usable := sound.usable_bounds
  obtain ⟨g, isSize⟩ : ∃ g, g = PointerMap.groupSize d.usableSize := ⟨_, rfl⟩
  have large : 97 ≤ g := by
    have quotient : 96 ≤ d.usableSize / 5 := (Nat.le_div_iff_mul_le (by decide)).mpr (by omega)
    have same : PointerMap.groupSize d.usableSize = d.usableSize / 5 + 1 := rfl
    omega
  obtain ⟨pending, isPending⟩ : ∃ pending : Nat, pending = pendingPage d.pageSize := ⟨_, rfl⟩
  have spread : ∀ a b : Nat, a = b ∨ a * g + g ≤ b * g ∨ b * g + g ≤ a * g := by
    intro a b
    rcases Nat.lt_trichotomy a b with less | same | less
    · have scaled := Nat.mul_le_mul_right g (Nat.succ_le_of_lt less)
      rw [Nat.succ_mul] at scaled
      exact .inr (.inl scaled)
    · exact .inl same
    · have scaled := Nat.mul_le_mul_right g (Nat.succ_le_of_lt less)
      rw [Nat.succ_mul] at scaled
      exact .inr (.inr scaled)
  have cases_ : ∀ n, d.isReserved n = true → n = pending ∨
      ∃ k, n = k * g + 2 ∨ n = k * g + 3 ∧ k * g + 2 = pending := by
    intro n reserved
    rcases isReserved_cases reserved with same | map
    · exact .inl (same.trans isPending.symm)
    · rw [isSize, isPending]
      exact .inr (PointerMap.isMapPage_group map)
  rw [Bool.eq_false_iff]
  intro third
  -- two of the three are map pages, and they are less than a group apart
  rcases cases_ _ first with one | ⟨i, one⟩ <;> rcases cases_ _ second with two | ⟨j, two⟩ <;>
    rcases cases_ _ third with three | ⟨k, three⟩
  · omega
  · omega
  · omega
  · have far := spread j k
    rcases far with rfl | far <;> omega
  · omega
  · have far := spread i k
    rcases far with rfl | far <;> omega
  · have far := spread i j
    rcases far with rfl | far <;> omega
  · have far := spread i k
    rcases far with rfl | far <;> omega

theorem Alike.mapPage (alike : Alike d e) (page : Nat) : e.mapPage page = d.mapPage page := by
  unfold Disk.mapPage
  rw [alike.usableSize, alike.pageSize]

theorem Alike.isMap (alike : Alike d e) (page : Nat) : e.isMap page = d.isMap page := by
  unfold Disk.isMap
  rw [alike.mapped, alike.usableSize, alike.pageSize]

theorem entry_congr (alike : Alike d e) {page : Nat}
    (same : d.mapped = true → d.mapPage page ≠ 0 → d.mapPage page < page →
      e.image (d.mapPage page) = d.image (d.mapPage page)) : e.entry page = d.entry page := by
  unfold entry
  rw [alike.mapped, alike.mapPage]
  by_cases there : (d.mapped && d.mapPage page != 0 && decide (d.mapPage page < page)) = true
  · rw [if_pos there, if_pos there]
    simp only [Bool.and_eq_true, bne_iff_ne, decide_eq_true_eq] at there
    rw [same there.1.1 there.1.2 there.2]
  · rw [if_neg there, if_neg there]

/-- Of all pages that are not reserved only those of `P` get another content, and only those of `E`
another entry. The header changes only where it states the freelist. -/
structure Keeps (d e : Disk) (P E : Nat → Prop) : Prop where
  alike : Alike d e
  images : ∀ n, d.isReserved n = false → ¬ P n → SameImage d e n
  entries : ∀ n, d.isReserved n = false → ¬ E n → e.entry n = d.entry n
  header : ∀ i, i < 100 → i < 32 ∨ 40 ≤ i → (e.image 1).get! i = (d.image 1).get! i

structure Quiet (d e : Disk) (P E : Nat → Prop) : Prop extends Keeps d e P E where
  count : e.count = d.count
  freeHeader : ∀ i, 32 ≤ i → i < 40 → (e.image 1).get! i = (d.image 1).get! i

section Keeps

variable {P E P' E' : Nat → Prop}

theorem Keeps.refl (d : Disk) : Keeps d d P E :=
  ⟨.refl d, fun _ _ _ => .refl d _, fun _ _ _ => rfl, fun _ _ _ => rfl⟩

theorem Quiet.refl (d : Disk) : Quiet d d P E := ⟨.refl d, rfl, fun _ _ _ => rfl⟩

theorem Keeps.trans (first : Keeps d e P E) (second : Keeps e f P E) : Keeps d f P E := by
  refine ⟨first.alike.trans second.alike, fun n free away => ?_, fun n free away => ?_,
    fun i low outside => (second.header i low outside).trans (first.header i low outside)⟩
  · exact (first.images n free away).trans
      (second.images n ((first.alike.isReserved n).trans free) away)
  · exact (second.entries n ((first.alike.isReserved n).trans free) away).trans
      (first.entries n free away)

theorem Quiet.trans (first : Quiet d e P E) (second : Quiet e f P E) : Quiet d f P E :=
  ⟨first.toKeeps.trans second.toKeeps, second.count.trans first.count, fun i low high =>
    (second.freeHeader i low high).trans (first.freeHeader i low high)⟩

theorem Keeps.mono (keeps : Keeps d e P E) (pages : ∀ n, P n → P' n) (entries : ∀ n, E n → E' n) :
    Keeps d e P' E' :=
  ⟨keeps.alike, fun n free away => keeps.images n free fun inside => away (pages n inside),
    fun n free away => keeps.entries n free fun inside => away (entries n inside), keeps.header⟩

theorem Quiet.mono (quiet : Quiet d e P E) (pages : ∀ n, P n → P' n) (entries : ∀ n, E n → E' n) :
    Quiet d e P' E' :=
  ⟨quiet.toKeeps.mono pages entries, quiet.count, quiet.freeHeader⟩

theorem Quiet.headers (quiet : Quiet d e P E) {i : Nat} (low : i < 100) :
    (e.image 1).get! i = (d.image 1).get! i := by
  by_cases inside : 32 ≤ i ∧ i < 40
  · exact quiet.freeHeader i inside.1 inside.2
  · exact quiet.header i low (by omega)

theorem word_congr {offset : Nat} (same : ∀ i, offset ≤ i → i < offset + 4 →
    (e.image 1).get! i = (d.image 1).get! i) : e.word offset = d.word offset := by
  unfold word Bytes.at32
  rw [same offset (by omega) (by omega), same (offset + 1) (by omega) (by omega),
    same (offset + 2) (by omega) (by omega), same (offset + 3) (by omega) (by omega)]

theorem Keeps.word (keeps : Keeps d e P E) {offset : Nat} (inside : offset + 4 ≤ 100)
    (outside : offset + 4 ≤ 32 ∨ 40 ≤ offset) : e.word offset = d.word offset :=
  word_congr fun i low high => keeps.header i (by omega) (by omega)

theorem Quiet.word (quiet : Quiet d e P E) {offset : Nat} (inside : offset + 4 ≤ 100) :
    e.word offset = d.word offset :=
  word_congr fun i _ high => quiet.headers (by omega)

end Keeps

theorem entry_put (sound : d.Sound) {page : Nat} (n : Nat) (data : Bytes) (free : d.isReserved page = false) :
    (d.put page data).entry n = d.entry n := by
  refine entry_congr (alike_put d page data) fun mapped nonzero _ => put_other d data fun same => ?_
  have reserved := mapPage_isReserved sound mapped nonzero
  rw [same, free] at reserved
  cases reserved

theorem quiet_put (sound : d.Sound) {page : Nat} {data : Bytes} (free : d.isReserved page = false)
    (header : page = 1 → ∀ i, i < 100 → data.get! i = (d.image 1).get! i) :
    Quiet d (d.put page data) (· = page) (fun _ => False) := by
  have headers : ∀ i, i < 100 → ((d.put page data).image 1).get! i = (d.image 1).get! i := by
    intro i low
    by_cases first : page = 1
    · subst first
      rw [put_self]
      exact header rfl i low
    · rw [put_other d data (fun same => first same.symm)]
  refine ⟨⟨alike_put d page data, ?_, fun n _ _ => entry_put sound n data free,
    fun i low _ => headers i low⟩, rfl, fun i _ high => headers i (by omega)⟩
  intro n _ other i _
  rw [put_other d data other]

end Disk

namespace PointerMap

variable {s t : Store} {d : Disk}

theorem encode_at {data : Bytes} {start : Nat} {e : PointerEntry} (small : e.parent < 4294967296)
    (has : data.HasAt start (encode e)) :
    (PageRole.ofNumber? (data.get! start)).map (fun role => (⟨role, data.at32 (start + 1)⟩ : PointerEntry)) =
      some e := by
  have role := has.append_left.2 0 (Nat.lt_succ_self 0)
  have parent := Bytes.at32_of_hasAt has.append_right
  rw [Nat.add_zero] at role
  have one : (Bytes.ofList [e.role.number]).size = 1 := rfl
  have number : (Bytes.ofList [e.role.number]).get! 0 = e.role.number := rfl
  rw [one, Nat.mod_eq_of_lt small] at parent
  rw [role, number, ofNumber?_number, parent]
  rfl

theorem locate_ok {page : Nat} (shows_ : s.Shows d) (positive : d.mapPage page ≠ 0)
    (less : d.mapPage page < page) :
    locate s page = .ok (d.mapPage page, entryStart (d.mapPage page) page) := by
  have here : mapPage s.usableSize s.pageSize page = d.mapPage page := by
    rw [shows_.usableSize, shows_.pageSize]
    rfl
  unfold locate
  rw [here]
  dsimp only
  rw [if_neg]
  simp only [Bool.or_eq_true, decide_eq_true_eq, not_or]
  exact ⟨positive, Nat.not_le.mpr less⟩

/-- Recording the use of a page leaves the disk as it is if the entry is there already; otherwise it writes
the entry to the map page. -/
theorem put_step {page : Nat} (e : PointerEntry) (shows_ : s.Shows d) (low : 2 ≤ page) (has : d.Has page)
    (behind : d.mapped = true → d.mapPage page < page) :
    ∃ d' t, put page e s = .ok () t ∧ t.Shows d' ∧ s.Steady t ∧
      (d' = d ∧ (d.mapped = true →
          (d.image (d.mapPage page)).HasAt (entryStart (d.mapPage page) page) (encode e)) ∨
        d.mapped = true ∧ d' = d.put (d.mapPage page)
          ((d.image (d.mapPage page)).overwrite (entryStart (d.mapPage page) page) (encode e))) := by
  have sound := shows_.disk_sound
  unfold put
  rw [Action.get_bind, shows_.mapped]
  cases mapped : d.mapped with
  | false =>
    exact ⟨d, s, rfl, shows_, .refl s, .inl ⟨rfl, nofun⟩⟩
  | true =>
    have usable := sound.usable_bounds
    have less := behind mapped
    obtain ⟨map, isMap, lowMap, -, -, room⟩ := mapPage_room d.pageSize
      (show 5 ≤ d.usableSize by omega) low
    have isMap : d.mapPage page = map := isMap
    have located := locate_ok shows_ (by omega) less
    rw [isMap] at less located ⊢
    have room := room less
    have hasMap : d.Has map := ⟨by omega, by have high := has.2; omega⟩
    obtain ⟨u, read, showsU, steadyU⟩ := Store.readPage_run shows_ hasMap
    have size := sound.sizes map
    obtain ⟨start, isStart⟩ : ∃ start, start = entryStart map page := ⟨_, rfl⟩
    rw [← isStart] at located room ⊢
    have five : (encode e).size = 5 := rfl
    have fits : start + (encode e).size ≤ (d.image map).size := by omega
    have sliced : (d.image map).slice start (start + entrySize) =
        .ok ((d.image map).extract start (start + 5)) :=
      Bytes.slice_ok.mpr ⟨⟨Nat.le_add_right _ _, by unfold entrySize; omega⟩, rfl⟩
    rw [if_pos rfl, located, Action.lift_ok_bind]
    dsimp only
    rw [Action.bind_of_ok read, sliced, Action.lift_ok_bind]
    by_cases already : (d.image map).extract start (start + 5) = encode e
    · rw [if_neg fun different => different already]
      refine ⟨d, u, rfl, showsU, steadyU, .inl ⟨rfl, fun _ => ?_⟩⟩
      rw [← already]
      exact Bytes.hasAt_extract (Nat.le_add_right _ _) (by omega)
    · rw [if_pos already]
      obtain ⟨t, written, showsT, steadyT⟩ :=
        Store.putPage_run showsU hasMap ((Bytes.size_overwrite fits).trans size)
      exact ⟨_, t, written, showsT, steadyU.trans steadyT, .inr ⟨rfl, rfl⟩⟩

theorem put_images {page : Nat} (e : PointerEntry) (shows_ : s.Shows d) (low : 2 ≤ page) (has : d.Has page)
    (behind : d.mapped = true → d.mapPage page < page) :
    ∃ d' t, put page e s = .ok () t ∧ t.Shows d' ∧ s.Steady t ∧ Disk.Alike d d' ∧ d'.count = d.count ∧
      ∀ n, d.isMap n = false → d'.image n = d.image n := by
  obtain ⟨d', t, run, showsT, steady, outcome⟩ := put_step e shows_ low has behind
  refine ⟨d', t, run, showsT, steady, ?_⟩
  rcases outcome with ⟨rfl, -⟩ | ⟨mapped, rfl⟩
  · exact ⟨.refl d', rfl, fun _ _ => rfl⟩
  · refine ⟨Disk.alike_put _ _ _, rfl, fun n plain => d.put_other _ fun same => ?_⟩
    have usable := shows_.disk_sound.usable_bounds
    obtain ⟨map, isMap, lowMap, -⟩ := mapPage_room d.pageSize (show 5 ≤ d.usableSize by omega) low
    have isMap : d.mapPage page = map := isMap
    rw [same, Disk.mapPage_isMap shows_.disk_sound mapped (by omega)] at plain
    cases plain

theorem put_behind {page : Nat} {e : PointerEntry} (shows_ : s.Shows d) (run : put page e s = .ok () t)
    (mapped : d.mapped = true) : d.mapPage page < page := by
  unfold put at run
  rw [Action.get_bind, shows_.mapped, mapped, if_pos rfl] at run
  obtain ⟨⟨map, start⟩, located, -⟩ := Action.lift_bind_ok.mp run
  have here : mapPage s.usableSize s.pageSize page = d.mapPage page := by
    rw [shows_.usableSize, shows_.pageSize]
    rfl
  unfold locate at located
  rw [here] at located
  dsimp only at located
  split at located
  · cases located
  · rename_i there
    simp only [Bool.or_eq_true, decide_eq_true_eq, not_or] at there
    exact Nat.lt_of_not_le there.2

theorem entry_apart {d : Disk} {page n map start : Nat} (e : PointerEntry) (isStart : start = entryStart map page)
    (behind : map < page) (other : n ≠ page) (fits : start + 5 ≤ (d.image map).size) :
    (d.put map ((d.image map).overwrite start (encode e))).entry n = d.entry n := by
  have alike := Disk.alike_put d map ((d.image map).overwrite start (encode e))
  by_cases same : d.mapPage n = map
  · unfold Disk.entry
    rw [alike.mapPage, alike.mapped, same]
    by_cases shown : (d.mapped && map != 0 && decide (map < n)) = true
    · rw [if_pos shown, if_pos shown]
      have later : map < n := of_decide_eq_true (Bool.and_eq_true_iff.mp shown).2
      have five : (encode e).size = 5 := rfl
      have apart : entryStart map n + 5 ≤ start ∨ start + 5 ≤ entryStart map n := by
        rw [isStart]
        unfold entryStart entrySize
        omega
      have role : ((d.image map).overwrite start (encode e)).get! (entryStart map n) =
          (d.image map).get! (entryStart map n) := Bytes.get_overwrite_outside fits (by omega)
      have parent : ((d.image map).overwrite start (encode e)).at32 (entryStart map n + 1) =
          (d.image map).at32 (entryStart map n + 1) := Bytes.at32_overwrite fits (by omega)
      rw [Disk.put_self]
      dsimp only
      rw [role, parent]
    · rw [if_neg shown, if_neg shown]
  · exact Disk.entry_congr alike fun _ _ _ => d.put_other _ same

theorem put_run {page : Nat} {e : PointerEntry} (shows_ : s.Shows d) (described : d.Described page)
    (small : e.parent < 4294967296) :
    ∃ d' t, put page e s = .ok () t ∧ t.Shows d' ∧ s.Steady t ∧
      Disk.Quiet d d' (fun _ => False) (· = page) ∧ (d.mapped = true → d'.entry page = some e) := by
  have sound := shows_.disk_sound
  obtain ⟨d', t, run, showsT, steady, outcome⟩ := put_step e shows_ described.low described.has
    fun mapped => (described.bounds sound mapped).2.1
  refine ⟨d', t, run, showsT, steady, ?_⟩
  have there (mapped : d.mapped = true) (d' : Disk) (alike : Disk.Alike d d') : d'.entry page =
      (PageRole.ofNumber? ((d'.image (d.mapPage page)).get! (entryStart (d.mapPage page) page))).map
        fun role => ⟨role, (d'.image (d.mapPage page)).at32 (entryStart (d.mapPage page) page + 1)⟩ := by
    obtain ⟨low, less, -⟩ := described.bounds sound mapped
    unfold Disk.entry
    rw [alike.mapped, alike.mapPage, mapped, if_pos]
    simp only [Bool.true_and, Bool.and_eq_true, bne_iff_ne, decide_eq_true_eq]
    omega
  rcases outcome with ⟨rfl, entered⟩ | ⟨mapped, rfl⟩
  · refine ⟨.refl d', fun mapped => ?_⟩
    rw [there mapped d' (.refl d')]
    exact encode_at small (entered mapped)
  · obtain ⟨low, less, reserved, room⟩ := described.bounds sound mapped
    have there := there mapped
    have size := sound.sizes (d.mapPage page)
    have usable := sound.usable_bounds
    obtain ⟨start, isStart⟩ : ∃ start, start = entryStart (d.mapPage page) page := ⟨_, rfl⟩
    obtain ⟨map, isMap⟩ : ∃ map, map = d.mapPage page := ⟨_, rfl⟩
    rw [← isMap] at isStart there less low size reserved room ⊢
    rw [← isStart] at room there ⊢
    have five : (encode e).size = 5 := rfl
    have fits : start + (encode e).size ≤ (d.image map).size := by omega
    have alike := Disk.alike_put d map ((d.image map).overwrite start (encode e))
    refine ⟨⟨⟨alike, ?_, ?_, ?_⟩, rfl, ?_⟩, fun _ => ?_⟩
    · intro n free _ i _
      rw [Disk.put_other]
      rintro rfl
      rw [reserved] at free
      cases free
    · intro n free other
      exact entry_apart e isStart less other fits
    all_goals
      have notFirst : (1 : Nat) ≠ map := by omega
    · intro i _ _
      rw [Disk.put_other d _ notFirst]
    · intro i _ _
      rw [Disk.put_other d _ notFirst]
    · rw [there _ alike, Disk.put_self]
      exact encode_at small (Bytes.hasAt_overwrite fits)

theorem lookUp_run {page : Nat} {e : PointerEntry} (shows_ : s.Shows d) (described : d.Described page)
    (mapped : d.mapped = true) (entry : d.entry page = some e) :
    ∃ t, lookUp page s = .ok e t ∧ t.Shows d ∧ s.Steady t := by
  have sound := shows_.disk_sound
  obtain ⟨low, less, reserved, room⟩ := described.bounds sound mapped
  have located := locate_ok shows_ (by omega) less
  have has : d.Has (d.mapPage page) := ⟨by omega, by have high := described.has.2; omega⟩
  obtain ⟨t, read, showsT, steady⟩ := Store.readPage_run shows_ has
  refine ⟨t, ?_, showsT, steady⟩
  have size := sound.sizes (d.mapPage page)
  have usable := sound.usable_bounds
  unfold Disk.entry at entry
  rw [if_pos (by
    simp only [mapped, Bool.true_and, Bool.and_eq_true, bne_iff_ne, decide_eq_true_eq]
    omega)] at entry
  dsimp only at entry
  obtain ⟨role, isRole, same⟩ := Option.map_eq_some_iff.mp entry
  have inside : ¬ d.mapPage page > s.pageCount := by
    rw [shows_.count]
    exact Nat.not_lt.mpr has.2
  unfold lookUp
  rw [Action.get_bind, shows_.mapped, mapped]
  rw [if_neg (by decide)]
  dsimp only
  rw [located, Action.lift_ok_bind]
  dsimp only
  rw [if_neg inside]
  rw [Action.bind_of_ok read]
  rw [isRole, Bytes.u32?_of_le (by omega), Option.getD_some]
  dsimp only
  rw [same]
  exact Action.pure_run _ _

abbrev Claims := List (Nat × PointerEntry)

def Claims.pages (claims : Claims) : List Nat := claims.map Prod.fst

end PointerMap

namespace Disk

open PointerMap

variable {d e : Disk}

def Mapped (d : Disk) (claims : Claims) : Prop :=
  d.mapped = true → ∀ c ∈ claims, d.entry c.1 = some c.2

theorem mapped_append {a b : Claims} : d.Mapped (a ++ b) ↔ d.Mapped a ∧ d.Mapped b := by
  constructor
  · exact fun both => ⟨fun mapped c member => both mapped c (List.mem_append_left _ member),
      fun mapped c member => both mapped c (List.mem_append_right _ member)⟩
  · rintro ⟨first, second⟩ mapped c member
    exact (List.mem_append.mp member).elim (first mapped c) (second mapped c)

theorem mapped_cons {c : Nat × PointerEntry} {rest : Claims} : d.Mapped (c :: rest) ↔
    (d.mapped = true → d.entry c.1 = some c.2) ∧ d.Mapped rest := by
  constructor
  · exact fun both => ⟨fun mapped => both mapped c List.mem_cons_self,
      fun mapped o member => both mapped o (List.mem_cons_of_mem _ member)⟩
  · rintro ⟨first, second⟩ mapped o member
    rcases List.mem_cons.mp member with rfl | later
    · exact first mapped
    · exact second mapped o later

theorem mapped_nil : d.Mapped [] := fun _ _ => nofun

theorem Mapped.mono {a b : Claims} (all : d.Mapped b) (subset : ∀ c ∈ a, c ∈ b) : d.Mapped a :=
  fun mapped c member => all mapped c (subset c member)

theorem Mapped.congr {claims : Claims} (all : d.Mapped claims) (alike : Alike d e)
    (same : ∀ n ∈ claims.pages, e.entry n = d.entry n) : e.Mapped claims := by
  intro mapped c member
  rw [same c.1 (List.mem_map_of_mem member)]
  exact all (alike.mapped.symm.trans mapped) c member

theorem Mapped.keep {claims : Claims} {P E : Nat → Prop} (all : d.Mapped claims)
    (keeps : Keeps d e P E) (away : ∀ n ∈ claims.pages, d.isReserved n = false ∧ ¬ E n) :
    e.Mapped claims :=
  all.congr keeps.alike fun n inside => keeps.entries n (away n inside).1 (away n inside).2

end Disk

namespace PointerMap

variable {s t : Store} {d : Disk}

def putAll : Claims → StoreM Unit
  | [] => pure ()
  | (page, e) :: rest => do
    put page e
    putAll rest

theorem putAll_one (page : Nat) (e : PointerEntry) : putAll [(page, e)] = put page e :=
  bind_pure_unit

theorem putAll_append (a b : Claims) : putAll (a ++ b) = putAll a >>= fun _ => putAll b := by
  induction a with
  | nil => rfl
  | cons claim rest ih =>
    change (put claim.1 claim.2 >>= fun _ => putAll (rest ++ b)) =
      (put claim.1 claim.2 >>= fun _ => putAll rest) >>= fun _ => putAll b
    rw [ih, bind_assoc]

theorem putAll_run (claims : Claims) (shows_ : s.Shows d)
    (described : ∀ c ∈ claims, d.Described c.1 ∧ c.2.parent < 4294967296)
    (distinct : claims.pages.Nodup) :
    ∃ d' t, putAll claims s = .ok () t ∧ t.Shows d' ∧ s.Steady t ∧
      Disk.Quiet d d' (fun _ => False) (· ∈ claims.pages) ∧ d'.Mapped claims := by
  induction claims generalizing s d with
  | nil => exact ⟨d, s, rfl, shows_, .refl s, .refl d, Disk.mapped_nil⟩
  | cons claim rest ih =>
    obtain ⟨page, e⟩ := claim
    obtain ⟨own, small⟩ := described (page, e) List.mem_cons_self
    obtain ⟨fresh, distinct⟩ := List.nodup_cons.mp distinct
    obtain ⟨d1, t1, run1, shows1, steady1, quiet1, entry1⟩ := put_run shows_ own small
    obtain ⟨d2, t2, run2, shows2, steady2, quiet2, entries2⟩ := ih shows1 (fun c member => by
      obtain ⟨⟨low, has, free⟩, smallC⟩ := described c (List.mem_cons_of_mem _ member)
      refine ⟨⟨low, ⟨has.1, ?_⟩, ?_⟩, smallC⟩
      · rw [quiet1.count]
        exact has.2
      · rw [quiet1.alike.isReserved]
        exact free) distinct
    refine ⟨d2, t2, ?_, shows2, steady1.trans steady2, ?_, ?_⟩
    · unfold putAll
      rw [Action.bind_of_ok run1]
      exact run2
    · refine (quiet1.mono (fun _ h => h) ?_).trans (quiet2.mono (fun _ h => h) ?_)
      · rintro n rfl
        exact List.mem_cons_self
      · intro n member
        exact List.mem_cons_of_mem _ member
    · refine Disk.mapped_cons.mpr ⟨fun mapped => ?_, entries2⟩
      have kept := quiet2.entries page ((quiet1.alike.isReserved page).trans own.free) fresh
      rw [kept]
      exact entry1 (quiet1.alike.mapped.symm.trans (quiet2.alike.mapped.symm.trans mapped))

def slotClaims (number : Nat) (slot : Slot) : Claims :=
  (slot.stub.head.map fun head => (head, ⟨.overflowHead, number⟩)).toList ++
    (slot.left.map fun child => (child, ⟨.treeNode, number⟩)).toList

def pageClaims (number : Nat) (slots : List Slot) (right : Option PageNo) : Claims :=
  slots.flatMap (slotClaims number) ++
    (right.map fun child => (child, ⟨.treeNode, number⟩)).toList

theorem forM_putAll (f : Nat → StoreM PUnit) (parts : List Claims) (start : Nat)
    (runs : ∀ i (h : i < parts.length), f (start + i) = putAll parts[i]) :
    (List.range' start parts.length).forM f = putAll parts.flatten := by
  induction parts generalizing start with
  | nil => rfl
  | cons part rest ih =>
    have first : f start = putAll part := runs 0 (Nat.succ_pos _)
    have later := ih (start + 1) fun i h => by
      have run := runs (i + 1) (Nat.succ_lt_succ h)
      rw [show start + (i + 1) = start + 1 + i by omega] at run
      exact run
    change (f start >>= fun _ => (List.range' (start + 1) rest.length).forM f) = _
    rw [first, later, List.flatten_cons, putAll_append]

theorem putAll_unmapped (claims : Claims) (unmapped : s.vacuum.isEnabled = false) :
    putAll claims s = .ok () s := by
  induction claims with
  | nil => rfl
  | cons claim rest ih =>
    have run : put claim.1 claim.2 s = .ok () s := by
      unfold put
      rw [Action.get_bind, unmapped]
      rfl
    change (put claim.1 claim.2 >>= fun _ => putAll rest) s = _
    rw [Action.bind_of_ok run]
    exact ih

section Page

variable {p : Page} {slots : List Slot} {right : Option PageNo}

theorem putForCell_eq (bears : p.Bears slots right) (clear : p.parked = []) {i : Nat}
    (h : i < slots.length) (nonzero : slots[i].left ≠ some 0) :
    putForCell p i = putAll (slotClaims p.number slots[i]) := by
  obtain ⟨info, run, left, -, -, chain, -, -⟩ := bears.info clear h
  have leaf : slots[i].left.isSome = !p.isLeaf := bears.left_isSome (List.getElem_mem h)
  have child : (if (!p.isLeaf) = true then
        (liftM (p.child i) >>= fun child => put child ⟨.treeNode, p.number⟩)
      else (pure () : StoreM Unit)) =
      putAll (slots[i].left.map fun child => (child, ⟨.treeNode, p.number⟩)).toList := by
    cases there : slots[i].left with
    | none =>
      rw [there] at leaf
      rw [← leaf]
      rfl
    | some child =>
      rw [there] at leaf nonzero
      have found : p.child i = .ok child := by
        refine (bears.child_ok clear).mpr ⟨fun zero => nonzero (congrArg some zero), ?_⟩
        rw [List.getElem?_append_left (by rw [List.length_map]; exact h), List.getElem?_map,
          List.getElem?_eq_getElem h, Option.map_some, there]
      rw [← leaf, found]
      exact (putAll_one child _).symm
  refine funext fun s => ?_
  unfold putForCell slotClaims
  rw [run, Action.lift_ok_bind, chain, putAll_append, ← child]
  cases slots[i].stub.head with
  | none => rfl
  | some head =>
    change _ = (putAll [(head, _)] >>= _) s
    rw [putAll_one]

theorem putForPage_eq (bears : p.Bears slots right) (clear : p.parked = [])
    (nonzero : ∀ slot ∈ slots, slot.left ≠ some 0) (last : right ≠ some 0) (s : Store) :
    putForPage p s = putAll (pageClaims p.number slots right) s := by
  have leaf := bears.right_isSome
  have count := bears.count clear
  have cells : (List.range p.cellCount).forM (putForCell p) =
      putAll (slots.flatMap (slotClaims p.number)) := by
    have all := forM_putAll (putForCell p) (slots.map (slotClaims p.number)) 0 fun i h => by
      rw [List.length_map] at h
      rw [Nat.zero_add, putForCell_eq bears clear h (nonzero _ (List.getElem_mem h)),
        List.getElem_map]
    rw [List.length_map] at all
    rw [count, List.range_eq_range', all]
    rfl
  have child : (if (!p.isLeaf) = true then
        (liftM (p.child p.cellCount) >>= fun child => put child ⟨.treeNode, p.number⟩)
      else (pure () : StoreM Unit)) =
      putAll (right.map fun child => (child, ⟨.treeNode, p.number⟩)).toList := by
    cases right with
    | none =>
      rw [← leaf]
      rfl
    | some child =>
      have found : p.child p.cellCount = .ok child := by
        refine (bears.child_ok clear).mpr ⟨fun zero => last (congrArg some zero), ?_⟩
        rw [count, List.getElem?_append_right (Nat.le_of_eq (List.length_map ..)),
          List.length_map, Nat.sub_self]
        rfl
      rw [← leaf, found]
      exact (putAll_one child _).symm
  unfold putForPage pageClaims
  rw [Action.get_bind, putAll_append, ← cells, ← child]
  cases enabled : s.vacuum.isEnabled with
  | true => rfl
  | false =>
    rw [cells, child, ← putAll_append, putAll_unmapped _ enabled]
    rfl

end Page

end PointerMap

end TreeFile
