import TreeFile.Proofs.Integrity.File
import TreeFile.Proofs.Store.CalmRuns

/-!
The freelist as a set of pages. Taking a page, giving one back and removing one in particular do to the
pages that a walk finds what they would do to a set, and leave all others alone.
-/

namespace TreeFile

theorem Bytes.resize_empty (n : Nat) : resize .empty n = .zeros n := by
  refine ext_get (by rw [size_resize, size_zeros]) fun i _ => ?_
  have none : ByteArray.empty.get! i = 0 := get_of_ge (Nat.zero_le i)
  rw [get_resize, get_zeros, none]
  split <;> rfl

namespace Freelist

open Disk FileHeader

variable {s t : Store} {d e : Disk} {trunks : List Trunk} {f g : FreePages} {page : PageNo}

/-- The walk over the freelist ends with `f`, and the file header counts as many pages. None of them is a page
of the pointer map. -/
structure Finds (s : Store) (f : FreePages) : Prop where
  walked : walk.run' s = some f
  counted : count.run' s = some f.size
  plain : ∀ n ∈ f.pages, s.isMapPage n = false

def found (trunks : List Trunk) : FreePages := ⟨trunks.map Trunk.page, trunks.flatMap Trunk.leaves⟩

theorem found_perm (trunks : List Trunk) : (found trunks).pages.Perm (Trunk.allPages trunks) :=
  Trunk.pages_perm trunks

theorem found_size (trunks : List Trunk) : (found trunks).size = (Trunk.allPages trunks).length := by
  rw [← (found_perm trunks).length_eq]
  exact (List.length_append).symm

theorem mem_found {n : PageNo} : n ∈ (found trunks).pages ↔ n ∈ Trunk.allPages trunks :=
  (found_perm trunks).mem_iff

theorem Finds.shelf (shows_ : s.Shows d) (finds : Finds s f) : ∃ trunks, d.Shelf trunks ∧ f = found trunks := by
  obtain ⟨t, walked⟩ := Action.run_some finds.walked
  obtain ⟨u, counted⟩ := Action.run_some finds.counted
  obtain ⟨trunks, has, first, row, rfl, -, met⟩ := walk_ok shows_ walked
  obtain ⟨v, count, -⟩ := count_run shows_ has
  have size : d.word freeCountOffset = (found trunks).size := (EStateM.Result.ok.inj (count.symm.trans counted)).1
  refine ⟨trunks, ⟨has, met.once, fun n free => (met.each n free).1, fun n free => (met.each n free).2,
    fun n free => ?_, first, size.trans (found_size trunks), row⟩, rfl⟩
  have plain := finds.plain n (mem_found.mpr free)
  rw [← shows_.same]
  exact plain

theorem finds_of_shelf (shows_ : s.Shows d) (shelf : d.Shelf trunks) : Finds s (found trunks) := by
  obtain ⟨t, walked, -⟩ := walk_shelf shows_ shelf
  obtain ⟨u, counted, -⟩ := count_run shows_ shelf.one
  refine ⟨Action.run'_of_ok walked, ?_, fun n inside => ?_⟩
  · rw [found_size, ← shelf.count]
    exact Action.run'_of_ok counted
  · have plain := shelf.plain n (mem_found.mp inside)
    rw [← shows_.same] at plain
    exact plain

/-- The freelist has become `g`. All pages but `page`, those of the former freelist `f`, those of the pointer map,
and page 1 where it states the freelist, are as they were. -/
structure Turned (d : Disk) (f : FreePages) (page : PageNo) (t : Store) (e : Disk) (g : FreePages) : Prop where
  shows_ : t.Shows e
  finds : Finds t g
  once : g.pages.Nodup
  alike : Alike d e
  images : ∀ n, n ≠ 1 → n ≠ page → n ∉ f.pages → d.isMap n = false → e.image n = d.image n
  header : ∀ i, i < 32 ∨ 40 ≤ i → (e.image 1).get! i = (d.image 1).get! i

theorem turned_of_edits {fewer : List Trunk} (showsT : t.Shows e) (shelf : e.Shelf fewer)
    (edits : Edits d e (· ∈ Trunk.allPages trunks)) : Turned d (found trunks) page t e (found fewer) :=
  ⟨showsT, finds_of_shelf showsT shelf, (found_perm fewer).symm.nodup shelf.once, edits.alike,
    fun n first _ away _ => edits.images n first fun inside => away (mem_found.mpr inside), edits.header⟩

theorem mem_of_perm_cons {old fewer : List PageNo} (once : old.Nodup) (perm : old.Perm (page :: fewer)) (n : PageNo) :
    n ∈ fewer ↔ n ∈ old ∧ n ≠ page := by
  have fresh := (List.nodup_cons.mp (perm.nodup once)).1
  rw [perm.mem_iff, List.mem_cons]
  constructor
  · exact fun inside => ⟨.inr inside, fun same => fresh (same ▸ inside)⟩
  · rintro ⟨rfl | inside, other⟩
    · exact absurd rfl other
    · exact inside

theorem allocate_turns (shows_ : s.Shows d) (shelf : d.Shelf trunks) (run : allocate s = .ok page t) :
    ∃ e g, Turned d (found trunks) page t e g ∧ e.image page = .zeros d.pageSize ∧
      (∀ n, n ∈ g.pages ↔ n ∈ (found trunks).pages ∧ n ≠ page) ∧
      (page ∈ (found trunks).pages ∧ e.count = d.count ∨ (found trunks).pages = [] ∧ d.count < page ∧
        e.count = page ∧ d.isReserved page = false ∧ ∀ n, d.count < n → n < page → d.isReserved n = true) := by
  obtain ⟨e, fewer, showsT, -, shelfE, source⟩ := allocate_shelf shows_ shelf run
  refine ⟨e, found fewer, ?_⟩
  cases source with
  | taken edits perm blank =>
    refine ⟨turned_of_edits showsT shelfE edits, blank.trans (Bytes.resize_empty _), fun n => ?_,
      .inl ⟨mem_found.mpr (perm.mem_iff.mpr List.mem_cons_self), edits.count⟩⟩
    rw [mem_found, mem_found]
    exact mem_of_perm_cons shelf.once perm n
  | new longer same none_ free between =>
    subst same none_
    refine ⟨⟨showsT, finds_of_shelf showsT shelfE, List.nodup_nil, ⟨rfl, rfl, rfl, rfl, rfl⟩, fun _ _ _ _ _ => rfl,
      fun _ _ => rfl⟩, shows_.blank longer, fun n => ?_, .inr ⟨rfl, longer, rfl, free, between⟩⟩
    exact ⟨nofun, fun inside => nomatch inside.1⟩

theorem free_turns (shows_ : s.Shows d) (shelf : d.Shelf trunks) (low : 2 ≤ page) (has : d.Has page)
    (unreserved : d.isReserved page = false) (fresh : page ∉ (found trunks).pages) :
    ∃ t e g, free page s = .ok () t ∧ Turned d (found trunks) page t e g ∧ e.count = d.count ∧
      ∀ n, n ∈ g.pages ↔ n = page ∨ n ∈ (found trunks).pages := by
  have sound := shows_.disk_sound
  obtain ⟨e1, t1, e, t, more, run, showsT, -, shelfE, perm, edits, -, -, -, alike, count, images⟩ :=
    free_shelf shows_ shelf low has (isMap_of_free unreserved)
      (fun mapped => (Described.bounds ⟨low, has, unreserved⟩ sound mapped).2.1) fun inside => fresh (mem_found.mpr inside)
  refine ⟨t, e, found more, run, ⟨showsT, finds_of_shelf showsT shelfE, (found_perm more).symm.nodup shelfE.once,
    edits.alike.trans alike, fun n first other away plain => ?_, fun i outside => ?_⟩, count.trans edits.count,
    fun n => ?_⟩
  · rw [images n plain]
    exact edits.images n first fun changed => changed.elim other fun inside => away (mem_found.mpr inside)
  · rw [images 1 (isMap_of_free (isReserved_one sound))]
    exact edits.header i outside
  · rw [mem_found, mem_found, ← perm.mem_iff, List.mem_cons]

theorem remove_turns (page : PageNo) (shows_ : s.Shows d) (shelf : d.Shelf trunks) :
    ∃ t e g, remove page s = .ok (decide (page ∈ (found trunks).pages)) t ∧ Turned d (found trunks) page t e g ∧
      e.count = d.count ∧ ∀ n, n ∈ g.pages ↔ n ∈ (found trunks).pages ∧ n ≠ page := by
  rcases remove_shelf page shows_ shelf with ⟨inside, e, t, run, showsT, -, removed⟩ | ⟨outside, t, run, showsT, -⟩
  · obtain ⟨fewer, shelfE, perm⟩ := removed.rest
    refine ⟨t, e, found fewer, ?_, turned_of_edits showsT shelfE removed.edits, removed.edits.count, fun n => ?_⟩
    · rw [decide_eq_true (mem_found.mpr inside)]
      exact run
    · rw [mem_found, mem_found]
      exact mem_of_perm_cons shelf.once perm n
  · have away : page ∉ (found trunks).pages := fun inside => outside (mem_found.mp inside)
    refine ⟨t, d, found trunks, ?_, turned_of_edits showsT shelf (.refl d), rfl, fun n => ?_⟩
    · rw [decide_eq_false away]
      exact run
    · exact ⟨fun inside => ⟨inside, fun same => away (same ▸ inside)⟩, And.left⟩

/-- On a store whose cache agrees with its file the freelist is a set of pages. What is allocated comes from the set,
or is new if the set is empty; a page that is given back comes into it, and one that is removed leaves it. -/
theorem changes_as_set (shows_ : s.calm.Shows d) (finds : Finds s.calm f) :
    (∀ page t, allocate s = .ok page t → ∃ e g, Turned d f page t.calm e g ∧ e.image page = .zeros d.pageSize ∧
      (∀ n, n ∈ g.pages ↔ n ∈ f.pages ∧ n ≠ page) ∧
      (page ∈ f.pages ∧ e.count = d.count ∨ f.pages = [] ∧ d.count < page ∧ e.count = page ∧
        d.isReserved page = false ∧ ∀ n, d.count < n → n < page → d.isReserved n = true)) ∧
    (∀ page, 2 ≤ page → d.Has page → d.isReserved page = false → page ∉ f.pages →
      (free page).run' s.calm = some () ∧ ∀ t, free page s = .ok () t → ∃ e g, Turned d f page t.calm e g ∧
        e.count = d.count ∧ ∀ n, n ∈ g.pages ↔ n = page ∨ n ∈ f.pages) ∧
    ∀ page, (remove page).run' s.calm = some (decide (page ∈ f.pages)) ∧ ∀ answer t, remove page s = .ok answer t →
      answer = decide (page ∈ f.pages) ∧ ∃ e g, Turned d f page t.calm e g ∧ e.count = d.count ∧
        ∀ n, n ∈ g.pages ↔ n ∈ f.pages ∧ n ≠ page := by
  obtain ⟨trunks, shelf, rfl⟩ := finds.shelf shows_
  refine ⟨fun page t run => allocate_turns shows_ shelf (Calms.run run), fun page low has unreserved fresh => ?_,
    fun page => ?_⟩
  · obtain ⟨u, e, g, run, turned⟩ := free_turns shows_ shelf low has unreserved fresh
    refine ⟨Action.run'_of_ok run, fun t ran => ?_⟩
    cases run.symm.trans (Calms.run ran)
    exact ⟨e, g, turned⟩
  · obtain ⟨u, e, g, run, turned⟩ := remove_turns page shows_ shelf
    refine ⟨Action.run'_of_ok run, fun answer t ran => ?_⟩
    cases run.symm.trans (Calms.run ran)
    exact ⟨rfl, e, g, turned⟩

/-- The freelist of `stocked` is a trunk with one leaf, and the trunk is removed. -/
theorem changes_as_set_stocked : Finds Integrity.stocked.calm ⟨[4], [5]⟩ ∧
    ∃ t, remove 4 Integrity.stocked = .ok true t ∧ ∃ e g, Turned Integrity.stocked.disk ⟨[4], [5]⟩ 4 t.calm e g ∧
      e.count = 5 ∧ ∀ n, n ∈ g.pages ↔ n ∈ [4, 5] ∧ n ≠ 4 := by
  have calm : Integrity.stocked.calm = Integrity.stocked := Store.calm_self rfl
  have shows_ : Integrity.stocked.calm.Shows Integrity.stocked.disk := calm ▸ Integrity.stocked_shows
  have finds : Finds Integrity.stocked.calm ⟨[4], [5]⟩ := by
    rw [calm]
    exact ⟨by decide +kernel, by decide +kernel, by decide +kernel⟩
  obtain ⟨-, -, removes⟩ := changes_as_set shows_ finds
  obtain ⟨removed, turns⟩ := removes 4
  rw [calm] at removed
  obtain ⟨t, run⟩ := Action.run_some removed
  obtain ⟨-, e, g, turned⟩ := turns _ t run
  exact ⟨finds, t, run, e, g, turned⟩

end Freelist

end TreeFile
