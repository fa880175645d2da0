import TreeFile.Integrity
import TreeFile.Proofs.Freelist.Books

/-!
Checks that find nothing. A check never takes back what it has found, so if nothing is found at its
end, every step of it found what it looked for.
-/

namespace TreeFile

namespace PointerMap

theorem lookUp_ok {s t : Store} {d : Disk} {page : Nat} {e : PointerEntry} (shows_ : s.Shows d)
    (described : d.Described page) (run : lookUp page s = .ok e t) : d.entry page = some e ∧ t.Shows d := by
  have sound := shows_.disk_sound
  unfold lookUp at run
  rw [Action.get_bind] at run
  split at run
  · exact absurd run Action.throw_bind_ok
  rename_i enabled
  rw [shows_.mapped] at enabled
  have mapped : d.mapped = true := by simpa using enabled
  obtain ⟨low, less, -, room⟩ := described.bounds sound mapped
  dsimp only at run
  rw [locate_ok shows_ (by omega) less, Action.lift_ok_bind] at run
  dsimp only at run
  by_cases past : d.mapPage page > s.pageCount
  · rw [if_pos past] at run
    exact absurd run Action.throw_bind_ok
  rw [if_neg past] at run
  obtain ⟨data, u, read, run⟩ := Action.bind_ok.mp run
  obtain ⟨-, rfl, showsU, -⟩ := Store.readPage_ok shows_ read
  have size := sound.sizes (d.mapPage page)
  have usable := sound.usable_bounds
  rw [Bytes.u32?_of_le (by omega), Option.getD_some] at run
  cases isRole : PageRole.ofNumber? ((d.image (d.mapPage page)).get! (entryStart (d.mapPage page) page)) with
  | none =>
    rw [isRole] at run
    exact absurd run Action.throw_ok
  | some role =>
    rw [isRole] at run
    obtain ⟨rfl, rfl⟩ := Action.pure_ok.mp run
    refine ⟨?_, showsU⟩
    unfold Disk.entry
    rw [if_pos (by
      simp only [mapped, Bool.true_and, Bool.and_eq_true, bne_iff_ne, decide_eq_true_eq]
      omega)]
    dsimp only
    rw [isRole]
    rfl

end PointerMap

namespace BitSet

theorem contains_set {s : BitSet} {i : Nat} (inside : i < s.size) (j : Nat) :
    (s.set i true).contains j = true ↔ j = i ∨ s.contains j = true := by
  unfold contains set
  simp only [Array.getD_eq_getD_getElem?, Array.getElem?_setIfInBounds]
  by_cases same : i = j
  · subst same
    simp [show i < s.bits.size from inside]
  · simp [same, Ne.symm same]

@[simp] theorem size_empty (n : Nat) : (empty n).size = n := Array.size_replicate

@[simp] theorem contains_empty (n i : Nat) : (empty n).contains i = false := by
  unfold contains empty
  simp only [Array.getD_eq_getD_getElem?, Array.getElem?_replicate]
  split <;> rfl

@[simp] theorem size_set (s : BitSet) (i : Nat) (value : Bool) : (s.set i value).size = s.size := by
  unfold size set
  simp

end BitSet

namespace Integrity

def Along {α : Type} (step : α → Check → Check → Prop) : List α → Check → Check → Prop
  | [], c, t => t = c
  | a :: rest, c, t => ∃ u, step a c u ∧ Along step rest u t

theorem Along.of_still {α : Type} {still : α → Prop} {list : List α} {c t : Check}
    (along : Along (fun a c t => t = c ∧ still a) list c t) : t = c ∧ ∀ a ∈ list, still a := by
  induction list generalizing c with
  | nil => exact ⟨along, fun _ => nofun⟩
  | cons a rest ih =>
    obtain ⟨_, ⟨rfl, first⟩, along⟩ := along
    obtain ⟨same, others⟩ := ih along
    exact ⟨same, List.forall_mem_cons.mpr ⟨first, others⟩⟩

/-- If a run of `act` from `c` ends without findings, there were none before it, and it ends like this. -/
def Passes {α : Type} (act : CheckM α) (c : Check) (good : α → Check → Prop) : Prop :=
  ∀ a t, act c = .ok a t → t.errors = [] → c.errors = [] ∧ good a t

namespace Passes

variable {α β : Type} {c : Check} {act : CheckM α} {f : α → CheckM β} {good good' : α → Check → Prop}

theorem imp (passes : Passes act c good) (weaker : ∀ a t, t.errors = [] → good a t → good' a t) :
    Passes act c good' := by
  intro a t run none
  obtain ⟨before, holds⟩ := passes a t run none
  exact ⟨before, weaker a t none holds⟩

theorem pure {a : α} (holds : c.errors = [] → good a c) : Passes (pure a) c good := by
  intro b t run none
  obtain ⟨rfl, rfl⟩ := Action.pure_ok.mp run
  exact ⟨none, holds none⟩

theorem bind {mid : α → Check → Prop} {last : β → Check → Prop} (first : Passes act c mid)
    (next : ∀ a t, Passes (f a) t fun b u => mid a t → last b u) : Passes (act >>= f) c last := by
  intro b u run none
  obtain ⟨a, t, run, later⟩ := Action.bind_ok.mp run
  obtain ⟨noneT, holds⟩ := next a t b u later none
  obtain ⟨noneC, before⟩ := first a t run noneT
  exact ⟨noneC, holds before⟩

theorem get {f : Check → CheckM β} {last : β → Check → Prop} (next : Passes (f c) c last) :
    Passes (MonadState.get >>= f) c last := next

theorem full_errors (full : c.isFull = true) : c.errors ≠ [] := by
  unfold Check.isFull at full
  simp only [Bool.and_eq_true, decide_eq_true_eq] at full
  intro none
  rw [none] at full
  have length := full.2
  simp only [List.length_nil, ge_iff_le, Nat.le_zero] at length
  exact full.1 length

theorem report (finding : String) {good : Unit → Check → Prop} : Passes (report finding) c good := by
  intro a t run none
  unfold Integrity.report at run
  cases run
  dsimp only at none
  split at none
  · exact absurd none (full_errors ‹_›)
  · cases none

theorem report_bind (finding : String) {f : Unit → CheckM β} {last : β → Check → Prop}
    (next : ∀ t, Passes (f ()) t fun _ _ => True) : Passes (Integrity.report finding >>= f) c last := by
  have never : Passes (Integrity.report finding) c fun _ _ => False := report finding
  exact never.bind fun _ t => (next t).imp fun _ _ _ _ => False.elim

theorem full {a : α} (next : Passes act c good) :
    Passes (isFull >>= fun full => if full = true then Pure.pure a else act) c good := by
  change Passes (if c.isFull = true then Pure.pure a else act) c good
  split
  · exact pure fun none => absurd none (full_errors ‹_›)
  · exact next

theorem attempt {act : StoreM α} {f : Except Error α → CheckM β} {last : β → Check → Prop}
    (fails : ∀ e s, act c.store = .error e s → Passes (f (.error e)) { c with store := s } last)
    (next : ∀ a s, act c.store = .ok a s → Passes (f (.ok a)) { c with store := s } last) :
    Passes (attempt act >>= f) c last := by
  intro b u run none
  cases done : act c.store with
  | ok a s =>
    have inner : onStore act c = .ok a { c with store := s } := Action.zoom_run_ok done
    have outer : Integrity.attempt act c = .ok (.ok a) { c with store := s } := Action.attempt_run_ok inner
    rw [Action.bind_of_ok outer] at run
    exact next a s done b u run none
  | error e s =>
    have inner : onStore act c = .error e { c with store := s } := by
      simp only [onStore, Action.zoom, done]
    have outer : Integrity.attempt act c = .ok (.error e) { c with store := s } :=
      Action.attempt_run_error inner
    rw [Action.bind_of_ok outer] at run
    exact fails e s done b u run none

theorem modify {g : Check → Check} {f : PUnit → CheckM β} {last : β → Check → Prop}
    (same : (g c).errors = c.errors) (next : Passes (f ⟨⟩) (g c) last) :
    Passes (MonadState.modifyGet (fun c => (⟨⟩, g c)) >>= f) c last := by
  intro b u run none
  rw [← same]
  exact next b u run none

theorem forM {f : α → CheckM PUnit} {step : α → Check → Check → Prop}
    (each : ∀ a c, Passes (f a) c fun _ t => step a c t) (list : List α) (c : Check) :
    Passes (list.forM f) c fun _ t => Along step list c t := by
  induction list generalizing c with
  | nil => exact .pure fun _ => rfl
  | cons a rest ih =>
    refine (each a c).bind fun _ u => (ih u).imp ?_
    exact fun _ t _ later first => ⟨u, first, later⟩

theorem onStore {act : StoreM α} {last : β → Check → Prop}
    (next : ∀ a s, act c.store = .ok a s → Passes (f a) { c with store := s } last) :
    Passes (onStore act >>= f) c last := by
  intro b u run none
  obtain ⟨a, t, inner, run⟩ := Action.bind_ok.mp run
  obtain ⟨s, done, rfl⟩ := Action.zoom_ok.mp inner
  exact next a s done b u run none

end Passes

structure Tracks (d : Disk) (seen : List PageNo) (c : Check) : Prop where
  shows : c.store.Shows d
  count : c.pageCount = d.count
  wide : c.reached.size = d.count + 1
  reached : ∀ n, c.reached.contains n = true ↔ n ∈ seen ∨ 2 ≤ n ∧ d.Has n ∧ d.isReserved n = true
  once : seen.Nodup
  known : ∀ n ∈ seen, d.Has n ∧ d.isReserved n = false

namespace Tracks

variable {d : Disk} {seen others : List PageNo} {c : Check}

theorem perm (tracks : Tracks d seen c) (same : seen.Perm others) : Tracks d others c :=
  ⟨tracks.shows, tracks.count, tracks.wide, fun n => (tracks.reached n).trans (or_congr_left same.mem_iff),
    same.nodup tracks.once, fun n member => tracks.known n (same.mem_iff.mpr member)⟩

theorem withStore (tracks : Tracks d seen c) {s : Store} (shows_ : s.Shows d) :
    Tracks d seen { c with store := s } :=
  ⟨shows_, tracks.count, tracks.wide, tracks.reached, tracks.once, tracks.known⟩

theorem described (tracks : Tracks d seen c) {page : Nat} (member : page ∈ seen) (other : page ≠ 1) :
    d.Described page := by
  obtain ⟨has, free⟩ := tracks.known page member
  exact ⟨Nat.lt_of_le_of_ne has.1 (Ne.symm other), has, free⟩

end Tracks

variable {c : Check}

theorem mark_passes (page : PageNo) (what : String) : Passes (mark page what) c fun fresh t =>
    fresh = true ∧ ∀ d seen, Tracks d seen c → Tracks d (page :: seen) t := by
  unfold mark
  refine .get ?_
  by_cases outside : (decide (page = 0) || decide (page > c.pageCount)) = true
  · rw [if_pos outside]
    exact .report_bind _ fun t => .pure fun _ => trivial
  rw [if_neg outside]
  simp only [Bool.or_eq_true, decide_eq_true_eq, not_or] at outside
  unfold BitSet.testAndSet
  by_cases inside : page < c.reached.size
  swap
  · rw [if_neg inside]
    exact .modify rfl (.report_bind _ fun t => .pure fun _ => trivial)
  rw [if_pos inside]
  cases already : c.reached.contains page with
  | true => exact .modify rfl (.report_bind _ fun t => .pure fun _ => trivial)
  | false =>
    refine fun b t run none => ?_
    cases run
    refine ⟨none, rfl, fun d seen tracks => ?_⟩
    have fresh : ¬ (page ∈ seen ∨ 2 ≤ page ∧ d.Has page ∧ d.isReserved page = true) := by
      rw [← tracks.reached, already]
      exact Bool.false_ne_true
    have has : d.Has page := by
      have high := outside.2
      rw [tracks.count] at high
      exact ⟨Nat.pos_iff_ne_zero.mpr outside.1, Nat.le_of_not_lt high⟩
    refine ⟨tracks.shows, tracks.count, ?_, ?_, ?_, ?_⟩
    · rw [BitSet.size_set]
      exact tracks.wide
    · intro n
      rw [BitSet.contains_set inside, tracks.reached, List.mem_cons, or_assoc]
    · exact List.nodup_cons.mpr ⟨fun member => fresh (.inl member), tracks.once⟩
    · intro n member
      rcases List.mem_cons.mp member with rfl | old
      · refine ⟨has, Bool.eq_false_iff.mpr fun reserved => ?_⟩
        by_cases first : n = 1
        · rw [first, Disk.isReserved_one tracks.shows.disk_sound] at reserved
          cases reserved
        · exact fresh (.inr ⟨Nat.lt_of_le_of_ne has.1 (Ne.symm first), has, reserved⟩)
      · exact tracks.known n old

theorem checkEntry_passes (page : PageNo) (e : PointerEntry) : Passes (checkEntry page e) c fun _ t =>
    ∀ d seen, Tracks d seen c → page ∈ seen →
      Tracks d seen t ∧ (page ≠ 1 → d.mapped = true → d.entry page = some e) := by
  unfold checkEntry
  refine .get ?_
  by_cases looks : (c.store.vacuum.isEnabled && decide (page ≠ 1)) = true
  · rw [if_pos looks]
    refine .attempt (fun e s _ => .report _) fun found s run => ?_
    dsimp only
    by_cases same : found = e
    · rw [if_neg (not_not.mpr same)]
      refine .pure fun _ d seen tracks member => ?_
      simp only [Bool.and_eq_true, decide_eq_true_eq] at looks
      obtain ⟨entry, showsS⟩ := PointerMap.lookUp_ok tracks.shows (tracks.described member looks.2) run
      exact ⟨tracks.withStore showsS, fun _ _ => same ▸ entry⟩
    · rw [if_pos same]
      exact .report _
  · rw [if_neg looks]
    refine .pure fun _ d seen tracks _ => ⟨tracks, fun other mapped => ?_⟩
    simp only [tracks.shows.mapped, mapped, Bool.true_and, decide_eq_true_eq] at looks
    exact absurd other looks

end Integrity

end TreeFile
