import TreeFile.Proofs.Database.Calls
import TreeFile.Proofs.Header.FirstPageEnds

/-!
The words of the header that state the largest root and the vacuum mode. What is known of them stays
known through all calls but those that set them, and these leave what they set.
-/

namespace TreeFile

open FileHeader (Sized Lasting)
open Action (Ends)
open Pager (Copies Knows)

namespace FileHeader

/-- A page 1 of this size that has a header, with words for the largest root and for the vacuum mode
that are like this. -/
structure Says (size : Nat) (K : Nat → Nat → Prop) (d : Bytes) : Prop where
  sized : d.size = size
  long : fileHeaderSize ≤ size
  marked : d.get! 4 = magic.get! 4
  words : K (d.at32 largestRootOffset) (d.at32 incrementalVacuumOffset)

variable {size offset value : Nat} {K K' : Nat → Nat → Prop} {d : Bytes}

theorem Says.imp (stated : Says size K d) (imp : ∀ root mode, K root mode → K' root mode) : Says size K' d :=
  ⟨stated.sized, stated.long, stated.marked, imp _ _ stated.words⟩

instance : Lasting size (Says size K) where
  sized := Says.sized
  long := Says.long
  alike := by
    intro d e sized alike stated
    refine ⟨sized, stated.long, (alike.front 4 (by decide) (by decide)).trans stated.marked, ?_⟩
    rw [alike.back.at32 (by decide) (by decide), alike.back.at32 (by decide) (by decide)]
    exact stated.words

theorem Says.inside (stated : Says size K d) (inside : offset + 4 ≤ fileHeaderSize) (value : Nat) :
    offset + (Bytes.ofNat32 value).size ≤ d.size :=
  Nat.le_trans inside (stated.sized ▸ stated.long)

theorem Says.put (stated : Says size K d) (inside : offset + 4 ≤ fileHeaderSize) (mark : 4 < offset)
    (root : offset + 4 ≤ largestRootOffset ∨ largestRootOffset + 4 ≤ offset)
    (mode : offset + 4 ≤ incrementalVacuumOffset ∨ incrementalVacuumOffset + 4 ≤ offset) (value : Nat) :
    Says size K (d.overwrite offset (Bytes.ofNat32 value)) := by
  have fits := stated.inside inside value
  refine ⟨(Bytes.size_overwrite fits).trans stated.sized, stated.long, ?_, ?_⟩
  · rw [Bytes.get_overwrite_outside fits (.inl mark)]
    exact stated.marked
  · rw [Bytes.at32_overwrite fits root.symm, Bytes.at32_overwrite fits mode.symm]
    exact stated.words

theorem Says.putRoot (stated : Says size K d) (bound : value < 4294967296) :
    Says size (fun root mode => root = value ∧ ∃ old, K old mode)
      (d.overwrite largestRootOffset (Bytes.ofNat32 value)) := by
  have fits : largestRootOffset + (Bytes.ofNat32 value).size ≤ d.size := stated.inside (by decide) value
  refine ⟨(Bytes.size_overwrite fits).trans stated.sized, stated.long, ?_, ?_, ?_⟩
  · rw [Bytes.get_overwrite_outside fits (.inl (by decide))]
    exact stated.marked
  · rw [Bytes.at32_overwrite_same fits, Nat.mod_eq_of_lt bound]
  · rw [Bytes.at32_overwrite fits (.inr (show largestRootOffset + 4 ≤ incrementalVacuumOffset by decide))]
    exact ⟨_, stated.words⟩

theorem Says.putMode (stated : Says size K d) (bound : value < 4294967296) :
    Says size (fun root mode => mode = value ∧ ∃ old, K root old)
      (d.overwrite incrementalVacuumOffset (Bytes.ofNat32 value)) := by
  have fits : incrementalVacuumOffset + (Bytes.ofNat32 value).size ≤ d.size :=
    stated.inside (by decide) value
  refine ⟨(Bytes.size_overwrite fits).trans stated.sized, stated.long, ?_, ?_, ?_⟩
  · rw [Bytes.get_overwrite_outside fits (.inl (by decide))]
    exact stated.marked
  · rw [Bytes.at32_overwrite_same fits, Nat.mod_eq_of_lt bound]
  · rw [Bytes.at32_overwrite fits (.inl (show largestRootOffset + 4 ≤ incrementalVacuumOffset by decide))]
    exact ⟨_, stated.words⟩

end FileHeader

namespace Store

/-- The store `s` has become `t`, and this is known of its page 1. -/
structure Becomes (size : Nat) (begun : Bytes → Prop) (opened : Option (Bytes → Prop))
    (now : Bytes → Prop) (s t : Store) : Prop where
  copies : Copies size begun opened now t.pager
  settled : s.Settled t

variable {size : Nat} {begun now next : Bytes → Prop} {opened : Option (Bytes → Prop)} {s t u : Store}

theorem Becomes.step {α : Type} {act : StoreM α} (becomes : Becomes size begun opened now s t)
    [respects : Respects (Knows size begun opened now) act] :
    Ends act t (fun _ => Becomes size begun opened now s) (Becomes size begun opened now s) :=
  have ⟨knows, settled⟩ := respects.stays t
  .of_final ⟨knows becomes.copies, becomes.settled.trans settled⟩

theorem onPager_ends {α : Type} {act : Action Pager α} {good : α → Pager → Prop} {bad : Pager → Prop}
    (ends : Ends act t.pager good bad) (settled : s.Settled t) :
    Ends (onPager act) t (fun a u => good a u.pager ∧ s.Settled u) fun u => bad u.pager ∧ s.Settled u := by
  have again : ∀ p : Pager, s.Settled { t with pager := p } := fun p =>
    settled.trans ⟨rfl, rfl, rfl, rfl, rfl, Nat.le_refl _⟩
  unfold Ends onPager Action.zoom
  dsimp only
  cases run : act t.pager with
  | ok a p => exact ⟨ends.ok run, again p⟩
  | error e p => exact ⟨ends.error run, again p⟩

theorem Becomes.readFirst (becomes : Becomes size begun opened now s t) :
    Ends (readPage 1) t (fun d u => Becomes size begun opened now s u ∧ Begins d u ∧ now d)
      (Becomes size begun opened now s) := by
  refine becomes.step.imp (fun d u run becomesU => ?_) fun _ => id
  have begins := readPage_first run
  have raw : u.pager.image 1 = u.pager.raw 1 := if_neg (Nat.not_lt.mpr begins.nonempty)
  exact ⟨becomesU, begins, begins.first ▸ raw.symm ▸ becomesU.copies.starts.now⟩

theorem Becomes.word [sized : Sized size now] (becomes : Becomes size begun opened now s t) {offset : Nat}
    (inside : offset + 4 ≤ fileHeaderSize) :
    Ends (headerWord offset) t
      (fun value u => Becomes size begun opened now s u ∧ ∃ d, now d ∧ value = d.at32 offset)
      (Becomes size begun opened now s) := by
  refine becomes.readFirst.bind fun d u _ ⟨becomesU, _, known⟩ => ?_
  have fits : offset + 4 ≤ d.size := Nat.le_trans inside (sized.sized known ▸ sized.long known)
  rw [Bytes.u32_of_le fits]
  exact .of_ok (Action.lift_ok_run _ _) ⟨becomesU, d, known, rfl⟩

theorem Becomes.setWord [sized : Sized size now] (becomes : Becomes size begun opened now s t)
    {offset value : Nat} (inside : offset + 4 ≤ fileHeaderSize)
    (changed : ∀ d, now d → next (d.overwrite offset (Bytes.ofNat32 value)))
    (same : ∀ d, now d → d.at32 offset = value → ∀ e, now e → next e) :
    Ends (setHeaderWord offset value) t (fun _ => Becomes size begun opened next s)
      (Becomes size begun opened now s) := by
  refine becomes.readFirst.bind fun d u _ ⟨becomesU, begins, known⟩ => ?_
  have fits : offset + 4 ≤ d.size := Nat.le_trans inside (sized.sized known ▸ sized.long known)
  refine .lift (Bytes.u32_of_le fits) ?_
  split
  · refine .lift (Action.applied_ok.mpr (Bytes.putU32_ok.mpr ⟨fits, rfl⟩)) ?_
    refine (onPager_ends (becomesU.copies.rewrite fun _ => changed d known) becomesU.settled).imp ?_ ?_
    · exact fun _ v _ ⟨copies, settled⟩ => ⟨copies, settled⟩
    · exact fun v ⟨copies, settled⟩ => ⟨copies, settled⟩
  · rename_i equal
    have imp := same d known (Decidable.not_not.mp equal)
    exact .of_ok rfl ⟨becomesU.copies.imp imp, becomesU.settled⟩

/-- What page 1 is now is not known, only what it will be after going back. -/
def Strays (size : Nat) (begun : Bytes → Prop) (opened : Option (Bytes → Prop)) (s t : Store) : Prop :=
  ∃ now, Becomes size begun opened now s t

theorem strays {α : Type} {act : StoreM α} {good : α → Store → Prop}
    (ends : Ends act t good (Becomes size begun opened now s)) :
    Ends act t good (Strays size begun opened s) :=
  ends.imp (fun _ _ _ => id) fun _ becomes => ⟨now, becomes⟩

theorem Becomes.atomically {α : Type} {act : StoreM α} {Tells : α → Prop}
    (becomes : Becomes size begun none now s t)
    (inner : ∀ u, Becomes size begun (some now) now s u →
      Ends act u (fun a v => Tells a ∧ Becomes size begun (some now) next s v)
        (Strays size begun (some now) s)) :
    Ends (atomically act) t (fun a v => Tells a ∧ Becomes size begun none next s v)
      (Becomes size begun none now s) := by
  obtain ⟨n, q, opened, copiesQ⟩ := becomes.copies.openSavepoint
  have settledQ : s.Settled { t with pager := q } :=
    becomes.settled.trans ⟨rfl, rfl, rfl, rfl, rfl, Nat.le_refl _⟩
  have ends := inner _ ⟨copiesQ, settledQ⟩
  cases run : act { t with pager := q } with
  | ok a u =>
    obtain ⟨tells, copiesU, settledU⟩ := ends.ok run
    obtain ⟨v, released, copiesV⟩ := copiesU.releaseSavepoint
    refine .of_ok (atomically_ok opened run released) ⟨tells, copiesV, settledU.trans ?_⟩
    exact ⟨rfl, rfl, rfl, rfl, rfl, Nat.le_refl _⟩
  | error e u =>
    obtain ⟨any, copiesU, settledU⟩ := ends.error run
    obtain ⟨v, rolled, copiesV⟩ := copiesU.rollbackSavepoint
    refine .of_error (atomically_error opened run rolled) ⟨copiesV, settledU.trans ?_⟩
    exact ⟨rfl, rfl, rfl, rfl, rfl, Nat.le_succ _⟩

end Store

def Pager.Anyhow (_ _ : Pager) : Prop := True

namespace Store

open Pager (Anyhow)

variable {size : Nat} {begun now : Bytes → Prop} {opened : Option (Bytes → Prop)} {s t : Store}

instance : Rewritable Anyhow where
  refl := fun _ => trivial
  trans := fun _ _ => trivial
  fetch := fun _ _ => trivial
  write := fun _ _ _ => trivial
  header := fun _ _ => trivial
  extend := fun _ => trivial
  rewrite := fun _ _ => trivial

instance {α : Type} (act : Action Pager α) : Respects Anyhow (onPager act) := onPager_respects fun _ => trivial

instance {α : Type} (act : StoreM α) [Respects Anyhow act] : Respects Anyhow (atomically act) := by
  unfold atomically
  refine .andThen inferInstance fun _ => .andThen inferInstance fun answer => ?_
  cases answer <;> infer_instance

theorem knows {α : Type} {act : StoreM α} [settles : Respects Anyhow act]
    (keeps : ∀ s, Copies size begun opened now s.pager → Copies size begun opened now (act.final s).pager) :
    Respects (Knows size begun opened now) act :=
  ⟨fun s => ⟨keeps s, (settles.stays s).settled⟩⟩

instance : (Trait.within (Knows size begun none now)).Undoing fun _ : Unit =>
    .within (Knows size begun (some now) now) := by
  refine ⟨fun {α act} inner => ?_⟩
  have respects : Respects (Knows size begun (some now) now) act := inner ()
  have settles : Respects Anyhow act := ⟨fun s => ⟨trivial, (respects.stays s).settled⟩⟩
  refine knows fun s copies => ?_
  have becomes : Becomes size begun none now s s := ⟨copies, .refl s⟩
  have ends : Ends (atomically act) s (fun _ v => True ∧ Becomes size begun none now s v)
      (Becomes size begun none now s) :=
    becomes.atomically fun u becomesU =>
      strays (becomesU.step.imp (fun a v _ becomesV => ⟨trivial, becomesV⟩) fun _ => id)
  exact (ends.imp (fun _ _ _ => And.right) fun _ => id).final.copies

theorem Settled.isReserved (settled : s.Settled t) (page : Nat) : t.isReserved page = s.isReserved page := by
  unfold Store.isReserved isMapPage
  rw [settled.vacuum, settled.usableSize, settled.pageSize]

theorem Settled.firstUnreserved (settled : s.Settled t) (page : Nat) :
    t.firstUnreserved page = s.firstUnreserved page := by
  unfold Store.firstUnreserved
  rw [settled.isReserved, settled.isReserved]

theorem Settled.lastUnreserved (settled : s.Settled t) (page : Nat) :
    t.lastUnreserved page = s.lastUnreserved page := by
  induction page with
  | zero => rfl
  | succ n ih =>
    unfold Store.lastUnreserved
    rw [settled.isReserved, ih]

end Store

namespace Pager

def Grows (p q : Pager) : Prop := p.pageCount ≤ q.pageCount

theorem Grows.trans {p q r : Pager} (first : Grows p q) (second : Grows q r) : Grows p r :=
  Nat.le_trans first second

theorem write_grows (page : Nat) (data : Bytes) : Action.Stays Grows (write page data) := by
  intro p
  rcases write_cases p page data with ⟨positive, bound, large⟩ | ⟨e, failed⟩
  · obtain ⟨b, begins, -⟩ := begin_calm p
    have warm := begin_warms p
    rw [Action.final_of_ok begins] at warm
    have warmer := warm.trans (remember_warms page b)
    unfold Action.final Action.outcome
    rw [write_entered positive bound large, Action.bind_of_ok begins]
    cases run : remember page b with
    | error e t =>
      rw [Action.final_of_error run] at warmer
      rw [Action.bind_of_error run]
      exact Nat.le_of_eq warmer.count.symm
    | ok a t =>
      rw [Action.final_of_ok run] at warmer
      rw [Action.bind_of_ok run]
      exact Nat.le_trans (Nat.le_of_eq warmer.count.symm) (Nat.le_max_left _ _)
  · rw [Action.final_of_error failed]
    exact Nat.le_refl _

instance : Writable Grows where
  refl := fun p => Nat.le_refl p.pageCount
  trans := .trans
  fetch := fun page p => Nat.le_of_eq (fetch_warms page p).count.symm
  write := fun {page} data _ => write_grows page data
  header := fun _ _ => write_grows _ _ _
  extend := by
    intro p
    rcases extend_final p with same | written
    · rw [same]
      exact Nat.le_refl _
    · rw [written]
      exact write_grows _ _ p

end Pager

namespace Tree

open Store (Becomes)
open Pager (Grows)

theorem extendTo_ok {root left : Nat} {s t : Store} (run : extendTo root left s = .ok () t)
    (reaches : root ≤ s.pager.pageCount + left) : root ≤ t.pager.pageCount := by
  induction left generalizing s with
  | zero =>
    obtain ⟨-, rfl⟩ := Action.pure_ok.mp run
    exact reaches
  | succ left ih =>
    unfold extendTo at run
    obtain ⟨page, u, extended, run⟩ := Action.bind_ok.mp run
    obtain ⟨past, count⟩ := Freelist.extendOn_count extended
    split at run
    · obtain ⟨_, v, freed, run⟩ := Action.bind_ok.mp run
      have grows : Store.Within Grows u ((Freelist.free page).final u) := Respects.final (Freelist.free page) u
      rw [Action.final_of_ok freed] at grows
      have more : u.pager.pageCount ≤ v.pager.pageCount := grows.pager
      exact ih run (by omega)
    · rename_i reached
      obtain ⟨-, rfl⟩ := Action.pure_ok.mp run
      exact Nat.le_trans (Nat.le_of_not_lt reached) (Nat.le_of_eq count.symm)

end Tree

end TreeFile
