import TreeFile.Proofs.Header.Words

/-!
How the word for the largest root changes. Making a tree sets it to the root that was made, and removing
one steps it back to the last page that may be a root. A call that fails leaves it as it was.
-/

namespace TreeFile

open FileHeader (Says)
open Action (Ends)
open Pager (Copies Knows Grows)
open Store (Becomes Strays strays)

namespace FileHeader

/-- What is known of the two words after the one for the largest root was set to `root`, which it may
have been before. -/
structure Resets (K next : Nat → Nat → Prop) (root : Nat) : Prop where
  changed : ∀ old mode, K old mode → next root mode
  same : ∀ mode, K root mode → ∀ old mode, K old mode → next old mode

end FileHeader

open FileHeader (Resets largestRootOffset)

namespace Store

theorem firstUnreserved_le (s : Store) (page : Nat) : page ≤ s.firstUnreserved page := by
  unfold firstUnreserved
  split
  · exact Nat.le_refl _
  · split
    · exact Nat.le_succ _
    · exact Nat.le_add_right _ _

theorem lastUnreserved_le (s : Store) (page : Nat) : s.lastUnreserved page ≤ page := by
  induction page with
  | zero => exact Nat.le_refl 0
  | succ n ih =>
    unfold lastUnreserved
    split
    · exact Nat.le_succ_of_le ih
    · exact Nat.le_refl _

variable {size : Nat} {begun : Bytes → Prop} {opened : Option (Bytes → Prop)}
  {K next : Nat → Nat → Prop} {s t : Store}

theorem Becomes.setRoot (becomes : Becomes size begun opened (Says size K) s t) {root : Nat}
    (bound : root < 4294967296) (resets : Resets K next root) :
    Ends (setHeaderWord largestRootOffset root) t (fun _ => Becomes size begun opened (Says size next) s)
      (Becomes size begun opened (Says size K) s) := by
  refine becomes.setWord (by decide) (fun d stated => ?_) fun d stated equal e known => ?_
  · refine (stated.putRoot bound).imp fun word mode ⟨same, old, known⟩ => ?_
    rw [same]
    exact resets.changed old mode known
  · have words := stated.words
    rw [equal] at words
    exact known.imp (resets.same _ words)

theorem Becomes.largestRoot (becomes : Becomes size begun opened (Says size K) s t) :
    Ends Tree.largestRoot t
      (fun root u => Becomes size begun opened (Says size K) s u ∧ root < 4294967296 ∧ ∃ mode, K root mode)
      (Becomes size begun opened (Says size K) s) := by
  refine (becomes.word (by decide)).imp (fun root u _ ⟨becomesU, d, stated, same⟩ => ?_) fun _ => id
  subst same
  exact ⟨becomesU, d.at32_lt _, _, stated.words⟩

theorem Becomes.nextRoot (becomes : Becomes size begun opened (Says size K) s t) :
    Ends Tree.nextRoot t
      (fun root u => Becomes size begun opened (Says size K) s u ∧
        ∃ old mode, K old mode ∧ root = s.firstUnreserved (max old 1 + 1))
      (Becomes size begun opened (Says size K) s) := by
  refine becomes.largestRoot.bind fun largest u _ ⟨becomesU, _, mode, known⟩ => .get (.of_ok rfl ?_)
  exact ⟨becomesU, largest, mode, known, becomesU.settled.firstUnreserved _⟩

theorem Becomes.enroll (becomes : Becomes size begun opened (Says size K) s t) {root : Nat}
    (reached : root ≤ t.pager.pageCount) (resets : Resets K next root) :
    Ends (do
        PointerMap.put root ⟨.root, 0⟩
        setHeaderWord largestRootOffset root
        return root) t
      (fun answer u => answer = root ∧ Becomes size begun opened (Says size next) s u)
      (Becomes size begun opened (Says size K) s) := by
  have bound : root < 4294967296 :=
    Nat.lt_of_le_of_lt (Nat.le_trans reached becomes.copies.count.2) becomes.copies.room
  refine becomes.step.bind fun _ u _ becomesU => ?_
  exact (becomesU.setRoot bound resets).bind fun _ v _ becomesV => .of_ok rfl ⟨rfl, becomesV⟩

theorem Becomes.allocateRoot (becomes : Becomes size begun opened (Says size K) s t)
    (enabled : s.vacuum.isEnabled = true)
    (resets : ∀ old mode, K old mode → Resets K next (s.firstUnreserved (max old 1 + 1))) :
    Ends Tree.allocateRoot t
      (fun root u => (∃ old mode, K old mode ∧ root = s.firstUnreserved (max old 1 + 1)) ∧
        Becomes size begun opened (Says size next) s u)
      (Becomes size begun opened (Says size K) s) := by
  unfold Tree.allocateRoot
  refine .get ?_
  rw [if_pos (becomes.settled.vacuum ▸ enabled)]
  refine becomes.nextRoot.bind fun (root : Nat) u _ ⟨becomesU, old, mode, known, same⟩ => .get ?_
  have resets : Resets K next root := same ▸ resets old mode known
  have last : ∀ v, Becomes size begun opened (Says size K) s v → root ≤ v.pager.pageCount →
      Ends (do
          PointerMap.put root ⟨.root, 0⟩
          setHeaderWord largestRootOffset root
          return root) v
        (fun root u => (∃ old mode, K old mode ∧ root = s.firstUnreserved (max old 1 + 1)) ∧
          Becomes size begun opened (Says size next) s u)
        (Becomes size begun opened (Says size K) s) := by
    intro v becomesV reached
    refine (becomesV.enroll reached resets).imp (fun answer w _ ⟨equal, becomesW⟩ => ?_) fun _ => id
    exact ⟨⟨old, mode, known, equal.trans same⟩, becomesW⟩
  dsimp only
  split
  · rename_i far
    refine becomesU.step.bind fun _ v run becomesV => last v becomesV (Tree.extendTo_ok run ?_)
    exact Nat.le_of_eq (Nat.add_sub_of_le (Nat.le_of_lt far)).symm
  · rename_i near
    refine becomesU.step.bind fun _ v run becomesV => last v becomesV ?_
    have grows : Within Grows u ((Tree.vacate root).final u) := Respects.final (Tree.vacate root) u
    rw [Action.final_of_ok run] at grows
    exact Nat.le_trans (Nat.le_of_not_lt near) grows.pager

theorem Becomes.create {kind : TreeKind} {Tells : Nat → Prop}
    (allocated : Ends Tree.allocateRoot t
      (fun root u => Tells root ∧ Becomes size begun opened (Says size next) s u)
      (Becomes size begun opened (Says size K) s)) :
    Ends (Tree.create kind) t
      (fun root u => Tells root ∧ Becomes size begun opened (Says size next) s u)
      (Strays size begun opened s) := by
  refine (strays allocated).bind fun root u _ ⟨tells, becomesU⟩ => ?_
  have written : Ends (do
        writePage (← emptyPage root (.leaf kind))
        bumpGeneration
        return root) u
      (fun answer v => answer = root ∧ Becomes size begun opened (Says size next) s v)
      (Becomes size begun opened (Says size next) s) :=
    becomesU.step.bind fun page v _ becomesV => becomesV.step.bind fun _ w _ becomesW =>
      becomesW.step.bind fun _ x _ becomesX => .of_ok rfl ⟨rfl, becomesX⟩
  refine strays (written.imp (fun answer v _ ⟨same, becomesV⟩ => ?_) fun _ => id)
  exact ⟨same ▸ tells, becomesV⟩

theorem Becomes.createTree (becomes : Becomes size begun none (Says size K) s t)
    (enabled : s.vacuum.isEnabled = true)
    (resets : ∀ old mode, K old mode → Resets K next (s.firstUnreserved (max old 1 + 1)))
    (kind : TreeKind) :
    Ends (Database.createTree kind) t
      (fun root u => (∃ old mode, K old mode ∧ root = s.firstUnreserved (max old 1 + 1)) ∧
        Becomes size begun none (Says size next) s u)
      (Becomes size begun none (Says size K) s) :=
  becomes.atomically fun _ becomesU => Becomes.create (becomesU.allocateRoot enabled resets)

theorem Becomes.createTree_plain (becomes : Becomes size begun none (Says size K) s t)
    (plain : s.vacuum.isEnabled = false) (kind : TreeKind) :
    Ends (Database.createTree kind) t (fun _ u => True ∧ Becomes size begun none (Says size K) s u)
      (Becomes size begun none (Says size K) s) := by
  refine becomes.atomically fun u becomesU => ?_
  have allocated : Ends Tree.allocateRoot u
      (fun _ v => True ∧ Becomes size begun (some (Says size K)) (Says size K) s v)
      (Becomes size begun (some (Says size K)) (Says size K) s) := by
    unfold Tree.allocateRoot
    refine .get ?_
    rw [if_neg (by rw [becomesU.settled.vacuum, plain]; decide)]
    exact becomesU.step.imp (fun _ _ _ becomesV => ⟨trivial, becomesV⟩) fun _ => id
  exact Becomes.create allocated

def movedRoot (largest root : Nat) : Option Nat := if root = largest then none else some largest

theorem Becomes.freed (becomes : Becomes size begun opened (Says size K) s t) (page : Nat) :
    Ends (Freelist.free page) t
      (fun _ u => 2 ≤ page ∧ Becomes size begun opened (Says size K) s u)
      (Becomes size begun opened (Says size K) s) := by
  refine becomes.step.imp (fun _ u run becomesU => ⟨?_, becomesU⟩) fun _ => id
  unfold Freelist.free at run
  obtain ⟨_, v, checked, -⟩ := Action.bind_ok.mp run
  exact (Freelist.checkPage_passed checked).2.1

theorem Becomes.releaseRoot (becomes : Becomes size begun opened (Says size K) s t)
    (resets : ∀ old mode, K old mode → 2 ≤ old → Resets K next (s.lastUnreserved (old - 1)))
    (root : Nat) :
    Ends (Tree.releaseRoot root) t
      (fun moved u => (∃ old mode, K old mode ∧ moved = movedRoot old root) ∧
        Becomes size begun opened (Says size next) s u)
      (Strays size begun opened s) := by
  unfold Tree.releaseRoot
  refine (strays becomes.largestRoot).bind fun (largest : Nat) u _ ⟨becomesU, bound, mode, known⟩ => ?_
  have last : ∀ v, Becomes size begun opened (Says size K) s v → 2 ≤ largest → ∀ moved,
      moved = movedRoot largest root →
      Ends (do
          setHeaderWord largestRootOffset ((← get).lastUnreserved (largest - 1))
          bumpGeneration
          return moved) v
        (fun moved u => (∃ old mode, K old mode ∧ moved = movedRoot old root) ∧
          Becomes size begun opened (Says size next) s u)
        (Strays size begun opened s) := by
    intro v becomesV two moved tells
    refine .get ?_
    rw [becomesV.settled.lastUnreserved]
    have low : s.lastUnreserved (largest - 1) < 4294967296 :=
      Nat.lt_of_le_of_lt (s.lastUnreserved_le _) (Nat.lt_of_le_of_lt (Nat.sub_le _ _) bound)
    have set := becomesV.setRoot low (resets largest mode known two)
    refine (strays set).bind fun _ w _ becomesW => (strays becomesW.step).bind fun _ x _ becomesX => ?_
    exact .of_ok rfl ⟨⟨largest, mode, known, tells⟩, becomesX⟩
  dsimp only
  split
  · rename_i only
    exact (strays (becomesU.freed root)).bind fun _ v _ ⟨two, becomesV⟩ =>
      last v becomesV (only ▸ two) none (if_pos only).symm
  · rename_i other
    refine (strays becomesU.step).bind fun _ v _ becomesV => ?_
    exact (strays (becomesV.freed largest)).bind fun _ w _ ⟨two, becomesW⟩ =>
      last w becomesW two (some largest) (if_neg other).symm

/-- In an auto-vacuum file the largest root takes the place of the root that is removed, and the word for
it steps back to the last page before it that may be a root. -/
theorem Becomes.dropTree (becomes : Becomes size begun none (Says size K) s t)
    (enabled : s.vacuum.isEnabled = true)
    (resets : ∀ old mode, K old mode → 2 ≤ old → Resets K next (s.lastUnreserved (old - 1)))
    (root : Nat) :
    Ends (Database.dropTree root) t
      (fun moved u => (∃ old mode, K old mode ∧ moved = movedRoot old root) ∧
        Becomes size begun none (Says size next) s u)
      (Becomes size begun none (Says size K) s) := by
  refine becomes.step.bind fun _ u _ becomesU => ?_
  dsimp only
  split
  · exact .of_error rfl becomesU
  refine becomesU.atomically fun v becomesV => ?_
  refine (strays becomesV.step).bind fun _ w _ becomesW => .get ?_
  rw [if_pos (becomesW.settled.vacuum ▸ enabled)]
  exact becomesW.releaseRoot resets root

theorem Becomes.dropTree_plain (becomes : Becomes size begun none (Says size K) s t)
    (plain : s.vacuum.isEnabled = false) (root : Nat) :
    Ends (Database.dropTree root) t (fun _ u => True ∧ Becomes size begun none (Says size K) s u)
      (Becomes size begun none (Says size K) s) := by
  refine becomes.step.bind fun _ u _ becomesU => ?_
  dsimp only
  split
  · exact .of_error rfl becomesU
  refine becomesU.atomically fun v becomesV => ?_
  have removed : Ends (Tree.remove root) v (fun _ => Becomes size begun (some (Says size K)) (Says size K) s)
      (Becomes size begun (some (Says size K)) (Says size K) s) := by
    refine becomesV.step.bind fun _ w _ becomesW => .get ?_
    rw [if_neg (by rw [becomesW.settled.vacuum, plain]; decide)]
    exact becomesW.step
  exact strays (removed.imp (fun _ _ _ becomesW => ⟨trivial, becomesW⟩) fun _ => id)

end Store

end TreeFile
