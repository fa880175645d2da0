import TreeFile.Proofs.Page.Progress
import TreeFile.Proofs.Page.Slots

/-!
Changing what a page refers to. On a sound page any child, and the first page of any chain, can be exchanged for
another page; the rest of the page stays as it is.
-/

namespace TreeFile

open Action (Runs)

namespace Page

variable {p : Page} {slots : List Slot} {right : Option PageNo} (bears : p.Bears slots right)

include bears

theorem Bears.setRightChild_runs (interior : p.isLeaf = false) (child : PageNo) : Runs (setRightChild child) p := by
  obtain ⟨sound, size⟩ := bears.sound
  unfold setRightChild
  refine .get ?_
  rw [interior]
  exact .modify ((hasLength_of_sound sound size).remake _ _).writeHeader_runs

variable (clear : p.parked = []) {i : Nat}

include clear

theorem Bears.setChild_runs (interior : p.isLeaf = false) (inside : i ≤ slots.length) (child : PageNo) :
    Runs (setChild i child) p := by
  have count := bears.count clear
  unfold setChild
  refine .get ?_
  rw [interior, if_neg Bool.false_ne_true]
  dsimp only
  by_cases within : i < p.cellCount
  · rw [if_pos within]
    obtain ⟨placed, blocks, tidy, held⟩ := bears.placed clear
    have length := held.length
    rw [List.length_map] at length
    have here : i < placed.length := by omega
    refine .lift (tidy.pointer here) ?_
    have fits := (tidy.run_inside (List.getElem_mem here)).2.1
    have usable := tidy.area.usable_le
    have wide := held.wide placed[i].2 (List.mem_map_of_mem (List.getElem_mem here))
    exact ⟨_, _, edit_ok.mpr ⟨_, Bytes.putU32_ok.mpr ⟨by omega, rfl⟩, rfl⟩⟩
  · rw [if_neg within, if_pos (by omega)]
    exact bears.setRightChild_runs interior child

/-- The first page of a chain is exchanged for another one. -/
theorem Bears.relink {slot : Slot} {old head : PageNo} (is : slots[i]? = some slot) (chain : slot.stub.head = some old)
    (nonzero : head ≠ 0) (small : head < 4294967296) :
    ∃ info q, p.cellInfo i = .ok info ∧ info.overflowPage = some old ∧
      Action.applied (edit (Bytes.putU32 (info.payloadStart + info.kept) head)) p = .ok q ∧
      Bears q (slots.set i { slot with stub.head := some head }) right ∧ Alike p q ∧ q.kind = p.kind ∧ q.parked = [] := by
  obtain ⟨placed, blocks, tidy, held⟩ := bears.placed clear
  obtain ⟨within, same⟩ := List.getElem?_eq_some_iff.mp is
  have length := held.length
  rw [List.length_map] at length
  have here : i < placed.length := by omega
  have holds := held.get (by rw [List.length_map]; exact here) within
  rw [List.getElem_map, same] at holds
  obtain ⟨info, reads, rfl⟩ := holds
  obtain ⟨linked, room⟩ := Cell.Holds.relink reads chain nonzero small
  have fits := (tidy.run_inside (List.getElem_mem here)).2.1
  have usable := tidy.area.usable_le
  have run : edit (Bytes.putU32 (placed[i].1 + info.payloadStart + info.kept) head) p = .ok () { p with
      data := p.data.overwrite (placed[i].1 + info.payloadStart + info.kept) (Bytes.ofNat32 head) } :=
    edit_ok.mpr ⟨_, Bytes.putU32_ok.mpr ⟨by omega, rfl⟩, rfl⟩
  obtain ⟨tidy', role⟩ := relink_ok tidy here reads chain nonzero small run
  refine ⟨_, _, tidy.cellInfo here reads, chain, Action.applied_ok.mpr run, ?_, role.alike, role.kind,
    role.parked.trans clear⟩
  refine bears_of_placed tidy' (role.parked.trans clear) ?_ (role.rightChild.trans bears.right)
  rw [role.alike.limits, role.kind, List.map_set]
  exact held.set linked i

end Page

end TreeFile
