import TreeFile.Proofs.Balance.Siblings

/-!
What a success of balancing shows, whatever the pages of a window refer to. Claiming pages writes to
the pointer map alone, so the pages that are written stand on the disk as they were laid out, even
where what they refer to is out of the file or referred to twice.
-/

namespace TreeFile

open Store PointerMap Disk

/-- When the action succeeds, it has changed nothing but the pointer map. -/
class Charts {α : Type} (act : StoreM α) : Prop where
  quiet : ∀ {s t : Store} {d : Disk} {a : α}, s.Shows d → act s = .ok a t →
    ∃ e, t.Shows e ∧ s.Steady t ∧ Quiet d e (fun _ => False) (fun _ => True)

namespace Charts

variable {α β : Type}

instance pure (a : α) : Charts (pure a) := by
  refine ⟨fun {s t d b} shows_ run => ?_⟩
  obtain ⟨-, rfl⟩ := Action.pure_ok.mp run
  exact ⟨d, shows_, .refl s, .refl d⟩

instance get : Charts (get : StoreM Store) := by
  refine ⟨fun {s t d a} shows_ run => ?_⟩
  cases run
  exact ⟨d, shows_, .refl s, .refl d⟩

instance lift (x : Except Error α) : Charts (liftM x : StoreM α) := by
  refine ⟨fun {s t d a} shows_ run => ?_⟩
  obtain ⟨-, rfl⟩ := Action.lift_ok.mp run
  exact ⟨d, shows_, .refl s, .refl d⟩

instance bind (x : StoreM α) (f : α → StoreM β) [first : Charts x] [second : ∀ a, Charts (f a)] :
    Charts (x >>= f) := by
  refine ⟨fun {s t d b} shows_ run => ?_⟩
  obtain ⟨a, u, runX, runF⟩ := Action.bind_ok.mp run
  obtain ⟨e, showsU, steadyU, quietU⟩ := first.quiet shows_ runX
  obtain ⟨g, showsT, steadyT, quietT⟩ := (second a).quiet showsU runF
  exact ⟨g, showsT, steadyU.trans steadyT, quietU.trans quietT⟩

instance ite (c : Prop) [Decidable c] (x y : StoreM α) [Charts x] [Charts y] : Charts (if c then x else y) := by
  split <;> infer_instance

instance forM (f : α → StoreM PUnit) [∀ a, Charts (f a)] (list : List α) : Charts (list.forM f) := by
  induction list with
  | nil => exact pure ()
  | cons a rest ih => exact bind (f a) fun _ => rest.forM f

instance put (page : PageNo) (e : PointerEntry) : Charts (PointerMap.put page e) := by
  refine ⟨fun {s t d a} shows_ run => ?_⟩
  have sound := shows_.disk_sound
  unfold PointerMap.put at run
  rw [Action.get_bind, shows_.mapped] at run
  cases mapped : d.mapped with
  | false =>
    rw [mapped] at run
    obtain ⟨-, rfl⟩ := Action.pure_ok.mp run
    exact ⟨d, shows_, .refl s, .refl d⟩
  | true =>
    rw [mapped, if_pos rfl] at run
    obtain ⟨⟨map, start⟩, located, run⟩ := Action.lift_bind_ok.mp run
    obtain ⟨data, u, read, run⟩ := Action.bind_ok.mp run
    obtain ⟨old, sliced, run⟩ := Action.lift_bind_ok.mp run
    obtain ⟨has, rfl, showsU, steadyU⟩ := readPage_ok shows_ read
    split at run
    swap
    · obtain ⟨-, rfl⟩ := Action.pure_ok.mp run
      exact ⟨d, showsU, steadyU, .refl d⟩
    have isMap : map = d.mapPage page := by
      unfold locate at located
      dsimp only at located
      split at located
      · cases located
      · cases located
        rw [shows_.usableSize, shows_.pageSize]
        rfl
    have reserved : d.isReserved map = true := by
      rw [isMap]
      exact Disk.mapPage_isReserved sound mapped (isMap ▸ Nat.pos_iff_ne_zero.mp has.1)
    have fits : start + (encode e).size ≤ (d.image map).size := (Bytes.slice_ok.mp sliced).1.2
    obtain ⟨v, written, showsV, steadyV⟩ :=
      putPage_run showsU has ((Bytes.size_overwrite fits).trans (sound.sizes map))
    cases run.symm.trans written
    have first : (1 : Nat) ≠ map := by
      rintro rfl
      rw [Disk.isReserved_one sound] at reserved
      cases reserved
    have header : ((d.put map ((d.image map).overwrite start (encode e))).image 1) = d.image 1 :=
      Disk.put_other _ _ first
    refine ⟨_, showsV, steadyU.trans steadyV, ⟨⟨Disk.alike_put d map _, ?_, fun _ _ away => absurd trivial away,
      fun i _ _ => by rw [header]⟩, rfl, fun i _ _ => by rw [header]⟩⟩
    intro n free _ i _
    rw [Disk.put_other]
    rintro rfl
    rw [reserved] at free
    cases free

instance putForCell (page : Page) (i : Nat) : Charts (PointerMap.putForCell page i) := by
  unfold PointerMap.putForCell
  have rest : Charts (if !page.isLeaf then do
      PointerMap.put (← page.child i) ⟨.treeNode, page.number⟩ else Pure.pure () : StoreM Unit) := inferInstance
  refine @bind _ _ _ _ inferInstance fun info => ?_
  cases info.overflowPage <;> infer_instance

instance putForPage (page : Page) : Charts (PointerMap.putForPage page) := by
  unfold PointerMap.putForPage
  infer_instance

end Charts

namespace Siblings

variable {s t : Store} {d e : Disk} {tree : TreeKind} {h : Nat}

instance (kind : PageKind) (i : Nat) (dividers : List Bytes) (parent : Page) :
    Charts (Siblings.insertDividers kind i dividers parent) := by
  induction dividers generalizing i parent with
  | nil => exact Charts.pure parent
  | cons divider rest ih =>
    unfold Siblings.insertDividers
    refine @Charts.bind _ _ _ _ inferInstance fun _ => ?_
    refine @Charts.bind _ _ _ _ inferInstance fun info => ?_
    cases info.overflowPage <;> infer_instance

theorem writeLaid_ok {parent : PageNo} {p : Page} {node : Node (Limb h)} (shows_ : s.Shows d)
    (mirrors : p.Mirrors d tree node) (has : d.Has node.page) (free : d.isReserved node.page = false)
    (run : writeLaid parent p s = .ok () t) :
    ∃ e, t.Shows e ∧ s.Steady t ∧ Quiet d e (· = node.page) (fun _ => True) ∧
      e.PageAt node.page (.at tree h) (node.row.slots d.limits tree) node.row.right := by
  unfold writeLaid at run
  obtain ⟨⟨⟩, u, written, claimed⟩ := Action.bind_ok.mp run
  obtain ⟨data, v, again, shows1, steady1, pageAt, size, header⟩ :=
    writePage_run shows_ has mirrors.is (writePage_ok written) mirrors.bears
  cases again.symm.trans written
  have rest : Charts (do
      PointerMap.put p.number ⟨.treeNode, parent⟩
      putForPage p : StoreM Unit) := inferInstance
  obtain ⟨e, showsT, steadyT, quiet⟩ := rest.quiet shows1 claimed
  refine ⟨e, showsT, steady1.trans steadyT, ?_, ?_⟩
  · exact ((quiet_put shows_.disk_sound free header).mono (fun _ => id) fun _ => False.elim).trans
      (quiet.mono (fun _ => False.elim) fun _ => id)
  · have stays : e.Has node.page := ⟨has.1, by rw [quiet.count]; exact has.2⟩
    exact pageAt.of_same quiet.alike shows1.disk_sound showsT.disk_sound stays (quiet.images _ free id)

theorem writeAll_ok {parent : PageNo} {laid : List Laid} {nodes : List (Node (Limb h))} (shows_ : s.Shows d)
    (mirrors : List.Forall₂ (fun l node => Page.Mirrors l.page d tree node) laid nodes)
    (once : (nodes.map Node.page).Nodup) (has : ∀ node ∈ nodes, d.Has node.page ∧ d.isReserved node.page = false)
    (run : (laid.forM fun l => writeLaid parent l.page) s = .ok () t) :
    ∃ e, t.Shows e ∧ s.Steady t ∧ Quiet d e (· ∈ nodes.map Node.page) (fun _ => True) ∧
      ∀ node ∈ nodes, e.PageAt node.page (.at tree h) (node.row.slots d.limits tree) node.row.right := by
  induction laid generalizing nodes s d with
  | nil =>
    cases mirrors
    obtain ⟨-, rfl⟩ := Action.pure_ok.mp run
    exact ⟨d, shows_, .refl s, .refl d, fun node member => absurd member List.not_mem_nil⟩
  | cons l laid ih =>
    obtain _ | ⟨first, rest⟩ := mirrors
    rename_i node nodes
    obtain ⟨⟨⟩, u, written, run⟩ := Action.bind_ok.mp run
    obtain ⟨fresh, onceRest⟩ := List.nodup_cons.mp once
    obtain ⟨own, free⟩ := has node List.mem_cons_self
    obtain ⟨d1, shows1, steady1, quiet1, at1⟩ := writeLaid_ok shows_ first own free written
    have has1 : ∀ other ∈ nodes, d1.Has other.page ∧ d1.isReserved other.page = false := by
      intro other member
      obtain ⟨old, freeOther⟩ := has other (List.mem_cons_of_mem _ member)
      exact ⟨⟨old.1, by rw [quiet1.count]; exact old.2⟩, (quiet1.alike.isReserved _).trans freeOther⟩
    obtain ⟨d2, shows2, steady2, quiet2, at2⟩ :=
      ih shows1 (rest.imp fun _ _ mirrors => mirrors.alike quiet1.alike) onceRest has1 run
    rw [quiet1.alike.limits] at at2
    refine ⟨d2, shows2, steady1.trans steady2, ?_, List.forall_mem_cons.mpr ⟨?_, at2⟩⟩
    · exact (quiet1.mono (fun n same => List.mem_cons.mpr (.inl same)) fun _ => id).trans
        (quiet2.mono (fun n inside => List.mem_cons_of_mem _ inside) fun _ => id)
    · have stays : d2.Has node.page := ⟨own.1, by rw [quiet2.count, quiet1.count]; exact own.2⟩
      exact at1.of_same quiet2.alike shows1.disk_sound shows2.disk_sound stays
        (quiet2.images _ ((quiet1.alike.isReserved _).trans free) fresh)

end Siblings

end TreeFile
