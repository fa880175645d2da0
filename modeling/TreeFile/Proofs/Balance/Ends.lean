import TreeFile.Proofs.Balance.CellCounts
import TreeFile.Proofs.Balance.Climbing
import TreeFile.Proofs.Balance.WindowOrder
import TreeFile.Proofs.Store.FileLength

/-!
Balancing comes to an end. It is looked at as a loop without a bound: the level loop goes up a path and, at the
root, either makes the tree a level deeper or goes over to an inner loop that takes in only children. A root that
has grown has fewer cells the next time, a path gets shorter in every other iteration, and a page that the root
takes in is gone, so that in a tree without page cycles there are only so many of them.
-/

namespace TreeFile

open Store Siblings

namespace Balance

/-- Where the loop stands: at the first page of a path, or at a root that may take in its only child. -/
inductive Stage
  | level (path : Path)
  | root (page : Page)

def iterate (afterDelete : Bool) : Stage → StoreM (Option Stage)
  | .level [] => throw .emptyPath
  | .level [frame] => do
    if frame.page.hasParked then
      let (child, root) ← deepen frame.page
      return some (.level [⟨child, 0⟩, ⟨root, 0⟩])
    else return some (.root frame.page)
  | .level (frame :: parent :: above) => do
    if needsBalance frame.page afterDelete then
      let page ← Siblings.balance parent.page parent.index frame.page
      return some (.level ({ parent with page } :: above))
    else
      writePage frame.page
      return none
  | .root page => do
    if page.isLeaf || page.cellCount ≠ 0 then
      writePage page
      return none
    match ← absorbChild page with
    | some page => return some (.root page)
    | none =>
      writePage page
      return none

variable {afterDelete : Bool} {stage next last : Stage} {s t u : Store} {n m : Nat}

inductive Ends (afterDelete : Bool) : Nat → Stage → Store → EStateM.Result Error Store Unit → Prop
  | done {stage : Stage} {s t : Store} (run : iterate afterDelete stage s = .ok none t) :
      Ends afterDelete 1 stage s (.ok () t)
  | failed {stage : Stage} {s t : Store} {e : Error} (run : iterate afterDelete stage s = .error e t) :
      Ends afterDelete 1 stage s (.error e t)
  | more {n : Nat} {stage next : Stage} {s t : Store} {out : EStateM.Result Error Store Unit}
      (run : iterate afterDelete stage s = .ok (some next) t) (rest : Ends afterDelete n next t out) :
      Ends afterDelete (n + 1) stage s out

/-- The loop gets from one stage to another in `n` iterations. -/
inductive Leads (afterDelete : Bool) : Nat → Stage → Store → Stage → Store → Prop
  | here {stage : Stage} {s : Store} : Leads afterDelete 0 stage s stage s
  | step {n : Nat} {stage next last : Stage} {s t u : Store} (run : iterate afterDelete stage s = .ok (some next) t)
      (rest : Leads afterDelete n next t last u) : Leads afterDelete (n + 1) stage s last u

/-- The three ways on from a path: a root with parked cells gets a child that has them, a page is balanced with its
siblings, and a root without parked cells is handed to the inner loop. -/
inductive Climbs (s : Store) : Path → Stage → Store → Prop
  | grown {frame : Frame} {child root : Page} {t : Store} (parked : frame.page.hasParked = true)
      (run : deepen frame.page s = .ok (child, root) t) :
      Climbs s [frame] (.level [⟨child, 0⟩, ⟨root, 0⟩]) t
  | risen {frame parent : Frame} {above : Path} {page : Page} {t : Store}
      (run : Siblings.balance parent.page parent.index frame.page s = .ok page t) :
      Climbs s (frame :: parent :: above) (.level ({ parent with page } :: above)) t
  | arrived {frame : Frame} (clear : frame.page.hasParked = false) : Climbs s [frame] (.root frame.page) s

theorem climbs {path : Path} (run : iterate afterDelete (.level path) s = .ok (some next) t) : Climbs s path next t := by
  match path with
  | [] => exact absurd run Action.throw_ok
  | [frame] =>
    rw [iterate] at run
    by_cases parked : frame.page.hasParked = true
    · rw [if_pos parked] at run
      obtain ⟨⟨child, root⟩, u, deepened, run⟩ := Action.bind_ok.mp run
      cases run
      exact .grown parked deepened
    · rw [if_neg parked] at run
      cases run
      exact .arrived (Bool.eq_false_iff.mpr parked)
  | frame :: parent :: above =>
    rw [iterate] at run
    by_cases needed : needsBalance frame.page afterDelete = true
    · rw [if_pos needed] at run
      obtain ⟨page, u, balanced, run⟩ := Action.bind_ok.mp run
      cases run
      exact .risen balanced
    · rw [if_neg needed] at run
      obtain ⟨⟨⟩, u, -, run⟩ := Action.bind_ok.mp run
      cases run

theorem absorbs {root : Page} (run : iterate afterDelete (.root root) s = .ok (some next) t) :
    root.isLeaf = false ∧ root.cellCount = 0 ∧
      ∃ top, next = .root top ∧ absorbChild root s = .ok (some top) t := by
  rw [iterate] at run
  by_cases stop : (root.isLeaf || decide (root.cellCount ≠ 0)) = true
  · rw [if_pos stop] at run
    obtain ⟨⟨⟩, u, -, run⟩ := Action.bind_ok.mp run
    cases run
  rw [if_neg stop] at run
  simp only [Bool.or_eq_true, decide_eq_true_eq, not_or, Decidable.not_not, Bool.not_eq_true] at stop
  obtain ⟨result, u, absorbed, run⟩ := Action.bind_ok.mp run
  cases result with
  | none =>
    obtain ⟨⟨⟩, v, -, run⟩ := Action.bind_ok.mp run
    cases run
  | some top =>
    cases run
    exact ⟨stop.1, stop.2, top, rfl, absorbed⟩

theorem deepen_count {root child top : Page} (run : deepen root s = .ok (child, top) t) :
    child.logicalCount = root.logicalCount ∧ child.parked = root.parked ∧ top.cellCount = 0 ∧ top.parked = [] := by
  obtain ⟨number, s1, -, run⟩ := Action.bind_ok.mp run
  obtain ⟨cells, placed, run⟩ := Action.lift_bind_ok.mp run
  obtain ⟨bare, s3, built, run⟩ := Action.bind_ok.mp run
  obtain ⟨stripped, emptied, run⟩ := Action.lift_bind_ok.mp run
  obtain ⟨⟨⟩, s4, -, run⟩ := Action.bind_ok.mp run
  obtain ⟨⟨⟩, s5, -, run⟩ := Action.bind_ok.mp run
  obtain ⟨⟨⟩, p, reset, linked⟩ := Action.bind_ok.mp (Action.applied_ok.mp emptied)
  obtain ⟨header, clear⟩ := Page.reset_count reset
  obtain ⟨count, parked⟩ := Page.setRightChild_tallies linked
  cases run
  refine ⟨?_, rfl, count.trans (congrArg PageHeader.cellCount header), parked.trans clear⟩
  have same := (build_count built).1
  rw [Page.placedCells_length placed] at same
  unfold Page.logicalCount
  exact congrArg (· + root.parked.length) same

theorem grown_count {root child top page : Page} (parked : root.hasParked = true)
    (deepened : deepen root s = .ok (child, top) t) (balanced : Siblings.balance top 0 child t = .ok page u) :
    page.logicalCount < root.logicalCount := by
  obtain ⟨count, same, none_, clear⟩ := deepen_count deepened
  rw [← count]
  refine balance_only none_ clear (fun nothing => ?_) balanced
  have empty : root.parked = [] := by
    refine List.eq_nil_of_length_eq_zero ?_
    unfold Page.logicalCount at count nothing
    omega
  unfold Page.hasParked at parked
  rw [empty] at parked
  cases parked

theorem Leads.root_stays {root : Page} {path : Path} : ¬ Leads afterDelete n (.root root) s (.level path) t := by
  induction n generalizing root s with
  | zero => exact nofun
  | succ n ih =>
    rintro (_ | ⟨run, rest⟩)
    obtain ⟨-, -, top, rfl, -⟩ := absorbs run
    exact ih rest

theorem Leads.root_shrinks {frame frame' : Frame}
    (leads : Leads afterDelete (n + 1) (.level [frame]) s (.level [frame']) t) :
    frame'.page.logicalCount < frame.page.logicalCount := by
  induction n using Nat.strongRecOn generalizing frame s with
  | ind n ih =>
    obtain _ | ⟨run, rest⟩ := leads
    cases climbs run with
    | arrived => exact absurd rest root_stays
    | grown parked deepened =>
      cases n with
      | zero => cases rest
      | succ n =>
        obtain _ | ⟨run', rest⟩ := rest
        cases climbs run' with
        | risen balanced =>
          have fewer := grown_count parked deepened balanced
          cases n with
          | zero =>
            cases rest
            exact fewer
          | succ n => exact Nat.lt_trans (ih n (by omega) rest) fewer

/-- What the root has become is what the child was: it has as many cells, and leads on to the same page. -/
structure Replaces (child top : Page) : Prop where
  kind : top.kind = child.kind
  count : top.cellCount = child.logicalCount
  right : child.isLeaf = false → top.header.rightChild = some (child.header.rightChild.getD 0)
  clear : top.parked = []

theorem absorbChild_replaces {root top : Page} (run : absorbChild root s = .ok (some top) t) :
    ∃ page child u, root.child 0 = .ok page ∧ loadPage page s = .ok child u ∧ Replaces child top ∧
      2 ≤ page ∧ page ≤ s.pageCount ∧ t.pageCount = s.pageCount := by
  obtain ⟨page, isPage, run⟩ := Action.lift_bind_ok.mp run
  obtain ⟨child, u, loaded, run⟩ := Action.bind_ok.mp run
  obtain ⟨cells, gathered, run⟩ := Action.lift_bind_ok.mp run
  split at run
  · obtain ⟨next, rebuilt, run⟩ := Action.lift_bind_ok.mp run
    obtain ⟨⟨⟩, v, claimed, run⟩ := Action.bind_ok.mp run
    obtain ⟨⟨⟩, w, freed, run⟩ := Action.bind_ok.mp run
    cases run
    have same : v.pageCount = s.pageCount := (KeepsLength.run claimed).trans (KeepsLength.run loaded)
    obtain ⟨low, inside, length⟩ := Freelist.free_length freed
    rw [loadPage_number loaded] at low inside
    obtain ⟨kind, count, clear, right⟩ := Page.rebuild_count (Action.applied_ok.mp rebuilt)
    rw [Page.logicalCells_length gathered] at count
    exact ⟨page, child, u, isPage, loaded, ⟨kind, count, right, clear⟩, low, same ▸ inside, length.trans same⟩
  · cases run

/-- The pages that a root takes in, one after the other. -/
inductive TakesIn : Page → Store → List PageNo → Page → Store → Prop
  | nil {root : Page} {s : Store} : TakesIn root s [] root s
  | cons {root top last : Page} {s t u : Store} {page : PageNo} {pages : List PageNo} (inner : root.isLeaf = false)
      (none_ : root.cellCount = 0) (only : root.child 0 = .ok page) (absorbed : absorbChild root s = .ok (some top) t)
      (rest : TakesIn top t pages last u) : TakesIn root s (page :: pages) last u

/-- No page comes up twice below the root, each the only child of the one before. -/
def Once (root : Page) (s : Store) : Prop :=
  ∀ pages last t, TakesIn root s pages last t → pages.Nodup

theorem TakesIn.of_leaf {root last : Page} {pages : List PageNo} (leaf : root.isLeaf = true)
    (taken : TakesIn root s pages last t) : pages = [] := by
  cases taken with
  | nil => rfl
  | cons inner => cases leaf.symm.trans inner

theorem Leads.takesIn {root last : Page} (leads : Leads afterDelete n (.root root) s (.root last) t) :
    ∃ pages, TakesIn root s pages last t := by
  induction n generalizing root s with
  | zero =>
    cases leads
    exact ⟨[], .nil⟩
  | succ n ih =>
    obtain _ | ⟨run, rest⟩ := leads
    obtain ⟨inner, none_, top, rfl, absorbed⟩ := absorbs run
    obtain ⟨page, child, v, only, -⟩ := absorbChild_replaces absorbed
    obtain ⟨pages, taken⟩ := ih rest
    exact ⟨page :: pages, .cons inner none_ only absorbed taken⟩

theorem TakesIn.append {root top last : Page} {pages more : List PageNo} (taken : TakesIn root s pages top t)
    (later : TakesIn top t more last u) : TakesIn root s (pages ++ more) last u := by
  induction taken with
  | nil => exact later
  | cons inner none_ only absorbed _ ih => exact .cons inner none_ only absorbed (ih later)

theorem TakesIn.inside {root last : Page} {pages : List PageNo} (taken : TakesIn root s pages last t) :
    (∀ n ∈ pages, 2 ≤ n ∧ n ≤ s.pageCount) ∧ t.pageCount = s.pageCount := by
  induction taken with
  | nil => exact ⟨nofun, rfl⟩
  | cons inner none_ only absorbed rest ih =>
    obtain ⟨page, child, u, isPage, -, -, low, high, same⟩ := absorbChild_replaces absorbed
    cases isPage.symm.trans only
    obtain ⟨bounds, length⟩ := ih
    refine ⟨List.forall_mem_cons.mpr ⟨⟨low, high⟩, fun n among => ?_⟩, length.trans same⟩
    rw [← same]
    exact bounds n among

theorem TakesIn.length_le {root last : Page} {pages : List PageNo} (taken : TakesIn root s pages last t)
    (once : pages.Nodup) : pages.length ≤ s.pageCount - 1 := by
  have among : pages ⊆ List.range' 2 (s.pageCount - 1) := fun n member => by
    obtain ⟨low, high⟩ := taken.inside.1 n member
    exact List.mem_range'_1.mpr ⟨low, Nat.lt_of_le_of_lt high (by omega)⟩
  have short := (List.subperm_of_subset once among).length_le
  rw [List.length_range'] at short
  exact short

theorem ends_or_takes (afterDelete : Bool) (root : Page) (s : Store) :
    (∃ out, Ends afterDelete 1 (.root root) s out) ∨
      ∃ page top t, iterate afterDelete (.root root) s = .ok (some (.root top)) t ∧ TakesIn root s [page] top t := by
  cases run : iterate afterDelete (.root root) s with
  | error e t => exact .inl ⟨_, .failed run⟩
  | ok next t =>
    cases next with
    | none => exact .inl ⟨_, .done run⟩
    | some next =>
      obtain ⟨inner, none_, top, rfl, absorbed⟩ := absorbs run
      obtain ⟨page, child, u, only, -⟩ := absorbChild_replaces absorbed
      exact .inr ⟨page, top, t, rfl, .cons inner none_ only absorbed .nil⟩

theorem collapse_ends {root top : Page} {before : List PageNo} (left : Nat) (once : Once root s)
    (taken : TakesIn root s before top t) (enough : s.pageCount - 1 ≤ before.length + left) :
    ∃ n out, n ≤ left + 1 ∧ Ends afterDelete n (.root top) t out := by
  induction left generalizing before top t with
  | zero =>
    obtain ⟨out, ends⟩ | ⟨page, last, u, run, next⟩ := ends_or_takes afterDelete top t
    · exact ⟨1, out, Nat.le_refl 1, ends⟩
    · have more := taken.append next
      have length := more.length_le (once _ _ _ more)
      rw [List.length_append, List.length_singleton] at length
      omega
  | succ left ih =>
    obtain ⟨out, ends⟩ | ⟨page, last, u, run, next⟩ := ends_or_takes afterDelete top t
    · exact ⟨1, out, Nat.succ_le_succ (Nat.zero_le _), ends⟩
    · have room : s.pageCount - 1 ≤ (before ++ [page]).length + left := by
        rw [List.length_append, List.length_singleton]
        omega
      obtain ⟨n, out, few, ends⟩ := ih (taken.append next) room
      exact ⟨n + 1, out, Nat.succ_le_succ few, .more run ends⟩

variable {out : EStateM.Result Error Store Unit} {page : Page}

theorem Ends.of_error {e : Error} (ends : Ends afterDelete n stage s out)
    (run : iterate afterDelete stage s = .error e t) : out = .error e t := by
  cases ends with
  | done run' => cases run'.symm.trans run
  | failed run' =>
    cases run'.symm.trans run
    rfl
  | more run' => cases run'.symm.trans run

theorem Ends.of_next (ends : Ends afterDelete n stage s out) (run : iterate afterDelete stage s = .ok (some next) t) :
    ∃ m, n = m + 1 ∧ Ends afterDelete m next t out := by
  cases ends with
  | done run' => cases run'.symm.trans run
  | failed run' => cases run'.symm.trans run
  | more run' rest =>
    cases run'.symm.trans run
    exact ⟨_, rfl, rest⟩

theorem write_ends (last : iterate afterDelete stage s = (do
    writePage page
    return none : StoreM (Option Stage)) t) : Ends afterDelete 1 stage s (writePage page t) := by
  cases written : writePage page t with
  | ok a u =>
    rw [Action.bind_of_ok written] at last
    exact .done last
  | error e u =>
    rw [Action.bind_of_error written] at last
    exact .failed last

theorem Ends.unique {out' : EStateM.Result Error Store Unit} (ends : Ends afterDelete n stage s out)
    (other : Ends afterDelete m stage s out') : out = out' := by
  induction ends generalizing m with
  | done run =>
    cases other with
    | done run' =>
      cases run.symm.trans run'
      rfl
    | failed run' => cases run.symm.trans run'
    | more run' => cases run.symm.trans run'
  | failed run => exact (other.of_error run).symm
  | more run rest ih =>
    obtain ⟨k, -, later⟩ := other.of_next run
    exact ih later

theorem Ends.collapsed {root : Page} {left : Nat} (ends : Ends afterDelete n (.root root) s out) (enough : n ≤ left) :
    (do writePage (← collapse left root) : StoreM Unit) s = out := by
  induction left generalizing n root s with
  | zero =>
    rw [Nat.le_zero.mp enough] at ends
    cases ends
  | succ left ih =>
    unfold collapse
    by_cases stop : (root.isLeaf || decide (root.cellCount ≠ 0)) = true
    · rw [if_pos stop, Action.pure_bind_run]
      refine (write_ends ?_).unique ends
      rw [iterate, if_pos stop]
    · rw [if_neg stop]
      cases absorbed : absorbChild root s with
      | error e t =>
        rw [Action.bind_of_error (Action.bind_of_error absorbed)]
        refine (ends.of_error ?_).symm
        rw [iterate, if_neg stop, Action.bind_of_error absorbed]
      | ok result t =>
        cases result with
        | some top =>
          have run : iterate afterDelete (.root root) s = .ok (some (.root top)) t := by
            rw [iterate, if_neg stop, Action.bind_of_ok absorbed]
            rfl
          obtain ⟨m, rfl, rest⟩ := ends.of_next run
          rw [bind_assoc, Action.bind_of_ok absorbed]
          exact ih rest (Nat.le_of_succ_le_succ enough)
        | none =>
          rw [bind_assoc, Action.bind_of_ok absorbed]
          refine (write_ends ?_).unique ends
          rw [iterate, if_neg stop, Action.bind_of_ok absorbed]

def Acyclic (afterDelete : Bool) (stage : Stage) (s : Store) : Prop :=
  ∀ n root t, Leads afterDelete n stage s (.root root) t → Once root t

theorem Acyclic.after (acyclic : Acyclic afterDelete stage s) (run : iterate afterDelete stage s = .ok (some next) t) :
    Acyclic afterDelete next t := fun _ _ _ leads =>
  acyclic _ _ _ (.step run leads)

theorem Once.acyclic {frame : Frame} (once : Once frame.page s) (clear : frame.page.hasParked = false) :
    Acyclic afterDelete (.level [frame]) s := by
  intro n root t leads pages last u taken
  obtain _ | ⟨run, rest⟩ := leads
  cases climbs run with
  | grown parked => cases clear.symm.trans parked
  | arrived =>
    obtain ⟨before, first⟩ := rest.takesIn
    exact (List.nodup_append.mp (once _ _ _ (first.append taken))).2.1

theorem root_ends {frame : Frame} (acyclic : Acyclic afterDelete (.level [frame]) s)
    (clear : ¬ frame.page.hasParked = true) :
    ∃ n out, Ends afterDelete n (.level [frame]) s out ∧ (0 < s.usableSize →
      (do
        let s ← get
        writePage (← collapse (s.usableSize + s.pageCount) frame.page) : StoreM Unit) s = out) := by
  have run : iterate afterDelete (.level [frame]) s = .ok (some (.root frame.page)) s := by
    rw [iterate, if_neg clear]
    rfl
  obtain ⟨n, out, few, ends⟩ : ∃ n out, n ≤ s.pageCount - 1 + 1 ∧ Ends afterDelete n (.root frame.page) s out :=
    collapse_ends (s.pageCount - 1) (acyclic _ _ _ (.step run .here)) .nil (Nat.le_add_left _ _)
  exact ⟨n + 1, out, .more run ends, fun usable => ends.collapsed (by omega)⟩

theorem balance_usable {parent child result : Page} {index : Nat}
    (run : Siblings.balance parent index child s = .ok result t) : t.usableSize = s.usableSize := by
  have within : Within Pager.Remembers s ((Siblings.balance parent index child).final s) :=
    Respects.final (Siblings.balance parent index child) s
  rw [Action.final_of_ok run] at within
  exact within.settled.usableSize

theorem deepen_usable {root child top : Page} (run : deepen root s = .ok (child, top) t) :
    t.usableSize = s.usableSize := by
  have within : Within Pager.Remembers s ((deepen root).final s) := Respects.final (deepen root) s
  rw [Action.final_of_ok run] at within
  exact within.settled.usableSize

theorem settleRoot_ends (left : Nat) {frame : Frame} (acyclic : Acyclic afterDelete (.level [frame]) s)
    (enough : frame.page.logicalCount ≤ left) :
    ∃ n out, Ends afterDelete n (.level [frame]) s out ∧
      (0 < s.usableSize → settleRoot left frame.page s = out) := by
  induction left generalizing frame s with
  | zero =>
    have clear : ¬ frame.page.hasParked = true := by
      have empty : frame.page.parked = [] := by
        refine List.eq_nil_of_length_eq_zero ?_
        unfold Page.logicalCount at enough
        omega
      unfold Page.hasParked
      rw [empty]
      exact nofun
    rw [settleRoot, if_neg clear]
    exact root_ends acyclic clear
  | succ left ih =>
    by_cases parked : frame.page.hasParked = true
    · rw [settleRoot, if_pos parked]
      cases deepened : deepen frame.page s with
      | error e t =>
        refine ⟨1, _, .failed ?_, fun _ => Action.bind_of_error deepened⟩
        rw [iterate, if_pos parked, Action.bind_of_error deepened]
      | ok pair t =>
        obtain ⟨child, top⟩ := pair
        have run : iterate afterDelete (.level [frame]) s = .ok (some (.level [⟨child, 0⟩, ⟨top, 0⟩])) t := by
          rw [iterate, if_pos parked, Action.bind_of_ok deepened]
          rfl
        have needed : needsBalance child afterDelete = true := by
          have same : child.hasParked = frame.page.hasParked := by
            unfold Page.hasParked
            rw [(deepen_count deepened).2.1]
          unfold needsBalance
          rw [same, parked]
          rfl
        rw [Action.bind_of_ok deepened]
        dsimp only
        cases balanced : Siblings.balance top 0 child t with
        | error e u =>
          refine ⟨2, _, .more run (.failed ?_), fun _ => Action.bind_of_error balanced⟩
          rw [iterate, if_pos needed, Action.bind_of_error balanced]
        | ok page u =>
          have run' : iterate afterDelete (.level [⟨child, 0⟩, ⟨top, 0⟩]) t = .ok (some (.level [⟨page, 0⟩])) u := by
            rw [iterate, if_pos needed, Action.bind_of_ok balanced]
            rfl
          have fewer := grown_count parked deepened balanced
          have later : Acyclic afterDelete (.level [⟨page, 0⟩]) u := (acyclic.after run).after run'
          obtain ⟨n, out, ends, same⟩ := ih later (Nat.le_of_lt_succ (Nat.lt_of_lt_of_le fewer enough))
          refine ⟨n + 2, out, .more run (.more run' ends), fun usable => ?_⟩
          rw [Action.bind_of_ok balanced]
          exact same (by rwa [balance_usable balanced, deepen_usable deepened])
    · rw [settleRoot, if_neg parked]
      exact root_ends acyclic parked

theorem climb_ends {frames : List Frame} {frame : Frame} (acyclic : Acyclic afterDelete (.level (frame :: frames)) s) :
    ∃ n out, Ends afterDelete n (.level (frame :: frames)) s out ∧
      (0 < s.usableSize → climb afterDelete frame.page frames s = out) := by
  induction frames generalizing frame s with
  | nil => exact settleRoot_ends frame.page.logicalCount acyclic (Nat.le_refl _)
  | cons parent above ih =>
    rw [climb]
    by_cases needed : needsBalance frame.page afterDelete = true
    · rw [if_pos needed]
      cases balanced : Siblings.balance parent.page parent.index frame.page s with
      | error e t =>
        refine ⟨1, _, .failed ?_, fun _ => Action.bind_of_error balanced⟩
        rw [iterate, if_pos needed, Action.bind_of_error balanced]
      | ok page t =>
        have run : iterate afterDelete (.level (frame :: parent :: above)) s =
            .ok (some (.level ({ parent with page } :: above))) t := by
          rw [iterate, if_pos needed, Action.bind_of_ok balanced]
          rfl
        obtain ⟨n, out, ends, same⟩ := ih (acyclic.after run)
        refine ⟨n + 1, out, .more run ends, fun usable => ?_⟩
        rw [Action.bind_of_ok balanced]
        exact same (by rwa [balance_usable balanced])
    · rw [if_neg needed]
      refine ⟨1, _, write_ends ?_, fun _ => rfl⟩
      rw [iterate, if_neg needed]

section Upright

variable {d : Disk} {tree : TreeKind} {h H : Nat} {others : List Nat}

/-- A root without parked cells, at the top of a tree that stands on the disk, with `h` levels and these pages below
it. -/
def Topped (s : Store) (root : Page) (h : Nat) (below : List PageNo) : Prop :=
  ∃ (d : Disk) (tree : TreeKind) (others : List Nat) (node : Node (Limb h)), s.Shows d ∧ Pending d tree root node ∧
    root.parked = [] ∧ d.Books (Limb.pages (h + 1) node ++ others) ∧ 1 ∈ node.page :: others ∧
    node.row.hanging = below

/-- Apart from a page that is changed in memory, and from a root that has just grown, the tree that the loop works on
stands on the disk. -/
inductive Upright : Stage → Store → Prop
  | climbing {s : Store} {d : Disk} {tree : TreeKind} {h H : Nat} {others : List Nat} {frame : Frame}
      {frames : List Frame} {node : Node (Limb h)} {spine : Spine h H} (shows_ : s.Shows d)
      (pending : Pending d tree frame.page node) (stands : d.Stands tree node.page spine frames)
      (books : d.Books (Limb.pages (h + 1) node ++ (spine.pages ++ others)))
      (one : 1 ∈ spine.top node.page :: others) : Upright (.level (frame :: frames)) s
  | grown {s : Store} {d : Disk} {tree : TreeKind} {h page : Nat} {others : List Nat} {child root : Page}
      {row : Row (Node (Limb h))} (shows_ : s.Shows d) (family : Family d tree root 0 child page row)
      (books : d.Books (Row.hanging (h := h + 1) row ++ page :: others)) (one : 1 ∈ page :: others) :
      Upright (.level [⟨child, 0⟩, ⟨root, 0⟩]) s
  | topped {s : Store} {root : Page} {h : Nat} {below : List PageNo} (topped : Topped s root h below) :
      Upright (.root root) s

theorem Topped.absorb {root top : Page} {page : PageNo} {below : List PageNo} (topped : Topped s root h below)
    (inner : root.isLeaf = false) (none_ : root.cellCount = 0) (only : root.child 0 = .ok page)
    (run : absorbChild root s = .ok (some top) t) :
    ∃ k fewer, h = k + 1 ∧ below = page :: fewer ∧ page ∉ fewer ∧ Topped t top k fewer := by
  obtain ⟨d, tree, others, node, shows_, pending, clear, books, one, isBelow⟩ := topped
  have leaf := pending.mirrors.isLeaf
  have count := pending.mirrors.count clear
  cases h with
  | zero =>
    rw [leaf] at inner
    cases inner
  | succ k =>
    obtain ⟨number, ⟨cells, kid⟩⟩ := node
    obtain rfl : cells = [] := List.eq_nil_of_length_eq_zero (count.symm.trans none_)
    have isPage : kid.page = page := Option.some.inj (pending.mirrors.child clear only).2
    have pages : below = page :: kid.row.hanging := by
      rw [← isBelow, ← isPage]
      rfl
    have fresh : page ∉ kid.row.hanging := by
      have once : below.Nodup := isBelow ▸ (List.nodup_cons.mp (List.nodup_append.mp books.nodup).1).2
      rw [pages] at once
      exact (List.nodup_cons.mp once).1
    rcases absorbChild_ok (h := k) shows_ pending clear books one run with
      ⟨next, e, same, showsT, -, pendingT, clearT, booksT, -, -⟩ | ⟨nothing, -⟩
    · cases same
      exact ⟨k, kid.row.hanging, rfl, pages, fresh, e, tree, others, ⟨number, kid.row⟩, showsT, pendingT, clearT, booksT,
        one, rfl⟩
    · cases nothing

theorem Topped.once {root last : Page} {pages below : List PageNo} (topped : Topped s root h below)
    (taken : TakesIn root s pages last t) : pages.Nodup ∧ ∀ n ∈ pages, n ∈ below := by
  induction taken generalizing h below with
  | nil => exact ⟨.nil, nofun⟩
  | cons inner none_ only absorbed _ ih =>
    obtain ⟨k, fewer, -, rfl, fresh, toppedT⟩ := topped.absorb inner none_ only absorbed
    obtain ⟨once, among⟩ := ih toppedT
    refine ⟨List.nodup_cons.mpr ⟨fun again => fresh (among _ again), once⟩, List.forall_mem_cons.mpr ?_⟩
    exact ⟨List.mem_cons_self, fun n member => List.mem_cons_of_mem _ (among n member)⟩

theorem Upright.after (upright : Upright stage s) (run : iterate afterDelete stage s = .ok (some last) t) :
    Upright last t := by
  cases upright with
  | @climbing _ _ _ h H others frame frames node spine shows_ pending stands books one =>
    cases stands with
    | root =>
      cases climbs run with
      | grown parked deepened =>
        obtain ⟨number, e, showsT, -, -, family, booksT, -, -⟩ := deepen_ok shows_ pending books one deepened
        exact .grown showsT family booksT one
      | arrived clear =>
        exact .topped ⟨_, _, _, node, shows_, pending, by simpa [Page.hasParked] using clear, books,
          one, rfl⟩
    | under level rest =>
      cases climbs run with
      | risen balanced =>
        obtain ⟨row', e, showsT, -, -, balanced, booksT, standsT⟩ :=
          rise_ok shows_ pending level rest books one balanced
        exact .climbing showsT balanced.pending standsT booksT one
  | @grown _ _ tree h page _ _ _ _ shows_ family books one =>
    cases climbs run with
    | risen balanced =>
      obtain ⟨row', e, showsT, -, balanced⟩ := Siblings.balance_ok shows_ family books one List.mem_cons_self balanced
      have stands : e.Stands tree page (.root : Spine (h + 1) (h + 1)) [] := .root
      exact .climbing showsT balanced.pending stands (balanced.books.perm List.perm_middle) one
  | topped topped =>
    obtain ⟨inner, none_, top, rfl, absorbed⟩ := absorbs run
    obtain ⟨page, child, u, only, -⟩ := absorbChild_replaces absorbed
    obtain ⟨k, fewer, -, -, -, toppedT⟩ := topped.absorb inner none_ only absorbed
    exact .topped toppedT

theorem Upright.leads (upright : Upright stage s) (leads : Leads afterDelete n stage s last t) : Upright last t := by
  induction leads with
  | here => exact upright
  | step run _ ih => exact ih (upright.after run)

theorem Upright.acyclic (upright : Upright stage s) : Acyclic afterDelete stage s := by
  intro n root t leads pages last u taken
  cases upright.leads leads with
  | topped topped => exact (topped.once taken).1

end Upright

end Balance

open Balance

/-- Balancing ends, whatever the file holds. Whenever the loop is back at a root it has fewer cells; every iteration
on a path either makes the root grow, goes over to the inner loop or leaves a shorter path; and in the inner loop the
root becomes what its only child was, so that a tree that stands loses a level and the page of that child. As long as
no page comes up twice below a root, which is so for every tree that stands, the loop ends, with an answer or an
error, and this is what `balance` does. -/
theorem balance_terminates (afterDelete : Bool) (path : Path) (s : Store) :
    (∀ n frame frame' t u, Leads afterDelete (n + 1) (.level [frame]) t (.level [frame']) u →
      frame'.page.logicalCount < frame.page.logicalCount) ∧
    (∀ path next t u, iterate afterDelete (.level path) t = .ok (some next) u →
      (∃ frame child root, path = [frame] ∧ deepen frame.page t = .ok (child, root) u ∧
        next = .level [⟨child, 0⟩, ⟨root, 0⟩]) ∨
      (∃ frame, path = [frame] ∧ next = .root frame.page ∧ u = t) ∨
      ∃ shorter, next = .level shorter ∧ shorter.length < path.length) ∧
    (∀ root next t u, iterate afterDelete (.root root) t = .ok (some next) u →
      ∃ page child top v, next = .root top ∧ root.child 0 = .ok page ∧ loadPage page t = .ok child v ∧
        Replaces child top ∧ ∀ h below, Topped t root h below →
          ∃ k fewer, h = k + 1 ∧ below = page :: fewer ∧ Topped u top k fewer) ∧
    (Upright (.level path) s → Acyclic afterDelete (.level path) s) ∧
    (Acyclic afterDelete (.level path) s → ∃ n out, Ends afterDelete n (.level path) s out ∧
      (0 < s.usableSize → balance path afterDelete s = out)) := by
  refine ⟨fun n frame frame' t u leads => leads.root_shrinks, fun path next t u run => ?_,
    fun root next t u run => ?_, Upright.acyclic, fun acyclic => ?_⟩
  · cases climbs run with
    | grown parked deepened => exact .inl ⟨_, _, _, rfl, deepened, rfl⟩
    | risen balanced => exact .inr (.inr ⟨_, rfl, Nat.lt_succ_self _⟩)
    | arrived clear => exact .inr (.inl ⟨_, rfl, rfl, rfl⟩)
  · obtain ⟨inner, none_, top, rfl, absorbed⟩ := absorbs run
    obtain ⟨page, child, v, only, loaded, replaces, -⟩ := absorbChild_replaces absorbed
    refine ⟨page, child, top, v, rfl, only, loaded, replaces, fun h below topped => ?_⟩
    obtain ⟨k, fewer, less, pages, -, toppedU⟩ := topped.absorb inner none_ only absorbed
    exact ⟨k, fewer, less, pages, toppedU⟩
  · cases path with
    | nil => exact ⟨1, _, .failed rfl, fun _ => rfl⟩
    | cons frame frames => exact climb_ends acyclic

open Integrity (planted planted_shows)

theorem planted_parent : ∃ parent : Page, parent.Of planted.disk 2 .tableInterior ∧
    parent.Bears [] (some 3) ∧ parent.parked = [] := by
  have sound := planted_shows.disk_sound
  obtain ⟨blank, isBlank, -⟩ := Page.empty_run 2 .tableInterior planted.disk.limits (sound.geometry 2)
  obtain ⟨bears, remade⟩ := Page.empty_bears (sound.geometry 2) isBlank
  have interior : blank.isLeaf = false := by
    unfold Page.isLeaf
    rw [remade.kind]
    rfl
  obtain ⟨⟨⟩, parent, run⟩ := bears.setRightChild_runs interior 3
  obtain ⟨bearsParent, alike, kind, parked⟩ := Page.setRightChild_bears bears (by decide) run
  have same := remade.alike.trans alike
  exact ⟨parent, ⟨same.number, same.geometry, same.limits, kind.trans remade.kind⟩, bearsParent,
    parked.trans remade.parked⟩

/-- On page 2 of this store, changed in memory, the cells are gone and only page 3 is left below it. -/
theorem balance_terminates_planted : ∃ (frame : Frame) (n : Nat) (out : EStateM.Result Error Store Unit),
    frame.page.isLeaf = false ∧ frame.page.cellCount = 0 ∧ frame.page.child 0 = .ok 3 ∧
      Acyclic true (.level [frame]) planted ∧ Ends true n (.level [frame]) planted out ∧
      balance [frame] true planted = out := by
  obtain ⟨parent, is, bears, clear⟩ := planted_parent
  obtain ⟨-, leaf, -, -, parsed, -, -, -, -, -, -, -, kind, -⟩ := planted_pages
  have inner : parent.isLeaf = false := by
    unfold Page.isLeaf
    rw [is.kind]
    rfl
  have none_ : parent.cellCount = 0 := bears.count clear
  have only : parent.child 0 = .ok 3 := (bears.child_ok clear).mpr ⟨by decide, rfl⟩
  have acyclic : Acyclic true (.level [⟨parent, 0⟩]) planted := by
    refine Once.acyclic (fun pages last t taken => ?_) (by unfold Page.hasParked; rw [clear]; rfl)
    cases taken with
    | nil => exact .nil
    | @cons _ top _ _ _ _ page rest _ _ _ absorbed later =>
      -- The child is a leaf, and so is the root when it has taken it in.
      obtain ⟨number, child, v, isNumber, loaded, replaces, -⟩ := absorbChild_replaces absorbed
      cases isNumber.symm.trans only
      obtain ⟨-, -, parsed'⟩ := loadPage_parse planted_shows loaded
      cases parsed'.symm.trans parsed
      have isLeaf : top.isLeaf = true := by
        unfold Page.isLeaf
        rw [replaces.kind, kind]
        rfl
      rw [later.of_leaf isLeaf]
      exact List.nodup_singleton page
  obtain ⟨n, out, ends, same⟩ := (balance_terminates true [⟨parent, 0⟩] planted).2.2.2.2 acyclic
  exact ⟨⟨parent, 0⟩, n, out, inner, none_, only, acyclic, ends, same (by decide)⟩

end TreeFile
