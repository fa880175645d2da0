import TreeFile.Action

/-!
Running actions. A step whose outcome is known is rewritten away; a step of a run that succeeded
is taken apart into what it answered and the state it left.
-/

namespace TreeFile

namespace Action

variable {σ τ α β : Type}

theorem bind_of_ok {x : Action σ α} {f : α → Action σ β} {s t : σ} {a : α} (h : x s = .ok a t) :
    (x >>= f) s = f a t := by
  change EStateM.bind x f s = f a t
  simp only [EStateM.bind, h]

theorem bind_of_error {x : Action σ α} {f : α → Action σ β} {s t : σ} {e : Error}
    (h : x s = .error e t) : (x >>= f) s = .error e t := by
  change EStateM.bind x f s = .error e t
  simp only [EStateM.bind, h]

theorem bind_ok {x : Action σ α} {f : α → Action σ β} {s t : σ} {b : β} :
    (x >>= f) s = .ok b t ↔ ∃ a u, x s = .ok a u ∧ f a u = .ok b t := by
  constructor
  · intro run
    cases hx : x s with
    | ok a u => exact ⟨a, u, rfl, (bind_of_ok hx).symm.trans run⟩
    | error e u =>
      rw [bind_of_error hx] at run
      cases run
  · rintro ⟨a, u, hx, hf⟩
    rw [bind_of_ok hx, hf]

theorem get_bind (f : σ → Action σ β) (s : σ) : (get >>= f) s = f s s := rfl

theorem pure_bind_run (a : α) (f : α → Action σ β) (s : σ) : (pure a >>= f) s = f a s := rfl

theorem modify_bind (g : σ → σ) (f : PUnit → Action σ β) (s : σ) :
    (modify g >>= f) s = f () (g s) := rfl

theorem lift_ok_bind (a : α) (f : α → Action σ β) (s : σ) :
    ((liftM (Except.ok a : Except Error α) : Action σ α) >>= f) s = f a s := rfl

theorem lift_error_bind (e : Error) (f : α → Action σ β) (s : σ) :
    ((liftM (Except.error e : Except Error α) : Action σ α) >>= f) s = .error e s := rfl

theorem pure_run (a : α) (s : σ) : (pure a : Action σ α) s = .ok a s := rfl

theorem modify_run (g : σ → σ) (s : σ) : (modify g : Action σ PUnit) s = .ok () (g s) := rfl

theorem map_run (f : α → β) (x : Action σ α) : f <$> x = x >>= fun a => pure (f a) := by
  funext s
  change EStateM.map f x s = EStateM.bind x _ s
  cases h : x s <;> simp only [EStateM.map, EStateM.bind, h] <;> rfl

theorem lift_ok_run (a : α) (s : σ) :
    (liftM (Except.ok a : Except Error α) : Action σ α) s = .ok a s := rfl

theorem lift_error_run (e : Error) (s : σ) :
    (liftM (Except.error e : Except Error α) : Action σ α) s = .error e s := rfl

theorem lift_ok {x : Except Error α} {s t : σ} {a : α} :
    (liftM x : Action σ α) s = .ok a t ↔ x = .ok a ∧ s = t := by
  cases x with
  | ok b =>
    rw [lift_ok_run]
    constructor
    · intro h
      cases h
      exact ⟨rfl, rfl⟩
    · rintro ⟨h, rfl⟩
      cases h
      rfl
  | error e =>
    rw [lift_error_run]
    constructor
    · intro h
      cases h
    · rintro ⟨h, -⟩
      cases h

theorem pure_ok {a b : α} {s t : σ} : (pure a : Action σ α) s = .ok b t ↔ a = b ∧ s = t := by
  rw [pure_run]
  constructor
  · intro h
    cases h
    exact ⟨rfl, rfl⟩
  · rintro ⟨rfl, rfl⟩
    rfl

theorem throw_ok {e : Error} {a : α} {s t : σ} : ¬ (throw e : Action σ α) s = .ok a t := by
  intro h
  cases h

theorem lift_bind_ok {x : Except Error α} {f : α → Action σ β} {s t : σ} {b : β} :
    ((liftM x : Action σ α) >>= f) s = .ok b t ↔ ∃ a, x = .ok a ∧ f a s = .ok b t := by
  cases x with
  | ok a =>
    rw [lift_ok_bind]
    constructor
    · exact fun h => ⟨a, rfl, h⟩
    · rintro ⟨_, h, run⟩
      cases h
      exact run
  | error e =>
    rw [lift_error_bind]
    constructor
    · intro h
      cases h
    · rintro ⟨_, h, -⟩
      cases h

theorem throw_bind_ok {e : Error} {f : α → Action σ β} {s t : σ} {b : β} :
    ¬ ((throw e : Action σ α) >>= f) s = .ok b t := by
  intro h
  cases h

theorem zoom_run_ok [Inhabited τ] {part : σ → τ} {put : σ → τ → σ} {act : Action τ α} {s : σ} {t : τ}
    {a : α} (h : act (part s) = .ok a t) :
    zoom part put act s = .ok a (put (put s default) t) := by
  simp only [zoom, h]

theorem zoom_ok [Inhabited τ] {part : σ → τ} {put : σ → τ → σ} {act : Action τ α} {s s' : σ}
    {a : α} : zoom part put act s = .ok a s' ↔
      ∃ t, act (part s) = .ok a t ∧ s' = put (put s default) t := by
  cases h : act (part s) with
  | ok b t =>
    rw [zoom_run_ok h]
    constructor
    · intro run
      cases run
      exact ⟨t, rfl, rfl⟩
    · rintro ⟨u, same, rfl⟩
      cases same
      rfl
  | error e t =>
    simp only [zoom, h]
    constructor
    · intro run
      cases run
    · rintro ⟨u, same, -⟩
      cases same

theorem apply_ok {act : Action σ α} {s t : σ} {a : α} :
    apply act s = .ok (a, t) ↔ act s = .ok a t := by
  unfold apply
  cases h : act s with
  | ok b u =>
    constructor
    · intro run
      cases run
      rfl
    · intro run
      cases run
      rfl
  | error e u =>
    constructor
    · intro run
      cases run
    · intro run
      cases run

theorem applied_ok {act : Action σ Unit} {s t : σ} : applied act s = .ok t ↔ act s = .ok () t := by
  unfold applied apply
  cases h : act s with
  | ok b u =>
    constructor
    · intro run
      cases run
      rfl
    · intro run
      cases run
      rfl
  | error e u =>
    constructor
    · intro run
      cases run
    · intro run
      cases run

theorem attempt_run_ok {act : Action σ α} {s t : σ} {a : α} (h : act s = .ok a t) :
    attempt act s = .ok (.ok a) t := by
  simp only [attempt, h]

theorem attempt_run_error {act : Action σ α} {s t : σ} {e : Error} (h : act s = .error e t) :
    attempt act s = .ok (.error e) t := by
  simp only [attempt, h]

def final (act : Action σ α) (s : σ) : σ := (outcome act s).2

theorem final_of_ok {act : Action σ α} {s t : σ} {a : α} (h : act s = .ok a t) :
    final act s = t := by
  simp only [final, outcome, h]

theorem final_of_error {act : Action σ α} {s t : σ} {e : Error} (h : act s = .error e t) :
    final act s = t := by
  simp only [final, outcome, h]

theorem final_congr {x y : Action σ α} {s t : σ} (h : x s = y t) : final x s = final y t := by
  simp only [final, outcome, h]

theorem final_bind_of_ok {x : Action σ α} {f : α → Action σ β} {s t : σ} {a : α}
    (h : x s = .ok a t) : final (x >>= f) s = final (f a) t := by
  simp only [final, outcome, bind_of_ok h]

theorem final_bind_pure (x : Action σ α) (f : α → β) (s : σ) :
    final (x >>= fun a => pure (f a)) s = final x s := by
  cases h : x s with
  | ok a t => rw [final_bind_of_ok h, final_of_ok h, final_of_ok (pure_run (f a) t)]
  | error e t => rw [final_of_error (bind_of_error h), final_of_error h]

theorem final_attempt (act : Action σ α) (s : σ) : final (attempt act) s = final act s := by
  unfold final outcome attempt
  cases act s <;> rfl

theorem final_lift_ok (a : α) (f : α → Action σ β) (s : σ) :
    final ((liftM (Except.ok a : Except Error α) : Action σ α) >>= f) s = final (f a) s := rfl

theorem run'_of_ok {act : Action σ α} {s t : σ} {a : α} (run : act s = .ok a t) : act.run' s = some a := by
  unfold EStateM.run' EStateM.run
  rw [run]

theorem run_some {act : Action σ α} {s : σ} {a : α} (answers : act.run' s = some a) :
    ∃ t, act s = .ok a t := by
  unfold EStateM.run' EStateM.run at answers
  cases run : act s with
  | ok b t =>
    rw [run] at answers
    cases answers
    exact ⟨t, rfl⟩
  | error e t =>
    rw [run] at answers
    cases answers

def succeeds (act : Action σ α) (s : σ) : Bool :=
  match act s with
  | .ok _ _ => true
  | .error _ _ => false

theorem succeeds_of_ok {act : Action σ α} {s t : σ} {a : α} (run : act s = .ok a t) :
    succeeds act s = true := by
  unfold succeeds
  rw [run]

theorem succeeds_of_error {act : Action σ α} {s t : σ} {e : Error} (run : act s = .error e t) :
    succeeds act s = false := by
  unfold succeeds
  rw [run]

/-- Every run of `act`, a failing one too, leaves a state related to the one it began in. -/
def Stays (R : σ → σ → Prop) (act : Action σ α) : Prop := ∀ s, R s (final act s)

section Stays

variable {R : σ → σ → Prop} (refl : ∀ s, R s s) (trans : ∀ {s t u}, R s t → R t u → R s u)

include refl in
theorem Stays.pure (a : α) : Stays R (pure a : Action σ α) := fun s => refl s

include trans in
theorem Stays.bind {x : Action σ α} {f : α → Action σ β} (hx : Stays R x)
    (hf : ∀ a, Stays R (f a)) : Stays R (x >>= f) := by
  intro s
  have first := hx s
  cases h : x s with
  | ok a t =>
    rw [final_of_ok h] at first
    rw [final_bind_of_ok h]
    exact trans first (hf a t)
  | error e t =>
    rw [final_of_error h] at first
    rw [final_of_error (bind_of_error h)]
    exact first

end Stays

/-- A run of `act` ends well, with an answer and a state like this, or it fails and leaves a state
like that. -/
def Ends (act : Action σ α) (s : σ) (good : α → σ → Prop) (bad : σ → Prop) : Prop :=
  match act s with
  | .ok a t => good a t
  | .error _ t => bad t

namespace Ends

variable {act : Action σ α} {s t : σ} {a : α} {e : Error} {good good' : α → σ → Prop}
  {bad bad' : σ → Prop}

theorem of_ok (run : act s = .ok a t) (holds : good a t) : Ends act s good bad := by
  unfold Ends
  rw [run]
  exact holds

theorem of_error (run : act s = .error e t) (holds : bad t) : Ends act s good bad := by
  unfold Ends
  rw [run]
  exact holds

theorem ok (ends : Ends act s good bad) (run : act s = .ok a t) : good a t := by
  unfold Ends at ends
  rw [run] at ends
  exact ends

theorem error (ends : Ends act s good bad) (run : act s = .error e t) : bad t := by
  unfold Ends at ends
  rw [run] at ends
  exact ends

theorem imp (ends : Ends act s good bad) (well : ∀ a t, act s = .ok a t → good a t → good' a t)
    (ill : ∀ t, bad t → bad' t) : Ends act s good' bad' := by
  cases run : act s with
  | ok a t => exact of_ok run (well a t run (ends.ok run))
  | error e t => exact of_error run (ill t (ends.error run))

theorem bind {f : α → Action σ β} {last : β → σ → Prop} (ends : Ends act s good bad)
    (next : ∀ a t, act s = .ok a t → good a t → Ends (f a) t last bad) :
    Ends (act >>= f) s last bad := by
  cases run : act s with
  | ok a t =>
    have later := next a t run (ends.ok run)
    unfold Ends at later ⊢
    rw [bind_of_ok run]
    exact later
  | error e t => exact of_error (bind_of_error run) (ends.error run)

theorem get {f : σ → Action σ β} {good : β → σ → Prop} (ends : Ends (f s) s good bad) :
    Ends (MonadState.get >>= f) s good bad := ends

theorem modify {g : σ → σ} {f : PUnit → Action σ β} {good : β → σ → Prop}
    (ends : Ends (f ⟨⟩) (g s) good bad) : Ends (modify g >>= f) s good bad := ends

theorem lift {x : Except Error α} {f : α → Action σ β} {good : β → σ → Prop} (done : x = .ok a)
    (ends : Ends (f a) s good bad) : Ends ((liftM x : Action σ α) >>= f) s good bad := by
  subst done
  exact ends

theorem of_final {P : σ → Prop} (final : P (act.final s)) : Ends act s (fun _ => P) P := by
  cases run : act s with
  | ok a t => exact of_ok run (final_of_ok run ▸ final)
  | error e t => exact of_error run (final_of_error run ▸ final)

theorem final {P : σ → Prop} (ends : Ends act s (fun _ => P) P) : P (act.final s) := by
  cases run : act s with
  | ok a t => exact final_of_ok run ▸ ends.ok run
  | error e t => exact final_of_error run ▸ ends.error run

theorem returns (ends : Ends act s good fun _ => False) : ∃ a t, act s = .ok a t ∧ good a t := by
  cases run : act s with
  | ok a t => exact ⟨a, t, rfl, ends.ok run⟩
  | error e t => exact (ends.error run).elim

end Ends

def Runs (act : Action σ α) (s : σ) : Prop := ∃ a t, act s = .ok a t

namespace Runs

variable {act : Action σ α} {s : σ} {f : α → Action σ β}

theorem bind (first : Runs act s) (next : ∀ a t, act s = .ok a t → Runs (f a) t) :
    Runs (act >>= f) s := by
  obtain ⟨a, t, run⟩ := first
  obtain ⟨b, u, later⟩ := next a t run
  exact ⟨b, u, (bind_of_ok run).trans later⟩

theorem after {a : α} {t : σ} (run : act s = .ok a t) (next : Runs (f a) t) :
    Runs (act >>= f) s := by
  obtain ⟨b, u, later⟩ := next
  exact ⟨b, u, (bind_of_ok run).trans later⟩

theorem get {f : σ → Action σ β} (next : Runs (f s) s) : Runs (MonadState.get >>= f) s := next

theorem modify {g : σ → σ} {f : PUnit → Action σ β} (next : Runs (f ⟨⟩) (g s)) :
    Runs (modify g >>= f) s := next

theorem lift {x : Except Error α} {a : α} (done : x = .ok a) (next : Runs (f a) s) :
    Runs ((liftM x : Action σ α) >>= f) s := by
  rw [done]
  exact next

theorem pure (a : α) : Runs (pure a) s := ⟨a, s, rfl⟩

end Runs

end Action

namespace Except

variable {α β : Type}

theorem bind_ok {x : Except Error α} {f : α → Except Error β} {b : β} :
    (x >>= f) = .ok b ↔ ∃ a, x = .ok a ∧ f a = .ok b := by
  cases x with
  | ok a =>
    constructor
    · exact fun h => ⟨a, rfl, h⟩
    · rintro ⟨_, h, run⟩
      cases h
      exact run
  | error e =>
    constructor
    · intro h
      cases h
    · rintro ⟨_, h, -⟩
      cases h

theorem ok_bind (a : α) (f : α → Except Error β) : ((Except.ok a : Except Error α) >>= f) = f a :=
  rfl

theorem pure_bind_run (a : α) (f : α → Except Error β) :
    ((pure a : Except Error α) >>= f) = f a := rfl

theorem pure_ok {a b : α} : (pure a : Except Error α) = .ok b ↔ a = b := by
  constructor
  · intro h
    cases h
    rfl
  · rintro rfl
    rfl

theorem throw_ok {e : Error} {a : α} : ¬ (throw e : Except Error α) = .ok a := by
  intro h
  cases h

theorem throw_bind_ok {e : Error} {f : α → Except Error β} {b : β} :
    ¬ ((throw e : Except Error α) >>= f) = .ok b := by
  intro h
  cases h

theorem forM_of_ok {f : α → Except Error PUnit} (list : List α) (runs : ∀ a ∈ list, f a = .ok ()) :
    list.forM f = .ok () := by
  induction list with
  | nil => rfl
  | cons a rest ih =>
    rw [List.forM, runs a List.mem_cons_self, ok_bind]
    exact ih fun b member => runs b (List.mem_cons_of_mem a member)

theorem forM_ok {f : α → Except Error PUnit} {list : List α}
    (run : list.forM f = .ok ()) : ∀ a ∈ list, f a = .ok () := by
  induction list with
  | nil => exact fun _ member => nomatch member
  | cons a rest ih =>
    obtain ⟨_, first, run⟩ := bind_ok.mp run
    intro b member
    rcases List.mem_cons.mp member with rfl | later
    · exact first
    · exact ih run b later

theorem mapM_all {f : α → Except Error β} {P : β → Prop} {list : List α}
    (runs : ∀ a ∈ list, ∃ b, f a = .ok b ∧ P b) : ∃ values, list.mapM f = .ok values ∧ ∀ b ∈ values, P b := by
  induction list with
  | nil => exact ⟨[], rfl, fun _ member => absurd member List.not_mem_nil⟩
  | cons a rest ih =>
    obtain ⟨b, head, holds⟩ := runs a List.mem_cons_self
    obtain ⟨values, tail, all⟩ := ih fun other member => runs other (List.mem_cons_of_mem _ member)
    refine ⟨b :: values, ?_, List.forall_mem_cons.mpr ⟨holds, all⟩⟩
    rw [List.mapM_cons, head, ok_bind, tail]
    rfl

theorem mapM_length {f : α → Except Error β} {list : List α} {values : List β} (run : list.mapM f = .ok values) :
    values.length = list.length := by
  induction list generalizing values with
  | nil =>
    cases run
    rfl
  | cons a rest ih =>
    rw [List.mapM_cons] at run
    obtain ⟨b, -, run⟩ := bind_ok.mp run
    obtain ⟨tail, read, run⟩ := bind_ok.mp run
    cases run
    rw [List.length_cons, List.length_cons, ih read]

theorem mapM_range' {f : Nat → Except Error β} (values : List β) (start : Nat)
    (runs : ∀ i (h : i < values.length), f (start + i) = .ok values[i]) :
    (List.range' start values.length).mapM f = .ok values := by
  induction values generalizing start with
  | nil => rfl
  | cons value rest ih =>
    have tail := ih (start + 1) fun i h => by
      have run := runs (i + 1) (Nat.succ_lt_succ h)
      rw [Nat.add_right_comm]
      exact run
    have head : f start = .ok value := runs 0 (Nat.succ_pos _)
    rw [List.length_cons, List.range'_succ, List.mapM_cons, head, ok_bind, tail]
    rfl

theorem mapM_range {f : Nat → Except Error β} (values : List β)
    (runs : ∀ i (h : i < values.length), f i = .ok values[i]) :
    (List.range values.length).mapM f = .ok values := by
  rw [List.range_eq_range']
  exact mapM_range' values 0 fun i h => by
    rw [Nat.zero_add]
    exact runs i h

end Except

end TreeFile
