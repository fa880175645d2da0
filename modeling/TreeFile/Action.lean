import TreeFile.Error

/-!
Actions: steps over a state that answer or fail. A failing action still says what it left behind,
because a caller goes on with a page or a file that was changed half way.
-/

namespace TreeFile

abbrev Action (σ α : Type) := EStateM Error σ α

namespace Action

variable {σ τ α : Type}

/-- An action on a part of the state. The part is taken out while it changes, so that it is
changed in place. -/
def zoom [Inhabited τ] (part : σ → τ) (put : σ → τ → σ) (act : Action τ α) : Action σ α :=
  fun s =>
    let t := part s
    let s := put s default
    match act t with
    | .ok a t => .ok a (put s t)
    | .error e t => .error e (put s t)

def attempt (act : Action σ α) : Action σ (Except Error α) := fun s =>
  match act s with
  | .ok a s => .ok (.ok a) s
  | .error e s => .ok (.error e) s

def apply (act : Action τ α) (t : τ) : Except Error (α × τ) :=
  match act t with
  | .ok a t => .ok (a, t)
  | .error e _ => .error e

def applied (act : Action τ Unit) (t : τ) : Except Error τ :=
  (apply act t).map Prod.snd

def outcome (act : Action σ α) (s : σ) : Except Error α × σ :=
  match act s with
  | .ok a s => (.ok a, s)
  | .error e s => (.error e, s)

instance : MonadLift (Except Error) (EStateM Error σ) where
  monadLift
    | .ok a => pure a
    | .error e => throw e

end Action

end TreeFile
