/-!
The total of a list of sizes.
-/

namespace TreeFile

def total : List Nat → Nat
  | [] => 0
  | size :: rest => size + total rest

@[simp] theorem total_nil : total [] = 0 := rfl

@[simp] theorem total_cons (size : Nat) (rest : List Nat) :
    total (size :: rest) = size + total rest := rfl

@[simp] theorem total_append (a b : List Nat) : total (a ++ b) = total a + total b := by
  induction a with
  | nil => simp
  | cons size rest ih => simp [ih, Nat.add_assoc]

end TreeFile
