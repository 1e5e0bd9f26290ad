import Mathlib.Data.List.Basic

/-!
A linear scan for the largest accepted element of a list.
-/
namespace LongestMatch
variable {α : Type} (accepts : α → Bool) (size : α → Nat)

def better (best : Option α) (x : α) : Option α :=
  if accepts x then
    match best with
    | none => some x
    | some b => if size b < size x then some x else some b
  else best

def scan (xs : List α) : Option α := xs.foldl (better accepts size) none

def Found (xs : List α) : Option α → Prop
  | none => ∀ x ∈ xs, accepts x = false
  | some b => b ∈ xs ∧ accepts b = true ∧ ∀ x ∈ xs, accepts x = true → size x ≤ size b

variable {accepts size}

theorem better_found {xs : List α} {best : Option α} (x : α) (found : Found accepts size xs best) :
    Found accepts size (xs ++ [x]) (better accepts size best x) := by
  unfold better
  split
  · rename_i ok
    cases best with
    | none =>
      refine ⟨by simp, ok, fun y member accepted => ?_⟩
      rcases List.mem_append.mp member with old | new
      · simp [found y old] at accepted
      · simp [List.mem_singleton.mp new]
    | some b =>
      obtain ⟨member, accepted, largest⟩ := found
      simp only
      split
      · rename_i larger
        refine ⟨by simp, ok, fun y inside ok => ?_⟩
        rcases List.mem_append.mp inside with old | new
        · exact Nat.le_of_lt (Nat.lt_of_le_of_lt (largest y old ok) larger)
        · simp [List.mem_singleton.mp new]
      · rename_i smaller
        refine ⟨by simp [member], accepted, fun y inside ok => ?_⟩
        rcases List.mem_append.mp inside with old | new
        · exact largest y old ok
        · rw [List.mem_singleton.mp new]
          exact Nat.not_lt.mp smaller
  · rename_i refused
    cases best with
    | none =>
      intro y member
      rcases List.mem_append.mp member with old | new
      · exact found y old
      · simpa [List.mem_singleton.mp new] using refused
    | some b =>
      obtain ⟨member, accepted, largest⟩ := found
      refine ⟨by simp [member], accepted, fun y inside ok => ?_⟩
      rcases List.mem_append.mp inside with old | new
      · exact largest y old ok
      · exact absurd (List.mem_singleton.mp new ▸ ok) refused

theorem scan_found (accepts : α → Bool) (size : α → Nat) (xs : List α) :
    Found accepts size xs (scan accepts size xs) := by
  have run : ∀ (ys : List α) (done : List α) (best : Option α), Found accepts size done best →
      Found accepts size (done ++ ys) (ys.foldl (better accepts size) best) := by
    intro ys
    induction ys with
    | nil => intro done best found; simpa using found
    | cons y ys ih =>
      intro done best found
      simpa using ih (done ++ [y]) _ (better_found y found)
  exact run xs [] none (by simp [Found])

end LongestMatch
