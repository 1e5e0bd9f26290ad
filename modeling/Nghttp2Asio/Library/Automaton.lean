import Mathlib.Data.List.TakeWhile

/-!
Deterministic automata with an absorbing dead state: words on which the automaton stays
in a set of states, and how a word it survives splits at the first letter that may leave
the set.
-/
namespace Automaton
variable {σ α : Type} {δ : σ → α → σ} {dead : σ} {within : σ → Prop}

def Stays (δ : σ → α → σ) (within : σ → Prop) : σ → List α → Prop
  | _, [] => True
  | s, a :: rest => within (δ s a) ∧ Stays δ within (δ s a) rest

theorem foldl_dead (absorbing : ∀ a, δ dead a = dead) (w : List α) : w.foldl δ dead = dead := by
  induction w with
  | nil => rfl
  | cons a w ih => rw [List.foldl_cons, absorbing, ih]

theorem alive_head (absorbing : ∀ a, δ dead a = dead) {s : σ} {a : α} {w : List α}
    (alive : (a :: w).foldl δ s ≠ dead) : δ s a ≠ dead := by
  intro died
  rw [List.foldl_cons, died, foldl_dead absorbing] at alive
  exact alive rfl

theorem Stays.last {s : σ} {w : List α} (stays : Stays δ within s w) (inside : within s) :
    within (w.foldl δ s) := by
  induction w generalizing s with
  | nil => exact inside
  | cons a w ih => exact ih stays.2 stays.1

theorem Stays.letters {s : σ} {w : List α} (stays : Stays δ within s w) (entry : σ → Prop)
    (enter : ∀ s, within s → entry s) (start : entry s) : ∀ a ∈ w, ∃ t, entry t ∧ within (δ t a) := by
  induction w generalizing s with
  | nil => simp
  | cons a w ih =>
    intro b member
    rcases List.mem_cons.mp member with rfl | later
    · exact ⟨s, start, stays.1⟩
    · exact ih stays.2 (enter _ stays.1) b later

theorem stays_enters {s t : σ} {w : List α} (letters : ∀ a ∈ w, δ s a = t ∧ δ t a = t) :
    Stays δ (· = t) s w := by
  induction w generalizing s with
  | nil => trivial
  | cons a w ih =>
    have next := letters a (by simp)
    refine ⟨next.1, ih (fun b member => ?_)⟩
    rw [next.1]
    exact ⟨(letters b (by simp [member])).2, (letters b (by simp [member])).2⟩

theorem foldl_enters {s t : σ} {w : List α} (nonempty : w ≠ [])
    (letters : ∀ a ∈ w, δ s a = t ∧ δ t a = t) : w.foldl δ s = t := by
  have stays := stays_enters letters
  obtain ⟨a, w, rfl⟩ := List.exists_cons_of_ne_nil nonempty
  exact stays.2.last stays.1

/-- The word may start in a state of its own, from which the set is entered. -/
theorem stays_takeWhile {entry : σ → Prop} {keep : α → Bool} (absorbing : ∀ a, δ dead a = dead)
    (enter : ∀ s, within s → entry s)
    (body : ∀ s a, entry s → keep a = true → δ s a = dead ∨ within (δ s a))
    {s : σ} {w : List α} (start : entry s) (alive : w.foldl δ s ≠ dead) :
    Stays δ within s (w.takeWhile keep) := by
  induction w generalizing s with
  | nil => trivial
  | cons a w ih =>
    by_cases kept : keep a = true
    · have next : within (δ s a) :=
        (body s a start kept).resolve_left (alive_head absorbing alive)
      rw [List.takeWhile_cons_of_pos kept]
      exact ⟨next, ih (enter _ next) alive⟩
    · rw [List.takeWhile_cons_of_neg kept]
      trivial

theorem stays_of_alive {entry : σ → Prop} (absorbing : ∀ a, δ dead a = dead)
    (enter : ∀ s, within s → entry s)
    (body : ∀ s a, entry s → δ s a = dead ∨ within (δ s a))
    {s : σ} {w : List α} (start : entry s) (alive : w.foldl δ s ≠ dead) : Stays δ within s w := by
  have whole : w.takeWhile (fun _ => true) = w := List.takeWhile_eq_self_iff.mpr (by simp)
  have read := stays_takeWhile absorbing enter (fun s a reading (_ : true = true) => body s a reading)
    start alive
  exact whole ▸ read

end Automaton
