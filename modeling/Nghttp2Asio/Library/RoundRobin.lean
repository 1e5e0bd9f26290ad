import Mathlib.Data.Int.CardIntervalMod

/-!
A cursor that goes round a ring of slots, and how often it has stood at each of them.
-/
namespace RoundRobin

structure Cursor where
  size : Nat
  next : Nat
  inside : next < size

theorem wrap_inside {size n : Nat} (inside : n < size) :
    (if n + 1 = size then 0 else n + 1) < size := by
  split <;> omega

def Cursor.pick (r : Cursor) : Nat × Cursor :=
  (r.next, ⟨r.size, if r.next + 1 = r.size then 0 else r.next + 1, wrap_inside r.inside⟩)

theorem wrap_mod {size n : Nat} (inside : n < size) :
    (if n + 1 = size then 0 else n + 1) = (n + 1) % size := by
  split
  · rename_i last
    rw [last, Nat.mod_self]
  · rw [Nat.mod_eq_of_lt (by omega)]

def turns (size start k : Nat) : List Nat := (List.range k).map (fun i => (start + i) % size)

theorem turns_succ (size start k : Nat) :
    turns size start (k + 1) = turns size start k ++ [(start + k) % size] := by
  simp [turns, List.range_succ]

@[simp] theorem turns_length (size start k : Nat) : (turns size start k).length = k := by
  simp [turns]

/-- A cursor that stood at `start` has made `k` turns. -/
structure Cursor.Turned (r : Cursor) (size start k : Nat) : Prop where
  same : r.size = size
  next : r.next = (start + k) % size

theorem Cursor.Turned.pick {r : Cursor} {size start k : Nat} (turned : r.Turned size start k) :
    r.pick.1 = (start + k) % size ∧ r.pick.2.Turned size start (k + 1) := by
  obtain ⟨rfl, next⟩ := turned
  refine ⟨next, rfl, ?_⟩
  simp only [Cursor.pick]
  rw [wrap_mod r.inside, next, Nat.mod_add_mod, Nat.add_assoc]

theorem Cursor.Turned.shift {r : Cursor} {size start k : Nat} (turned : r.Turned size start k) :
    r.Turned size (start + k) 0 := ⟨turned.same, turned.next⟩

theorem turn_iff {size start slot i : Nat} (inside : slot < size) :
    (start + i) % size = slot ↔ i ≡ slot + (size - start % size) [MOD size] := by
  have positive : 0 < size := by omega
  have below := Nat.mod_lt start positive
  have back : start + (slot + (size - start % size)) ≡ slot [MOD size] := by
    have split := Nat.div_add_mod start size
    have sum : start + (slot + (size - start % size)) = slot + size * (start / size + 1) := by
      rw [Nat.mul_add, Nat.mul_one]
      omega
    rw [sum]
    exact Nat.add_modEq_left_iff.mpr (Nat.dvd_mul_right ..)
  constructor
  · intro here
    refine Nat.ModEq.add_left_cancel' start (Nat.ModEq.trans ?_ back.symm)
    rw [Nat.ModEq, here, Nat.mod_eq_of_lt inside]
  · intro same
    have there := (same.add_left start).trans back
    rwa [Nat.ModEq, Nat.mod_eq_of_lt inside] at there

theorem count_turns {size start slot : Nat} (inside : slot < size) (k : Nat) :
    (turns size start k).count slot =
      k / size + if (slot + (size - start % size)) % size < k % size then 1 else 0 := by
  rw [← Nat.count_modEq_card k (by omega), turns, List.count_eq_countP, List.countP_map, Nat.count]
  apply List.countP_congr
  intro i _
  simpa using turn_iff inside

/-- No slot is ahead of another by more than one turn. -/
theorem turns_balanced {size start a b : Nat} (a_inside : a < size) (b_inside : b < size) (k : Nat) :
    (turns size start k).count a ≤ (turns size start k).count b + 1 := by
  rw [count_turns a_inside, count_turns b_inside]
  split <;> split <;> omega

end RoundRobin
