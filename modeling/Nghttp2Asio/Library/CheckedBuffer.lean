import Mathlib.Data.List.TakeDrop

/-!
Buffers whose accesses are checked. A buffer is the list of its cells; a read or a
write outside it gives `none`, so that a computation with a result has stayed inside.
-/
namespace CheckedBuffer
variable {α : Type}

section Compare
variable [DecidableEq α]

def equalAt (buf : List α) (i : Nat) : List α → Option Bool
  | [] => some true
  | k :: ks =>
    match buf[i]? with
    | none => none
    | some b => if k = b then equalAt buf (i + 1) ks else some false

theorem equalAt_inside {buf word : List α} {i : Nat} (room : i + word.length ≤ buf.length) :
    equalAt buf i word = some (decide (word <+: buf.drop i)) := by
  induction word generalizing i with
  | nil => simp [equalAt]
  | cons k ks ih =>
    rw [List.length_cons] at room
    have here : i < buf.length := by omega
    rw [equalAt, List.getElem?_eq_getElem here, List.drop_eq_getElem_cons here]
    simp only [List.cons_prefix_cons]
    split
    · rename_i same
      rw [ih (by omega)]
      simp [same]
    · rename_i different
      simp [different]

end Compare

section Write

def write (buf : List α) (i : Nat) (b : α) : Option (List α) :=
  if i < buf.length then some (buf.set i b) else none

theorem write_middle (before after : List α) (old b : α) :
    write (before ++ old :: after) before.length b = some (before ++ b :: after) := by
  rw [write, if_pos (by simp)]
  simp

end Write

section Read

def scan (accepts : α → Bool) (buf : List α) (i : Nat) : Option Nat :=
  if i = buf.length then some i
  else
    match h : buf[i]? with
    | none => none
    | some b => if accepts b then scan accepts buf (i + 1) else some i
termination_by buf.length - i
decreasing_by
  have inside := (List.getElem?_eq_some_iff.mp h).1
  omega

theorem scan_inside (accepts : α → Bool) {buf : List α} {i : Nat} (inside : i ≤ buf.length) :
    scan accepts buf i = some (i + ((buf.drop i).takeWhile accepts).length) := by
  induction rest : buf.length - i generalizing i with
  | zero =>
    have stop : i = buf.length := by omega
    rw [scan, if_pos stop, List.drop_of_length_le (by omega)]
    simp
  | succ k ih =>
    have here : i < buf.length := by omega
    rw [scan, if_neg (by omega), List.drop_eq_getElem_cons here]
    split
    · rename_i outside
      simp [List.getElem?_eq_getElem here] at outside
    · rename_i b found
      rw [List.getElem?_eq_getElem here, Option.some.injEq] at found
      rw [found]
      split
      · rename_i accepted
        rw [ih (by omega) (by omega), List.takeWhile_cons_of_pos accepted, List.length_cons]
        congr 1
        omega
      · rename_i refused
        rw [List.takeWhile_cons_of_neg refused]
        simp

def slice (buf : List α) (i j : Nat) : Option (List α) :=
  if i ≤ j ∧ j ≤ buf.length then some ((buf.drop i).take (j - i)) else none

theorem slice_inside {buf : List α} {i k : Nat} (inside : i + k ≤ buf.length) :
    slice buf i (i + k) = some ((buf.drop i).take k) := by
  rw [slice, if_pos (by omega), Nat.add_sub_cancel_left]

end Read

section Writer

/-- A buffer with an output cursor. What is in front of the cursor has been written; a
    cursor may move back. -/
structure Output (α : Type) where
  buf : List α
  p : Nat
  deriving DecidableEq, Repr

def Output.push (o : Output α) (b : α) : Option (Output α) :=
  (write o.buf o.p b).map fun buf => ⟨buf, o.p + 1⟩

def Output.append (o : Output α) : List α → Option (Output α)
  | [] => some o
  | b :: bs => (o.push b).bind fun o => o.append bs

def Output.last (o : Output α) : Option α := if o.p = 0 then none else o.buf[o.p - 1]?

structure Output.Holds (size : Nat) (o : Output α) (out : List α) : Prop where
  content : o.buf.take o.p = out
  inside : o.p ≤ o.buf.length
  size : o.buf.length = size

variable {size : Nat} {o : Output α} {out : List α}

theorem Output.Holds.position (held : o.Holds size out) : o.p = out.length := by
  rw [← held.content, List.length_take, Nat.min_eq_left held.inside]

theorem Output.start_holds (buf : List α) : Output.Holds buf.length ⟨buf, 0⟩ [] :=
  ⟨rfl, Nat.zero_le _, rfl⟩

theorem Output.push_holds (held : o.Holds size out) (b : α) (room : out.length < size) :
    ∃ next, o.push b = some next ∧ next.Holds size (out ++ [b]) := by
  have inside : o.p < o.buf.length := by
    rw [held.position, held.size]
    exact room
  refine ⟨⟨o.buf.set o.p b, o.p + 1⟩, by simp [Output.push, write, inside], ?_, ?_, ?_⟩
  · rw [List.take_add_one, List.getElem?_set_self inside, List.take_set_of_le (Nat.le_refl _),
      held.content]
    rfl
  · rw [List.length_set]
    exact inside
  · rw [List.length_set, held.size]

theorem Output.append_holds (held : o.Holds size out) (bs : List α)
    (room : out.length + bs.length ≤ size) :
    ∃ next, o.append bs = some next ∧ next.Holds size (out ++ bs) := by
  induction bs generalizing o out with
  | nil => exact ⟨o, rfl, by simpa using held⟩
  | cons b bs ih =>
    rw [List.length_cons] at room
    obtain ⟨first, pushed, first_held⟩ := push_holds held b (by omega)
    have rest_room : (out ++ [b]).length + bs.length ≤ size := by
      rw [List.length_append, List.length_singleton]
      omega
    obtain ⟨next, appended, next_held⟩ := ih first_held rest_room
    refine ⟨next, by rw [Output.append, pushed, Option.bind_some, appended], ?_⟩
    simpa using next_held

theorem Output.last_holds (held : o.Holds size out) : o.last = out.getLast? := by
  unfold Output.last
  split
  · rename_i start
    rw [List.getLast?_eq_none_iff.mpr]
    rw [← List.length_eq_zero_iff, ← held.position, start]
  · rename_i behind
    rw [List.getLast?_eq_getElem?, ← held.position, ← held.content,
      List.getElem?_take_of_lt (by omega)]

theorem Output.back_holds (held : o.Holds size out) {k : Nat} (behind : k ≤ out.length) :
    Output.Holds size ⟨o.buf, k⟩ (out.take k) := by
  have position := held.position
  have inside := held.inside
  refine ⟨?_, by simp only; omega, held.size⟩
  rw [← held.content, List.take_take, Nat.min_eq_left (by omega)]

def Output.over (out rest : List α) : Output α := ⟨out ++ rest, out.length⟩

/-- Wherever there is room for `bs`, the operation writes it and nothing else. -/
def Output.Writes (f : Output α → Option (Output α)) (bs : List α) : Prop :=
  ∀ out rest, bs.length ≤ rest.length →
    f (Output.over out rest) = some (Output.over (out ++ bs) (rest.drop bs.length))

theorem Output.push_writes (b : α) : Output.Writes (fun o => o.push b) [b] := by
  intro out rest room
  obtain ⟨old, rest, rfl⟩ := List.exists_cons_of_length_pos room
  simp only [Output.push, Output.over, write_middle]
  simp

theorem Output.Writes.seq {f g : Output α → Option (Output α)} {a b : List α}
    (first : Output.Writes f a) (second : Output.Writes g b) :
    Output.Writes (fun o => (f o).bind g) (a ++ b) := by
  intro out rest room
  rw [List.length_append] at room
  simp only [first out rest (by omega), Option.bind_some]
  rw [second (out ++ a) (rest.drop a.length) (by rw [List.length_drop]; omega)]
  simp

theorem Output.append_writes (bs : List α) : Output.Writes (fun o => o.append bs) bs := by
  induction bs with
  | nil =>
    intro out rest _
    simp [Output.append]
  | cons b bs ih => exact (push_writes b).seq ih

end Writer

section Walk
variable {ε σ : Type}

/-- A loop over the `n` cells from `i` on, which may stop early for a reason of its own. -/
def walk (outside : ε) (step : σ → Nat → α → Except ε σ) (buf : List α) (s : σ) (i : Nat) :
    Nat → Except ε σ
  | 0 => .ok s
  | n + 1 =>
    match buf[i]? with
    | none => .error outside
    | some a => (step s i a).bind (fun s => walk outside step buf s (i + 1) n)

theorem walk_inside {outside : ε} {step : σ → Nat → α → Except ε σ}
    {loop : σ → Nat → List α → Except ε σ} (nil : ∀ s i, loop s i [] = .ok s)
    (cons : ∀ s i a w, loop s i (a :: w) = (step s i a).bind (fun s => loop s (i + 1) w))
    {buf : List α} {i n : Nat} (room : i + n ≤ buf.length) (s : σ) :
    walk outside step buf s i n = loop s i ((buf.drop i).take n) := by
  induction n generalizing s i with
  | zero => rw [walk, List.take_zero, nil]
  | succ n ih =>
    have here : i < buf.length := by omega
    have rest : (fun s => walk outside step buf s (i + 1) n) =
        fun s => loop s (i + 1) ((buf.drop (i + 1)).take n) := funext (ih (by omega))
    rw [walk, List.getElem?_eq_getElem here, List.drop_eq_getElem_cons here, List.take_succ_cons,
      cons, ← rest]

end Walk

end CheckedBuffer
