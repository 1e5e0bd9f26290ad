import Mathlib.Data.List.Basic

/-!
A buffer of fixed size that is filled with chunks until the source has no more, fails, or
offers a chunk that does not fit; that chunk is held back for the next time. A copy past
the end of the buffer has no result.
-/
namespace SendBuffer

variable {β : Type} {cap : Nat}

structure Chunk (β : Type) (cap : Nat) where
  data : List β
  filled : data ≠ []
  fits : data.length ≤ cap

inductive Send (β : Type) (cap : Nat) where
  | chunk (c : Chunk β cap)
  | nothing
  | failure

def copyN (buf : List β) (pos : Nat) (data : List β) : Option (List β) :=
  if pos + data.length ≤ buf.length then
    some (buf.take pos ++ data ++ buf.drop (pos + data.length))
  else none

def given (answers : List (Send β cap)) : List β :=
  answers.flatMap fun
    | .chunk c => c.data
    | _ => []

/-- The buffer and its level after a filling, the chunk held back, whether the source
    failed, and the answers that it was not asked for. -/
structure Filled (β : Type) (cap : Nat) where
  buf : List β
  len : Nat
  held : Option (Chunk β cap)
  failed : Bool
  rest : List (Send β cap)

/-- Every call of the source takes its next answer; without one it has nothing. -/
def fill (buf : List β) (len : Nat) : List (Send β cap) → Option (Filled β cap)
  | [] => some ⟨buf, len, none, false, []⟩
  | .nothing :: rest => some ⟨buf, len, none, false, rest⟩
  | .failure :: rest => some ⟨buf, len, none, true, rest⟩
  | .chunk c :: rest =>
    if len + c.data.length > buf.length then some ⟨buf, len, some c, false, rest⟩
    else
      match copyN buf len c.data with
      | none => none
      | some buf => fill buf (len + c.data.length) rest

def refill (buf : List β) (len : Nat) (held : Option (Chunk β cap))
    (source : List (Send β cap)) : Option (Filled β cap) :=
  match held with
  | none => fill buf len source
  | some c => (copyN buf len c.data).bind (fun buf => fill buf (len + c.data.length) source)

def heldBytes (held : Option (Chunk β cap)) : List β := (held.map Chunk.data).getD []

theorem chunk_pos (c : Chunk β cap) : 0 < c.data.length :=
  List.length_pos_of_ne_nil c.filled

theorem copyN_fits {buf : List β} {pos : Nat} {data : List β}
    (fits : pos + data.length ≤ buf.length) :
    ∃ next, copyN buf pos data = some next ∧ next.length = buf.length ∧
      next.take (pos + data.length) = buf.take pos ++ data := by
  refine ⟨_, if_pos fits, ?_, ?_⟩
  · simp only [List.length_append, List.length_take, List.length_drop]
    omega
  · have front : (buf.take pos ++ data).length = pos + data.length := by
      simp only [List.length_append, List.length_take]
      omega
    rw [← front, List.take_left]

theorem given_cons (answer : Send β cap) (rest : List (Send β cap)) :
    given (answer :: rest) = given [answer] ++ given rest := by
  simp [given]

theorem given_append (earlier later : List (Send β cap)) :
    given (earlier ++ later) = given earlier ++ given later := by
  simp [given]

/-- When the source is asked no more: it has nothing or failed, or the last chunk is held
    back. -/
def Exhausted (asked rest : List (Send β cap)) (held : Option (Chunk β cap)) : Prop :=
  rest = [] ∨ held ≠ none ∨ .nothing ∈ asked ∨ .failure ∈ asked

/-- A filling stays in the buffer and keeps every byte in order. -/
structure Sound (start : List β) (source asked : List (Send β cap)) (r : Filled β cap) : Prop where
  size : r.buf.length = cap
  level : r.len ≤ cap
  split : source = asked ++ r.rest
  bytes : r.buf.take r.len ++ heldBytes r.held = start ++ given asked
  full : r.held ≠ none → 0 < r.len ∧ r.failed = false
  failed : r.failed = true ↔ .failure ∈ asked
  exhausted : Exhausted asked r.rest r.held

theorem fill_sound (source : List (Send β cap)) :
    ∀ (buf : List β) (len : Nat), buf.length = cap → len ≤ cap →
      ∃ r asked, fill buf len source = some r ∧ Sound (buf.take len) source asked r := by
  induction source with
  | nil =>
    intro buf len size level
    exact ⟨_, [], rfl, size, level, rfl, by simp [heldBytes, given], by simp, by simp, .inl rfl⟩
  | cons answer rest ih =>
    intro buf len size level
    cases answer with
    | nothing =>
      refine ⟨_, [.nothing], rfl, size, level, rfl, ?_, by simp, by simp, ?_⟩
      · simp [heldBytes, given]
      · exact .inr (.inr (.inl (by simp)))
    | failure =>
      refine ⟨_, [.failure], rfl, size, level, rfl, ?_, by simp, by simp, ?_⟩
      · simp [heldBytes, given]
      · exact .inr (.inr (.inr (by simp)))
    | chunk c =>
      have some_ := chunk_pos c
      have fits := c.fits
      rw [fill]
      by_cases excess : len + c.data.length > buf.length
      · rw [if_pos excess]
        refine ⟨_, [.chunk c], rfl, size, level, rfl, ?_, ?_, by simp, .inr (.inl (by simp))⟩
        · simp [heldBytes, given]
        · intro _
          exact ⟨by simp only; omega, rfl⟩
      · rw [if_neg excess]
        obtain ⟨next, copied, nextSize, front⟩ := copyN_fits (Nat.le_of_not_gt excess)
        obtain ⟨r, asked, filled, sound⟩ := ih next (len + c.data.length) (nextSize.trans size)
          (by omega)
        simp only [copied, filled]
        refine ⟨r, .chunk c :: asked, rfl, sound.size, sound.level, ?_, ?_, sound.full, ?_, ?_⟩
        · rw [sound.split, List.cons_append]
        · have first : given [Send.chunk c] = c.data := by simp [given]
          rw [sound.bytes, front, given_cons, first, List.append_assoc]
        · simp [sound.failed]
        · rcases sound.exhausted with done | held | nothing | failure
          · exact .inl done
          · exact .inr (.inl held)
          · exact .inr (.inr (.inl (List.mem_cons_of_mem _ nothing)))
          · exact .inr (.inr (.inr (List.mem_cons_of_mem _ failure)))

theorem refill_sound (buf : List β) (held : Option (Chunk β cap)) (source : List (Send β cap))
    (size : buf.length = cap) :
    ∃ r asked, refill buf 0 held source = some r ∧ Sound (heldBytes held) source asked r := by
  cases held with
  | none => exact fill_sound source buf 0 size (Nat.zero_le _)
  | some c =>
    have fits := c.fits
    obtain ⟨next, copied, nextSize, front⟩ : ∃ next, copyN buf 0 c.data = some next ∧
        next.length = buf.length ∧ next.take (0 + c.data.length) = buf.take 0 ++ c.data :=
      copyN_fits (by omega)
    obtain ⟨r, asked, filled, sound⟩ := fill_sound source next (0 + c.data.length)
      (nextSize.trans size) (by omega)
    rw [front] at sound
    exact ⟨r, asked, by simp only [refill, copied, Option.bind_some, filled], sound⟩

theorem Sound.idle {start : List β} {source asked : List (Send β cap)} {r : Filled β cap}
    (sound : Sound start source asked r) (empty : r.len = 0) :
    r.held = none ∧ start = [] ∧ given asked = [] := by
  have none_ : r.held = none := by
    by_contra some_
    have := (sound.full some_).1
    omega
  have bytes := sound.bytes
  rw [none_, empty, List.take_zero] at bytes
  exact ⟨none_, List.append_eq_nil_iff.mp bytes.symm⟩

end SendBuffer
