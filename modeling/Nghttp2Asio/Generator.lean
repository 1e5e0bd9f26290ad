import Mathlib.Data.List.TakeDrop
import Nghttp2Asio.Util

/-!
Body generators: the string and the deferred generator of asio_common.cc, and the
reads nghttp2 makes through `call_read` on either side.
-/
namespace Nghttp2Asio

def errDeferred : Int := -508

def dataFlagEof : UInt32 := 1

/-- One call of a `generator_cb`: the value it returned, the bytes it put at the front of
    the buffer and the bits it added to `*data_flags`. -/
structure ReadResult where
  value : Int
  data : Bytes
  flags : UInt32
  deriving DecidableEq, Repr

structure StringIo where
  data : Bytes
  left : Nat
  inside : left ≤ data.length

/-- A generator of the application answers its n-th call on a buffer of a given length. -/
inductive Generator where
  | deferred
  | string (strio : StringIo)
  | app (answer : Nat → Nat → ReadResult) (count : Nat)

def stringGenerator (data : Bytes) : Generator := .string ⟨data, data.length, Nat.le_refl _⟩

def deferredGenerator : Generator := .deferred

def StringIo.read (s : StringIo) (len : Nat) : ReadResult × StringIo :=
  let n := min len s.left
  let chunk := (s.data.drop (s.data.length - s.left)).take n
  (⟨n, chunk, if s.left - n = 0 then dataFlagEof else 0⟩,
    ⟨s.data, s.left - n, Nat.le_trans (Nat.sub_le _ _) s.inside⟩)

def Generator.read : Generator → Nat → ReadResult × Generator
  | .deferred, _ => (⟨errDeferred, [], 0⟩, .deferred)
  | .string s, len => ((s.read len).1, .string (s.read len).2)
  | .app answer count, len => (answer count len, .app answer (count + 1))

/-- An empty `generator_cb` ends the body at once. -/
def callRead : Option Generator → Nat → ReadResult × Option Generator
  | none, _ => (⟨0, [], dataFlagEof⟩, none)
  | some g, len => ((g.read len).1, some (g.read len).2)

def readAll (g : Option Generator) : List Nat → List (Nat × ReadResult)
  | [] => []
  | len :: rest => (len, (callRead g len).1) :: readAll (callRead g len).2 rest

def advance (g : Option Generator) (lens : List Nat) : Option Generator :=
  lens.foldl (fun g len => (callRead g len).2) g

def delivered (reads : List (Nat × ReadResult)) : Bytes := reads.flatMap (·.2.data)

/-- Reads that hand out a string from its start, piece by piece. -/
structure Delivers (data : Bytes) (reads : List (Nat × ReadResult)) : Prop where
  ordered : delivered reads <+: data
  fits : ∀ read ∈ reads, read.2.data.length ≤ read.1 ∧ read.2.value = read.2.data.length
  progress : ∀ past read rest, reads = past ++ read :: rest →
    read.2.data.length = min read.1 (data.length - (delivered past).length)
  eof : ∀ past read rest, reads = past ++ read :: rest →
    read.2.flags = if delivered (past ++ [read]) = data then dataFlagEof else 0

theorem readAll_sizes (g : Option Generator) (lens : List Nat) :
    (readAll g lens).map Prod.fst = lens := by
  induction lens generalizing g with
  | nil => rfl
  | cons len rest ih => simp [readAll, ih]

theorem readAll_append (g : Option Generator) (first rest : List Nat) :
    readAll g (first ++ rest) = readAll g first ++ readAll (advance g first) rest := by
  induction first generalizing g with
  | nil => rfl
  | cons len first ih => simp [readAll, advance, ih]

theorem readAll_prefix {g : Option Generator} {lens : List Nat}
    {past rest : List (Nat × ReadResult)} (split : readAll g lens = past ++ rest) :
    past = readAll g (past.map Prod.fst) ∧
      rest = readAll (advance g (past.map Prod.fst)) (rest.map Prod.fst) := by
  have sizes : lens = past.map Prod.fst ++ rest.map Prod.fst := by
    rw [← readAll_sizes g lens, split]
    simp
  rw [sizes, readAll_append] at split
  have lengths : (readAll g (past.map Prod.fst)).length = past.length := by
    rw [← List.length_map Prod.fst, readAll_sizes, List.length_map]
  obtain ⟨front, back⟩ := List.append_inj split lengths
  exact ⟨front.symm, back.symm⟩

theorem advance_string (s : StringIo) (lens : List Nat) :
    ∃ t : StringIo, advance (some (.string s)) lens = some (.string t) ∧
      t.data = s.data ∧ t.left = s.left - lens.sum := by
  induction lens generalizing s with
  | nil => exact ⟨s, rfl, rfl, by simp⟩
  | cons len rest ih =>
    obtain ⟨t, result, sameData, left⟩ := ih (s.read len).2
    refine ⟨t, result, sameData, ?_⟩
    simp only [left, StringIo.read, List.sum_cons]
    omega

theorem delivered_string (s : StringIo) (lens : List Nat) :
    delivered (readAll (some (.string s)) lens) =
      (s.data.drop (s.data.length - s.left)).take lens.sum := by
  induction lens generalizing s with
  | nil => simp [readAll, delivered]
  | cons len rest ih =>
    have tail := ih (s.read len).2
    have inside := s.inside
    simp only [delivered, readAll, callRead, Generator.read, List.flatMap_cons,
      List.sum_cons] at tail ⊢
    rw [tail]
    simp only [StringIo.read]
    -- with less left than asked for, both sides end with the string
    by_cases enough : len ≤ s.left
    · have moved : s.data.length - (s.left - len) = s.data.length - s.left + len := by omega
      rw [Nat.min_eq_left enough, moved, List.take_add, List.drop_drop]
    · have short : (s.data.drop (s.data.length - s.left)).length = s.left := by
        rw [List.length_drop]
        omega
      rw [Nat.min_eq_right (by omega), List.take_of_length_le (by omega), Nat.sub_self,
        Nat.sub_zero, List.drop_length, List.take_nil, List.append_nil,
        List.take_of_length_le (by omega)]

theorem stringGenerator_position {data : Bytes} {lens : List Nat}
    {past rest : List (Nat × ReadResult)} {read : Nat × ReadResult}
    (split : readAll (some (stringGenerator data)) lens = past ++ read :: rest) :
    delivered past = data.take (past.map Prod.fst).sum ∧
      delivered (past ++ [read]) = data.take ((past.map Prod.fst).sum + read.1) ∧
      ∃ t : StringIo, t.data = data ∧ t.left = data.length - (past.map Prod.fst).sum ∧
        read.2 = (t.read read.1).1 := by
  have total : ∀ {done}, done = readAll (some (stringGenerator data)) (done.map Prod.fst) →
      delivered done = data.take (done.map Prod.fst).sum := by
    intro done served
    rw [served, stringGenerator, delivered_string, readAll_sizes]
    simp
  obtain ⟨front, back⟩ := readAll_prefix split
  have regrouped : readAll (some (stringGenerator data)) lens = (past ++ [read]) ++ rest := by
    simp [split]
  obtain ⟨upto, _⟩ := readAll_prefix regrouped
  obtain ⟨t, result, sameData, left⟩ := advance_string ⟨data, data.length, Nat.le_refl _⟩
    (past.map Prod.fst)
  rw [stringGenerator, result, List.map_cons, readAll] at back
  injection back with here _
  have answer : read.2 = (t.read read.1).1 := by
    rw [here]
    rfl
  refine ⟨total front, ?_, t, sameData, left, answer⟩
  rw [total upto]
  simp

theorem stringGenerator_delivers (data : Bytes) (lens : List Nat) :
    Delivers data (readAll (some (stringGenerator data)) lens) := by
  constructor
  · rw [stringGenerator, delivered_string, Nat.sub_self, List.drop_zero]
    exact List.take_prefix _ _
  · intro read member
    obtain ⟨past, rest, split⟩ := List.append_of_mem member
    obtain ⟨_, _, t, sameData, left, here⟩ := stringGenerator_position split
    have inside := t.inside
    rw [here]
    simp only [StringIo.read, List.length_take, List.length_drop]
    omega
  · intro past read rest split
    obtain ⟨before, _, t, sameData, left, here⟩ := stringGenerator_position split
    have inside := t.inside
    rw [here, before]
    simp only [StringIo.read, List.length_take, List.length_drop, sameData]
    omega
  · intro past read rest split
    obtain ⟨_, upto, t, sameData, left, here⟩ := stringGenerator_position split
    rw [here, upto]
    simp only [StringIo.read, List.take_eq_self_iff, left]
    by_cases last : data.length ≤ (past.map Prod.fst).sum + read.1
    · rw [if_pos last, if_pos (by omega)]
    · rw [if_neg last, if_neg (by omega)]

end Nghttp2Asio
