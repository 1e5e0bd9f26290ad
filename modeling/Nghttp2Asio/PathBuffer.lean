import Nghttp2Asio.Library.CheckedBuffer
import Nghttp2Asio.PathJoin

/-!
`path_join` of http2.cc on its output buffer. Every access to the buffer and to
`rel_path` is checked, and a failed assertion is a failed access, so that a result
means that none happened. The list model of the same function computes the result.
-/
namespace Nghttp2Asio.PathBuffer
open CheckedBuffer PathJoin SegmentStack

/-! The code. -/

def eatFileLoop (buf : Bytes) : Nat → Option Nat
  | 0 => some 0
  | p + 1 =>
    match buf[p]? with
    | none => none
    | some c => if c ≠ slash then eatFileLoop buf p else some (p + 1)

def eatFileAt (o : Output UInt8) : Option (Output UInt8) :=
  if o.p = 0 then o.push slash
  else
    o.last.bind fun c =>
      if c = slash then some o
      else
        (eatFileLoop o.buf o.p).bind fun p =>
          if p = 0 then Output.push ⟨o.buf, 0⟩ slash else some ⟨o.buf, p⟩

def eatDirAt (o : Output UInt8) : Option (Output UInt8) :=
  (eatFileAt o).bind fun o =>
    o.last.bind fun c =>
      -- the assertion of the source
      if c = slash then eatFileAt ⟨o.buf, o.p - 1⟩ else none

/-- What stands at `first`: `.` or `..` at the end or in front of a slash, or a name. -/
inductive Next where
  | hereLast | here | upLast | up | name
  deriving DecidableEq, Repr

def peek (rel : Bytes) (first : Nat) : Option Next :=
  rel[first]?.bind fun c =>
    if c = dot then
      if first + 1 = rel.length then some .hereLast
      else
        rel[first + 1]?.bind fun c =>
          if c = slash then some .here
          else if c = dot then
            if first + 2 = rel.length then some .upLast
            else rel[first + 2]?.bind fun c => if c = slash then some .up else some .name
          else some .name
    else some .name

inductive Turn where
  | again (o : Output UInt8) (first : Nat)
  | stop (o : Output UInt8)
  deriving DecidableEq, Repr

def copySegment (rel : Bytes) (o : Output UInt8) (first : Nat) : Option Turn :=
  (scan (· ≠ slash) rel first).bind fun end_ =>
    if end_ = rel.length then
      (slice rel first end_).bind fun s => (o.append s).map .stop
    else
      (slice rel first (end_ + 1)).bind fun s =>
        (o.append s).bind fun o =>
          (scan (· = slash) rel (end_ + 1)).map fun first => .again o first

def act (rel : Bytes) (o : Output UInt8) (first : Nat) : Next → Option Turn
  | .hereLast => some (.stop o)
  | .here => some (.again o (first + 2))
  | .upLast => (eatDirAt o).map .stop
  | .up => (eatDirAt o).map fun o => .again o (first + 3)
  | .name =>
    (o.last.bind fun c => if c ≠ slash then eatFileAt o else some o).bind fun o =>
      copySegment rel o first

def turn (rel : Bytes) (o : Output UInt8) (first : Nat) : Option Turn :=
  (peek rel first).bind (act rel o first)

def loopAt (rel : Bytes) : Nat → Output UInt8 → Nat → Option (Output UInt8)
  | 0, _, _ => none
  | fuel + 1, o, first =>
    if first = rel.length then some o
    else
      (turn rel o first).bind fun
        | .again o first => loopAt rel fuel o first
        | .stop o => some o

def pushQuery (o : Output UInt8) (query : Bytes) : Option (Output UInt8) :=
  if query = [] then some o else (o.push question).bind fun o => o.append query

def terminate (o : Output UInt8) : Option Bytes := (o.push 0).map fun end_ => end_.buf.take o.p

def bufferSize (basePath baseQuery relPath relQuery : Bytes) : Nat :=
  max 1 basePath.length + relPath.length + 1 + max baseQuery.length relQuery.length + 1

/-- `res` is the memory that `make_byte_ref` returns, with whatever it holds. -/
def pathJoinAt (fuel : Nat) (res basePath baseQuery relPath relQuery : Bytes) : Option Bytes :=
  if relPath = [] then
    (if basePath = [] then Output.push ⟨res, 0⟩ slash else Output.append ⟨res, 0⟩ basePath).bind fun o =>
      (pushQuery o (if relQuery = [] then baseQuery else relQuery)).bind terminate
  else
    (if relPath.head? = some slash then
        (Output.push ⟨res, 0⟩ slash).bind fun o =>
          (scan (· = slash) relPath 1).bind fun first => loopAt relPath fuel o first
      else if basePath = [] then
        (Output.push ⟨res, 0⟩ slash).bind fun o => loopAt relPath fuel o 0
      else (Output.append ⟨res, 0⟩ basePath).bind fun o => loopAt relPath fuel o 0).bind fun o =>
      (pushQuery o relQuery).bind terminate

/-! The accesses of `eat_file` and `eat_dir`. -/

variable {size : Nat} {o : Output UInt8} {out : Bytes}

theorem eatFileLoop_eq (held : o.Holds size out) :
    eatFileLoop o.buf o.p = some (out.rdropWhile (· ≠ slash)).length := by
  induction out using List.reverseRecOn generalizing o with
  | nil =>
    rw [held.position]
    rfl
  | append_singleton out c ih =>
    have position : o.p = out.length + 1 := by simpa using held.position
    have back := Output.back_holds held (k := out.length) (by simp)
    rw [List.take_left] at back
    have read : o.buf[out.length]? = some c := by
      have last := Output.last_holds held
      rw [Output.last, if_neg (by omega), position] at last
      simpa using last
    rw [position, eatFileLoop, read]
    simp only
    split
    · rename_i other
      rw [ih back, List.rdropWhile_concat_pos _ _ _ (by simpa using other)]
    · rename_i same
      rw [List.rdropWhile_concat_neg _ _ _ (by simpa using same)]
      simp

theorem eatFileAt_holds (held : o.Holds size out) (room : 0 < size) :
    ∃ next, eatFileAt o = some next ∧ next.Holds size (eatFile out) := by
  have position := held.position
  unfold eatFileAt eatFile
  by_cases empty : out = []
  · have start : o.p = 0 := by simp [position, empty]
    rw [if_pos start, if_pos empty]
    have pushed := Output.push_holds held slash (by simpa [empty] using room)
    simpa [empty] using pushed
  · have some_out : o.p ≠ 0 := by simpa [position] using empty
    obtain ⟨c, last⟩ : ∃ c, out.getLast? = some c := ⟨_, List.getLast?_eq_some_getLast empty⟩
    rw [if_neg some_out, if_neg empty, Output.last_holds held, last, Option.bind_some]
    simp only [Option.some.injEq]
    split
    · exact ⟨o, rfl, held⟩
    · have front := List.rdropWhile_prefix (p := (decide <| · ≠ slash)) (l := out)
      have back := Output.back_holds held front.length_le
      rw [← List.prefix_iff_eq_take.mp front] at back
      rw [eatFileLoop_eq held, Option.bind_some]
      by_cases none_left : out.rdropWhile (· ≠ slash) = []
      · rw [none_left] at back ⊢
        have pushed := Output.push_holds back slash (by simpa using room)
        simpa using pushed
      · rw [if_neg (by simpa using none_left), if_neg none_left]
        exact ⟨_, rfl, back⟩

theorem eatFile_last (out : Bytes) : (eatFile out).getLast? = some slash := by
  unfold eatFile
  split
  · rfl
  split
  · assumption
  by_cases none_left : out.rdropWhile (· ≠ slash) = []
  · simp only [none_left, ↓reduceIte]
    rfl
  · have last := List.rdropWhile_last_not (fun c => decide (c ≠ slash)) out none_left
    simp only [none_left, ↓reduceIte]
    rw [List.getLast?_eq_some_getLast none_left]
    simpa using last

theorem eatFile_length {out : Bytes} (some_out : out ≠ []) : (eatFile out).length ≤ out.length := by
  have bound : 0 < out.length := List.length_pos_iff.mpr some_out
  have front := (List.rdropWhile_prefix (p := (decide <| · ≠ slash)) (l := out)).length_le
  unfold eatFile
  rw [if_neg some_out]
  split
  · exact Nat.le_refl _
  simp only
  split
  · rw [List.length_singleton]
    omega
  · exact front

theorem eatFile_ne_nil (out : Bytes) : eatFile out ≠ [] := by
  intro empty
  have last := eatFile_last out
  simp [empty] at last

theorem eatDir_length {out : Bytes} (some_out : out ≠ []) : (eatDir out).length ≤ out.length := by
  have first := eatFile_length some_out
  have some_file : 0 < (eatFile out).length := List.length_pos_iff.mpr (eatFile_ne_nil out)
  unfold eatDir
  by_cases none_left : (eatFile out).dropLast = []
  · have root : (eatFile []).length = 1 := rfl
    rw [none_left, root]
    omega
  · have second := eatFile_length none_left
    rw [List.length_dropLast] at second
    omega

theorem eatDirAt_holds (held : o.Holds size out) (room : 0 < size) :
    ∃ next, eatDirAt o = some next ∧ next.Holds size (eatDir out) := by
  obtain ⟨file, eaten, file_held⟩ := eatFileAt_holds held room
  have back := Output.back_holds file_held (k := (eatFile out).length - 1) (by omega)
  rw [← List.dropLast_eq_take, ← file_held.position] at back
  obtain ⟨next, again, next_held⟩ := eatFileAt_holds back room
  refine ⟨next, ?_, next_held⟩
  rw [eatDirAt, eaten, Option.bind_some, Output.last_holds file_held, eatFile_last, Option.bind_some,
    if_pos rfl, again]

theorem eatFileAt_name (held : o.Holds size out) (some_out : out ≠ []) (room : 0 < size) :
    ∃ dir, (o.last.bind fun c => if c ≠ slash then eatFileAt o else some o) = some dir ∧
      dir.Holds size (if out.getLast? = some slash then out else eatFile out) ∧
      (if out.getLast? = some slash then out else eatFile out).length ≤ out.length := by
  obtain ⟨c, last⟩ : ∃ c, out.getLast? = some c := ⟨_, List.getLast?_eq_some_getLast some_out⟩
  rw [Output.last_holds held, last, Option.bind_some]
  by_cases ends : c = slash
  · exact ⟨o, by simp [ends], by simpa [ends] using held, by simp [ends]⟩
  · obtain ⟨dir, eaten, dir_held⟩ := eatFileAt_holds held room
    refine ⟨dir, by simpa [ends] using eaten, by simpa [ends] using dir_held, ?_⟩
    simpa [ends] using eatFile_length some_out

/-! One turn of the main loop. -/

def nextOf (rest : Bytes) : Next :=
  if rest = [dot] then .hereLast
  else if [dot, slash] <+: rest then .here
  else if rest = [dot, dot] then .upLast
  else if [dot, dot, slash] <+: rest then .up
  else .name

def joinName (out rest : Bytes) : Bytes :=
  if slash ∈ rest then
    joinLoop (out ++ rest.takeWhile (· ≠ slash) ++ [slash])
      ((rest.dropWhile (· ≠ slash)).dropWhile (· = slash))
  else out ++ rest

theorem joinLoop_next {rest : Bytes} (some_rest : rest ≠ []) (out : Bytes) :
    joinLoop out rest = match nextOf rest with
      | .hereLast => out
      | .here => joinLoop out (rest.drop 2)
      | .upLast => eatDir out
      | .up => joinLoop (eatDir out) (rest.drop 3)
      | .name => joinName (if out.getLast? = some slash then out else eatFile out) rest := by
  rw [joinLoop, if_neg some_rest]
  unfold nextOf joinName
  split_ifs <;> rfl

theorem nextOf_here {rest : Bytes} (next : nextOf rest = .here) : 2 ≤ rest.length := by
  unfold nextOf at next
  split_ifs at next
  exact List.IsPrefix.length_le ‹[dot, slash] <+: rest›

theorem nextOf_up {rest : Bytes} (next : nextOf rest = .up) : 3 ≤ rest.length := by
  unfold nextOf at next
  split_ifs at next
  exact List.IsPrefix.length_le ‹[dot, dot, slash] <+: rest›

theorem peek_eq {rel : Bytes} {first : Nat} (inside : first < rel.length) :
    peek rel first = some (nextOf (rel.drop first)) := by
  have read : ∀ k, rel[first + k]? = (rel.drop first)[k]? := by
    intro k
    rw [List.getElem?_drop]
  have length : rel.length = first + (rel.drop first).length := by
    rw [List.length_drop]
    omega
  have front := read 0
  rw [Nat.add_zero] at front
  have dot_slash : dot ≠ slash := by decide
  unfold peek nextOf
  rw [front, read 1, read 2, length]
  generalize rel.drop first = rest at *
  match rest with
  | [] =>
    simp only [List.length_nil] at length
    omega
  | [a] =>
    by_cases first_dot : a = dot
    · simp [first_dot]
    · simp [first_dot, Ne.symm first_dot]
  | [a, b] =>
    by_cases first_dot : a = dot
    · by_cases second_slash : b = slash
      · simp [first_dot, second_slash]
      · by_cases second_dot : b = dot <;> simp [first_dot, second_slash, second_dot, eq_comm, dot_slash]
    · simp [first_dot, eq_comm]
  | a :: b :: c :: more =>
    by_cases first_dot : a = dot
    · by_cases second_slash : b = slash
      · simp [first_dot, second_slash]
      · by_cases second_dot : b = dot
        · by_cases third_slash : c = slash <;>
            simp [first_dot, second_dot, third_slash, dot_slash, eq_comm]
        · simp [first_dot, second_slash, second_dot, eq_comm]
    · simp [first_dot, eq_comm]

/-- What a turn makes of the text in front of the cursor: the list model goes on in the
    same way, and the text grows by no more than what was read. -/
def Refines (rel : Bytes) (size : Nat) (out : Bytes) (first : Nat) : Turn → Prop
  | .again o next => ∃ text, o.Holds size text ∧ text ≠ [] ∧ first < next ∧ next ≤ rel.length ∧
      text.length + (rel.length - next) ≤ out.length + (rel.length - first) ∧
      joinLoop text (rel.drop next) = joinLoop out (rel.drop first)
  | .stop o => o.Holds size (joinLoop out (rel.drop first)) ∧
      (joinLoop out (rel.drop first)).length ≤ out.length + (rel.length - first)

theorem drop_segment {rel s r : Bytes} {first : Nat} (split : rel.drop first = s ++ slash :: r) :
    rel.drop (first + s.length + 1) = r := by
  rw [Nat.add_assoc, ← List.drop_drop, split, List.drop_append]
  simp

theorem drop_takeWhile (accepts : UInt8 → Bool) (r : Bytes) :
    r.drop (r.takeWhile accepts).length = r.dropWhile accepts := by
  nth_rewrite 2 [← List.takeWhile_append_dropWhile (p := accepts) (l := r)]
  exact List.drop_left

theorem copySegment_holds {rel : Bytes} {first : Nat} (held : o.Holds size out)
    (inside : first < rel.length) (room : out.length + (rel.length - first) ≤ size) :
    (slash ∉ rel.drop first → ∃ next, copySegment rel o first = some (.stop next) ∧
      next.Holds size (out ++ rel.drop first)) ∧
    ∀ s r, rel.drop first = s ++ slash :: r → slash ∉ s →
      ∃ next, copySegment rel o first = some (.again next
          (first + s.length + 1 + (r.takeWhile (· = slash)).length)) ∧
        next.Holds size (out ++ s ++ [slash]) := by
  have length : (rel.drop first).length = rel.length - first := List.length_drop
  have found := scan_inside (fun c => decide (c ≠ slash)) (Nat.le_of_lt inside)
  unfold copySegment
  rw [found, Option.bind_some]
  constructor
  · intro free
    have whole : (rel.drop first).takeWhile (fun c => decide (c ≠ slash)) = rel.drop first := by
      rw [List.takeWhile_eq_self_iff]
      intro c member
      simpa using ne_of_mem_of_not_mem member free
    have all : (rel.drop first).take (rel.drop first).length = rel.drop first := List.take_length
    obtain ⟨next, appended, next_held⟩ := Output.append_holds held (rel.drop first) (by omega)
    rw [whole, if_pos (by omega), slice_inside (by omega), all, Option.bind_some, appended]
    exact ⟨next, rfl, next_held⟩
  · intro s r split free
    have size_eq := congrArg List.length split
    simp only [List.length_append, List.length_cons] at size_eq
    have segment : (rel.drop first).take (s.length + 1) = s ++ [slash] := by
      rw [split, List.take_append]
      simp
    have skipped := scan_inside (fun c => decide (c = slash))
      (show first + s.length + 1 ≤ rel.length by omega)
    obtain ⟨next, appended, next_held⟩ := Output.append_holds held (s ++ [slash])
      (by simp only [List.length_append, List.length_singleton]; omega)
    rw [split, takeWhile_segment free, if_neg (by omega), Nat.add_assoc, slice_inside (by omega),
      segment, Option.bind_some, appended, Option.bind_some, ← Nat.add_assoc, skipped,
      drop_segment split]
    exact ⟨next, rfl, by simpa using next_held⟩

section Step
variable {rel : Bytes} {first : Nat} (held : o.Holds size out) (inside : first < rel.length)
  (room : out.length + (rel.length - first) ≤ size)
include held inside room

theorem copySegment_refines : ∃ t, copySegment rel o first = some t ∧
    match t with
    | .again o next => ∃ text, o.Holds size text ∧ text ≠ [] ∧ first < next ∧ next ≤ rel.length ∧
        text.length + (rel.length - next) ≤ out.length + (rel.length - first) ∧
        joinLoop text (rel.drop next) = joinName out (rel.drop first)
    | .stop o => o.Holds size (joinName out (rel.drop first)) ∧
        (joinName out (rel.drop first)).length ≤ out.length + (rel.length - first) := by
  obtain ⟨final, inner⟩ := copySegment_holds held inside room
  unfold joinName
  by_cases member : slash ∈ rel.drop first
  · obtain ⟨s, r, split, free⟩ := List.eq_append_cons_of_mem member
    obtain ⟨next, copied, next_held⟩ := inner s r split free
    have length := congrArg List.length split
    have skipped := (List.takeWhile_prefix (p := fun c => decide (c = slash)) (l := r)).length_le
    have tail : rel.drop (first + s.length + 1 + (r.takeWhile (· = slash)).length) =
        r.dropWhile (· = slash) := by
      rw [← List.drop_drop, drop_segment split, drop_takeWhile]
    simp only [List.length_append, List.length_cons, List.length_drop] at length
    refine ⟨_, copied, _, next_held, by simp, by omega, by omega, ?_, ?_⟩
    · simp only [List.length_append, List.length_singleton]
      omega
    · rw [if_pos member, tail, split, takeWhile_segment free, dropWhile_segment free,
        List.dropWhile_cons_of_pos (by simp)]
  · obtain ⟨next, copied, next_held⟩ := final member
    refine ⟨_, copied, ?_⟩
    rw [if_neg member]
    refine ⟨next_held, ?_⟩
    rw [List.length_append, List.length_drop]

variable (some_out : out ≠ [])
include some_out

theorem turn_refines : ∃ t, turn rel o first = some t ∧ Refines rel size out first t := by
  have length : (rel.drop first).length = rel.length - first := List.length_drop
  have positive : 0 < out.length := List.length_pos_iff.mpr some_out
  have some_rest : rel.drop first ≠ [] := by
    rw [← List.length_pos_iff]
    omega
  obtain ⟨up, up_eaten, up_held⟩ := eatDirAt_holds held (by omega)
  have up_length := eatDir_length some_out
  have model := joinLoop_next some_rest out
  rw [turn, peek_eq inside, Option.bind_some]
  cases next : nextOf (rel.drop first) with
  | hereLast =>
    simp only [next] at model
    refine ⟨.stop o, rfl, ?_⟩
    rw [Refines, model]
    exact ⟨held, by omega⟩
  | here =>
    simp only [next] at model
    have bound := nextOf_here next
    refine ⟨.again o (first + 2), rfl, out, held, some_out, by omega, by omega, by omega, ?_⟩
    rw [model, List.drop_drop]
  | upLast =>
    simp only [next] at model
    refine ⟨.stop up, by rw [act, up_eaten]; rfl, ?_⟩
    rw [Refines, model]
    exact ⟨up_held, by omega⟩
  | up =>
    simp only [next] at model
    have bound := nextOf_up next
    refine ⟨.again up (first + 3), by rw [act, up_eaten]; rfl, eatDir out, up_held, eatFile_ne_nil _,
      by omega, by omega, by omega, ?_⟩
    rw [model, List.drop_drop]
  | name =>
    simp only [next] at model
    obtain ⟨dir, dir_eaten, dir_held, dir_length⟩ := eatFileAt_name held some_out (by omega)
    obtain ⟨t, copied, refined⟩ := copySegment_refines dir_held inside (by omega)
    refine ⟨t, by rw [act, dir_eaten, Option.bind_some, copied], ?_⟩
    rw [← model] at refined
    cases t with
    | again o next =>
      obtain ⟨text, text_held, some_text, later, bound, grown, same⟩ := refined
      exact ⟨text, text_held, some_text, later, bound, by omega, same⟩
    | stop o => exact ⟨refined.1, by omega⟩

end Step

/-! The whole function. -/

theorem loopAt_holds (rel : Bytes) (fuel first : Nat) (held : o.Holds size out)
    (some_out : out ≠ []) (inside : first ≤ rel.length)
    (room : out.length + (rel.length - first) ≤ size) (enough : rel.length - first < fuel) :
    ∃ next, loopAt rel fuel o first = some next ∧
      next.Holds size (joinLoop out (rel.drop first)) ∧
      (joinLoop out (rel.drop first)).length ≤ out.length + (rel.length - first) := by
  induction fuel generalizing o out first with
  | zero => omega
  | succ fuel ih =>
    rw [loopAt]
    split
    · rename_i finished
      refine ⟨o, rfl, ?_⟩
      rw [List.drop_of_length_le (by omega), joinLoop, if_pos rfl]
      exact ⟨held, by omega⟩
    · rename_i more
      obtain ⟨t, taken, refined⟩ := turn_refines held (by omega) room some_out
      rw [taken, Option.bind_some]
      cases t with
      | again o next =>
        obtain ⟨text, text_held, some_text, later, bound, grown, same⟩ := refined
        obtain ⟨final, run, final_held, final_length⟩ :=
          ih next text_held some_text bound (by omega) (by omega)
        rw [same] at final_held final_length
        exact ⟨final, run, final_held, by omega⟩
      | stop o => exact ⟨o, rfl, refined⟩

theorem pushQuery_holds (held : o.Holds size out) (query : Bytes)
    (room : out.length + 1 + query.length ≤ size) :
    ∃ next, pushQuery o query = some next ∧ next.Holds size (out ++ queryPart query) := by
  unfold pushQuery queryPart
  split
  · exact ⟨o, rfl, by simpa using held⟩
  · obtain ⟨mark, pushed, mark_held⟩ := Output.push_holds held question (by omega)
    have rest : (out ++ [question]).length + query.length ≤ size := by
      rw [List.length_append, List.length_singleton]
      omega
    obtain ⟨next, appended, next_held⟩ := Output.append_holds mark_held query rest
    refine ⟨next, by rw [pushed, Option.bind_some, appended], ?_⟩
    simpa using next_held

theorem terminate_eq (held : o.Holds size out) (room : out.length < size) :
    terminate o = some out := by
  obtain ⟨next, pushed, next_held⟩ := Output.push_holds held 0 room
  have whole := next_held.content
  have behind := next_held.position
  rw [List.length_append, List.length_singleton] at behind
  rw [terminate, pushed, Option.map_some, held.position]
  have front := congrArg (List.take out.length) whole
  rw [List.take_take, Nat.min_eq_left (by omega), List.take_left] at front
  rw [front]

theorem queryPart_length (query : Bytes) : (queryPart query).length ≤ 1 + query.length := by
  unfold queryPart
  split
  · simp
  · rw [List.length_cons]
    omega

theorem finish_eq (held : o.Holds size out) (query : Bytes)
    (room : out.length + 1 + query.length < size) :
    (pushQuery o query).bind terminate = some (out ++ queryPart query) := by
  obtain ⟨next, pushed, next_held⟩ := pushQuery_holds held query (by omega)
  have length := queryPart_length query
  rw [pushed, Option.bind_some]
  refine terminate_eq next_held ?_
  rw [List.length_append]
  omega

theorem loop_finish_eq (rel : Bytes) (fuel first : Nat) (query : Bytes) (held : o.Holds size out)
    (some_out : out ≠ []) (inside : first ≤ rel.length) (enough : rel.length - first < fuel)
    (room : out.length + (rel.length - first) + 1 + query.length < size) :
    ((loopAt rel fuel o first).bind fun o => (pushQuery o query).bind terminate) =
      some (joinLoop out (rel.drop first) ++ queryPart query) := by
  obtain ⟨next, run, next_held, length⟩ :=
    loopAt_holds rel fuel first held some_out inside (by omega) enough
  rw [run, Option.bind_some, finish_eq next_held query (by omega)]

theorem pathJoinAt_eq {fuel : Nat} {res basePath baseQuery relPath relQuery : Bytes}
    (allocated : res.length = bufferSize basePath baseQuery relPath relQuery)
    (enough : relPath.length < fuel) :
    pathJoinAt fuel res basePath baseQuery relPath relQuery =
      some (pathJoin basePath baseQuery relPath relQuery) := by
  have query_room := Nat.le_max_left baseQuery.length relQuery.length
  have query_room' := Nat.le_max_right baseQuery.length relQuery.length
  have base_room := Nat.le_max_left 1 basePath.length
  have base_room' := Nat.le_max_right 1 basePath.length
  have start := Output.start_holds res
  have none_written : ([] : Bytes).length = 0 := rfl
  have root_length : [slash].length = 1 := rfl
  rw [bufferSize] at allocated
  obtain ⟨root, rooted, root_held⟩ := Output.push_holds start slash (by omega)
  obtain ⟨base, copied, base_held⟩ := Output.append_holds start basePath (by omega)
  rw [List.nil_append] at root_held base_held
  unfold pathJoinAt pathJoin
  split
  · by_cases no_base : basePath = []
    · rw [if_pos no_base, if_pos no_base, rooted, Option.bind_some]
      split <;> rw [finish_eq root_held _ (by omega)]
    · rw [if_neg no_base, if_neg no_base, copied, Option.bind_some]
      split <;> rw [finish_eq base_held _ (by omega)]
  by_cases absolute : relPath.head? = some slash
  · -- the slashes in front of the path are skipped
    rw [if_pos absolute, if_pos absolute, rooted, Option.bind_some]
    obtain ⟨tail, rfl⟩ := List.head?_eq_some_iff.mp absolute
    have length : (slash :: tail).length = tail.length + 1 := List.length_cons
    have slashes := (List.takeWhile_prefix (p := fun c => decide (c = slash)) (l := tail)).length_le
    have rest : (slash :: tail).drop (1 + (tail.takeWhile (· = slash)).length) =
        (slash :: tail).dropWhile (· = slash) := by
      rw [← List.drop_drop, List.dropWhile_cons_of_pos (by simp)]
      exact drop_takeWhile _ tail
    rw [scan_inside _ (by omega), Option.bind_some, List.drop_succ_cons, List.drop_zero,
      loop_finish_eq _ fuel _ relQuery root_held (by simp) (by omega) (by omega) (by omega), rest]
  · rw [if_neg absolute, if_neg absolute]
    by_cases no_base : basePath = []
    · rw [if_pos no_base, if_pos no_base, rooted, Option.bind_some,
        loop_finish_eq _ fuel _ relQuery root_held (by simp) (by omega) (by omega) (by omega),
        List.drop_zero]
    · rw [if_neg no_base, if_neg no_base, copied, Option.bind_some,
        loop_finish_eq _ fuel _ relQuery base_held no_base (by omega) (by omega) (by omega),
        List.drop_zero]

/-! Relative segments. -/

theorem pathJoin_safe {basePath : Bytes} (base : basePath = [] ∨ Safe basePath)
    (baseQuery relPath relQuery : Bytes) :
    ∃ path, pathJoin basePath baseQuery relPath relQuery =
        path ++ (if relPath = [] ∧ relQuery = [] then queryPart baseQuery else queryPart relQuery) ∧
      Safe path := by
  have given : basePath ≠ [] → Safe basePath := fun some_base => base.resolve_left some_base
  unfold pathJoin
  by_cases no_rel : relPath = []
  · simp only [no_rel, ↓reduceIte, true_and]
    refine ⟨_, rfl, ?_⟩
    split
    · exact root_safe
    · exact given ‹_›
  · simp only [no_rel, ↓reduceIte, false_and]
    split
    · exact ⟨_, rfl, joinLoop_safe _ root_safe⟩
    split
    · exact ⟨_, rfl, joinLoop_safe _ root_safe⟩
    · exact ⟨_, rfl, joinLoop_safe _ (given ‹_›)⟩

/-- `path_join` stays inside its buffer and inside its arguments for all four strings; and
    over a base without relative segments its path has none. -/
theorem path_join_in_buffer (basePath baseQuery relPath relQuery : Bytes) :
    (∀ fuel res, res.length = bufferSize basePath baseQuery relPath relQuery →
      relPath.length < fuel → pathJoinAt fuel res basePath baseQuery relPath relQuery =
        some (pathJoin basePath baseQuery relPath relQuery)) ∧
    (basePath = [] ∨ Safe basePath → ∃ path,
      pathJoin basePath baseQuery relPath relQuery =
        path ++ (if relPath = [] ∧ relQuery = [] then queryPart baseQuery else queryPart relQuery) ∧
      path.head? = some slash ∧ ∀ s ∈ path.splitOn slash, s ≠ [dot] ∧ s ≠ [dot, dot]) :=
  ⟨fun _ _ allocated enough => pathJoinAt_eq allocated enough,
    fun base => pathJoin_safe base baseQuery relPath relQuery⟩

end Nghttp2Asio.PathBuffer
