import Mathlib.Algebra.GroupWithZero.Nat
import Mathlib.Data.List.DropRight
import Mathlib.Data.List.Infix

/-!
Separated texts and the stack of segments that a left-to-right resolution of
relative names leaves behind. The alphabet, the separator and the two relative
names `here` and `up` are arbitrary; an empty segment is either swallowed or
entered like a name, depending on what was read before it.
-/
namespace SegmentStack
variable {α : Type} {sep : α} {here up : List α}

theorem infix_past_free {s : List α} (free : sep ∉ s) (u r : List α) :
    sep :: u <:+: s ++ r ↔ sep :: u <:+: r := by
  induction s with
  | nil => simp
  | cons c s ih =>
    have other : sep ≠ c := fun same => free (by simp [same])
    rw [List.cons_append, List.infix_cons_iff, ih (fun h => free (by simp [h]))]
    simp [other]

theorem suffix_past_free {s : List α} (free : sep ∉ s) (u r : List α) :
    sep :: u <:+ s ++ r ↔ sep :: u <:+ r := by
  induction s with
  | nil => simp
  | cons c s ih =>
    have other : sep ≠ c := fun same => free (by simp [same])
    rw [List.cons_append, List.suffix_cons_iff, ih (fun h => free (by simp [h]))]
    simp [other]

def render (sep : α) (dirs : List (List α)) : List α := sep :: dirs.flatMap (· ++ [sep])

theorem render_concat (dirs : List (List α)) (s : List α) :
    render sep (dirs ++ [s]) = render sep dirs ++ (s ++ [sep]) := by
  simp [render]

theorem render_getLast (dirs : List (List α)) : (render sep dirs).getLast? = some sep := by
  cases dirs using List.reverseRecOn with
  | nil => rfl
  | append_singleton dirs s => simp [render_concat]

theorem render_ne_nil (dirs : List (List α)) : render sep dirs ≠ [] := by simp [render]

theorem render_parent_length (sep : α) (dirs : List (List α)) :
    (render sep dirs.dropLast).length ≤ (render sep dirs).length := by
  cases dirs using List.reverseRecOn with
  | nil => rfl
  | append_singleton dirs s => simp [render_concat]

def weight (segs : List (List α)) : Nat := (segs.map (fun s => s.length + 1)).sum

theorem render_length (dirs : List (List α)) : (render sep dirs).length = 1 + weight dirs := by
  simp [render, weight, List.length_flatMap, Nat.add_comm]

theorem render_join (dirs : List (List α)) (s : List α) :
    render sep dirs ++ s = sep :: [sep].intercalate (dirs ++ [s]) := by
  induction dirs with
  | nil => simp [render]
  | cons t dirs ih =>
    rw [List.cons_append, List.intercalate_cons_of_ne_nil (by simp)]
    simp only [render, List.flatMap_cons, List.cons_append, List.cons.injEq, true_and] at ih ⊢
    rw [List.append_assoc, List.append_assoc, List.singleton_append, ih]
    simp

theorem render_closed {dirs : List (List α)} (some_dirs : dirs ≠ []) :
    render sep dirs = sep :: [sep].intercalate dirs ++ [sep] := by
  cases dirs using List.reverseRecOn with
  | nil => exact absurd rfl some_dirs
  | append_singleton dirs s =>
    rw [render_concat, ← List.append_assoc, render_join]

theorem intercalate_closed {segs : List (List α)} (some_segs : segs ≠ []) :
    [sep].intercalate segs ++ [sep] = [sep].intercalate (segs ++ [[]]) := by
  have closed : sep :: ([sep].intercalate segs ++ [sep]) = sep :: [sep].intercalate (segs ++ [[]]) := by
    rw [← List.cons_append, ← render_closed some_segs, ← render_join, List.append_nil]
  exact List.tail_eq_of_cons_eq closed

variable [DecidableEq α]

theorem takeWhile_segment {s : List α} (free : sep ∉ s) (r : List α) :
    (s ++ sep :: r).takeWhile (· ≠ sep) = s := by
  rw [List.takeWhile_append_of_pos (by
    intro x member
    simpa using ne_of_mem_of_not_mem member free)]
  simp

theorem dropWhile_segment {s : List α} (free : sep ∉ s) (r : List α) :
    (s ++ sep :: r).dropWhile (· ≠ sep) = sep :: r := by
  rw [List.dropWhile_append_of_pos (by
    intro x member
    simpa using ne_of_mem_of_not_mem member free)]
  simp

theorem first_segment_iff {s w : List α} (free : sep ∉ s) (word : sep ∉ w) (r : List α) :
    w ++ [sep] <+: s ++ sep :: r ↔ s = w := by
  constructor
  · rintro ⟨t, same⟩
    have read := congrArg (List.takeWhile (· ≠ sep)) same
    rw [takeWhile_segment free, List.append_assoc, List.singleton_append,
      takeWhile_segment word] at read
    exact read.symm
  · rintro rfl
    exact ⟨r, by simp⟩

theorem splitOn_cons_self (r : List α) : (sep :: r).splitOn sep = [] :: r.splitOn sep := by
  simp [List.splitOn_cons_eq_if_modifyHead]

/-- Every text is a last segment, or a segment, a separator and a shorter text. -/
theorem segment_induction (sep : α) {motive : List α → Prop}
    (last : ∀ s, sep ∉ s → motive s)
    (cons : ∀ s r, sep ∉ s → motive r → motive (s ++ sep :: r)) : ∀ r, motive r := by
  intro r
  induction h : r.length using Nat.strongRecOn generalizing r with
  | ind n ih =>
    by_cases member : sep ∈ r
    · obtain ⟨s, t, rfl, free⟩ := List.eq_append_cons_of_mem member
      exact cons s t free (ih t.length (by simp at h; omega) t rfl)
    · exact last r member

theorem segments_free (r : List α) : ∀ s ∈ r.splitOn sep, sep ∉ s := by
  induction r using segment_induction sep with
  | last s free => simpa [List.splitOn_eq_singleton free] using free
  | cons s r free ih =>
    rw [List.splitOn_append_cons_self_of_not_mem free]
    intro t member
    rcases List.mem_cons.mp member with same | later
    · exact same ▸ free
    · exact ih t later

theorem double_iff_empty_segment (r : List α) :
    [sep, sep] <:+: sep :: r ↔ [] ∈ (r.splitOn sep).dropLast := by
  induction r using segment_induction sep with
  | last s free =>
    rw [List.splitOn_eq_singleton free, List.infix_cons_iff]
    have none : ¬ [sep, sep] <:+: s := by
      intro h
      exact free (h.subset (by simp))
    have first : ¬ [sep] <+: s := by
      intro h
      exact free (h.subset (by simp))
    simp [none, first]
  | cons s r free ih =>
    rw [List.splitOn_append_cons_self_of_not_mem free, List.dropLast_cons_of_ne_nil (by simp),
      List.mem_cons, ← ih, List.infix_cons_iff, infix_past_free free]
    cases s with
    | nil => simp
    | cons c s =>
      have other : sep ≠ c := fun same => free (by simp [same])
      simp [other]

theorem segment_iff {w : List α} (word : sep ∉ w) (r : List α) :
    sep :: (w ++ [sep]) <:+: sep :: r ∨ sep :: w <:+ sep :: r ↔ w ∈ r.splitOn sep := by
  induction r using segment_induction sep with
  | last s free =>
    have outside : ∀ u, ¬ sep :: u <:+: s := fun u inside => free (inside.subset (by simp))
    have closed : ¬ w ++ [sep] <+: s := fun front => free (front.subset (by simp))
    have behind : ¬ sep :: w <:+ s := fun back => free (back.subset (by simp))
    rw [List.splitOn_eq_singleton free, List.infix_cons_iff, List.suffix_cons_iff]
    simp [outside, closed, behind]
  | cons s r free ih =>
    have longer : w ≠ s ++ sep :: r := by
      rintro rfl
      simp at word
    rw [List.splitOn_append_cons_self_of_not_mem free, List.mem_cons, ← ih, List.infix_cons_iff,
      List.suffix_cons_iff, infix_past_free free, suffix_past_free free, List.cons_prefix_cons,
      first_segment_iff free word]
    simp only [true_and, List.cons.injEq, longer, false_or, or_assoc, eq_comm]

theorem render_rdrop (dirs : List (List α)) (s : List α) (free : sep ∉ s) :
    (render sep dirs ++ s).rdropWhile (· ≠ sep) = render sep dirs := by
  induction s using List.reverseRecOn with
  | nil =>
    rw [List.append_nil, List.rdropWhile_eq_self_iff]
    intro nonempty
    have final : (render sep dirs).getLast? = some sep := render_getLast dirs
    rw [List.getLast?_eq_some_getLast nonempty] at final
    simpa using final
  | append_singleton s c ih =>
    have other : c ≠ sep := fun same => free (by simp [same])
    rw [← List.append_assoc, List.rdropWhile_concat_pos _ _ _ (by simpa using other)]
    exact ih (fun h => free (by simp [h]))

/-- A position in the resolution: the directories entered so far, and whether a
    following empty segment is swallowed. -/
structure Cursor (α : Type) where
  skip : Bool
  dirs : List (List α)
  deriving DecidableEq

def enter (here up : List α) (c : Cursor α) (s : List α) : Cursor α :=
  if s = here then ⟨false, c.dirs⟩
  else if s = up then ⟨false, c.dirs.dropLast⟩
  else if s = [] ∧ c.skip = true then ⟨true, c.dirs⟩
  else ⟨true, c.dirs ++ [s]⟩

def walk (here up : List α) (c : Cursor α) (segs : List (List α)) : Cursor α :=
  segs.foldl (enter here up) c

def finish (here up : List α) (c : Cursor α) (s : List α) : List (List α) × List α :=
  if s = here then (c.dirs, [])
  else if s = up then (c.dirs.dropLast, [])
  else (c.dirs, s)

def resolve (here up : List α) (c : Cursor α) : List (List α) → List (List α) × List α
  | [] => (c.dirs, [])
  | [s] => finish here up c s
  | s :: t :: rest => resolve here up (enter here up c s) (t :: rest)

@[simp] theorem walk_nil (c : Cursor α) : walk here up c [] = c := rfl

@[simp] theorem walk_cons (c : Cursor α) (s : List α) (segs : List (List α)) :
    walk here up c (s :: segs) = walk here up (enter here up c s) segs := rfl

theorem walk_append (c : Cursor α) (xs ys : List (List α)) :
    walk here up c (xs ++ ys) = walk here up (walk here up c xs) ys := by
  simp [walk]

theorem resolve_cons (c : Cursor α) (s : List α) {segs : List (List α)} (more : segs ≠ []) :
    resolve here up c (s :: segs) = resolve here up (enter here up c s) segs := by
  obtain ⟨t, rest, rfl⟩ := List.exists_cons_of_ne_nil more
  rfl

theorem resolve_concat (c : Cursor α) (segs : List (List α)) (s : List α) :
    resolve here up c (segs ++ [s]) = finish here up (walk here up c segs) s := by
  induction segs generalizing c with
  | nil => rfl
  | cons t segs ih => rw [List.cons_append, resolve_cons c t (by simp), ih, walk_cons]

theorem enter_name {s : List α} (c : Cursor α) (not_here : s ≠ here) (not_up : s ≠ up)
    (read : s = [] → c.skip = false) : enter here up c s = ⟨true, c.dirs ++ [s]⟩ := by
  have kept : ¬ (s = [] ∧ c.skip = true) := by
    rintro ⟨empty, skip⟩
    simp [read empty] at skip
  simp [enter, not_here, not_up, kept]

theorem enter_swallowed (c : Cursor α) (here_named : here ≠ []) (up_named : up ≠ [])
    (skip : c.skip = true) : enter here up c [] = ⟨true, c.dirs⟩ := by
  simp [enter, here_named.symm, up_named.symm, skip]

theorem enter_forall {P : List α → Prop} {c : Cursor α} {s : List α} (old : ∀ t ∈ c.dirs, P t)
    (new : P s) : ∀ t ∈ (enter here up c s).dirs, P t := by
  intro t member
  unfold enter at member
  split at member
  · exact old t member
  split at member
  · exact old t (List.dropLast_subset _ member)
  split at member
  · exact old t member
  · rcases List.mem_append.mp member with kept | last
    · exact old t kept
    · exact List.mem_singleton.mp last ▸ new

theorem resolve_forall {P : List α → Prop} (empty : P []) {c : Cursor α} {segs : List (List α)}
    (old : ∀ t ∈ c.dirs, P t) (new : ∀ s ∈ segs, P s) :
    (∀ t ∈ (resolve here up c segs).1, P t) ∧ P (resolve here up c segs).2 := by
  fun_induction resolve here up c segs with
  | case1 c => exact ⟨old, empty⟩
  | case2 c s =>
    unfold finish
    split
    · exact ⟨old, empty⟩
    split
    · exact ⟨fun t member => old t (List.dropLast_subset _ member), empty⟩
    · exact ⟨old, new s (by simp)⟩
  | case3 c s t rest ih =>
    exact ih (enter_forall old (new s (by simp))) (fun u member => new u (by simp [member]))

theorem resolve_skip (here_named : here ≠ []) (up_named : up ≠ []) (dirs : List (List α))
    (r : List α) : resolve here up ⟨true, dirs⟩ (r.splitOn sep) =
      resolve here up ⟨false, dirs⟩ ((r.dropWhile (· = sep)).splitOn sep) := by
  induction r with
  | nil => simp [resolve, finish]
  | cons c r ih =>
    by_cases same : c = sep
    · subst same
      rw [splitOn_cons_self, resolve_cons _ _ (by simp), enter_swallowed _ here_named up_named rfl,
        ih, List.dropWhile_cons_of_pos (by simp)]
    · rw [List.dropWhile_cons_of_neg (by simpa using same), List.splitOn_cons_eq_if_modifyHead,
        if_neg (by simpa using same)]
      obtain ⟨s, rest, split⟩ := List.exists_cons_of_ne_nil (List.splitOn_ne_nil sep r)
      rw [split, List.modifyHead_cons]
      cases rest with
      | nil => rfl
      | cons t rest => simp [resolve, enter]

theorem enter_length (c : Cursor α) (s : List α) :
    (render sep (enter here up c s).dirs).length ≤ (render sep c.dirs).length + (s.length + 1) := by
  unfold enter
  split
  · simp
  split
  · have shorter := render_parent_length sep c.dirs
    simp only
    omega
  split
  · simp
  · simp [render_concat]

theorem walk_length (sep : α) (here up : List α) (c : Cursor α) (segs : List (List α)) :
    (render sep (walk here up c segs).dirs).length ≤ (render sep c.dirs).length + weight segs := by
  induction segs generalizing c with
  | nil => simp
  | cons s segs ih =>
    have first : (render sep (enter here up c s).dirs).length ≤ _ := enter_length c s
    have rest := ih (enter here up c s)
    simp only [walk_cons, weight, List.map_cons, List.sum_cons] at *
    omega

def Plain (here up s : List α) : Prop := s ≠ [] ∧ s ≠ here ∧ s ≠ up

theorem walk_plain (c : Cursor α) (segs : List (List α)) (plain : ∀ s ∈ segs, Plain here up s) :
    (walk here up c segs).dirs = c.dirs ++ segs := by
  induction segs generalizing c with
  | nil => simp
  | cons s segs ih =>
    obtain ⟨named, not_here, not_up⟩ := plain s (by simp)
    rw [walk_cons, enter_name c not_here not_up (fun empty => absurd empty named),
      ih _ (fun t member => plain t (by simp [member]))]
    simp

theorem walk_shorter (sep : α) (c : Cursor α) (segs : List (List α)) (skip : c.skip = true)
    (odd : ∃ s ∈ segs, ¬ Plain here up s) :
    (render sep (walk here up c segs).dirs).length < (render sep c.dirs).length + weight segs := by
  induction segs generalizing c with
  | nil => simp at odd
  | cons s segs ih =>
    by_cases plain : Plain here up s
    · obtain ⟨t, member, bad⟩ := odd
      have later : ∃ t ∈ segs, ¬ Plain here up t := by
        rcases List.mem_cons.mp member with same | member
        · exact absurd plain (same ▸ bad)
        · exact ⟨t, member, bad⟩
      have stepped := enter_name c plain.2.1 plain.2.2 (fun empty => absurd empty plain.1)
      have rest := ih (enter here up c s) (by rw [stepped]) later
      rw [stepped, render_concat] at rest
      rw [walk_cons, stepped]
      simp only [weight, List.length_append, List.map_cons, List.sum_cons, List.length_singleton]
        at *
      omega
    · have lost : (render sep (enter here up c s).dirs).length <
          (render sep c.dirs).length + (s.length + 1) := by
        have shorter := render_parent_length sep c.dirs
        unfold enter
        split
        · simp only; omega
        split
        · simp only; omega
        rename_i not_here not_up
        have empty : s = [] := by
          by_contra named
          exact plain ⟨named, not_here, not_up⟩
        rw [if_pos ⟨empty, skip⟩]
        simp
      have rest : (render sep (walk here up (enter here up c s) segs).dirs).length ≤ _ :=
        walk_length sep here up (enter here up c s) segs
      simp only [walk_cons, weight, List.map_cons, List.sum_cons] at *
      omega

theorem finish_length (sep : α) (here up : List α) (c : Cursor α) (s : List α) :
    (render sep (finish here up c s).1).length + (finish here up c s).2.length ≤
      (render sep c.dirs).length + s.length := by
  have shorter := render_parent_length sep c.dirs
  unfold finish
  split
  · simp
  split
  · simp only [List.length_nil]
    omega
  · simp

theorem finish_shorter (sep : α) (here_named : here ≠ []) (up_named : up ≠ []) (c : Cursor α) (s : List α)
    (relative : s = here ∨ s = up) : (render sep (finish here up c s).1).length +
      (finish here up c s).2.length < (render sep c.dirs).length + s.length := by
  have shorter := render_parent_length sep c.dirs
  have named : 0 < s.length := by
    rw [List.length_pos_iff]
    rcases relative with rfl | rfl <;> assumption
  unfold finish
  split
  · simpa using named
  · rw [if_pos (by tauto)]
    simp only [List.length_nil]
    omega

theorem finish_name (c : Cursor α) {s : List α} (not_here : s ≠ here) (not_up : s ≠ up) :
    finish here up c s = (c.dirs, s) := by
  simp [finish, not_here, not_up]

/-- Only a text without empty directories and without relative names resolves to
    itself. -/
theorem resolve_fixed_iff (here_named : here ≠ []) (up_named : up ≠ []) (r : List α) :
    render sep (resolve here up ⟨true, []⟩ (r.splitOn sep)).1 ++
        (resolve here up ⟨true, []⟩ (r.splitOn sep)).2 = sep :: r ↔
      (∀ s ∈ (r.splitOn sep).dropLast, Plain here up s) ∧
        ∀ s ∈ r.splitOn sep, s ≠ here ∧ s ≠ up := by
  obtain ⟨dirs, last, split⟩ : ∃ dirs last, r.splitOn sep = dirs ++ [last] :=
    ⟨_, _, (List.dropLast_append_getLast (List.splitOn_ne_nil sep r)).symm⟩
  have whole : sep :: r = render sep dirs ++ last := by
    rw [render_join, ← split, List.intercalate_splitOn]
  rw [split, resolve_concat, List.dropLast_concat, whole]
  constructor
  · intro fixed
    have size := congrArg List.length fixed
    rw [List.length_append, List.length_append, render_length dirs] at size
    have plain : ∀ s ∈ dirs, Plain here up s := by
      by_contra odd
      push Not at odd
      have lost := walk_shorter sep ⟨true, []⟩ dirs rfl odd
      have kept := finish_length sep here up (walk here up ⟨true, []⟩ dirs) last
      simp only [render_length, weight, List.map_nil, List.sum_nil] at lost kept size
      omega
    have final : last ≠ here ∧ last ≠ up := by
      by_contra relative
      have lost := finish_shorter sep here_named up_named
        (walk here up ⟨true, []⟩ dirs) last (by tauto)
      have kept := walk_length sep here up ⟨true, []⟩ dirs
      simp only [render_length, weight, List.map_nil, List.sum_nil] at lost kept size
      omega
    refine ⟨plain, fun s member => ?_⟩
    rcases List.mem_append.mp member with dir | file
    · exact (plain s dir).2
    · exact List.mem_singleton.mp file ▸ final
  · rintro ⟨plain, named⟩
    obtain ⟨not_here, not_up⟩ := named last (by simp)
    rw [finish_name _ not_here not_up, walk_plain _ dirs plain]
    simp

def depth (here up : List α) : Bool → Nat → List (List α) → Nat
  | _, n, [] => n
  | skip, n, s :: segs =>
    if s = here then depth here up false n segs
    else if s = up then depth here up false (n - 1) segs
    else if s = [] ∧ skip = true then depth here up true n segs
    else depth here up true (n + 1) segs

theorem depth_eq_walk (here up : List α) (c : Cursor α) (segs : List (List α)) :
    depth here up c.skip c.dirs.length segs = (walk here up c segs).dirs.length := by
  induction segs generalizing c with
  | nil => rfl
  | cons s segs ih =>
    rw [walk_cons, ← ih, depth, enter]
    split
    · rfl
    split
    · simp
    split
    · rfl
    · simp

/-- An empty segment entered right after a relative name with no directory open,
    and never left again by the segments that follow it. -/
def OpenEmpty (here up : List α) (dirs : List (List α)) : Prop :=
  ∃ pre d post, dirs = pre ++ d :: [] :: post ∧ (d = here ∨ d = up) ∧
    depth here up true 0 (pre ++ [d]) = 0 ∧ ∀ q, q <+: post → 0 < depth here up true 1 q

def RootedEmpty (here up : List α) (segs : List (List α)) : Prop :=
  ∃ pre d post, segs = pre ++ d :: [] :: post ∧ post ≠ [] ∧ (d = here ∨ d = up) ∧
    depth here up true 0 (pre ++ [d]) = 0 ∧ ∀ q, q <+: post → 0 < depth here up true 1 q

theorem enter_relative {d : List α} (c : Cursor α) (relative : d = here ∨ d = up) :
    (enter here up c d).skip = false := by
  unfold enter
  split
  · rfl
  · rw [if_pos (by tauto)]

theorem last_relative (segs : List (List α)) (s : List α) (c : Cursor α)
    (entered : (walk here up c (segs ++ [s])).skip = false) : s = here ∨ s = up := by
  rw [walk_append, walk_cons, walk_nil, enter] at entered
  split at entered
  · exact Or.inl ‹_›
  split at entered
  · exact Or.inr ‹_›
  split at entered <;> simp at entered

theorem enter_bottom (c : Cursor α) (s b : List α) (bottom : c.dirs.head? = some b)
    (open_after : (enter here up c s).dirs ≠ []) : (enter here up c s).dirs.head? = some b := by
  obtain ⟨rest, stack⟩ : ∃ rest, c.dirs = b :: rest := by
    cases dirs : c.dirs with
    | nil => simp [dirs] at bottom
    | cons t ts => exact ⟨ts, by simpa [dirs] using bottom⟩
  unfold enter at open_after ⊢
  split
  · exact bottom
  split
  · rename_i not_here is_up
    rw [if_neg not_here, if_pos is_up] at open_after
    cases rest with
    | nil => simp [stack] at open_after
    | cons t ts => simp [stack]
  split
  · exact bottom
  · simp [stack]

theorem walk_bottom (c : Cursor α) (segs : List (List α)) (b : List α)
    (bottom : c.dirs.head? = some b)
    (held : ∀ q, q <+: segs → 0 < depth here up c.skip c.dirs.length q) :
    (walk here up c segs).dirs.head? = some b := by
  induction segs using List.reverseRecOn with
  | nil => exact bottom
  | append_singleton segs s ih =>
    have before := ih (fun q h => held q (h.trans (List.prefix_append _ _)))
    have after := held (segs ++ [s]) (List.prefix_refl _)
    rw [depth_eq_walk, walk_append, List.length_pos_iff] at after
    rw [walk_append]
    exact enter_bottom _ s b before after

theorem walk_rooted (here_named : here ≠ []) (up_named : up ≠ []) (pre post : List (List α))
    (d : List α) (relative : d = here ∨ d = up) (closed : depth here up true 0 (pre ++ [d]) = 0) :
    walk here up ⟨true, []⟩ (pre ++ d :: [] :: post) = walk here up ⟨true, [[]]⟩ post := by
  have root : (walk here up ⟨true, []⟩ (pre ++ [d])).dirs = [] := by
    rw [← List.length_eq_zero_iff, ← depth_eq_walk]
    exact closed
  have reading : (walk here up ⟨true, []⟩ (pre ++ [d])).skip = false := by
    rw [walk_append]
    exact enter_relative _ relative
  have split : pre ++ d :: [] :: post = (pre ++ [d]) ++ [] :: post := by simp
  rw [split, walk_append, walk_cons, enter_name _ here_named.symm up_named.symm (fun _ => reading),
    root]
  rfl

theorem rooted_concat (here_named : here ≠ []) (up_named : up ≠ []) {dirs : List (List α)}
    (s : List α) (before : OpenEmpty here up dirs)
    (open_after : (walk here up ⟨true, []⟩ (dirs ++ [s])).dirs ≠ []) :
    RootedEmpty here up (dirs ++ [s]) := by
  obtain ⟨pre, d, post, rfl, relative, closed, held⟩ := before
  refine ⟨pre, d, post ++ [s], by simp, by simp, relative, closed, ?_⟩
  intro q short
  rcases List.prefix_concat_iff.mp short with whole | part
  · have counted := depth_eq_walk here up ⟨true, [[]]⟩ q
    rw [whole, walk_append, ← walk_rooted here_named up_named pre post d relative closed,
      ← walk_append] at counted
    rw [whole]
    exact counted.symm ▸ List.length_pos_iff.mpr open_after
  · exact held q part

theorem OpenEmpty.of_rooted {dirs : List (List α)} (rooted : RootedEmpty here up dirs) :
    OpenEmpty here up dirs := by
  obtain ⟨pre, d, post, split, _, rest⟩ := rooted
  exact ⟨pre, d, post, split, rest⟩

theorem bottom_empty_iff (here_named : here ≠ []) (up_named : up ≠ []) (dirs : List (List α)) :
    (walk here up ⟨true, []⟩ dirs).dirs.head? = some [] ↔ OpenEmpty here up dirs := by
  constructor
  · induction dirs using List.reverseRecOn with
    | nil => simp
    | append_singleton dirs s ih =>
      intro bottom
      have open_after : (walk here up ⟨true, []⟩ (dirs ++ [s])).dirs ≠ [] := by
        intro none
        simp [none] at bottom
      rw [walk_append, walk_cons, walk_nil] at bottom
      cases stack : (walk here up ⟨true, []⟩ dirs).dirs with
      | nil =>
        -- the empty segment is the one entered by this very step
        have entered : s = [] ∧ (walk here up ⟨true, []⟩ dirs).skip = false := by
          unfold enter at bottom
          simp only [stack] at bottom
          split at bottom
          · simp at bottom
          split at bottom
          · simp at bottom
          split at bottom
          · simp at bottom
          · simp at bottom; simp_all
        obtain ⟨rfl, reading⟩ := entered
        cases dirs using List.reverseRecOn with
        | nil => simp at reading
        | append_singleton pre d =>
          refine ⟨pre, d, [], by simp, last_relative pre d _ reading, ?_, ?_⟩
          · have counted := depth_eq_walk here up ⟨true, []⟩ (pre ++ [d])
            rw [stack] at counted
            exact counted
          · intro q short
            rw [List.prefix_nil.mp short]
            simp [depth]
      | cons b rest =>
        rw [walk_append] at open_after
        have kept := enter_bottom _ s b (by rw [stack]; rfl) open_after
        have same : b = [] := by
          rw [kept] at bottom
          simpa using bottom
        rw [← walk_append] at open_after
        exact .of_rooted (rooted_concat here_named up_named s (ih (by rw [stack, same]; rfl))
          open_after)
  · rintro ⟨pre, d, post, rfl, relative, closed, held⟩
    rw [walk_rooted here_named up_named pre post d relative closed]
    exact walk_bottom _ post [] rfl held

theorem finish_bottom_iff (c : Cursor α) (s b : List α) :
    (finish here up c s).1.head? = some b ↔
      c.dirs.head? = some b ∧ (enter here up c s).dirs ≠ [] := by
  cases stack : c.dirs with
  | nil => unfold finish; split <;> [skip; split] <;> simp [stack]
  | cons t ts =>
    unfold finish enter
    split
    · simp [stack]
    split
    · cases ts <;> simp [stack]
    split <;> simp [stack]

/-- The resolved path starts with an empty directory exactly when the text has a
    rooted empty segment. -/
theorem resolve_bottom_iff (here_named : here ≠ []) (up_named : up ≠ []) (segs : List (List α)) :
    (resolve here up ⟨true, []⟩ segs).1.head? = some [] ↔ RootedEmpty here up segs := by
  cases segs using List.reverseRecOn with
  | nil => simp [resolve, RootedEmpty]
  | append_singleton dirs s =>
    rw [resolve_concat, finish_bottom_iff, bottom_empty_iff here_named up_named]
    constructor
    · rintro ⟨before, open_after⟩
      exact rooted_concat here_named up_named s before (by rw [walk_append]; exact open_after)
    · rintro ⟨pre, d, post, split, more, relative, closed, held⟩
      obtain ⟨post, t, rfl⟩ : ∃ xs t, post = xs ++ [t] :=
        ⟨post.dropLast, post.getLast more, (List.dropLast_append_getLast more).symm⟩
      have parts : dirs = pre ++ d :: [] :: post ∧ s = t := by
        have regrouped : dirs ++ [s] = (pre ++ d :: [] :: post) ++ [t] := by simp [split]
        simpa using List.append_inj' regrouped rfl
      obtain ⟨rfl, rfl⟩ := parts
      constructor
      · exact ⟨pre, d, post, rfl, relative, closed,
          fun q short => held q (short.trans (List.prefix_append _ _))⟩
      · have counted := held (post ++ [s]) (List.prefix_refl _)
        rw [show (1 : Nat) = ([[]] : List (List α)).length from rfl,
          depth_eq_walk here up ⟨true, [[]]⟩, walk_append,
          ← walk_rooted here_named up_named pre post d relative closed] at counted
        exact List.length_pos_iff.mp counted

/-! A second resolution finds no relative name, and so swallows every empty segment. -/

def Absolute (here up s : List α) : Prop := s ≠ here ∧ s ≠ up

theorem walk_absolute (c : Cursor α) (segs : List (List α)) (skip : c.skip = true)
    (absolute : ∀ s ∈ segs, Absolute here up s) :
    walk here up c segs = ⟨true, c.dirs ++ segs.filter (· ≠ [])⟩ := by
  induction segs generalizing c with
  | nil =>
    obtain ⟨_, dirs⟩ := c
    simp only at skip
    simp [skip]
  | cons s segs ih =>
    obtain ⟨not_here, not_up⟩ := absolute s (by simp)
    have rest := fun t member => absolute t (List.mem_cons_of_mem s member)
    rw [walk_cons]
    by_cases named : s = []
    · subst named
      rw [enter_swallowed c not_here.symm not_up.symm skip, ih _ rfl rest]
      simp
    · rw [enter_name c not_here not_up (fun empty => absurd empty named), ih _ rfl rest]
      simp [named]

theorem splitOn_render {dirs : List (List α)} {s : List α} (free : ∀ t ∈ dirs, sep ∉ t)
    (last : sep ∉ s) : (render sep dirs ++ s).splitOn sep = [] :: (dirs ++ [s]) := by
  have each : ∀ t ∈ dirs ++ [s], sep ∉ t := by
    intro t member
    rcases List.mem_append.mp member with dir | file
    · exact free t dir
    · exact List.mem_singleton.mp file ▸ last
  rw [render_join, splitOn_cons_self, List.splitOn_intercalate sep each (by simp)]

theorem resolve_again (here_named : here ≠ []) (up_named : up ≠ []) {dirs : List (List α)}
    {s : List α} (absolute : ∀ t ∈ dirs, Absolute here up t) (last : Absolute here up s) :
    resolve here up ⟨true, []⟩ ([] :: (dirs ++ [s])) = (dirs.filter (· ≠ []), s) := by
  rw [resolve_cons _ _ (by simp), enter_swallowed _ here_named up_named rfl, resolve_concat,
    walk_absolute _ _ rfl absolute, finish_name _ last.1 last.2]
  simp

end SegmentStack
