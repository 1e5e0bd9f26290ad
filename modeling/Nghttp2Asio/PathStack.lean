import Nghttp2Asio.PathJoin

/-!
Relative paths given by their segments. What `path_join` makes of one at the root
is the text of a stack: `.` leaves it, `..` pops it, any other segment is pushed.
-/
namespace Nghttp2Asio.PathStack
open SegmentStack PathJoin

structure RelPath where
  leading : Bool
  segs : List Bytes
  trailing : Bool
  named : ∀ s ∈ segs, s ≠ [] ∧ slash ∉ s
  closes : trailing = true → segs ≠ []

def RelPath.text (rel : RelPath) : Bytes :=
  (if rel.leading then [slash] else []) ++ [slash].intercalate rel.segs ++
    (if rel.trailing then [slash] else [])

def scan (stack : List Bytes) (s : Bytes) : List Bytes :=
  if s = [dot] then stack else if s = [dot, dot] then stack.dropLast else stack ++ [s]

def RelPath.stack (rel : RelPath) : List Bytes := rel.segs.foldl scan []

def RelPath.Directory (rel : RelPath) : Prop :=
  rel.trailing = true ∨ rel.segs.getLast? = some [dot] ∨ rel.segs.getLast? = some [dot, dot]

instance (rel : RelPath) : Decidable rel.Directory :=
  inferInstanceAs (Decidable (_ ∨ _ ∨ _))

def RelPath.normal (rel : RelPath) : Bytes :=
  slash :: [slash].intercalate rel.stack ++
    (if rel.stack ≠ [] ∧ rel.Directory then [slash] else [])

theorem walk_scan (c : Cursor UInt8) (segs : List Bytes) (named : ∀ s ∈ segs, s ≠ []) :
    (walk [dot] [dot, dot] c segs).dirs = segs.foldl scan c.dirs := by
  induction segs generalizing c with
  | nil => rfl
  | cons s segs ih =>
    have first : (enter [dot] [dot, dot] c s).dirs = scan c.dirs s := by
      have kept : ¬ (s = [] ∧ c.skip = true) := fun both => named s (by simp) both.1
      unfold enter scan
      simp only [kept, ↓reduceIte]
      split
      · rfl
      split <;> rfl
    rw [walk_cons, List.foldl_cons, ← first]
    exact ih _ (fun t member => named t (by simp [member]))

theorem RelPath.text_split (rel : RelPath) (some_segs : rel.segs ≠ []) :
    rel.text.splitOn slash = (if rel.leading then [[]] else []) ++
      (rel.segs ++ (if rel.trailing then [[]] else [])) := by
  have free : ∀ s ∈ rel.segs, slash ∉ s := fun s member => (rel.named s member).2
  have inner : ([slash].intercalate rel.segs ++ (if rel.trailing then [slash] else [])).splitOn
      slash = rel.segs ++ (if rel.trailing then [[]] else []) := by
    cases rel.trailing with
    | false => simpa using List.splitOn_intercalate slash free some_segs
    | true =>
      have closed_free : ∀ s ∈ rel.segs ++ [[]], slash ∉ s := by
        intro s member
        rcases List.mem_append.mp member with inside | last
        · exact free s inside
        · simp [List.mem_singleton.mp last]
      simp only [↓reduceIte, intercalate_closed some_segs]
      exact List.splitOn_intercalate slash closed_free (by simp)
  unfold RelPath.text
  cases rel.leading with
  | false => simpa using inner
  | true => simpa [splitOn_cons_self] using inner

theorem resolve_leading (leading : Bool) {segs : List Bytes} (some_segs : segs ≠ []) :
    resolve [dot] [dot, dot] ⟨true, []⟩ ((if leading then [[]] else []) ++ segs) =
      resolve [dot] [dot, dot] ⟨true, []⟩ segs := by
  cases leading with
  | false => rfl
  | true =>
    simp only [↓reduceIte, List.singleton_append]
    rw [resolve_cons _ _ some_segs, enter_swallowed _ (by simp) (by simp) rfl]

theorem render_stack (dirs : List Bytes) : render slash dirs =
    slash :: [slash].intercalate dirs ++ (if dirs ≠ [] then [slash] else []) := by
  by_cases empty : dirs = []
  · simp [empty, render]
  · rw [if_pos empty, render_closed empty]

theorem RelPath.resolve_closed (rel : RelPath) : resolve [dot] [dot, dot] ⟨true, []⟩
    (rel.segs ++ [[]]) = (rel.stack, []) := by
  rw [resolve_concat, finish_name _ (by simp) (by simp),
    walk_scan _ rel.segs (fun s member => (rel.named s member).1)]
  rfl

theorem RelPath.resolve_open (rel : RelPath) (some_segs : rel.segs ≠ [])
    (untrailed : rel.trailing = false) :
    render slash (resolve [dot] [dot, dot] ⟨true, []⟩ rel.segs).1 ++
      (resolve [dot] [dot, dot] ⟨true, []⟩ rel.segs).2 = rel.normal := by
  obtain ⟨dirs, s, split⟩ : ∃ dirs s, rel.segs = dirs ++ [s] :=
    ⟨_, _, (List.dropLast_append_getLast some_segs).symm⟩
  have named : ∀ t ∈ dirs, t ≠ [] := fun t member => (rel.named t (by simp [split, member])).1
  have stack : rel.stack = scan (dirs.foldl scan []) s := by
    simp [RelPath.stack, split]
  have directory : rel.Directory ↔ s = [dot] ∨ s = [dot, dot] := by
    simp [RelPath.Directory, split, untrailed]
  unfold RelPath.normal
  simp only [directory, stack]
  rw [split, resolve_concat]
  unfold finish
  rw [walk_scan _ dirs named]
  generalize dirs.foldl scan [] = below
  unfold scan
  split
  · rename_i is_here
    simp [render_stack, is_here]
  split
  · rename_i is_up
    simp [render_stack, is_up]
  · rename_i not_here not_up
    simp [render_join, not_here, not_up]

theorem pathJoin_root (rel query : Bytes) :
    pathJoin [] [] rel query = cleanPath rel ++ queryPart query := by
  unfold cleanPath pathJoin
  split
  · by_cases none : query = [] <;> simp [queryPart, none]
  split <;> simp [queryPart]

/-- The in-place algorithm computes the text of the segment stack. -/
theorem pathJoin_eq_stack (rel : RelPath) (query : Bytes) :
    pathJoin [] [] rel.text query = rel.normal ++ queryPart query := by
  rw [pathJoin_root, cleanPath_resolve]
  congr 1
  by_cases empty : rel.segs = []
  · have untrailed : rel.trailing = false := by
      by_contra trailed
      exact rel.closes (by simpa using trailed) empty
    cases leading : rel.leading <;>
      simp [RelPath.text, RelPath.normal, RelPath.stack, empty, untrailed, leading, resolve, finish,
        enter, render, splitOn_cons_self]
  · rw [rel.text_split empty, resolve_leading _ (by simp [empty])]
    cases trailing : rel.trailing with
    | false => simpa using rel.resolve_open empty trailing
    | true =>
      simp only [↓reduceIte]
      rw [rel.resolve_closed, List.append_nil, render_stack]
      simp [RelPath.normal, RelPath.Directory, trailing]

def climbing : RelPath where
  leading := true
  segs := [lit "a", lit "..", lit "b"]
  trailing := true
  named := by decide
  closes := by decide

example : climbing.text = lit "/a/../b/" ∧ climbing.normal = lit "/b/" ∧
    pathJoin [] [] climbing.text (lit "q") = lit "/b/?q" := by decide +kernel

end Nghttp2Asio.PathStack
