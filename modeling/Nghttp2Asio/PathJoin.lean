import Nghttp2Asio.Library.SegmentStack
import Nghttp2Asio.Util

/-!
The path normalisation of http2.cc. The output buffer from `res.base` up to the
cursor `p` is the list `out`, the unread part of `rel_path` is the list `rest`;
nothing past the cursor is ever read back.
-/
namespace Nghttp2Asio.PathJoin
open SegmentStack

def eatFile (out : Bytes) : Bytes :=
  if out = [] then [slash]
  else if out.getLast? = some slash then out
  else
    let p := out.rdropWhile (· ≠ slash)
    if p = [] then [slash] else p

/-- The assertion of `eat_dir` is that the byte dropped between the two calls is a
    slash. -/
def eatDir (out : Bytes) : Bytes := eatFile (eatFile out).dropLast

theorem skip_segment_shorter {rest : Bytes} (member : slash ∈ rest) :
    ((rest.dropWhile (· ≠ slash)).dropWhile (· = slash)).length < rest.length := by
  obtain ⟨s, t, rfl, free⟩ := List.eq_append_cons_of_mem member
  rw [dropWhile_segment free, List.dropWhile_cons_of_pos (by simp)]
  have shorter := (List.dropWhile_sublist (fun c => decide (c = slash)) (l := t)).length_le
  simp only [List.length_append, List.length_cons]
  omega

/-- The main loop. Slashes after a copied segment are skipped; those after `./` and
    `../` are not. -/
def joinLoop (out rest : Bytes) : Bytes :=
  if rest = [] then out
  else if rest = [dot] then out
  else if [dot, slash] <+: rest then joinLoop out (rest.drop 2)
  else if rest = [dot, dot] then eatDir out
  else if [dot, dot, slash] <+: rest then joinLoop (eatDir out) (rest.drop 3)
  else
    let out := if out.getLast? = some slash then out else eatFile out
    if slash ∈ rest then
      joinLoop (out ++ rest.takeWhile (· ≠ slash) ++ [slash])
        ((rest.dropWhile (· ≠ slash)).dropWhile (· = slash))
    else out ++ rest
termination_by rest.length
decreasing_by
  · rename_i h; have := h.length_le; simp at this ⊢; omega
  · rename_i h; have := h.length_le; simp at this ⊢; omega
  · exact skip_segment_shorter ‹_›

def queryPart (query : Bytes) : Bytes := if query = [] then [] else question :: query

def pathJoin (basePath baseQuery relPath relQuery : Bytes) : Bytes :=
  if relPath = [] then
    (if basePath = [] then [slash] else basePath) ++
      (if relQuery = [] then queryPart baseQuery else queryPart relQuery)
  else if relPath.head? = some slash then
    joinLoop [slash] (relPath.dropWhile (· = slash)) ++ queryPart relQuery
  else if basePath = [] then joinLoop [slash] relPath ++ queryPart relQuery
  else joinLoop basePath relPath ++ queryPart relQuery

example : pathJoin [] [] (lit "/a/b/../c//d/./e") [] = lit "/a/c/d/e" := by decide +kernel

theorem eatFile_render (dirs : List Bytes) (s : Bytes) (free : slash ∉ s) :
    eatFile (render slash dirs ++ s) = render slash dirs := by
  unfold eatFile
  rw [if_neg (by simp [render])]
  split
  · rename_i final
    cases s using List.reverseRecOn with
    | nil => simp
    | append_singleton s c =>
      rw [← List.append_assoc, List.getLast?_concat] at final
      exact absurd (by simp [Option.some.inj final]) free
  · simp only [render_rdrop dirs s free, render_ne_nil, ↓reduceIte]

theorem eatDir_render (dirs : List Bytes) (free : ∀ s ∈ dirs, slash ∉ s) :
    eatDir (render slash dirs) = render slash dirs.dropLast := by
  have whole : eatFile (render slash dirs) = render slash dirs := by
    simpa using eatFile_render dirs [] (by simp)
  unfold eatDir
  rw [whole]
  cases dirs using List.reverseRecOn with
  | nil => rfl
  | append_singleton dirs s =>
    rw [render_concat, ← List.append_assoc, List.dropLast_concat, List.dropLast_concat]
    exact eatFile_render dirs s (free s (by simp))

theorem slash_not_here : slash ∉ [dot] := by decide
theorem slash_not_up : slash ∉ [dot, dot] := by decide

theorem joinLoop_segment (dirs : List Bytes) (s r : Bytes) (stack : ∀ t ∈ dirs, slash ∉ t)
    (free : slash ∉ s) : joinLoop (render slash dirs) (s ++ slash :: r) =
      if s = [dot] then joinLoop (render slash dirs) r
      else if s = [dot, dot] then joinLoop (render slash dirs.dropLast) r
      else joinLoop (render slash (dirs ++ [s])) (r.dropWhile (· = slash)) := by
  have here_iff : [dot, slash] <+: s ++ slash :: r ↔ s = [dot] :=
    first_segment_iff free slash_not_here r
  have up_iff : [dot, dot, slash] <+: s ++ slash :: r ↔ s = [dot, dot] :=
    first_segment_iff free slash_not_up r
  have longer : ∀ w : Bytes, slash ∉ w → s ++ slash :: r ≠ w := by
    intro w word same
    exact word (same ▸ by simp)
  rw [joinLoop, if_neg (longer [] (by simp)), if_neg (longer _ slash_not_here),
    if_neg (longer _ slash_not_up)]
  simp only [here_iff, up_iff]
  split
  · rename_i is_here
    simp [is_here]
  split
  · rename_i is_up
    rw [eatDir_render dirs stack]
    simp [is_up]
  · rw [if_pos (render_getLast dirs), if_pos (by simp), takeWhile_segment free,
      dropWhile_segment free, List.dropWhile_cons_of_pos (by simp), render_concat,
      List.append_assoc]

theorem joinLoop_last (c : Cursor UInt8) (s : Bytes) (stack : ∀ t ∈ c.dirs, slash ∉ t)
    (free : slash ∉ s) : joinLoop (render slash c.dirs) s =
      render slash (finish [dot] [dot, dot] c s).1 ++ (finish [dot] [dot, dot] c s).2 := by
  have no_here : ¬ [dot, slash] <+: s := fun h => free (h.subset (by simp))
  have no_up : ¬ [dot, dot, slash] <+: s := fun h => free (h.subset (by simp))
  rw [joinLoop, if_neg no_here, if_neg no_up]
  unfold finish
  split
  · rename_i empty
    subst empty
    rw [if_neg (by simp), if_neg (by simp), List.append_nil]
  split
  · simp
  split
  · simp [eatDir_render c.dirs stack]
  · simp only [render_getLast, ↓reduceIte]

theorem joinLoop_resolve (dirs : List Bytes) (rest : Bytes) (stack : ∀ t ∈ dirs, slash ∉ t) :
    joinLoop (render slash dirs) rest =
      render slash (resolve [dot] [dot, dot] ⟨false, dirs⟩ (rest.splitOn slash)).1 ++
        (resolve [dot] [dot, dot] ⟨false, dirs⟩ (rest.splitOn slash)).2 := by
  induction length : rest.length using Nat.strongRecOn generalizing dirs rest with
  | ind n ih =>
    by_cases member : slash ∈ rest
    · obtain ⟨s, r, rfl, free⟩ := List.eq_append_cons_of_mem member
      have entered : ∀ t ∈ (enter [dot] [dot, dot] ⟨false, dirs⟩ s).dirs, slash ∉ t :=
        enter_forall stack free
      rw [joinLoop_segment dirs s r stack free, List.splitOn_append_cons_self_of_not_mem free,
        resolve_cons _ _ (by simp)]
      have shorter : r.length < n := by
        simp only [List.length_append, List.length_cons] at length
        omega
      unfold enter at entered ⊢
      split
      · exact ih _ shorter dirs r stack rfl
      split
      · rename_i not_here is_up
        rw [if_neg not_here, if_pos is_up] at entered
        exact ih _ shorter dirs.dropLast r entered rfl
      · rename_i not_here not_up
        simp only [not_here, not_up, Bool.false_eq_true, and_false, ↓reduceIte] at entered ⊢
        have skipped : (r.dropWhile (· = slash)).length < n :=
          Nat.lt_of_le_of_lt (List.dropWhile_sublist _).length_le shorter
        rw [resolve_skip (by simp) (by simp)]
        exact ih _ skipped (dirs ++ [s]) _ entered rfl
    · rw [List.splitOn_eq_singleton member]
      exact joinLoop_last ⟨false, dirs⟩ rest stack member

def cleanPath (p : Bytes) : Bytes := pathJoin [] [] p []

theorem cleanPath_resolve (p : Bytes) : cleanPath p =
    render slash (resolve [dot] [dot, dot] ⟨true, []⟩ (p.splitOn slash)).1 ++
      (resolve [dot] [dot, dot] ⟨true, []⟩ (p.splitOn slash)).2 := by
  have root : ∀ r, joinLoop [slash] r = _ := fun r => joinLoop_resolve [] r (by simp)
  rw [resolve_skip (by simp) (by simp), ← root]
  unfold cleanPath pathJoin
  split
  · rename_i empty
    subst empty
    simp [joinLoop, queryPart]
  split
  · simp [queryPart]
  · rename_i relative
    have unread : p.dropWhile (· = slash) = p := by
      cases p with
      | nil => rfl
      | cons c p => exact List.dropWhile_cons_of_neg (by simpa using relative)
    simp [queryPart, unread]

/-- Rooted, without empty or relative segments. -/
def Canonical (p : Bytes) : Prop :=
  p.head? = some slash ∧ ¬ [slash, slash] <:+: p ∧
    ∀ s ∈ p.splitOn slash, s ≠ [dot] ∧ s ≠ [dot, dot]

theorem canonical_cons_iff (r : Bytes) : Canonical (slash :: r) ↔
    (∀ s ∈ (r.splitOn slash).dropLast, Plain [dot] [dot, dot] s) ∧
      ∀ s ∈ r.splitOn slash, s ≠ [dot] ∧ s ≠ [dot, dot] := by
  unfold Canonical
  rw [splitOn_cons_self, double_iff_empty_segment]
  constructor
  · rintro ⟨_, single, named⟩
    refine ⟨fun s member => ⟨?_, named s ?_⟩, fun s member => named s (by simp [member])⟩
    · rintro rfl
      exact single member
    · exact List.mem_cons_of_mem _ (List.dropLast_subset _ member)
  · rintro ⟨plain, named⟩
    refine ⟨rfl, fun empty => (plain [] empty).1 rfl, fun s member => ?_⟩
    rcases List.mem_cons.mp member with rfl | member
    · simp
    · exact named s member

theorem cleanPath_fixed_iff (p : Bytes) : cleanPath p = p ↔ Canonical p := by
  rw [cleanPath_resolve]
  cases p with
  | nil => simp [Canonical, resolve, finish, render]
  | cons c r =>
    by_cases rooted : c = slash
    · subst rooted
      rw [canonical_cons_iff, splitOn_cons_self, resolve_cons _ _ (by simp),
        enter_swallowed _ (by simp) (by simp) rfl]
      exact resolve_fixed_iff (by simp) (by simp) r
    · simp [Canonical, render, rooted, Ne.symm rooted]

theorem cleanPath_double_iff (p : Bytes) :
    (cleanPath p)[1]? = some slash ↔ RootedEmpty [dot] [dot, dot] (p.splitOn slash) := by
  rw [← resolve_bottom_iff (by simp) (by simp), cleanPath_resolve]
  obtain ⟨dirs_free, file_free⟩ : (∀ t ∈ (resolve [dot] [dot, dot] ⟨true, []⟩ _).1, slash ∉ t) ∧ _ :=
    resolve_forall (by simp) (by simp) (segments_free p)
  generalize resolve [dot] [dot, dot] ⟨true, []⟩ (p.splitOn slash) = resolved at *
  obtain ⟨dirs, file⟩ := resolved
  cases dirs with
  | nil =>
    have named : file[0]? ≠ some slash := fun first => file_free (List.mem_of_getElem? first)
    simpa [render] using named
  | cons d dirs =>
    cases d with
    | nil => simp [render]
    | cons c d =>
      have named : c ≠ slash := fun same => dirs_free (c :: d) (by simp) (by simp [same])
      simp [render, named]

/-! What one pass leaves behind. -/

def Safe (p : Bytes) : Prop :=
  p.head? = some slash ∧ ∀ s ∈ p.splitOn slash, s ≠ [dot] ∧ s ≠ [dot, dot]

structure Parts (p : Bytes) (dirs : List Bytes) (file : Bytes) : Prop where
  text : p = render slash dirs ++ file
  dirs_free : ∀ t ∈ dirs, slash ∉ t
  file_free : slash ∉ file
  dirs_named : ∀ t ∈ dirs, Absolute [dot] [dot, dot] t
  file_named : Absolute [dot] [dot, dot] file

theorem safe_iff_parts (p : Bytes) : Safe p ↔ ∃ dirs file, Parts p dirs file := by
  constructor
  · rintro ⟨rooted, named⟩
    obtain ⟨r, rfl⟩ := List.head?_eq_some_iff.mp rooted
    rw [splitOn_cons_self] at named
    obtain ⟨dirs, file, split⟩ : ∃ dirs file, r.splitOn slash = dirs ++ [file] :=
      ⟨_, _, (List.dropLast_append_getLast (List.splitOn_ne_nil slash r)).symm⟩
    have free : ∀ s ∈ r.splitOn slash, slash ∉ s := segments_free r
    rw [split] at named free
    refine ⟨dirs, file, ?_, ?_, ?_, ?_, ?_⟩
    · rw [render_join, ← split, List.intercalate_splitOn]
    · exact fun t member => free t (by simp [member])
    · exact free file (by simp)
    · exact fun t member => named t (by simp [member])
    · exact named file (by simp)
  · rintro ⟨dirs, file, parts⟩
    rw [Safe, parts.text, splitOn_render parts.dirs_free parts.file_free]
    refine ⟨rfl, fun s member => ?_⟩
    simp only [List.mem_cons, List.mem_append, List.not_mem_nil, or_false] at member
    rcases member with rfl | dir | rfl
    · simp
    · exact parts.dirs_named s dir
    · exact parts.file_named

theorem root_safe : Safe [slash] :=
  (safe_iff_parts _).mpr ⟨[], [], rfl, by simp, by simp, by simp, by simp [Absolute]⟩

theorem Parts.eatFile_eq {p : Bytes} {dirs : List Bytes} {file : Bytes} (parts : Parts p dirs file) :
    eatFile p = render slash dirs := by
  rw [parts.text, eatFile_render dirs file parts.file_free]

theorem Parts.dir {p : Bytes} {dirs : List Bytes} {file : Bytes} (parts : Parts p dirs file) :
    Parts (render slash dirs) dirs [] :=
  ⟨by simp, parts.dirs_free, by simp, parts.dirs_named, by simp [Absolute]⟩

theorem eatDir_safe {out : Bytes} (safe : Safe out) : Safe (eatDir out) := by
  obtain ⟨dirs, file, parts⟩ := (safe_iff_parts out).mp safe
  have same : eatDir out = eatDir (render slash dirs) := by
    rw [eatDir, eatDir, parts.eatFile_eq, parts.dir.eatFile_eq]
  have inside : ∀ t ∈ dirs.dropLast, t ∈ dirs := fun t member => List.dropLast_subset _ member
  rw [same, eatDir_render dirs parts.dirs_free, safe_iff_parts]
  exact ⟨dirs.dropLast, [], by simp, fun t member => parts.dirs_free t (inside t member), by simp,
    fun t member => parts.dirs_named t (inside t member), by simp [Absolute]⟩

theorem Parts.cut {p : Bytes} {dirs : List Bytes} {file : Bytes} (parts : Parts p dirs file) :
    (if p.getLast? = some slash then p else eatFile p) = render slash dirs := by
  split
  · rename_i ends
    cases file using List.reverseRecOn with
    | nil => simpa using parts.text
    | append_singleton file c =>
      rw [parts.text, ← List.append_assoc, List.getLast?_concat, Option.some.injEq] at ends
      exact absurd parts.file_free (by simp [ends])
  · exact parts.eatFile_eq

theorem joinLoop_safe {out : Bytes} (rest : Bytes) (safe : Safe out) : Safe (joinLoop out rest) := by
  fun_induction joinLoop out rest with
  | case1 out => exact safe
  | case2 out => exact safe
  | case3 out rest _ _ _ ih => exact ih safe
  | case4 out => exact eatDir_safe safe
  | case5 out rest _ _ _ _ _ ih => exact ih (eatDir_safe safe)
  | case6 out rest _ not_here_last not_here not_up_last not_up text member ih =>
    obtain ⟨dirs, file, parts⟩ := (safe_iff_parts out).mp safe
    obtain ⟨s, r, rfl, free⟩ := List.eq_append_cons_of_mem member
    have named : Absolute [dot] [dot, dot] s := by
      constructor
      · rintro rfl
        exact not_here ⟨r, rfl⟩
      · rintro rfl
        exact not_up ⟨r, rfl⟩
    have cut : text = render slash dirs := parts.cut
    apply ih
    rw [cut, takeWhile_segment free, List.append_assoc, ← render_concat, safe_iff_parts]
    refine ⟨dirs ++ [s], [], by simp, ?_, by simp, ?_, by simp [Absolute]⟩
    · intro t inside
      rcases List.mem_append.mp inside with old | new
      · exact parts.dirs_free t old
      · exact List.mem_singleton.mp new ▸ free
    · intro t inside
      rcases List.mem_append.mp inside with old | new
      · exact parts.dirs_named t old
      · exact List.mem_singleton.mp new ▸ named
  | case7 out rest _ not_here_last not_here not_up_last not_up text member =>
    obtain ⟨dirs, file, parts⟩ := (safe_iff_parts out).mp safe
    have cut : text = render slash dirs := parts.cut
    rw [cut, safe_iff_parts]
    exact ⟨dirs, rest, rfl, parts.dirs_free, member, parts.dirs_named, not_here_last, not_up_last⟩

theorem cleanPath_safe (p : Bytes) : Safe (cleanPath p) := by
  unfold cleanPath pathJoin
  simp only [↓reduceIte, queryPart, List.append_nil]
  split
  · exact root_safe
  split <;> exact joinLoop_safe _ root_safe

/-- A second pass removes the empty segments the first one may have left. -/
theorem cleanPath_twice_canonical (p : Bytes) : Canonical (cleanPath (cleanPath p)) := by
  obtain ⟨dirs, file, parts⟩ := (safe_iff_parts _).mp (cleanPath_safe p)
  have again : cleanPath (cleanPath p) = render slash (dirs.filter (· ≠ [])) ++ file := by
    rw [cleanPath_resolve, parts.text, splitOn_render parts.dirs_free parts.file_free,
      resolve_again (by simp) (by simp) parts.dirs_named parts.file_named]
  have kept : ∀ t ∈ dirs.filter (· ≠ []), t ∈ dirs ∧ t ≠ [] := by
    intro t member
    simpa using List.mem_filter.mp member
  have segments : (render slash (dirs.filter (· ≠ [])) ++ file).splitOn slash =
      [] :: (dirs.filter (· ≠ []) ++ [file]) :=
    splitOn_render (fun t member => parts.dirs_free t (kept t member).1) parts.file_free
  rw [again]
  rw [render_join, splitOn_cons_self] at segments
  rw [render_join, canonical_cons_iff, List.tail_eq_of_cons_eq segments, List.dropLast_concat]
  constructor
  · intro s member
    obtain ⟨inside, named⟩ := kept s member
    exact ⟨named, parts.dirs_named s inside⟩
  · intro s member
    rcases List.mem_append.mp member with dir | last
    · exact parts.dirs_named s (kept s dir).1
    · exact List.mem_singleton.mp last ▸ parts.file_named

end Nghttp2Asio.PathJoin
