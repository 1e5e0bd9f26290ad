import Nghttp2Asio.Routing

/-!
The directory traversal check `check_path` of util.cc. It searches the text for
substrings and suffixes; what it decides is a property of the segments.
-/
namespace Nghttp2Asio.CheckPath
open Util PathJoin ServeMux Routing SegmentStack
variable {α : Type}

def backslash : UInt8 := '\\'.toUInt8

/-- `std::string::find`: the first position of the needle, `none` for `npos`. -/
def find (needle : Bytes) : Bytes → Option Nat
  | [] => if needle = [] then some 0 else none
  | c :: s => if needle.isPrefixOf (c :: s) then some 0 else (find needle s).map (· + 1)

def endsWith (a b : Bytes) : Bool :=
  if a.length < b.length then false else a.drop (a.length - b.length) == b

def checkPath (path : Bytes) : Bool :=
  !path.isEmpty && path.head? == some slash &&
    find [backslash] path == none &&
    find (lit "/../") path == none &&
    find (lit "/./") path == none &&
    !endsWith path (lit "/..") && !endsWith path (lit "/.")

example : checkPath (lit "/a/.../b/..c") = true := by decide +kernel
example : checkPath (lit "/a/./../b") = false := by decide +kernel

theorem find_none_iff (needle s : Bytes) : find needle s = none ↔ ¬ needle <:+: s := by
  induction s with
  | nil => simp [find]
  | cons c s ih =>
    rw [find, List.infix_cons_iff, ← List.isPrefixOf_iff_prefix]
    split
    · rename_i front
      simp [front]
    · rename_i front
      simp [front, ih]

theorem endsWith_iff (a b : Bytes) : endsWith a b = true ↔ b <:+ a := by
  unfold endsWith
  split
  · rename_i shorter
    simp only [Bool.false_eq_true, false_iff]
    intro back
    have bound := back.length_le
    omega
  · rw [beq_iff_eq, List.suffix_iff_eq_drop, eq_comm]

theorem mem_iff_infix (c : UInt8) (s : Bytes) : [c] <:+: s ↔ c ∈ s := by
  constructor
  · intro inside
    exact inside.subset (by simp)
  · intro member
    obtain ⟨before, after, rfl⟩ := List.append_of_mem member
    exact ⟨before, after, by simp⟩

theorem checkPath_cons_iff (r : Bytes) : checkPath (slash :: r) = true ↔
    backslash ∉ slash :: r ∧ [dot, dot] ∉ r.splitOn slash ∧ [dot] ∉ r.splitOn slash := by
  have up_inside : lit "/../" = slash :: ([dot, dot] ++ [slash]) := by decide
  have here_inside : lit "/./" = slash :: ([dot] ++ [slash]) := by decide
  have up_last : lit "/.." = slash :: [dot, dot] := by decide
  have here_last : lit "/." = slash :: [dot] := by decide
  rw [← segment_iff slash_not_up, ← segment_iff slash_not_here, ← mem_iff_infix, ← up_inside,
    ← here_inside, ← up_last, ← here_last]
  simp only [checkPath, List.isEmpty_cons, Bool.not_false, List.head?_cons, beq_self_eq_true,
    Bool.and_true, Bool.and_eq_true, beq_iff_eq, find_none_iff, Bool.not_eq_true',
    ← Bool.not_eq_true, endsWith_iff]
  tauto

theorem checkPath_iff (p : Bytes) : checkPath p = true ↔
    p.head? = some slash ∧ backslash ∉ p ∧
      ∀ s ∈ p.splitOn slash, s ≠ [dot] ∧ s ≠ [dot, dot] := by
  cases p with
  | nil => simp [checkPath]
  | cons c r =>
    by_cases rooted : c = slash
    · subst rooted
      have named : (∀ s ∈ r.splitOn slash, s ≠ [dot] ∧ s ≠ [dot, dot]) ↔
          [dot, dot] ∉ r.splitOn slash ∧ [dot] ∉ r.splitOn slash := by
        constructor
        · intro absolute
          exact ⟨fun up => (absolute _ up).2 rfl, fun here => (absolute _ here).1 rfl⟩
        · rintro ⟨no_up, no_here⟩ s member
          exact ⟨fun here => no_here (here ▸ member), fun up => no_up (up ▸ member)⟩
      rw [checkPath_cons_iff, splitOn_cons_self, List.forall_mem_cons, named]
      simp
    · simp [checkPath, rooted]

theorem canonical_checkPath {p : Bytes} (canonical : Canonical p) (safe : backslash ∉ p) :
    checkPath p = true := by
  obtain ⟨rooted, _, absolute⟩ := canonical
  exact (checkPath_iff p).mpr ⟨rooted, safe, absolute⟩

/-- The traversal check by segments; and what gets past the cleaning redirect, to a user's
    handler in particular, passes it unless it has a backslash. -/
theorem traversal_check (p : Bytes) :
    (checkPath p = true ↔ p.head? = some slash ∧ backslash ∉ p ∧
      ∀ s ∈ p.splitOn slash, s ≠ [dot] ∧ s ≠ [dot, dot]) ∧
    ∀ (mux : Table α) (req : RequestImpl), req.method ≠ lit "CONNECT" → req.uri.path = p →
      (redirectsToClean req = false ∨ ∃ f, handler mux req = .app f) →
      checkPath p = true ∨ backslash ∈ p := by
  refine ⟨checkPath_iff p, fun mux req method path dispatched => ?_⟩
  have kept : redirectsToClean req = false := by
    rcases dispatched with kept | ⟨f, answered⟩
    · exact kept
    · by_contra cleaning
      rw [handler_redirects mux (by simpa using cleaning)] at answered
      cases answered
  have canonical : Canonical p := by
    by_contra odd
    rw [(redirectsToClean_iff method).mpr (path ▸ odd)] at kept
    cases kept
  by_cases safe : backslash ∈ p
  · exact Or.inr safe
  · exact Or.inl (canonical_checkPath canonical safe)

end Nghttp2Asio.CheckPath
