import Mathlib.Data.List.Perm.Subperm

/-!
Records that are chained through their addresses, and the loop that gives a chain back
link by link. The link of a record is read before the record goes; at an address where no
record is left the loop is stuck.
-/
namespace PointerChain

section
variable {A B : Type} (null : A) (next : A → A)

/-- The addresses on the way from `p` to the null address. -/
inductive Chain : A → List A → Prop where
  | nil : Chain null []
  | cons {p : A} {rest : List A} (some_ : p ≠ null) (linked : Chain (next p) rest) :
      Chain p (p :: rest)

def freeLoop [DecidableEq A] (address : B → A) : Nat → List B → A → Option (List B)
  | 0, _, _ => none
  | fuel + 1, live, p =>
    if p = null then some live
    else if live.any (fun b => address b = p) then
      freeLoop address fuel (live.filter (fun b => address b ≠ p)) (next p)
    else none

def freeAll [DecidableEq A] (address : B → A) (live : List B) (p : A) : Option (List B) :=
  freeLoop null next address (live.length + 1) live p

variable {null : A} {next : A → A}

theorem Chain.congr {other : A → A} {p : A} {chain : List A} (linked : Chain null next p chain)
    (same : ∀ q ∈ chain, other q = next q) : Chain null other p chain := by
  induction linked with
  | nil => exact .nil
  | cons some_ linked ih =>
    apply Chain.cons some_
    rw [same _ List.mem_cons_self]
    exact ih fun q member => same q (List.mem_cons_of_mem _ member)

/-- A chain whose records are all there and all different goes, and nothing else does. -/
theorem freeLoop_chain [DecidableEq A] {address : B → A} {p : A} {chain : List A} (linked : Chain null next p chain)
    {fuel : Nat} {live : List B} (enough : chain.length < fuel) (once : chain.Nodup)
    (there : ∀ q ∈ chain, ∃ b ∈ live, address b = q) :
    freeLoop null next address fuel live p = some (live.filter (fun b => address b ∉ chain)) := by
  induction linked generalizing fuel live with
  | nil =>
    obtain ⟨fuel, rfl⟩ := Nat.exists_eq_succ_of_ne_zero (Nat.ne_of_gt enough)
    simp [freeLoop]
  | @cons p rest some_ linked ih =>
    obtain ⟨fuel, rfl⟩ := Nat.exists_eq_succ_of_ne_zero (Nat.ne_of_gt (Nat.zero_lt_of_lt enough))
    obtain ⟨new, once⟩ := List.nodup_cons.mp once
    have found : live.any (fun b => address b = p) = true := by
      obtain ⟨b, member, here⟩ := there p List.mem_cons_self
      exact List.any_eq_true.mpr ⟨b, member, by simpa using here⟩
    have left : ∀ q ∈ rest, ∃ b ∈ live.filter (fun b => address b ≠ p), address b = q := by
      intro q member
      obtain ⟨b, kept, here⟩ := there q (List.mem_cons_of_mem _ member)
      refine ⟨b, List.mem_filter.mpr ⟨kept, ?_⟩, here⟩
      rw [here]
      simpa using fun same : q = p => new (same ▸ member)
    rw [freeLoop, if_neg some_, if_pos found, ih (Nat.lt_of_succ_lt_succ enough) once left,
      List.filter_filter]
    congr 2
    funext b
    by_cases here : address b = p <;> simp [here]

theorem freeAll_chain [DecidableEq A] {address : B → A} {p : A} {chain : List A} (linked : Chain null next p chain)
    {live : List B} (once : chain.Nodup) (there : ∀ q ∈ chain, ∃ b ∈ live, address b = q) :
    freeAll null next address live p = some (live.filter (fun b => address b ∉ chain)) := by
  apply freeLoop_chain linked _ once there
  have covered : chain ⊆ live.map address := by
    intro q member
    obtain ⟨b, kept, here⟩ := there q member
    exact List.mem_map.mpr ⟨b, kept, here⟩
  have short := (List.subperm_of_subset once covered).length_le
  rw [List.length_map] at short
  exact Nat.lt_succ_of_le short

end

end PointerChain
