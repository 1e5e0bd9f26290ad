import Mathlib.Data.List.Sort
import Mathlib.Data.List.Induction

/-!
Ordered multimaps: entries sorted by key, a new entry placed after the entries
of the same key. The order of the entries is part of the value, as it is for an
iteration over the container.
-/
namespace Multimap

structure Map (κ ν : Type) [Ord κ] where
  entries : List (κ × ν)
  sorted : entries.Pairwise (fun a b => (compare a.1 b.1).isLE)
  deriving DecidableEq

variable {κ ν : Type} [Ord κ]

def empty : Map κ ν := ⟨[], List.Pairwise.nil⟩

/-- Before the first entry with a larger key. -/
def place (entry : κ × ν) (entries : List (κ × ν)) : List (κ × ν) :=
  entries.orderedInsert (fun a b => compare a.1 b.1 = .lt) entry

variable [Std.TransOrd κ]

theorem place_sorted (entry : κ × ν) (entries : List (κ × ν))
    (sorted : entries.Pairwise (fun a b => (compare a.1 b.1).isLE)) :
    (place entry entries).Pairwise (fun a b => (compare a.1 b.1).isLE) := by
  induction entries with
  | nil => simp [place]
  | cons first rest ih =>
    obtain ⟨least, tail⟩ := List.pairwise_cons.mp sorted
    unfold place at ih ⊢
    rw [List.orderedInsert_cons]
    split
    · rename_i before
      have ahead : (compare entry.1 first.1).isLE := by rw [before]; rfl
      refine List.pairwise_cons.mpr ⟨fun b member => ?_, sorted⟩
      rcases List.mem_cons.mp member with rfl | later
      · exact ahead
      · exact Std.TransCmp.isLE_trans ahead (least b later)
    · rename_i after
      refine List.pairwise_cons.mpr ⟨fun b member => ?_, ih tail⟩
      rcases (List.mem_orderedInsert _).mp member with rfl | later
      · exact Std.OrientedCmp.isLE_of_isGE (Ordering.isGE_iff_ne_lt.mpr after)
      · exact least b later

def Map.emplace (m : Map κ ν) (k : κ) (v : ν) : Map κ ν :=
  ⟨place (k, v) m.entries, place_sorted (k, v) m.entries m.sorted⟩

def ofList (entries : List (κ × ν)) : Map κ ν := entries.foldl (fun m e => m.emplace e.1 e.2) empty

theorem emplace_perm (m : Map κ ν) (k : κ) (v : ν) :
    (m.emplace k v).entries.Perm ((k, v) :: m.entries) :=
  List.perm_orderedInsert _ _ _

theorem ofList_concat (entries : List (κ × ν)) (k : κ) (v : ν) :
    ofList (entries ++ [(k, v)]) = (ofList entries).emplace k v := by
  simp [ofList]

theorem ofList_perm (entries : List (κ × ν)) : (ofList entries).entries.Perm entries := by
  induction entries using List.reverseRecOn with
  | nil => exact List.Perm.refl _
  | append_singleton entries e ih =>
    rw [ofList_concat]
    exact ((emplace_perm _ _ _).trans (ih.cons e)).trans (List.perm_append_singleton e entries).symm

theorem place_last (entry : κ × ν) (entries : List (κ × ν))
    (last : ∀ e ∈ entries, (compare e.1 entry.1).isLE) : place entry entries = entries ++ [entry] := by
  induction entries with
  | nil => rfl
  | cons e rest ih =>
    have here := last e (by simp)
    have later := ih (fun x member => last x (by simp [member]))
    have behind : compare entry.1 e.1 ≠ .lt := by
      intro before
      have swapped : compare e.1 entry.1 = (compare entry.1 e.1).swap := Std.OrientedCmp.eq_swap
      rw [swapped, before] at here
      cases here
    unfold place at later ⊢
    rw [List.orderedInsert_cons, if_neg behind, later]
    rfl

theorem ofList_entries (m : Map κ ν) : ofList m.entries = m := by
  have again : ∀ entries : List (κ × ν), entries.Pairwise (fun a b => (compare a.1 b.1).isLE) →
      (ofList entries).entries = entries := by
    intro entries
    induction entries using List.reverseRecOn with
    | nil =>
      intro _
      rfl
    | append_singleton entries e ih =>
      intro sorted
      obtain ⟨front, _, before⟩ := List.pairwise_append.mp sorted
      rw [ofList_concat]
      change place e (ofList entries).entries = _
      rw [ih front]
      exact place_last e entries (fun x member => before x member e (by simp))
  have same := again m.entries m.sorted
  cases built : ofList m.entries
  cases m
  simp_all

def Map.values [DecidableEq κ] (m : Map κ ν) (k : κ) : List ν :=
  (m.entries.filter (fun e => e.1 = k)).map Prod.snd

theorem values_emplace [DecidableEq κ] [Std.LawfulEqOrd κ] (m : Map κ ν) (k j : κ) (v : ν) :
    (m.emplace k v).values j = m.values j ++ if k = j then [v] else [] := by
  -- behind the place of the new entry there are larger keys only
  have front : ∀ entries : List (κ × ν), entries.Pairwise (fun a b => (compare a.1 b.1).isLE) →
      (place (k, v) entries).filter (fun e => e.1 = j) =
        entries.filter (fun e => e.1 = j) ++ if k = j then [(k, v)] else [] := by
    intro entries
    induction entries with
    | nil =>
      intro _
      by_cases same : k = j <;> simp [place, same]
    | cons e rest ih =>
      intro sorted
      obtain ⟨least, tail⟩ := List.pairwise_cons.mp sorted
      have later := ih tail
      unfold place at later ⊢
      rw [List.orderedInsert_cons]
      split
      · rename_i before
        by_cases same : k = j
        · subst same
          have larger : ∀ x ∈ e :: rest, x.1 ≠ k := by
            intro x member equal
            have reach : (compare e.1 x.1).isLE := by
              rcases List.mem_cons.mp member with rfl | inside
              · simp
              · exact least x inside
            have swapped : compare e.1 x.1 = (compare x.1 e.1).swap := Std.OrientedCmp.eq_swap
            rw [swapped, equal, before] at reach
            cases reach
          have nothing : (e :: rest).filter (fun x => x.1 = k) = [] := by
            simpa [List.filter_eq_nil_iff] using larger
          rw [List.filter_cons_of_pos (by simp), nothing]
          simp
        · rw [List.filter_cons_of_neg (by simpa using same)]
          simp [same]
      · by_cases mine : e.1 = j
        · rw [List.filter_cons_of_pos (by simpa using mine),
            List.filter_cons_of_pos (by simpa using mine), later]
          rfl
        · rw [List.filter_cons_of_neg (by simpa using mine),
            List.filter_cons_of_neg (by simpa using mine), later]
  unfold Map.values Map.emplace
  rw [front m.entries m.sorted]
  by_cases same : k = j <;> simp [same]

theorem values_ofList [DecidableEq κ] [Std.LawfulEqOrd κ] (entries : List (κ × ν)) (j : κ) :
    (ofList entries).values j = (entries.filter (fun e => e.1 = j)).map Prod.snd := by
  induction entries using List.reverseRecOn with
  | nil => rfl
  | append_singleton entries e ih =>
    rw [ofList_concat, values_emplace, ih, List.filter_append, List.map_append]
    by_cases same : e.1 = j <;> simp [same]

end Multimap
