import Std.Data.ExtTreeMap

/-!
Lookups in an ordered map after one update, with keys compared by equality. An
`insertIfNew` is the `emplace` of the C++ containers: it keeps a key that is there.
-/
namespace OrderedTable
variable {κ ν : Type} [Ord κ] [Std.TransOrd κ] [Std.LawfulEqOrd κ] [DecidableEq κ]

theorem get_insert (t : Std.ExtTreeMap κ ν) (k a : κ) (v : ν) :
    (t.insert k v)[a]? = if k = a then some v else t[a]? := by
  simp [Std.ExtTreeMap.getElem?_insert]

theorem get_erase (t : Std.ExtTreeMap κ ν) (k a : κ) :
    (t.erase k)[a]? = if k = a then none else t[a]? := by
  simp [Std.ExtTreeMap.getElem?_erase]

theorem get_emplace (t : Std.ExtTreeMap κ ν) (k a : κ) (v : ν) :
    (t.insertIfNew k v)[a]? = if k = a then t[a]?.or (some v) else t[a]? := by
  rw [Std.ExtTreeMap.getElem?_insertIfNew]
  by_cases same : k = a
  · subst same
    cases entry : t[k]? with
    | none =>
      have absent : k ∉ t := by simpa using entry
      simp [absent]
    | some v =>
      have present : k ∈ t := by simp [Std.ExtTreeMap.mem_iff_isSome_getElem?, entry]
      simp [present]
  · simp [same]

theorem toList_filter (t : Std.ExtTreeMap κ ν) (k : κ) :
    t.toList.filter (fun entry => entry.1 = k) = (t[k]?.map (fun v => (k, v))).toList := by
  have members : ∀ entry, entry ∈ t.toList.filter (fun entry => entry.1 = k) ↔
      entry.1 = k ∧ t[k]? = some entry.2 := by
    intro entry
    rw [List.mem_filter, decide_eq_true_eq, and_comm]
    apply and_congr_right
    intro named
    rw [← named]
    exact Std.ExtTreeMap.mem_toList_iff_getElem?_eq_some
  have distinct : (t.toList.filter (fun entry => entry.1 = k)).Pairwise
      (fun a b => a.1 ≠ b.1) := by
    apply List.Pairwise.filter
    apply t.distinct_keys_toList.imp
    intro a b different same
    simp [same] at different
  revert members distinct
  generalize t.toList.filter (fun entry => entry.1 = k) = entries
  intro members distinct
  match entries with
  | [] =>
    cases found : t[k]? with
    | none => rfl
    | some v => simpa using (members (k, v)).mpr ⟨rfl, found⟩
  | [entry] =>
    obtain ⟨named, found⟩ := (members entry).mp (List.mem_singleton_self _)
    rw [found, ← named]
    rfl
  | first :: second :: _ =>
    have apart := (List.pairwise_cons.mp distinct).1 second (by simp)
    exact absurd (((members first).mp (by simp)).1.trans
      ((members second).mp (by simp)).1.symm) apart

end OrderedTable
