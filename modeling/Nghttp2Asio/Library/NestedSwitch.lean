import Mathlib.Data.List.Nodup
import Mathlib.Data.List.Induction

/-!
Words looked up by a switch over their length, then over their last letter, and then by
comparing the letters in front of it. Such a switch is a table of the words it accepts.
-/
namespace NestedSwitch
variable {α β : Type}

abbrev Tests (α β : Type) := List (List α × β)

abbrev Letters (α β : Type) := List (α × Tests α β)

abbrev Switch (α β : Type) := List (Nat × Letters α β)

def Letters.words (letters : Letters α β) : List (List α × β) :=
  letters.flatMap (fun c => c.2.map (fun t => (t.1 ++ [c.1], t.2)))

def Switch.words (sw : Switch α β) : List (List α × β) := sw.flatMap (fun c => Letters.words c.2)

theorem words_last {letters : Letters α β} {w : List α × β} (member : w ∈ letters.words) :
    ∃ c ∈ letters, w.1.getLast? = some c.1 := by
  obtain ⟨c, inside, member⟩ := List.mem_flatMap.mp member
  obtain ⟨t, _, rfl⟩ := List.mem_map.mp member
  exact ⟨c, inside, by simp⟩

section Find
variable [DecidableEq α]

def Letters.find (letters : Letters α β) (w : List α) : Option β := do
  let last ← w.getLast?
  let tests ← letters.lookup last
  tests.lookup w.dropLast

def Switch.find (sw : Switch α β) (w : List α) : Option β := do
  let letters ← sw.lookup w.length
  letters.find w

/-- No case stands twice, and the comparisons fit the length. -/
structure Switch.Regular (sw : Switch α β) : Prop where
  lengths : (sw.map Prod.fst).Nodup
  letters : ∀ c ∈ sw, (c.2.map Prod.fst).Nodup
  sizes : ∀ c ∈ sw, ∀ w ∈ Letters.words c.2, w.1.length = c.1

theorem lookup_absent {κ : Type} [BEq κ] [LawfulBEq κ] {l : List (κ × β)} {k : κ}
    (absent : k ∉ l.map Prod.fst) : l.lookup k = none := by
  rw [List.lookup_eq_none_iff]
  intro p member
  have other : k ≠ p.1 := by
    rintro rfl
    exact absent (List.mem_map_of_mem member)
  simpa using other

theorem lookup_tests (tests : Tests α β) (last : α) (w : List α) :
    (tests.map (fun t => (t.1 ++ [last], t.2))).lookup (w ++ [last]) = tests.lookup w := by
  induction tests with
  | nil => rfl
  | cons t tests ih =>
    rw [List.map_cons, List.lookup_cons, List.lookup_cons, ih]
    by_cases same : w = t.1
    · simp [same]
    · have longer : w ++ [last] ≠ t.1 ++ [last] := fun equal => same (List.append_cancel_right equal)
      rw [beq_eq_false_iff_ne.mpr longer, beq_eq_false_iff_ne.mpr same]

theorem lookup_letters {letters : Letters α β} (distinct : (letters.map Prod.fst).Nodup) (w : List α)
    (last : α) : letters.words.lookup (w ++ [last]) =
      (letters.lookup last).bind (fun tests => tests.lookup w) := by
  induction letters with
  | nil => rfl
  | cons c letters ih =>
    obtain ⟨apart, distinct⟩ := List.nodup_cons.mp (List.map_cons .. ▸ distinct)
    rw [Letters.words, List.flatMap_cons, List.lookup_append, ← Letters.words, ih distinct,
      List.lookup_cons]
    by_cases same : last = c.1
    · subst same
      rw [lookup_tests, lookup_absent apart]
      simp
    · have other : (c.2.map (fun t => (t.1 ++ [c.1], t.2))).lookup (w ++ [last]) = none := by
        apply lookup_absent
        intro member
        simp only [List.map_map, List.mem_map, Function.comp_apply] at member
        obtain ⟨t, _, equal⟩ := member
        exact same (by simpa using (List.append_inj' equal rfl).2.symm)
      rw [other, beq_eq_false_iff_ne.mpr same, Option.none_or]

theorem find_letters {letters : Letters α β} (distinct : (letters.map Prod.fst).Nodup) (w : List α) :
    letters.find w = letters.words.lookup w := by
  induction w using List.reverseRecOn with
  | nil =>
    symm
    apply lookup_absent
    intro member
    obtain ⟨p, inside, empty⟩ := List.mem_map.mp member
    obtain ⟨c, _, last⟩ := words_last inside
    simp [empty] at last
  | append_singleton w last _ =>
    rw [lookup_letters distinct]
    simp [Letters.find]

/-- A switch finds what the table of its words holds. -/
theorem find_words {sw : Switch α β} (regular : sw.Regular) (w : List α) :
    sw.find w = sw.words.lookup w := by
  obtain ⟨lengths, letters, sizes⟩ := regular
  induction sw with
  | nil => rfl
  | cons c sw ih =>
    obtain ⟨apart, distinct⟩ := List.nodup_cons.mp (List.map_cons .. ▸ lengths)
    have rest := ih distinct (fun d member => letters d (List.mem_cons_of_mem _ member))
      (fun d member => sizes d (List.mem_cons_of_mem _ member))
    rw [Switch.words, List.flatMap_cons, List.lookup_append, ← Switch.words, ← rest,
      ← find_letters (letters c List.mem_cons_self)]
    unfold Switch.find
    rw [List.lookup_cons]
    by_cases same : w.length = c.1
    · rw [same, lookup_absent apart]
      simp
    · have other : Letters.find c.2 w = none := by
        rw [find_letters (letters c List.mem_cons_self)]
        apply lookup_absent
        intro member
        obtain ⟨p, inside, equal⟩ := List.mem_map.mp member
        exact same (equal ▸ sizes c List.mem_cons_self p inside)
      rw [other, beq_eq_false_iff_ne.mpr same, Option.none_or]

end Find

theorem lookup_iff {κ : Type} [BEq κ] [LawfulBEq κ] {l : List (κ × β)}
    (distinct : (l.map Prod.fst).Nodup) (k : κ) (v : β) : l.lookup k = some v ↔ (k, v) ∈ l := by
  rw [List.lookup_eq_some_iff]
  constructor
  · rintro ⟨before, after, rfl, _⟩
    simp
  · intro member
    obtain ⟨before, after, rfl⟩ := List.append_of_mem member
    refine ⟨before, after, rfl, fun p earlier => ?_⟩
    rw [List.map_append, List.map_cons] at distinct
    have apart := (List.nodup_append.mp distinct).2.2 p.1 (List.mem_map_of_mem earlier) k (by simp)
    simpa using Ne.symm apart

theorem lookup_perm {κ : Type} [BEq κ] [LawfulBEq κ] {l m : List (κ × β)} (same : l.Perm m)
    (distinct : (l.map Prod.fst).Nodup) (k : κ) : l.lookup k = m.lookup k := by
  induction same with
  | nil => rfl
  | cons x perm ih =>
    rw [List.map_cons, List.nodup_cons] at distinct
    rw [List.lookup_cons, List.lookup_cons, ih distinct.2]
  | swap x y l =>
    simp only [List.map_cons, List.nodup_cons, List.mem_cons, not_or] at distinct
    rw [List.lookup_cons, List.lookup_cons, List.lookup_cons, List.lookup_cons]
    by_cases first : k = x.1
    · have apart : k ≠ y.1 := fun second => distinct.1.1 (second.symm.trans first)
      rw [beq_eq_false_iff_ne.mpr apart]
    · rw [beq_eq_false_iff_ne.mpr first]
  | trans first _ ih jh =>
    exact (ih distinct).trans (jh ((first.map Prod.fst).nodup_iff.mp distinct))

end NestedSwitch
