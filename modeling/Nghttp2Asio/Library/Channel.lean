import Mathlib.Logic.Function.Basic
import Nghttp2Asio.Library.Trace

/-!
Lanes between two machines. Events of one lane arrive in the order in which they were
sent, lanes overtake each other freely, and a receiver adds events of its own, by which
an entry ends early. What is heard of an entry is then heard of a prefix of its lane.
-/
namespace Channel

variable {ε κ τ ο β : Type*}

section Order
variable [DecidableEq κ]

def taken (lane : ε → κ) (own : ε → Bool) (past : List ε) (k : κ) : List ε :=
  past.filter (fun e => lane e = k && !own e)

theorem taken_concat (lane : ε → κ) (own : ε → Bool) (past : List ε) (e : ε) (k : κ) :
    taken lane own (past ++ [e]) k =
      taken lane own past k ++ if lane e = k ∧ own e = false then [e] else [] := by
  unfold taken
  rw [List.filter_append]
  by_cases mine : lane e = k <;> cases local_ : own e <;> simp [mine, local_]

def InOrder (lane : ε → κ) (own : ε → Bool) (sent : κ → List ε) (past : List ε) : Prop :=
  ∀ k, taken lane own past k <+: sent k

def Next (lane : ε → κ) (own : ε → Bool) (sent : κ → List ε) (past : List ε) (e : ε) : Prop :=
  own e = false ∧ taken lane own past (lane e) ++ [e] <+: sent (lane e)

instance [DecidableEq ε] (lane : ε → κ) (own : ε → Bool) (sent : κ → List ε) (past : List ε) (e : ε) :
    Decidable (Next lane own sent past e) :=
  inferInstanceAs (Decidable (_ ∧ _))

variable {lane : ε → κ} {own : ε → Bool} {sent : κ → List ε} {past : List ε}

theorem InOrder.receive {e : ε} (order : InOrder lane own sent past)
    (next : Next lane own sent past e) : InOrder lane own sent (past ++ [e]) := by
  intro k
  rw [taken_concat]
  by_cases mine : lane e = k
  · subst mine
    rw [if_pos ⟨rfl, next.1⟩]
    exact next.2
  · rw [if_neg (fun both => mine both.1), List.append_nil]
    exact order k

theorem InOrder.local {e : ε} (order : InOrder lane own sent past) (mine : own e = true) :
    InOrder lane own sent (past ++ [e]) := by
  intro k
  rw [taken_concat, if_neg (by simp [mine]), List.append_nil]
  exact order k

theorem InOrder.extend (order : InOrder lane own sent past) (k : κ) (more : List ε) :
    InOrder lane own (Function.update sent k (sent k ++ more)) past := by
  intro j
  by_cases same : j = k
  · subst same
    rw [Function.update_self]
    exact (order j).trans (List.prefix_append _ _)
  · rw [Function.update_of_ne same]
    exact order j

theorem InOrder.begin (order : InOrder lane own sent past) (e : ε) (foreign : own e = false)
    (unused : sent (lane e) = []) :
    InOrder lane own (Function.update sent (lane e) [e]) (past ++ [e]) := by
  have longer := order.extend (lane e) [e]
  have nothing : taken lane own past (lane e) = [] := List.prefix_nil.mp (unused ▸ order (lane e))
  rw [unused, List.nil_append] at longer
  refine longer.receive ⟨foreign, ?_⟩
  rw [nothing, Function.update_self]
  exact List.prefix_rfl

end Order

/-! Entries that end early. -/

section Cut
variable {own : Option τ → ε → Option τ × List ο} {closing : ε → Bool} {note : ο → Option β}

def notes (note : ο → Option β) (own : Option τ → ε → Option τ × List ο) (events : List ε) : List β :=
  (Trace.run own none events).2.filterMap note

theorem notes_append (first rest : List ε) : notes note own (first ++ rest) =
    notes note own first ++ (Trace.run own (Trace.run own none first).1 rest).2.filterMap note := by
  simp only [notes, Trace.run_append, List.filterMap_append]

theorem notes_front {first whole : List ε} (front : first <+: whole) :
    notes note own first <+: notes note own whole := by
  obtain ⟨rest, rfl⟩ := front
  rw [notes_append]
  exact List.prefix_append _ _

/-- A closing event takes the entry away without a note, and once events have come an
    entry that is gone stays gone. -/
structure Closes (own : Option τ → ε → Option τ × List ο) (closing : ε → Bool) (note : ο → Option β)
    (lane : List ε) : Prop where
  ends : ∀ s e, closing e = true → (own s e).1 = none ∧ (own s e).2.filterMap note = []
  gone : ∀ e ∈ lane.tail, own none e = (none, [])

theorem Closes.front {first whole : List ε} (closes : Closes own closing note whole)
    (front : first <+: whole) : Closes own closing note first := by
  refine ⟨closes.ends, fun e member => closes.gone e ?_⟩
  obtain ⟨rest, rfl⟩ := front
  cases first with
  | nil => contradiction
  | cons head tail => simp_all

theorem run_closed (ends : ∀ s e, closing e = true → (own s e).1 = none) (past : List ε)
    (only : past.filter (fun e => !closing e) = []) : (Trace.run own none past).1 = none := by
  cases past using List.reverseRecOn with
  | nil => rfl
  | append_singleton past e =>
    rw [Trace.run_concat]
    exact ends _ e (by simpa using List.filter_eq_nil_iff.mp only e (by simp))

theorem run_cut (past : List ε)
    (closes : Closes own closing note (past.filter (fun e => !closing e))) :
    ((Trace.run own none past).1 = (Trace.run own none (past.filter (fun e => !closing e))).1 ∧
        notes note own past = notes note own (past.filter (fun e => !closing e))) ∨
      ((∃ e ∈ past, closing e = true) ∧ past.filter (fun e => !closing e) ≠ [] ∧
        (Trace.run own none past).1 = none ∧
        ∃ part, part <+: past.filter (fun e => !closing e) ∧
          notes note own past = notes note own part) := by
  induction past using List.reverseRecOn with
  | nil => exact Or.inl ⟨rfl, rfl⟩
  | append_singleton past e ih =>
    rw [List.filter_append] at closes ⊢
    have before := ih (closes.front (List.prefix_append _ _))
    cases shut : closing e with
    | true =>
      obtain ⟨gone, silent⟩ := closes.ends (Trace.run own none past).1 e shut
      have nothing : [e].filter (fun e => !closing e) = [] := by simp [shut]
      rw [nothing, List.append_nil, Trace.run_concat, notes_append, Trace.run_cons]
      simp only [Trace.run_nil, List.append_nil, silent]
      rcases before with ⟨same, noted⟩ | ⟨closed, some_, _, part, front, noted⟩
      · by_cases empty : past.filter (fun e => !closing e) = []
        · rw [empty] at noted ⊢
          exact Or.inl ⟨gone, noted⟩
        · exact Or.inr ⟨⟨e, by simp, shut⟩, empty, gone, _, List.prefix_rfl, noted⟩
      · exact Or.inr ⟨⟨e, by simp, shut⟩, some_, gone, part, front, noted⟩
    | false =>
      have kept : [e].filter (fun e => !closing e) = [e] := by simp [shut]
      rw [kept] at closes ⊢
      rw [Trace.run_concat, Trace.run_concat, notes_append, notes_append, Trace.run_cons,
        Trace.run_cons]
      simp only [Trace.run_nil, List.append_nil]
      rcases before with ⟨same, noted⟩ | ⟨⟨c, member, ended⟩, some_, empty, part, front, noted⟩
      · rw [same, noted]
        exact Or.inl ⟨rfl, rfl⟩
      · have late : e ∈ (past.filter (fun e => !closing e) ++ [e]).tail := by
          obtain ⟨head, tail, shape⟩ := List.exists_cons_of_ne_nil some_
          simp [shape]
        rw [empty, closes.gone e late]
        refine Or.inr ⟨⟨c, by simp [member], ended⟩, by simp, rfl, part,
          front.trans (List.prefix_append _ _), ?_⟩
        rw [← noted]
        simp

/-- Whatever cuts an entry off, what is noted of it is a first part of what its whole lane
    gives, and all of what has come when nothing closed it. -/
theorem notes_cut {past whole : List ε} (closes : Closes own closing note whole)
    (front : past.filter (fun e => !closing e) <+: whole) :
    notes note own past <+: notes note own whole ∧
      ((∀ e ∈ past, closing e = false) →
        notes note own past = notes note own (past.filter (fun e => !closing e))) := by
  rcases run_cut past (closes.front front) with
    ⟨_, noted⟩ | ⟨⟨e, member, ended⟩, _, _, part, first, noted⟩
  · rw [noted]
    exact ⟨notes_front front, fun _ => rfl⟩
  · refine ⟨?_, fun running => ?_⟩
    · rw [noted]
      exact notes_front (first.trans front)
    · rw [running e member] at ended
      contradiction

end Cut

end Channel
