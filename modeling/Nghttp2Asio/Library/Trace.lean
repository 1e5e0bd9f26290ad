import Mathlib.Data.List.Induction

/-!
Machines that answer every event with a new state and a list of outputs, their runs,
and the projection of a run to one key when every event works on the entry of its own
key only.
-/
namespace Trace

variable {σ ε ο κ τ : Type*}

def run (step : σ → ε → σ × List ο) (s : σ) : List ε → σ × List ο
  | [] => (s, [])
  | e :: rest =>
    ((run step (step s e).1 rest).1, (step s e).2 ++ (run step (step s e).1 rest).2)

@[simp] theorem run_nil (step : σ → ε → σ × List ο) (s : σ) : run step s [] = (s, []) := rfl

theorem run_cons (step : σ → ε → σ × List ο) (s : σ) (e : ε) (rest : List ε) :
    run step s (e :: rest) =
      ((run step (step s e).1 rest).1, (step s e).2 ++ (run step (step s e).1 rest).2) := rfl

theorem run_append (step : σ → ε → σ × List ο) (s : σ) (first rest : List ε) :
    run step s (first ++ rest) =
      ((run step (run step s first).1 rest).1,
        (run step s first).2 ++ (run step (run step s first).1 rest).2) := by
  induction first generalizing s with
  | nil => simp
  | cons e first ih => simp [run_cons, ih]

theorem run_concat (step : σ → ε → σ × List ο) (s : σ) (events : List ε) (e : ε) :
    run step s (events ++ [e]) =
      ((step (run step s events).1 e).1,
        (run step s events).2 ++ (step (run step s events).1 e).2) := by
  rw [run_append]
  simp [run_cons]

theorem run_filter (step : σ → ε → σ × List ο) (keep : ο → Bool) (s : σ) (events : List ε) :
    run (fun s e => ((step s e).1, (step s e).2.filter keep)) s events =
      ((run step s events).1, (run step s events).2.filter keep) := by
  induction events generalizing s with
  | nil => rfl
  | cons e rest ih => simp [run_cons, ih]

theorem run_map {δ : Type*} (step : σ → ε → σ × List ο) (f : δ → ε) (s : σ) (events : List δ) :
    run step s (events.map f) = run (fun s e => step s (f e)) s events := by
  induction events generalizing s with
  | nil => rfl
  | cons e rest ih => simp [run_cons, ih]

theorem run_constant {step : σ → ε → σ × List ο} {s : σ} (out : ε → List ο) (events : List ε)
    (still : ∀ e ∈ events, step s e = (s, out e)) :
    run step s events = (s, events.flatMap out) := by
  induction events with
  | nil => rfl
  | cons e rest ih =>
    rw [run_cons, still e (by simp), ih (fun f member => still f (by simp [member]))]
    rfl

theorem run_skip {step : σ → ε → σ × List ο} (keep : ε → Bool) (events : List ε)
    (idle : ∀ e ∈ events, keep e = false → ∀ s, step s e = (s, [])) :
    ∀ s, run step s (events.filter keep) = run step s events := by
  induction events with
  | nil =>
    intro s
    rfl
  | cons e rest ih =>
    intro s
    have tail := ih (fun f member => idle f (List.mem_cons_of_mem e member))
    cases kept : keep e with
    | true => rw [List.filter_cons_of_pos kept, run_cons, run_cons, tail]
    | false =>
      rw [List.filter_cons_of_neg (by simp [kept]), tail, run_cons,
        idle e (by simp) kept s]
      rfl

/-- The history rule: what holds before any event and is carried over every single
    event, as a relation between the events so far, the state and the outputs so far,
    holds after every run. -/
theorem run_history {step : σ → ε → σ × List ο} {s : σ}
    (inv : List ε → σ → List ο → Prop) (start : inv [] s [])
    (next : ∀ past t log e, inv past t log →
      inv (past ++ [e]) (step t e).1 (log ++ (step t e).2)) :
    ∀ events, inv events (run step s events).1 (run step s events).2 := by
  intro events
  induction events using List.reverseRecOn with
  | nil => exact start
  | append_singleton events e ih =>
    rw [run_concat]
    exact next events _ _ e ih

theorem foldlM_invariant {step : σ → ε → Option σ} (inv : σ → Prop)
    (next : ∀ s e, inv s → ∃ t, step s e = some t ∧ inv t) :
    ∀ (events : List ε) (s : σ), inv s → ∃ t, events.foldlM step s = some t ∧ inv t := by
  intro events
  induction events with
  | nil =>
    intro s holds
    exact ⟨s, rfl, holds⟩
  | cons e rest ih =>
    intro s holds
    obtain ⟨mid, stepped, midHolds⟩ := next s e holds
    obtain ⟨last, reached, lastHolds⟩ := ih mid midHolds
    refine ⟨last, ?_, lastHolds⟩
    rw [List.foldlM_cons, stepped]
    exact reached

theorem foldlM_keeps {step : σ → ε → Option σ} {rel : σ → σ → Prop} (refl : ∀ s, rel s s)
    (trans : ∀ {s t u}, rel s t → rel t u → rel s u) (events : List ε)
    (next : ∀ {s e t}, e ∈ events → step s e = some t → rel s t) :
    ∀ {s t : σ}, events.foldlM step s = some t → rel s t := by
  induction events with
  | nil =>
    intro s t ran
    obtain rfl := Option.some.inj ran
    exact refl s
  | cons e rest ih =>
    intro s t ran
    rw [List.foldlM_cons] at ran
    obtain ⟨mid, stepped, later⟩ := Option.bind_eq_some_iff.mp ran
    exact trans (next (by simp) stepped)
      (ih (fun member => next (List.mem_cons_of_mem e member)) later)

theorem foldlM_preserves {step : σ → ε → Option σ} (inv : σ → Prop) (events : List ε)
    (next : ∀ {s e t}, e ∈ events → inv s → step s e = some t → inv t) :
    ∀ {s t : σ}, inv s → events.foldlM step s = some t → inv t := by
  induction events with
  | nil =>
    intro s t holds ran
    obtain rfl := Option.some.inj ran
    exact holds
  | cons e rest ih =>
    intro s t holds ran
    rw [List.foldlM_cons] at ran
    obtain ⟨mid, stepped, later⟩ := Option.bind_eq_some_iff.mp ran
    exact ih (fun member => next (List.mem_cons_of_mem e member)) (next (by simp) holds stepped) later

/-- What every step that meets a condition preserves holds after every run whose steps all
    meet it. -/
theorem foldlM_along {step : σ → ε → Option σ} (inv : σ → Prop) (cond : σ → ε → Prop)
    (next : ∀ {s e t}, inv s → cond s e → step s e = some t → inv t) {s : σ} (start : inv s)
    (events : List ε) :
    ∀ {t : σ}, events.foldlM step s = some t →
      (∀ before e after u, events = before ++ e :: after → before.foldlM step s = some u →
        cond u e) → inv t := by
  induction events using List.reverseRecOn with
  | nil =>
    intro t ran _
    obtain rfl := Option.some.inj ran
    exact start
  | append_singleton past e ih =>
    intro t ran meets
    rw [List.foldlM_append] at ran
    obtain ⟨mid, reached, later⟩ := Option.bind_eq_some_iff.mp ran
    rw [List.foldlM_cons] at later
    obtain ⟨last, stepped, same⟩ := Option.bind_eq_some_iff.mp later
    obtain rfl := Option.some.inj same
    refine next (ih reached ?_) (meets past e [] mid rfl reached) stepped
    intro before b after u split
    exact meets before b (after ++ [e]) u (by simp [split])

theorem foldlM_checked {step : σ → ε → Option σ} {cond : σ → ε → Prop}
    [∀ s e, Decidable (cond s e)] {s : σ} {events : List ε}
    (checked : ∀ n < events.length, ((events.take n).foldlM step s).all
      (fun t => (events[n]?).all (fun e => decide (cond t e))) = true) :
    ∀ before e after t, events = before ++ e :: after → before.foldlM step s = some t → cond t e := by
  rintro before e after t rfl reached
  have here := checked before.length (by simp)
  rw [List.take_left, reached] at here
  simpa using here

/-- Every event reads and changes only what `view` shows of its own key, as the machine
    `own` of a single key does, and its outputs carry that key. -/
structure Local [DecidableEq κ] (step : σ → ε → σ × List ο) (key : ε → κ) (tag : ο → κ)
    (view : κ → σ → τ) (own : τ → ε → τ × List ο) : Prop where
  same : ∀ s e, view (key e) (step s e).1 = (own (view (key e) s) e).1
  other : ∀ s e k, k ≠ key e → view k (step s e).1 = view k s
  answers : ∀ s e, (step s e).2 = (own (view (key e) s) e).2
  tagged : ∀ s e o, o ∈ (step s e).2 → tag o = key e

section Projection
variable [DecidableEq κ] {step : σ → ε → σ × List ο} {key : ε → κ} {tag : ο → κ}
  {view : κ → σ → τ} {own : τ → ε → τ × List ο}

/-- One key's view and outputs after any run are those of its own events alone. -/
theorem run_projection (loc : Local step key tag view own) (k : κ) :
    ∀ events s,
      view k (run step s events).1 =
          (run own (view k s) (events.filter (fun e => key e = k))).1 ∧
        (run step s events).2.filter (fun o => tag o = k) =
          (run own (view k s) (events.filter (fun e => key e = k))).2 := by
  intro events
  induction events with
  | nil => intro s; simp
  | cons e rest ih =>
    intro s
    obtain ⟨stateEq, logEq⟩ := ih (step s e).1
    by_cases mine : key e = k
    · subst mine
      have kept : (step s e).2.filter (fun o => tag o = key e) = (step s e).2 := by
        rw [List.filter_eq_self]
        intro o member
        simpa using loc.tagged s e o member
      have taken : (e :: rest).filter (fun x => key x = key e) =
          e :: rest.filter (fun x => key x = key e) := by
        simp
      rw [loc.same] at stateEq logEq
      rw [taken, run_cons, run_cons, List.filter_append, kept, stateEq, logEq, loc.answers]
      exact ⟨rfl, rfl⟩
    · have dropped : (step s e).2.filter (fun o => tag o = k) = [] := by
        rw [List.filter_eq_nil_iff]
        intro o member
        rw [loc.tagged s e o member]
        simpa using mine
      have skipped : (e :: rest).filter (fun e => key e = k) =
          rest.filter (fun e => key e = k) := by
        rw [List.filter_cons_of_neg]
        simpa using mine
      rw [loc.other s e k (Ne.symm mine)] at stateEq logEq
      rw [skipped, run_cons, List.filter_append, dropped, List.nil_append]
      exact ⟨stateEq, logEq⟩

end Projection

end Trace
