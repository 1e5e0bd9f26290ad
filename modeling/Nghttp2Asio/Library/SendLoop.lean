import Nghttp2Asio.Library.SendBuffer
import Nghttp2Asio.Library.Trace

/-!
The loop that moves what a source has to send into a buffer, seen from outside the bytes:
how full the buffer is, what is held back, and whether the source has anything to send.
Each time the source is asked, things may happen inside that change the state around the
buffer, before it answers.
-/
namespace SendLoop
open SendBuffer

variable {β σ ι : Type} {cap : Nat}

structure Outbuf (β : Type) (cap : Nat) where
  sendable : Bool
  len : Nat
  held : Option (Chunk β cap)

inductive Taken (β : Type) (cap : Nat) where
  | failed
  | done (b : Outbuf β cap)
  | more (b : Outbuf β cap)

namespace Outbuf

def empty : Outbuf β cap := ⟨false, 0, none⟩

def refill (b : Outbuf β cap) : Outbuf β cap :=
  { b with len := b.len + (heldBytes b.held).length, held := none }

/-- A source that says it has nothing has nothing to send; `left` tells whether it still
    has something after it gave a chunk. -/
def take (b : Outbuf β cap) (left : Bool) : Send β cap → Option (Taken β cap)
  | .failure => some .failed
  | .nothing => if b.sendable then none else some (.done b)
  | .chunk c =>
    let b := { b with sendable := b.sendable && left }
    if b.len + c.data.length > cap then some (.done { b with held := some c })
    else some (.more { b with len := b.len + c.data.length })

end Outbuf

/-- One call of the source: what happens inside, and its answer. -/
structure Asked (ι β : Type) (cap : Nat) where
  inner : List ι
  answer : Send β cap
  left : Bool

/-- The loop has no result when it asks more often than there are answers. The first part
    of a result tells that the source has failed. -/
def loop (step : σ → ι → Option σ) (out : σ → Outbuf β cap) (put : σ → Outbuf β cap → σ) :
    List (Asked ι β cap) → σ → Option (Bool × σ)
  | [], _ => none
  | a :: rest, s => do
    let s ← a.inner.foldlM step s
    match ← (out s).take a.left a.answer with
    | .failed => some (true, s)
    | .done b => some (false, put s b)
    | .more b => loop step out put rest (put s b)

section Rules
variable {step : σ → ι → Option σ} {out : σ → Outbuf β cap} {put : σ → Outbuf β cap → σ}

theorem loop_keeps (rel : σ → σ → Prop) (refl : ∀ s, rel s s)
    (trans : ∀ {s t u}, rel s t → rel t u → rel s u) (copies : ∀ s b, rel s (put s b))
    (asked : List (Asked ι β cap))
    (inner : ∀ {a s i t}, a ∈ asked → i ∈ a.inner → step s i = some t → rel s t) :
    ∀ {s t : σ} {failed : Bool}, loop step out put asked s = some (failed, t) → rel s t := by
  induction asked with
  | nil =>
    intro s t failed done
    contradiction
  | cons a rest ih =>
    intro s t failed done
    rw [loop] at done
    obtain ⟨mid, inside, done⟩ := Option.bind_eq_some_iff.mp done
    obtain ⟨taken, answered, done⟩ := Option.bind_eq_some_iff.mp done
    have start : rel s mid := Trace.foldlM_keeps refl trans a.inner (inner (by simp)) inside
    cases taken with
    | failed =>
      obtain ⟨rfl, rfl⟩ := Prod.mk.inj (Option.some.inj done)
      exact start
    | done b =>
      obtain ⟨rfl, rfl⟩ := Prod.mk.inj (Option.some.inj done)
      exact trans start (copies mid b)
    | more b =>
      exact trans (trans start (copies mid b))
        (ih (fun member => inner (List.mem_cons_of_mem a member)) done)

theorem loop_preserves (inv : σ → Prop) (copies : ∀ s b, inv s → inv (put s b))
    (asked : List (Asked ι β cap))
    (inner : ∀ {a s i t}, a ∈ asked → i ∈ a.inner → inv s → step s i = some t → inv t)
    {s t : σ} {failed : Bool} (holds : inv s)
    (done : loop step out put asked s = some (failed, t)) : inv t := by
  have trans {u v w : σ} (first : inv u → inv v) (second : inv v → inv w) : inv u → inv w :=
    second ∘ first
  exact loop_keeps (fun u v => inv u → inv v) (fun _ => id) trans copies asked
    (fun among member stepped holds => inner among member holds stepped) done holds

/-- A loop that did not fail leaves nothing to send, or something in the buffer. -/
theorem loop_flushes (same : ∀ s b, out (put s b) = b) :
    ∀ (asked : List (Asked ι β cap)) {s t : σ}, loop step out put asked s = some (false, t) →
      (out t).sendable = false ∨ 0 < (out t).len := by
  intro asked
  induction asked with
  | nil =>
    intro s t done
    contradiction
  | cons a rest ih =>
    intro s t done
    rw [loop] at done
    obtain ⟨mid, _, done⟩ := Option.bind_eq_some_iff.mp done
    obtain ⟨taken, answered, done⟩ := Option.bind_eq_some_iff.mp done
    cases taken with
    | failed => simp at done
    | more b => exact ih done
    | done b =>
      obtain ⟨_, rfl⟩ := Prod.mk.inj (Option.some.inj done)
      rw [same]
      cases answer : a.answer with
      | failure => simp [Outbuf.take, answer] at answered
      | nothing =>
        simp only [Outbuf.take, answer] at answered
        split at answered
        · contradiction
        · obtain rfl := Taken.done.inj (Option.some.inj answered)
          left
          simp_all
      | chunk c =>
        have fits := c.fits
        simp only [Outbuf.take, answer] at answered
        split at answered
        · rename_i full
          obtain rfl := Taken.done.inj (Option.some.inj answered)
          right
          simp only
          omega
        · simp at answered

theorem loop_failed (asked : List (Asked ι β cap)) {s t : σ}
    (done : loop step out put asked s = some (true, t)) : ∃ a ∈ asked, a.answer = .failure := by
  induction asked generalizing s with
  | nil => contradiction
  | cons a rest ih =>
    rw [loop] at done
    obtain ⟨mid, _, done⟩ := Option.bind_eq_some_iff.mp done
    obtain ⟨taken, answered, done⟩ := Option.bind_eq_some_iff.mp done
    cases taken with
    | failed =>
      refine ⟨a, by simp, ?_⟩
      cases answer : a.answer with
      | failure => rfl
      | nothing => simp [Outbuf.take, answer] at answered
      | chunk c =>
        simp only [Outbuf.take, answer] at answered
        split at answered <;> simp at answered
    | done b => simp at done
    | more b =>
      obtain ⟨b, member, failure⟩ := ih done
      exact ⟨b, List.mem_cons_of_mem a member, failure⟩

section Level
variable (same : ∀ s b, out (put s b) = b)
  (keeps : ∀ {s i t}, step s i = some t → (out t).len = (out s).len)
include same keeps

theorem loop_level (asked : List (Asked ι β cap)) {s t : σ} {failed : Bool}
    (done : loop step out put asked s = some (failed, t)) : (out s).len ≤ (out t).len ∧
      (failed = false → (out t).len = 0 → ∃ a rest, asked = a :: rest ∧ a.answer = .nothing) := by
  induction asked generalizing s with
  | nil => contradiction
  | cons a rest ih =>
    rw [loop] at done
    obtain ⟨mid, inside, done⟩ := Option.bind_eq_some_iff.mp done
    obtain ⟨taken, answered, done⟩ := Option.bind_eq_some_iff.mp done
    have inner : (out mid).len = (out s).len := by
      refine Trace.foldlM_preserves (fun u => (out u).len = (out s).len) a.inner ?_ rfl inside
      intro u i v _ level stepped
      exact (keeps stepped).trans level
    cases answer : a.answer with
    | failure =>
      obtain rfl : Taken.failed = taken := by simpa [Outbuf.take, answer] using answered
      obtain ⟨rfl, rfl⟩ := Prod.mk.inj (Option.some.inj done)
      exact ⟨by omega, nofun⟩
    | nothing =>
      simp only [Outbuf.take, answer] at answered
      split at answered
      · contradiction
      · obtain rfl := Option.some.inj answered
        obtain ⟨rfl, rfl⟩ := Prod.mk.inj (Option.some.inj done)
        rw [same]
        exact ⟨by omega, fun _ _ => ⟨a, rest, rfl, answer⟩⟩
    | chunk c =>
      have some_bytes := chunk_pos c
      have fits := c.fits
      simp only [Outbuf.take, answer] at answered
      split at answered
      · obtain rfl := Option.some.inj answered
        obtain ⟨rfl, rfl⟩ := Prod.mk.inj (Option.some.inj done)
        rw [same]
        simp only
        exact ⟨by omega, fun _ => by omega⟩
      · obtain rfl := Option.some.inj answered
        have level := (ih done).1
        rw [same] at level
        simp only at level
        exact ⟨by omega, fun _ => by omega⟩

end Level

end Rules

end SendLoop
