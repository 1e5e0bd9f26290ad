import Mathlib.Data.List.Perm.Basic
import Mathlib.Logic.Function.Basic

/-!
An event loop that runs one handler at a time: a clock, timers with the handlers that wait
on them, operations that were started, and the handlers that are ready to run. Setting a
timer's expiry or cancelling it makes each handler that waits on it ready, as aborted; a
handler that is ready already is not recalled. Every started operation and every wait gives
exactly one handler.
-/
namespace EventLoop

/-- `none` is an expiry that never comes. -/
structure Timer where
  expiry : Option Int
  waiting : Nat

inductive Ready (τ ω α : Type) where
  | done (op : ω) (failed : Bool)
  | timer (t : τ) (aborted : Bool)
  | task (a : α)
  deriving DecidableEq

structure Loop (τ ω α : Type) where
  now : Int
  timers : τ → Timer
  pending : List ω
  queue : List (Ready τ ω α)

variable {τ ω α : Type}

def Ready.isTimer [DecidableEq τ] (t : τ) : Ready τ ω α → Bool
  | .timer u _ => u = t
  | _ => false

def Ready.isDone [DecidableEq ω] (op : ω) : Ready τ ω α → Bool
  | .done o _ => o = op
  | _ => false

def Ready.isTask [DecidableEq α] (a : α) : Ready τ ω α → Bool
  | .task b => b = a
  | _ => false

namespace Loop

def new (now : Int) : Loop τ ω α := ⟨now, fun _ => ⟨none, 0⟩, [], []⟩

def elapse (l : Loop τ ω α) (d : Nat) : Loop τ ω α := { l with now := l.now + d }

def start (l : Loop τ ω α) (op : ω) : Loop τ ω α := { l with pending := op :: l.pending }

def post (l : Loop τ ω α) (a : α) : Loop τ ω α := { l with queue := l.queue ++ [.task a] }

def complete [DecidableEq ω] (l : Loop τ ω α) (op : ω) (failed : Bool) : Option (Loop τ ω α) :=
  if op ∈ l.pending then
    some { l with pending := l.pending.erase op, queue := l.queue ++ [.done op failed] }
  else none

def wait [DecidableEq τ] (l : Loop τ ω α) (t : τ) : Loop τ ω α :=
  { l with timers :=
      Function.update l.timers t { l.timers t with waiting := (l.timers t).waiting + 1 } }

def release [DecidableEq τ] (l : Loop τ ω α) (t : τ) (aborted : Bool) (expiry : Option Int) :
    Loop τ ω α :=
  { l with
    timers := Function.update l.timers t ⟨expiry, 0⟩
    queue := l.queue ++ List.replicate (l.timers t).waiting (.timer t aborted) }

def expiresAt [DecidableEq τ] (l : Loop τ ω α) (t : τ) (expiry : Option Int) : Loop τ ω α :=
  l.release t true expiry

def expiresFromNow [DecidableEq τ] (l : Loop τ ω α) (t : τ) (timeout : Option Int) : Loop τ ω α :=
  l.expiresAt t (timeout.map (l.now + ·))

def cancel [DecidableEq τ] (l : Loop τ ω α) (t : τ) : Loop τ ω α :=
  l.release t true (l.timers t).expiry

def expired (l : Loop τ ω α) (t : τ) : Bool := (l.timers t).expiry.any (· ≤ l.now)

def fire [DecidableEq τ] (l : Loop τ ω α) (t : τ) : Option (Loop τ ω α) :=
  if l.expired t then some (l.release t false (l.timers t).expiry) else none

/-- The handler that runs next need not be the first that became ready. -/
def take (l : Loop τ ω α) (k : Nat) : Option (Ready τ ω α × Loop τ ω α) :=
  l.queue[k]?.map (fun h => (h, { l with queue := l.queue.eraseIdx k }))

theorem take_inv {l next : Loop τ ω α} {k : Nat} {h : Ready τ ω α} (taken : l.take k = some (h, next)) :
    next = { l with queue := next.queue } ∧ (h :: next.queue).Perm l.queue := by
  unfold take at taken
  obtain ⟨g, found, same⟩ := Option.map_eq_some_iff.mp taken
  obtain ⟨rfl, rfl⟩ := Prod.mk.inj same
  obtain ⟨inside, rfl⟩ := List.getElem?_eq_some_iff.mp found
  exact ⟨rfl, List.getElem_cons_eraseIdx_perm inside⟩

theorem take_of_mem {l : Loop τ ω α} {h : Ready τ ω α} (ready : h ∈ l.queue) :
    ∃ k next, l.take k = some (h, next) := by
  obtain ⟨k, found⟩ := List.mem_iff_getElem?.mp ready
  exact ⟨k, { l with queue := l.queue.eraseIdx k }, by simp [take, found]⟩

/-- A handler of the timer will run that is not aborted, unless it is cancelled first: it is
    ready, or waits for an expiry that comes. -/
def Live (l : Loop τ ω α) (t : τ) : Prop :=
  0 < (l.timers t).waiting ∧ (l.timers t).expiry.isSome = true ∨ .timer t false ∈ l.queue

theorem Live.take {l next : Loop τ ω α} {t : τ} {k : Nat} {h : Ready τ ω α} (live : l.Live t)
    (taken : l.take k = some (h, next)) (other : h ≠ .timer t false) : next.Live t := by
  obtain ⟨same, perm⟩ := take_inv taken
  rcases live with waits | ready
  · left
    rw [same]
    exact waits
  · right
    rcases List.mem_cons.mp (perm.mem_iff.mpr ready) with first | later
    · exact absurd first.symm other
    · exact later

section Timers
variable [DecidableEq τ] (l : Loop τ ω α)

def outstanding (l : Loop τ ω α) (t : τ) : Nat :=
  (l.timers t).waiting + l.queue.countP (Ready.isTimer t)

@[simp] theorem outstanding_new (now : Int) (t : τ) :
    (new now : Loop τ ω α).outstanding t = 0 := rfl

@[simp] theorem outstanding_elapse (d : Nat) (t : τ) : (l.elapse d).outstanding t = l.outstanding t :=
  rfl

@[simp] theorem outstanding_start (op : ω) (t : τ) : (l.start op).outstanding t = l.outstanding t :=
  rfl

@[simp] theorem outstanding_post (a : α) (t : τ) : (l.post a).outstanding t = l.outstanding t := by
  simp [outstanding, post, Ready.isTimer]

@[simp] theorem outstanding_wait (t u : τ) :
    (l.wait t).outstanding u = l.outstanding u + if t = u then 1 else 0 := by
  by_cases same : u = t
  · subst same
    simp [outstanding, wait]
    omega
  · simp [outstanding, wait, same, Ne.symm same]

@[simp] theorem outstanding_release (t u : τ) (aborted : Bool) (expiry : Option Int) :
    (l.release t aborted expiry).outstanding u = l.outstanding u := by
  by_cases same : u = t
  · subst same
    simp [outstanding, release, List.countP_replicate, Ready.isTimer]
    omega
  · simp [outstanding, release, List.countP_replicate, Ready.isTimer, same, Ne.symm same]

@[simp] theorem outstanding_expiresAt (t u : τ) (expiry : Option Int) :
    (l.expiresAt t expiry).outstanding u = l.outstanding u :=
  l.outstanding_release t u true expiry

@[simp] theorem outstanding_expiresFromNow (t u : τ) (timeout : Option Int) :
    (l.expiresFromNow t timeout).outstanding u = l.outstanding u :=
  l.outstanding_expiresAt t u _

@[simp] theorem outstanding_cancel (t u : τ) : (l.cancel t).outstanding u = l.outstanding u :=
  l.outstanding_release t u true _

theorem outstanding_fire {l next : Loop τ ω α} {t : τ} (fired : l.fire t = some next) (u : τ) :
    next.outstanding u = l.outstanding u := by
  unfold fire at fired
  split at fired
  · obtain rfl := Option.some.inj fired
    exact l.outstanding_release t u false _
  · contradiction

theorem outstanding_take {l next : Loop τ ω α} {k : Nat} {h : Ready τ ω α}
    (taken : l.take k = some (h, next)) (t : τ) :
    l.outstanding t = next.outstanding t + if h.isTimer t then 1 else 0 := by
  obtain ⟨same, perm⟩ := take_inv taken
  have counts := perm.countP_eq (Ready.isTimer t)
  have timers : next.timers = l.timers := by rw [same]
  rw [List.countP_cons] at counts
  unfold outstanding
  rw [← counts, timers]
  omega

@[simp] theorem waiting_release (t : τ) (aborted : Bool) (expiry : Option Int) :
    ((l.release t aborted expiry).timers t).waiting = 0 := by
  simp [release]

@[simp] theorem waiting_expiresAt (t : τ) (expiry : Option Int) :
    ((l.expiresAt t expiry).timers t).waiting = 0 :=
  l.waiting_release t true expiry

@[simp] theorem waiting_expiresFromNow (t : τ) (timeout : Option Int) :
    ((l.expiresFromNow t timeout).timers t).waiting = 0 :=
  l.waiting_release t true _

@[simp] theorem waiting_cancel (t : τ) : ((l.cancel t).timers t).waiting = 0 :=
  l.waiting_release t true _

theorem waiting_fire {l next : Loop τ ω α} {t : τ} (fired : l.fire t = some next) :
    (next.timers t).waiting = 0 := by
  unfold fire at fired
  split at fired
  · obtain rfl := Option.some.inj fired
    exact l.waiting_release t false _
  · contradiction

theorem last_take {l next : Loop τ ω α} {k : Nat} {h : Ready τ ω α} {t : τ}
    (taken : l.take k = some (h, next)) (mine : h.isTimer t = true) (single : l.outstanding t ≤ 1) :
    next.outstanding t = 0 := by
  have count := outstanding_take taken t
  rw [if_pos mine] at count
  omega

theorem live_restart (t : τ) (d : Int) : ((l.expiresFromNow t (some d)).wait t).Live t := by
  left
  simp [wait, expiresFromNow, expiresAt, release]

theorem Live.release {l : Loop τ ω α} {t u : τ} {aborted : Bool} (live : l.Live t)
    (expiry : Option Int) (keeps : u ≠ t ∨ aborted = false) :
    (l.release u aborted expiry).Live t := by
  rcases live with waits | ready
  · by_cases same : u = t
    · subst same
      have fired : aborted = false := keeps.resolve_left (by simp)
      right
      simp only [Loop.release, List.mem_append, List.mem_replicate, fired]
      exact .inr ⟨by omega, trivial⟩
    · left
      simpa [Loop.release, Ne.symm same] using waits
  · right
    exact List.mem_append_left _ ready

theorem Live.fire {l next : Loop τ ω α} {t u : τ} (live : l.Live t) (fired : l.fire u = some next) :
    next.Live t := by
  unfold Loop.fire at fired
  split at fired
  · obtain rfl := Option.some.inj fired
    exact live.release _ (.inr rfl)
  · contradiction

end Timers

section Operations
variable [DecidableEq ω] (l : Loop τ ω α)

def inflight (l : Loop τ ω α) (op : ω) : Nat :=
  l.pending.count op + l.queue.countP (Ready.isDone op)

@[simp] theorem inflight_new (now : Int) (op : ω) :
    (new now : Loop τ ω α).inflight op = 0 := rfl

@[simp] theorem inflight_elapse (d : Nat) (op : ω) : (l.elapse d).inflight op = l.inflight op := rfl

@[simp] theorem inflight_start (op o : ω) :
    (l.start op).inflight o = l.inflight o + if op = o then 1 else 0 := by
  by_cases same : op = o
  · subst same
    simp [inflight, start]
    omega
  · simp [inflight, start, same]

@[simp] theorem inflight_post (a : α) (op : ω) : (l.post a).inflight op = l.inflight op := by
  simp [inflight, post, Ready.isDone]

theorem inflight_complete {l next : Loop τ ω α} {op : ω} {failed : Bool}
    (completed : l.complete op failed = some next) (o : ω) : next.inflight o = l.inflight o := by
  unfold complete at completed
  split at completed
  · rename_i started
    obtain rfl := Option.some.inj completed
    by_cases same : op = o
    · subst same
      have positive : 0 < l.pending.count op := List.count_pos_iff.mpr started
      simp [inflight, Ready.isDone]
      omega
    · simp [inflight, Ready.isDone, same, List.count_erase_of_ne (Ne.symm same)]
  · contradiction

theorem complete_timers {l next : Loop τ ω α} {op : ω} {failed : Bool}
    (completed : l.complete op failed = some next) : next.timers = l.timers := by
  unfold complete at completed
  split at completed
  · obtain rfl := Option.some.inj completed
    rfl
  · contradiction

theorem inflight_take {l next : Loop τ ω α} {k : Nat} {h : Ready τ ω α}
    (taken : l.take k = some (h, next)) (op : ω) :
    l.inflight op = next.inflight op + if h.isDone op then 1 else 0 := by
  obtain ⟨same, perm⟩ := take_inv taken
  have counts := perm.countP_eq (Ready.isDone op)
  have pending : next.pending = l.pending := by rw [same]
  rw [List.countP_cons] at counts
  unfold inflight
  rw [← counts, pending]
  omega

theorem Live.complete {l next : Loop τ ω α} {t : τ} {op : ω} {failed : Bool} (live : l.Live t)
    (completed : l.complete op failed = some next) : next.Live t := by
  unfold Loop.complete at completed
  split at completed
  · obtain rfl := Option.some.inj completed
    exact live.imp id (List.mem_append_left _)
  · contradiction

variable [DecidableEq τ]

@[simp] theorem inflight_wait (t : τ) (op : ω) : (l.wait t).inflight op = l.inflight op := rfl

@[simp] theorem inflight_release (t : τ) (aborted : Bool) (expiry : Option Int) (op : ω) :
    (l.release t aborted expiry).inflight op = l.inflight op := by
  simp [inflight, release, List.countP_replicate, Ready.isDone]

@[simp] theorem inflight_expiresAt (t : τ) (expiry : Option Int) (op : ω) :
    (l.expiresAt t expiry).inflight op = l.inflight op :=
  l.inflight_release t true expiry op

@[simp] theorem inflight_expiresFromNow (t : τ) (timeout : Option Int) (op : ω) :
    (l.expiresFromNow t timeout).inflight op = l.inflight op :=
  l.inflight_expiresAt t _ op

@[simp] theorem inflight_cancel (t : τ) (op : ω) : (l.cancel t).inflight op = l.inflight op :=
  l.inflight_release t true _ op

theorem inflight_fire {l next : Loop τ ω α} {t : τ} (fired : l.fire t = some next) (op : ω) :
    next.inflight op = l.inflight op := by
  unfold fire at fired
  split at fired
  · obtain rfl := Option.some.inj fired
    exact l.inflight_release t false _ op
  · contradiction

theorem outstanding_complete {l next : Loop τ ω α} {op : ω} {failed : Bool}
    (completed : l.complete op failed = some next) (t : τ) :
    next.outstanding t = l.outstanding t := by
  unfold complete at completed
  split at completed
  · obtain rfl := Option.some.inj completed
    simp [outstanding, Ready.isTimer]
  · contradiction

end Operations

section Tasks
variable [DecidableEq α] (l : Loop τ ω α)

def posted (l : Loop τ ω α) (a : α) : Nat := l.queue.countP (Ready.isTask a)

@[simp] theorem posted_new (now : Int) (a : α) : (new now : Loop τ ω α).posted a = 0 := rfl

@[simp] theorem posted_elapse (d : Nat) (a : α) : (l.elapse d).posted a = l.posted a := rfl

@[simp] theorem posted_start (op : ω) (a : α) : (l.start op).posted a = l.posted a := rfl

@[simp] theorem posted_post (a b : α) :
    (l.post a).posted b = l.posted b + if a = b then 1 else 0 := by
  by_cases same : a = b <;> simp [posted, post, Ready.isTask, same]

theorem posted_complete [DecidableEq ω] {l next : Loop τ ω α} {op : ω} {failed : Bool}
    (completed : l.complete op failed = some next) (a : α) : next.posted a = l.posted a := by
  unfold complete at completed
  split at completed
  · obtain rfl := Option.some.inj completed
    simp [posted, Ready.isTask]
  · contradiction

theorem posted_take {l next : Loop τ ω α} {k : Nat} {h : Ready τ ω α}
    (taken : l.take k = some (h, next)) (a : α) :
    l.posted a = next.posted a + if h.isTask a then 1 else 0 := by
  obtain ⟨_, perm⟩ := take_inv taken
  rw [posted, ← perm.countP_eq (Ready.isTask a), List.countP_cons]
  rfl

variable [DecidableEq τ]

@[simp] theorem posted_wait (t : τ) (a : α) : (l.wait t).posted a = l.posted a := rfl

@[simp] theorem posted_release (t : τ) (aborted : Bool) (expiry : Option Int) (a : α) :
    (l.release t aborted expiry).posted a = l.posted a := by
  simp [posted, release, List.countP_replicate, Ready.isTask]

@[simp] theorem posted_expiresAt (t : τ) (expiry : Option Int) (a : α) :
    (l.expiresAt t expiry).posted a = l.posted a :=
  l.posted_release t true expiry a

@[simp] theorem posted_expiresFromNow (t : τ) (timeout : Option Int) (a : α) :
    (l.expiresFromNow t timeout).posted a = l.posted a :=
  l.posted_expiresAt t _ a

@[simp] theorem posted_cancel (t : τ) (a : α) : (l.cancel t).posted a = l.posted a :=
  l.posted_release t true _ a

theorem posted_fire {l next : Loop τ ω α} {t : τ} (fired : l.fire t = some next) (a : α) :
    next.posted a = l.posted a := by
  unfold fire at fired
  split at fired
  · obtain rfl := Option.some.inj fired
    exact l.posted_release t false _ a
  · contradiction

end Tasks

end Loop

end EventLoop
