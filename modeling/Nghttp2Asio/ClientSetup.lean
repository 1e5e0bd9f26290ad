import Nghttp2Asio.ClientSupervision

/-!
A client session before it has an nghttp2 session. `session_` is made in `connected`, while
the public calls only look at `stopped_`: what keeps them from a null session is that the
application does not make them.
-/
namespace Nghttp2Asio.Client
open EventLoop Util

/-- A call that gets as far as nghttp2 on any session that is not stopped. -/
def Call.reaches : Call → Bool
  | .submit _ uri _ _ _ => (Lifecycle.submitUrl uri).isSome
  | .shutdown _ => true
  | _ => false

namespace Lifecycle

def Action.calls : Action → List Call
  | .call c _ => [c]
  | .run _ a => a.onError.map Prod.fst
  | _ => []

/-- Without a session the application makes no call that gets as far as nghttp2. -/
def Prepared (s : Lifecycle) (act : Action) : Prop :=
  s.session = true ∨ s.stopped = true ∨ ∀ c ∈ act.calls, c.reaches = false

instance (s : Lifecycle) (act : Action) : Decidable (Prepared s act) :=
  inferInstanceAs (Decidable (_ ∨ _ ∨ _))

def Clean (s : Lifecycle) : Prop := ∀ n ∈ s.log, n.2 ≠ .noSession

structure Closed (s : Lifecycle) : Prop where
  session : s.session = false
  reads : s.io.inflight .read = 0
  writes : s.io.inflight .write = 0
  pings : s.io.outstanding .ping = 0
  known : s.known = []
  clean : s.Clean

section Closed
variable {env : Env} {a : Answers} {s t : Lifecycle}

theorem Closed.emit (closed : Closed s) (n : Notice) (other : n ≠ .noSession) :
    Closed (s.emit n) :=
  { closed with
    clean := by
      intro m member
      rcases List.mem_append.mp member with old | young
      · exact closed.clean m old
      · exact List.mem_singleton.mp young ▸ other }

theorem Closed.stop (closed : Closed s) : Closed s.stop := by
  unfold Lifecycle.stop
  split
  · exact closed
  · exact ⟨closed.session, by simp [closed.reads], by simp [closed.writes], by simp [closed.pings],
      closed.known, closed.clean⟩

theorem Closed.start (closed : Closed s) {op : Operation} (read : op ≠ .read) (write : op ≠ .write) :
    Closed (s.start op) :=
  { closed.emit (.started op) (by simp) with
    reads := by simp [Lifecycle.start, read, closed.reads]
    writes := by simp [Lifecycle.start, write, closed.writes]
    pings := by simp [Lifecycle.start, closed.pings] }

def turnedAway (s : Lifecycle) : ErrorCode :=
  if s.stopped then .nghttp2 internalError.toNat else .invalidArgument

theorem submit_turned {inetPton : InetPton} {signal : Lifecycle → Option Lifecycle}
    (method : Bytes) {uri : Bytes} (h : HeaderMap) (answer : Int) (sendable : Bool)
    (turned : s.stopped = true ∨ (Call.submit method uri h answer sendable).reaches = false) :
    s.call inetPton signal (.submit method uri h answer sendable) =
      some (s.emit (.submitted (.error s.turnedAway))) := by
  simp only [Lifecycle.call, submit, turnedAway]
  split
  · rfl
  rename_i running
  have refused := turned.resolve_left running
  split
  · rfl
  · rename_i accepted
    simp [Call.reaches, accepted] at refused

theorem Closed.call {signal : Lifecycle → Option Lifecycle} {c : Call} (closed : Closed s)
    (turned : s.stopped = true ∨ c.reaches = false)
    (made : s.call env.inetPton signal c = some t) :
    t = s ∨ t = s.emit (.submitted (.error s.turnedAway)) := by
  cases c with
  | submit method uri h answer sendable =>
    rw [submit_turned method h answer sendable turned] at made
    exact .inr (Option.some.inj made).symm
  | shutdown sendable =>
    simp only [Lifecycle.call] at made
    split at made
    · exact .inl (Option.some.inj made).symm
    rename_i running
    have refused := turned.resolve_left running
    simp [Call.reaches] at refused
  | cancel id sendable | resume id sendable | writeTrailer id answer sendable =>
    simp [Lifecycle.call, closed.known] at made

theorem Closed.callErrorCb {calls : List (Call × Flush)} (closed : Closed s)
    (turned : s.stopped = true ∨ ∀ c ∈ calls.map Prod.fst, c.reaches = false)
    (made : s.callErrorCb (react env calls) = some t) : Closed t := by
  unfold Lifecycle.callErrorCb at made
  split_ifs at made with stopped
  · obtain rfl := Option.some.inj made
    exact closed
  · obtain rfl := Option.some.inj made
    exact closed
  · have refused := turned.resolve_left stopped
    refine Trace.foldlM_preserves Closed calls ?_ (closed.emit .error (by simp)) made
    intro u c v member closed called
    rcases closed.call (.inr (refused c.1 (List.mem_map_of_mem member))) called with rfl | rfl
    · exact closed
    · exact closed.emit _ (by simp)

theorem Closed.notConnected (closed : Closed s)
    (turned : s.stopped = true ∨ ∀ c ∈ a.onError.map Prod.fst, c.reaches = false)
    (made : s.notConnected env a = some t) : Closed t := by
  obtain ⟨u, told, rfl⟩ := Option.map_eq_some_iff.mp made
  exact (closed.callErrorCb turned told).stop

theorem Sound.proper {opened : Bool} (sound : Sound opened s) (clean : s.Clean) :
    ∀ n ∈ s.log, Proper true n := by
  rintro ⟨b, n⟩ member
  have proper := sound.log _ member
  have used := clean _ member
  cases n with
  | noSession => exact absurd rfl used
  | waits t => cases t <;> cases b <;> exact proper
  | ping idle => cases idle <;> cases b <;> exact proper
  | connect | error | started | assertion | submitted => cases b <;> exact proper

theorem Sound.clean (sound : Sound true s) : s.Clean := by
  rintro ⟨b, n⟩ member rfl
  have proper := sound.log _ member
  cases b <;> simp [Proper] at proper

def Guarded (s : Lifecycle) : Prop := Sound false s ∧ s.Clean ∧ (s.session = false → Closed s)

theorem Closed.guard (closed : Closed s) : s.Clean ∧ (s.session = false → Closed s) :=
  ⟨closed.clean, fun _ => closed⟩

theorem Closed.take {k : Nat} {h : Ready Clock Operation Empty} {io : Loop Clock Operation Empty}
    (closed : Closed s) (taken : s.io.take k = some (h, io)) : Closed { s with io := io } ∧
      h.isDone .read = false ∧ h.isDone .write = false ∧ h.isTimer .ping = false := by
  have reads := Loop.inflight_take taken .read
  have writes := Loop.inflight_take taken .write
  have pings := Loop.outstanding_take taken .ping
  rw [closed.reads] at reads
  rw [closed.writes] at writes
  rw [closed.pings] at pings
  refine ⟨{ closed with reads := ?_, writes := ?_, pings := ?_ }, ?_, ?_, ?_⟩
  · show io.inflight .read = 0
    omega
  · show io.inflight .write = 0
    omega
  · show io.outstanding .ping = 0
    omega
  · exact Bool.eq_false_of_not_eq_true (fun done => by simp [done] at reads)
  · exact Bool.eq_false_of_not_eq_true (fun done => by simp [done] at writes)
  · exact Bool.eq_false_of_not_eq_true (fun fired => by simp [fired] at pings)

theorem Closed.connected (closed : Closed s) (sound : Sound false s)
    (turned : s.stopped = true ∨ ∀ c ∈ a.onError.map Prod.fst, c.reaches = false)
    (made : s.connected env a = some t) : t.Clean ∧ (t.session = false → Closed t) := by
  cases setup : a.setup with
  | true =>
    have opened := sound.setUp (sound.proper closed.clean) setup made
    refine ⟨opened.clean, fun missing => ?_⟩
    rw [opened.session rfl] at missing
    contradiction
  | false =>
    unfold Lifecycle.connected at made
    simp only [setup, Bool.not_false, ↓reduceIte] at made
    exact (closed.callErrorCb turned made).guard

theorem Closed.handleDeadline (closed : Closed s)
    (turned : s.stopped = true ∨ ∀ c ∈ a.onError.map Prod.fst, c.reaches = false)
    (made : s.handleDeadline env a = some t) : Closed t := by
  unfold Lifecycle.handleDeadline at made
  split at made
  · obtain rfl := Option.some.inj made
    exact closed
  split at made
  · obtain ⟨u, told, made⟩ := Option.bind_eq_some_iff.mp made
    obtain rfl := Option.some.inj made
    have ended := (closed.callErrorCb turned told).stop
    exact ⟨ended.session, by simpa using ended.reads, by simpa using ended.writes,
      by simpa using ended.pings, ended.known, ended.clean⟩
  · obtain rfl := Option.some.inj made
    have told := closed.emit (.waits .deadline) (by simp)
    exact ⟨closed.session, by simp [wait, closed.reads], by simp [wait, closed.writes],
      by simp [wait, closed.pings], closed.known, told.clean⟩

theorem Closed.run {k : Nat} (closed : Closed s) (sound : Sound false s)
    (turned : s.stopped = true ∨ ∀ c ∈ a.onError.map Prod.fst, c.reaches = false)
    (made : s.step env (.run k a) = some t) : t.Clean ∧ (t.session = false → Closed t) := by
  obtain ⟨⟨h, io⟩, taken, made⟩ := Option.bind_eq_some_iff.mp made
  obtain ⟨closed, read, write, ping⟩ := closed.take taken
  cases h with
  | done op failed =>
    have sound : Sound false { s with io := io } := sound.rest taken rfl write (by simp)
    cases op with
    | resolve =>
      simp only [handle] at made
      split at made
      · exact (closed.notConnected turned made).guard
      · obtain rfl := Option.some.inj made
        exact (closed.start (by simp) (by simp)).guard
    | connect =>
      simp only [handle] at made
      split_ifs at made
      · obtain rfl := Option.some.inj made
        exact closed.guard
      · exact (closed.notConnected turned made).guard
      · obtain rfl := Option.some.inj made
        exact (closed.start (by simp) (by simp)).guard
      · exact closed.connected sound turned made
    | handshake =>
      simp only [handle] at made
      split_ifs at made
      · obtain rfl := Option.some.inj made
        exact closed.guard
      · exact (closed.notConnected turned made).guard
      · exact (closed.notConnected turned made).guard
      · exact closed.connected sound turned made
    | read => simp [Ready.isDone] at read
    | write => simp [Ready.isDone] at write
  | timer clock aborted =>
    cases clock with
    | deadline => exact (closed.handleDeadline turned made).guard
    | ping => simp [Ready.isTimer] at ping
  | task none => exact none.elim

theorem Guarded.step {act : Action} (guarded : Guarded s) (prepared : Prepared s act)
    (made : s.step env act = some t) : Guarded t := by
  obtain ⟨sound, clean, closed⟩ := guarded
  refine ⟨sound.step made, ?_⟩
  cases opened : s.session with
  | true =>
    have strict : Sound true s :=
      { sound with log := sound.proper clean, session := fun _ => opened }
    have next := strict.step made
    refine ⟨next.clean, fun missing => ?_⟩
    rw [next.session rfl] at missing
    contradiction
  | false =>
    have closed := closed opened
    have turned := prepared.resolve_left (by simp [opened])
    cases act with
    | elapse d =>
      obtain rfl := Option.some.inj made
      exact Closed.guard { closed with }
    | complete op failed =>
      obtain ⟨io, completed, rfl⟩ := Option.map_eq_some_iff.mp made
      exact Closed.guard { closed with
        reads := (Loop.inflight_complete completed .read).trans closed.reads
        writes := (Loop.inflight_complete completed .write).trans closed.writes
        pings := (Loop.outstanding_complete completed .ping).trans closed.pings }
    | fire clock =>
      obtain ⟨io, fired, rfl⟩ := Option.map_eq_some_iff.mp made
      exact Closed.guard { closed with
        reads := (Loop.inflight_fire fired .read).trans closed.reads
        writes := (Loop.inflight_fire fired .write).trans closed.writes
        pings := (Loop.outstanding_fire fired .ping).trans closed.pings }
    | run k a => exact closed.run sound turned made
    | call c f =>
      have turned : s.stopped = true ∨ c.reaches = false := by simpa [Action.calls] using turned
      rcases closed.call turned made with rfl | rfl
      · exact closed.guard
      · exact (closed.emit _ (by simp)).guard
    | setCallbacks connectCb errorCb =>
      obtain rfl := Option.some.inj made
      exact Closed.guard { closed with }
    | setReadTimeout timeout =>
      obtain rfl := Option.some.inj made
      exact Closed.guard { closed with }

end Closed

theorem closed_started (tls : Bool) (now : Int) (connectTimeout : Option Int) :
    Closed (started tls now connectTimeout) where
  session := rfl
  reads := by simp [started, startResolve, wait, start, new]
  writes := by simp [started, startResolve, wait, start, new]
  pings := by simp [started, startResolve, wait, start, new]
  known := rfl
  clean := by simp [Clean, started, startResolve, wait, start, new, emit]

/-- In a run in which every call that gets as far as nghttp2 is made with a session, or on a
    session that has stopped, no nghttp2 function is given a null session; and such a
    `submit` without a session returns no request but an error, and changes nothing. -/
theorem session_never_missing {env : Env} {tls : Bool} {now : Int} {connectTimeout : Option Int}
    {actions : List Action}
    (prepared : ∀ before a after s, actions = before ++ a :: after →
      (started tls now connectTimeout).run env before = some s → Prepared s a) :
    ∀ before after s, actions = before ++ after →
      (started tls now connectTimeout).run env before = some s →
        s.Clean ∧ (s.session = false → ∀ method uri h answer sendable f t,
          Prepared s (.call (.submit method uri h answer sendable) f) →
            s.step env (.call (.submit method uri h answer sendable) f) = some t →
              t = s.emit (.submitted (.error s.turnedAway))) := by
  intro before after s split reached
  have guarded : Guarded s := by
    have closed := closed_started tls now connectTimeout
    refine Trace.foldlM_along Guarded Prepared Guarded.step
      ⟨sound_started tls now connectTimeout, closed.clean, fun _ => closed⟩ before reached ?_
    intro early a late u inner ran
    exact prepared early a (late ++ after) u (by simp [split, inner]) ran
  refine ⟨guarded.2.1, ?_⟩
  intro missing method uri h answer sendable f t ready made
  have turned := ready.resolve_left (by simp [missing])
  have turned : s.stopped = true ∨ (Call.submit method uri h answer sendable).reaches = false := by
    simpa [Action.calls] using turned
  have refused : s.call env.inetPton (signalWrite env f)
      (.submit method uri h answer sendable) = some (s.emit (.submitted (.error s.turnedAway))) :=
    submit_turned method h answer sendable turned
  exact (Option.some.inj (refused.symm.trans made)).symm

/-- A `submit` that is refused while the name is being resolved, and one that is taken after
    the session has been set up. -/
def preparedRun : List Action :=
  [.call (.submit [] [] Multimap.empty 1 true) flushByte, .complete .resolve false, .run 0 fine,
    .complete .connect false, .run 0 fine,
    .call (.submit (lit "GET") (lit "http://a/") Multimap.empty 1 true) flushByte]

theorem session_never_missing_prepared : ∃ s,
    (started false 0 (some 10)).run idleEnv preparedRun = some s ∧ s.session = true ∧
      (findStream s.streams 1).isSome = true ∧
      (false, .submitted (.error .invalidArgument)) ∈ s.log ∧
      (false, .submitted (.ok 1)) ∈ s.log ∧ s.Clean := by
  have known : ((started false 0 (some 10)).run idleEnv preparedRun).any (fun s =>
      s.session && (findStream s.streams 1).isSome &&
        (false, Notice.submitted (.error .invalidArgument)) ∈ s.log &&
        (false, Notice.submitted (.ok 1)) ∈ s.log) = true := by decide +kernel
  obtain ⟨s, ran, facts⟩ := (Option.any_eq_true _ _).mp known
  simp only [Bool.and_eq_true, decide_eq_true_eq] at facts
  obtain ⟨⟨⟨opened, found⟩, refused⟩, taken⟩ := facts
  have prepared : ∀ before a after u, preparedRun = before ++ a :: after →
      (started false 0 (some 10)).run idleEnv before = some u → Prepared u a :=
    Trace.foldlM_checked (by decide +kernel)
  exact ⟨s, ran, opened, found, refused, taken,
    (session_never_missing prepared preparedRun [] s (by simp) ran).1⟩

def earlyRun : List Action :=
  [.call (.submit (lit "GET") (lit "http://a/") Multimap.empty 1 true) flushByte]

theorem early_submit_misses_session : ∃ s,
    (started false 0 (some 10)).run idleEnv earlyRun = some s ∧ ¬ s.Clean := by
  have missed : ((started false 0 (some 10)).run idleEnv earlyRun).any
      (fun s => s.log.any (fun n => n.2 = .noSession)) = true := by decide +kernel
  obtain ⟨s, ran, used⟩ := (Option.any_eq_true _ _).mp missed
  obtain ⟨n, member, missing⟩ := List.any_eq_true.mp used
  exact ⟨s, ran, fun clean => clean n member (by simpa using missing)⟩

end Lifecycle

end Nghttp2Asio.Client
