import Nghttp2Asio.ClientLifecycle

/-!
What holds between any two handlers of a client session, whatever nghttp2, the network and
the application do: its deadline is supervised, its output is on the way, and while it has
no stream a PING is due.
-/
namespace Nghttp2Asio.Client.Lifecycle
open EventLoop SendLoop

/-- What nghttp2 has to send, a write is on the way for. -/
def Settled (s : Lifecycle) : Prop :=
  s.stopped = false → s.out.sendable = true → s.writing = true

section Frame
variable (s : Lifecycle)

@[simp] theorem useSession_stopped : s.useSession.stopped = s.stopped := by
  unfold useSession
  split <;> rfl

@[simp] theorem useSession_out : s.useSession.out = s.out := by
  unfold useSession
  split <;> rfl

@[simp] theorem useSession_writing : s.useSession.writing = s.writing := by
  unfold useSession
  split <;> rfl

@[simp] theorem leaveCallback_stopped : s.leaveCallback.stopped = s.stopped := by
  unfold leaveCallback
  split <;> rfl

@[simp] theorem leaveCallback_writing : s.leaveCallback.writing = s.writing := by
  unfold leaveCallback
  split <;> rfl

@[simp] theorem stop_stopped : s.stop.stopped = true := by
  unfold stop
  split <;> simp_all

@[simp] theorem shouldStop_stopped (drained : Bool) :
    (s.shouldStop drained).2.stopped = s.stopped := by
  unfold shouldStop
  split <;> simp

@[simp] theorem shouldStop_out (drained : Bool) : (s.shouldStop drained).2.out = s.out := by
  unfold shouldStop
  split <;> simp

variable {s}

theorem Settled.shouldStop (settled : s.Settled) (drained : Bool) :
    (s.shouldStop drained).2.Settled := by
  unfold Lifecycle.shouldStop
  split
  · exact settled
  · intro running sendable
    rw [useSession_writing]
    exact settled (by simpa using running) (by simpa using sendable)

theorem Settled.doRead (settled : s.Settled) : s.doRead.Settled := by
  unfold Lifecycle.doRead
  split <;> exact settled

end Frame

section Flushes
variable {env : Env} {s t : Lifecycle}

theorem doWrite_settled {f : Flush} (made : s.doWrite env f = some t) : t.Settled := by
  intro running sendable
  cases doWrite_flushed made with
  | away busy => exact busy.resolve_left (by simp [running])
  | failed => simp at running
  | wrote => rfl
  | nothing _ _ looped empty =>
    have flushed := loop_flushes (fun _ _ => rfl) f.sends looped
    split at running
    · simp at running
    · rename_i alive
      rw [if_neg alive, shouldStop_out, leaveCallback_out] at sendable
      simp [sendable, empty] at flushed

theorem signalWrite_settled {f : Flush} (outside : s.insideCallback = false)
    (made : s.signalWrite env f = some t) : t.Settled := by
  unfold signalWrite at made
  rw [outside, if_neg (by simp)] at made
  exact doWrite_settled made

theorem call_settled {f : Flush} {c : Call} (outside : s.insideCallback = false)
    (settled : s.Settled) (made : s.call env.inetPton (signalWrite env f) c = some t) :
    t.Settled := by
  have used {sendable : Bool} {u : Lifecycle}
      (made : signalWrite env f (s.useSession.setSendable sendable) = some u) : u.Settled := by
    refine signalWrite_settled ?_ made
    exact (Advance.useSession s).inside.trans outside
  cases c with
  | submit method uri h answer sendable =>
    simp only [call, submit] at made
    split at made
    · obtain rfl := Option.some.inj made
      exact settled
    split at made
    · obtain rfl := Option.some.inj made
      exact settled
    split at made
    · obtain rfl := Option.some.inj made
      intro running more
      simp only [emit, useSession_writing, useSession_stopped, useSession_out] at running more ⊢
      exact settled running more
    · obtain ⟨u, signaled, rfl⟩ := Option.map_eq_some_iff.mp made
      have flushed := used signaled
      intro running more
      exact flushed running more
  | shutdown sendable =>
    simp only [call] at made
    split at made
    · obtain rfl := Option.some.inj made
      exact settled
    · exact used made
  | cancel id sendable | resume id sendable =>
    simp only [call] at made
    split_ifs at made
    · obtain rfl := Option.some.inj made
      exact settled
    · exact used made
  | writeTrailer id answer sendable =>
    simp only [call] at made
    split_ifs at made
    · obtain rfl := Option.some.inj made
      intro running more
      simp only [useSession_writing, useSession_stopped, useSession_out] at running more ⊢
      exact settled running more
    · exact used made

theorem callErrorCb_settled {calls : List (Call × Flush)} (outside : s.insideCallback = false)
    (settled : s.Settled) (made : s.callErrorCb (react env calls) = some t) : t.Settled := by
  unfold callErrorCb at made
  split_ifs at made
  · obtain rfl := Option.some.inj made
    exact settled
  · obtain rfl := Option.some.inj made
    exact settled
  · refine (Trace.foldlM_preserves (fun u => u.insideCallback = false ∧ u.Settled) calls ?_
      ⟨outside, settled⟩ made).2
    intro u c v _ ready called
    exact ⟨(advance_call advance_signalWrite called).inside.trans ready.1,
      call_settled ready.1 ready.2 called⟩

end Flushes

/-- No assertion fails, no deadline wait starts on a stopped session, no PING is submitted
    while there is a stream, and, where it is `opened`, nothing is asked of a null session. -/
def Proper (opened : Bool) : Bool × Notice → Prop
  | (_, .assertion) | (true, .waits .deadline) | (_, .ping false) => False
  | (_, .noSession) => opened = false
  | _ => True

structure Core (opened : Bool) (s : Lifecycle) : Prop where
  outside : s.insideCallback = false
  single : s.io.outstanding .deadline ≤ 1
  log : ∀ n ∈ s.log, Proper opened n
  session : opened = true → s.session = true

structure Sound (opened : Bool) (s : Lifecycle) : Prop extends Core opened s where
  deadline : s.stopped = false → s.io.outstanding .deadline = 1
  settled : s.Settled
  flying : s.Flying
  kept : s.session = true → s.Kept

theorem Plain.proper {opened session b : Bool} {n : Notice} (plain : Plain session n)
    (open_ : opened = true → session = true) : Proper opened (b, n) := by
  cases n with
  | connect | assertion => exact plain.elim
  | ping => exact plain.elim
  | noSession =>
    have missing : session = false := plain
    have closed : opened = false := by
      by_contra opens
      simp [missing] at open_
      exact opens open_
    cases b <;> exact closed
  | waits t =>
    cases t with
    | deadline => exact plain.elim
    | ping => cases b <;> trivial
  | error | started | submitted => cases b <;> trivial

section Handlers
variable {env : Env} {a : Answers} {opened : Bool} {s t : Lifecycle}

theorem Advance.running (adv : Advance s t) (running : t.stopped = false) : s.stopped = false := by
  by_contra stopped
  have ended := adv.stopped (by simpa using stopped)
  simp [ended] at running

theorem Core.advance (core : Core opened s) (adv : Advance s t) : Core opened t where
  outside := adv.inside.trans core.outside
  single := adv.deadline ▸ core.single
  log := by
    obtain ⟨new, grown, plain⟩ := adv.log
    intro n member
    rw [grown] at member
    rcases List.mem_append.mp member with old | young
    · exact core.log n old
    · exact (plain n young).proper core.session
  session := fun opens => adv.session.trans (core.session opens)

theorem Core.emit (core : Core opened s) (n : Notice) (proper : Proper opened (s.stopped, n)) :
    Core opened (s.emit n) where
  outside := core.outside
  single := core.single
  log := by
    intro m member
    rcases List.mem_append.mp member with old | young
    · exact core.log m old
    · exact List.mem_singleton.mp young ▸ proper
  session := core.session

theorem Core.stopped (core : Core opened s) (stopped : s.stopped = true) : Sound opened s where
  toCore := core
  deadline := by simp [stopped]
  settled := by simp [Settled, stopped]
  flying := by simp [Flying, stopped]
  kept := by simp [Kept, stopped]

theorem Sound.advance (sound : Sound opened s) (adv : Advance s t) (settled : t.Settled) : Sound opened t where
  toCore := sound.toCore.advance adv
  deadline := fun running => adv.deadline.trans (sound.deadline (adv.running running))
  settled := settled
  flying := adv.flying sound.flying
  kept := fun opened => adv.kept (sound.kept (adv.session ▸ opened))

theorem Sound.emit (sound : Sound opened s) (n : Notice) (proper : Proper opened (s.stopped, n)) :
    Sound opened (s.emit n) :=
  { sound with toCore := sound.toCore.emit n proper }

theorem Sound.start (sound : Sound opened s) (op : Operation) : Sound opened (s.start op) :=
  { sound.emit (.started op) (by cases s.stopped <;> trivial) with
    flying := by
      intro running writing
      have flying := sound.flying running writing
      simp only [Lifecycle.start, Loop.inflight_start]
      omega }

theorem Core.reported (core : Core opened s) (made : s.notConnected env a = some t) : Sound opened t := by
  obtain ⟨u, told, rfl⟩ := Option.map_eq_some_iff.mp made
  exact (core.advance ((advance_callErrorCb advance_react told).trans (.stop u))).stopped (by simp)

/-- Whatever was asked of the null session before, nothing is from then on. -/
theorem Sound.setUp {clean : Bool} (sound : Sound opened s) (log : ∀ n ∈ s.log, Proper clean n)
    (setup : a.setup = true) (made : s.connected env a = some t) : Sound clean t := by
  unfold Lifecycle.connected at made
  simp only [setup, Bool.not_true, Bool.false_eq_true, ↓reduceIte] at made
  obtain ⟨u, flushed, made⟩ := Option.bind_eq_some_iff.mp made
  have outside : ({ s with session := true }.setSendable a.sendable).insideCallback = false :=
    sound.outside
  have adv := ((advance_doWrite outside flushed).trans (advance_doRead u)).trans
    (.startPing u.doRead u.doRead.streams)
  have core : Core clean ({ s with session := true }.setSendable a.sendable) :=
    ⟨sound.outside, sound.single, log, fun _ => rfl⟩
  have ready : Sound clean u.doRead.startPing := {
    toCore := core.advance adv
    deadline := fun running => adv.deadline.trans (sound.deadline (adv.running running))
    settled := (doWrite_settled flushed).doRead
    flying := adv.flying sound.flying
    kept := fun _ _ _ => Loop.live_restart _ Clock.ping 30 }
  split at made
  · obtain rfl := Option.some.inj made
    exact ready.emit .connect (by cases u.doRead.startPing.stopped <;> trivial)
  · obtain rfl := Option.some.inj made
    exact ready

theorem Sound.connected (sound : Sound opened s) (made : s.connected env a = some t) :
    Sound opened t := by
  cases setup : a.setup with
  | true => exact sound.setUp sound.log setup made
  | false =>
    unfold Lifecycle.connected at made
    simp only [setup, Bool.not_false, ↓reduceIte] at made
    exact sound.advance (advance_callErrorCb advance_react made)
      (callErrorCb_settled sound.outside sound.settled made)

theorem Sound.onRead {failed : Bool} (sound : Sound opened s) (made : s.onRead env a failed = some t) :
    Sound opened t := by
  unfold Lifecycle.onRead at made
  split at made
  · have asked := advance_shouldStop s a.drained
    simp only at made
    split at made
    · obtain rfl := Option.some.inj made
      exact (sound.toCore.advance (asked.trans (.stop _))).stopped (by simp)
    · obtain ⟨u, told, made⟩ := Option.bind_eq_some_iff.mp made
      obtain rfl := Option.some.inj made
      have adv := asked.trans ((advance_callErrorCb advance_react told).trans (.stop u))
      exact (sound.toCore.advance adv).stopped (by simp)
  · obtain ⟨u, received, made⟩ := Option.bind_eq_some_iff.mp made
    have inside : Advance s.enterCallback (u.setSendable a.sendable) :=
      (Advance.useSession _).trans (.trans (Trace.foldlM_keeps Advance.refl Advance.trans a.recv
        (fun _ => advance_inner) received) (.setSendable u a.sendable))
    simp only at made
    split at made
    · obtain ⟨v, told, made⟩ := Option.bind_eq_some_iff.mp made
      obtain rfl := Option.some.inj made
      have adv := Advance.bracket sound.outside (inside.trans
        ((advance_callErrorCb advance_react told).trans (.stop v)))
      exact (sound.toCore.advance adv).stopped (by simp)
    · obtain ⟨v, flushed, made⟩ := Option.bind_eq_some_iff.mp made
      have left := Advance.bracket sound.outside inside
      have adv := (left.trans (advance_doWrite (left.inside.trans sound.outside) flushed)).trans
        (advance_shouldStop v a.drained)
      have settled := (doWrite_settled flushed).shouldStop a.drained
      split at made
      · obtain rfl := Option.some.inj made
        exact (sound.toCore.advance (adv.trans (.stop _))).stopped (by simp)
      · obtain rfl := Option.some.inj made
        exact sound.advance (adv.trans (advance_doRead _)) settled.doRead

theorem Core.onWrite {failed : Bool} (core : Core opened s)
    (deadline : s.stopped = false → s.io.outstanding .deadline = 1)
    (kept : s.session = true → s.Kept) (made : s.onWrite env a failed = some t) : Sound opened t := by
  unfold Lifecycle.onWrite at made
  split at made
  · exact core.reported made
  · let done : Lifecycle := { s with out := { s.out with len := 0 }, writing := false }
    change done.doWrite env a.flush = some t at made
    have adv := advance_doWrite (s := done) core.outside made
    have idle : Core opened done := ⟨core.outside, core.single, core.log, core.session⟩
    exact {
      toCore := idle.advance adv
      deadline := fun running => adv.deadline.trans (deadline (adv.running running))
      settled := doWrite_settled made
      flying := adv.flying (fun _ => nofun)
      kept := fun opened => adv.kept (kept (adv.session ▸ opened)) }

theorem Core.handleDeadline (core : Core opened s) (none : s.io.outstanding .deadline = 0)
    (settled : s.Settled) (flying : s.Flying) (kept : s.session = true → s.Kept)
    (made : s.handleDeadline env a = some t) : Sound opened t := by
  unfold Lifecycle.handleDeadline at made
  split at made
  · rename_i stopped
    obtain rfl := Option.some.inj made
    exact core.stopped stopped
  split at made
  · obtain ⟨u, told, made⟩ := Option.bind_eq_some_iff.mp made
    obtain rfl := Option.some.inj made
    have ended := core.advance ((advance_callErrorCb advance_react told).trans (.stop u))
    refine Core.stopped ⟨ended.outside, ?_, ended.log, ended.session⟩ (stop_stopped u)
    simpa using ended.single
  · rename_i running _
    obtain rfl := Option.some.inj made
    have running := Bool.eq_false_of_not_eq_true running
    have told := core.emit (.waits .deadline) (by rw [running]; trivial)
    exact {
      outside := core.outside
      single := by simp [wait, none]
      log := told.log
      session := core.session
      deadline := by simp [wait, none]
      settled := settled
      flying := flying
      kept := kept }

theorem Core.handlePing {aborted : Bool} (core : Core opened s)
    (deadline : s.stopped = false → s.io.outstanding .deadline = 1) (settled : s.Settled)
    (flying : s.Flying) (kept : aborted = true → s.session = true → s.Kept)
    (made : s.handlePing env a aborted = some t) : Sound opened t := by
  unfold Lifecycle.handlePing at made
  split at made
  · rename_i idle
    obtain rfl := Option.some.inj made
    refine { core with deadline := deadline, settled := settled, flying := flying, kept := ?_ }
    intro opened running empty
    refine kept ?_ opened running empty
    simpa [running, empty] using idle
  · rename_i due
    simp only [Bool.not_eq_true, Bool.or_eq_false_iff, Bool.not_eq_false'] at due
    obtain ⟨⟨running, _⟩, empty⟩ := due
    obtain ⟨u, flushed, made⟩ := Option.bind_eq_some_iff.mp made
    obtain rfl := Option.some.inj made
    have asked := Advance.useSession s
    have pinged := ((core.advance asked).emit (.ping s.streams.isEmpty)
      (by rw [empty]; cases s.useSession.stopped <;> trivial)).advance (.setSendable _ a.sendable)
    have adv := (advance_signalWrite flushed).trans (.startPing u u.streams)
    have settled : u.Settled := signalWrite_settled pinged.outside flushed
    exact {
      toCore := pinged.advance adv
      deadline := fun _ => adv.deadline.trans (asked.deadline.trans (deadline running))
      settled := settled
      flying := adv.flying (asked.flying flying)
      kept := fun _ _ _ => Loop.live_restart _ Clock.ping 30 }

section Taken
variable {k : Nat} {h : Ready Clock Operation Empty} {io : Loop Clock Operation Empty}
  (sound : Sound opened s) (taken : s.io.take k = some (h, io))
include sound taken

theorem Sound.supervised (other : h.isTimer .deadline = false) :
    s.stopped = false → io.outstanding .deadline = 1 := by
  intro running
  have one := sound.deadline running
  have deadlines := Loop.outstanding_take taken .deadline
  simp only [other, Bool.false_eq_true, ↓reduceIte] at deadlines
  omega

theorem Sound.flies (other : h.isDone .write = false) : Flying { s with io := io } := by
  intro running writing
  have positive := sound.flying running writing
  have writes := Loop.inflight_take taken .write
  simp only [other, Bool.false_eq_true, ↓reduceIte] at writes
  simp only
  omega

theorem Sound.keeps (other : h ≠ .timer .ping false) :
    s.session = true → Kept { s with io := io } := by
  intro opened running empty
  exact (sound.kept opened running empty).take taken other

theorem Sound.core : Core opened { s with io := io } := by
  have deadlines := Loop.outstanding_take taken .deadline
  have single := sound.single
  exact ⟨sound.outside, by simp only; omega, sound.log, sound.session⟩

theorem Sound.rest (timer : h.isTimer .deadline = false) (write : h.isDone .write = false)
    (ping : h ≠ .timer .ping false) : Sound opened { s with io := io } :=
  { sound.core taken with
    deadline := sound.supervised taken timer
    settled := sound.settled
    flying := sound.flies taken write
    kept := sound.keeps taken ping }

theorem Sound.take (made : { s with io := io }.handle env a h = some t) : Sound opened t := by
  have core := sound.core taken
  cases h with
  | done op failed =>
    cases op with
    | resolve =>
      have sound := sound.rest taken rfl rfl (by simp)
      simp only [handle] at made
      split at made
      · exact core.reported made
      · obtain rfl := Option.some.inj made
        exact sound.start .connect
    | connect =>
      have sound := sound.rest taken rfl rfl (by simp)
      simp only [handle] at made
      split_ifs at made
      · obtain rfl := Option.some.inj made
        exact sound
      · exact core.reported made
      · obtain rfl := Option.some.inj made
        exact sound.start .handshake
      · exact sound.connected made
    | handshake =>
      have sound := sound.rest taken rfl rfl (by simp)
      simp only [handle] at made
      split_ifs at made
      · obtain rfl := Option.some.inj made
        exact sound
      · exact core.reported made
      · exact core.reported made
      · exact sound.connected made
    | read => exact (sound.rest taken rfl rfl (by simp)).onRead made
    | write =>
      exact core.onWrite (sound.supervised taken rfl) (sound.keeps taken (by simp)) made
  | timer clock aborted =>
    cases clock with
    | deadline =>
      have none : io.outstanding .deadline = 0 := by
        have deadlines := Loop.outstanding_take taken .deadline
        have single := sound.single
        simp only [Ready.isTimer, decide_true, ↓reduceIte] at deadlines
        omega
      exact core.handleDeadline none sound.settled (sound.flies taken rfl)
        (sound.keeps taken (by simp)) made
    | ping =>
      refine core.handlePing (sound.supervised taken rfl) sound.settled (sound.flies taken rfl) ?_
        made
      intro stale
      exact sound.keeps taken (by simp [stale])
  | task none => exact none.elim

end Taken

theorem Sound.step {act : Action} (sound : Sound opened s) (made : s.step env act = some t) : Sound opened t := by
  cases act with
  | elapse d =>
    obtain rfl := Option.some.inj made
    exact { sound with }
  | complete op failed =>
    obtain ⟨io, completed, rfl⟩ := Option.map_eq_some_iff.mp made
    have deadlines := Loop.outstanding_complete completed Clock.deadline
    exact {
      outside := sound.outside
      single := deadlines ▸ sound.single
      log := sound.log
      session := sound.session
      deadline := deadlines ▸ sound.deadline
      settled := sound.settled
      flying := fun running writing => (Loop.inflight_complete completed .write).symm ▸
        sound.flying running writing
      kept := fun opened running empty => (sound.kept opened running empty).complete completed }
  | fire clock =>
    obtain ⟨io, fired, rfl⟩ := Option.map_eq_some_iff.mp made
    have deadlines := Loop.outstanding_fire fired Clock.deadline
    exact {
      outside := sound.outside
      single := deadlines ▸ sound.single
      log := sound.log
      session := sound.session
      deadline := deadlines ▸ sound.deadline
      settled := sound.settled
      flying := fun running writing => (Loop.inflight_fire fired .write).symm ▸
        sound.flying running writing
      kept := fun opened running empty => (sound.kept opened running empty).fire fired }
  | run k a =>
    obtain ⟨⟨h, io⟩, taken, made⟩ := Option.bind_eq_some_iff.mp made
    exact sound.take taken made
  | call c f =>
    exact sound.advance (advance_call advance_signalWrite made)
      (call_settled sound.outside sound.settled made)
  | setCallbacks connectCb errorCb =>
    obtain rfl := Option.some.inj made
    exact { sound with }
  | setReadTimeout timeout =>
    obtain rfl := Option.some.inj made
    exact { sound with }

end Handlers

theorem sound_started (tls : Bool) (now : Int) (connectTimeout : Option Int) :
    Sound false (started tls now connectTimeout) where
  outside := rfl
  single := by simp [started, startResolve, wait, start, new]
  log := by simp [started, startResolve, wait, start, new, emit, Proper]
  session := nofun
  deadline := by simp [started, startResolve, wait, start, new]
  settled := fun _ => nofun
  flying := fun _ => nofun
  kept := nofun

theorem run_sound {env : Env} {tls : Bool} {now : Int} {connectTimeout : Option Int}
    {actions : List Action} {s : Lifecycle}
    (ran : (started tls now connectTimeout).run env actions = some s) : Sound false s :=
  Trace.foldlM_preserves (Sound false) actions (fun _ => Sound.step)
    (sound_started tls now connectTimeout) ran

theorem Sound.lastDeadline {env : Env} {opened aborted : Bool} {s t : Lifecycle} {k : Nat}
    {a : Answers} {io : Loop Clock Operation Empty} (sound : Sound opened s)
    (stopped : s.stopped = true) (taken : s.io.take k = some (.timer .deadline aborted, io))
    (made : s.step env (.run k a) = some t) :
    t = { s with io := io } ∧ t.io.outstanding .deadline = 0 := by
  obtain ⟨_, again, made⟩ := Option.bind_eq_some_iff.mp made
  obtain rfl := Option.some.inj (taken.symm.trans again)
  have idle : handleDeadline env a { s with io := io } = some { s with io := io } := if_pos stopped
  obtain rfl := Option.some.inj (idle.symm.trans made)
  exact ⟨rfl, Loop.last_take taken (by simp [Ready.isTimer]) sound.single⟩

theorem ping_runs {env : Env} {s t : Lifecycle} {k : Nat} {a : Answers}
    {io : Loop Clock Operation Empty} (opened : s.session = true) (running : s.stopped = false)
    (empty : s.streams.isEmpty = true) (taken : s.io.take k = some (.timer .ping false, io))
    (made : s.step env (.run k a) = some t) :
    (∃ after, t.log = s.log ++ (false, .ping true) :: after) ∧ t.io.Live .ping := by
  obtain ⟨_, again, made⟩ := Option.bind_eq_some_iff.mp made
  obtain rfl := Option.some.inj (taken.symm.trans again)
  simp only [handle, handlePing, running, empty, useSession, opened, Bool.or_self, Bool.not_true,
    Bool.false_eq_true, ↓reduceIte] at made
  obtain ⟨u, flushed, made⟩ := Option.bind_eq_some_iff.mp made
  obtain rfl := Option.some.inj made
  obtain ⟨new, grown, _⟩ := (advance_signalWrite flushed).log
  refine ⟨⟨new ++ [(u.stopped, .waits .ping)], ?_⟩, Loop.live_restart _ Clock.ping 30⟩
  simp [startPing, wait, emit, grown, setSendable]

/-- Whenever a connected session runs without a stream, a PING handler is outstanding that
    submits a PING and arms the timer again when it runs; no PING is submitted while there
    is a stream. -/
theorem idle_keep_alive {env : Env} {tls : Bool} {now : Int} {connectTimeout : Option Int}
    {actions : List Action} {s : Lifecycle}
    (ran : (started tls now connectTimeout).run env actions = some s) :
    (s.session = true → s.stopped = false → s.streams.isEmpty = true →
      s.io.Live .ping ∧ ∀ k a io t, s.io.take k = some (.timer .ping false, io) →
        s.step env (.run k a) = some t →
          (∃ after, t.log = s.log ++ (false, .ping true) :: after) ∧ t.io.Live .ping) ∧
      ∀ n ∈ s.log, n.2 ≠ .ping false := by
  have sound := run_sound ran
  refine ⟨?_, ?_⟩
  · intro opened running empty
    exact ⟨sound.kept opened running empty, fun k a io t => ping_runs opened running empty⟩
  · rintro ⟨b, n⟩ member rfl
    have proper := sound.log _ member
    cases b <;> exact proper

def flushByte : Flush := ⟨[⟨[], .chunk oneByte, false⟩, ⟨[], .nothing, false⟩], [], false⟩

def fine : Answers := ⟨true, true, [], true, true, flushByte, false, []⟩

def idleRun : List Action :=
  [.complete .resolve false, .run 0 fine, .complete .connect false, .run 0 fine]

def idleEnv : Env := ⟨⟨fun _ => false, fun _ _ => false⟩, fun _ => false⟩

theorem idle_keep_alive_connected : ∃ s, (started false 0 (some 10)).run idleEnv idleRun = some s ∧
    s.session = true ∧ s.stopped = false ∧ s.streams.isEmpty = true ∧ s.io.Live .ping := by
  have reached : ((started false 0 (some 10)).run idleEnv idleRun).any (fun s =>
      s.session && !s.stopped && s.streams.isEmpty) = true := by decide +kernel
  obtain ⟨s, ran, idle⟩ := (Option.any_eq_true _ _).mp reached
  simp only [Bool.and_eq_true, Bool.not_eq_true'] at idle
  obtain ⟨⟨opened, running⟩, empty⟩ := idle
  exact ⟨s, ran, opened, running, empty, ((idle_keep_alive ran).1 opened running empty).1⟩

end Nghttp2Asio.Client.Lifecycle
