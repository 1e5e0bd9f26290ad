import Nghttp2Asio.ServerConnection

/-!
What holds between any two handlers of a server connection, whatever nghttp2, the network
and the application do: its deadline is supervised, and what it has to send is written or
will be by a posted task.
-/
namespace Nghttp2Asio.Server.Service
open EventLoop

def Proper : Bool × Notice → Prop
  | (_, .assertion) | (true, .waits) => False
  | _ => True

def Opening (s : Service) : Prop :=
  s.io.inflight .handshake = 1 ∧ s.io.inflight .read = 0 ∧ s.received = false ∨
    s.io.inflight .handshake = 0

structure Core (s : Service) : Prop where
  outside : s.insideCallback = false
  single : s.io.outstanding .deadline ≤ 1
  disarmed : s.stopped = true → (s.io.timers .deadline).waiting = 0
  signaled : s.posted = if s.writeSignaled then 1 else 0
  opening : s.Opening
  log : ∀ n ∈ s.log, Proper n

/-- What nghttp2 has to send, a write is on the way for or signaled, once something was
    read. -/
def Settled (s : Service) : Prop :=
  s.stopped = false → s.received = true → s.out.sendable = true →
    s.writing = true ∨ s.writeSignaled = true

def Supervised (s : Service) : Prop := s.stopped = false → s.io.outstanding .deadline = 1

def Flying (s : Service) : Prop :=
  s.stopped = false → s.writing = true → 0 < s.io.inflight .write

structure Sound (s : Service) : Prop extends Core s where
  supervised : s.Supervised
  flying : s.Flying
  settled : s.Settled

section Operations
variable {s t : Service}

theorem stop_stopped (s : Service) : s.stop.stopped = true := by
  unfold stop
  split <;> simp_all

theorem Core.emit (core : Core s) {n : Notice} (proper : Proper (s.stopped, n)) :
    Core (s.emit n) :=
  { core with
    log := by
      intro m member
      rcases List.mem_append.mp member with old | young
      · exact core.log m old
      · exact List.mem_singleton.mp young ▸ proper }

theorem Core.setIo (core : Core s) {io : Loop Clock Operation Task}
    (deadlines : io.outstanding .deadline = s.io.outstanding .deadline)
    (waits : (io.timers .deadline).waiting ≤ (s.io.timers .deadline).waiting)
    (tasks : io.posted .initiateWrite = s.io.posted .initiateWrite)
    (flights : ∀ op, io.inflight op = s.io.inflight op) : Core { s with io := io } where
  outside := core.outside
  single := deadlines ▸ core.single
  disarmed := fun stopped => Nat.le_zero.mp (core.disarmed stopped ▸ waits)
  signaled := tasks.trans core.signaled
  opening := by simpa [Opening, flights] using core.opening
  log := core.log

theorem Sound.setIo (sound : Sound s) {io : Loop Clock Operation Task}
    (deadlines : io.outstanding .deadline = s.io.outstanding .deadline)
    (waits : (io.timers .deadline).waiting ≤ (s.io.timers .deadline).waiting)
    (tasks : io.posted .initiateWrite = s.io.posted .initiateWrite)
    (flights : ∀ op, io.inflight op = s.io.inflight op) : Sound { s with io := io } where
  toCore := sound.toCore.setIo deadlines waits tasks flights
  supervised := fun running => deadlines.trans (sound.supervised running)
  flying := fun running writing => flights .write ▸ sound.flying running writing
  settled := sound.settled

theorem Core.stopped (core : Core s) (stopped : s.stopped = true) : Sound s where
  toCore := core
  supervised := by simp [Supervised, stopped]
  flying := by simp [Flying, stopped]
  settled := by simp [Settled, stopped]

theorem Core.stop (core : Core s) : Sound s.stop := by
  refine Core.stopped ?_ (stop_stopped s)
  unfold Service.stop
  split
  · exact core
  · have cancelled : Core { s with io := s.io.cancel .deadline } :=
      core.setIo (by simp) (by simp) (by simp) (by simp)
    exact { cancelled with disarmed := fun _ => by simp }

theorem Core.resetDeadline (core : Core s) : Core s.resetDeadline :=
  core.setIo (by simp) (by simp) (by simp) (by simp)

theorem Core.launch (core : Core s) (op : Operation) (opened : op ≠ .handshake)
    (reads : op = .read → s.io.inflight .handshake = 0) : Core (s.launch op) :=
  { core.emit (n := .started op) (by cases s.stopped <;> trivial) with
    single := by simpa [Service.launch] using core.single
    disarmed := core.disarmed
    signaled := by
      have same : (s.launch op).posted = s.posted := by simp [posted, Service.launch]
      exact same.trans core.signaled
    opening := by
      rcases core.opening with ⟨one, none, unread⟩ | done
      · left
        have other : op ≠ .read := by
          intro read
          simp [one] at reads
          exact reads read
        exact ⟨by simp [Service.launch, one, opened], by simp [Service.launch, none, other], unread⟩
      · right
        simp [Service.launch, done, opened] }

theorem Sound.doRead (sound : Sound s) (opened : s.io.inflight .handshake = 0) :
    Sound s.doRead where
  toCore := sound.toCore.resetDeadline.launch .read (by simp)
    (fun _ => by simpa [Service.resetDeadline] using opened)
  supervised := by
    intro running
    simpa [Service.doRead, Service.resetDeadline, Service.launch] using sound.supervised running
  flying := by
    intro running writing
    simpa [Service.doRead, Service.resetDeadline, Service.launch] using
      sound.flying running writing
  settled := sound.settled

theorem Core.flush (core : Core s) (supervised : s.Supervised) (flying : s.Flying)
    (flushed : Flushed s t) : Sound t := by
  cases flushed with
  | busy writing => exact ⟨core, supervised, flying, fun _ _ _ => .inl writing⟩
  | stops streams responses out => exact Core.stop { core with }
  | idle streams responses out free nothing =>
    refine ⟨{ core with }, supervised, flying, ?_⟩
    intro _ _ sendable
    simp [nothing] at sendable
  | writes streams responses out =>
    have kept : Core { s with streams := streams, responses := responses, out := out, writing := true } :=
      { core with }
    refine ⟨kept.resetDeadline.launch .write (by simp) (by simp), ?_, ?_, fun _ _ _ => .inl rfl⟩
    · intro running
      simpa [Service.resetDeadline, Service.launch] using supervised running
    · intro running _
      simp [Service.resetDeadline, Service.launch]

theorem Flushed.handshakes (flushed : Flushed s t) :
    t.io.inflight .handshake = s.io.inflight .handshake := by
  cases flushed with
  | busy => rfl
  | idle => rfl
  | stops =>
    unfold Service.stop
    split <;> simp
  | writes => simp [Service.resetDeadline, Service.launch]

theorem Sound.called (sound : Sound s) (called : Called s t) : Sound t := by
  obtain ⟨streams, responses, out, ⟨rfl, wakes⟩ | ⟨_, fresh, rfl⟩⟩ := called
  · refine ⟨{ sound.toCore with }, sound.supervised, sound.flying, ?_⟩
    intro running received sendable
    rcases wakes sendable with inside | signaled | left
    · simp [sound.outside] at inside
    · exact .inr signaled
    · exact sound.settled running received left
  · have none : s.io.posted .initiateWrite = 0 := by
      simpa [posted, fresh] using sound.signaled
    refine ⟨⟨sound.outside, ?_, sound.disarmed, ?_, ?_, sound.log⟩, ?_, ?_, fun _ _ _ => .inr rfl⟩
    · simpa using sound.single
    · simp [posted, none]
    · simpa [Opening] using sound.opening
    · simpa [Supervised] using sound.supervised
    · simpa [Flying] using sound.flying

theorem Sound.start (sound : Sound s) (opened : s.io.inflight .handshake = 0)
    (unread : s.received = false) (a : Answers) : Sound (s.start a) := by
  unfold Service.start
  split
  · exact sound.toCore.stop
  · refine Sound.doRead ⟨{ sound.toCore with }, sound.supervised, sound.flying, ?_⟩ opened
    intro _ received
    simp [setSendable, unread] at received

end Operations

section Handlers
variable {α : Type} {app : App α} {a : Answers} {s t : Service}

theorem Core.handleDeadline (core : Core s) (gone : s.io.outstanding .deadline = 0)
    (flying : s.Flying) (settled : s.Settled) : Sound s.handleDeadline := by
  unfold Service.handleDeadline
  split
  · rename_i stopped
    exact core.stopped stopped
  rename_i running
  have running : s.stopped = false := Bool.eq_false_of_not_eq_true running
  split
  · exact core.stop.setIo (by simp) (by simp) (by simp) (by simp)
  · have told : Core (s.emit .waits) := core.emit (by simp [running, Proper])
    refine ⟨⟨told.outside, ?_, ?_, ?_, ?_, told.log⟩, ?_, ?_, settled⟩
    · simp [wait, gone]
    · simp [wait, Service.emit, running]
    · have same : s.wait.posted = s.posted := by simp [posted, wait]
      exact same.trans core.signaled
    · simpa [Opening, wait, Service.emit] using core.opening
    · intro _
      simp [wait, gone]
    · simpa [Flying, wait, Service.emit] using flying

theorem Sound.readDone {failed : Bool} (sound : Sound s) (opened : s.io.inflight .handshake = 0)
    (made : s.readDone app a failed = some t) : Sound t := by
  have core : Core { s with received := true } :=
    { sound.toCore with opening := .inr opened }
  unfold Service.readDone at made
  dsimp only at made
  split at made
  · obtain rfl := Option.some.inj made
    exact core.stop
  obtain ⟨⟨failed, u⟩, taken, made⟩ := Option.bind_eq_some_iff.mp made
  obtain ⟨_, streams, responses, out, rfl⟩ := onRead_frame core.outside taken
  dsimp only at made
  split at made
  · obtain rfl := Option.some.inj made
    exact Core.stop { core with }
  obtain ⟨v, written, made⟩ := Option.bind_eq_some_iff.mp made
  obtain rfl := Option.some.inj made
  have core : Core { s with
      received := true, streams := streams, responses := responses, out := out } := { core with }
  have flushed := doWrite_flushed core.outside written
  have next : Sound v := core.flush sound.supervised sound.flying flushed
  split
  · exact next.toCore.stop
  · exact next.doRead (flushed.handshakes.trans opened)

theorem Core.writeDone {failed : Bool} (core : Core s) (supervised : s.Supervised)
    (made : s.writeDone app a failed = some t) : Sound t := by
  unfold Service.writeDone at made
  split at made
  · obtain rfl := Option.some.inj made
    exact core.stop
  · have core : Core { s with writing := false } := { core with }
    exact core.flush supervised (by simp [Flying]) (doWrite_flushed core.outside made)

/-- A task that runs took the signal with it. -/
theorem Core.initiateWrite (core : Core { s with writeSignaled := false })
    (supervised : s.Supervised) (flying : s.Flying) (made : s.initiateWrite app a = some t) :
    Sound t := by
  unfold Service.initiateWrite at made
  dsimp only at made
  split at made
  · rename_i gone
    obtain rfl := Option.some.inj made
    refine Core.stopped (core.emit (by cases s.stopped <;> trivial)) ?_
    by_contra running
    have one := supervised (Bool.eq_false_of_not_eq_true running)
    simp [owners, one] at gone
  · exact core.flush supervised flying (doWrite_flushed core.outside made)

section Take
variable {k : Nat} {h : Ready Clock Operation Task} {io : Loop Clock Operation Task}
  (sound : Sound s) (taken : s.io.take k = some (h, io))
include sound taken

theorem Sound.opens : Opening { s with io := io } := by
  have shakes := Loop.inflight_take taken .handshake
  have reads := Loop.inflight_take taken .read
  rcases sound.opening with ⟨one, none, unread⟩ | done
  · by_cases left : io.inflight .handshake = 0
    · exact .inr left
    · refine .inl ⟨?_, ?_, unread⟩
      · show io.inflight .handshake = 1
        split at shakes <;> omega
      · show io.inflight .read = 0
        omega
  · right
    show io.inflight .handshake = 0
    omega

theorem Sound.disarms : s.stopped = true → (io.timers .deadline).waiting = 0 := by
  have timers : io.timers = s.io.timers := by rw [(Loop.take_inv taken).1]
  exact timers ▸ sound.disarmed

theorem Sound.core (task : h.isTask .initiateWrite = false) : Core { s with io := io } := by
  have deadlines := Loop.outstanding_take taken .deadline
  have tasks := Loop.posted_take taken .initiateWrite
  have single := sound.single
  simp only [task, Bool.false_eq_true, ↓reduceIte, Nat.add_zero] at tasks
  refine ⟨sound.outside, ?_, sound.disarms taken, tasks.symm.trans sound.signaled,
    sound.opens taken, sound.log⟩
  show io.outstanding .deadline ≤ 1
  omega

theorem Sound.watched (other : h.isTimer .deadline = false) : Supervised { s with io := io } := by
  have deadlines := Loop.outstanding_take taken .deadline
  simp only [other, Bool.false_eq_true, ↓reduceIte, Nat.add_zero] at deadlines
  intro running
  exact deadlines ▸ sound.supervised running

theorem Sound.flies (other : h.isDone .write = false) : Flying { s with io := io } := by
  have writes := Loop.inflight_take taken .write
  simp only [other, Bool.false_eq_true, ↓reduceIte, Nat.add_zero] at writes
  intro running writing
  exact writes ▸ sound.flying running writing

theorem Sound.handle (made : { s with io := io }.handle app a h = some t) : Sound t := by
  cases h with
  | done op failed =>
    have core := sound.core taken rfl
    have supervised := sound.watched taken rfl
    cases op with
    | handshake =>
      have shakes := Loop.inflight_take taken .handshake
      simp only [Ready.isDone, decide_true, ↓reduceIte] at shakes
      have flying := sound.flies taken rfl
      obtain rfl := Option.some.inj made
      unfold handshakeDone
      split_ifs
      · exact core.stop
      · exact core.stop
      · rcases sound.opening with ⟨one, _, unread⟩ | done
        · refine Sound.start ⟨core, supervised, flying, sound.settled⟩ ?_ unread a
          show io.inflight .handshake = 0
          omega
        · omega
    | read =>
      have shakes := Loop.inflight_take taken .handshake
      have reads := Loop.inflight_take taken .read
      simp only [Ready.isDone, decide_true, ↓reduceIte] at reads
      have flying := sound.flies taken rfl
      refine Sound.readDone ⟨core, supervised, flying, sound.settled⟩ ?_ made
      show io.inflight .handshake = 0
      rcases sound.opening with ⟨_, none, _⟩ | done <;> omega
    | write => exact core.writeDone supervised made
  | timer clock aborted =>
    have core := sound.core taken rfl
    have deadlines := Loop.outstanding_take taken .deadline
    have single := sound.single
    simp only [Ready.isTimer, decide_true, ↓reduceIte] at deadlines
    obtain rfl := Option.some.inj made
    refine core.handleDeadline ?_ (sound.flies taken rfl) sound.settled
    show io.outstanding .deadline = 0
    omega
  | task task =>
    have deadlines := Loop.outstanding_take taken .deadline
    have tasks := Loop.posted_take taken .initiateWrite
    have signaled : s.io.posted .initiateWrite = _ := sound.signaled
    simp only [Ready.isTimer, Bool.false_eq_true, ↓reduceIte, Nat.add_zero] at deadlines
    simp only [Ready.isTask, decide_true, ↓reduceIte] at tasks
    have none : io.posted .initiateWrite = 0 := by
      split at signaled <;> omega
    have core : Core { s with io := io, writeSignaled := false } :=
      ⟨sound.outside, deadlines ▸ sound.single, sound.disarms taken, none, sound.opens taken,
        sound.log⟩
    exact Core.initiateWrite core (sound.watched taken rfl) (sound.flies taken rfl) made

end Take

theorem Sound.step {act : Action} (sound : Sound s) (made : s.step app act = some t) : Sound t := by
  cases act with
  | elapse d =>
    obtain rfl := Option.some.inj made
    exact sound.setIo (by simp) (Nat.le_refl _) (by simp) (by simp)
  | complete op failed =>
    obtain ⟨io, completed, rfl⟩ := Option.map_eq_some_iff.mp made
    exact sound.setIo (Loop.outstanding_complete completed .deadline)
      (by rw [Loop.complete_timers completed])
      (Loop.posted_complete completed .initiateWrite) (Loop.inflight_complete completed)
  | fire =>
    obtain ⟨io, fired, rfl⟩ := Option.map_eq_some_iff.mp made
    exact sound.setIo (Loop.outstanding_fire fired .deadline) (by simp [Loop.waiting_fire fired])
      (Loop.posted_fire fired .initiateWrite) (Loop.inflight_fire fired)
  | run k a =>
    obtain ⟨⟨h, io⟩, taken, made⟩ := Option.bind_eq_some_iff.mp made
    exact sound.handle taken made
  | call c =>
    simp only [Service.step] at made
    split at made
    · exact sound.called (Called.call made)
    · contradiction

end Handlers

theorem sound_accepted (tls : Bool) (now : Int) (tlsHandshakeTimeout readTimeout : Option Int)
    (a : Answers) : Sound (accepted tls now tlsHandshakeTimeout readTimeout a) := by
  unfold accepted
  split
  · refine ⟨⟨rfl, ?_, ?_, ?_, ?_, ?_⟩, ?_, ?_, ?_⟩
    all_goals simp [launch, startDeadline, wait, emit, new, posted, Opening, Supervised, Flying,
      Settled, Proper]
  · refine Sound.start ⟨⟨rfl, ?_, ?_, ?_, ?_, ?_⟩, ?_, ?_, ?_⟩ ?_ rfl a
    all_goals simp [startDeadline, wait, emit, new, posted, Opening, Supervised, Flying, Settled,
      Proper]

theorem run_sound {α : Type} {app : App α} {tls : Bool} {now : Int}
    {tlsHandshakeTimeout readTimeout : Option Int} {a : Answers} {actions : List Action}
    {s : Service}
    (ran : (accepted tls now tlsHandshakeTimeout readTimeout a).run app actions = some s) : Sound s :=
  Trace.foldlM_preserves Sound actions (fun _ => Sound.step)
    (sound_accepted tls now tlsHandshakeTimeout readTimeout a) ran

theorem Sound.lastDeadline {α : Type} {app : App α} {aborted : Bool} {s t : Service} {k : Nat}
    {a : Answers} {io : Loop Clock Operation Task} (sound : Sound s)
    (stopped : s.stopped = true) (taken : s.io.take k = some (.timer .deadline aborted, io))
    (made : s.step app (.run k a) = some t) :
    t = { s with io := io } ∧ t.io.outstanding .deadline = 0 := by
  obtain ⟨_, again, made⟩ := Option.bind_eq_some_iff.mp made
  obtain rfl := Option.some.inj (taken.symm.trans again)
  have idle : handleDeadline { s with io := io } = { s with io := io } := if_pos stopped
  obtain rfl := Option.some.inj ((congrArg some idle).symm.trans made)
  exact ⟨rfl, Loop.last_take taken (by simp [Ready.isTimer]) sound.single⟩

def flushByte : Flush := ⟨[⟨[], .chunk oneByte, false⟩, ⟨[], .nothing, false⟩], false⟩

def opens : Answers :=
  ⟨true, true, [.recv (.beginHeaders (.headers 1 false .request))], false, true, flushByte, false⟩

def quiet : Answers := ⟨true, true, [], false, true, ⟨[⟨[], .nothing, false⟩], false⟩, false⟩

def servedRun : List Action :=
  [.run 0 quiet, .complete .read false, .run 0 opens, .run 0 quiet, .complete .write false,
    .run 0 quiet]

def resumedRun : List Action := servedRun ++ [.call (.respond 1 .resume true true)]

def emptyApp : App Unit := ⟨∅, fun _ _ => ⟨false, false⟩⟩

end Nghttp2Asio.Server.Service
