import Nghttp2Asio.ClientSupervision

/-!
How a client session reports and ends: `on_error` and `on_connect` at most once, and nothing
new once `stop` has run. The steps after which this fails are named one by one.
-/
namespace Nghttp2Asio.Client
open EventLoop SendLoop

def Notice.harmless : Notice → Bool
  | .connect | .error | .started _ | .waits _ => false
  | _ => true

def Inner.isCall : Inner → Bool
  | .call _ => true
  | .recv _ => false

structure Flush.Still (f : Flush) : Prop where
  inner : ∀ a ∈ f.sends, ∀ i ∈ a.inner, i.isCall = false
  onError : f.onError = []

structure Answers.Still (a : Answers) : Prop where
  recv : ∀ i ∈ a.recv, i.isCall = false
  flush : a.flush.Still
  onError : a.onError = []

/-- A flush that is made in full stops the session: `nghttp2_session_mem_send` fails, or there
    is nothing to send and nothing to wait for. -/
def Flush.Stops (f : Flush) : Prop :=
  (∃ a ∈ f.sends, a.answer = .failure) ∨
    f.drained = true ∧ ∃ a rest, f.sends = a :: rest ∧ a.answer = .nothing

namespace Lifecycle

def errors (s : Lifecycle) : Nat := s.log.countP (fun n => n.2 = .error)

def connects (s : Lifecycle) : Nat := s.log.countP (fun n => n.2 = .connect)

structure Quiescent (s : Lifecycle) : Prop where
  errors : s.errors ≤ 1
  connects : s.connects ≤ 1
  late : ∀ n ∈ s.log, n.1 = true → n.2.harmless = true

def opening (s : Lifecycle) : Nat :=
  s.io.inflight .resolve + s.io.inflight .connect + s.io.inflight .handshake

/-- `spare` is 1 while a handler that leads to `connected` runs. -/
structure Calm (spare : Nat) (s : Lifecycle) : Prop where
  errors : s.errors ≤ 1
  silent : s.stopped = false → s.errors = 0
  connects : s.connects + s.opening + spare ≤ 1
  late : ∀ n ∈ s.log, n.1 = true → n.2.harmless = true

theorem Calm.quiescent {s : Lifecycle} {spare : Nat} (calm : Calm spare s) : Quiescent s :=
  ⟨calm.errors, by have := calm.connects; omega, calm.late⟩

section Frame
variable {spare : Nat} {s t : Lifecycle}

theorem Calm.frame (calm : Calm spare s) (log : t.log = s.log) (stopped : t.stopped = s.stopped)
    (opening : t.opening = s.opening) : Calm spare t where
  errors := by
    rw [Lifecycle.errors, log]
    exact calm.errors
  silent := by
    rw [Lifecycle.errors, log, stopped]
    exact calm.silent
  connects := by
    rw [Lifecycle.connects, log, opening]
    exact calm.connects
  late := log ▸ calm.late

theorem Calm.emit (calm : Calm spare s) (n : Notice) (other : n ≠ .error ∧ n ≠ .connect)
    (timely : s.stopped = false ∨ n.harmless = true) : Calm spare (s.emit n) where
  errors := by simpa [Lifecycle.errors, Lifecycle.emit, other.1] using calm.errors
  silent := by simpa [Lifecycle.errors, Lifecycle.emit, other.1] using calm.silent
  connects := by
    simpa [Lifecycle.connects, Lifecycle.emit, other.2, Lifecycle.opening] using calm.connects
  late := by
    intro m member
    rcases List.mem_append.mp member with old | young
    · exact calm.late m old
    · obtain rfl := List.mem_singleton.mp young
      intro (stopped : s.stopped = true)
      exact timely.resolve_left (by simp [stopped])

theorem Calm.stop (calm : Calm spare s) : Calm spare s.stop := by
  unfold Lifecycle.stop
  split
  · exact calm
  · exact ⟨calm.errors, nofun, by simpa [Lifecycle.opening, Lifecycle.connects] using calm.connects,
      calm.late⟩

theorem Calm.report (calm : Calm spare s) {react : Lifecycle → Option Lifecycle}
    (still : ∀ u, react u = some u) (made : s.callErrorCb react = some t) : Calm spare t.stop := by
  unfold callErrorCb at made
  split at made
  · obtain rfl := Option.some.inj made
    exact calm.stop
  rename_i running
  split at made
  · obtain rfl := Option.some.inj made
    exact calm.stop
  rw [still] at made
  obtain rfl := Option.some.inj made
  have running := Bool.eq_false_of_not_eq_true running
  have silent := calm.silent running
  have told : (s.emit .error).errors = 1 := by
    simp only [Lifecycle.errors, Lifecycle.emit, List.countP_append, List.countP_singleton,
      decide_true, ↓reduceIte] at silent ⊢
    omega
  have stopping : (s.emit .error).stop =
      { s.emit .error with io := (s.io.cancel .deadline).cancel .ping, stopped := true } := by
    unfold Lifecycle.stop
    exact if_neg (by simp [Lifecycle.emit, running])
  rw [stopping]
  refine ⟨le_of_eq told, by simp, ?_, ?_⟩
  · simpa [Lifecycle.connects, Lifecycle.emit, Lifecycle.opening] using calm.connects
  · intro m member
    rcases List.mem_append.mp member with old | young
    · exact calm.late m old
    · obtain rfl := List.mem_singleton.mp young
      simp [running]

theorem Calm.useSession (calm : Calm spare s) : Calm spare s.useSession := by
  unfold Lifecycle.useSession
  split
  · exact calm
  · exact calm.emit .noSession (by simp) (.inr rfl)

theorem Calm.enterCallback (calm : Calm spare s) : Calm spare s.enterCallback := by
  unfold Lifecycle.enterCallback
  split
  · exact (calm.emit .assertion (by simp) (.inr rfl)).frame rfl rfl rfl
  · exact calm.frame rfl rfl rfl

theorem Calm.leaveCallback (calm : Calm spare s) : Calm spare s.leaveCallback := by
  unfold Lifecycle.leaveCallback
  split
  · exact calm.frame rfl rfl rfl
  · exact (calm.emit .assertion (by simp) (.inr rfl)).frame rfl rfl rfl

theorem Calm.shouldStop (calm : Calm spare s) (drained : Bool) :
    Calm spare (s.shouldStop drained).2 := by
  unfold Lifecycle.shouldStop
  split
  · exact calm
  · exact calm.useSession

theorem Calm.startPing (calm : Calm spare s) (running : s.stopped = false) :
    Calm spare s.startPing :=
  (calm.emit (.waits .ping) (by simp) (.inl running)).frame rfl rfl
    (by simp [Lifecycle.opening, Lifecycle.startPing, Lifecycle.wait, Lifecycle.emit])

theorem Calm.doRead (calm : Calm spare s) : Calm spare s.doRead := by
  unfold Lifecycle.doRead
  split
  · exact calm
  · rename_i running
    refine (calm.emit (.started .read) (by simp) (.inl (by simpa using running))).frame rfl rfl ?_
    simp [Lifecycle.opening, Lifecycle.start, Lifecycle.resetDeadline, Lifecycle.emit]

theorem Calm.onEvent (calm : Calm spare s) (app : App) (e : Event)
    (timely : s.stopped = false ∨ closesLast app s.streams e = false) :
    Calm spare (s.onEvent app e) ∧ (s.onEvent app e).stopped = s.stopped := by
  obtain ⟨streams, known, _, _, same⟩ | ⟨streams, last, same⟩ | ⟨streams, _, _, same⟩ :=
    onEvent_cases app s e
  · rw [same]
    exact ⟨calm.frame rfl rfl (by simp [Lifecycle.opening]), rfl⟩
  · rw [same]
    have running := timely.resolve_right (by simp [last])
    have next : Calm spare { s with streams := streams } := calm.frame rfl rfl rfl
    exact ⟨next.startPing running, rfl⟩
  · rw [same]
    exact ⟨calm.frame rfl rfl rfl, rfl⟩

end Frame

section Flushes
variable {env : Env} {spare : Nat} {s t : Lifecycle}

theorem call_same {inetPton : InetPton} {c : Call} (made : s.call inetPton some c = some t) :
    t.stopped = s.stopped ∧ t.out.len = s.out.len := by
  cases c with
  | submit method uri h answer sendable =>
    simp only [call, submit] at made
    split at made
    · obtain rfl := Option.some.inj made
      exact ⟨rfl, rfl⟩
    split at made
    · obtain rfl := Option.some.inj made
      exact ⟨rfl, rfl⟩
    split at made
    · obtain rfl := Option.some.inj made
      exact ⟨useSession_stopped s, by simp [emit]⟩
    · obtain ⟨u, signaled, rfl⟩ := Option.map_eq_some_iff.mp made
      obtain rfl := Option.some.inj signaled
      exact ⟨useSession_stopped s, by simp [emit, register, setSendable]⟩
  | shutdown | cancel | resume | writeTrailer =>
    simp only [call] at made
    split_ifs at made <;> obtain rfl := Option.some.inj made <;> simp [setSendable]

theorem inner_same {i : Inner} (made : s.inner env i = some t) :
    t.stopped = s.stopped ∧ t.out.len = s.out.len := by
  cases i with
  | call c => exact call_same made
  | recv e =>
    obtain rfl := Option.some.inj made
    obtain ⟨_, _, _, _, same⟩ | ⟨_, _, same⟩ | ⟨_, _, _, same⟩ := onEvent_cases env.app s e
    all_goals
      rw [same]
      exact ⟨rfl, rfl⟩

theorem asking_stopped (s : Lifecycle) : s.asking.stopped = s.stopped := by
  rw [asking, useSession_stopped]
  unfold enterCallback
  split <;> rfl

theorem loop_running {asked : List (Asked Inner UInt8 bufferSize)} {failed : Bool}
    (running : s.stopped = false) (done : loop (inner env) out putOut asked s = some (failed, t)) :
    t.stopped = false := by
  refine loop_preserves (fun u : Lifecycle => u.stopped = false) ?_ asked ?_ running done
  · exact fun _ _ => id
  · intro a u i v _ _ running made
    exact (inner_same made).1.trans running

theorem doWrite_running {f : Flush} (running : s.stopped = false)
    (goes : s.writing = false → ¬ f.Stops) (made : s.doWrite env f = some t) :
    t.stopped = false := by
  have asked := asking_stopped s
  rw [running] at asked
  cases doWrite_flushed made with
  | away => exact running
  | failed _ free looped => exact absurd (.inl (loop_failed f.sends looped)) (goes free)
  | wrote _ free looped => simpa [start, resetDeadline, emit] using loop_running asked looped
  | nothing _ free looped empty =>
    split
    · rename_i stops
      refine absurd (.inr ⟨?_, ?_⟩) (goes free)
      · unfold shouldStop at stops
        split at stops
        · contradiction
        · exact stops
      · exact (loop_level (fun _ _ => rfl) (fun made => (inner_same made).2) f.sends looped).2 rfl
          empty
    · simpa using loop_running asked looped

theorem loop_calm {asked : List (Asked Inner UInt8 bufferSize)} {failed : Bool}
    (still : ∀ a ∈ asked, ∀ i ∈ a.inner, i.isCall = false) (calm : Calm spare s)
    (running : s.stopped = false) (done : loop (inner env) out putOut asked s = some (failed, t)) :
    Calm spare t := by
  refine (loop_preserves (fun u => Calm spare u ∧ u.stopped = false) ?_ asked ?_
    ⟨calm, running⟩ done).1
  · intro u b ready
    exact ⟨ready.1.frame rfl rfl rfl, ready.2⟩
  · intro a u i v asked member ready made
    cases i with
    | call c => exact absurd (still a asked _ member) (by simp [Inner.isCall])
    | recv e =>
      obtain rfl := Option.some.inj made
      obtain ⟨next, same⟩ := ready.1.onEvent env.app e (.inl ready.2)
      exact ⟨next, same.trans ready.2⟩

theorem Calm.doWrite {f : Flush} (calm : Calm spare s) (still : f.Still)
    (made : s.doWrite env f = some t) : Calm spare t := by
  have asking : Calm spare s.asking :=
    (calm.frame (t := s.putOut s.out.refill) rfl rfl rfl).enterCallback.useSession
  have asked := asking_stopped s
  cases doWrite_flushed made with
  | away => exact calm
  | failed running _ looped reported =>
    rw [running] at asked
    have sent := loop_calm still.inner asking asked looped
    refine (sent.report ?_ reported).leaveCallback
    intro u
    rw [still.onError]
    rfl
  | nothing running _ looped =>
    rw [running] at asked
    have sent := (loop_calm still.inner asking asked looped).leaveCallback.shouldStop f.drained
    split
    · exact sent.stop
    · exact sent
  | wrote running _ looped =>
    rw [running] at asked
    have sent := (loop_calm still.inner asking asked looped).leaveCallback
    have timely := loop_running asked looped
    refine (sent.emit (.started .write) (by simp) (.inl (by simpa using timely))).frame rfl rfl ?_
    simp [Lifecycle.opening, start, resetDeadline, Lifecycle.emit]

theorem Calm.signalWrite {f : Flush} (calm : Calm spare s) (still : f.Still)
    (made : s.signalWrite env f = some t) : Calm spare t := by
  unfold Lifecycle.signalWrite at made
  split at made
  · obtain rfl := Option.some.inj made
    exact calm
  · exact calm.doWrite still made

theorem Calm.call {f : Flush} {c : Call} (calm : Calm spare s) (still : f.Still)
    (made : s.call env.inetPton (Lifecycle.signalWrite env f) c = some t) : Calm spare t := by
  have used {sendable : Bool} {u : Lifecycle}
      (made : (s.useSession.setSendable sendable).signalWrite env f = some u) : Calm spare u := by
    have asked : Calm spare (s.useSession.setSendable sendable) := calm.useSession.frame rfl rfl rfl
    exact asked.signalWrite still made
  cases c with
  | submit method uri h answer sendable =>
    simp only [Lifecycle.call, submit] at made
    split at made
    · obtain rfl := Option.some.inj made
      exact calm.emit _ (by simp) (.inr rfl)
    split at made
    · obtain rfl := Option.some.inj made
      exact calm.emit _ (by simp) (.inr rfl)
    rename_i url _
    split at made
    · obtain rfl := Option.some.inj made
      exact calm.useSession.emit _ (by simp) (.inr rfl)
    · obtain ⟨u, signaled, rfl⟩ := Option.map_eq_some_iff.mp made
      have registered : Calm spare (register env.inetPton url uri h answer u) :=
        (used signaled).frame rfl rfl (by simp [Lifecycle.opening, register])
      exact registered.emit _ (by simp) (.inr rfl)
  | shutdown sendable =>
    simp only [Lifecycle.call] at made
    split at made
    · obtain rfl := Option.some.inj made
      exact calm
    · exact used made
  | cancel id sendable | resume id sendable =>
    simp only [Lifecycle.call] at made
    split_ifs at made
    · obtain rfl := Option.some.inj made
      exact calm
    · exact used made
  | writeTrailer id answer sendable =>
    simp only [Lifecycle.call] at made
    split_ifs at made
    · obtain rfl := Option.some.inj made
      exact calm.useSession
    · exact used made

end Flushes

/-! The steps after which a session is not quiescent. -/

def empties (app : App) : Streams → List Inner → Bool
  | _, [] => false
  | streams, .recv e :: rest =>
    closesLast app streams e || empties app (Client.step app streams (.recv e)).1 rest
  | streams, .call _ :: rest => empties app streams rest

/-- The steps of a session that reports once and then rests. A name is resolved before the
    session stops; the session is made and its first flush does not stop it; after `stop` no
    bytes are read that close the last stream; and the flush of a PING does not stop the
    session. -/
def Orderly (env : Env) (s : Lifecycle) : Action → Prop
  | .run k a =>
    match s.io.queue[k]? with
    | some (.done .resolve false) => s.stopped = false
    | some (.done .connect false) =>
      s.stopped = false → s.tls = false → a.setup = true ∧ ¬ a.flush.Stops
    | some (.done .handshake false) =>
      s.stopped = false → a.negotiated = true → a.setup = true ∧ ¬ a.flush.Stops
    | some (.done .read false) => s.stopped = true → empties env.app s.streams a.recv = false
    | some (.timer .ping false) =>
      s.stopped = false → s.streams.isEmpty = true → s.writing = false → ¬ a.flush.Stops
    | _ => True
  | _ => True

def Action.Still : Action → Prop
  | .run _ a => a.Still
  | .call _ f => f.Still
  | _ => True

section Handlers
variable {env : Env} {a : Answers} {s t : Lifecycle}

theorem onEvent_streams (app : App) (s : Lifecycle) (e : Event) :
    (s.onEvent app e).streams = (Client.step app s.streams (.recv e)).1 := by
  unfold onEvent
  split
  · rfl
  · simp only
    split <;> rfl
  · rfl

theorem recv_calm {recv : List Inner} (still : ∀ i ∈ recv, i.isCall = false) (calm : Calm 0 s)
    (timely : s.stopped = false ∨ empties env.app s.streams recv = false)
    (done : recv.foldlM (inner env) s = some t) : Calm 0 t ∧ t.stopped = s.stopped := by
  induction recv generalizing s with
  | nil =>
    obtain rfl := Option.some.inj done
    exact ⟨calm, rfl⟩
  | cons i rest ih =>
    cases i with
    | call c => exact absurd (still (.call c) (by simp)) (by simp [Inner.isCall])
    | recv e =>
      rw [List.foldlM_cons] at done
      obtain ⟨u, first, done⟩ := Option.bind_eq_some_iff.mp done
      obtain rfl := Option.some.inj first
      simp only [empties, Bool.or_eq_false_iff] at timely
      obtain ⟨next, same⟩ := calm.onEvent env.app e (timely.imp id And.left)
      obtain ⟨last, unchanged⟩ := ih (fun i member => still i (by simp [member])) next
        (timely.imp same.trans (fun both => by rw [onEvent_streams]; exact both.2)) done
      exact ⟨last, unchanged.trans same⟩

theorem react_still (env : Env) {calls : List (Call × Flush)} (none : calls = []) (s : Lifecycle) :
    s.react env calls = some s := by
  rw [none]
  rfl

theorem Calm.notConnected {spare : Nat} (calm : Calm spare s) (still : a.Still)
    (made : s.notConnected env a = some t) : Calm spare t := by
  obtain ⟨u, told, rfl⟩ := Option.map_eq_some_iff.mp made
  exact calm.report (react_still env still.onError) told

theorem Calm.weaken (calm : Calm 1 s) : Calm 0 s :=
  { calm with connects := by have := calm.connects; omega }

theorem Calm.connect (calm : Calm 1 s) (running : s.stopped = false) :
    Calm 0 (s.emit .connect) where
  errors := by simpa [Lifecycle.errors, Lifecycle.emit] using calm.errors
  silent := by simpa [Lifecycle.errors, Lifecycle.emit] using calm.silent
  connects := by
    have room := calm.connects
    simp only [Lifecycle.connects, Lifecycle.emit, List.countP_append, List.countP_singleton,
      decide_true, ↓reduceIte, Lifecycle.opening] at room ⊢
    omega
  late := by
    intro m member
    rcases List.mem_append.mp member with old | young
    · exact calm.late m old
    · obtain rfl := List.mem_singleton.mp young
      simp [running]

theorem Calm.next (calm : Calm 1 s) (running : s.stopped = false) {op : Operation}
    (opens : op = .connect ∨ op = .handshake) : Calm 0 (s.start op) := by
  have begun := calm.emit (.started op) (by simp) (.inl running)
  have room := calm.connects
  refine ⟨begun.errors, begun.silent, ?_, begun.late⟩
  have same : (s.start op).connects = s.connects := by
    simp [Lifecycle.connects, Lifecycle.start, Lifecycle.emit]
  rw [same]
  simp only [Lifecycle.opening, Lifecycle.start, Loop.inflight_start] at room ⊢
  rcases opens with rfl | rfl <;> simp <;> omega

theorem Calm.connected (calm : Calm 1 s) (running : s.stopped = false) (still : a.Still)
    (setup : a.setup = true) (goes : ¬ a.flush.Stops) (made : s.connected env a = some t) :
    Calm 0 t := by
  unfold Lifecycle.connected at made
  simp only [setup, Bool.not_true, Bool.false_eq_true, ↓reduceIte] at made
  obtain ⟨u, flushed, made⟩ := Option.bind_eq_some_iff.mp made
  have ready : Calm 1 ({ s with session := true }.setSendable a.sendable) :=
    calm.frame rfl rfl rfl
  have wrote := ready.doWrite still.flush flushed
  have begins : ({ s with session := true }.setSendable a.sendable).stopped = false := running
  have goes_on : u.stopped = false := doWrite_running begins (fun _ => goes) flushed
  have reads : u.doRead.stopped = false := by
    unfold Lifecycle.doRead
    split <;> exact goes_on
  have pings := wrote.doRead.startPing reads
  split at made
  · obtain rfl := Option.some.inj made
    exact pings.connect reads
  · obtain rfl := Option.some.inj made
    exact pings.weaken

theorem Calm.onRead {failed : Bool} (calm : Calm 0 s) (still : a.Still)
    (timely : failed = false → s.stopped = true → empties env.app s.streams a.recv = false)
    (made : s.onRead env a failed = some t) : Calm 0 t := by
  unfold Lifecycle.onRead at made
  split at made
  · have asked := calm.shouldStop a.drained
    simp only at made
    split at made
    · obtain rfl := Option.some.inj made
      exact asked.stop
    · obtain ⟨u, told, made⟩ := Option.bind_eq_some_iff.mp made
      obtain rfl := Option.some.inj made
      exact asked.report (react_still env still.onError) told
  · rename_i fine
    have timely := timely (by simpa using fine)
    have entered : s.enterCallback.useSession.stopped = s.stopped ∧
        s.enterCallback.useSession.streams = s.streams := by
      unfold Lifecycle.enterCallback Lifecycle.useSession
      split_ifs <;> exact ⟨rfl, rfl⟩
    obtain ⟨u, received, made⟩ := Option.bind_eq_some_iff.mp made
    have timely : s.enterCallback.useSession.stopped = false ∨
        empties env.app s.enterCallback.useSession.streams a.recv = false := by
      rw [entered.1, entered.2]
      cases stopped : s.stopped with
      | false => exact .inl rfl
      | true => exact .inr (timely stopped)
    obtain ⟨next, _⟩ := recv_calm still.recv calm.enterCallback.useSession timely received
    have next : Calm 0 (u.setSendable a.sendable) := next.frame rfl rfl rfl
    simp only at made
    split at made
    · obtain ⟨v, told, made⟩ := Option.bind_eq_some_iff.mp made
      obtain rfl := Option.some.inj made
      exact (next.report (react_still env still.onError) told).leaveCallback
    · obtain ⟨v, flushed, made⟩ := Option.bind_eq_some_iff.mp made
      have wrote := (next.leaveCallback.doWrite still.flush flushed).shouldStop a.drained
      split at made
      · obtain rfl := Option.some.inj made
        exact wrote.stop
      · obtain rfl := Option.some.inj made
        exact wrote.doRead

theorem Calm.onWrite {failed : Bool} (calm : Calm 0 s) (still : a.Still)
    (made : s.onWrite env a failed = some t) : Calm 0 t := by
  unfold Lifecycle.onWrite at made
  split at made
  · exact calm.notConnected still made
  · have idle : Calm 0 { s with out := { s.out with len := 0 }, writing := false } :=
      calm.frame rfl rfl rfl
    exact idle.doWrite still.flush made

theorem Calm.handleDeadline (calm : Calm 0 s) (still : a.Still)
    (made : s.handleDeadline env a = some t) : Calm 0 t := by
  unfold Lifecycle.handleDeadline at made
  split at made
  · obtain rfl := Option.some.inj made
    exact calm
  rename_i running
  split at made
  · obtain ⟨u, told, made⟩ := Option.bind_eq_some_iff.mp made
    obtain rfl := Option.some.inj made
    exact (calm.report (react_still env still.onError) told).frame rfl rfl
      (by simp [Lifecycle.opening])
  · obtain rfl := Option.some.inj made
    exact (calm.emit (.waits .deadline) (by simp) (.inl (by simpa using running))).frame rfl rfl
      (by simp [Lifecycle.opening, Lifecycle.wait, Lifecycle.emit])

theorem Calm.handlePing {aborted : Bool} (calm : Calm 0 s) (still : a.Still)
    (goes : aborted = false → s.stopped = false → s.streams.isEmpty = true → s.writing = false →
      ¬ a.flush.Stops) (made : s.handlePing env a aborted = some t) : Calm 0 t := by
  unfold Lifecycle.handlePing at made
  split at made
  · obtain rfl := Option.some.inj made
    exact calm
  rename_i due
  simp only [Bool.not_eq_true, Bool.or_eq_false_iff, Bool.not_eq_false'] at due
  obtain ⟨⟨running, timely⟩, empty⟩ := due
  have goes := goes timely running empty
  obtain ⟨u, flushed, made⟩ := Option.bind_eq_some_iff.mp made
  obtain rfl := Option.some.inj made
  let asked := (s.useSession.emit (.ping s.streams.isEmpty)).setSendable a.sendable
  change asked.signalWrite env a.flush = some u at flushed
  have pinged : Calm 0 asked :=
    (calm.useSession.emit _ (by simp) (.inr rfl)).frame rfl rfl rfl
  have begins : asked.stopped = false := (useSession_stopped s).trans running
  have free : asked.writing = s.writing := useSession_writing s
  refine (pinged.signalWrite still.flush flushed).startPing ?_
  unfold Lifecycle.signalWrite at flushed
  split at flushed
  · exact Option.some.inj flushed ▸ begins
  · exact doWrite_running begins (free ▸ goes) flushed

def opens : Ready Clock Operation Empty → Bool
  | .done .resolve _ | .done .connect _ | .done .handshake _ => true
  | _ => false

section Take
variable {k : Nat} {h : Ready Clock Operation Empty} {io : Loop Clock Operation Empty}

theorem opening_take (taken : s.io.take k = some (h, io)) :
    s.opening = { s with io := io }.opening + if opens h then 1 else 0 := by
  have resolves := Loop.inflight_take taken .resolve
  have connecting := Loop.inflight_take taken .connect
  have handshakes := Loop.inflight_take taken .handshake
  simp only [opening]
  rcases h with ⟨_ | _ | _ | _ | _, failed⟩ | ⟨t, aborted⟩ | none
  case task => exact none.elim
  all_goals
    simp only [opens, Ready.isDone, decide_true, reduceCtorEq, decide_false, Bool.false_eq_true,
      ↓reduceIte] at resolves connecting handshakes ⊢
    omega

theorem Calm.taken (calm : Calm 0 s) (taken : s.io.take k = some (h, io)) :
    Calm (if opens h then 1 else 0) { s with io := io } where
  errors := calm.errors
  silent := calm.silent
  connects := by
    have room := calm.connects
    rw [opening_take taken, Nat.add_zero, ← Nat.add_assoc] at room
    exact room
  late := calm.late

theorem Calm.take (calm : Calm 0 s) (still : a.Still) (orderly : Orderly env s (.run k a))
    (taken : s.io.take k = some (h, io)) (made : { s with io := io }.handle env a h = some t) :
    Calm 0 t := by
  have found : s.io.queue[k]? = some h := by
    obtain ⟨g, found, same⟩ := Option.map_eq_some_iff.mp taken
    rw [found, (Prod.mk.inj same).1]
  have calm := calm.taken taken
  simp only [Orderly, found] at orderly
  cases h with
  | done op failed =>
    cases op with
    | resolve =>
      simp only [handle] at made
      split at made
      · exact (calm.notConnected still made).weaken
      · rename_i fine
        obtain rfl := Option.some.inj made
        simp only [Bool.eq_false_of_not_eq_true fine] at orderly
        exact calm.next orderly (.inl rfl)
    | connect =>
      simp only [handle] at made
      split_ifs at made with stopped failed tls
      · obtain rfl := Option.some.inj made
        exact calm.weaken
      · exact (calm.notConnected still made).weaken
      · obtain rfl := Option.some.inj made
        exact calm.next (Bool.eq_false_of_not_eq_true stopped) (.inr rfl)
      · have running := Bool.eq_false_of_not_eq_true stopped
        simp only [Bool.eq_false_of_not_eq_true failed] at orderly
        obtain ⟨setup, goes⟩ := orderly running (Bool.eq_false_of_not_eq_true tls)
        exact calm.connected running still setup goes made
    | handshake =>
      simp only [handle] at made
      split_ifs at made with stopped failed refused
      · obtain rfl := Option.some.inj made
        exact calm.weaken
      · exact (calm.notConnected still made).weaken
      · exact (calm.notConnected still made).weaken
      · have running := Bool.eq_false_of_not_eq_true stopped
        simp only [Bool.eq_false_of_not_eq_true failed] at orderly
        obtain ⟨setup, goes⟩ := orderly running (by simpa using refused)
        exact calm.connected running still setup goes made
    | read =>
      refine calm.onRead still ?_ made
      rintro rfl
      exact orderly
    | write => exact calm.onWrite still made
  | timer clock aborted =>
    cases clock with
    | deadline => exact calm.handleDeadline still made
    | ping =>
      refine calm.handlePing still ?_ made
      rintro rfl
      exact orderly
  | task none => exact none.elim

end Take

theorem Calm.step {act : Action} (calm : Calm 0 s) (still : act.Still) (orderly : Orderly env s act)
    (made : s.step env act = some t) : Calm 0 t := by
  cases act with
  | elapse d =>
    obtain rfl := Option.some.inj made
    exact calm.frame rfl rfl rfl
  | complete op failed =>
    obtain ⟨io, completed, rfl⟩ := Option.map_eq_some_iff.mp made
    exact calm.frame rfl rfl (by simp [Lifecycle.opening, Loop.inflight_complete completed])
  | fire clock =>
    obtain ⟨io, fired, rfl⟩ := Option.map_eq_some_iff.mp made
    exact calm.frame rfl rfl (by simp [Lifecycle.opening, Loop.inflight_fire fired])
  | run k a =>
    obtain ⟨⟨h, io⟩, taken, made⟩ := Option.bind_eq_some_iff.mp made
    exact calm.take still orderly taken made
  | call c f => exact calm.call still made
  | setCallbacks connectCb errorCb =>
    obtain rfl := Option.some.inj made
    exact calm.frame rfl rfl rfl
  | setReadTimeout timeout =>
    obtain rfl := Option.some.inj made
    exact calm.frame rfl rfl rfl

end Handlers

theorem calm_started (tls : Bool) (now : Int) (connectTimeout : Option Int) :
    Calm 0 (started tls now connectTimeout) where
  errors := by simp [errors, started, startResolve, wait, start, new, emit]
  silent := by simp [errors, started, startResolve, wait, start, new, emit]
  connects := by simp [connects, opening, started, startResolve, wait, start, new, emit]
  late := by simp [started, startResolve, wait, start, new, emit]

/-- In a run of orderly steps, with an application that does not call back into the session,
    `on_error` and `on_connect` are called at most once and nothing new is started after
    `stop`. -/
theorem session_quiesces {env : Env} {tls : Bool} {now : Int} {connectTimeout : Option Int}
    {actions : List Action} (still : ∀ a ∈ actions, a.Still)
    (orderly : ∀ before a after s, actions = before ++ a :: after →
      (started tls now connectTimeout).run env before = some s → Orderly env s a) :
    ∀ before after s, actions = before ++ after →
      (started tls now connectTimeout).run env before = some s → Quiescent s := by
  intro before after s split reached
  have calm : Calm 0 s := by
    refine Trace.foldlM_along (Calm 0) (fun u a => a.Still ∧ Orderly env u a)
      (fun calm both => calm.step both.1 both.2) (calm_started tls now connectTimeout) before
      reached ?_
    intro early a late u inner ran
    exact ⟨still a (by simp [split, inner]),
      orderly early a (late ++ after) u (by simp [split, inner]) ran⟩
  exact calm.quiescent

theorem fine_still : fine.Still := by
  refine ⟨?_, ⟨?_, rfl⟩, rfl⟩ <;> simp [fine, flushByte]

theorem fine_orderly {env : Env} {s : Lifecycle} {k : Nat}
    (timely : s.stopped = false ∨ Ready.done .resolve false ∉ s.io.queue) :
    Orderly env s (.run k fine) := by
  have goes : ¬ fine.flush.Stops := by simp [Flush.Stops, fine, flushByte]
  simp only [Orderly]
  split
  · rename_i resolved
    exact timely.resolve_right (fun absent => absent (List.mem_of_getElem? resolved))
  · exact fun _ _ => ⟨rfl, goes⟩
  · exact fun _ _ => ⟨rfl, goes⟩
  · exact fun _ => rfl
  · exact fun _ _ _ => goes
  · trivial

/-- A read fails while a write is in flight; the handlers of both timers and of the write are
    still to come when the session has stopped. -/
def failedRead : List Action :=
  [.setCallbacks true true, .complete .resolve false, .run 0 fine, .complete .connect false,
    .run 0 fine, .complete .read true, .run 1 fine, .complete .write false, .run 0 fine,
    .run 0 fine, .run 0 fine]

theorem failed_read_quiesces : ∃ s, (started false 0 (some 10)).run idleEnv failedRead = some s ∧
    s.connects = 1 ∧ s.errors = 1 ∧ s.stopped = true ∧ s.io.queue = [] ∧ Quiescent s := by
  have known : ((started false 0 (some 10)).run idleEnv failedRead).any (fun s =>
      s.connects = 1 && s.errors = 1 && s.stopped && s.io.queue.isEmpty) = true := by decide +kernel
  obtain ⟨s, ran, facts⟩ := (Option.any_eq_true _ _).mp known
  simp only [Bool.and_eq_true, decide_eq_true_eq, List.isEmpty_iff] at facts
  obtain ⟨⟨⟨connected, reported⟩, stopped⟩, drained⟩ := facts
  refine ⟨s, ran, connected, reported, stopped, drained, ?_⟩
  have still : ∀ a ∈ failedRead, a.Still := by
    intro a member
    simp only [failedRead, List.mem_cons, List.not_mem_nil, or_false] at member
    rcases member with rfl | rfl | rfl | rfl | rfl | rfl | rfl | rfl | rfl | rfl | rfl <;>
      first | exact fine_still | trivial
  have timely : ∀ before a after u, failedRead = before ++ a :: after →
      (started false 0 (some 10)).run idleEnv before = some u →
        u.stopped = false ∨ Ready.done .resolve false ∉ u.io.queue :=
    Trace.foldlM_checked (by decide +kernel)
  have orderly : ∀ before a after u, failedRead = before ++ a :: after →
      (started false 0 (some 10)).run idleEnv before = some u → Orderly idleEnv u a := by
    intro before a after u split reached
    have member : a ∈ failedRead := by simp [split]
    have met := timely before a after u split reached
    simp only [failedRead, List.mem_cons, List.not_mem_nil, or_false] at member
    rcases member with rfl | rfl | rfl | rfl | rfl | rfl | rfl | rfl | rfl | rfl | rfl <;>
      first | exact fine_orderly met | trivial
  exact session_quiesces still orderly failedRead [] s (by simp) ran

/-- `nghttp2_session_client_new` fails after the connection was made; later the deadline
    expires. -/
def failedSetup : List Action :=
  [.setCallbacks true true, .complete .resolve false, .run 0 fine, .complete .connect false,
    .run 0 { fine with setup := false }, .elapse 10, .fire .deadline, .run 0 fine]

theorem failed_setup_reports_twice : (∀ a ∈ failedSetup, a.Still) ∧
    ∃ s, (started false 0 (some 10)).run idleEnv failedSetup = some s ∧ ¬ Quiescent s := by
  refine ⟨?_, ?_⟩
  · intro a member
    simp only [failedSetup, List.mem_cons, List.not_mem_nil, or_false] at member
    rcases member with rfl | rfl | rfl | rfl | rfl | rfl | rfl | rfl <;>
      first | trivial | exact fine_still | exact { fine_still with }
  · have twice : ((started false 0 (some 10)).run idleEnv failedSetup).any
        (fun s => s.errors = 2) = true := by decide +kernel
    obtain ⟨s, ran, two⟩ := (Option.any_eq_true _ _).mp twice
    refine ⟨s, ran, fun quiescent => ?_⟩
    have once := quiescent.errors
    simp only [decide_eq_true_eq] at two
    omega

end Lifecycle

end Nghttp2Asio.Client
