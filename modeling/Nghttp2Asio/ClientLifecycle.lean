import Nghttp2Asio.Library.EventLoop
import Nghttp2Asio.Library.SendLoop
import Nghttp2Asio.ClientSession
import Nghttp2Asio.Submit
import Nghttp2Asio.Writers

/-!
A client `session_impl` with its timers, operations and completion handlers, from
`start_resolve` on (asio_client_session_impl.cc, asio_client_session_tcp_impl.cc,
asio_client_session_tls_impl.cc). Handlers run one at a time and in any order; what nghttp2,
the application and the network answer is part of each action. An answer nghttp2 cannot
give, or a call on a stream nobody has, has no result.
-/
namespace Nghttp2Asio.Client
open EventLoop SendLoop Util UrlParser

inductive Clock where
  | deadline | ping
  deriving DecidableEq

inductive Operation where
  | resolve | connect | handshake | read | write
  deriving DecidableEq

/-- The `ec` of a call that fails: a value of nghttp2, or `errc::invalid_argument`. -/
inductive ErrorCode where
  | nghttp2 (value : Int)
  | invalidArgument
  deriving DecidableEq

/-- What an observer sees of a session: its two callbacks, the operations and waits it
    starts, the PINGs it submits (`idle` when there is no stream), an nghttp2 function called
    without a session, an assertion that fails, and how a `submit` ends: with the stream of
    its request, or with nullptr and `ec`. -/
inductive Notice where
  | connect
  | error
  | started (op : Operation)
  | waits (t : Clock)
  | ping (idle : Bool)
  | noSession
  | assertion
  | submitted (result : Except ErrorCode Int)
  deriving DecidableEq

/-- `known` are the streams the application may hold a reference to. Each entry of the log
    says whether the session was stopped then. -/
structure Lifecycle where
  io : Loop Clock Operation Empty
  tls : Bool
  readTimeout : Option Int
  connectCb : Bool
  errorCb : Bool
  session : Bool
  streams : Streams
  out : Outbuf UInt8 bufferSize
  writing : Bool
  insideCallback : Bool
  stopped : Bool
  known : List Int
  log : List (Bool × Notice)

/-- The public calls on a session and on the requests of its streams. `answer` is what
    nghttp2 returns and `sendable` whether it has output to send then. -/
inductive Call where
  | submit (method uri : Bytes) (h : HeaderMap) (answer : Int) (sendable : Bool)
  | shutdown (sendable : Bool)
  | cancel (streamId : Int) (sendable : Bool)
  | resume (streamId : Int) (sendable : Bool)
  | writeTrailer (streamId : Int) (answer : Int) (sendable : Bool)

/-- What happens inside nghttp2: one of its callbacks, or a call the application makes from
    one of its own. -/
inductive Inner where
  | recv (e : Event)
  | call (c : Call)

structure Flush where
  sends : List (Asked Inner UInt8 bufferSize)
  onError : List Call
  drained : Bool

structure Env where
  app : App
  inetPton : InetPton

namespace Lifecycle

def emit (s : Lifecycle) (n : Notice) : Lifecycle := { s with log := s.log ++ [(s.stopped, n)] }

def start (s : Lifecycle) (op : Operation) : Lifecycle :=
  { s.emit (.started op) with io := s.io.start op }

def wait (s : Lifecycle) (t : Clock) : Lifecycle := { s.emit (.waits t) with io := s.io.wait t }

def useSession (s : Lifecycle) : Lifecycle := if s.session then s else s.emit .noSession

def setSendable (s : Lifecycle) (sendable : Bool) : Lifecycle :=
  { s with out := { s.out with sendable := sendable } }

def putOut (s : Lifecycle) (out : Outbuf UInt8 bufferSize) : Lifecycle := { s with out := out }

def resetDeadline (s : Lifecycle) : Lifecycle :=
  { s with io := s.io.expiresFromNow .deadline s.readTimeout }

def startPing (s : Lifecycle) : Lifecycle :=
  { s with io := s.io.expiresFromNow .ping (some 30) }.wait .ping

/-- Operations on the socket that is closed here still complete. -/
def stop (s : Lifecycle) : Lifecycle :=
  if s.stopped then s
  else { s with io := (s.io.cancel .deadline).cancel .ping, stopped := true }

def enterCallback (s : Lifecycle) : Lifecycle :=
  { (if s.insideCallback then s.emit .assertion else s) with insideCallback := true }

def leaveCallback (s : Lifecycle) : Lifecycle :=
  { (if s.insideCallback then s else s.emit .assertion) with insideCallback := false }

def shouldStop (s : Lifecycle) (drained : Bool) : Bool × Lifecycle :=
  if s.writing then (false, s) else (drained, s.useSession)

def callErrorCb (react : Lifecycle → Option Lifecycle) (s : Lifecycle) : Option Lifecycle :=
  if s.stopped then some s
  else if !s.errorCb then some s
  else react (s.emit .error)

def onEvent (app : App) (s : Lifecycle) (e : Event) : Lifecycle :=
  let next := (Client.step app s.streams (.recv e)).1
  match e with
  | .beginHeaders (.pushPromise _ promised) =>
    { s with streams := next, io := s.io.cancel .ping, known := promised :: s.known }
  | .streamClose id _ =>
    if (findStream s.streams id).isSome && next.isEmpty then { s with streams := next }.startPing
    else { s with streams := next }
  | _ => { s with streams := next }

def register (inetPton : InetPton) (u : HttpParserUrl) (uri : Bytes) (h : HeaderMap) (id : Int)
    (s : Lifecycle) : Lifecycle :=
  { s with
    streams := s.streams.insertIfNew id (.new (submitRequest (submitUri inetPton u uri) h))
    io := s.io.cancel .ping
    known := id :: s.known }

def submitUrl (uri : Bytes) : Option HttpParserUrl := do
  let u ← httpParserParseUrl uri false
  if !u.fieldSet .schema || !u.fieldSet .host then none else some u

/-- `signal` is `signal_write`. -/
def submit (inetPton : InetPton) (signal : Lifecycle → Option Lifecycle) (uri : Bytes)
    (h : HeaderMap) (answer : Int) (sendable : Bool) (s : Lifecycle) : Option Lifecycle :=
  if s.stopped then some (s.emit (.submitted (.error (.nghttp2 internalError.toNat))))
  else
    match submitUrl uri with
    | none => some (s.emit (.submitted (.error .invalidArgument)))
    | some u =>
      let s := s.useSession
      if answer < 0 then some (s.emit (.submitted (.error (.nghttp2 answer))))
      else
        (signal (s.setSendable sendable)).map (fun s =>
          (s.register inetPton u uri h answer).emit (.submitted (.ok answer)))

def call (inetPton : InetPton) (signal : Lifecycle → Option Lifecycle) (s : Lifecycle) :
    Call → Option Lifecycle
  | .submit _ uri h answer sendable => s.submit inetPton signal uri h answer sendable
  | .shutdown sendable =>
    if s.stopped then some s else signal (s.useSession.setSendable sendable)
  | .cancel id sendable =>
    if id ∉ s.known then none
    else if s.stopped then some s else signal (s.useSession.setSendable sendable)
  | .resume id sendable =>
    if id ∉ s.known then none
    else if s.stopped then some s else signal (s.useSession.setSendable sendable)
  | .writeTrailer id answer sendable =>
    if id ∉ s.known then none
    else if answer ≠ 0 then some s.useSession
    else signal (s.useSession.setSendable sendable)

/-- Inside a callback `signal_write` does nothing. -/
def inner (env : Env) (s : Lifecycle) : Inner → Option Lifecycle
  | .recv e => some (s.onEvent env.app e)
  | .call c => s.call env.inetPton some c

def doWrite (env : Env) (f : Flush) (s : Lifecycle) : Option Lifecycle :=
  if s.stopped then some s
  else if s.writing then some s
  else do
    let s := s.putOut s.out.refill
    let (failed, s) ← loop (inner env) out putOut f.sends s.enterCallback.useSession
    if failed then
      let s ← s.callErrorCb (fun s => f.onError.foldlM (call env.inetPton some) s)
      some s.stop.leaveCallback
    else
      let s := s.leaveCallback
      if s.out.len = 0 then
        let (drained, s) := s.shouldStop f.drained
        some (if drained then s.stop else s)
      else
        let s := { s with writing := true }.resetDeadline
        some (s.start .write)

def signalWrite (env : Env) (f : Flush) (s : Lifecycle) : Option Lifecycle :=
  if s.insideCallback then some s else s.doWrite env f

def doRead (s : Lifecycle) : Lifecycle :=
  if s.stopped then s else s.resetDeadline.start .read

end Lifecycle

/-- The answers to one completion handler: whether TLS negotiated h2, whether the session
    was made, what happens inside `nghttp2_session_mem_recv` and whether it takes all bytes,
    and what `on_error` does if it is called. -/
structure Answers where
  negotiated : Bool
  setup : Bool
  recv : List Inner
  whole : Bool
  sendable : Bool
  flush : Flush
  drained : Bool
  onError : List (Call × Flush)

namespace Lifecycle

def react (env : Env) (calls : List (Call × Flush)) (s : Lifecycle) : Option Lifecycle :=
  calls.foldlM (fun s c => s.call env.inetPton (signalWrite env c.2) c.1) s

def notConnected (env : Env) (a : Answers) (s : Lifecycle) : Option Lifecycle :=
  (s.callErrorCb (react env a.onError)).map stop

def connected (env : Env) (a : Answers) (s : Lifecycle) : Option Lifecycle :=
  if !a.setup then s.callErrorCb (react env a.onError)
  else do
    let s ← ({ s with session := true }.setSendable a.sendable).doWrite env a.flush
    let s := s.doRead.startPing
    some (if s.connectCb then s.emit .connect else s)

def onRead (env : Env) (a : Answers) (failed : Bool) (s : Lifecycle) : Option Lifecycle :=
  if failed then do
    let (drained, s) := s.shouldStop a.drained
    let s ← if drained then some s else s.callErrorCb (react env a.onError)
    some s.stop
  else do
    let s ← a.recv.foldlM (inner env) s.enterCallback.useSession
    let s := s.setSendable a.sendable
    if !a.whole then
      let s ← s.callErrorCb (react env a.onError)
      some s.stop.leaveCallback
    else
      let s ← s.leaveCallback.doWrite env a.flush
      let (drained, s) := s.shouldStop a.drained
      if drained then some s.stop else some s.doRead

def onWrite (env : Env) (a : Answers) (failed : Bool) (s : Lifecycle) : Option Lifecycle :=
  if failed then (s.callErrorCb (react env a.onError)).map stop
  else { s with out := { s.out with len := 0 }, writing := false }.doWrite env a.flush

def handleDeadline (env : Env) (a : Answers) (s : Lifecycle) : Option Lifecycle :=
  if s.stopped then some s
  else if s.io.expired .deadline then do
    let s ← s.callErrorCb (react env a.onError)
    let s := s.stop
    some { s with io := s.io.expiresAt .deadline none }
  else some (s.wait .deadline)

def handlePing (env : Env) (a : Answers) (aborted : Bool) (s : Lifecycle) : Option Lifecycle :=
  if s.stopped || aborted || !s.streams.isEmpty then some s
  else do
    let s := (s.useSession.emit (.ping s.streams.isEmpty)).setSendable a.sendable
    let s ← s.signalWrite env a.flush
    some s.startPing

def handle (env : Env) (a : Answers) (s : Lifecycle) :
    Ready Clock Operation Empty → Option Lifecycle
  | .done .resolve failed => if failed then s.notConnected env a else some (s.start .connect)
  | .done .connect failed =>
    if s.stopped then some s
    else if failed then s.notConnected env a
    else if s.tls then some (s.start .handshake) else s.connected env a
  | .done .handshake failed =>
    if s.stopped then some s
    else if failed then s.notConnected env a
    else if !a.negotiated then s.notConnected env a else s.connected env a
  | .done .read failed => s.onRead env a failed
  | .done .write failed => s.onWrite env a failed
  | .timer .deadline _ => s.handleDeadline env a
  | .timer .ping aborted => s.handlePing env a aborted

inductive Action where
  | elapse (d : Nat)
  | complete (op : Operation) (failed : Bool)
  | fire (t : Clock)
  | run (k : Nat) (a : Answers)
  | call (c : Call) (f : Flush)
  | setCallbacks (connectCb errorCb : Bool)
  | setReadTimeout (t : Option Int)

def step (env : Env) (s : Lifecycle) : Action → Option Lifecycle
  | .elapse d => some { s with io := s.io.elapse d }
  | .complete op failed => (s.io.complete op failed).map (fun io => { s with io := io })
  | .fire t => (s.io.fire t).map (fun io => { s with io := io })
  | .run k a => (s.io.take k).bind (fun taken => { s with io := taken.2 }.handle env a taken.1)
  | .call c f => s.call env.inetPton (signalWrite env f) c
  | .setCallbacks connectCb errorCb => some { s with connectCb := connectCb, errorCb := errorCb }
  | .setReadTimeout t => some { s with readTimeout := t }

def new (tls : Bool) (now : Int) : Lifecycle where
  io := .new now
  tls := tls
  readTimeout := some 60
  connectCb := false
  errorCb := false
  session := false
  streams := ∅
  out := .empty
  writing := false
  insideCallback := false
  stopped := false
  known := []
  log := []

def startResolve (connectTimeout : Option Int) (s : Lifecycle) : Lifecycle :=
  ({ s with io := s.io.expiresFromNow .deadline connectTimeout }.start .resolve).wait .deadline

def started (tls : Bool) (now : Int) (connectTimeout : Option Int) : Lifecycle :=
  (new tls now).startResolve connectTimeout

def run (env : Env) (s : Lifecycle) (actions : List Action) : Option Lifecycle :=
  actions.foldlM (step env) s

/-! What a flush, a callback and a call leave as it is. -/

def Kept (s : Lifecycle) : Prop :=
  s.stopped = false → s.streams.isEmpty = true → s.io.Live .ping

def Flying (s : Lifecycle) : Prop :=
  s.stopped = false → s.writing = true → 0 < s.io.inflight .write

def Plain (session : Bool) : Notice → Prop
  | .connect | .waits .deadline | .ping _ | .assertion => False
  | .noSession => session = false
  | _ => True

structure Advance (s t : Lifecycle) : Prop where
  session : t.session = s.session
  inside : t.insideCallback = s.insideCallback
  stopped : s.stopped = true → t.stopped = true
  deadline : t.io.outstanding .deadline = s.io.outstanding .deadline
  opening : ∀ op, op ≠ .read → op ≠ .write → t.io.inflight op = s.io.inflight op
  kept : s.Kept → t.Kept
  flying : s.Flying → t.Flying
  log : ∃ new, t.log = s.log ++ new ∧ ∀ n ∈ new, Plain s.session n.2

namespace Advance
variable {s t u : Lifecycle}

theorem refl (s : Lifecycle) : Advance s s :=
  ⟨rfl, rfl, id, rfl, fun _ _ _ => rfl, id, id, [], by simp, by simp⟩

theorem trans (first : Advance s t) (second : Advance t u) : Advance s u where
  session := second.session.trans first.session
  inside := second.inside.trans first.inside
  stopped := second.stopped ∘ first.stopped
  deadline := second.deadline.trans first.deadline
  opening := fun op read write => (second.opening op read write).trans (first.opening op read write)
  kept := second.kept ∘ first.kept
  flying := second.flying ∘ first.flying
  log := by
    obtain ⟨early, grown, plain⟩ := first.log
    obtain ⟨late, more, plainer⟩ := second.log
    refine ⟨early ++ late, by rw [more, grown, List.append_assoc], ?_⟩
    intro n member
    rcases List.mem_append.mp member with old | new
    · exact plain n old
    · exact first.session ▸ plainer n new

theorem emit (s : Lifecycle) (n : Notice) (plain : Plain s.session n) : Advance s (s.emit n) :=
  ⟨rfl, rfl, id, rfl, fun _ _ _ => rfl, id, id, [(s.stopped, n)], rfl, by simpa using plain⟩

theorem useSession (s : Lifecycle) : Advance s s.useSession := by
  unfold Lifecycle.useSession
  split
  · exact refl s
  · rename_i missing
    exact emit s .noSession (Bool.eq_false_of_not_eq_true missing)

theorem putOut (s : Lifecycle) (out : Outbuf UInt8 bufferSize) : Advance s (s.putOut out) :=
  ⟨rfl, rfl, id, rfl, fun _ _ _ => rfl, id, id, [], by simp [Lifecycle.putOut], by simp⟩

theorem setSendable (s : Lifecycle) (sendable : Bool) : Advance s (s.setSendable sendable) :=
  putOut s { s.out with sendable := sendable }

theorem stop (s : Lifecycle) : Advance s s.stop := by
  unfold Lifecycle.stop
  split
  · exact refl s
  · exact ⟨rfl, rfl, fun _ => rfl, by simp, by simp, fun _ => nofun, fun _ => nofun, [], by simp,
      by simp⟩

theorem startPing (s : Lifecycle) (streams : Streams) :
    Advance s ({ s with streams := streams }.startPing) where
  session := rfl
  inside := rfl
  stopped := id
  deadline := by simp [Lifecycle.startPing, Lifecycle.wait]
  opening := by simp [Lifecycle.startPing, Lifecycle.wait]
  kept := by
    intro _ _ _
    exact s.io.live_restart Clock.ping 30
  flying := by
    intro flying running writing
    simpa [Lifecycle.startPing, Lifecycle.wait] using flying running writing
  log := ⟨[(s.stopped, .waits .ping)], rfl, by simp [Plain]⟩

theorem register (s : Lifecycle) (known : List Int) {streams : Streams}
    (some_stream : streams.isEmpty = false) :
    Advance s { s with streams := streams, io := s.io.cancel .ping, known := known } where
  session := rfl
  inside := rfl
  stopped := id
  deadline := by simp
  opening := by simp
  kept := by
    intro _ _ empty
    simp [some_stream] at empty
  flying := by
    intro flying running writing
    simpa using flying running writing
  log := ⟨[], by simp, by simp⟩

theorem setStreams (s : Lifecycle) {streams : Streams}
    (emptied : streams.isEmpty = true → s.streams.isEmpty = true) :
    Advance s { s with streams := streams } where
  session := rfl
  inside := rfl
  stopped := id
  deadline := rfl
  opening := fun _ _ _ => rfl
  kept := fun kept running empty => kept running (emptied empty)
  flying := id
  log := ⟨[], by simp, by simp⟩

end Advance

theorem isEmpty_emplace (streams : Streams) (id : Int) (strm : Stream) :
    (streams.insertIfNew id strm).isEmpty = false := by
  rw [Std.ExtTreeMap.isEmpty_eq_false_iff]
  exact Std.ExtTreeMap.insertIfNew_ne_empty

theorem isEmpty_of_entries {a b : Streams}
    (same : ∀ k, (findStream a k).isSome = (findStream b k).isSome) (empty : a.isEmpty = true) :
    b.isEmpty = true := by
  rw [Std.ExtTreeMap.isEmpty_iff] at empty ⊢
  apply Std.ExtTreeMap.ext_getElem?
  intro k
  have none : (findStream b k).isSome = false := by
    rw [← same k, empty]
    simp [findStream]
  rw [Std.ExtTreeMap.getElem?_empty]
  exact Option.isSome_eq_false_iff.mp none |> Option.isNone_iff_eq_none.mp

def closesLast (app : App) (streams : Streams) : Event → Bool
  | .streamClose id errorCode => (findStream streams id).isSome &&
      (Client.step app streams (.recv (.streamClose id errorCode))).1.isEmpty
  | _ => false

theorem onEvent_cases (app : App) (s : Lifecycle) (e : Event) :
    (∃ streams known, streams.isEmpty = false ∧ closesLast app s.streams e = false ∧
      s.onEvent app e = { s with streams := streams, io := s.io.cancel .ping, known := known }) ∨
    (∃ streams, closesLast app s.streams e = true ∧
      s.onEvent app e = { s with streams := streams }.startPing) ∨
    ∃ streams, (streams.isEmpty = true → s.streams.isEmpty = true) ∧
      closesLast app s.streams e = false ∧ s.onEvent app e = { s with streams := streams } := by
  by_cases push : ∃ id promised, e = .beginHeaders (.pushPromise id promised)
  · obtain ⟨id, promised, rfl⟩ := push
    exact .inl ⟨_, _, isEmpty_emplace _ _ _, rfl, rfl⟩
  by_cases close : ∃ id errorCode, e = .streamClose id errorCode
  · obtain ⟨id, errorCode, rfl⟩ := close
    cases last : closesLast app s.streams (.streamClose id errorCode) with
    | true => exact .inr (.inl ⟨_, rfl, if_pos last⟩)
    | false =>
      refine .inr (.inr ⟨_, ?_, rfl, if_neg (by simpa [closesLast] using last)⟩)
      intro empty
      cases found : findStream s.streams id with
      | none => simpa [Client.step, onStreamClose, found] using empty
      | some strm => simp [closesLast, found, empty] at last
  · push Not at push close
    have kept := (step_keeps app s.streams e push close).1
    refine .inr (.inr ⟨(Client.step app s.streams (.recv e)).1, isEmpty_of_entries kept, ?_, ?_⟩)
    · unfold closesLast
      split
      · exact absurd rfl (close _ _)
      · rfl
    · unfold onEvent
      split
      · exact absurd rfl (push _ _)
      · exact absurd rfl (close _ _)
      · rfl

theorem advance_onEvent (app : App) (s : Lifecycle) (e : Event) : Advance s (s.onEvent app e) := by
  obtain ⟨streams, known, some_stream, _, same⟩ | ⟨streams, _, same⟩ | ⟨streams, emptied, _, same⟩ :=
    onEvent_cases app s e
  · exact same ▸ .register s known some_stream
  · exact same ▸ .startPing s streams
  · exact same ▸ .setStreams s emptied

section Calls
variable {env : Env} {inetPton : InetPton} {signal : Lifecycle → Option Lifecycle}
  (signals : ∀ {u v}, signal u = some v → Advance u v) {s t : Lifecycle}
include signals

theorem advance_submit {uri : Bytes} {h : HeaderMap} {answer : Int} {sendable : Bool}
    (made : s.submit inetPton signal uri h answer sendable = some t) : Advance s t := by
  unfold submit at made
  split at made
  · obtain rfl := Option.some.inj made
    exact .emit s _ trivial
  split at made
  · obtain rfl := Option.some.inj made
    exact .emit s _ trivial
  · split at made
    · obtain rfl := Option.some.inj made
      exact (Advance.useSession s).trans (.emit _ _ trivial)
    · obtain ⟨u, signaled, rfl⟩ := Option.map_eq_some_iff.mp made
      have flushed := (Advance.useSession s).trans ((Advance.setSendable _ _).trans (signals signaled))
      exact flushed.trans ((Advance.register u _ (isEmpty_emplace _ _ _)).trans (.emit _ _ trivial))

theorem advance_signaled {sendable : Bool}
    (made : signal (s.useSession.setSendable sendable) = some t) : Advance s t :=
  (Advance.useSession s).trans ((Advance.setSendable _ _).trans (signals made))

theorem advance_call {c : Call} (made : s.call inetPton signal c = some t) : Advance s t := by
  cases c with
  | submit method uri h answer sendable => exact advance_submit signals made
  | shutdown sendable =>
    simp only [call] at made
    split at made
    · obtain rfl := Option.some.inj made
      exact .refl s
    · exact advance_signaled signals made
  | cancel id sendable | resume id sendable =>
    simp only [call] at made
    split_ifs at made
    · obtain rfl := Option.some.inj made
      exact .refl s
    · exact advance_signaled signals made
  | writeTrailer id answer sendable =>
    simp only [call] at made
    split_ifs at made
    · obtain rfl := Option.some.inj made
      exact .useSession s
    · exact advance_signaled signals made

end Calls

section Flushes
variable {env : Env} {s t : Lifecycle}

theorem advance_some {u v : Lifecycle} (same : some u = some v) : Advance u v := by
  obtain rfl := Option.some.inj same
  exact .refl u

theorem advance_inner {i : Inner} (made : s.inner env i = some t) : Advance s t := by
  cases i with
  | recv e =>
    obtain rfl := Option.some.inj made
    exact advance_onEvent env.app s e
  | call c => exact advance_call advance_some made

theorem advance_callErrorCb {react : Lifecycle → Option Lifecycle}
    (reacts : ∀ {u v}, react u = some v → Advance u v) (made : s.callErrorCb react = some t) :
    Advance s t := by
  unfold callErrorCb at made
  split_ifs at made
  · obtain rfl := Option.some.inj made
    exact .refl s
  · obtain rfl := Option.some.inj made
    exact .refl s
  · exact (Advance.emit s .error trivial).trans (reacts made)

theorem advance_shouldStop (s : Lifecycle) (drained : Bool) :
    Advance s (s.shouldStop drained).2 := by
  unfold shouldStop
  split
  · exact .refl s
  · exact .useSession s

theorem advance_doRead (s : Lifecycle) : Advance s s.doRead := by
  unfold doRead
  split
  · exact .refl s
  · refine ⟨rfl, rfl, id, by simp [start, resetDeadline], ?_, ?_, ?_, ⟨_, rfl, by simp [Plain]⟩⟩
    · intro op read _
      simp [start, resetDeadline, Ne.symm read]
    · intro kept running empty
      exact (kept running empty).release _ (.inl (by decide))
    · intro flying running writing
      simpa [start, resetDeadline] using flying running writing

theorem Advance.bracket (outside : s.insideCallback = false) (inside : Advance s.enterCallback t) :
    Advance s t.leaveCallback := by
  have entered : s.enterCallback = { s with insideCallback := true } := by
    simp [enterCallback, outside]
  rw [entered] at inside
  have left : t.leaveCallback = { t with insideCallback := false } := by
    simp [leaveCallback, inside.inside]
  rw [left]
  exact { inside with inside := outside.symm }

theorem advance_inner_loop {asked : List (Asked Inner UInt8 bufferSize)} {failed : Bool}
    (done : loop (inner env) out putOut asked s = some (failed, t)) : Advance s t :=
  loop_keeps Advance Advance.refl Advance.trans Advance.putOut asked (fun _ _ => advance_inner) done

theorem advance_startWrite (s : Lifecycle) :
    Advance s (({ s with writing := true }.resetDeadline).start .write) where
  session := rfl
  inside := rfl
  stopped := id
  deadline := by simp [start, resetDeadline]
  opening := by
    intro op _ write
    simp [start, resetDeadline, Ne.symm write]
  kept := by
    intro kept running empty
    exact (kept running empty).release _ (.inl (by decide))
  flying := by
    intro _ _ _
    simp [start, resetDeadline]
  log := ⟨_, rfl, by simp [Plain]⟩

def asking (s : Lifecycle) : Lifecycle := (s.putOut s.out.refill).enterCallback.useSession

/-- A flush that is not turned away fails, or leaves nothing to send, or starts a write. -/
inductive Flushed (env : Env) (f : Flush) (s : Lifecycle) : Lifecycle → Prop where
  | away (busy : s.stopped = true ∨ s.writing = true) : Flushed env f s s
  | failed {u v : Lifecycle} (running : s.stopped = false) (free : s.writing = false)
      (looped : loop (inner env) out putOut f.sends s.asking = some (true, u))
      (reported : u.callErrorCb (fun s => f.onError.foldlM (call env.inetPton some) s) = some v) :
      Flushed env f s v.stop.leaveCallback
  | nothing {u : Lifecycle} (running : s.stopped = false) (free : s.writing = false)
      (looped : loop (inner env) out putOut f.sends s.asking = some (false, u))
      (empty : u.out.len = 0) :
      Flushed env f s (if (u.leaveCallback.shouldStop f.drained).1 then
        (u.leaveCallback.shouldStop f.drained).2.stop else (u.leaveCallback.shouldStop f.drained).2)
  | wrote {u : Lifecycle} (running : s.stopped = false) (free : s.writing = false)
      (looped : loop (inner env) out putOut f.sends s.asking = some (false, u)) :
      Flushed env f s (({ u.leaveCallback with writing := true }.resetDeadline).start .write)

theorem leaveCallback_out (s : Lifecycle) : s.leaveCallback.out = s.out := by
  unfold leaveCallback
  split <;> rfl

theorem doWrite_flushed {f : Flush} (made : s.doWrite env f = some t) : Flushed env f s t := by
  unfold doWrite at made
  split at made
  · rename_i stopped
    obtain rfl := Option.some.inj made
    exact .away (.inl stopped)
  split at made
  · rename_i writing
    obtain rfl := Option.some.inj made
    exact .away (.inr writing)
  rename_i running free
  have running := Bool.eq_false_of_not_eq_true running
  have free := Bool.eq_false_of_not_eq_true free
  obtain ⟨⟨failed, u⟩, looped, made⟩ := Option.bind_eq_some_iff.mp made
  cases failed with
  | true =>
    obtain ⟨v, reported, made⟩ := Option.bind_eq_some_iff.mp made
    obtain rfl := Option.some.inj made
    exact .failed running free looped reported
  | false =>
    simp only [Bool.false_eq_true, ↓reduceIte] at made
    split at made
    · rename_i empty
      obtain rfl := Option.some.inj made
      exact .nothing running free looped (leaveCallback_out u ▸ empty)
    · obtain rfl := Option.some.inj made
      exact .wrote running free looped

theorem advance_calls {calls : List Call} (made : calls.foldlM (call env.inetPton some) s = some t) :
    Advance s t :=
  Trace.foldlM_keeps Advance.refl Advance.trans calls (fun _ => advance_call advance_some) made

theorem advance_doWrite {f : Flush} (outside : s.insideCallback = false)
    (made : s.doWrite env f = some t) : Advance s t := by
  have outside : (s.putOut s.out.refill).insideCallback = false := outside
  cases doWrite_flushed made with
  | away => exact .refl _
  | failed running free looped reported =>
    refine (Advance.putOut s s.out.refill).trans (.bracket outside ?_)
    refine (Advance.useSession _).trans ((advance_inner_loop looped).trans ?_)
    exact (advance_callErrorCb advance_calls reported).trans (.stop _)
  | nothing running free looped empty =>
    refine (Advance.putOut s s.out.refill).trans (.trans (.bracket outside
      ((Advance.useSession _).trans (advance_inner_loop looped))) ?_)
    refine (advance_shouldStop _ f.drained).trans ?_
    split
    · exact .stop _
    · exact .refl _
  | wrote running free looped =>
    refine (Advance.putOut s s.out.refill).trans (.trans (.bracket outside
      ((Advance.useSession _).trans (advance_inner_loop looped))) ?_)
    exact advance_startWrite _

theorem advance_signalWrite {f : Flush} (made : s.signalWrite env f = some t) : Advance s t := by
  unfold signalWrite at made
  split at made
  · obtain rfl := Option.some.inj made
    exact .refl s
  · rename_i outside
    exact advance_doWrite (Bool.eq_false_of_not_eq_true outside) made

theorem advance_react {calls : List (Call × Flush)} (made : s.react env calls = some t) :
    Advance s t :=
  Trace.foldlM_keeps Advance.refl Advance.trans calls
    (fun _ called => advance_call advance_signalWrite called) made

end Flushes

end Lifecycle

end Nghttp2Asio.Client
