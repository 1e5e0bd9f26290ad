import Nghttp2Asio.Library.EventLoop
import Nghttp2Asio.Library.SendLoop
import Nghttp2Asio.ServerResponse
import Nghttp2Asio.ServerHandler
import Nghttp2Asio.Writers

/-!
A server `connection` and its `http2_handler` with the deadline, the operations on the
socket and the posted writes, from the accepted socket on (asio_server.cc,
asio_server_connection.h, asio_server_http2_handler.h). Handlers run one at a time and in
any order; what nghttp2, the application and the network answer is part of each action. An
answer nghttp2 cannot give, or a call on a response that is not open, has no result.
-/
namespace Nghttp2Asio.Server
open EventLoop SendLoop Util

inductive Clock where
  | deadline
  deriving DecidableEq

inductive Operation where
  | handshake | read | write
  deriving DecidableEq

inductive Task where
  | initiateWrite
  deriving DecidableEq

/-- What an observer sees of a connection: the operations and waits it starts, an assertion
    that fails, and an `initiate_write` that runs after the connection is gone. -/
inductive Notice where
  | started (op : Operation)
  | waits
  | assertion
  | dangling
  deriving DecidableEq

abbrev Responses := Std.ExtTreeMap Int ResponseImpl

/-- `received` tells that a read has completed. Each entry of the log says whether the
    connection was stopped then. -/
structure Service where
  io : Loop Clock Operation Task
  readTimeout : Option Int
  streams : Streams
  responses : Responses
  out : Outbuf UInt8 bufferSize
  received : Bool
  writing : Bool
  insideCallback : Bool
  writeSignaled : Bool
  stopped : Bool
  log : List (Bool × Notice)

/-- A call on the response of an open stream. `trailer` tells whether nghttp2 takes a
    trailer, `answer` is what it returns for a promise, and `sendable` whether it has
    output to send after the call. -/
inductive ResponseCall where
  | respond (streamId : Int) (c : Call) (trailer sendable : Bool)
  | push (streamId : Int) (method rawPathQuery : Bytes) (h : HeaderMap) (answer : Int)
    (sendable : Bool)

/-- What happens inside nghttp2: one of its callbacks, or a call on a response, which the
    application makes from a callback of its own. The reads of a body and the end of a
    promise are calls on a response as well. -/
inductive Inner where
  | recv (e : Event)
  | call (c : ResponseCall)

structure Flush where
  sends : List (Asked Inner UInt8 bufferSize)
  drained : Bool

structure Answers where
  negotiated : Bool
  started : Bool
  recv : List Inner
  failure : Bool
  sendable : Bool
  flush : Flush
  drained : Bool

def Call.accepted (trailer : Bool) : Call → Bool
  | .writeHead _ _ answer | .endString _ answer | .endWith _ answer | .pushPromiseSent answer =>
    answer.ok
  | .writeTrailer _ => trailer
  | _ => true

def ResponseCall.isPublic : ResponseCall → Bool
  | .respond _ (.pushPromiseSent _) _ _ | .respond _ (.callRead _) _ _ => false
  | _ => true

namespace Service
variable {α : Type}

def emit (s : Service) (n : Notice) : Service := { s with log := s.log ++ [(s.stopped, n)] }

def launch (s : Service) (op : Operation) : Service :=
  { s.emit (.started op) with io := s.io.start op }

def wait (s : Service) : Service := { s.emit .waits with io := s.io.wait .deadline }

def setSendable (s : Service) (sendable : Bool) : Service :=
  { s with out := { s.out with sendable := sendable } }

def putOut (s : Service) (out : Outbuf UInt8 bufferSize) : Service := { s with out := out }

def resetDeadline (s : Service) : Service :=
  { s with io := s.io.expiresFromNow .deadline s.readTimeout }

def stop (s : Service) : Service :=
  if s.stopped then s else { s with io := s.io.cancel .deadline, stopped := true }

def enterCallback (s : Service) : Service :=
  { (if s.insideCallback then s.emit .assertion else s) with insideCallback := true }

def leaveCallback (s : Service) : Service :=
  { (if s.insideCallback then s else s.emit .assertion) with insideCallback := false }

def owners (s : Service) : Nat :=
  s.io.inflight .handshake + s.io.inflight .read + s.io.inflight .write +
    s.io.outstanding .deadline

/-- The posted `initiate_write` tasks; they own the handler only. -/
def posted (s : Service) : Nat := s.io.posted .initiateWrite

def signalWrite (s : Service) : Service :=
  if !s.insideCallback && !s.writeSignaled then
    { s with writeSignaled := true, io := s.io.post .initiateWrite }
  else s

def perform (accepted sendable : Bool) (s : Service) : Effect → Service
  | .startResponse _ | .submitTrailer _ =>
    if accepted then (s.setSendable sendable).signalWrite else s
  | .streamError _ | .resume => (s.setSendable sendable).signalWrite
  | .read _ _ => s

def promise (strm : Stream) (method rawPathQuery : Bytes) (h : HeaderMap) (promised : Int)
    (s : Service) : Service :=
  let uri := { UriRef.empty with scheme := strm.request.uri.scheme, host := strm.request.uri.host }
  let request : RequestImpl := ⟨⟨h, 0⟩, method, splitPath uri rawPathQuery⟩
  { s with
    streams := s.streams.insert promised { Stream.new with request := request }
    responses := s.responses.insert promised (.new true) }

def call (s : Service) : ResponseCall → Option Service
  | .respond id c trailer sendable => do
    let strm ← findStream s.streams id
    let res ← s.responses[id]?
    let (res, effects) := res.step strm.request.method c
    let s := { s with responses := s.responses.insert id res }
    some (effects.foldl (perform (c.accepted trailer) sendable) s)
  | .push id method rawPathQuery h answer sendable => do
    let strm ← findStream s.streams id
    if answer < 0 then some s
    else some ((s.promise strm method rawPathQuery h answer).setSendable sendable).signalWrite

def onEvent (app : App α) (s : Service) (e : Event) : Service :=
  let s := { s with streams := (Server.step app s.streams e).1 }
  match e with
  | .beginHeaders (.headers id _ .request) =>
    { s with responses := s.responses.insertIfNew id (.new false) }
  | .streamClose id _ => { s with responses := s.responses.erase id }
  | _ => s

def inner (app : App α) (s : Service) : Inner → Option Service
  | .recv e => some (s.onEvent app e)
  | .call c => s.call c

/-- The first part of the result tells that `on_read` fails. -/
def onRead (app : App α) (a : Answers) (s : Service) : Option (Bool × Service) := do
  let s ← a.recv.foldlM (inner app) s.enterCallback
  some (a.failure, (s.setSendable a.sendable).leaveCallback)

def onWrite (app : App α) (f : Flush) (s : Service) : Option (Bool × Service) := do
  let s := s.enterCallback
  let s := s.putOut { s.out with len := 0 }.refill
  let (failed, s) ← loop (inner app) out putOut f.sends s
  some (failed, s.leaveCallback)

def doWrite (app : App α) (f : Flush) (s : Service) : Option Service :=
  if s.writing then some s
  else do
    let (failed, s) ← s.onWrite app f
    if failed then some s.stop
    else if s.out.len = 0 then some (if f.drained then s.stop else s)
    else some ({ s with writing := true }.resetDeadline.launch .write)

def doRead (s : Service) : Service := s.resetDeadline.launch .read

def start (a : Answers) (s : Service) : Service :=
  if !a.started then s.stop else (s.setSendable a.sendable).doRead

def handshakeDone (a : Answers) (failed : Bool) (s : Service) : Service :=
  if failed then s.stop
  else if !a.negotiated then s.stop
  else s.start a

def readDone (app : App α) (a : Answers) (failed : Bool) (s : Service) : Option Service :=
  let s := { s with received := true }
  if failed then some s.stop
  else do
    let (failed, s) ← s.onRead app a
    if failed then some s.stop
    else
      let s ← s.doWrite app a.flush
      some (if !s.writing && a.drained then s.stop else s.doRead)

def writeDone (app : App α) (a : Answers) (failed : Bool) (s : Service) : Option Service :=
  if failed then some s.stop else { s with writing := false }.doWrite app a.flush

def handleDeadline (s : Service) : Service :=
  if s.stopped then s
  else if s.io.expired .deadline then
    let s := s.stop
    { s with io := s.io.expiresAt .deadline none }
  else s.wait

/-- `writefun_` refers to the connection, which is gone when no handler owns it. -/
def initiateWrite (app : App α) (a : Answers) (s : Service) : Option Service :=
  let s := { s with writeSignaled := false }
  if s.owners = 0 then some (s.emit .dangling) else s.doWrite app a.flush

def handle (app : App α) (a : Answers) (s : Service) :
    Ready Clock Operation Task → Option Service
  | .done .handshake failed => some (s.handshakeDone a failed)
  | .done .read failed => s.readDone app a failed
  | .done .write failed => s.writeDone app a failed
  | .timer .deadline _ => some s.handleDeadline
  | .task .initiateWrite => s.initiateWrite app a

inductive Action where
  | elapse (d : Nat)
  | complete (op : Operation) (failed : Bool)
  | fire
  | run (k : Nat) (a : Answers)
  | call (c : ResponseCall)

/-- A response is open as long as its handler is: until the connection and the posted tasks
    are gone. -/
def step (app : App α) (s : Service) : Action → Option Service
  | .elapse d => some { s with io := s.io.elapse d }
  | .complete op failed => (s.io.complete op failed).map (fun io => { s with io := io })
  | .fire => (s.io.fire .deadline).map (fun io => { s with io := io })
  | .run k a => (s.io.take k).bind (fun taken => { s with io := taken.2 }.handle app a taken.1)
  | .call c => if c.isPublic && 0 < s.owners + s.posted then s.call c else none

def new (now : Int) (readTimeout : Option Int) : Service where
  io := .new now
  readTimeout := readTimeout
  streams := ∅
  responses := ∅
  out := .empty
  received := false
  writing := false
  insideCallback := false
  writeSignaled := false
  stopped := false
  log := []

def startDeadline (timeout : Option Int) (s : Service) : Service :=
  { s with io := s.io.expiresFromNow .deadline timeout }.wait

def accepted (tls : Bool) (now : Int) (tlsHandshakeTimeout readTimeout : Option Int)
    (a : Answers) : Service :=
  if tls then ((new now readTimeout).startDeadline tlsHandshakeTimeout).launch .handshake
  else ((new now readTimeout).startDeadline readTimeout).start a

def run (app : App α) (s : Service) (actions : List Action) : Option Service :=
  actions.foldlM (step app) s

/-! What a call, a callback and a flush can do. -/

def Called (s t : Service) : Prop :=
  ∃ streams responses out,
    (t = { s with streams := streams, responses := responses, out := out } ∧
      (out.sendable = true →
        s.insideCallback = true ∨ s.writeSignaled = true ∨ s.out.sendable = true)) ∨
    (s.insideCallback = false ∧ s.writeSignaled = false ∧
      t = { s with
        streams := streams
        responses := responses
        out := out
        writeSignaled := true
        io := s.io.post .initiateWrite })

namespace Called
variable {s t u : Service}

theorem tables (s : Service) (streams : Streams) (responses : Responses) :
    Called s { s with streams := streams, responses := responses } :=
  ⟨streams, responses, s.out, .inl ⟨rfl, fun left => .inr (.inr left)⟩⟩

theorem refl (s : Service) : Called s s := tables s s.streams s.responses

theorem trans (first : Called s t) (second : Called t u) : Called s u := by
  obtain ⟨_, _, _, ⟨rfl, before⟩ | ⟨outside, fresh, rfl⟩⟩ := first
  · obtain ⟨streams, responses, out, ⟨rfl, after⟩ | ⟨outside, fresh, rfl⟩⟩ := second
    · refine ⟨streams, responses, out, .inl ⟨rfl, fun left => ?_⟩⟩
      rcases after left with inside | signaled | left
      · exact .inl inside
      · exact .inr (.inl signaled)
      · exact before left
    · exact ⟨streams, responses, out, .inr ⟨outside, fresh, rfl⟩⟩
  · obtain ⟨streams, responses, out, ⟨rfl, _⟩ | ⟨_, again, _⟩⟩ := second
    · exact ⟨streams, responses, out, .inr ⟨outside, fresh, rfl⟩⟩
    · contradiction

theorem signal (s : Service) (sendable : Bool) : Called s (s.setSendable sendable).signalWrite := by
  refine ⟨s.streams, s.responses, { s.out with sendable := sendable }, ?_⟩
  unfold signalWrite
  split
  · rename_i quiet
    simp only [Bool.and_eq_true, Bool.not_eq_true'] at quiet
    exact .inr ⟨quiet.1, quiet.2, rfl⟩
  · rename_i quiet
    refine .inl ⟨rfl, fun _ => ?_⟩
    cases inside : s.insideCallback with
    | true => exact .inl rfl
    | false =>
      right
      left
      simpa [setSendable, inside] using quiet

theorem perform (s : Service) (accepted sendable : Bool) (e : Effect) :
    Called s (s.perform accepted sendable e) := by
  cases e with
  | startResponse | submitTrailer =>
    simp only [Service.perform]
    split
    · exact signal s sendable
    · exact refl s
  | streamError | resume => exact signal s sendable
  | read => exact refl s

theorem performAll (accepted sendable : Bool) (effects : List Effect) :
    ∀ s : Service, Called s (effects.foldl (Service.perform accepted sendable) s) := by
  induction effects with
  | nil => exact refl
  | cons e rest ih =>
    intro s
    exact (perform s accepted sendable e).trans (ih _)

theorem call {c : ResponseCall} (made : s.call c = some t) : Called s t := by
  cases c with
  | respond id c trailer sendable =>
    obtain ⟨strm, _, made⟩ := Option.bind_eq_some_iff.mp made
    obtain ⟨res, _, made⟩ := Option.bind_eq_some_iff.mp made
    obtain rfl := Option.some.inj made
    exact (tables s _ _).trans (performAll _ _ _ _)
  | push id method rawPathQuery h answer sendable =>
    obtain ⟨strm, _, made⟩ := Option.bind_eq_some_iff.mp made
    split at made
    · obtain rfl := Option.some.inj made
      exact refl s
    · obtain rfl := Option.some.inj made
      exact (tables s _ _).trans (signal _ sendable)

end Called

def Rests (s t : Service) : Prop :=
  s.insideCallback = true →
    ∃ streams responses out,
      t = { s with streams := streams, responses := responses, out := out }

namespace Rests
variable {app : App α} {s t u : Service}

theorem refl (s : Service) : Rests s s := fun _ => ⟨s.streams, s.responses, s.out, rfl⟩

theorem trans (first : Rests s t) (second : Rests t u) : Rests s u := by
  intro inside
  obtain ⟨_, _, _, rfl⟩ := first inside
  exact second inside

theorem putOut (s : Service) (out : Outbuf UInt8 bufferSize) : Rests s (s.putOut out) :=
  fun _ => ⟨s.streams, s.responses, out, rfl⟩

theorem inner {i : Inner} (made : s.inner app i = some t) : Rests s t := by
  intro inside
  cases i with
  | recv e =>
    obtain rfl := Option.some.inj made
    unfold onEvent
    split
    · exact ⟨_, _, _, rfl⟩
    · exact ⟨_, _, _, rfl⟩
    · exact ⟨_, _, _, rfl⟩
  | call c =>
    obtain ⟨streams, responses, out, ⟨rfl, _⟩ | ⟨outside, _⟩⟩ := Called.call made
    · exact ⟨streams, responses, out, rfl⟩
    · simp [inside] at outside

end Rests

section Flush
variable {app : App α} {s t : Service} {failed : Bool}

theorem onRead_frame {a : Answers} (outside : s.insideCallback = false)
    (made : s.onRead app a = some (failed, t)) :
    failed = a.failure ∧
      ∃ streams responses out,
        t = { s with streams := streams, responses := responses, out := out } := by
  obtain ⟨u, taken, made⟩ := Option.bind_eq_some_iff.mp made
  obtain ⟨rfl, rfl⟩ := Prod.mk.inj (Option.some.inj made)
  have rests : Rests s.enterCallback u :=
    Trace.foldlM_keeps Rests.refl Rests.trans a.recv (fun _ => Rests.inner) taken
  obtain ⟨streams, responses, out, rfl⟩ := rests rfl
  refine ⟨rfl, streams, responses, { out with sendable := a.sendable }, ?_⟩
  simp [enterCallback, leaveCallback, setSendable, outside]

theorem onWrite_frame {f : Flush} (outside : s.insideCallback = false)
    (made : s.onWrite app f = some (failed, t)) :
    ∃ streams responses out,
      t = { s with streams := streams, responses := responses, out := out } ∧
        (failed = false → out.sendable = false ∨ 0 < out.len) := by
  obtain ⟨⟨failed, u⟩, sent, made⟩ := Option.bind_eq_some_iff.mp made
  obtain ⟨rfl, rfl⟩ := Prod.mk.inj (Option.some.inj made)
  have rests := loop_keeps Rests Rests.refl Rests.trans Rests.putOut f.sends
    (fun _ _ => Rests.inner) sent
  obtain ⟨streams, responses, out, rfl⟩ := rests rfl
  refine ⟨streams, responses, out, ?_, ?_⟩
  · simp [enterCallback, leaveCallback, Service.putOut, outside]
  · rintro rfl
    exact loop_flushes (fun _ _ => rfl) f.sends sent

inductive Flushed (s : Service) : Service → Prop where
  | busy (writing : s.writing = true) : Flushed s s
  | stops (streams : Streams) (responses : Responses) (out : Outbuf UInt8 bufferSize)
      (free : s.writing = false) :
      Flushed s { s with streams := streams, responses := responses, out := out }.stop
  | idle (streams : Streams) (responses : Responses) (out : Outbuf UInt8 bufferSize)
      (free : s.writing = false) (nothing : out.sendable = false) :
      Flushed s { s with streams := streams, responses := responses, out := out }
  | writes (streams : Streams) (responses : Responses) (out : Outbuf UInt8 bufferSize)
      (free : s.writing = false) :
      Flushed s ({ s with
        streams := streams, responses := responses, out := out, writing := true }.resetDeadline.launch
          .write)

theorem doWrite_flushed {f : Flush} (outside : s.insideCallback = false)
    (made : s.doWrite app f = some t) : Flushed s t := by
  unfold doWrite at made
  split at made
  · rename_i writing
    obtain rfl := Option.some.inj made
    exact .busy writing
  rename_i free
  have free : s.writing = false := Bool.eq_false_of_not_eq_true free
  obtain ⟨⟨failed, u⟩, written, made⟩ := Option.bind_eq_some_iff.mp made
  obtain ⟨streams, responses, out, rfl, left⟩ := onWrite_frame outside written
  cases failed with
  | true =>
    obtain rfl := Option.some.inj made
    exact .stops streams responses out free
  | false =>
    simp only [Bool.false_eq_true, ↓reduceIte] at made
    split at made
    · rename_i empty
      have nothing : out.sendable = false := (left rfl).resolve_right (by omega)
      split at made
      · obtain rfl := Option.some.inj made
        exact .stops streams responses out free
      · obtain rfl := Option.some.inj made
        exact .idle streams responses out free nothing
    · obtain rfl := Option.some.inj made
      exact .writes streams responses out free

end Flush

end Service

end Nghttp2Asio.Server
