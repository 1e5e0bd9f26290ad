import Mathlib.Logic.Function.Basic
import Nghttp2Asio.Delivery
import Nghttp2Asio.Library.Channel

/-!
Both ends of one connection. A client session and a server handler exchange frames
through nghttp2 and the network, which keep the order of the frames of a stream and
nothing else: a frame waits as long as it likes, streams overtake each other, and either
end may see a stream close at any time. A PUSH_PROMISE travels in front of the stream
it promises.

A `Link` is what has happened so far. The tables of both ends are the states their
callbacks have reached.
-/
namespace Nghttp2Asio
open Util UrlParser

namespace Server
variable {α : Type}

inductive Input where
  | push (streamId : Int) (request : RequestImpl)
  | recv (e : Event)
  deriving DecidableEq

def Input.streamId : Input → Int
  | .push id _ => id
  | .recv e => e.streamId

def Input.closing : Input → Bool
  | .recv (.streamClose _ _) => true
  | _ => false

def act (app : App α) (streams : Streams) : Input → Streams × List (Output α)
  | .push id request => (streams.insertIfNew id { Stream.new with request := request }, [])
  | .recv e => step app streams e

def Stream.act (app : App α) (strm : Option Stream) : Input → Option Stream × List (Output α)
  | .push _ request => (strm.or (some { Stream.new with request := request }), [])
  | .recv e => Stream.step app strm e

theorem act_local (app : App α) :
    Trace.Local (act app) Input.streamId Output.streamId (fun id streams => findStream streams id)
      (Stream.act app) where
  same := by
    intro streams i
    cases i with
    | push id request =>
      simp only [act, Stream.act, Input.streamId, findStream]
      rw [OrderedTable.get_emplace, if_pos rfl]
    | recv e => exact (step_local app).same streams e
  other := by
    intro streams i k different
    cases i with
    | push id request =>
      have apart : id ≠ k := Ne.symm different
      simp [act, findStream, OrderedTable.get_emplace, apart]
    | recv e => exact (step_local app).other streams e k different
  answers := by
    intro streams i
    cases i with
    | push id request => rfl
    | recv e => exact (step_local app).answers streams e
  tagged := by
    intro streams i o member
    cases i with
    | push id request => contradiction
    | recv e => exact (step_local app).tagged streams e o member

def Call.ofApp : Call → Bool
  | .callRead _ | .pushPromiseSent _ => false
  | _ => true

def Call.trailer : Call → Option HeaderMap
  | .writeTrailer h => some h
  | _ => none

end Server

namespace Client

def Input.lane : Input → Int
  | .submit id _ => id
  | .recv (.beginHeaders (.pushPromise _ promised)) => promised
  | .recv (.header (.pushPromise _ promised) _) => promised
  | .recv (.frameRecv (.pushPromise _ promised)) => promised
  | .recv e => e.streamId

def Input.closing : Input → Bool
  | .recv (.streamClose _ _) => true
  | _ => false

end Client

/-! What nghttp2 makes of header lists and of reads. -/

def headBlock (frame : Frame) (nva : List Nv) : List Event :=
  .beginHeaders frame :: ((wireFields nva).map (.header frame) ++ [.frameRecv frame])

def dataFlagNoEndStream : UInt32 := 2

namespace ReadResult

def payload (r : ReadResult) : Bytes := r.data.take r.value.toNat

def eof (r : ReadResult) : Bool := r.flags &&& dataFlagEof ≠ 0

def endStream (r : ReadResult) : Bool := r.eof && r.flags &&& dataFlagNoEndStream = 0

end ReadResult

def payloads (reads : List (Nat × ReadResult)) : Bytes := reads.flatMap (·.2.payload)

/-- The pieces in which a payload reaches the peer. -/
def Pieces (r : ReadResult) (chunks : List Bytes) : Prop :=
  chunks.flatten = r.payload ∧ ∀ chunk ∈ chunks, chunk ≠ []

instance (r : ReadResult) (chunks : List Bytes) : Decidable (Pieces r chunks) :=
  inferInstanceAs (Decidable (_ ∧ _))

def readEvents (id : Int) (r : ReadResult) (chunks : List Bytes) : List Event :=
  if r.value < 0 then [] else dataFrame id r.endStream chunks

def Event.ends : Event → Bool
  | .frameRecv (.data _ endStream) | .frameRecv (.headers _ endStream _) => endStream
  | _ => false

/-- A field behind a head is none of a pseudo header: nghttp2 refuses such trailers. -/
def Event.Regular : Event → Prop
  | .header _ f => Client.Regular f
  | _ => True

def Server.Input.ends : Server.Input → Bool
  | .recv e => e.ends
  | _ => false

def Client.Input.ends : Client.Input → Bool
  | .recv e => e.ends
  | .submit _ _ => false

/-! The connection. -/

structure Ends (α : Type) where
  inetPton : InetPton
  client : Client.App
  server : Server.App α

structure Request where
  method : Bytes
  uri : Bytes
  header : HeaderMap
  stored : RequestImpl
  nva : List Nv
  body : Option Generator
  lens : List Nat

def Request.reads (r : Request) : List (Nat × ReadResult) := readAll r.body r.lens

structure Promise where
  parent : Int
  base : RequestImpl
  method : Bytes
  rawPathQuery : Bytes
  header : HeaderMap
  stored : RequestImpl
  nva : List Nv
  sent : Bool

structure Responding where
  method : Bytes
  pushed : Bool
  calls : List Server.Call
  sent : Option Server.Submission

namespace Responding

def response (r : Responding) : Server.ResponseImpl := (Server.respond r.method r.pushed r.calls).1

def effects (r : Responding) : List Server.Effect := (Server.respond r.method r.pushed r.calls).2

def reads (r : Responding) : List (Nat × ReadResult) := Server.readings r.effects

end Responding

structure Link where
  requests : Int → Option Request
  promises : Int → Option Promise
  responding : Int → Option Responding
  clientPast : List Client.Input
  serverPast : List Server.Input
  up : Int → List Server.Input
  down : Int → List Client.Input

namespace Link
variable {α : Type}

def new : Link :=
  ⟨fun _ => none, fun _ => none, fun _ => none, [], [], fun _ => [], fun _ => []⟩

def clientStreams (ends : Ends α) (link : Link) : Client.Streams :=
  (Trace.run (Client.step ends.client) ∅ link.clientPast).1

def clientLog (ends : Ends α) (link : Link) : List Client.Output :=
  (Trace.run (Client.step ends.client) ∅ link.clientPast).2

def serverStreams (ends : Ends α) (link : Link) : Server.Streams :=
  (Trace.run (Server.act ends.server) ∅ link.serverPast).1

def serverLog (ends : Ends α) (link : Link) : List (Server.Output α) :=
  (Trace.run (Server.act ends.server) ∅ link.serverPast).2

/-- nghttp2 gives every stream id once. -/
def Unused (link : Link) (id : Int) : Prop :=
  (link.requests id).isNone = true ∧ (link.promises id).isNone = true

instance (link : Link) (id : Int) : Decidable (link.Unused id) :=
  inferInstanceAs (Decidable (_ ∧ _))

end Link

inductive Action where
  | submit (id : Int) (method uri : Bytes) (header : HeaderMap) (body : Option Generator)
  | upload (id : Int) (len : Nat) (chunks : List Bytes)
  | uploadTrailer (id : Int) (h : HeaderMap)
  | call (id : Int) (c : Server.Call)
  | download (id : Int) (len : Nat) (chunks : List Bytes)
  | trailer (id : Int) (h : HeaderMap)
  | push (parent promised : Int) (method rawPathQuery : Bytes) (header : HeaderMap)
  | promise (promised : Int) (answer : Server.Answer)
  | toServer (e : Event)
  | toClient (e : Event)
  | closeServer (id : Int) (errorCode : UInt32)
  | closeClient (id : Int) (errorCode : UInt32)

def headSent (effects : List Server.Effect) : Option Server.Submission :=
  if effects.any (fun e => match e with
    | .streamError _ => true
    | _ => false) then none
  else (Server.submissions effects).head?

def answerCat (pushed : Bool) : HeadersCategory := if pushed then .pushResponse else .response

def answerBlock (id : Int) (pushed : Bool) (s : Server.Submission) : List Event :=
  headBlock (.headers id (!s.provider) (answerCat pushed)) s.nva

def requestBlock (id : Int) (r : Request) : List Event :=
  headBlock (.headers id r.body.isNone .request) r.nva

def promiseBlock (promised : Int) (p : Promise) : List Event :=
  headBlock (.pushPromise p.parent promised) p.nva

namespace Link
variable {α : Type}
open Function (update)

def submitted (link : Link) (id : Int) (r : Request) : Link :=
  { link with
    requests := update link.requests id (some r)
    clientPast := link.clientPast ++ [.submit id r.stored]
    up := update link.up id ((requestBlock id r).map .recv)
    down := update link.down id [.submit id r.stored] }

def uploaded (link : Link) (id : Int) (r : Request) (len : Nat) (events : List Event) : Link :=
  { link with
    requests := update link.requests id (some { r with lens := r.lens ++ [len] })
    up := update link.up id (link.up id ++ events.map .recv) }

def trailed (link : Link) (id : Int) (events : List Event) : Link :=
  { link with up := update link.up id (link.up id ++ events.map .recv) }

def answered (link : Link) (id : Int) (r : Responding) (events : List Event) : Link :=
  { link with
    responding := update link.responding id (some r)
    down := update link.down id (link.down id ++ events.map .recv) }

def called (link : Link) (id : Int) (r : Responding) (c : Server.Call) : Link :=
  let head := headSent (r.response.step r.method c).2
  link.answered id { r with calls := r.calls ++ [c], sent := r.sent.or head }
    ((head.map (answerBlock id r.pushed)).getD [])

def pushed (link : Link) (id : Int) (p : Promise) : Link :=
  { link with
    promises := update link.promises id (some p)
    responding := update link.responding id (some ⟨p.stored.method, true, [], none⟩)
    serverPast := link.serverPast ++ [.push id p.stored]
    up := update link.up id [.push id p.stored] }

def promised (link : Link) (id : Int) (p : Promise) : Link :=
  { link with
    promises := update link.promises id (some { p with sent := true })
    down := update link.down id (link.down id ++ (promiseBlock id p).map .recv) }

/-- The application gets hold of a response when its request callback runs. -/
def served (ends : Ends α) (link : Link) (e : Event) : Int → Option Responding :=
  match (Server.act ends.server (link.serverStreams ends) (.recv e)).2 with
  | .request id _ req :: _ =>
    update link.responding id ((link.responding id).or (some ⟨req.method, false, [], none⟩))
  | _ => link.responding

/-- One step of the application, of nghttp2 or of the network at either end; `none` when
    it cannot be made now. Reads are made of bodies that have begun and not ended. -/
def step (ends : Ends α) (link : Link) : Action → Option Link
  | .submit id method uri header body => do
    guard (link.Unused id)
    let (next, nva) ← Client.submit ends.inetPton (link.clientStreams ends) method uri header id
    let strm ← Client.findStream next id
    return link.submitted id ⟨method, uri, header, strm.request, nva, body, []⟩
  | .upload id len chunks => do
    let r ← link.requests id
    guard (r.body.isSome ∧ r.reads.all (fun read => !read.2.eof))
    let result := (callRead (advance r.body r.lens) len).1
    guard (Pieces result chunks)
    return link.uploaded id r len (readEvents id result chunks)
  | .uploadTrailer id h => do
    let r ← link.requests id
    guard (Plain h ∧ r.body.isSome ∧ r.reads.any (fun read => read.2.eof) ∧ (link.up id).all (fun i => !i.ends))
    return link.trailed id (trailerBlock id (mapFields h))
  | .call id c => do
    let r ← link.responding id
    guard c.ofApp
    return link.called id r c
  | .download id len chunks => do
    let r ← link.responding id
    let s ← r.sent
    guard (s.provider ∧ r.reads.all (fun read => !read.2.eof))
    let result := (callRead r.response.generatorCb len).1
    guard (Pieces result chunks)
    return link.answered id { r with calls := r.calls ++ [.callRead len] } (readEvents id result chunks)
  | .trailer id h => do
    let r ← link.responding id
    guard (h ∈ r.calls.filterMap Server.Call.trailer ∧ Plain h ∧ r.sent.isSome)
    guard (r.reads.any (fun read => read.2.eof) ∧ (link.down id).all (fun i => !i.ends))
    return link.answered id r (trailerBlock id (mapFields h))
  | .push parent promised method rawPathQuery header => do
    guard (link.Unused promised)
    let strm ← Server.findStream (link.serverStreams ends) parent
    let (next, nva) ← Server.pushPromise (link.serverStreams ends) strm.request method rawPathQuery
      header promised
    let pushStrm ← Server.findStream next promised
    return link.pushed promised ⟨parent, strm.request, method, rawPathQuery, header,
      pushStrm.request, nva, false⟩
  | .promise promised answer => do
    let p ← link.promises promised
    let r ← link.responding promised
    guard (p.sent = false)
    return (link.promised promised p).called promised r (.pushPromiseSent answer)
  | .toServer e => do
    guard (Channel.Next Server.Input.streamId Server.Input.closing link.up link.serverPast (.recv e))
    return { link with
      serverPast := link.serverPast ++ [.recv e]
      responding := link.served ends e }
  | .toClient e => do
    guard (Channel.Next Client.Input.lane Client.Input.closing link.down link.clientPast (.recv e))
    return { link with clientPast := link.clientPast ++ [.recv e] }
  | .closeServer id errorCode =>
    return { link with serverPast := link.serverPast ++ [.recv (.streamClose id errorCode)] }
  | .closeClient id errorCode =>
    return { link with clientPast := link.clientPast ++ [.recv (.streamClose id errorCode)] }

def Reached (ends : Ends α) (link : Link) : Prop :=
  ∃ actions : List Action, actions.foldlM (step ends) new = some link

end Link

/-! What a lane holds. -/

/-- Frames behind a head that carry the bytes of these reads. The call without bytes that
    ends a body comes last, and not before a read said so. -/
structure Carries (id : Int) (reads : List (Nat × ReadResult)) (frames : List Event) : Prop where
  after : ∀ e ∈ frames, AfterHead id e ∧ e.Regular
  given : ∃ chunks marks, frames.flatMap Event.given = chunks ++ marks ∧
    (∀ chunk ∈ chunks, chunk ≠ []) ∧ chunks.flatten = payloads reads ∧
    (marks = [] ∨ marks = [[]] ∧ reads.any (fun read => read.2.eof) = true)

theorem carries_nil (id : Int) : Carries id [] [] :=
  ⟨by simp, [], [], rfl, by simp, rfl, Or.inl rfl⟩

theorem payloads_concat (reads : List (Nat × ReadResult)) (len : Nat) (r : ReadResult) :
    payloads (reads ++ [(len, r)]) = payloads reads ++ r.payload := by
  simp [payloads]

theorem dataFrame_regular {id : Int} {endStream : Bool} {chunks : List Bytes} {e : Event}
    (member : e ∈ dataFrame id endStream chunks) : e.Regular := by
  simp only [dataFrame, List.mem_append, List.mem_map, List.mem_singleton] at member
  rcases member with ⟨chunk, _, rfl⟩ | rfl <;> trivial

theorem trailerBlock_regular {id : Int} {fields : List Field}
    (regular : ∀ f ∈ fields, Client.Regular f) {e : Event} (member : e ∈ trailerBlock id fields) :
    e.Regular := by
  simp only [trailerBlock, List.mem_cons, List.mem_append, List.mem_map, List.not_mem_nil,
    or_false] at member
  rcases member with rfl | ⟨f, inside, rfl⟩ | rfl
  · trivial
  · exact regular f inside
  · trivial

theorem Carries.read {id : Int} {reads : List (Nat × ReadResult)} {frames : List Event}
    (carried : Carries id reads frames) (running : reads.all (fun read => !read.2.eof) = true)
    (len : Nat) {r : ReadResult} {chunks : List Bytes} (pieces : Pieces r chunks) :
    Carries id (reads ++ [(len, r)]) (frames ++ readEvents id r chunks) := by
  obtain ⟨after, earlier, marks, given, filled, bytes, marked⟩ := carried
  have unmarked : marks = [] := by
    refine marked.resolve_right (fun both => ?_)
    obtain ⟨read, member, eof⟩ := List.any_eq_true.mp both.2
    have still := List.all_eq_true.mp running read member
    simp [eof] at still
  rw [unmarked, List.append_nil] at given
  constructor
  · intro e member
    rcases List.mem_append.mp member with old | new
    · exact after e old
    · unfold readEvents at new
      split at new
      · contradiction
      · exact ⟨dataFrame_after new, dataFrame_regular new⟩
  · rw [List.flatMap_append, given, payloads_concat, ← pieces.1, ← bytes]
    unfold readEvents
    split
    · rename_i refused
      have empty : chunks = [] := by
        have nothing : chunks.flatten = [] := by
          rw [pieces.1, ReadResult.payload, Int.toNat_of_nonpos (by omega), List.take_zero]
        cases chunks with
        | nil => rfl
        | cons chunk rest => exact absurd (List.append_eq_nil_iff.mp nothing).1 (pieces.2 chunk (by simp))
      exact ⟨earlier, [], by simp, filled, by simp [empty], Or.inl rfl⟩
    · refine ⟨earlier ++ chunks, if r.endStream then [[]] else [], ?_, ?_, by simp, ?_⟩
      · rw [dataFrame_given, List.append_assoc]
      · intro chunk member
        exact (List.mem_append.mp member).elim (filled chunk) (pieces.2 chunk)
      · cases ended : r.endStream with
        | false => exact Or.inl rfl
        | true =>
          rw [ReadResult.endStream, Bool.and_eq_true] at ended
          exact Or.inr ⟨rfl, by simp [ended.1]⟩

theorem Carries.trailer {id : Int} {reads : List (Nat × ReadResult)} {frames : List Event}
    (carried : Carries id reads frames) {fields : List Field}
    (regular : ∀ f ∈ fields, Client.Regular f) :
    Carries id reads (frames ++ trailerBlock id fields) := by
  refine ⟨fun e member => ?_, ?_⟩
  · rcases List.mem_append.mp member with old | new
    · exact carried.after e old
    · have inside : e ∈ (Ending.trailer fields).events id := new
      exact ⟨ending_after inside, trailerBlock_regular regular new⟩
  · have silent : (trailerBlock id fields).flatMap Event.given = [] := ending_given id (.trailer fields)
    rw [List.flatMap_append, silent, List.append_nil]
    exact carried.given

theorem payloads_string {data : Bytes} {reads : List (Nat × ReadResult)} (delivers : Delivers data reads) :
    payloads reads <+: data ∧ (reads.any (fun read => read.2.eof) = true → payloads reads = data) := by
  have same : payloads reads = delivered reads := by
    apply List.flatMap_congr
    intro read member
    rw [ReadResult.payload, (delivers.fits read member).2, Int.toNat_natCast, List.take_length]
  rw [same]
  refine ⟨delivers.ordered, fun ended => ?_⟩
  obtain ⟨read, member, eof⟩ := List.any_eq_true.mp ended
  obtain ⟨past, rest, split⟩ := List.append_of_mem member
  have flags := delivers.eof past read rest split
  have upto : delivered (past ++ [read]) = data := by
    by_contra short
    rw [if_neg short] at flags
    simp [ReadResult.eof, flags] at eof
  have longer : data <+: delivered reads := by
    rw [← upto, split]
    simp [delivered]
  exact delivers.ordered.eq_of_length_le longer.length_le

/-- What the client gets of a response: nothing before its head, then the head once and
    frames that carry what is read. -/
inductive Answered (id : Int) : Option Responding → List Event → Prop where
  | idle : Answered id none []
  | waiting (r : Responding) (owed : Server.Owed r.pushed r.calls) (unsent : r.sent = none)
      (unread : r.reads = []) : Answered id (some r) []
  | started (r : Responding) (s : Server.Submission) (frames : List Event)
      (owed : Server.Owed r.pushed r.calls) (sent : r.sent = some s)
      (once : Server.submissions r.effects = [s]) (carried : Carries id r.reads frames)
      (bare : s.provider = false → r.reads = [] ∧ frames = []) :
      Answered id (some r) (answerBlock id r.pushed s ++ frames)

theorem headSent_some {effects : List Server.Effect} {s : Server.Submission}
    (sent : headSent effects = some s) : s ∈ Server.submissions effects := by
  unfold headSent at sent
  split at sent
  · contradiction
  · exact List.mem_of_head? sent

theorem effects_concat (r : Responding) (c : Server.Call) (sent : Option Server.Submission) :
    ({ r with calls := r.calls ++ [c], sent := sent } : Responding).effects =
      r.effects ++ (r.response.step r.method c).2 := by
  simp only [Responding.effects, Responding.response, Server.respond_concat]

theorem reads_concat (r : Responding) (c : Server.Call) (sent : Option Server.Submission) :
    ({ r with calls := r.calls ++ [c], sent := sent } : Responding).reads =
      r.reads ++ readAll r.response.generatorCb c.bufferSize.toList := by
  rw [Responding.reads, effects_concat, Server.readings_append, Server.step_readings]
  rfl

theorem submitted_once {r : Responding} {c : Server.Call}
    (owed : Server.Owed r.pushed (r.calls ++ [c])) (some_ : Server.submissions r.effects ≠ []) :
    Server.submissions (r.response.step r.method c).2 = [] := by
  by_contra again
  obtain ⟨_, fresh⟩ := (Server.step_starts r.method r.pushed r.calls c owed).mp again
  exact some_ ((Server.respond_reflects r.method r.pushed r.calls owed.init.1).early fresh)

theorem submitted_first {r : Responding} {c : Server.Call} {s : Server.Submission}
    (owed : Server.Owed r.pushed (r.calls ++ [c]))
    (sent : headSent (r.response.step r.method c).2 = some s) :
    Server.submissions (r.effects ++ (r.response.step r.method c).2) = [s] := by
  have member := headSent_some sent
  have after := Server.respond_reflects r.method r.pushed (r.calls ++ [c]) owed
  obtain ⟨due, fresh⟩ := (Server.step_starts r.method r.pushed r.calls c owed).mp
    (List.ne_nil_of_mem member)
  obtain ⟨date, one⟩ := after.due due
  rw [Server.respond_concat] at one
  change Server.submissions (r.effects ++ (r.response.step r.method c).2) = _ at one
  have inside : s ∈ Server.submissions (r.effects ++ (r.response.step r.method c).2) := by
    rw [Server.submissions_append]
    exact List.mem_append_right _ member
  rw [one, List.mem_singleton] at inside
  rw [one, inside]

theorem Answered.call {id : Int} {r : Responding} {tail : List Event} {c : Server.Call}
    (holds : Answered id (some r) tail) (quiet : c.bufferSize = none)
    (owed : Server.Owed r.pushed (r.calls ++ [c])) :
    Answered id (some { r with
        calls := r.calls ++ [c]
        sent := r.sent.or (headSent (r.response.step r.method c).2) })
      (tail ++ ((headSent (r.response.step r.method c).2).map (answerBlock id r.pushed)).getD []) := by
  have reads := reads_concat r c (r.sent.or (headSent (r.response.step r.method c).2))
  have effects := effects_concat r c (r.sent.or (headSent (r.response.step r.method c).2))
  rw [quiet, Option.toList_none, readAll, List.append_nil] at reads
  cases holds with
  | waiting _ _ unsent unread =>
    cases head : headSent (r.response.step r.method c).2 with
    | none =>
      rw [head] at reads
      exact .waiting _ owed (by simp [unsent]) (reads.trans unread)
    | some s =>
      rw [head, unsent] at reads effects
      have carried := carries_nil id
      rw [← unread, ← reads] at carried
      have shape : Answered id _ _ := .started _ s [] owed rfl
        (effects ▸ submitted_first owed head) carried (fun _ => ⟨reads.trans unread, rfl⟩)
      simpa [unsent] using shape
  | started _ s frames _ sent once carried bare =>
    have silent := submitted_once owed (by simp [once])
    have none_ : headSent (r.response.step r.method c).2 = none := by
      unfold headSent
      split <;> simp [silent]
    rw [none_] at reads effects ⊢
    rw [Option.map_none, Option.getD_none, List.append_nil]
    refine .started _ s frames owed (by simp [sent]) ?_ ?_ ?_
    · rw [effects, Server.submissions_append, silent, once, List.append_nil]
    · rw [reads]
      exact carried
    · rw [reads]
      exact bare

theorem Answered.read {id : Int} {r : Responding} {tail : List Event} {s : Server.Submission}
    (holds : Answered id (some r) tail) (sent : r.sent = some s) (provided : s.provider = true)
    (running : r.reads.all (fun read => !read.2.eof) = true) (len : Nat) {chunks : List Bytes}
    (pieces : Pieces (callRead r.response.generatorCb len).1 chunks) :
    Answered id (some { r with calls := r.calls ++ [.callRead len] })
      (tail ++ readEvents id (callRead r.response.generatorCb len).1 chunks) := by
  have owed : Server.Owed r.pushed r.calls → Server.Owed r.pushed (r.calls ++ [.callRead len]) := by
    intro owed plain promised
    rw [Server.promiseSent_concat] at promised
    exact owed plain (promised.resolve_right (by simp [Server.Call.promised]))
  cases holds with
  | waiting _ _ unsent _ => simp [unsent] at sent
  | started _ t frames before given once carried bare =>
    rw [sent] at given
    obtain rfl := Option.some.inj given
    rw [List.append_assoc]
    refine .started { r with calls := r.calls ++ [.callRead len] } s _ (owed before) sent ?_ ?_
      (fun absent => by simp [provided] at absent)
    · rw [effects_concat r (.callRead len) r.sent, Server.submissions_append, once]
      rfl
    · rw [reads_concat r (.callRead len) r.sent]
      exact carried.read running len pieces

theorem Answered.trail {id : Int} {r : Responding} {tail : List Event}
    (holds : Answered id (some r) tail) (sent : r.sent.isSome = true)
    (ended : r.reads.any (fun read => read.2.eof) = true) {fields : List Field}
    (regular : ∀ f ∈ fields, Client.Regular f) :
    Answered id (some r) (tail ++ trailerBlock id fields) := by
  cases holds with
  | waiting _ _ unsent _ => simp [unsent] at sent
  | started _ s frames owed given once carried bare =>
    rw [List.append_assoc]
    refine .started r s _ owed given once (carried.trailer regular) (fun absent => ?_)
    simp [(bare absent).1] at ended

def Request.Made {α : Type} (ends : Ends α) (r : Request) : Prop :=
  ∃ u, Accepts r.uri u ∧
    r.nva = submitNva r.method u (submitUri ends.inetPton u r.uri) r.header ∧
    r.stored = submitRequest (submitUri ends.inetPton u r.uri) r.header

def Promise.Made (p : Promise) : Prop :=
  p.nva = Server.pushNva p.base p.method p.rawPathQuery p.header ∧
    p.stored = Server.promisedRequest p.base p.method p.rawPathQuery p.header

/-- A stream id is unused, or carries a request and its answer, or a promise and what
    was promised. -/
inductive Lane {α : Type} (ends : Ends α) (id : Int) : Option Request → Option Promise →
    Option Responding → List Server.Input → List Client.Input → Prop where
  | unused : Lane ends id none none none [] []
  | requested (r : Request) (resp : Option Responding) (frames tail : List Event)
      (made : r.Made ends) (carried : Carries id r.reads frames)
      (bare : r.body = none → frames = []) (answer : Answered id resp tail)
      (plain : ∀ x, resp = some x → x.pushed = false) :
      Lane ends id (some r) none resp ((requestBlock id r ++ frames).map .recv)
        (.submit id r.stored :: tail.map .recv)
  | promised (p : Promise) (resp : Responding) (tail : List Event) (made : p.Made)
      (gated : p.sent = false → tail = [] ∧ resp.sent = none) (answer : Answered id (some resp) tail)
      (isPushed : resp.pushed = true) (sent : p.sent = true ↔ Server.PromiseSent resp.calls) :
      Lane ends id none (some p) (some resp) [.push id p.stored]
        (((if p.sent then promiseBlock id p else []) ++ tail).map .recv)

structure Good {α : Type} (ends : Ends α) (link : Link) : Prop where
  lanes : ∀ id, Lane ends id (link.requests id) (link.promises id) (link.responding id)
    (link.up id) (link.down id)
  serverOrder : Channel.InOrder Server.Input.streamId Server.Input.closing link.up link.serverPast
  clientOrder : Channel.InOrder Client.Input.lane Client.Input.closing link.down link.clientPast

section Steps
variable {α : Type} {ends : Ends α} {link : Link} {id : Int}

theorem lane_unused {resp : Option Responding} {up : List Server.Input} {down : List Client.Input}
    (lane : Lane ends id none none resp up down) : resp = none ∧ up = [] ∧ down = [] := by
  cases lane
  exact ⟨rfl, rfl, rfl⟩

theorem Good.unused (good : Good ends link) (unused : link.Unused id) :
    link.requests id = none ∧ link.promises id = none ∧ link.responding id = none ∧
      link.up id = [] ∧ link.down id = [] := by
  have noRequest := Option.isNone_iff_eq_none.mp unused.1
  have noPromise := Option.isNone_iff_eq_none.mp unused.2
  have lane := good.lanes id
  rw [noRequest, noPromise] at lane
  obtain ⟨silent, up, down⟩ := lane_unused lane
  exact ⟨noRequest, noPromise, silent, up, down⟩

theorem good_new (ends : Ends α) : Good ends Link.new where
  lanes _ := .unused
  serverOrder _ := List.prefix_rfl
  clientOrder _ := List.prefix_rfl

theorem Good.submitted (good : Good ends link) (unused : link.Unused id) {r : Request}
    (made : r.Made ends) (unread : r.lens = []) : Good ends (link.submitted id r) := by
  obtain ⟨_, noPromise, silent, up, down⟩ := good.unused unused
  refine ⟨fun k => ?_, ?_, ?_⟩
  · by_cases same : k = id
    · subst same
      simp only [Link.submitted, Function.update_self, noPromise, silent]
      have lane : Lane ends k _ _ _ _ _ := .requested r none [] [] made
        (by rw [Request.reads, unread]; exact carries_nil k) (fun _ => rfl) .idle (by simp)
      simpa using lane
    · simp only [Link.submitted, Function.update_of_ne same]
      exact good.lanes k
  · have order := good.serverOrder.extend id ((requestBlock id r).map .recv)
    rw [up, List.nil_append] at order
    exact order
  · exact good.clientOrder.begin (.submit id r.stored) rfl down

theorem Good.uploaded (good : Good ends link) {r : Request} (found : link.requests id = some r)
    (provided : r.body.isSome = true) (running : r.reads.all (fun read => !read.2.eof) = true)
    (len : Nat) {chunks : List Bytes} (pieces : Pieces (callRead (advance r.body r.lens) len).1 chunks) :
    Good ends (link.uploaded id r len (readEvents id (callRead (advance r.body r.lens) len).1 chunks)) := by
  refine ⟨fun k => ?_, good.serverOrder.extend id _, good.clientOrder⟩
  by_cases same : k = id
  · subst same
    have lane := good.lanes k
    simp only [Link.uploaded, Function.update_self]
    generalize link.up k = up at *
    generalize link.down k = down at *
    generalize link.responding k = resp at *
    generalize link.promises k = promises at *
    rw [found] at lane
    cases lane with
    | requested _ resp frames tail made carried bare answer plain =>
      have reads : ({ r with lens := r.lens ++ [len] } : Request).reads =
          r.reads ++ [(len, (callRead (advance r.body r.lens) len).1)] := by
        simp only [Request.reads, readAll_append]
        rfl
      have more := carried.read running len pieces
      rw [← reads] at more
      rw [← List.map_append, List.append_assoc]
      exact .requested { r with lens := r.lens ++ [len] } resp _ tail made more
        (fun absent => by simp [show r.body = none from absent] at provided) answer plain
  · simp only [Link.uploaded, Function.update_of_ne same]
    exact good.lanes k

theorem Good.trailed (good : Good ends link) {r : Request} (found : link.requests id = some r)
    (provided : r.body.isSome = true) {fields : List Field}
    (regular : ∀ f ∈ fields, Client.Regular f) : Good ends (link.trailed id (trailerBlock id fields)) := by
  refine ⟨fun k => ?_, good.serverOrder.extend id _, good.clientOrder⟩
  by_cases same : k = id
  · subst same
    have lane := good.lanes k
    simp only [Link.trailed, Function.update_self]
    generalize link.up k = up at *
    generalize link.down k = down at *
    generalize link.responding k = resp at *
    generalize link.promises k = promises at *
    rw [found] at lane ⊢
    cases lane with
    | requested _ resp frames tail made carried bare answer plain =>
      rw [← List.map_append, List.append_assoc]
      exact .requested r resp _ tail made (carried.trailer regular)
        (fun absent => by simp [show r.body = none from absent] at provided) answer plain
  · simp only [Link.trailed, Function.update_of_ne same]
    exact good.lanes k

theorem Good.answered (good : Good ends link) {r : Responding} (events : List Event)
    (lane : Lane ends id (link.requests id) (link.promises id) (some r) (link.up id)
      (link.down id ++ events.map .recv)) : Good ends (link.answered id r events) := by
  refine ⟨fun k => ?_, good.serverOrder, good.clientOrder.extend id _⟩
  by_cases same : k = id
  · subst same
    simpa only [Link.answered, Function.update_self] using lane
  · simp only [Link.answered, Function.update_of_ne same]
    exact good.lanes k

theorem gated_call {r : Responding} {c : Server.Call} (isPushed : r.pushed = true)
    (unsent : ¬ Server.PromiseSent (r.calls ++ [c])) :
    headSent (r.response.step r.method c).2 = none := by
  by_contra some_
  obtain ⟨s, sent⟩ := Option.ne_none_iff_exists'.mp some_
  have owed : Server.Owed r.pushed (r.calls ++ [c]) := fun _ => unsent
  obtain ⟨due, _⟩ := (Server.step_starts r.method r.pushed r.calls c owed).mp
    (List.ne_nil_of_mem (headSent_some sent))
  rcases due.2 with plain | promised
  · rw [isPushed] at plain
    contradiction
  · exact unsent promised

theorem Lane.call {req : Option Request} {promise : Option Promise} {r : Responding}
    {up : List Server.Input} {down : List Client.Input} {c : Server.Call}
    (lane : Lane ends id req promise (some r) up down) (app : c.ofApp = true) :
    Lane ends id req promise (some { r with
        calls := r.calls ++ [c]
        sent := r.sent.or (headSent (r.response.step r.method c).2) }) up
      (down ++ ((((headSent (r.response.step r.method c).2).map
        (answerBlock id r.pushed)).getD []).map .recv)) := by
  have quiet : c.bufferSize = none ∧ c.promised = false := by
    cases c <;> first | exact ⟨rfl, rfl⟩ | contradiction
  have same : Server.PromiseSent (r.calls ++ [c]) ↔ Server.PromiseSent r.calls := by
    simp [Server.promiseSent_concat, quiet.2]
  cases lane with
  | requested req _ frames tail made carried bare answer plain =>
    have owed : Server.Owed r.pushed (r.calls ++ [c]) := by
      intro off
      rw [same]
      cases answer with
      | waiting _ owed _ _ => exact owed off
      | started _ _ _ owed _ _ _ _ => exact owed off
    rw [List.cons_append, ← List.map_append]
    exact .requested req _ frames _ made carried bare (answer.call quiet.1 owed) (by simp [plain])
  | promised p _ tail made gated answer isPushed sent =>
    have owed : Server.Owed r.pushed (r.calls ++ [c]) := by
      intro off
      rw [isPushed] at off
      contradiction
    rw [← List.map_append, List.append_assoc]
    refine .promised p _ _ made (fun waits => ?_) (answer.call quiet.1 owed) isPushed (by rw [sent, same])
    have unsent : ¬ Server.PromiseSent (r.calls ++ [c]) := by
      rw [same, ← sent]
      simp [waits]
    rw [gated_call isPushed unsent, (gated waits).1, (gated waits).2]
    exact ⟨rfl, rfl⟩

theorem Lane.read {req : Option Request} {promise : Option Promise} {r : Responding}
    {up : List Server.Input} {down : List Client.Input} {s : Server.Submission}
    (lane : Lane ends id req promise (some r) up down) (given : r.sent = some s)
    (provided : s.provider = true) (running : r.reads.all (fun read => !read.2.eof) = true)
    (len : Nat) {chunks : List Bytes} (pieces : Pieces (callRead r.response.generatorCb len).1 chunks) :
    Lane ends id req promise (some { r with calls := r.calls ++ [.callRead len] }) up
      (down ++ (readEvents id (callRead r.response.generatorCb len).1 chunks).map .recv) := by
  cases lane with
  | requested req _ frames tail made carried bare answer plain =>
    rw [List.cons_append, ← List.map_append]
    exact .requested req _ frames _ made carried bare
      (answer.read given provided running len pieces) (by simp [plain])
  | promised p _ tail made gated answer isPushed sent =>
    rw [← List.map_append, List.append_assoc]
    refine .promised p _ _ made (fun waits => ?_) (answer.read given provided running len pieces)
      isPushed (by simp [sent, Server.promiseSent_concat, Server.Call.promised])
    rw [(gated waits).2] at given
    contradiction

theorem Lane.trail {req : Option Request} {promise : Option Promise} {r : Responding}
    {up : List Server.Input} {down : List Client.Input}
    (lane : Lane ends id req promise (some r) up down) (given : r.sent.isSome = true)
    (ended : r.reads.any (fun read => read.2.eof) = true) {fields : List Field}
    (regular : ∀ f ∈ fields, Client.Regular f) :
    Lane ends id req promise (some r) up (down ++ (trailerBlock id fields).map .recv) := by
  cases lane with
  | requested req _ frames tail made carried bare answer plain =>
    rw [List.cons_append, ← List.map_append]
    exact .requested req _ frames _ made carried bare (answer.trail given ended regular) plain
  | promised p _ tail made gated answer isPushed sent =>
    rw [← List.map_append, List.append_assoc]
    refine .promised p _ _ made (fun waits => ?_) (answer.trail given ended regular) isPushed sent
    rw [(gated waits).2] at given
    contradiction

theorem Lane.promise {p : Promise} {r : Responding} {req : Option Request}
    {up : List Server.Input} {down : List Client.Input}
    (lane : Lane ends id req (some p) (some r) up down) (waits : p.sent = false)
    (answer : Server.Answer) :
    Lane ends id req (some { p with sent := true }) (some { r with
        calls := r.calls ++ [.pushPromiseSent answer]
        sent := r.sent.or (headSent (r.response.step r.method (.pushPromiseSent answer)).2) }) up
      (down ++ (promiseBlock id p).map .recv ++ ((((headSent (r.response.step r.method
        (.pushPromiseSent answer)).2).map (answerBlock id r.pushed)).getD []).map .recv)) := by
  cases lane with
  | promised _ _ tail made gated answered isPushed sent =>
    have owed : Server.Owed r.pushed (r.calls ++ [.pushPromiseSent answer]) := by
      intro off
      rw [isPushed] at off
      contradiction
    have more := answered.call rfl owed
    rw [(gated waits).1, List.nil_append] at more
    have lane : Lane ends id _ _ _ _ _ := .promised { p with sent := true } _ _ made (by simp) more isPushed
      (by simp [Server.promiseSent_concat, Server.Call.promised])
    simpa [(gated waits).1, waits, promiseBlock] using lane

theorem Good.pushed (good : Good ends link) (unused : link.Unused id) {p : Promise} (made : p.Made)
    (waits : p.sent = false) : Good ends (link.pushed id p) := by
  obtain ⟨noRequest, _, _, up, down⟩ := good.unused unused
  refine ⟨fun k => ?_, ?_, good.clientOrder⟩
  · by_cases same : k = id
    · subst same
      simp only [Link.pushed, Function.update_self, noRequest, down]
      have lane : Lane ends k _ _ _ _ _ := .promised p ⟨p.stored.method, true, [], none⟩ [] made
        (fun _ => ⟨rfl, rfl⟩) (.waiting _ (by simp [Server.Owed]) rfl rfl) rfl
        (by simp [waits, Server.PromiseSent])
      simpa [waits] using lane
    · simp only [Link.pushed, Function.update_of_ne same]
      exact good.lanes k
  · exact good.serverOrder.begin (.push id p.stored) rfl up

theorem Good.promised (good : Good ends link) {p : Promise} {r : Responding}
    (found : link.promises id = some p) (responds : link.responding id = some r)
    (waits : p.sent = false) (answer : Server.Answer) :
    Good ends ((link.promised id p).called id r (.pushPromiseSent answer)) := by
  have lane := good.lanes id
  rw [found, responds] at lane
  have next := lane.promise waits answer
  refine ⟨fun k => ?_, good.serverOrder, ?_⟩
  · by_cases same : k = id
    · subst same
      simpa only [Link.called, Link.answered, Link.promised, Function.update_self] using next
    · simp only [Link.called, Link.answered, Link.promised, Function.update_of_ne same]
      exact good.lanes k
  · exact (good.clientOrder.extend id _).extend id _

theorem served_cases (ends : Ends α) (link : Link) (e : Event) :
    link.served ends e = link.responding ∨
      ∃ method, link.served ends e = Function.update link.responding e.streamId
        ((link.responding e.streamId).or (some ⟨method, false, [], none⟩)) := by
  have tagged := (Server.act_local ends.server).tagged (link.serverStreams ends) (.recv e)
  unfold Link.served
  split
  · rename_i id cb req rest outputs
    have mine : id = e.streamId := tagged (.request id cb req) (by simp [outputs])
    exact Or.inr ⟨req.method, by rw [mine]⟩
  · exact Or.inl rfl

theorem Good.served (good : Good ends link) {e : Event}
    (next : Channel.Next Server.Input.streamId Server.Input.closing link.up link.serverPast (.recv e)) :
    Good ends { link with
      serverPast := link.serverPast ++ [.recv e]
      responding := link.served ends e } := by
  refine ⟨fun k => ?_, good.serverOrder.receive next, good.clientOrder⟩
  have lane := good.lanes k
  dsimp only
  rcases served_cases ends link e with same | ⟨method, appears⟩
  · rw [same]
    exact lane
  · rw [appears]
    by_cases same : k = e.streamId
    · rw [same, Function.update_self, ← same]
      have arrived : link.up k ≠ [] := by
        intro nothing
        have inside := next.2
        rw [show (Server.Input.recv e).streamId = k from same.symm, nothing] at inside
        simp at inside
      generalize link.up k = up at *
      generalize link.down k = down at *
      generalize link.responding k = resp at *
      generalize link.promises k = promises at *
      generalize link.requests k = requests at *
      cases lane with
      | unused => contradiction
      | requested r resp frames tail made carried bare answer plain =>
        cases resp with
        | none =>
          cases answer
          exact .requested r _ frames [] made carried bare
            (.waiting _ (by simp [Server.Owed, Server.PromiseSent]) rfl rfl) (by simp)
        | some resp => exact .requested r _ frames tail made carried bare answer plain
      | promised p resp tail made gated answer isPushed sent =>
        exact .promised p resp tail made gated answer isPushed sent
    · rw [Function.update_of_ne same]
      exact lane

theorem lane_of_concerns {i : Client.Input} (mine : i.concerns = some id) : i.lane = id := by
  rcases i with ⟨k, request⟩ | e
  · exact Option.some.inj mine
  · cases e with
    | beginHeaders frame => cases frame <;> first | contradiction | exact Option.some.inj mine
    | header frame f => cases frame <;> first | contradiction | exact Option.some.inj mine
    | frameRecv frame => cases frame <;> first | contradiction | exact Option.some.inj mine
    | dataChunk k data => exact Option.some.inj mine
    | streamClose k errorCode => exact Option.some.inj mine

theorem concerning_taken (past : List Client.Input) (id : Int) :
    (past.filter (fun i => i.concerns = some id)).filter (fun i => !i.closing) =
      (Channel.taken Client.Input.lane Client.Input.closing past id).filter
        (fun i => i.concerns = some id) := by
  unfold Channel.taken
  rw [List.filter_filter, List.filter_filter]
  apply List.filter_congr
  intro i _
  by_cases mine : i.concerns = some id
  · simp [mine, lane_of_concerns mine]
  · simp [mine]

theorem own_taken (past : List Server.Input) (id : Int) :
    (past.filter (fun i => i.streamId = id)).filter (fun i => !i.closing) =
      Channel.taken Server.Input.streamId Server.Input.closing past id := by
  unfold Channel.taken
  rw [List.filter_filter]
  apply List.filter_congr
  intro i _
  exact Bool.and_comm _ _

theorem response_closed (app : Client.App) (res : Option Client.ResponseImpl) (i : Client.Input)
    (closed : i.closing = true) : Client.ResponseImpl.step app res i = (none, []) := by
  unfold Client.Input.closing at closed
  split at closed
  · rfl
  · contradiction

theorem stream_closed (app : Server.App α) (strm : Option Server.Stream) (i : Server.Input)
    (closed : i.closing = true) : ∃ id errorCode, Server.Stream.act app strm i =
      (none, (strm.map (Server.callOnClose id · errorCode)).getD []) := by
  unfold Server.Input.closing at closed
  split at closed
  · exact ⟨_, _, rfl⟩
  · contradiction

theorem Good.fresh_client (good : Good ends link) (unused : link.Unused id) :
    Client.findStream (link.clientStreams ends) id = none := by
  obtain ⟨_, _, _, _, down⟩ := good.unused unused
  have nothing : Channel.taken Client.Input.lane Client.Input.closing link.clientPast id = [] :=
    List.prefix_nil.mp (down ▸ good.clientOrder id)
  have silent := (Client.heard_own ends.client id link.clientPast).2
  have only := concerning_taken link.clientPast id
  rw [nothing, List.filter_nil] at only
  rw [Channel.run_closed (fun s i closed => by rw [response_closed ends.client s i closed]) _ only] at silent
  cases found : Client.findStream (link.clientStreams ends) id with
  | none => rfl
  | some strm =>
    rw [Link.clientStreams] at found
    simp [Client.responseOf, found] at silent

theorem Good.fresh_server (good : Good ends link) (unused : link.Unused id) :
    Server.findStream (link.serverStreams ends) id = none := by
  obtain ⟨_, _, _, up, _⟩ := good.unused unused
  have nothing : Channel.taken Server.Input.streamId Server.Input.closing link.serverPast id = [] :=
    List.prefix_nil.mp (up ▸ good.serverOrder id)
  have entry := (Trace.run_projection (Server.act_local ends.server) id link.serverPast ∅).1
  have only := own_taken link.serverPast id
  rw [nothing] at only
  have start : Server.findStream ∅ id = none := by simp [Server.findStream]
  rw [start, Channel.run_closed (fun s i closed => by
    obtain ⟨_, _, gone⟩ := stream_closed ends.server s i closed
    rw [gone]) _ only] at entry
  exact entry

theorem step_good (good : Good ends link) {a : Action} {next : Link}
    (stepped : link.step ends a = some next) : Good ends next := by
  cases a with
  | submit id method uri header body =>
    simp only [Link.step, Option.bind_eq_bind, Option.bind_eq_some_iff, Option.guard_eq_some',
      Prod.exists] at stepped
    obtain ⟨_, unused, streams, nva, submitted, strm, found, result⟩ := stepped
    obtain rfl := Option.some.inj result
    obtain ⟨u, accepted, sent, stored⟩ := Client.submit_some submitted
    have fresh := good.fresh_client unused
    rw [stored, Client.find_emplace, if_pos rfl, fresh, Option.none_or] at found
    obtain rfl := Option.some.inj found
    exact good.submitted unused ⟨u, accepted, sent, rfl⟩ rfl
  | upload id len chunks =>
    simp only [Link.step, Option.bind_eq_bind, Option.bind_eq_some_iff, Option.guard_eq_some'] at stepped
    obtain ⟨r, found, _, ⟨provided, running⟩, _, pieces, result⟩ := stepped
    obtain rfl := Option.some.inj result
    exact good.uploaded found provided running len pieces
  | uploadTrailer id h =>
    simp only [Link.step, Option.bind_eq_bind, Option.bind_eq_some_iff, Option.guard_eq_some'] at stepped
    obtain ⟨r, found, _, ⟨plain, provided, _, _⟩, result⟩ := stepped
    obtain rfl := Option.some.inj result
    exact good.trailed found provided (mapFields_regular plain)
  | call id c =>
    simp only [Link.step, Option.bind_eq_bind, Option.bind_eq_some_iff, Option.guard_eq_some'] at stepped
    obtain ⟨r, found, _, app, result⟩ := stepped
    obtain rfl := Option.some.inj result
    exact good.answered _ ((found ▸ good.lanes id).call app)
  | download id len chunks =>
    simp only [Link.step, Option.bind_eq_bind, Option.bind_eq_some_iff, Option.guard_eq_some'] at stepped
    obtain ⟨r, found, s, sent, _, ⟨provided, running⟩, _, pieces, result⟩ := stepped
    obtain rfl := Option.some.inj result
    exact good.answered _ ((found ▸ good.lanes id).read sent provided running len pieces)
  | trailer id h =>
    simp only [Link.step, Option.bind_eq_bind, Option.bind_eq_some_iff, Option.guard_eq_some'] at stepped
    obtain ⟨r, found, _, ⟨_, plain, sent⟩, _, ⟨ended, _⟩, result⟩ := stepped
    obtain rfl := Option.some.inj result
    exact good.answered _ ((found ▸ good.lanes id).trail sent ended (mapFields_regular plain))
  | push parent promised method rawPathQuery header =>
    simp only [Link.step, Option.bind_eq_bind, Option.bind_eq_some_iff, Option.guard_eq_some',
      Prod.exists] at stepped
    obtain ⟨_, unused, strm, _, streams, nva, pushed, pushStrm, found, result⟩ := stepped
    obtain rfl := Option.some.inj result
    unfold Server.pushPromise at pushed
    split_ifs at pushed
    obtain ⟨stored, sent⟩ := Prod.mk.inj (Option.some.inj pushed)
    have fresh := good.fresh_server unused
    rw [Server.findStream] at fresh
    rw [← stored, Server.findStream, OrderedTable.get_emplace, if_pos rfl, fresh, Option.none_or] at found
    obtain rfl := Option.some.inj found
    exact good.pushed unused ⟨sent.symm, rfl⟩ rfl
  | promise promised answer =>
    simp only [Link.step, Option.bind_eq_bind, Option.bind_eq_some_iff, Option.guard_eq_some'] at stepped
    obtain ⟨p, found, r, responds, _, waits, result⟩ := stepped
    obtain rfl := Option.some.inj result
    exact good.promised found responds waits answer
  | toServer e =>
    simp only [Link.step, Option.bind_eq_bind, Option.bind_eq_some_iff, Option.guard_eq_some'] at stepped
    obtain ⟨_, arrives, result⟩ := stepped
    obtain rfl := Option.some.inj result
    exact good.served arrives
  | toClient e =>
    simp only [Link.step, Option.bind_eq_bind, Option.bind_eq_some_iff, Option.guard_eq_some'] at stepped
    obtain ⟨_, arrives, result⟩ := stepped
    obtain rfl := Option.some.inj result
    exact ⟨good.lanes, good.serverOrder, good.clientOrder.receive arrives⟩
  | closeServer id errorCode =>
    obtain rfl := Option.some.inj stepped
    exact ⟨good.lanes, good.serverOrder.local rfl, good.clientOrder⟩
  | closeClient id errorCode =>
    obtain rfl := Option.some.inj stepped
    exact ⟨good.lanes, good.serverOrder, good.clientOrder.local rfl⟩

theorem good_reached (reached : link.Reached ends) : Good ends link := by
  obtain ⟨actions, ran⟩ := reached
  exact Trace.foldlM_preserves (Good ends) actions (fun _ good stepped => step_good good stepped)
    (good_new ends) ran

end Steps

end Nghttp2Asio
