import Nghttp2Asio.Http
import Nghttp2Asio.Library.OrderedTable
import Nghttp2Asio.Library.Trace

/-!
The streams of a client session under the callbacks nghttp2 makes while it reads input
(asio_client_session_impl.cc, asio_client_stream.cc, asio_client_response_impl.cc). The
response part of one stream depends on the events that concern it and on nothing else.
-/
namespace Nghttp2Asio.Client
open Util OrderedTable

/-- The members of `response_impl`; `onData` tells that a data callback is installed. -/
structure ResponseImpl where
  statusCode : Int
  contentLength : Int
  store : HeaderStore
  onData : Bool
  deriving DecidableEq

def ResponseImpl.new : ResponseImpl := ⟨0, -1, .empty, false⟩

structure Stream where
  request : RequestImpl
  response : ResponseImpl
  deriving DecidableEq

def Stream.new (request : RequestImpl) : Stream := ⟨request, .new⟩

abbrev Streams := Std.ExtTreeMap Int Stream

def ResponseImpl.expectFinalResponse (res : ResponseImpl) : Bool :=
  res.statusCode.tdiv 100 = 1

def toInt (n : Int) : Int := n.bmod (2 ^ 32)

/-- The fields of a HEADERS frame; the flag tells that the budget is spent and the stream
    is to be reset. -/
def ResponseImpl.receive (res : ResponseImpl) (f : Field) : ResponseImpl × Bool :=
  let token := lookupToken f.name
  if token = some .status then ({ res with statusCode := toInt (parseUint f.value) }, false)
  else
    match res.store.add f with
    | none => (res, true)
    | some store =>
      ({ res with
          store := store
          contentLength :=
            if token = some .contentLength then parseUint f.value else res.contentLength },
        false)

/-- The test under "ignore trailers". -/
def ResponseImpl.ignores (res : ResponseImpl) (cat : HeadersCategory) : Bool :=
  cat = .headers && !res.expectFinalResponse

/-- What the application installs: response callbacks on some streams, and data callbacks
    when they run. -/
structure App where
  onResponse : Int → Bool
  onData : Int → ResponseImpl → Bool

/-- The calls of `call_on_response`, `call_on_data`, `call_on_push` and `call_on_close`,
    and the resets submitted on the way. `heard` tells that a callback is installed. -/
inductive Output where
  | response (streamId : Int) (res : ResponseImpl) (heard : Bool)
  | data (streamId : Int) (data : Bytes) (heard : Bool)
  | push (streamId promisedStreamId : Int) (req : RequestImpl)
  | close (streamId : Int) (errorCode : UInt32)
  | rstStream (streamId : Int) (errorCode : UInt32)
  deriving DecidableEq

inductive Input where
  | submit (streamId : Int) (request : RequestImpl)
  | recv (e : Event)
  deriving DecidableEq

def findStream (streams : Streams) (id : Int) : Option Stream := streams[id]?

def createPushStream (streams : Streams) (id : Int) : Streams :=
  streams.insertIfNew id (.new .empty)

def callOnData (id : Int) (res : ResponseImpl) (data : Bytes) : List Output :=
  [.data id data res.onData]

def callOnResponse (app : App) (id : Int) (res : ResponseImpl) : ResponseImpl × List Output :=
  ({ res with onData := res.onData || (app.onResponse id && app.onData id res) },
    [.response id res (app.onResponse id)])

def onBeginHeaders (streams : Streams) : Frame → Streams × List Output
  | .pushPromise _ promised => (createPushStream streams promised, [])
  | _ => (streams, [])

def onHeader (streams : Streams) (frame : Frame) (f : Field) : Streams × List Output :=
  match frame with
  | .headers id _ cat =>
    match findStream streams id with
    | none => (streams, [])
    | some strm =>
      if strm.response.ignores cat then (streams, [])
      else
        let (res, overflow) := strm.response.receive f
        (streams.insert id { strm with response := res },
          if overflow then [.rstStream id internalError] else [])
  | .pushPromise id promised =>
    match findStream streams promised with
    | none => (streams, [])
    | some strm =>
      let (req, overflow) := strm.request.receive f
      (streams.insert promised { strm with request := req },
        -- the reset goes to the stream that carries the PUSH_PROMISE
        if overflow then [.rstStream id internalError] else [])
  | _ => (streams, [])

def onFrameRecv (app : App) (streams : Streams) : Frame → Streams × List Output
  | .data id endStream =>
    match findStream streams id with
    | none => (streams, [])
    | some strm => (streams, if endStream then callOnData id strm.response [] else [])
  | .headers id endStream cat =>
    match findStream streams id with
    | none => (streams, [])
    | some strm =>
      if strm.response.ignores cat then (streams, [])
      else if strm.response.expectFinalResponse then (streams, [])
      else
        let (res, calls) := callOnResponse app id strm.response
        (streams.insert id { strm with response := res },
          calls ++ if endStream then callOnData id res [] else [])
  | .pushPromise id promised =>
    match findStream streams id, findStream streams promised with
    | some _, some pushStrm => (streams, [.push id promised pushStrm.request])
    | _, _ => (streams, [])
  | .other _ _ => (streams, [])

def onDataChunkRecv (streams : Streams) (id : Int) (data : Bytes) : Streams × List Output :=
  match findStream streams id with
  | none => (streams, [])
  | some strm => (streams, callOnData id strm.response data)

def onStreamClose (streams : Streams) (id : Int) (errorCode : UInt32) :
    Streams × List Output :=
  match findStream streams id with
  | none => (streams, [])
  | some _ => (streams.erase id, [.close id errorCode])

def step (app : App) (streams : Streams) : Input → Streams × List Output
  | .submit id request => (streams.insertIfNew id (.new request), [])
  | .recv (.beginHeaders frame) => onBeginHeaders streams frame
  | .recv (.header frame f) => onHeader streams frame f
  | .recv (.frameRecv frame) => onFrameRecv app streams frame
  | .recv (.dataChunk id data) => onDataChunkRecv streams id data
  | .recv (.streamClose id errorCode) => onStreamClose streams id errorCode

def Output.receiver : Output → Option Int
  | .response id _ _ | .data id _ _ => some id
  | _ => none

def Input.concerns : Input → Option Int
  | .submit id _ => some id
  | .recv (.beginHeaders (.pushPromise _ promised)) => some promised
  | .recv (.header (.headers id _ _) _) => some id
  | .recv (.frameRecv (.data id _)) => some id
  | .recv (.frameRecv (.headers id _ _)) => some id
  | .recv (.dataChunk id _) => some id
  | .recv (.streamClose id _) => some id
  | _ => none

def listen (app : App) (streams : Streams) (i : Input) : Streams × List Output :=
  ((step app streams i).1, (step app streams i).2.filter (fun o => o.receiver.isSome))

def responseOf (streams : Streams) : Option Int → Option ResponseImpl
  | some id => (findStream streams id).map Stream.response
  | none => none

def ResponseImpl.step (app : App) (res : Option ResponseImpl) :
    Input → Option ResponseImpl × List Output
  | .submit _ _ => (res.or (some .new), [])
  | .recv (.beginHeaders (.pushPromise _ _)) => (res.or (some .new), [])
  | .recv (.header (.headers _ _ cat) f) =>
    (res.map (fun res => if res.ignores cat then res else (res.receive f).1), [])
  | .recv (.frameRecv (.data id endStream)) =>
    (res, if endStream then (res.map (callOnData id · [])).getD [] else [])
  | .recv (.frameRecv (.headers id endStream cat)) =>
    match res with
    | none => (none, [])
    | some res =>
      if res.ignores cat then (some res, [])
      else if res.expectFinalResponse then (some res, [])
      else
        let (res, calls) := callOnResponse app id res
        (some res, calls ++ if endStream then callOnData id res [] else [])
  | .recv (.dataChunk id data) => (res, (res.map (callOnData id · data)).getD [])
  | .recv (.streamClose _ _) => (none, [])
  | _ => (res, [])

@[simp] theorem find_insert (streams : Streams) (id k : Int) (strm : Stream) :
    findStream (streams.insert id strm) k =
      if id = k then some strm else findStream streams k :=
  get_insert streams id k strm

@[simp] theorem find_emplace (streams : Streams) (id k : Int) (strm : Stream) :
    findStream (streams.insertIfNew id strm) k =
      if id = k then (findStream streams k).or (some strm) else findStream streams k :=
  get_emplace streams id k strm

@[simp] theorem find_erase (streams : Streams) (id k : Int) :
    findStream (streams.erase id) k = if id = k then none else findStream streams k :=
  get_erase streams id k

theorem response_emplace (streams : Streams) (id : Int) (request : RequestImpl) :
    responseOf (streams.insertIfNew id (.new request)) (some id) =
      (responseOf streams (some id)).or (some .new) := by
  simp only [responseOf, find_emplace, if_pos]
  cases findStream streams id <;> rfl

theorem response_request {streams : Streams} {id : Int} {strm : Stream}
    (found : findStream streams id = some strm) (request : RequestImpl) (k : Option Int) :
    responseOf (streams.insert id { strm with request := request }) k =
      responseOf streams k := by
  cases k with
  | none => rfl
  | some k =>
    by_cases same : id = k
    · subst same
      simp [responseOf, found]
    · simp [responseOf, same]

theorem response_own (app : App) (streams : Streams) (i : Input) :
    responseOf (step app streams i).1 i.concerns =
      (ResponseImpl.step app (responseOf streams i.concerns) i).1 := by
  rcases i with ⟨id, request⟩ | e
  · exact response_emplace streams id request
  cases e with
  | beginHeaders frame =>
    rcases frame with ⟨id, fin⟩ | ⟨id, fin, cat⟩ | ⟨id, promised⟩ | ⟨type, id⟩
    case pushPromise => exact response_emplace streams promised .empty
    all_goals rfl
  | header frame f =>
    rcases frame with ⟨id, fin⟩ | ⟨id, fin, cat⟩ | ⟨id, promised⟩ | ⟨type, id⟩
    case headers =>
      cases found : findStream streams id with
      | none => simp [step, onHeader, ResponseImpl.step, Input.concerns, responseOf, found]
      | some strm =>
        cases ignored : strm.response.ignores cat <;>
          simp [step, onHeader, ResponseImpl.step, Input.concerns, responseOf, found, ignored]
    all_goals rfl
  | frameRecv frame =>
    rcases frame with ⟨id, fin⟩ | ⟨id, fin, cat⟩ | ⟨id, promised⟩ | ⟨type, id⟩
    case data =>
      cases found : findStream streams id <;>
        simp [step, onFrameRecv, ResponseImpl.step, Input.concerns, responseOf, found]
    case headers =>
      cases found : findStream streams id with
      | none => simp [step, onFrameRecv, ResponseImpl.step, Input.concerns, responseOf, found]
      | some strm =>
        cases ignored : strm.response.ignores cat <;>
          cases waits : strm.response.expectFinalResponse <;>
          simp [step, onFrameRecv, ResponseImpl.step, Input.concerns, responseOf, found,
            ignored, waits]
    all_goals rfl
  | dataChunk id data =>
    cases found : findStream streams id <;>
      simp [step, onDataChunkRecv, ResponseImpl.step, Input.concerns, responseOf, found]
  | streamClose id errorCode =>
    cases found : findStream streams id <;>
      simp [step, onStreamClose, ResponseImpl.step, Input.concerns, responseOf, found]

theorem response_other (app : App) (streams : Streams) (i : Input) (k : Option Int)
    (different : i.concerns ≠ k) :
    responseOf (step app streams i).1 k = responseOf streams k := by
  cases k with
  | none => rfl
  | some k =>
    rcases i with ⟨id, request⟩ | e
    · have apart : id ≠ k := by simpa [Input.concerns] using different
      simp [step, responseOf, apart]
    cases e with
    | beginHeaders frame =>
      rcases frame with ⟨id, fin⟩ | ⟨id, fin, cat⟩ | ⟨id, promised⟩ | ⟨type, id⟩
      case pushPromise =>
        have apart : promised ≠ k := by simpa [Input.concerns] using different
        simp [step, onBeginHeaders, createPushStream, responseOf, apart]
      all_goals rfl
    | header frame f =>
      rcases frame with ⟨id, fin⟩ | ⟨id, fin, cat⟩ | ⟨id, promised⟩ | ⟨type, id⟩
      case headers =>
        have apart : id ≠ k := by simpa [Input.concerns] using different
        cases found : findStream streams id with
        | none => simp [step, onHeader, found]
        | some strm =>
          cases ignored : strm.response.ignores cat <;>
            simp [step, onHeader, responseOf, found, ignored, apart]
      case pushPromise =>
        cases found : findStream streams promised with
        | none => simp [step, onHeader, found]
        | some strm =>
          simp only [step, onHeader, found]
          exact response_request found _ _
      all_goals rfl
    | frameRecv frame =>
      rcases frame with ⟨id, fin⟩ | ⟨id, fin, cat⟩ | ⟨id, promised⟩ | ⟨type, id⟩
      case data => cases found : findStream streams id <;> simp [step, onFrameRecv, found]
      case headers =>
        have apart : id ≠ k := by simpa [Input.concerns] using different
        cases found : findStream streams id with
        | none => simp [step, onFrameRecv, found]
        | some strm =>
          cases ignored : strm.response.ignores cat <;>
            cases waits : strm.response.expectFinalResponse <;>
            simp [step, onFrameRecv, responseOf, found, ignored, waits, apart]
      case pushPromise =>
        cases found : findStream streams id <;>
          cases pushed : findStream streams promised <;>
          simp [step, onFrameRecv, found, pushed]
      all_goals rfl
    | dataChunk id data =>
      cases found : findStream streams id <;> simp [step, onDataChunkRecv, found]
    | streamClose id errorCode =>
      have apart : id ≠ k := by simpa [Input.concerns] using different
      cases found : findStream streams id <;>
        simp [step, onStreamClose, responseOf, found, apart]

theorem listen_answers (app : App) (streams : Streams) (i : Input) :
    (listen app streams i).2 =
      (ResponseImpl.step app (responseOf streams i.concerns) i).2 := by
  rcases i with ⟨id, request⟩ | e
  · rfl
  cases e with
  | beginHeaders frame =>
    rcases frame with ⟨id, fin⟩ | ⟨id, fin, cat⟩ | ⟨id, promised⟩ | ⟨type, id⟩
    all_goals rfl
  | header frame f =>
    rcases frame with ⟨id, fin⟩ | ⟨id, fin, cat⟩ | ⟨id, promised⟩ | ⟨type, id⟩
    case headers =>
      cases found : findStream streams id with
      | none => simp [listen, step, onHeader, ResponseImpl.step, found]
      | some strm =>
        cases ignored : strm.response.ignores cat <;>
          cases overflow : (strm.response.receive f).2 <;>
          simp [listen, step, onHeader, ResponseImpl.step, found, ignored, overflow,
            Output.receiver]
    case pushPromise =>
      cases found : findStream streams promised with
      | none => simp [listen, step, onHeader, ResponseImpl.step, found]
      | some strm =>
        cases overflow : (strm.request.receive f).2 <;>
          simp [listen, step, onHeader, ResponseImpl.step, found, overflow, Output.receiver]
    all_goals rfl
  | frameRecv frame =>
    rcases frame with ⟨id, fin⟩ | ⟨id, fin, cat⟩ | ⟨id, promised⟩ | ⟨type, id⟩
    case data =>
      cases found : findStream streams id <;> cases fin <;>
        simp [listen, step, onFrameRecv, ResponseImpl.step, Input.concerns, responseOf, found,
          callOnData, Output.receiver]
    case headers =>
      cases found : findStream streams id with
      | none =>
        simp [listen, step, onFrameRecv, ResponseImpl.step, Input.concerns, responseOf, found]
      | some strm =>
        cases ignored : strm.response.ignores cat <;>
          cases waits : strm.response.expectFinalResponse <;> cases fin <;>
          simp [listen, step, onFrameRecv, ResponseImpl.step, Input.concerns, responseOf,
            found, ignored, waits, callOnResponse, callOnData, Output.receiver]
    case pushPromise =>
      simp only [listen, step, onFrameRecv, ResponseImpl.step]
      split <;> rfl
    all_goals rfl
  | dataChunk id data =>
    cases found : findStream streams id <;>
      simp [listen, step, onDataChunkRecv, ResponseImpl.step, Input.concerns, responseOf,
        found, callOnData, Output.receiver]
  | streamClose id errorCode =>
    simp only [listen, step, onStreamClose, ResponseImpl.step]
    split <;> rfl

theorem response_outputs (app : App) (res : Option ResponseImpl) (i : Input) :
    ∀ o ∈ (ResponseImpl.step app res i).2, o.receiver = i.concerns := by
  rcases i with ⟨id, request⟩ | e
  · simp [ResponseImpl.step]
  cases e with
  | beginHeaders frame =>
    rcases frame with ⟨id, fin⟩ | ⟨id, fin, cat⟩ | ⟨id, promised⟩ | ⟨type, id⟩
    all_goals simp [ResponseImpl.step]
  | header frame f =>
    rcases frame with ⟨id, fin⟩ | ⟨id, fin, cat⟩ | ⟨id, promised⟩ | ⟨type, id⟩
    all_goals simp [ResponseImpl.step]
  | frameRecv frame =>
    rcases frame with ⟨id, fin⟩ | ⟨id, fin, cat⟩ | ⟨id, promised⟩ | ⟨type, id⟩
    case data =>
      cases res <;> cases fin <;>
        simp [ResponseImpl.step, callOnData, Output.receiver, Input.concerns]
    case headers =>
      cases res with
      | none => simp [ResponseImpl.step]
      | some res =>
        cases ignored : res.ignores cat <;> cases waits : res.expectFinalResponse <;>
          cases fin <;> simp [ResponseImpl.step, ignored, waits, callOnResponse, callOnData,
            Output.receiver, Input.concerns]
    all_goals simp [ResponseImpl.step]
  | dataChunk id data =>
    cases res <;> simp [ResponseImpl.step, callOnData, Output.receiver, Input.concerns]
  | streamClose id errorCode => simp [ResponseImpl.step]

theorem unconcerned_step (app : App) (res : Option ResponseImpl) {i : Input}
    (nobody : i.concerns = none) : ResponseImpl.step app res i = (res, []) := by
  rcases i with ⟨id, request⟩ | e
  · contradiction
  cases e with
  | beginHeaders frame =>
    rcases frame with ⟨id, fin⟩ | ⟨id, fin, cat⟩ | ⟨id, promised⟩ | ⟨type, id⟩
    case pushPromise => contradiction
    all_goals rfl
  | header frame f =>
    rcases frame with ⟨id, fin⟩ | ⟨id, fin, cat⟩ | ⟨id, promised⟩ | ⟨type, id⟩
    case headers => contradiction
    all_goals rfl
  | frameRecv frame =>
    rcases frame with ⟨id, fin⟩ | ⟨id, fin, cat⟩ | ⟨id, promised⟩ | ⟨type, id⟩
    case data | headers => contradiction
    all_goals rfl
  | dataChunk id data => contradiction
  | streamClose id errorCode => contradiction

theorem listen_local (app : App) :
    Trace.Local (listen app) Input.concerns Output.receiver
      (fun k streams => responseOf streams k) (ResponseImpl.step app) where
  same := response_own app
  other := by
    intro streams i k different
    exact response_other app streams i k (Ne.symm different)
  answers := listen_answers app
  tagged := by
    intro streams i o member
    rw [listen_answers] at member
    exact response_outputs app _ i o member

def heard (app : App) (id : Int) (inputs : List Input) : List Output :=
  (Trace.run (step app) ∅ inputs).2.filter (fun o => o.receiver = some id)

/-- What the response and data callbacks of a stream get is what the events that concern it
    cause on its response alone. -/
theorem heard_own (app : App) (id : Int) (inputs : List Input) :
    heard app id inputs = (Trace.run (ResponseImpl.step app) none
      (inputs.filter (fun i => i.concerns = some id))).2 ∧
    responseOf (Trace.run (step app) ∅ inputs).1 (some id) =
      (Trace.run (ResponseImpl.step app) none
        (inputs.filter (fun i => i.concerns = some id))).1 := by
  obtain ⟨entry, outputs⟩ := Trace.run_projection (listen_local app) (some id) inputs ∅
  have nothing : responseOf ∅ (some id) = none := by simp [responseOf, findStream]
  have listened : Trace.run (listen app) ∅ inputs = ((Trace.run (step app) ∅ inputs).1,
      (Trace.run (step app) ∅ inputs).2.filter (fun o => o.receiver.isSome)) :=
    Trace.run_filter (step app) _ ∅ inputs
  simp only [nothing, listened, List.filter_filter] at entry outputs
  refine ⟨?_, entry⟩
  rw [← outputs, heard]
  apply List.filter_congr
  intro o _
  cases receiver : o.receiver <;> simp

end Nghttp2Asio.Client
