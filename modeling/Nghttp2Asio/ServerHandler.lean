import Nghttp2Asio.Library.Trace
import Nghttp2Asio.ServeMux

/-!
The streams of one `http2_handler` (asio_server_http2_handler.cc) under the callbacks
nghttp2 makes while it reads input, up to the destructor. The application's callbacks
only record what they are given; whether they are installed is decided by the request
callback when it runs.
-/
namespace Nghttp2Asio.Server
open ServeMux OrderedTable
variable {α : Type}

structure Installed where
  onData : Bool
  onClose : Bool
  deriving DecidableEq

structure Stream where
  request : RequestImpl
  installed : Installed
  deriving DecidableEq

def Stream.new : Stream := ⟨.empty, ⟨false, false⟩⟩

abbrev Streams := Std.ExtTreeMap Int Stream

/-- The calls of `call_on_request`, `call_on_data` and `call_on_close`, and the resets
    the handler submits itself. `heard` tells whether the application has a callback
    there; one call of the data callback with no bytes is the end of the body. -/
inductive Output (α : Type) where
  | request (streamId : Int) (cb : RequestCb α) (req : RequestImpl)
  | data (streamId : Int) (data : Bytes) (heard : Bool)
  | close (streamId : Int) (errorCode : UInt32) (heard : Bool)
  | rstStream (streamId : Int) (errorCode : UInt32)
  deriving DecidableEq

def Output.streamId : Output α → Int
  | .request id _ _ | .data id _ _ | .close id _ _ | .rstStream id _ => id

/-- The parts of a connection that its streams share: the multiplexer and the choice the
    application's callbacks make. -/
structure App (α : Type) where
  mux : Table α
  install : α → RequestImpl → Installed

def App.installs (app : App α) (req : RequestImpl) : Installed :=
  match handler app.mux req with
  | .app f => app.install f req
  | _ => ⟨false, false⟩

def createStream (streams : Streams) (id : Int) : Streams := streams.insertIfNew id .new

def closeStream (streams : Streams) (id : Int) : Streams := streams.erase id

def findStream (streams : Streams) (id : Int) : Option Stream := streams[id]?

def callOnData (id : Int) (strm : Stream) (data : Bytes) : List (Output α) :=
  [.data id data strm.installed.onData]

def callOnClose (id : Int) (strm : Stream) (errorCode : UInt32) : List (Output α) :=
  [.close id errorCode strm.installed.onClose]

def callOnRequest (app : App α) (id : Int) (strm : Stream) : Stream × List (Output α) :=
  ({ strm with installed := app.installs strm.request },
    [.request id (handler app.mux strm.request) strm.request])

def onBeginHeaders (streams : Streams) : Frame → Streams × List (Output α)
  | .headers id _ .request => (createStream streams id, [])
  | _ => (streams, [])

def onHeader (streams : Streams) (frame : Frame) (f : Field) : Streams × List (Output α) :=
  match frame with
  | .headers id _ .request =>
    match findStream streams id with
    | none => (streams, [])
    | some strm =>
      let (req, overflow) := strm.request.receive f
      (streams.insert id { strm with request := req },
        if overflow then [.rstStream id internalError] else [])
  | _ => (streams, [])

def onFrameRecv (app : App α) (streams : Streams) : Frame → Streams × List (Output α)
  | .data id endStream =>
    match findStream streams id with
    | none => (streams, [])
    | some strm => (streams, if endStream then callOnData id strm [] else [])
  | .headers id endStream .request =>
    match findStream streams id with
    | none => (streams, [])
    | some strm =>
      let (strm, calls) := callOnRequest app id strm
      (streams.insert id strm, calls ++ if endStream then callOnData id strm [] else [])
  | _ => (streams, [])

def onDataChunkRecv (streams : Streams) (id : Int) (data : Bytes) :
    Streams × List (Output α) :=
  match findStream streams id with
  | none => (streams, [])
  | some strm => (streams, callOnData id strm data)

def onStreamClose (streams : Streams) (id : Int) (errorCode : UInt32) :
    Streams × List (Output α) :=
  match findStream streams id with
  | none => (streams, [])
  | some strm => (closeStream streams id, callOnClose id strm errorCode)

def step (app : App α) (streams : Streams) : Event → Streams × List (Output α)
  | .beginHeaders frame => onBeginHeaders streams frame
  | .header frame f => onHeader streams frame f
  | .frameRecv frame => onFrameRecv app streams frame
  | .dataChunk id data => onDataChunkRecv streams id data
  | .streamClose id errorCode => onStreamClose streams id errorCode

def destroy (streams : Streams) : List (Output α) :=
  streams.toList.flatMap (fun p => callOnClose p.1 p.2 internalError)

def serve (app : App α) (events : List Event) : List (Output α) :=
  (Trace.run (step app) ∅ events).2 ++ destroy (Trace.run (step app) ∅ events).1

/-! One stream. -/

def Stream.step (app : App α) (strm : Option Stream) : Event → Option Stream × List (Output α)
  | .beginHeaders (.headers _ _ .request) => (strm.or (some .new), [])
  | .header (.headers id _ .request) f =>
    match strm with
    | none => (none, [])
    | some strm =>
      (some { strm with request := (strm.request.receive f).1 },
        if (strm.request.receive f).2 then [.rstStream id internalError] else [])
  | .frameRecv (.data id endStream) =>
    (strm, if endStream then (strm.map (callOnData id · [])).getD [] else [])
  | .frameRecv (.headers id endStream .request) =>
    match strm with
    | none => (none, [])
    | some strm =>
      let (strm, calls) := callOnRequest app id strm
      (some strm, calls ++ if endStream then callOnData id strm [] else [])
  | .dataChunk id data => (strm, (strm.map (callOnData id · data)).getD [])
  | .streamClose id errorCode => (none, (strm.map (callOnClose id · errorCode)).getD [])
  | _ => (strm, [])

@[simp] theorem find_insert (streams : Streams) (id k : Int) (strm : Stream) :
    findStream (streams.insert id strm) k =
      if id = k then some strm else findStream streams k :=
  get_insert streams id k strm

@[simp] theorem find_create (streams : Streams) (id k : Int) :
    findStream (createStream streams id) k =
      if id = k then (findStream streams k).or (some .new) else findStream streams k :=
  get_emplace streams id k .new

@[simp] theorem find_close (streams : Streams) (id k : Int) :
    findStream (closeStream streams id) k = if id = k then none else findStream streams k :=
  get_erase streams id k

theorem step_own (app : App α) (streams : Streams) (e : Event) :
    findStream (step app streams e).1 e.streamId =
      (Stream.step app (findStream streams e.streamId) e).1 := by
  cases e with
  | beginHeaders frame =>
    rcases frame with ⟨id, fin⟩ | ⟨id, fin, _ | _ | _ | _⟩ | ⟨id, promised⟩ | ⟨type, id⟩
    case headers.request =>
      simp [step, onBeginHeaders, Stream.step, Event.streamId, Frame.streamId]
    all_goals rfl
  | header frame f =>
    rcases frame with ⟨id, fin⟩ | ⟨id, fin, _ | _ | _ | _⟩ | ⟨id, promised⟩ | ⟨type, id⟩
    case headers.request =>
      cases found : findStream streams id <;>
        simp [step, onHeader, Stream.step, Event.streamId, Frame.streamId, found]
    all_goals rfl
  | frameRecv frame =>
    rcases frame with ⟨id, fin⟩ | ⟨id, fin, _ | _ | _ | _⟩ | ⟨id, promised⟩ | ⟨type, id⟩
    case data =>
      cases found : findStream streams id <;>
        simp [step, onFrameRecv, Stream.step, Event.streamId, Frame.streamId, found]
    case headers.request =>
      cases found : findStream streams id <;>
        simp [step, onFrameRecv, Stream.step, Event.streamId, Frame.streamId, found]
    all_goals rfl
  | dataChunk id data =>
    cases found : findStream streams id <;>
      simp [step, onDataChunkRecv, Stream.step, Event.streamId, found]
  | streamClose id errorCode =>
    cases found : findStream streams id <;>
      simp [step, onStreamClose, Stream.step, Event.streamId, found]

theorem step_other (app : App α) (streams : Streams) (e : Event) (k : Int)
    (different : e.streamId ≠ k) :
    findStream (step app streams e).1 k = findStream streams k := by
  cases e with
  | beginHeaders frame =>
    rcases frame with ⟨id, fin⟩ | ⟨id, fin, _ | _ | _ | _⟩ | ⟨id, promised⟩ | ⟨type, id⟩
    case headers.request =>
      have apart : id ≠ k := different
      simp [step, onBeginHeaders, apart]
    all_goals rfl
  | header frame f =>
    rcases frame with ⟨id, fin⟩ | ⟨id, fin, _ | _ | _ | _⟩ | ⟨id, promised⟩ | ⟨type, id⟩
    case headers.request =>
      have apart : id ≠ k := different
      cases found : findStream streams id <;> simp [step, onHeader, found, apart]
    all_goals rfl
  | frameRecv frame =>
    rcases frame with ⟨id, fin⟩ | ⟨id, fin, _ | _ | _ | _⟩ | ⟨id, promised⟩ | ⟨type, id⟩
    case data =>
      cases found : findStream streams id <;> simp [step, onFrameRecv, found]
    case headers.request =>
      have apart : id ≠ k := different
      cases found : findStream streams id <;> simp [step, onFrameRecv, found, apart]
    all_goals rfl
  | dataChunk id data =>
    cases found : findStream streams id <;> simp [step, onDataChunkRecv, found]
  | streamClose id errorCode =>
    have apart : id ≠ k := different
    cases found : findStream streams id <;> simp [step, onStreamClose, found, apart]

theorem step_outputs (app : App α) (streams : Streams) (e : Event) :
    (step app streams e).2 = (Stream.step app (findStream streams e.streamId) e).2 := by
  cases e with
  | beginHeaders frame =>
    rcases frame with ⟨id, fin⟩ | ⟨id, fin, _ | _ | _ | _⟩ | ⟨id, promised⟩ | ⟨type, id⟩
    all_goals rfl
  | header frame f =>
    rcases frame with ⟨id, fin⟩ | ⟨id, fin, _ | _ | _ | _⟩ | ⟨id, promised⟩ | ⟨type, id⟩
    case headers.request =>
      simp only [step, onHeader, Stream.step, Event.streamId, Frame.streamId]
      cases findStream streams id <;> rfl
    all_goals rfl
  | frameRecv frame =>
    rcases frame with ⟨id, fin⟩ | ⟨id, fin, _ | _ | _ | _⟩ | ⟨id, promised⟩ | ⟨type, id⟩
    case data =>
      simp only [step, onFrameRecv, Stream.step, Event.streamId, Frame.streamId]
      cases findStream streams id <;> simp
    case headers.request =>
      simp only [step, onFrameRecv, Stream.step, Event.streamId, Frame.streamId]
      cases findStream streams id <;> rfl
    all_goals rfl
  | dataChunk id data =>
    simp only [step, onDataChunkRecv, Stream.step, Event.streamId]
    cases findStream streams id <;> rfl
  | streamClose id errorCode =>
    simp only [step, onStreamClose, Stream.step, Event.streamId]
    cases findStream streams id <;> rfl

theorem own_outputs (app : App α) (strm : Option Stream) (e : Event) :
    ∀ o ∈ (Stream.step app strm e).2, o.streamId = e.streamId := by
  cases e with
  | beginHeaders frame =>
    rcases frame with ⟨id, fin⟩ | ⟨id, fin, _ | _ | _ | _⟩ | ⟨id, promised⟩ | ⟨type, id⟩
    all_goals simp [Stream.step]
  | header frame f =>
    rcases frame with ⟨id, fin⟩ | ⟨id, fin, _ | _ | _ | _⟩ | ⟨id, promised⟩ | ⟨type, id⟩
    case headers.request =>
      cases strm <;> simp [Stream.step, Output.streamId, Event.streamId, Frame.streamId]
    all_goals simp [Stream.step]
  | frameRecv frame =>
    rcases frame with ⟨id, fin⟩ | ⟨id, fin, _ | _ | _ | _⟩ | ⟨id, promised⟩ | ⟨type, id⟩
    case data =>
      cases strm <;> cases fin <;>
        simp [Stream.step, callOnData, Output.streamId, Event.streamId, Frame.streamId]
    case headers.request =>
      cases strm <;> cases fin <;> simp [Stream.step, callOnRequest, callOnData,
        Output.streamId, Event.streamId, Frame.streamId]
    all_goals simp [Stream.step]
  | dataChunk id data =>
    cases strm <;> simp [Stream.step, callOnData, Output.streamId, Event.streamId]
  | streamClose id errorCode =>
    cases strm <;> simp [Stream.step, callOnClose, Output.streamId, Event.streamId]

theorem step_local (app : App α) :
    Trace.Local (step app) Event.streamId Output.streamId
      (fun id streams => findStream streams id) (Stream.step app) where
  same := step_own app
  other := by
    intro streams e k different
    exact step_other app streams e k (Ne.symm different)
  answers := step_outputs app
  tagged := by
    intro streams e o member
    rw [step_outputs] at member
    exact own_outputs app _ e o member

def Stream.serve (app : App α) (id : Int) (events : List Event) : List (Output α) :=
  (Trace.run (Stream.step app) none events).2 ++
    ((Trace.run (Stream.step app) none events).1.map
      (callOnClose id · internalError)).getD []

theorem destroy_filter (streams : Streams) (id : Int) :
    (destroy streams : List (Output α)).filter (fun o => o.streamId = id) =
      ((findStream streams id).map (callOnClose id · internalError)).getD [] := by
  have shape : ∀ entries : List (Int × Stream),
      ((entries.flatMap (fun p => callOnClose p.1 p.2 internalError)).filter
          (fun o => o.streamId = id) : List (Output α)) =
        (entries.filter (fun p => p.1 = id)).flatMap
          (fun p => callOnClose p.1 p.2 internalError) := by
    intro entries
    induction entries with
    | nil => rfl
    | cons p rest ih =>
      rw [List.flatMap_cons, List.filter_append, ih]
      by_cases mine : p.1 = id <;> simp [mine, callOnClose, Output.streamId]
  rw [destroy, shape, toList_filter, findStream]
  cases streams[id]? <;> simp

theorem serve_filter (app : App α) (events : List Event) (id : Int) :
    (serve app events).filter (fun o => o.streamId = id) =
      Stream.serve app id (events.filter (fun e => e.streamId = id)) := by
  obtain ⟨entry, outputs⟩ := Trace.run_projection (step_local app) id events ∅
  have nothing : findStream ∅ id = none := by simp [findStream]
  simp only [nothing] at entry outputs
  rw [serve, List.filter_append, outputs, destroy_filter, entry]
  rfl

/-! The life of a stream. -/

/-- What an event means to the stream it belongs to. Trailer blocks, frames of other
    types and single fields are `quiet`. -/
inductive Kind where
  | opens | completes | body | closes (errorCode : UInt32) | quiet
  deriving DecidableEq

def eventKind : Event → Kind
  | .beginHeaders (.headers _ _ .request) => .opens
  | .frameRecv (.headers _ _ .request) => .completes
  | .frameRecv (.data _ _) => .body
  | .dataChunk _ _ => .body
  | .streamClose _ errorCode => .closes errorCode
  | _ => .quiet

inductive Phase where
  | idle | head | body | closed
  deriving DecidableEq

/-- The order in which nghttp2 reports the events of one stream: the id is opened at most
    once, by one request block that is complete before any data; events of an id that is
    not open are not restricted further. -/
def Phase.next : Phase → Kind → Option Phase
  | .idle, .opens => some .head
  | .idle, .completes => some .idle
  | .idle, .body => some .idle
  | .idle, .closes _ => some .idle
  | .idle, .quiet => some .idle
  | .head, .opens => none
  | .head, .completes => some .body
  | .head, .body => none
  | .head, .closes _ => some .closed
  | .head, .quiet => some .head
  | .body, .opens => none
  | .body, .completes => none
  | .body, .body => some .body
  | .body, .closes _ => some .closed
  | .body, .quiet => some .body
  | .closed, .opens => none
  | .closed, .completes => some .closed
  | .closed, .body => some .closed
  | .closed, .closes _ => some .closed
  | .closed, .quiet => some .closed

def phase (events : List Event) : Option Phase :=
  events.foldlM (fun p e => p.next (eventKind e)) .idle

def Ordered (events : List Event) : Prop := (phase events).isSome = true

instance (events : List Event) : Decidable (Ordered events) :=
  inferInstanceAs (Decidable (_ = _))

def Opened (events : List Event) : Prop := ∃ e ∈ events, eventKind e = .opens

instance (events : List Event) : Decidable (Opened events) :=
  inferInstanceAs (Decidable (∃ e ∈ events, eventKind e = .opens))

def Kind.code : Kind → Option UInt32
  | .closes errorCode => some errorCode
  | _ => none

def closeCode (events : List Event) : Option UInt32 :=
  (events.dropWhile (fun e => eventKind e ≠ .opens)).findSome? (fun e => (eventKind e).code)

def calls (log : List (Output α)) : List (Output α) :=
  log.filter (fun o => match o with
    | .rstStream _ _ => false
    | _ => true)

def dataCalls (id : Int) (heard : Bool) (chunks : List Bytes) : List (Output α) :=
  chunks.map (fun chunk => .data id chunk heard)

inductive Lifecycle (app : App α) (id : Int) (errorCode : UInt32) : List (Output α) → Prop where
  | unanswered : Lifecycle app id errorCode [.close id errorCode false]
  | answered (req : RequestImpl) (chunks : List Bytes) :
      Lifecycle app id errorCode
        (.request id (handler app.mux req) req ::
          (dataCalls id (app.installs req).onData chunks ++
            [.close id errorCode (app.installs req).onClose]))

@[simp] theorem calls_append (first rest : List (Output α)) :
    calls (first ++ rest) = calls first ++ calls rest := by
  simp [calls]

theorem absent_step (app : App α) {e : Event} (closed : eventKind e ≠ .opens) :
    Stream.step app none e = (none, []) := by
  cases e with
  | beginHeaders frame =>
    rcases frame with ⟨id, fin⟩ | ⟨id, fin, _ | _ | _ | _⟩ | ⟨id, promised⟩ | ⟨type, id⟩
    case headers.request => exact absurd rfl closed
    all_goals rfl
  | header frame f =>
    rcases frame with ⟨id, fin⟩ | ⟨id, fin, _ | _ | _ | _⟩ | ⟨id, promised⟩ | ⟨type, id⟩
    all_goals rfl
  | frameRecv frame =>
    rcases frame with ⟨id, fin⟩ | ⟨id, fin, _ | _ | _ | _⟩ | ⟨id, promised⟩ | ⟨type, id⟩
    case data => cases fin <;> rfl
    all_goals rfl
  | dataChunk id data => rfl
  | streamClose id errorCode => rfl

theorem open_step (app : App α) (strm : Stream) (e : Event) :
    match eventKind e with
    | .opens => Stream.step app (some strm) e = (some strm, [])
    | .completes => ∃ chunks,
        (Stream.step app (some strm) e).1 =
          some ⟨strm.request, app.installs strm.request⟩ ∧
        (Stream.step app (some strm) e).2 =
          .request e.streamId (handler app.mux strm.request) strm.request ::
            dataCalls e.streamId (app.installs strm.request).onData chunks
    | .body => ∃ chunks, Stream.step app (some strm) e =
        (some strm, dataCalls e.streamId strm.installed.onData chunks)
    | .closes errorCode => Stream.step app (some strm) e =
        (none, [.close e.streamId errorCode strm.installed.onClose])
    | .quiet => ∃ req,
        (Stream.step app (some strm) e).1 = some ⟨req, strm.installed⟩ ∧
        calls (Stream.step app (some strm) e).2 = [] := by
  cases e with
  | beginHeaders frame =>
    rcases frame with ⟨id, fin⟩ | ⟨id, fin, _ | _ | _ | _⟩ | ⟨id, promised⟩ | ⟨type, id⟩
    case headers.request => rfl
    all_goals exact ⟨strm.request, rfl, rfl⟩
  | header frame f =>
    rcases frame with ⟨id, fin⟩ | ⟨id, fin, _ | _ | _ | _⟩ | ⟨id, promised⟩ | ⟨type, id⟩
    case headers.request =>
      refine ⟨(strm.request.receive f).1, rfl, ?_⟩
      simp only [Stream.step]
      split <;> rfl
    all_goals exact ⟨strm.request, rfl, rfl⟩
  | frameRecv frame =>
    rcases frame with ⟨id, fin⟩ | ⟨id, fin, _ | _ | _ | _⟩ | ⟨id, promised⟩ | ⟨type, id⟩
    case data =>
      cases fin
      · exact ⟨[], rfl⟩
      · exact ⟨[[]], rfl⟩
    case headers.request =>
      cases fin
      · exact ⟨[], rfl, rfl⟩
      · exact ⟨[[]], rfl, rfl⟩
    all_goals exact ⟨strm.request, rfl, rfl⟩
  | dataChunk id data => exact ⟨[data], rfl⟩
  | streamClose id errorCode => rfl

theorem opened_concat (past : List Event) (e : Event) :
    Opened (past ++ [e]) ↔ Opened past ∨ eventKind e = .opens := by
  simp [Opened, or_and_right, exists_or]

theorem closeCode_open {past : List Event} (opened : Opened past) (e : Event) :
    closeCode (past ++ [e]) = (closeCode past).or (eventKind e).code := by
  have found : past.dropWhile (fun e => eventKind e ≠ .opens) ≠ [] := by
    intro nothing
    obtain ⟨first, member, opens⟩ := opened
    have skipped := List.dropWhile_eq_nil_iff.mp nothing first member
    simp [opens] at skipped
  rw [closeCode, List.dropWhile_append, if_neg (by simpa using found), List.findSome?_append,
    closeCode]
  simp

theorem closeCode_fresh {past : List Event} (unopened : ¬ Opened past) {e : Event}
    (opens : eventKind e = .opens) : closeCode (past ++ [e]) = none := by
  have skipped : past.dropWhile (fun e => eventKind e ≠ .opens) = [] := by
    rw [List.dropWhile_eq_nil_iff]
    intro first member
    simp only [ne_eq, decide_eq_true_eq]
    intro same
    exact unopened ⟨first, member, same⟩
  rw [closeCode, List.dropWhile_append, skipped]
  simp [opens, Kind.code]

theorem phase_concat (past : List Event) (e : Event) :
    phase (past ++ [e]) = (phase past).bind (fun p => p.next (eventKind e)) := by
  simp [phase, List.foldlM_append]

/-- The entry of a stream and the calls made for it, phase by phase. -/
inductive Shape (app : App α) (id : Int) (past : List Event) :
    Phase → Option Stream → List (Output α) → Prop where
  | idle (unopened : ¬ Opened past) : Shape app id past .idle none []
  | head (strm : Stream) (opened : Opened past) (running : closeCode past = none)
      (bare : strm.installed = ⟨false, false⟩) : Shape app id past .head (some strm) []
  | body (strm : Stream) (req : RequestImpl) (chunks : List Bytes) (opened : Opened past)
      (running : closeCode past = none) (given : strm.installed = app.installs req) :
      Shape app id past .body (some strm)
        (.request id (handler app.mux req) req ::
          dataCalls id (app.installs req).onData chunks)
  | closed (errorCode : UInt32) (log : List (Output α)) (opened : Opened past)
      (reported : closeCode past = some errorCode) (life : Lifecycle app id errorCode log) :
      Shape app id past .closed none log

theorem dataCalls_append (id : Int) (heard : Bool) (first rest : List Bytes) :
    (dataCalls id heard (first ++ rest) : List (Output α)) =
      dataCalls id heard first ++ dataCalls id heard rest := by
  simp [dataCalls]

theorem calls_dataCalls (id : Int) (heard : Bool) (chunks : List Bytes) :
    calls (dataCalls id heard chunks : List (Output α)) = dataCalls id heard chunks := by
  rw [calls, List.filter_eq_self]
  intro o member
  obtain ⟨chunk, _, named⟩ := List.mem_map.mp member
  rw [← named]

theorem opening_step (app : App α) {e : Event} (opens : eventKind e = .opens) :
    Stream.step app none e = (some .new, []) := by
  unfold eventKind at opens
  split at opens
  · rfl
  all_goals contradiction

section Shape
variable {app : App α} {id : Int} {past : List Event} {e : Event}

theorem shape_idle {q : Phase} (unopened : ¬ Opened past)
    (next : Phase.idle.next (eventKind e) = some q) :
    Shape app id (past ++ [e]) q (Stream.step app none e).1
      (calls (Stream.step app none e).2) := by
  by_cases opens : eventKind e = .opens
  · rw [opens] at next
    cases next
    rw [opening_step app opens]
    exact .head .new ((opened_concat past e).mpr (Or.inr opens))
      (closeCode_fresh unopened opens) rfl
  · have stays : q = .idle := by
      cases kind : eventKind e <;> simp_all [Phase.next]
    rw [stays, absent_step app opens]
    apply Shape.idle
    rw [opened_concat]
    exact not_or.mpr ⟨unopened, opens⟩

theorem shape_head {q : Phase} {strm : Stream} (mine : e.streamId = id)
    (opened : Opened past) (running : closeCode past = none)
    (bare : strm.installed = ⟨false, false⟩)
    (next : Phase.head.next (eventKind e) = some q) :
    Shape app id (past ++ [e]) q (Stream.step app (some strm) e).1
      (calls (Stream.step app (some strm) e).2) := by
  have still : Opened (past ++ [e]) := (opened_concat past e).mpr (Or.inl opened)
  have code := closeCode_open opened e
  have effect := open_step app strm e
  rw [running, Option.none_or] at code
  cases kind : eventKind e with
  | opens => simp [kind, Phase.next] at next
  | body => simp [kind, Phase.next] at next
  | completes =>
    simp only [kind, Phase.next, Option.some.injEq] at next code effect
    obtain ⟨chunks, entry, outputs⟩ := effect
    rw [← next, entry, outputs, mine]
    have shape : Shape app id (past ++ [e]) .body _ _ :=
      .body ⟨strm.request, app.installs strm.request⟩ strm.request chunks still code rfl
    rw [← calls_dataCalls] at shape
    exact shape
  | closes errorCode =>
    simp only [kind, Phase.next, Option.some.injEq] at next code effect
    rw [← next, effect, mine, bare]
    exact .closed errorCode _ still code .unanswered
  | quiet =>
    simp only [kind, Phase.next, Option.some.injEq] at next code effect
    obtain ⟨req, entry, silent⟩ := effect
    rw [← next, entry, silent]
    exact .head _ still code bare

theorem shape_body {q : Phase} {strm : Stream} {req : RequestImpl} {chunks : List Bytes}
    (mine : e.streamId = id) (opened : Opened past) (running : closeCode past = none)
    (given : strm.installed = app.installs req)
    (next : Phase.body.next (eventKind e) = some q) :
    Shape app id (past ++ [e]) q (Stream.step app (some strm) e).1
      (.request id (handler app.mux req) req ::
        (dataCalls id (app.installs req).onData chunks ++
          calls (Stream.step app (some strm) e).2)) := by
  have still : Opened (past ++ [e]) := (opened_concat past e).mpr (Or.inl opened)
  have code := closeCode_open opened e
  have effect := open_step app strm e
  rw [running, Option.none_or] at code
  cases kind : eventKind e with
  | opens => simp [kind, Phase.next] at next
  | completes => simp [kind, Phase.next] at next
  | body =>
    simp only [kind, Phase.next, Option.some.injEq] at next code effect
    obtain ⟨more, effect⟩ := effect
    rw [← next, effect, mine, given, calls_dataCalls, ← dataCalls_append]
    exact .body strm req _ still code given
  | closes errorCode =>
    simp only [kind, Phase.next, Option.some.injEq] at next code effect
    rw [← next, effect, mine, given]
    exact .closed errorCode _ still code (.answered req chunks)
  | quiet =>
    simp only [kind, Phase.next, Option.some.injEq] at next code effect
    obtain ⟨changed, entry, silent⟩ := effect
    rw [← next, entry, silent, List.append_nil]
    exact .body _ req chunks still code given

theorem shape_closed {q : Phase} {errorCode : UInt32} {made : List (Output α)}
    (opened : Opened past) (reported : closeCode past = some errorCode)
    (life : Lifecycle app id errorCode made)
    (next : Phase.closed.next (eventKind e) = some q) :
    Shape app id (past ++ [e]) q (Stream.step app none e).1
      (made ++ calls (Stream.step app none e).2) := by
  have reopened : eventKind e ≠ .opens := by
    intro opens
    simp [opens, Phase.next] at next
  have stays : q = .closed := by
    cases kind : eventKind e <;> simp_all [Phase.next]
  have code := closeCode_open opened e
  rw [reported, Option.some_or] at code
  rw [stays, absent_step app reopened]
  simp only [calls, List.filter_nil, List.append_nil]
  exact .closed errorCode made ((opened_concat past e).mpr (Or.inl opened)) code life

theorem shape_step {p q : Phase} {strm : Option Stream} {log : List (Output α)}
    (mine : e.streamId = id) (shape : Shape app id past p strm (calls log))
    (next : p.next (eventKind e) = some q) :
    Shape app id (past ++ [e]) q (Stream.step app strm e).1
      (calls (log ++ (Stream.step app strm e).2)) := by
  rw [calls_append]
  generalize calls log = made at shape ⊢
  cases shape with
  | idle unopened => exact shape_idle unopened next
  | head strm opened running bare => exact shape_head mine opened running bare next
  | body strm req chunks opened running given =>
    exact shape_body mine opened running given next
  | closed errorCode log opened reported life =>
    exact shape_closed opened reported life next

end Shape

theorem shape_run (app : App α) (id : Int) (events : List Event)
    (mine : ∀ e ∈ events, e.streamId = id) (ordered : Ordered events) :
    ∃ p, Shape app id events p (Trace.run (Stream.step app) none events).1
      (calls (Trace.run (Stream.step app) none events).2) := by
  have general : ∀ events, (∀ e ∈ events, e.streamId = id) → ∀ p, phase events = some p →
      Shape app id events p (Trace.run (Stream.step app) none events).1
        (calls (Trace.run (Stream.step app) none events).2) := by
    apply Trace.run_history (fun events strm log => (∀ e ∈ events, e.streamId = id) → ∀ p,
      phase events = some p → Shape app id events p strm (calls log))
    · intro _ p start
      cases start
      exact .idle (by simp [Opened])
    · intro past strm log e shape mine q reached
      rw [phase_concat, Option.bind_eq_some_iff] at reached
      obtain ⟨p, before, next⟩ := reached
      have earlier := shape (fun e member => mine e (by simp [member])) p before
      exact shape_step (mine e (by simp)) earlier next
  obtain ⟨p, reached⟩ := Option.isSome_iff_exists.mp ordered
  exact ⟨p, general events mine p reached⟩

theorem stream_lifecycle (app : App α) (id : Int) (events : List Event)
    (mine : ∀ e ∈ events, e.streamId = id) (ordered : Ordered events) :
    if Opened events then
      Lifecycle app id ((closeCode events).getD internalError)
        (calls (Stream.serve app id events))
    else calls (Stream.serve app id events) = [] := by
  obtain ⟨p, shape⟩ := shape_run app id events mine ordered
  rw [Stream.serve, calls_append]
  generalize (Trace.run (Stream.step app) none events).1 = strm at shape ⊢
  generalize calls (Trace.run (Stream.step app) none events).2 = made at shape ⊢
  cases shape with
  | idle unopened =>
    rw [if_neg unopened]
    rfl
  | head strm opened running bare =>
    rw [if_pos opened, running]
    simp only [Option.map_some, Option.getD_some, callOnClose, bare]
    exact .unanswered
  | body strm req chunks opened running given =>
    rw [if_pos opened, running]
    simp only [Option.map_some, Option.getD_some, callOnClose, given]
    exact .answered req chunks
  | closed errorCode log opened reported life =>
    rw [if_pos opened, reported]
    simpa [calls] using life

theorem step_unknown (app : App α) (streams : Streams) (e : Event)
    (closed : eventKind e ≠ .opens) (unknown : findStream streams e.streamId = none) :
    step app streams e = (streams, []) := by
  have absent : Stream.step app (findStream streams e.streamId) e = (none, []) := by
    rw [unknown, absent_step app closed]
  apply Prod.ext
  · apply Std.ExtTreeMap.ext_getElem?
    intro k
    by_cases mine : e.streamId = k
    · subst mine
      have own := step_own app streams e
      rw [absent] at own
      exact own.trans unknown.symm
    · exact step_other app streams e k mine
  · rw [step_outputs, absent]

theorem serve_own (app : App α) (events : List Event) (id : Int)
    (mine : ∀ e ∈ events, e.streamId = id) :
    serve app events = (serve app events).filter (fun o => o.streamId = id) := by
  symm
  rw [List.filter_eq_self]
  intro o member
  by_contra foreign
  have elsewhere : o ∈ (serve app events).filter (fun p => p.streamId = o.streamId) := by
    simpa using member
  have nothing : events.filter (fun e => e.streamId = o.streamId) = [] := by
    rw [List.filter_eq_nil_iff]
    intro e present
    rw [mine e present]
    simpa [eq_comm] using foreign
  rw [serve_filter, nothing] at elsewhere
  simp [Stream.serve] at elsewhere

/-- The calls a stream causes are those of its own events, in the order of a stream's
    life, whatever the other streams do. -/
theorem streams_isolated (app : App α) (events : List Event) (id : Int)
    (ordered : Ordered (events.filter (fun e => e.streamId = id))) :
    (serve app events).filter (fun o => o.streamId = id) =
      serve app (events.filter (fun e => e.streamId = id)) ∧
    (if Opened (events.filter (fun e => e.streamId = id)) then
      Lifecycle app id
        ((closeCode (events.filter (fun e => e.streamId = id))).getD internalError)
        (calls ((serve app events).filter (fun o => o.streamId = id)))
    else calls ((serve app events).filter (fun o => o.streamId = id)) = []) ∧
    (∀ past e rest, events = past ++ e :: rest → eventKind e ≠ .opens →
      findStream (Trace.run (step app) ∅ past).1 e.streamId = none →
      step app (Trace.run (step app) ∅ past).1 e =
        ((Trace.run (step app) ∅ past).1, [])) := by
  have mine : ∀ e ∈ events.filter (fun e => e.streamId = id), e.streamId = id := by
    intro e member
    simpa using (List.mem_filter.mp member).2
  refine ⟨?_, ?_, ?_⟩
  · rw [serve_own app _ id mine, serve_filter, serve_filter, List.filter_filter]
    simp
  · rw [serve_filter]
    exact stream_lifecycle app id _ mine ordered
  · intro past e rest _ closed unknown
    exact step_unknown app _ e closed unknown

theorem streams_isolated_pair :
    let app : App Unit := ⟨∅, fun _ _ => ⟨true, true⟩⟩
    let events : List Event := [.beginHeaders (.headers 1 false .request),
      .beginHeaders (.headers 3 true .request), .frameRecv (.headers 1 false .request),
      .header (.headers 3 true .request) ⟨lit ":method", lit "GET", false⟩,
      .dataChunk 1 (lit "x"), .frameRecv (.headers 3 true .request), .streamClose 1 0]
    Ordered (events.filter (fun e => e.streamId = 3)) ∧
      (serve app events).filter (fun o => o.streamId = 3) =
        serve app (events.filter (fun e => e.streamId = 3)) :=
  ⟨by decide, (streams_isolated _ _ 3 (by decide)).1⟩

end Nghttp2Asio.Server
