import Nghttp2Asio.ClientResponse
import Nghttp2Asio.ServerHandler

/-!
The end of a message body. A message ends with END_STREAM on its head, on a DATA frame or
on a trailer block, and the data callback is to be called once more, without bytes, after
the last chunk. Both sides look at the flag of a HEADERS frame only after they have
dropped the categories they do not expect.
-/
namespace Nghttp2Asio

def Event.inMessage : Event → Bool
  | .frameRecv (.other _ _) => false
  | _ => true

/-- The frame that carries END_STREAM, with the chunks of a DATA frame. -/
inductive Ending where
  | head
  | data (chunks : List Bytes)
  | trailer (fields : List Field)

def dataFrame (id : Int) (endStream : Bool) (chunks : List Bytes) : List Event :=
  chunks.map (.dataChunk id) ++ [.frameRecv (.data id endStream)]

def trailerBlock (id : Int) (fields : List Field) : List Event :=
  .beginHeaders (.headers id true .headers) ::
    (fields.map (.header (.headers id true .headers)) ++
      [.frameRecv (.headers id true .headers)])

namespace Ending

def events (id : Int) : Ending → List Event
  | .head => []
  | .data chunks => dataFrame id true chunks
  | .trailer fields => trailerBlock id fields

def chunks : Ending → List Bytes
  | .data chunks => chunks
  | _ => []

def onHead : Ending → Bool
  | .head => true
  | _ => false

def onTrailer : Ending → Bool
  | .trailer _ => true
  | _ => false

def mark : Ending → List Bytes
  | .data _ => [[]]
  | _ => []

end Ending

/-- What follows the head of a message: DATA frames without END_STREAM, each split into
    chunks, then the ending, and possibly the close of the stream. -/
structure Body where
  frames : List (List Bytes)
  ending : Ending
  closing : Option UInt32
  bare : ending = .head → frames = []
  filled : ∀ chunk ∈ frames.flatten ++ ending.chunks, chunk ≠ []

namespace Body

def events (b : Body) (id : Int) : List Event :=
  b.frames.flatMap (dataFrame id false) ++ b.ending.events id ++
    (b.closing.map (.streamClose id)).toList

def chunks (b : Body) : List Bytes := b.frames.flatten ++ b.ending.chunks

end Body

/-- All chunks, then one call without bytes: no chunk is empty. -/
def Complete (b : Body) (calls : List Bytes) : Prop := calls = b.chunks ++ [[]]

instance (b : Body) (calls : List Bytes) : Decidable (Complete b calls) :=
  inferInstanceAs (Decidable (_ = _))

theorem complete_iff (b : Body) :
    Complete b ((if b.ending.onHead then [[]] else []) ++ (b.chunks ++ b.ending.mark)) ↔
      b.ending.onTrailer = false := by
  cases found : b.ending with
  | head =>
    have nothing : b.chunks = [] := by simp [Body.chunks, b.bare found, found, Ending.chunks]
    simp [Complete, nothing, Ending.onHead, Ending.mark, Ending.onTrailer]
  | data chunks => simp [Complete, Ending.onHead, Ending.mark, Ending.onTrailer]
  | trailer fields => simp [Complete, Ending.onHead, Ending.mark, Ending.onTrailer]

inductive AfterHead (id : Int) : Event → Prop where
  | chunk (data : Bytes) : AfterHead id (.dataChunk id data)
  | dataEnd (endStream : Bool) : AfterHead id (.frameRecv (.data id endStream))
  | trailer : AfterHead id (.beginHeaders (.headers id true .headers))
  | field (f : Field) : AfterHead id (.header (.headers id true .headers) f)
  | trailerEnd : AfterHead id (.frameRecv (.headers id true .headers))

theorem dataFrame_after {id : Int} {endStream : Bool} {chunks : List Bytes} {e : Event}
    (member : e ∈ dataFrame id endStream chunks) : AfterHead id e := by
  simp only [dataFrame, List.mem_append, List.mem_map, List.mem_singleton] at member
  rcases member with ⟨chunk, _, rfl⟩ | rfl
  · exact .chunk chunk
  · exact .dataEnd endStream

theorem ending_after {id : Int} {ending : Ending} {e : Event} (member : e ∈ ending.events id) :
    AfterHead id e := by
  cases ending with
  | head => contradiction
  | data chunks => exact dataFrame_after member
  | trailer fields =>
    simp only [Ending.events, trailerBlock, List.mem_cons, List.mem_append, List.mem_map,
      List.not_mem_nil, or_false] at member
    rcases member with rfl | ⟨f, _, rfl⟩ | rfl
    · exact .trailer
    · exact .field f
    · exact .trailerEnd

def Body.messageEvents (b : Body) (id : Int) : List Event :=
  b.frames.flatMap (dataFrame id false) ++ b.ending.events id

theorem message_after {b : Body} {id : Int} {e : Event} (member : e ∈ b.messageEvents id) :
    AfterHead id e := by
  rcases List.mem_append.mp member with inFrame | inEnding
  · obtain ⟨chunks, _, inside⟩ := List.mem_flatMap.mp inFrame
    exact dataFrame_after inside
  · exact ending_after inEnding

def Event.given : Event → List Bytes
  | .dataChunk _ data => [data]
  | .frameRecv (.data _ true) => [[]]
  | _ => []

theorem dataFrame_given (id : Int) (endStream : Bool) (chunks : List Bytes) :
    (dataFrame id endStream chunks).flatMap Event.given =
      chunks ++ if endStream then [[]] else [] := by
  induction chunks with
  | nil => cases endStream <;> rfl
  | cons chunk rest ih =>
    rw [dataFrame] at ih ⊢
    rw [List.map_cons, List.cons_append, List.flatMap_cons, ih]
    rfl

theorem frames_given (id : Int) (frames : List (List Bytes)) :
    (frames.flatMap (dataFrame id false)).flatMap Event.given = frames.flatten := by
  induction frames with
  | nil => rfl
  | cons chunks rest ih => simp [dataFrame_given, ih]

theorem ending_given (id : Int) (ending : Ending) :
    (ending.events id).flatMap Event.given = ending.chunks ++ ending.mark := by
  cases ending with
  | head => rfl
  | data chunks => exact dataFrame_given id true chunks
  | trailer fields =>
    rw [Ending.events, trailerBlock, List.flatMap_cons, List.flatMap_append]
    induction fields with
    | nil => rfl
    | cons f rest ih => exact ih

theorem message_given (b : Body) (id : Int) :
    (b.messageEvents id).flatMap Event.given = b.chunks ++ b.ending.mark := by
  rw [Body.messageEvents, List.flatMap_append, frames_given, ending_given, Body.chunks,
    List.append_assoc]

namespace Server
variable {α : Type}

def Output.heardData : Output α → Option Bytes
  | .data _ chunk true => some chunk
  | _ => none

def heardData (log : List (Output α)) : List Bytes := log.filterMap Output.heardData

theorem heardData_nil : heardData ([] : List (Output α)) = [] := rfl

@[simp] theorem heardData_append (first rest : List (Output α)) :
    heardData (first ++ rest) = heardData first ++ heardData rest := by
  simp [heardData]

@[simp] theorem heardData_dataCalls (id : Int) (chunks : List Bytes) :
    heardData (dataCalls id true chunks : List (Output α)) = chunks := by
  induction chunks with
  | nil => rfl
  | cons chunk rest ih =>
    simp only [heardData, dataCalls, List.map_cons, List.filterMap_cons,
      Output.heardData] at ih ⊢
    rw [ih]

theorem after_step (app : App α) (strm : Stream) {id : Int} {e : Event}
    (after : AfterHead id e) :
    Stream.step app (some strm) e =
      (some strm, dataCalls id strm.installed.onData e.given) := by
  cases after with
  | dataEnd endStream => cases endStream <;> rfl
  | chunk | trailer | field | trailerEnd => rfl

theorem dataCalls_flatMap (id : Int) (heard : Bool) (events : List Event) :
    events.flatMap (fun e => dataCalls id heard e.given) =
      (dataCalls id heard (events.flatMap Event.given) : List (Output α)) := by
  simp [dataCalls, List.map_flatMap]

theorem run_body (app : App α) (id : Int) (strm : Stream)
    (listens : strm.installed.onData = true) (b : Body) :
    heardData (Trace.run (Stream.step app) (some strm) (b.events id)).2 =
      b.chunks ++ b.ending.mark := by
  have close : ∀ last, heardData
      (Trace.run (Stream.step app) last (b.closing.map (.streamClose id)).toList).2 = [] := by
    intro last
    cases b.closing with
    | none => rfl
    | some errorCode => cases last <;> rfl
  have message := Trace.run_constant _ (b.messageEvents id)
    (fun e member => after_step app strm (message_after member))
  rw [Body.events, ← Body.messageEvents, Trace.run_append, message, dataCalls_flatMap,
    message_given]
  simp only [heardData_append, close, listens, heardData_dataCalls, List.append_nil]

def receiveFields (req : RequestImpl) (fields : List Field) : RequestImpl :=
  fields.foldl (fun req f => (req.receive f).1) req

def receivedRequest (fields : List Field) : RequestImpl := receiveFields .empty fields

structure Upload (α : Type) where
  app : App α
  id : Int
  fields : List Field
  listens : (app.installs (receivedRequest fields)).onData = true
  body : Body
  events : List Event
  own : events.filter (fun e => e.streamId = id && e.inMessage) =
    .beginHeaders (.headers id body.ending.onHead .request) ::
      (fields.map (.header (.headers id body.ending.onHead .request)) ++
        (.frameRecv (.headers id body.ending.onHead .request) :: body.events id))

def Upload.delivered (u : Upload α) : List Bytes :=
  heardData ((serve u.app u.events).filter (fun o => o.streamId = u.id))

theorem run_requestFields (app : App α) (id : Int) (endStream : Bool) (fields : List Field) :
    ∀ strm : Stream,
      (Trace.run (Stream.step app) (some strm)
          (fields.map (.header (.headers id endStream .request)))).1 =
        some ⟨receiveFields strm.request fields, strm.installed⟩ ∧
      heardData (Trace.run (Stream.step app) (some strm)
          (fields.map (.header (.headers id endStream .request)))).2 = [] := by
  induction fields with
  | nil =>
    intro strm
    exact ⟨rfl, rfl⟩
  | cons f rest ih =>
    intro strm
    obtain ⟨result, silent⟩ := ih ⟨(strm.request.receive f).1, strm.installed⟩
    rw [List.map_cons, Trace.run_cons]
    simp only [Stream.step]
    refine ⟨result, ?_⟩
    rw [heardData_append, silent]
    split <;> rfl

theorem upload_own (u : Upload α) :
    u.delivered = heardData (Trace.run (Stream.step u.app) none
      (u.events.filter (fun e => e.streamId = u.id && e.inMessage))).2 := by
  have others : ∀ e ∈ u.events.filter (fun e => e.streamId = u.id), e.inMessage = false →
      ∀ strm, Stream.step u.app strm e = (strm, []) := by
    intro e _ other strm
    unfold Event.inMessage at other
    split at other
    · rfl
    · contradiction
  have closing : ∀ last : Option Stream, heardData
      ((last.map (callOnClose u.id · internalError)).getD [] : List (Output α)) = [] := by
    intro last
    cases last <;> rfl
  rw [Upload.delivered, serve_filter, Stream.serve, heardData_append, closing, List.append_nil,
    ← Trace.run_skip Event.inMessage _ others, List.filter_filter]
  simp only [Bool.and_comm]

theorem upload_complete_iff (u : Upload α) :
    Complete u.body u.delivered ↔ u.body.ending.onTrailer = false := by
  obtain ⟨entry, silent⟩ := run_requestFields u.app u.id u.body.ending.onHead u.fields .new
  have body := run_body u.app u.id
    ⟨receivedRequest u.fields, u.app.installs (receivedRequest u.fields)⟩ u.listens u.body
  have head : heardData ((callOnRequest u.app u.id ⟨receivedRequest u.fields,
      ⟨false, false⟩⟩).2 ++ if u.body.ending.onHead then
        callOnData u.id (callOnRequest u.app u.id ⟨receivedRequest u.fields,
          ⟨false, false⟩⟩).1 [] else []) = if u.body.ending.onHead then [[]] else [] := by
    cases u.body.ending.onHead with
    | false => rfl
    | true =>
      simp only [callOnRequest, callOnData, u.listens]
      rfl
  have result : u.delivered = (if u.body.ending.onHead then [[]] else []) ++
      (u.body.chunks ++ u.body.ending.mark) := by
    rw [upload_own, u.own, Trace.run_cons, heardData_append]
    simp only [Stream.step, Option.none_or]
    rw [Trace.run_append, heardData_append, silent, entry, Trace.run_cons, heardData_append,
      heardData_nil, List.nil_append, List.nil_append]
    exact congrArg₂ (· ++ ·) head body
  rw [result]
  exact complete_iff u.body

end Server

namespace Client

def Output.heardData : Output → Option Bytes
  | .data _ chunk true => some chunk
  | _ => none

def heardData (log : List Output) : List Bytes := log.filterMap Output.heardData

@[simp] theorem heardData_append (first rest : List Output) :
    heardData (first ++ rest) = heardData first ++ heardData rest := by
  simp [heardData]

def dataCalls (id : Int) (heard : Bool) (chunks : List Bytes) : List Output :=
  chunks.map (fun chunk => .data id chunk heard)

theorem heardData_dataCalls (id : Int) (heard : Bool) (chunks : List Bytes) :
    heardData (dataCalls id heard chunks) = if heard then chunks else [] := by
  cases heard <;> simp [heardData, dataCalls, List.filterMap_map, Function.comp_def,
    Output.heardData]

theorem after_step (app : App) (res : ResponseImpl)
    (complete : res.expectFinalResponse = false) {id : Int} {e : Event}
    (after : AfterHead id e) :
    ResponseImpl.step app (some res) (.recv e) =
      (some res, dataCalls id res.onData e.given) := by
  have ignored : res.ignores .headers = true := by simp [ResponseImpl.ignores, complete]
  cases after with
  | chunk data => rfl
  | dataEnd endStream => cases endStream <;> rfl
  | trailer => rfl
  | field f =>
    simp only [ResponseImpl.step, Option.map_some, ignored, ↓reduceIte]
    rfl
  | trailerEnd =>
    simp only [ResponseImpl.step, ignored, ↓reduceIte]
    rfl

theorem dataCalls_flatMap (id : Int) (heard : Bool) (events : List Event) :
    events.flatMap (fun e => dataCalls id heard e.given) =
      dataCalls id heard (events.flatMap Event.given) := by
  simp [dataCalls, List.map_flatMap]

theorem run_body (app : App) (id : Int) (res : ResponseImpl)
    (complete : res.expectFinalResponse = false) (b : Body) :
    heardData (Trace.run (ResponseImpl.step app) (some res) ((b.events id).map .recv)).2 =
      if res.onData then b.chunks ++ b.ending.mark else [] := by
  have close : ∀ last, heardData (Trace.run (fun res e => ResponseImpl.step app res (.recv e))
      last (b.closing.map (.streamClose id)).toList).2 = [] := by
    intro last
    cases b.closing with
    | none => rfl
    | some errorCode => cases last <;> rfl
  have message : Trace.run (fun res e => ResponseImpl.step app res (.recv e)) (some res)
      (b.messageEvents id) = _ :=
    Trace.run_constant _ _ (fun e member => after_step app res complete (message_after member))
  rw [Trace.run_map, Body.events, ← Body.messageEvents, Trace.run_append, message,
    dataCalls_flatMap, message_given]
  simp only [heardData_append, close, heardData_dataCalls, List.append_nil]

structure Download where
  app : App
  reception : Reception
  installs : app.onResponse reception.id = true ∧ ∀ res, app.onData reception.id res = true
  body : Body
  flag : reception.final.endStream = body.ending.onHead
  own : reception.after.filter (fun i => i.concerns = some reception.id) =
    ((body.events reception.id).map .recv).filter (fun i => i.concerns = some reception.id)

def Download.delivered (d : Download) : List Bytes :=
  heardData (heard d.app d.reception.id
    (d.reception.before ++ d.reception.finish :: d.reception.after))

theorem body_concerns (b : Body) (id : Int) :
    ∀ i ∈ (b.events id).map Input.recv, i.concerns = some id ∨ i.concerns = none := by
  intro i member
  obtain ⟨e, inside, rfl⟩ := List.mem_map.mp member
  rcases List.mem_append.mp inside with message | closing
  · cases message_after message with
    | trailer => exact Or.inr rfl
    | chunk | dataEnd | field | trailerEnd => exact Or.inl rfl
  · obtain ⟨errorCode, _, rfl⟩ := Option.map_eq_some_iff.mp (Option.mem_toList.mp closing)
    exact Or.inl rfl

section Download
variable (d : Download)

theorem download_tail (res : ResponseImpl)
    (status : res.statusCode = d.reception.final.status) :
    heardData (Trace.run (ResponseImpl.step d.app) (some res)
        (d.reception.after.filter (fun i => i.concerns = some d.reception.id))).2 =
      if res.onData then d.body.chunks ++ d.body.ending.mark else [] := by
  have idle : ∀ i ∈ (d.body.events d.reception.id).map Input.recv,
      decide (i.concerns = some d.reception.id) = false →
      ∀ s, ResponseImpl.step d.app s i = (s, []) := by
    intro i member other s
    rcases body_concerns d.body d.reception.id i member with mine | nobody
    · simp [mine] at other
    · exact unconcerned_step d.app s nobody
  rw [d.own, Trace.run_skip _ _ idle,
    run_body d.app d.reception.id res (final_complete d.reception res status)]

theorem download_direct (none_ : d.reception.informational = []) :
    d.delivered = (if d.body.ending.onHead then [[]] else []) ++
      (d.body.chunks ++ d.body.ending.mark) := by
  obtain ⟨split, _⟩ := own_after d.reception d.reception.after [] (by simp)
  have status := (receiveAll_regular d.reception.final.fields
    { ResponseImpl.new with statusCode := d.reception.final.status }
    d.reception.final.regular).1
  have heardNow : (callOnResponse d.app d.reception.id (directResponse d.reception)).1.onData =
      true := by
    simp [callOnResponse, d.installs]
  have tail := download_tail d
    (callOnResponse d.app d.reception.id (directResponse d.reception)).1 status
  rw [Download.delivered, (heard_own d.app d.reception.id _).1, split, Trace.run_append,
    direct_upto d.app d.reception none_, direct_done d.app d.reception none_,
    heardData_append, tail, if_pos heardNow, d.flag]
  cases d.body.ending.onHead with
  | false => rfl
  | true =>
    simp only [↓reduceIte, callOnData, heardNow]
    rfl

theorem download_skipped (some_ : d.reception.informational ≠ []) : d.delivered = [] := by
  obtain ⟨split, _⟩ := own_after d.reception d.reception.after [] (by simp)
  obtain ⟨res, status, deaf, silent⟩ := skipped_run d.app d.reception some_
  have tail := download_tail d res status
  rw [Download.delivered, (heard_own d.app d.reception.id _).1, split, own_upto,
    Trace.run_append, silent, List.nil_append, tail, deaf]
  rfl

theorem download_complete_iff :
    Complete d.body d.delivered ↔
      d.reception.informational = [] ∧ d.body.ending.onTrailer = false := by
  by_cases none_ : d.reception.informational = []
  · rw [download_direct d none_, complete_iff]
    simp [none_]
  · rw [download_skipped d none_]
    simp [Complete, none_]

end Download

end Client

/-- The end of a body is signalled for every split into frames and chunks, except when a
    trailer block carries END_STREAM and, on the client, when an informational block came
    before the response. -/
theorem end_of_body_iff {α : Type} :
    (∀ u : Server.Upload α, Complete u.body u.delivered ↔ u.body.ending.onTrailer = false) ∧
    (∀ d : Client.Download, Complete d.body d.delivered ↔
      d.reception.informational = [] ∧ d.body.ending.onTrailer = false) :=
  ⟨Server.upload_complete_iff, Client.download_complete_iff⟩

def trailedBody : Body where
  frames := [[lit "hi"]]
  ending := .trailer [⟨lit "x", lit "y", false⟩]
  closing := none
  bare := by simp
  filled := by decide

def trailedUpload : Server.Upload Unit where
  app := ⟨(ServeMux.registerAll [⟨lit "/", some (.app ())⟩]).table, fun _ _ => ⟨true, true⟩⟩
  id := 1
  fields := [⟨lit ":method", lit "POST", false⟩, ⟨lit ":path", lit "/", false⟩]
  listens := by decide +kernel
  body := trailedBody
  events := .beginHeaders (.headers 1 false .request) ::
    .header (.headers 1 false .request) ⟨lit ":method", lit "POST", false⟩ ::
    .header (.headers 1 false .request) ⟨lit ":path", lit "/", false⟩ ::
    .frameRecv (.headers 1 false .request) :: trailedBody.events 1
  own := by decide

def trailedDownload : Client.Download where
  app := ⟨fun _ => true, fun _ _ => true⟩
  reception :=
    { id := 1
      opening := .submit 1 .empty
      opens := Client.continued.opens
      first := .response
      initial := Client.continued.initial
      informational := []
      waits := by simp
      final := Client.block200
      ends := Client.continued.ends
      before := .submit 1 .empty :: Client.block200.open 1 .response
      ownBefore := by decide
      after := (trailedBody.events 1).map .recv
      ownAfter := by simp [trailedBody, Body.events, dataFrame, Ending.events, trailerBlock,
        Client.Input.concerns, Client.Later] }
  installs := by simp
  body := trailedBody
  flag := rfl
  own := rfl

theorem trailed_not_complete :
    ¬ Complete trailedUpload.body trailedUpload.delivered ∧
      ¬ Complete trailedDownload.body trailedDownload.delivered := by
  have uploaded : trailedUpload.delivered = [lit "hi"] := by decide +kernel
  have downloaded : trailedDownload.delivered = [lit "hi"] := by decide
  rw [uploaded, downloaded]
  decide

end Nghttp2Asio
