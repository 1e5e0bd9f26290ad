import Nghttp2Asio.Exchange

/-!
What arrives. In every state a connection comes to, the calls an application gets on one
end are a first part of what the application on the other end gave for that stream,
however the streams overtake each other and whichever end closes one.
-/
namespace Nghttp2Asio
open Util UrlParser
variable {α : Type}

theorem marked_front {heard chunks marks : List Bytes} (front : heard <+: chunks ++ marks)
    (filled : ∀ chunk ∈ chunks, chunk ≠ []) (marked : marks = [] ∨ marks = [[]]) :
    heard.flatten <+: chunks.flatten ∧
      ([] ∈ heard → heard.flatten = chunks.flatten ∧ marks = [[]]) := by
  have whole : (chunks ++ marks).flatten = chunks.flatten := by
    rcases marked with rfl | rfl <;> simp
  refine ⟨?_, fun ended => ?_⟩
  · rw [← whole]
    exact front.flatten
  · rcases marked with rfl | rfl
    · rw [List.append_nil] at front
      exact absurd rfl (filled [] (front.subset ended))
    · -- the mark is the last element, so a prefix that has it is the whole
      rcases List.prefix_concat_iff.mp front with all | part
      · exact ⟨by rw [all, whole], rfl⟩
      · exact absurd rfl (filled [] (part.subset ended))

/-! On the server. -/

namespace Server

def Output.requested : Output α → Option RequestImpl
  | .request _ _ req => some req
  | _ => none

theorem requestFields_resets (app : App α) (id : Int) (endStream : Bool) (fields : List Field) :
    ∀ strm : Stream, ∀ o ∈ (Trace.run (Stream.step app) (some strm)
      (fields.map (.header (.headers id endStream .request)))).2, o = .rstStream id internalError := by
  induction fields with
  | nil => simp
  | cons f rest ih =>
    intro strm o member
    rw [List.map_cons, Trace.run_cons, List.mem_append] at member
    rcases member with here | later
    · simp only [Stream.step] at here
      split at here
      · exact List.mem_singleton.mp here
      · contradiction
    · exact ih _ o later

theorem request_run (app : App α) (id : Int) (endStream : Bool) (nva : List Nv) {frames : List Event}
    (after : ∀ e ∈ frames, AfterHead id e) :
    ∃ resets, (∀ o ∈ resets, o = .rstStream id internalError) ∧
      (Trace.run (Stream.step app) none
          (headBlock (.headers id endStream .request) nva ++ frames)).2 =
        resets ++ .request id (ServeMux.handler app.mux (receivedRequest (wireFields nva)))
            (receivedRequest (wireFields nva)) ::
          dataCalls id (app.installs (receivedRequest (wireFields nva))).onData
            ((if endStream then [[]] else []) ++ frames.flatMap Event.given) := by
  have entry := (run_requestFields app id endStream (wireFields nva) .new).1
  have silent := requestFields_resets app id endStream (wireFields nva) .new
  have body := Trace.run_constant _ frames (fun e member => after_step app
    ⟨receivedRequest (wireFields nva), app.installs (receivedRequest (wireFields nva))⟩ (after e member))
  rw [dataCalls_flatMap] at body
  refine ⟨_, silent, ?_⟩
  rw [headBlock, List.cons_append, List.append_assoc, Trace.run_cons, Trace.run_append]
  simp only [Stream.step, Option.none_or, List.nil_append]
  rw [entry, List.singleton_append, Trace.run_cons]
  simp only [Stream.step, callOnRequest]
  rw [show receiveFields Stream.new.request (wireFields nva) = receivedRequest (wireFields nva) from rfl,
    body, dataCalls_append]
  cases endStream <;> simp [callOnData, dataCalls]

end Server

namespace Link

def heardRequests (ends : Ends α) (link : Link) (id : Int) : List RequestImpl :=
  ((link.serverLog ends).filter (fun o => o.streamId = id)).filterMap Server.Output.requested

def heardUpload (ends : Ends α) (link : Link) (id : Int) : List Bytes :=
  ((link.serverLog ends).filter (fun o => o.streamId = id)).filterMap Server.Output.heardData

/-- Everything sent up on a stream has come, and the server has not closed it. -/
def ServerHasAll (link : Link) (id : Int) : Prop :=
  Channel.taken Server.Input.streamId Server.Input.closing link.serverPast id = link.up id ∧
    ∀ i ∈ link.serverPast, i.streamId = id → i.closing = false

end Link

section Server
variable {ends : Ends α} {link : Link} {id : Int} {β : Type} {note : Server.Output α → Option β}

theorem server_notes (note : Server.Output α → Option β) (id : Int) :
    ((link.serverLog ends).filter (fun o => o.streamId = id)).filterMap note =
      Channel.notes note (Server.Stream.act ends.server) (link.serverPast.filter (fun i => i.streamId = id)) := by
  have projected := (Trace.run_projection (Server.act_local ends.server) id link.serverPast ∅).2
  have start : Server.findStream ∅ id = none := by simp [Server.findStream]
  rw [Link.serverLog, projected, start]
  rfl

theorem lane_gone {req : Option Request} {promise : Option Promise} {resp : Option Responding}
    {up : List Server.Input} {down : List Client.Input} (lane : Lane ends id req promise resp up down) :
    ∀ i ∈ up.tail, Server.Stream.act ends.server none i = (none, []) := by
  cases lane with
  | unused => simp
  | promised => simp
  | requested r resp frames tail made carried bare answer plain =>
    intro i member
    rw [← List.map_tail] at member
    obtain ⟨e, inside, rfl⟩ := List.mem_map.mp member
    refine Server.absent_step ends.server ?_
    simp only [requestBlock, headBlock, List.cons_append, List.tail_cons, List.append_assoc,
      List.nil_append, List.mem_append, List.mem_map, List.mem_cons] at inside
    rcases inside with ⟨f, _, rfl⟩ | rfl | later
    · simp [Server.eventKind]
    · simp [Server.eventKind]
    · cases (carried.after e later).1 <;> simp [Server.eventKind]

/-- What a kind of call tells of a stream is a first part of what its whole lane gives. -/
theorem server_heard (good : Good ends link) (id : Int) (note : Server.Output α → Option β)
    (ends_ : ∀ id errorCode strm, (Server.callOnClose id strm errorCode).filterMap note = []) :
    ((link.serverLog ends).filter (fun o => o.streamId = id)).filterMap note <+:
        Channel.notes note (Server.Stream.act ends.server) (link.up id) ∧
      (link.ServerHasAll id → ((link.serverLog ends).filter (fun o => o.streamId = id)).filterMap note =
        Channel.notes note (Server.Stream.act ends.server) (link.up id)) := by
  have closes : Channel.Closes (Server.Stream.act ends.server) Server.Input.closing note (link.up id) := by
    refine ⟨fun s i closed => ?_, lane_gone (good.lanes id)⟩
    obtain ⟨k, errorCode, gone⟩ := stream_closed ends.server s i closed
    rw [gone]
    cases s with
    | none => exact ⟨rfl, rfl⟩
    | some strm => exact ⟨rfl, ends_ k errorCode strm⟩
  obtain ⟨front, all⟩ := Channel.notes_cut closes (by rw [own_taken]; exact good.serverOrder id)
  rw [server_notes]
  refine ⟨front, fun has => ?_⟩
  rw [all (fun i member => has.2 i (List.mem_filter.mp member).1 (by simpa using (List.mem_filter.mp member).2)),
    own_taken, has.1]

theorem requested_notes (note : Server.Output α → Option β) (good : Good ends link) {r : Request} (submitted : link.requests id = some r) :
    ∃ (frames : List Event) (resets : List (Server.Output α)), r.Made ends ∧
      Carries id r.reads frames ∧ (r.body = none → frames = []) ∧
      (∀ o ∈ resets, o = .rstStream id internalError) ∧
      Channel.notes note (Server.Stream.act ends.server) (link.up id) =
        (resets ++ .request id (ServeMux.handler ends.server.mux (Server.receivedRequest (wireFields r.nva)))
            (Server.receivedRequest (wireFields r.nva)) ::
          Server.dataCalls id (ends.server.installs (Server.receivedRequest (wireFields r.nva))).onData
            ((if r.body.isNone then [[]] else []) ++ frames.flatMap Event.given)).filterMap note := by
  have lane := good.lanes id
  generalize link.up id = up at *
  generalize link.down id = down at *
  generalize link.responding id = resp at *
  generalize link.promises id = promises at *
  rw [submitted] at lane
  cases lane with
  | requested _ resp frames tail made carried bare answer plain =>
    obtain ⟨resets, silent, ran⟩ := Server.request_run ends.server id r.body.isNone r.nva
      (fun e member => (carried.after e member).1)
    refine ⟨frames, resets, made, carried, bare, silent, ?_⟩
    rw [Channel.notes, Trace.run_map, ← ran]
    rfl

theorem unrequested_notes (good : Good ends link) (absent : link.requests id = none) :
    Channel.notes note (Server.Stream.act ends.server) (link.up id) = [] := by
  have lane := good.lanes id
  rw [absent] at lane
  generalize link.up id = up at *
  generalize link.down id = down at *
  generalize link.responding id = resp at *
  generalize link.promises id = promises at *
  cases lane with
  | unused => rfl
  | promised => rfl

/-- The server gets the target the client keeps; only a request without a host takes the
    one its own fields name. -/
theorem Request.Made.received {r : Request} (made : r.Made ends) (plain : Plain r.header) :
    Server.receivedRequest (wireFields r.nva) =
      ⟨HeaderStore.empty.addAll (mapFields r.header), r.method, { r.stored.uri with
        host := if r.stored.uri.host = [] then hostNamed (mapFields r.header)
          else r.stored.uri.host }⟩ := by
  obtain ⟨u, accepted, sent, stored⟩ := made
  rw [sent, submit_received accepted r.method plain, stored]
  rfl

theorem Request.Made.host {r : Request} (made : r.Made ends) (fits : NoWrap r.uri) :
    r.stored.uri.host ≠ [] := by
  obtain ⟨u, accepted, _, stored⟩ := made
  rw [stored]
  exact submitHost_nonempty (parse_spec accepted fits.toServerFits) fits

theorem request_heard (good : Good ends link) {r : Request} (submitted : link.requests id = some r)
    (note : Server.Output α → Option β)
    (of_data : ∀ i data heard, note (.data i data heard) = none)
    (of_close : ∀ i code strm, (Server.callOnClose i strm code).filterMap note = [])
    (of_reset : ∀ i code, note (.rstStream i code) = none) :
    let req := Server.receivedRequest (wireFields r.nva)
    r.Made ends ∧
      ((link.serverLog ends).filter (fun o => o.streamId = id)).filterMap note <+:
        (note (.request id (ServeMux.handler ends.server.mux req) req)).toList ∧
      (link.ServerHasAll id → ((link.serverLog ends).filter (fun o => o.streamId = id)).filterMap note =
        (note (.request id (ServeMux.handler ends.server.mux req) req)).toList) := by
  intro req
  obtain ⟨front, all⟩ := server_heard good id note of_close
  obtain ⟨frames, resets, made, _, _, silent, notes⟩ := requested_notes note good submitted
  have quiet : resets.filterMap note = [] := by
    rw [List.filterMap_eq_nil_iff]
    intro o member
    rw [silent o member]
    exact of_reset _ _
  have body : ∀ heard chunks, (Server.dataCalls id heard chunks : List (Server.Output α)).filterMap
      note = [] := by
    intro heard chunks
    simp [Server.dataCalls, of_data, List.filterMap_map]
  rw [List.filterMap_append, quiet, List.nil_append, List.filterMap_cons, body] at notes
  refine ⟨made, ?_, ?_⟩
  · rw [notes] at front
    cases told : note (.request id _ _) <;> simpa [req, told] using front
  · rw [notes] at all
    cases told : note (.request id _ _) <;> simpa [req, told] using all

/-- Every request reaches the server at most once, as what the client keeps of it with the
    method it was given, and no other request does. -/
theorem request_arrives (reached : link.Reached ends) (id : Int) :
    (link.heardRequests ends id).length ≤ 1 ∧
    (link.requests id = none → link.heardRequests ends id = []) ∧
    ∀ r, link.requests id = some r → Plain r.header →
      ∃ req : RequestImpl, req.method = r.method ∧
        req.uri = { r.stored.uri with
          host := if r.stored.uri.host = [] then hostNamed (mapFields r.header)
            else r.stored.uri.host } ∧
        (NoWrap r.uri → req.uri = r.stored.uri) ∧
        (req.store.header = r.stored.store.header ↔ entriesSize r.header.entries ≤ headerLimit) ∧
        link.heardRequests ends id <+: [req] ∧
        (link.ServerHasAll id → link.heardRequests ends id = [req]) := by
  have good := good_reached reached
  have absent : link.requests id = none → link.heardRequests ends id = [] := by
    intro unused
    obtain ⟨front, _⟩ := server_heard good id Server.Output.requested (fun _ _ _ => rfl)
    rw [unrequested_notes good unused] at front
    exact List.prefix_nil.mp front
  have heard := fun r (submitted : link.requests id = some r) => request_heard good submitted
    Server.Output.requested (fun _ _ _ => rfl) (fun _ _ _ => rfl) (fun _ _ => rfl)
  refine ⟨?_, absent, fun r submitted plain => ?_⟩
  · cases submitted : link.requests id with
    | none => simp [absent submitted]
    | some r => exact (heard r submitted).2.1.length_le
  · obtain ⟨made, front, all⟩ := heard r submitted
    have received := made.received plain
    refine ⟨_, by rw [received], by rw [received], fun fits => ?_, ?_, front, all⟩
    · rw [received, if_neg (made.host fits)]
    · obtain ⟨u, _, _, stored⟩ := made
      have kept : r.stored.store.header = r.header := by
        rw [stored]
        rfl
      rw [received, kept]
      exact stored_iff r.header

theorem body_front {heard : List Bytes} {reads : List (Nat × ReadResult)} {frames : List Event}
    {listens bare : Bool} (carried : Carries id reads frames) (nothing : bare = true → frames = [])
    (front : heard <+: if listens then (if bare then [[]] else []) ++ frames.flatMap Event.given else []) :
    heard.flatten <+: payloads reads ∧ ([] ∈ heard → heard.flatten = payloads reads ∧
      (bare = true ∨ reads.any (fun read => read.2.eof) = true)) := by
  obtain ⟨chunks, marks, given, filled, bytes, marked⟩ := carried.given
  rw [given] at front
  have part : heard <+: (if bare then [[]] else []) ++ (chunks ++ marks) := by
    cases listens with
    | false => exact (List.prefix_nil.mp front) ▸ List.nil_prefix
    | true => exact front
  rw [← bytes]
  cases bare with
  | false =>
    rw [if_neg (by simp), List.nil_append] at part
    obtain ⟨bytesFront, ends⟩ := marked_front part filled (marked.imp_right And.left)
    refine ⟨bytesFront, fun ended => ⟨(ends ended).1, Or.inr ?_⟩⟩
    rcases marked with none_ | both
    · have one := (ends ended).2
      simp [none_] at one
    · exact both.2
  | true =>
    rw [nothing rfl, List.flatMap_nil] at given
    obtain ⟨noChunk, noMark⟩ := List.append_eq_nil_iff.mp given.symm
    rw [noChunk, noMark, if_pos rfl, List.append_nil, List.append_nil] at part
    change heard <+: [] ++ [[]] at part
    obtain ⟨bytesFront, ends⟩ := marked_front part (by simp) (Or.inr rfl)
    rw [noChunk]
    exact ⟨bytesFront, fun ended => ⟨(ends ended).1, Or.inl rfl⟩⟩

/-- The data callback of a request gets the bytes read from the client's body, in order and
    from the start, and hears the end only after all of them. -/
theorem upload_arrives (reached : link.Reached ends) {r : Request} (submitted : link.requests id = some r) :
    (link.heardUpload ends id).flatten <+: payloads r.reads ∧
      ([] ∈ link.heardUpload ends id → (link.heardUpload ends id).flatten = payloads r.reads ∧
        (r.body.isNone = true ∨ r.reads.any (fun read => read.2.eof) = true)) ∧
      ∀ data, r.body = some (stringGenerator data) →
        (link.heardUpload ends id).flatten <+: data ∧
          ([] ∈ link.heardUpload ends id → (link.heardUpload ends id).flatten = data) := by
  have good := good_reached reached
  obtain ⟨front, _⟩ := server_heard good id Server.Output.heardData (fun _ _ _ => rfl)
  obtain ⟨frames, resets, _, carried, bare, silent, notes⟩ :=
    requested_notes Server.Output.heardData good submitted
  have quiet : resets.filterMap Server.Output.heardData = [] := by
    rw [List.filterMap_eq_nil_iff]
    intro o member
    rw [silent o member]
    rfl
  have body : ∀ heard chunks, (Server.dataCalls id heard chunks : List (Server.Output α)).filterMap
      Server.Output.heardData = if heard then chunks else [] := by
    intro heard chunks
    cases heard <;> simp [Server.dataCalls, Server.Output.heardData, List.filterMap_map, Function.comp_def]
  rw [List.filterMap_append, quiet, List.nil_append, List.filterMap_cons, body] at notes
  rw [notes] at front
  change link.heardUpload ends id <+: _ at front
  obtain ⟨bytes, ends_⟩ := body_front carried (fun none_ => bare (Option.isNone_iff_eq_none.mp none_)) front
  refine ⟨bytes, ends_, fun data string => ?_⟩
  obtain ⟨ordered, whole⟩ := payloads_string (by
    rw [Request.reads, string]
    exact stringGenerator_delivers data r.lens : Delivers data r.reads)
  refine ⟨bytes.trans ordered, fun ended => ?_⟩
  obtain ⟨all, said⟩ := ends_ ended
  rw [all]
  exact whole (said.resolve_left (by simp [string]))

end Server

/-! On the client. -/

namespace Client

def Input.opens : Input → Bool
  | .submit _ _ => true
  | .recv (.beginHeaders (.pushPromise _ _)) => true
  | _ => false

theorem absent_step (app : App) {i : Input} (later : i.opens = false) :
    ResponseImpl.step app none i = (none, []) := by
  rcases i with ⟨id, request⟩ | e
  · contradiction
  · cases e with
    | beginHeaders frame =>
      cases frame with
      | pushPromise => contradiction
      | data | headers | other => rfl
    | header frame f => cases frame <;> rfl
    | frameRecv frame =>
      cases frame with
      | data id endStream => cases endStream <;> rfl
      | headers | pushPromise | other => rfl
    | dataChunk | streamClose => rfl

theorem run_first (app : App) (id : Int) (endStream : Bool) {cat : HeadersCategory}
    (first : cat ≠ .headers) (fields : List Field) :
    ∀ res : ResponseImpl, Trace.run (ResponseImpl.step app) (some res) (fieldInputs id endStream cat fields) =
      (some (res.receiveAll fields), []) := by
  induction fields with
  | nil =>
    intro res
    rfl
  | cons f rest ih =>
    intro res
    have taken : res.ignores cat = false := by simp [ResponseImpl.ignores, first]
    rw [fieldInputs, List.map_cons, Trace.run_cons]
    simp only [ResponseImpl.step, Option.map_some, taken, Bool.false_eq_true, ↓reduceIte]
    rw [← fieldInputs, ih]
    rfl

/-- A response with an informational status waits for another one: nothing behind it is
    told to anybody. -/
theorem informational_run (app : App) (id : Int) (frames : List Event) :
    (∀ e ∈ frames, AfterHead id e ∧ e.Regular) → ∀ res : ResponseImpl, res.expectFinalResponse = true →
      res.onData = false → ∀ o ∈ (Trace.run (ResponseImpl.step app) (some res) (frames.map .recv)).2,
        ∃ chunk, o = .data id chunk false := by
  induction frames with
  | nil => simp
  | cons e rest ih =>
    intro after res waits deaf o member
    have later := ih (fun d inside => after d (by simp [inside]))
    rw [List.map_cons, Trace.run_cons, List.mem_append] at member
    obtain ⟨behind, regular⟩ := after e (by simp)
    have listening : res.ignores .headers = false := listening_headers waits
    cases behind with
    | chunk data =>
      rcases member with here | inside
      · exact ⟨data, by simpa [ResponseImpl.step, callOnData, deaf] using here⟩
      · exact later res waits deaf o inside
    | dataEnd endStream =>
      rcases member with here | inside
      · cases endStream with
        | false => simp [ResponseImpl.step] at here
        | true => exact ⟨[], by simpa [ResponseImpl.step, callOnData, deaf] using here⟩
      · exact later res waits deaf o inside
    | trailer => exact later res waits deaf o (by simpa [ResponseImpl.step] using member)
    | field f =>
      simp only [ResponseImpl.step, Option.map_some, listening, Bool.false_eq_true, ↓reduceIte,
        List.not_mem_nil, false_or] at member
      obtain ⟨status, data, _⟩ := receive_regular regular res
      refine later _ ?_ (data.trans deaf) o member
      rw [← waits, ResponseImpl.expectFinalResponse, status]
      rfl
    | trailerEnd =>
      simp only [ResponseImpl.step, listening, waits, Bool.false_eq_true, ↓reduceIte,
        List.not_mem_nil, false_or] at member
      exact later res waits deaf o member

theorem head_run (app : App) (id : Int) (endStream : Bool) {cat : HeadersCategory}
    (first : cat ≠ .headers) (nva : List Nv) (frames : List Event) :
    Trace.run (ResponseImpl.step app) (some .new)
        ((headBlock (.headers id endStream cat) nva ++ frames).map .recv) =
      Trace.run (ResponseImpl.step app) (some (arrivedResponse nva))
        (.recv (.frameRecv (.headers id endStream cat)) :: frames.map .recv) := by
  have shape : (headBlock (.headers id endStream cat) nva ++ frames).map Input.recv =
      .recv (.beginHeaders (.headers id endStream cat)) :: (fieldInputs id endStream cat (wireFields nva) ++
        .recv (.frameRecv (.headers id endStream cat)) :: frames.map .recv) := by
    simp [headBlock, fieldInputs, Function.comp_def]
  rw [shape, Trace.run_cons]
  simp only [ResponseImpl.step, List.nil_append]
  rw [Trace.run_append, run_first app id endStream first]
  rfl

theorem frames_run (app : App) (id : Int) {frames : List Event} (after : ∀ e ∈ frames, AfterHead id e)
    (res : ResponseImpl) (final : res.expectFinalResponse = false) :
    (Trace.run (ResponseImpl.step app) (some res) (frames.map .recv)).2 =
      dataCalls id res.onData (frames.flatMap Event.given) := by
  have constant : Trace.run (fun res e => ResponseImpl.step app res (.recv e)) (some res) frames = _ :=
    Trace.run_constant _ frames (fun e member => after_step app res final (after e member))
  rw [Trace.run_map, constant, dataCalls_flatMap]

theorem final_answer (app : App) (id : Int) (endStream : Bool) {cat : HeadersCategory}
    (first : cat ≠ .headers) (nva : List Nv) {frames : List Event} (after : ∀ e ∈ frames, AfterHead id e)
    (final : (arrivedResponse nva).expectFinalResponse = false) :
    (Trace.run (ResponseImpl.step app) (some .new)
        ((headBlock (.headers id endStream cat) nva ++ frames).map .recv)).2 =
      .response id (arrivedResponse nva) (app.onResponse id) ::
        dataCalls id ((arrivedResponse nva).onData || (app.onResponse id && app.onData id (arrivedResponse nva)))
          ((if endStream then [[]] else []) ++ frames.flatMap Event.given) := by
  have taken : (arrivedResponse nva).ignores cat = false := by simp [ResponseImpl.ignores, first]
  rw [head_run app id endStream first, Trace.run_cons]
  simp only [ResponseImpl.step, taken, final, Bool.false_eq_true, ↓reduceIte, callOnResponse]
  rw [frames_run app id after]
  · cases endStream <;> simp [callOnData, dataCalls]
  · exact final

theorem informational_answer (app : App) (id : Int) (endStream : Bool) {cat : HeadersCategory}
    (first : cat ≠ .headers) (nva : List Nv) {frames : List Event}
    (after : ∀ e ∈ frames, AfterHead id e ∧ e.Regular)
    (waits : (arrivedResponse nva).expectFinalResponse = true) (deaf : (arrivedResponse nva).onData = false) :
    ∀ o ∈ (Trace.run (ResponseImpl.step app) (some .new)
        ((headBlock (.headers id endStream cat) nva ++ frames).map .recv)).2,
      ∃ chunk, o = .data id chunk false := by
  have taken : (arrivedResponse nva).ignores cat = false := by simp [ResponseImpl.ignores, first]
  rw [head_run app id endStream first, Trace.run_cons]
  simp only [ResponseImpl.step, taken, waits, Bool.false_eq_true, ↓reduceIte, List.nil_append]
  exact informational_run app id frames after _ waits deaf

end Client

namespace Link

def heardResponses (ends : Ends α) (link : Link) (id : Int) : List Client.ResponseImpl :=
  Client.responses ((link.clientLog ends).filter (fun o => o.receiver = some id))

def heardDownload (ends : Ends α) (link : Link) (id : Int) : List Bytes :=
  Client.heardData ((link.clientLog ends).filter (fun o => o.receiver = some id))

def ClientHasAll (link : Link) (id : Int) : Prop :=
  Channel.taken Client.Input.lane Client.Input.closing link.clientPast id = link.down id ∧
    ∀ i ∈ link.clientPast, i.lane = id → i.closing = false

end Link

section Client
variable {ends : Ends α} {link : Link} {id : Int} {β : Type} {note : Client.Output → Option β}

def opening (id : Int) (stored : RequestImpl) (promise : Option Promise) : List Client.Input :=
  match promise with
  | none => [.submit id stored]
  | some p => (promiseBlock id p).map .recv

theorem opening_run (app : Client.App) (id : Int) (stored : RequestImpl) (promise : Option Promise) :
    Trace.run (Client.ResponseImpl.step app) none (opening id stored promise) = (some .new, []) := by
  cases promise with
  | none => rfl
  | some p =>
    have idle : Trace.run (Client.ResponseImpl.step app) (some .new)
        (((wireFields p.nva).map (Event.header (.pushPromise p.parent id)) ++
          [Event.frameRecv (.pushPromise p.parent id)]).map .recv) = _ :=
      Trace.run_constant (fun _ => []) _ (fun i member => by
        simp only [List.map_append, List.map_map, List.mem_append, List.mem_map, List.map_cons,
          List.map_nil, List.mem_singleton] at member
        rcases member with ⟨f, _, rfl⟩ | rfl <;> rfl)
    simp only [opening, promiseBlock, headBlock, List.map_cons, Trace.run_cons]
    simp only [Client.ResponseImpl.step, Option.none_or, List.nil_append]
    rw [idle, List.flatMap_eq_nil_iff.mpr (fun _ _ => rfl)]

theorem down_shape {req : Option Request} {promise : Option Promise} {resp : Option Responding}
    {up : List Server.Input} {down : List Client.Input} (lane : Lane ends id req promise resp up down) :
    (down = [] ∧ ∀ r, resp = some r → r.sent = none) ∨
      ∃ stored sent tail, down = opening id stored sent ++ tail.map .recv ∧ Answered id resp tail := by
  cases lane with
  | unused => exact Or.inl ⟨rfl, by simp⟩
  | requested r resp frames tail made carried bare answer plain =>
    exact Or.inr ⟨r.stored, none, tail, rfl, answer⟩
  | promised p resp tail made gated answer isPushed sent =>
    cases out : p.sent with
    | false =>
      obtain ⟨nothing, unsent⟩ := gated out
      refine Or.inl ⟨by simp [nothing], fun r found => ?_⟩
      rw [← Option.some.inj found, unsent]
    | true => exact Or.inr ⟨p.stored, some p, tail, by simp [opening], answer⟩

theorem after_concerns {e : Event} (after : AfterHead id e) :
    (Client.Input.recv e).opens = false ∧
      ((Client.Input.recv e).concerns = some id ∨ (Client.Input.recv e).concerns = none) := by
  cases after with
  | chunk | dataEnd | field | trailerEnd => exact ⟨rfl, Or.inl rfl⟩
  | trailer => exact ⟨rfl, Or.inr rfl⟩

theorem answered_concerns {resp : Option Responding} {tail : List Event} (answer : Answered id resp tail) :
    ∀ e ∈ tail, (Client.Input.recv e).opens = false ∧
      ((Client.Input.recv e).concerns = some id ∨ (Client.Input.recv e).concerns = none) := by
  cases answer with
  | idle => simp
  | waiting => simp
  | started r s frames owed sent once carried bare =>
    intro e member
    simp only [answerBlock, headBlock, List.cons_append, List.append_assoc, List.nil_append,
      List.mem_cons, List.mem_append, List.mem_map] at member
    rcases member with rfl | ⟨f, _, rfl⟩ | rfl | later
    · exact ⟨rfl, Or.inr rfl⟩
    · exact ⟨rfl, Or.inl rfl⟩
    · exact ⟨rfl, Or.inl rfl⟩
    · exact after_concerns (carried.after e later).1

theorem opening_concerns (id : Int) (stored : RequestImpl) (promise : Option Promise) :
    ∃ first rest, opening id stored promise = first :: rest ∧ first.concerns = some id ∧
      ∀ i ∈ rest, i.opens = false ∧ (i.concerns = some id ∨ i.concerns = none) := by
  cases promise with
  | none => exact ⟨_, [], rfl, rfl, by simp⟩
  | some p =>
    refine ⟨_, _, rfl, rfl, fun i member => ?_⟩
    simp only [List.map_append, List.map_map, List.mem_append, List.mem_map, List.map_cons,
      List.map_nil, List.mem_singleton] at member
    rcases member with ⟨f, _, rfl⟩ | rfl <;> exact ⟨rfl, Or.inr rfl⟩

theorem down_concerns {req : Option Request} {promise : Option Promise} {resp : Option Responding}
    {up : List Server.Input} {down : List Client.Input} (lane : Lane ends id req promise resp up down) :
    (∀ i ∈ down, i.concerns = some id ∨ i.concerns = none) ∧
      ∀ i ∈ (down.filter (fun i => i.concerns = some id)).tail, i.opens = false := by
  rcases down_shape lane with ⟨nothing, _⟩ | ⟨stored, sent, tail, shape, answer⟩
  · simp [nothing]
  · obtain ⟨first, rest, opens, mine, others⟩ := opening_concerns id stored sent
    have later : ∀ i ∈ rest ++ tail.map Client.Input.recv,
        i.opens = false ∧ (i.concerns = some id ∨ i.concerns = none) := by
      intro i member
      rcases List.mem_append.mp member with early | late
      · exact others i early
      · obtain ⟨e, inside, rfl⟩ := List.mem_map.mp late
        exact answered_concerns answer e inside
    rw [shape, opens, List.cons_append]
    refine ⟨fun i member => ?_, fun i member => ?_⟩
    · rcases List.mem_cons.mp member with rfl | inside
      · exact Or.inl mine
      · exact (later i inside).2
    · rw [List.filter_cons_of_pos (by simpa using mine), List.tail_cons] at member
      exact (later i (List.mem_filter.mp member).1).1

theorem client_heard (good : Good ends link) (id : Int) (note : Client.Output → Option β) :
    ((link.clientLog ends).filter (fun o => o.receiver = some id)).filterMap note <+:
        Channel.notes note (Client.ResponseImpl.step ends.client) (link.down id) ∧
      (link.ClientHasAll id →
        ((link.clientLog ends).filter (fun o => o.receiver = some id)).filterMap note =
          Channel.notes note (Client.ResponseImpl.step ends.client) (link.down id)) := by
  obtain ⟨concerned, later⟩ := down_concerns (good.lanes id)
  have own := (Client.heard_own ends.client id link.clientPast).1
  have closes : Channel.Closes (Client.ResponseImpl.step ends.client) Client.Input.closing note
      ((link.down id).filter (fun i => i.concerns = some id)) := by
    refine ⟨fun s i closed => ?_, fun i member => Client.absent_step ends.client (later i member)⟩
    rw [response_closed ends.client s i closed]
    exact ⟨rfl, rfl⟩
  obtain ⟨front, all⟩ := Channel.notes_cut closes (by
    rw [concerning_taken]
    exact (good.clientOrder id).filter _)
  have skipped : Channel.notes note (Client.ResponseImpl.step ends.client)
      ((link.down id).filter (fun i => i.concerns = some id)) =
        Channel.notes note (Client.ResponseImpl.step ends.client) (link.down id) := by
    rw [Channel.notes, Trace.run_skip]
    · rfl
    · intro i member other s
      rcases concerned i member with mine | nobody
      · simp [mine] at other
      · exact Client.unconcerned_step ends.client s nobody
  have log : (link.clientLog ends).filter (fun o => o.receiver = some id) =
      (Trace.run (Client.ResponseImpl.step ends.client) none
        (link.clientPast.filter (fun i => i.concerns = some id))).2 := own
  rw [log, ← skipped]
  refine ⟨front, fun has => ?_⟩
  have running : ∀ i ∈ link.clientPast.filter (fun i => i.concerns = some id), i.closing = false := by
    intro i member
    obtain ⟨inside, mine⟩ := List.mem_filter.mp member
    exact has.2 i inside (lane_of_concerns (by simpa using mine))
  have whole := all running
  rw [concerning_taken, has.1] at whole
  exact whole

theorem receiveAll_onData (fields : List Field) :
    ∀ res : Client.ResponseImpl, (res.receiveAll fields).onData = res.onData := by
  induction fields with
  | nil =>
    intro res
    rfl
  | cons f rest ih =>
    intro res
    have kept : (res.receive f).1.onData = res.onData := by
      unfold Client.ResponseImpl.receive
      dsimp only
      split
      · rfl
      · split <;> rfl
    exact (ih (res.receive f).1).trans kept

theorem answered_notes (note : Client.Output → Option β) (good : Good ends link) (id : Int)
    (deaf : ∀ chunk, note (.data id chunk false) = none) :
    ((∀ r, link.responding id = some r → r.sent = none) →
      Channel.notes note (Client.ResponseImpl.step ends.client) (link.down id) = []) ∧
    ∀ r s, link.responding id = some r → r.sent = some s →
      ∃ frames, Carries id r.reads frames ∧ (s.provider = false → frames = []) ∧
        Server.Owed r.pushed r.calls ∧ Server.submissions r.effects = [s] ∧
        Channel.notes note (Client.ResponseImpl.step ends.client) (link.down id) =
          if (arrivedResponse s.nva).expectFinalResponse then []
          else (.response id (arrivedResponse s.nva) (ends.client.onResponse id) ::
            Client.dataCalls id (ends.client.onResponse id && ends.client.onData id (arrivedResponse s.nva))
              ((if !s.provider then [[]] else []) ++ frames.flatMap Event.given)).filterMap note := by
  rcases down_shape (good.lanes id) with ⟨nothing, unsent⟩ | ⟨stored, sentPromise, tail, shape, answer⟩
  · rw [nothing]
    refine ⟨fun _ => rfl, fun r s responds sent => ?_⟩
    rw [unsent r responds] at sent
    contradiction
  · have start : Channel.notes note (Client.ResponseImpl.step ends.client) (link.down id) =
        (Trace.run (Client.ResponseImpl.step ends.client) (some .new) (tail.map .recv)).2.filterMap note := by
      rw [shape, Channel.notes, Trace.run_append, opening_run, List.nil_append]
    rw [start]
    cases found : link.responding id with
    | none =>
      rw [found] at answer
      cases answer
      exact ⟨fun _ => rfl, by simp⟩
    | some r =>
      rw [found] at answer
      cases answer with
      | waiting _ _ unsent _ =>
        refine ⟨fun _ => rfl, fun x s responds sent => ?_⟩
        rw [← Option.some.inj responds, unsent] at sent
        contradiction
      | started _ s frames owed sent once carried bare =>
        refine ⟨fun unsent => ?_, fun x t responds given => ?_⟩
        · rw [unsent r rfl] at sent
          contradiction
        · rw [← Option.some.inj responds] at given ⊢
          rw [sent] at given
          rw [← Option.some.inj given]
          refine ⟨frames, carried, fun off => (bare off).2, owed, once, ?_⟩
          have first : answerCat r.pushed ≠ .headers := by
            unfold answerCat
            split <;> decide
          have silent : (arrivedResponse s.nva).onData = false := receiveAll_onData _ _
          cases waits : (arrivedResponse s.nva).expectFinalResponse with
          | true =>
            rw [if_pos rfl, List.filterMap_eq_nil_iff]
            intro o member
            obtain ⟨chunk, rfl⟩ := Client.informational_answer ends.client id (!s.provider) first s.nva
              carried.after waits silent o member
            exact deaf chunk
          | false =>
            rw [if_neg (by simp), answerBlock, Client.final_answer ends.client id (!s.provider) first s.nva
              (fun e member => (carried.after e member).1) waits, silent, Bool.false_or]

theorem started_head {r : Responding} {s : Server.Submission} (owed : Server.Owed r.pushed r.calls)
    (once : Server.submissions r.effects = [s]) :
    ∃ status header date, Server.firstHead r.calls = some (status, header) ∧
      s = Server.submission r.method status header date := by
  have reflects := Server.respond_reflects r.method r.pushed r.calls owed
  rw [Responding.effects] at once
  have due : Server.StartDue r.pushed r.calls := by
    by_contra early
    have nothing := reflects.early early
    rw [once] at nothing
    contradiction
  obtain ⟨date, one⟩ := reflects.due due
  rw [once] at one
  obtain ⟨⟨status, header⟩, first⟩ := Option.isSome_iff_exists.mp due.1
  have named := reflects.head
  rw [first, Option.getD_some, Prod.mk.injEq] at named
  refine ⟨status, header, date, first, ?_⟩
  rw [named.1, named.2] at one
  exact (List.cons.inj one).1

theorem response_heard (good : Good ends link) {r : Responding} {s : Server.Submission}
    (responds : link.responding id = some r) (given : r.sent = some s) :
    link.heardResponses ends id <+:
        (if (arrivedResponse s.nva).expectFinalResponse then [] else [arrivedResponse s.nva]) ∧
      (link.ClientHasAll id → link.heardResponses ends id =
        if (arrivedResponse s.nva).expectFinalResponse then [] else [arrivedResponse s.nva]) := by
  obtain ⟨front, all⟩ := client_heard good id Client.Output.responded
  obtain ⟨_, _, _, _, _, notes⟩ :=
    (answered_notes Client.Output.responded good id (fun _ => rfl)).2 r s responds given
  have body : ∀ heard chunks, (Client.dataCalls id heard chunks).filterMap Client.Output.responded = [] := by
    intro heard chunks
    simp [Client.dataCalls, Client.Output.responded, List.filterMap_map, Function.comp_def]
  rw [List.filterMap_cons, body] at notes
  rw [notes] at front all
  exact ⟨front, all⟩

/-- The response callback runs at most once, with the status and the header of the first
    head the server wrote; an informational status is never reported. -/
theorem response_arrives (reached : link.Reached ends) (id : Int) :
    (link.heardResponses ends id).length ≤ 1 ∧
    ((∀ r, link.responding id = some r → r.sent = none) → link.heardResponses ends id = []) ∧
    ∀ r s, link.responding id = some r → r.sent = some s →
      ∃ status header date, Server.firstHead r.calls = some (status, header) ∧
        s = Server.submission r.method status header date ∧
        (Plain header → ∃ res : Client.ResponseImpl, res.statusCode = status.toInt32.toInt ∧
          (res.store.header = Multimap.ofList ((lit "date", ⟨date, false⟩) :: header.entries) ↔
            headSize header date ≤ headerLimit) ∧
          (headSize header date ≤ headerLimit →
            res.contentLength = Client.lastLength (-1) (mapFields header) ∧
            ∀ name, res.store.header.values name =
              (if name = lit "date" then [⟨date, false⟩] else []) ++ header.values name) ∧
          link.heardResponses ends id <+: (if status.toInt32.toInt.tdiv 100 = 1 then [] else [res]) ∧
          (link.ClientHasAll id →
            link.heardResponses ends id = if status.toInt32.toInt.tdiv 100 = 1 then [] else [res])) := by
  have good := good_reached reached
  obtain ⟨unsent, sent⟩ := answered_notes Client.Output.responded good id (fun _ => rfl)
  have silent : (∀ r, link.responding id = some r → r.sent = none) → link.heardResponses ends id = [] := by
    intro waits
    have front := (client_heard good id Client.Output.responded).1
    rw [unsent waits] at front
    exact List.prefix_nil.mp front
  refine ⟨?_, silent, fun r s responds given => ?_⟩
  · by_cases waits : ∀ r, link.responding id = some r → r.sent = none
    · simp [silent waits]
    · push Not at waits
      obtain ⟨r, responds, out⟩ := waits
      obtain ⟨s, given⟩ := Option.ne_none_iff_exists'.mp out
      have front := (response_heard good responds given).1
      split at front
      · simp [List.prefix_nil.mp front]
      · exact front.length_le
  · obtain ⟨_, _, _, owed, once, _⟩ := sent r s responds given
    obtain ⟨front, all⟩ := response_heard good responds given
    obtain ⟨status, header, date, first, submitted⟩ := started_head owed once
    refine ⟨status, header, date, first, submitted, fun plain => ?_⟩
    obtain ⟨code, _, store, length⟩ := arrived_submission r.method status date plain
    rw [← submitted] at code store length
    have final : (arrivedResponse s.nva).expectFinalResponse = decide (status.toInt32.toInt.tdiv 100 = 1) := by
      rw [Client.ResponseImpl.expectFinalResponse, code]
    rw [final] at front all
    simp only [decide_eq_true_eq] at front all
    refine ⟨arrivedResponse s.nva, code, ?_, fun fits => ⟨length fits, fun name => ?_⟩, front, all⟩
    · have exact_ := addAll_exact_iff (dateField date :: mapFields header)
      rw [List.map_cons, mapFields_entry, headFields_size] at exact_
      rw [store]
      exact exact_
    · rw [store]
      exact arrived_values header date fits name

theorem unsent_unheard (good : Good ends link) {r : Responding} (responds : link.responding id = some r)
    (waits : r.sent = none) :
    link.heardResponses ends id = [] ∧ link.heardDownload ends id = [] := by
  have unsent : ∀ x, link.responding id = some x → x.sent = none := by
    intro x found
    obtain rfl := Option.some.inj (responds.symm.trans found)
    exact waits
  constructor
  · have front := (client_heard good id Client.Output.responded).1
    rw [(answered_notes Client.Output.responded good id (fun _ => rfl)).1 unsent] at front
    exact List.prefix_nil.mp front
  · have front := (client_heard good id Client.Output.heardData).1
    rw [(answered_notes Client.Output.heardData good id (fun _ => rfl)).1 unsent] at front
    exact List.prefix_nil.mp front

theorem download_heard (good : Good ends link) {r : Responding} (responds : link.responding id = some r) :
    (link.heardDownload ends id).flatten <+: payloads r.reads ∧
      ([] ∈ link.heardDownload ends id → (link.heardDownload ends id).flatten = payloads r.reads ∧
        ∃ s, r.sent = some s ∧ (s.provider = false ∨ r.reads.any (fun read => read.2.eof) = true)) := by
  obtain ⟨front, _⟩ := client_heard good id Client.Output.heardData
  obtain ⟨unsent, sent⟩ := answered_notes Client.Output.heardData good id (fun _ => rfl)
  change link.heardDownload ends id <+: _ at front
  cases given : r.sent with
  | none =>
    rw [unsent (fun x found => by rw [← Option.some.inj (responds.symm.trans found)]; exact given)] at front
    rw [List.prefix_nil.mp front]
    exact ⟨List.nil_prefix, by simp⟩
  | some s =>
    obtain ⟨frames, carried, bare, _, _, notes⟩ := sent r s responds given
    have body : ∀ heard chunks, (Client.dataCalls id heard chunks).filterMap Client.Output.heardData =
        if heard then chunks else [] := Client.heardData_dataCalls id
    rw [List.filterMap_cons, body] at notes
    rw [notes] at front
    have part : link.heardDownload ends id <+: if (!(arrivedResponse s.nva).expectFinalResponse &&
        (ends.client.onResponse id && ends.client.onData id (arrivedResponse s.nva))) then
          (if !s.provider then [[]] else []) ++ frames.flatMap Event.given else [] := by
      cases waits : (arrivedResponse s.nva).expectFinalResponse with
      | false =>
        rw [waits] at front
        exact front
      | true =>
        rw [waits] at front
        exact front
    obtain ⟨bytes, ends_⟩ := body_front carried (fun off => bare (by simpa using off)) part
    refine ⟨bytes, fun ended => ⟨(ends_ ended).1, s, rfl, (ends_ ended).2.imp_left (by simp)⟩⟩

/-- The reads made before `end` are all deferred, so those of its generator are all that
    counts. -/
theorem body_reads {r : Responding} {before after : List Server.Call} {c : Server.Call}
    {cb : Option Generator} (accepted : Server.Accepted r.method r.pushed r.calls before c after cb) :
    payloads r.reads = payloads (readAll cb (after.filterMap Server.Call.bufferSize)) ∧
      (r.reads.any (fun read => read.2.eof) = true →
        (readAll cb (after.filterMap Server.Call.bufferSize)).any (fun read => read.2.eof) = true) := by
  have quiet : ∀ before' c' after' cb', ¬ Server.Accepted r.method r.pushed before before' c' after' cb' :=
    fun _ _ _ _ inner => accepted.taken (Server.respond_settled inner).1
  have deferred := (Server.respond_waiting r.method r.pushed before quiet).2
  have split : r.reads = _ := (Server.respond_settled accepted).2.2
  constructor
  · have nothing : payloads (Server.readings (Server.respond r.method r.pushed before).2) = [] := by
      rw [payloads, List.flatMap_eq_nil_iff]
      intro read member
      rw [deferred read member]
      rfl
    rw [payloads] at nothing
    rw [split, payloads, List.flatMap_append, nothing, List.nil_append, payloads]
  · intro ended
    rw [split, List.any_append, Bool.or_eq_true] at ended
    refine ended.resolve_left (fun early => ?_)
    obtain ⟨read, member, eof⟩ := List.any_eq_true.mp early
    rw [deferred read member] at eof
    exact absurd eof (by decide)

theorem body_heard (good : Good ends link) {r : Responding} (responds : link.responding id = some r)
    {before after : List Server.Call} {c : Server.Call} {cb : Option Generator}
    (accepted : Server.Accepted r.method r.pushed r.calls before c after cb)
    {reads : List (Nat × ReadResult)}
    (made : readAll cb (after.filterMap Server.Call.bufferSize) = reads) :
    (link.heardDownload ends id).flatten <+: payloads reads ∧
      ([] ∈ link.heardDownload ends id → (link.heardDownload ends id).flatten = payloads reads ∧
        (reads.any (fun read => read.2.eof) = true ∨
          ∃ status header, Server.firstHead r.calls = some (status, header) ∧
            Server.expectBody r.method status = false)) := by
  obtain ⟨bytes, ends_⟩ := download_heard good responds
  obtain ⟨same, eof⟩ := body_reads accepted
  rw [made] at same eof
  rw [same] at bytes ends_
  refine ⟨bytes, fun ended => ?_⟩
  obtain ⟨all, s, given, reason⟩ := ends_ ended
  refine ⟨all, ?_⟩
  rcases reason with off | said
  · obtain ⟨_, _, _, owed, once, _⟩ := (answered_notes Client.Output.heardData good id (fun _ => rfl)).2 r s
      responds given
    obtain ⟨status, header, date, first, submitted⟩ := started_head owed once
    rw [submitted] at off
    exact Or.inr ⟨status, header, first, off⟩
  · exact Or.inl (eof said)

/-- The bytes of a response body come over in order, none lost and none twice, and the end
    is heard after the last one; of a body given as a string to `end` that is the string,
    unless the method or the status forbids a body. -/
theorem download_arrives (reached : link.Reached ends) {r : Responding}
    (responds : link.responding id = some r) :
    (link.heardDownload ends id).flatten <+: payloads r.reads ∧
      ([] ∈ link.heardDownload ends id → (link.heardDownload ends id).flatten = payloads r.reads) ∧
      ∀ before c after data,
        Server.Accepted r.method r.pushed r.calls before c after (some (stringGenerator data)) →
        (link.heardDownload ends id).flatten <+: data ∧
          ([] ∈ link.heardDownload ends id →
            (link.heardDownload ends id).flatten = data ∨
              ∃ status header, Server.firstHead r.calls = some (status, header) ∧
                Server.expectBody r.method status = false) := by
  have good := good_reached reached
  obtain ⟨bytes, ends_⟩ := download_heard good responds
  refine ⟨bytes, fun ended => (ends_ ended).1, fun before c after data accepted => ?_⟩
  obtain ⟨ordered, whole⟩ := payloads_string (stringGenerator_delivers data
    (after.filterMap Server.Call.bufferSize))
  obtain ⟨part, done⟩ := body_heard good responds accepted rfl
  refine ⟨part.trans ordered, fun ended => ?_⟩
  obtain ⟨all, said | off⟩ := done ended
  · exact Or.inl (all.trans (whole said))
  · exact Or.inr off

end Client

/-! A request for `/` with a body, answered with a string that comes in two pieces, while
    a second stream is promised. -/

def postEnds : Ends Unit where
  inetPton := fun _ => false
  client := ⟨fun _ => true, fun _ _ => true⟩
  server := ⟨(ServeMux.registerAll [⟨lit "/", some (.app ())⟩]).table, fun _ _ => ⟨true, true⟩⟩

def postActions : List Action :=
  .submit 1 (lit "POST") (lit "http://a/") Multimap.empty (some (stringGenerator (lit "in"))) ::
    .upload 1 9 [lit "in"] ::
    ((headBlock (.headers 1 false .request) [makeNvLs (lit ":method") (lit "POST"),
          makeNvLs (lit ":scheme") (lit "http"), makeNvLs (lit ":path") (lit "/"),
          makeNvLs (lit ":authority") (lit "a")] ++ dataFrame 1 true [lit "in"]).map .toServer ++
      .push 1 2 (lit "GET") (lit "/b?c") Multimap.empty ::
      .call 1 (.endString (lit "out") ⟨lit "now", true⟩) ::
      .download 1 9 [lit "o", lit "ut"] ::
      .promise 2 ⟨lit "now", true⟩ ::
      (headBlock (.headers 1 false .response) [makeNvLs (lit ":status") (lit "200"),
          makeNvLs (lit "date") (lit "now")] ++ dataFrame 1 true [lit "o", lit "ut"]).map .toClient)

def postLink : Option Link := postActions.foldlM (Link.step postEnds) Link.new

theorem postLink_some : ∃ link, postLink = some link ∧ link.Reached postEnds := by
  obtain ⟨link, ran⟩ := Option.isSome_iff_exists.mp (by decide +kernel : postLink.isSome = true)
  exact ⟨link, ran, postActions, ran⟩

theorem postLink_request {link : Link} (ran : postLink = some link) :
    ∃ r, link.requests 1 = some r ∧ r.method = lit "POST" ∧ r.uri = lit "http://a/" ∧
      NoWrap r.uri ∧ Plain r.header := by
  have known : (postLink.bind (fun link => link.requests 1)).map
      (fun r => (r.method, r.uri, r.header)) = some (lit "POST", lit "http://a/", Multimap.empty) := by
    decide +kernel
  rw [ran, Option.bind_some] at known
  obtain ⟨r, submitted, parts⟩ := Option.map_eq_some_iff.mp known
  simp only [Prod.mk.injEq] at parts
  obtain ⟨method, uri, header⟩ := parts
  refine ⟨r, submitted, method, uri, ?_, ?_⟩
  · rw [uri]
    exact ⟨⟨by decide +kernel, by decide +kernel, by decide +kernel⟩, by decide +kernel,
      by decide +kernel, by decide +kernel⟩
  · rw [header]
    decide +kernel

theorem request_arrives_post : ∃ (link : Link) (r : Request), link.Reached postEnds ∧ link.requests 1 = some r ∧
    r.method = lit "POST" ∧ ∃ req : RequestImpl, req.method = r.method ∧ req.uri = r.stored.uri ∧
      link.heardRequests postEnds 1 <+: [req] := by
  obtain ⟨link, ran, reached⟩ := postLink_some
  obtain ⟨r, submitted, method, _, fits, plain⟩ := postLink_request ran
  obtain ⟨req, named, _, target, _, front, _⟩ := (request_arrives reached 1).2.2 r submitted plain
  exact ⟨link, r, reached, submitted, method, req, named, target fits, front⟩

theorem upload_arrives_post : ∃ (link : Link) (r : Request), link.Reached postEnds ∧
    link.requests 1 = some r ∧ link.heardUpload postEnds 1 = [lit "in", []] ∧
    (link.heardUpload postEnds 1).flatten = payloads r.reads := by
  obtain ⟨link, ran, reached⟩ := postLink_some
  obtain ⟨r, submitted, _⟩ := postLink_request ran
  have heard : postLink.map (fun link => link.heardUpload postEnds 1) = some [lit "in", []] := by
    decide +kernel
  rw [ran] at heard
  have whole := (upload_arrives reached submitted).2.1
  rw [Option.map_some, Option.some.injEq] at heard
  exact ⟨link, r, reached, submitted, heard, (whole (by simp [heard])).1⟩

theorem response_arrives_post : ∃ (link : Link) (r : Responding) (s : Server.Submission) (status : UInt32)
    (header : HeaderMap), link.Reached postEnds ∧ link.responding 1 = some r ∧ r.sent = some s ∧
    Server.firstHead r.calls = some (status, header) ∧
    (Plain header → ∃ res : Client.ResponseImpl, res.statusCode = status.toInt32.toInt ∧
      link.heardResponses postEnds 1 <+: if status.toInt32.toInt.tdiv 100 = 1 then [] else [res]) := by
  obtain ⟨link, ran, reached⟩ := postLink_some
  have known : ((postLink.bind (fun link => link.responding 1)).bind Responding.sent).isSome = true := by
    decide +kernel
  rw [ran] at known
  obtain ⟨s, found⟩ := Option.isSome_iff_exists.mp known
  obtain ⟨r, responds, sent⟩ := Option.bind_eq_some_iff.mp found
  obtain ⟨status, header, date, first, _, arrives⟩ := (response_arrives reached 1).2.2 r s responds sent
  refine ⟨link, r, s, status, header, reached, responds, sent, first, fun plain => ?_⟩
  obtain ⟨res, code, _, _, front, _⟩ := arrives plain
  exact ⟨res, code, front⟩

theorem download_arrives_post : ∃ (link : Link) (r : Responding), link.Reached postEnds ∧
    link.responding 1 = some r ∧ link.heardDownload postEnds 1 = [lit "o", lit "ut", []] ∧
    (link.heardDownload postEnds 1).flatten = payloads r.reads := by
  obtain ⟨link, ran, reached⟩ := postLink_some
  have known : (postLink.bind (fun link => link.responding 1)).isSome = true := by decide +kernel
  have heard : postLink.map (fun link => link.heardDownload postEnds 1) =
      some [lit "o", lit "ut", []] := by decide +kernel
  rw [ran] at known heard
  obtain ⟨r, responds⟩ := Option.isSome_iff_exists.mp known
  have whole := (download_arrives reached responds).2.1
  rw [Option.map_some, Option.some.injEq] at heard
  exact ⟨link, r, reached, responds, heard, whole (by simp [heard])⟩

end Nghttp2Asio
