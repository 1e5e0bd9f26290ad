import Nghttp2Asio.RequestTarget
import Nghttp2Asio.ServerResponse
import Nghttp2Asio.ServerHandler
import Nghttp2Asio.ClientStream

/-!
The requests an endpoint makes itself: `session_impl::submit` of the client and
`http2_handler::push_promise` of the server. Both fill the header list for nghttp2 and
the request object of the new stream; `answer` is what nghttp2 returns, the new stream
id or a negative error.
-/
namespace Nghttp2Asio
open Util UrlParser
open PathJoin (queryPart)
open Server (headerNva)

abbrev InetPton := Bytes → Bool

/-- The authority as `submit` puts it together from what the parser found. -/
def submitHost (inetPton : InetPton) (u : HttpParserUrl) (uri : Bytes) : Bytes :=
  let host := copyUrlComponent u .host uri
  let host := if inetPton host then leftBracket :: (host ++ [rightBracket]) else host
  if u.fieldSet .port then host ++ colon :: utos u.port else host

def submitUri (inetPton : InetPton) (u : HttpParserUrl) (uri : Bytes) : UriRef :=
  let rawPath := copyUrlComponent u .path uri
  let rawPath := if rawPath = [] then [slash] else rawPath
  { UriRef.empty with
    scheme := copyUrlComponent u .schema uri
    host := submitHost inetPton u uri
    path := percentDecode rawPath
    rawPath := rawPath
    rawQuery := copyUrlComponent u .query uri }

def submitNva (method : Bytes) (u : HttpParserUrl) (uref : UriRef) (h : HeaderMap) : List Nv :=
  let path := if u.fieldSet .query then uref.rawPath ++ question :: uref.rawQuery else uref.rawPath
  [makeNvLs (lit ":method") method, makeNvLs (lit ":scheme") uref.scheme,
    makeNvLs (lit ":path") path, makeNvLs (lit ":authority") uref.host] ++ headerNva h

/-- The request object; its method is left as it was made. -/
def submitRequest (uref : UriRef) (h : HeaderMap) : RequestImpl := ⟨⟨h, 0⟩, [], uref⟩

namespace Client

def submit (inetPton : InetPton) (streams : Streams) (method uri : Bytes) (h : HeaderMap)
    (answer : Int) : Option (Streams × List Nv) := do
  let u ← httpParserParseUrl uri false
  if !u.fieldSet .schema || !u.fieldSet .host then none
  else if answer < 0 then none
  else
    let uref := submitUri inetPton u uri
    some (streams.insertIfNew answer (.new (submitRequest uref h)), submitNva method u uref h)

end Client

namespace Server

def pushNva (req : RequestImpl) (method rawPathQuery : Bytes) (h : HeaderMap) : List Nv :=
  [makeNvLs (lit ":method") method, makeNvLs (lit ":scheme") req.uri.scheme,
    makeNvLs (lit ":authority") req.uri.host, makeNvLs (lit ":path") rawPathQuery] ++ headerNva h

def promisedRequest (req : RequestImpl) (method rawPathQuery : Bytes) (h : HeaderMap) : RequestImpl :=
  let uref := { UriRef.empty with scheme := req.uri.scheme, host := req.uri.host }
  ⟨⟨h, 0⟩, method, splitPath uref rawPathQuery⟩

def pushPromise (streams : Streams) (req : RequestImpl) (method rawPathQuery : Bytes)
    (h : HeaderMap) (answer : Int) : Option (Streams × List Nv) :=
  if answer < 0 then none
  else
    let promised := promisedRequest req method rawPathQuery h
    some (streams.insertIfNew answer { Stream.new with request := promised },
      pushNva req method rawPathQuery h)

end Server

def fieldValue (nva : List Nv) (name : Bytes) : Option Bytes :=
  (nva.find? (fun nv => nv.name = name)).map Nv.value

structure Mirrors (req : RequestImpl) (h : HeaderMap) (nva : List Nv) : Prop where
  method : fieldValue nva (lit ":method") = some req.method
  scheme : fieldValue nva (lit ":scheme") = some req.uri.scheme
  authority : fieldValue nva (lit ":authority") = some req.uri.host
  path : fieldValue nva (lit ":path") = some (req.uri.rawPath ++ queryPart req.uri.rawQuery) ∨
    req.uri.rawQuery = [] ∧ fieldValue nva (lit ":path") = some (req.uri.rawPath ++ [question])
  decoded : req.uri.path = percentDecode req.uri.rawPath
  header : req.store.header = h
  fields : nva.drop 4 = headerNva h

theorem submitNva_fields (method : Bytes) (u : HttpParserUrl) (uref : UriRef) (h : HeaderMap) :
    fieldValue (submitNva method u uref h) (lit ":method") = some method ∧
      fieldValue (submitNva method u uref h) (lit ":scheme") = some uref.scheme ∧
      fieldValue (submitNva method u uref h) (lit ":authority") = some uref.host ∧
      fieldValue (submitNva method u uref h) (lit ":path") = some (if u.fieldSet .query then
        uref.rawPath ++ question :: uref.rawQuery else uref.rawPath) ∧
      (submitNva method u uref h).drop 4 = headerNva h := by
  have names : (lit ":method" ≠ lit ":scheme" ∧ lit ":method" ≠ lit ":path" ∧
      lit ":method" ≠ lit ":authority") ∧ (lit ":scheme" ≠ lit ":path" ∧
      lit ":scheme" ≠ lit ":authority") ∧ lit ":path" ≠ lit ":authority" := by decide
  obtain ⟨⟨ms, mp, ma⟩, ⟨sp, sa⟩, pa⟩ := names
  refine ⟨?_, ?_, ?_, ?_, rfl⟩ <;>
    simp [fieldValue, submitNva, makeNvLs, ms, mp, ma, sp, sa, pa]

theorem pushNva_fields (req : RequestImpl) (method rawPathQuery : Bytes) (h : HeaderMap) :
    fieldValue (Server.pushNva req method rawPathQuery h) (lit ":method") = some method ∧
      fieldValue (Server.pushNva req method rawPathQuery h) (lit ":scheme") = some req.uri.scheme ∧
      fieldValue (Server.pushNva req method rawPathQuery h) (lit ":authority") = some req.uri.host ∧
      fieldValue (Server.pushNva req method rawPathQuery h) (lit ":path") = some rawPathQuery ∧
      (Server.pushNva req method rawPathQuery h).drop 4 = headerNva h := by
  have names : (lit ":method" ≠ lit ":scheme" ∧ lit ":method" ≠ lit ":authority" ∧
      lit ":method" ≠ lit ":path") ∧ (lit ":scheme" ≠ lit ":authority" ∧
      lit ":scheme" ≠ lit ":path") ∧ lit ":authority" ≠ lit ":path" := by decide
  obtain ⟨⟨ms, ma, mp⟩, ⟨sa, sp⟩, ap⟩ := names
  refine ⟨?_, ?_, ?_, ?_, rfl⟩ <;>
    simp [fieldValue, Server.pushNva, makeNvLs, ms, mp, ma, sp, sa, ap]

theorem Client.submit_some {inetPton : InetPton} {streams next : Client.Streams} {method uri : Bytes}
    {h : HeaderMap} {answer : Int} {nva : List Nv}
    (submitted : Client.submit inetPton streams method uri h answer = some (next, nva)) :
    ∃ u, Accepts uri u ∧ nva = submitNva method u (submitUri inetPton u uri) h ∧
      next = streams.insertIfNew answer (.new (submitRequest (submitUri inetPton u uri) h)) := by
  unfold Client.submit at submitted
  obtain ⟨u, parsed, submitted⟩ := Option.bind_eq_some_iff.mp submitted
  split_ifs at submitted with missing
  obtain ⟨rfl, rfl⟩ := Prod.mk.inj (Option.some.inj submitted)
  refine ⟨u, ⟨parsed, ?_, ?_⟩, rfl, rfl⟩
  · simp_all
  · simp_all

/-- The request of a submitted stream mirrors the header list in everything but the
    method, which `submit` never stores. -/
theorem Client.submit_mirrors_iff {inetPton : InetPton} {streams next : Client.Streams}
    {method uri : Bytes} {h : HeaderMap} {answer : Int} {nva : List Nv}
    (fresh : Client.findStream streams answer = none)
    (submitted : Client.submit inetPton streams method uri h answer = some (next, nva)) :
    ∃ strm, Client.findStream next answer = some strm ∧
      (Mirrors strm.request h nva ↔ method = []) := by
  obtain ⟨u, _, rfl, rfl⟩ := Client.submit_some submitted
  refine ⟨.new (submitRequest (submitUri inetPton u uri) h), by simp [fresh], ?_⟩
  change Mirrors (submitRequest (submitUri inetPton u uri) h) h _ ↔ _
  have absent : u.fieldSet .query = false → (submitUri inetPton u uri).rawQuery = [] := by
    intro unset
    simp [submitUri, copyUrlComponent, unset]
  have decoded : (submitUri inetPton u uri).path = percentDecode (submitUri inetPton u uri).rawPath := rfl
  generalize submitUri inetPton u uri = uref at *
  obtain ⟨methodEq, schemeEq, authorityEq, pathEq, fields⟩ := submitNva_fields method u uref h
  constructor
  · intro mirrors
    have same := mirrors.method
    rw [methodEq] at same
    exact Option.some.inj same
  · rintro rfl
    refine ⟨methodEq, schemeEq, authorityEq, ?_, decoded, rfl, fields⟩
    rw [pathEq]
    cases query : u.fieldSet .query with
    | false => exact .inl (by simp [submitRequest, queryPart, absent query])
    | true =>
      by_cases empty : uref.rawQuery = []
      · exact .inr ⟨empty, by simp [submitRequest, empty]⟩
      · exact .inl (by simp [submitRequest, queryPart, empty])

theorem splitPath_text (dst : UriRef) (value : Bytes) :
    value = (splitPath dst value).rawPath ++ queryPart (splitPath dst value).rawQuery ∨
      (splitPath dst value).rawQuery = [] ∧ value = (splitPath dst value).rawPath ++ [question] := by
  have split := List.takeWhile_append_dropWhile (p := fun c => decide (c ≠ question)) (l := value)
  have mark := head_dropWhile (fun c => decide (c ≠ question)) value
  simp only [splitPath]
  generalize value.takeWhile (fun c => decide (c ≠ question)) = path at *
  cases rest : value.dropWhile (fun c => decide (c ≠ question)) with
  | nil =>
    rw [rest, List.append_nil] at split
    exact .inl (by simp [queryPart, split])
  | cons c query =>
    rw [rest] at split mark
    obtain rfl : c = question := by simpa using mark c rfl
    by_cases empty : query = []
    · rw [empty] at split
      exact .inr ⟨by simp [empty], split.symm⟩
    · exact .inl (by simp [queryPart, empty, split])

theorem Server.pushPromise_mirrors {streams next : Server.Streams} {req : RequestImpl}
    {method rawPathQuery : Bytes} {h : HeaderMap} {answer : Int} {nva : List Nv}
    (fresh : Server.findStream streams answer = none)
    (promised : Server.pushPromise streams req method rawPathQuery h answer = some (next, nva)) :
    ∃ strm, Server.findStream next answer = some strm ∧ Mirrors strm.request h nva := by
  unfold Server.pushPromise at promised
  split_ifs at promised
  obtain ⟨rfl, rfl⟩ := Prod.mk.inj (Option.some.inj promised)
  refine ⟨{ Stream.new with request := promisedRequest req method rawPathQuery h }, ?_, ?_⟩
  · rw [Server.findStream] at fresh ⊢
    rw [OrderedTable.get_emplace, if_pos rfl, fresh]
    rfl
  · obtain ⟨methodEq, schemeEq, authorityEq, pathEq, fields⟩ :=
      pushNva_fields req method rawPathQuery h
    refine ⟨methodEq, schemeEq, authorityEq, ?_, rfl, rfl, fields⟩
    rw [pathEq]
    exact (splitPath_text _ rawPathQuery).imp (congrArg some) (And.imp_right (congrArg some))

/-- A submitted request mirrors its header list exactly when the method is empty; a
    promised one always does. -/
theorem request_mirrors_wire {inetPton : InetPton} {streams next : Client.Streams}
    {method uri : Bytes} {h : HeaderMap} {answer : Int} {nva : List Nv}
    (fresh : Client.findStream streams answer = none)
    (submitted : Client.submit inetPton streams method uri h answer = some (next, nva))
    {handled promising : Server.Streams} {req : RequestImpl} {pushMethod rawPathQuery : Bytes}
    {pushed : HeaderMap} {promisedId : Int} {pushedNva : List Nv}
    (unused : Server.findStream handled promisedId = none)
    (promised : Server.pushPromise handled req pushMethod rawPathQuery pushed promisedId =
      some (promising, pushedNva)) :
    (∃ strm, Client.findStream next answer = some strm ∧
        (Mirrors strm.request h nva ↔ method = [])) ∧
      ∃ strm, Server.findStream promising promisedId = some strm ∧
        Mirrors strm.request pushed pushedNva :=
  ⟨Client.submit_mirrors_iff fresh submitted, Server.pushPromise_mirrors unused promised⟩

theorem submit_get_some : (Client.submit (fun _ => false) ∅ (lit "GET") (lit "http://a/")
    Multimap.empty 1).isSome = true := by
  decide +kernel

def pushBase : RequestImpl :=
  ⟨HeaderStore.empty, lit "GET", { UriRef.empty with scheme := lit "https", host := lit "a:8443" }⟩

def sensitiveHeader : HeaderMap := Multimap.empty.emplace (lit "cookie") ⟨lit "k=v", true⟩

theorem request_mirrors_wire_get : ∃ next nva promising pushedNva,
    Client.submit (fun _ => false) ∅ (lit "GET") (lit "http://a/") Multimap.empty 1 =
        some (next, nva) ∧
      Server.pushPromise ∅ pushBase (lit "GET") (lit "/b?c") sensitiveHeader 2 =
        some (promising, pushedNva) ∧
      (∃ strm, Client.findStream next 1 = some strm ∧
        (Mirrors strm.request Multimap.empty nva ↔ lit "GET" = [])) ∧
      ∃ strm, Server.findStream promising 2 = some strm ∧
        Mirrors strm.request sensitiveHeader pushedNva := by
  obtain ⟨⟨next, nva⟩, submitted⟩ := Option.isSome_iff_exists.mp submit_get_some
  exact ⟨next, nva, _, _, submitted, rfl, request_mirrors_wire (by simp [Client.findStream]) submitted
    (by simp [Server.findStream]) rfl⟩

theorem submit_loses_method : ∃ next nva strm,
    Client.submit (fun _ => false) ∅ (lit "GET") (lit "http://a/") Multimap.empty 1 =
        some (next, nva) ∧
      Client.findStream next 1 = some strm ∧ ¬ Mirrors strm.request Multimap.empty nva := by
  obtain ⟨⟨next, nva⟩, submitted⟩ := Option.isSome_iff_exists.mp submit_get_some
  obtain ⟨strm, found, mirrors⟩ := Client.submit_mirrors_iff (by simp [Client.findStream]) submitted
  refine ⟨next, nva, strm, submitted, found, ?_⟩
  rw [mirrors]
  decide

/-! The target of a submitted request. -/

/-- What is relied on of `inet_pton`: it accepts no brackets and no zone, and no text
    without a colon. -/
structure PtonSpec (inetPton : InetPton) : Prop where
  letters : ∀ a, inetPton a = true → ∀ c ∈ a, isV6Char c = true
  separated : ∀ a, inetPton a = true → colon ∈ a

/-- The pseudo headers denote the target of the URI. -/
structure SameTarget (uri : Bytes) (nva : List Nv) : Prop where
  path : fieldValue nva (lit ":path") =
    some ((if pathOf uri = [] then [slash] else pathOf uri) ++ queryPart (queryOf uri))
  again : ∃ scheme authority u, fieldValue nva (lit ":scheme") = some scheme ∧
    fieldValue nva (lit ":authority") = some authority ∧ Accepts (targetText scheme authority) u ∧
    copyUrlComponent u .schema (targetText scheme authority) = schemeOf uri ∧
    copyUrlComponent u .host (targetText scheme authority) = hostOf uri ∧
    (if u.fieldSet .port then some u.port else none) = portOf uri

/-- A host in brackets is an address `inet_pton` knows, or could stand without brackets. -/
def HostKept (inetPton : InetPton) (uri : Bytes) : Prop :=
  bracketed (hostPort uri) = true →
    inetPton (hostOf uri) = true ∨ ∀ c ∈ hostOf uri, isHostChar c = true

section Target
variable {inetPton : InetPton} {uri : Bytes} {u : HttpParserUrl}

theorem submitHost_eq (parsed : Parsed uri u) (fits : NoWrap uri) : submitHost inetPton u uri =
    authorityText (inetPton (hostOf uri)) (hostOf uri) (portOf uri) := by
  have port := (parsed.port fits.port).1
  unfold submitHost authorityText hostText
  rw [parsed.host, ← port]
  cases u.fieldSet .port <;> simp [portText]

theorem submit_path (parsed : Parsed uri u) (fits : NoWrap uri) (method : Bytes) (h : HeaderMap) :
    fieldValue (submitNva method u (submitUri inetPton u uri) h) (lit ":path") =
      some ((if pathOf uri = [] then [slash] else pathOf uri) ++ queryPart (queryOf uri)) := by
  obtain ⟨_, _, _, path, _⟩ := submitNva_fields method u (submitUri inetPton u uri) h
  rw [path, parsed.query_set]
  simp only [submitUri, parsed.path fits.path, parsed.query fits.query]
  by_cases empty : queryOf uri = [] <;> simp [empty, queryPart]

theorem hostText_le (b c : Bool) (host : Bytes) (implies : c = true → b = true) :
    (hostText c host).length ≤ (hostText b host).length := by
  cases c with
  | false => cases b <;> simp [hostText]; omega
  | true => rw [implies rfl]

theorem portText_le {port : Option Bytes}
    (digits : ∀ d, port = some d → d ≠ [] ∧ ∀ c ∈ d, isNum c = true) :
    (portText ((port.map portValue).map utos)).length ≤ (portText port).length := by
  cases port with
  | none => rfl
  | some d =>
    obtain ⟨nonempty, numeric⟩ := digits d rfl
    simpa [portText] using utos_length nonempty numeric

theorem hostPort_length (parsed : Parsed uri u) : (hostPort uri).length =
    (hostText (bracketed (hostPort uri)) (hostOf uri)).length +
      (portText (portIn (hostPort uri))).length := by
  have text : hostPort uri = hostText (bracketed (hostPort uri)) (hostOf uri) ++
    portText (portIn (hostPort uri)) := parsed.shape.text
  conv_lhs => rw [text]
  rw [List.length_append]

theorem hostPort_inside (uri : Bytes) :
    (hostPort uri).length + hostPortOff (authorityOf uri) = (authorityOf uri).length := by
  obtain ⟨before, after, split, _⟩ := placed_hostPort (authorityOf uri)
  have sizes := congrArg List.length split
  simp only [List.length_append] at sizes
  unfold hostPortOff hostPort
  omega

theorem authority_shorter (parsed : Parsed uri u) {c : Bool}
    (implies : c = true → bracketed (hostPort uri) = true) :
    (authorityText c (hostOf uri) (portOf uri)).length ≤ (hostPort uri).length := by
  have size := hostPort_length parsed
  have host := hostText_le (bracketed (hostPort uri)) c (hostOf uri) implies
  have port := portText_le parsed.shape.digits
  rw [authorityText, List.length_append, size]
  exact Nat.add_le_add host port

theorem host_server (parsed : Parsed uri u) : ∀ c ∈ hostOf uri, isServerChar c = true := by
  intro c member
  cases bracket : bracketed (hostPort uri) with
  | false => exact (name_letter (parsed.shape.name bracket c member)).2.2
  | true => exact (literal_letter (parsed.shape.literal bracket c member)).2.2

theorem some_authority (parsed : Parsed uri u) : authorityOf uri ≠ [] := by
  intro empty
  refine parsed.shape.nonempty ?_
  rw [hostPort, empty]
  rfl

theorem server_fits (parsed : Parsed uri u) (fits : NoWrap uri)
    {c : Bool} (implies : c = true → bracketed (hostPort uri) = true)
    (bracket : bracketed (authorityText c (hostOf uri) (portOf uri)) = c) :
    ServerFits (targetText (schemeOf uri) (authorityText c (hostOf uri) (portOf uri))) := by
  have shorter := authority_shorter parsed implies
  have inside := hostPort_inside uri
  obtain ⟨off, len⟩ := fits.authority (some_authority parsed)
  obtain ⟨host_off, _⟩ := fits.host parsed.shape.nonempty
  unfold hostOff hostPortStart authorityOff at host_off
  refine target_fits parsed.letters (authorityText_server c _ (host_server parsed))
    (fits.scheme parsed.named).2 (by omega) ?_
  rw [bracket]
  cases c with
  | false => exact off
  | true =>
    rw [if_pos (implies rfl)] at host_off
    rw [if_pos rfl]
    omega

theorem port_fits (parsed : Parsed uri u) (fits : NoWrap uri)
    {c : Bool} (implies : c = true → bracketed (hostPort uri) = true)
    (port : portIn (authorityText c (hostOf uri) (portOf uri)) = (portOf uri).map utos) :
    Fits (portOff (targetText (schemeOf uri) (authorityText c (hostOf uri) (portOf uri))))
      (portDigits (targetText (schemeOf uri) (authorityText c (hostOf uri) (portOf uri)))) := by
  have server := authorityText_server c (portOf uri) (host_server parsed)
  unfold portOff portDigits
  rw [hostPortStart_target parsed.letters server, hostPort_target parsed.letters server, port]
  have size := hostPort_length parsed
  have host := hostText_le (bracketed (hostPort uri)) c (hostOf uri) implies
  have port_fits := fits.port
  unfold portOff portDigits hostPortStart authorityOff at port_fits
  unfold portOf authorityText
  cases digits : portIn (hostPort uri) with
  | none => exact fun present => absurd rfl present
  | some d =>
    obtain ⟨nonempty, numeric⟩ := parsed.shape.digits d digits
    have canonical := utos_length nonempty numeric
    rw [digits] at port_fits size
    obtain ⟨off, len⟩ := port_fits nonempty
    intro _
    simp only [Option.getD_some, Option.map_some, portText, List.length_append,
      List.length_cons] at *
    omega

theorem plain_of_kept (pton : PtonSpec inetPton) (parsed : Parsed uri u)
    (kept : HostKept inetPton uri) : PlainHost (inetPton (hostOf uri)) (hostOf uri) := by
  refine ⟨parsed.shape.nonempty, fun c member => ?_⟩
  cases known : inetPton (hostOf uri) with
  | true => exact pton.letters _ known c member
  | false =>
    cases bracket : bracketed (hostPort uri) with
    | false => exact parsed.shape.name bracket c member
    | true => exact (kept bracket).resolve_left (by simp [known]) c member

theorem known_bracketed (pton : PtonSpec inetPton) (parsed : Parsed uri u)
    (known : inetPton (hostOf uri) = true) : bracketed (hostPort uri) = true := by
  by_contra name
  have letter := parsed.shape.name (by simpa using name) colon (pton.separated _ known)
  exact absurd letter (by decide)

theorem target_again (pton : PtonSpec inetPton) (parsed : Parsed uri u) (fits : NoWrap uri)
    (kept : HostKept inetPton uri) :
    ∃ v, Accepts (targetText (schemeOf uri) (submitHost inetPton u uri)) v ∧
      copyUrlComponent v .schema (targetText (schemeOf uri) (submitHost inetPton u uri)) =
        schemeOf uri ∧
      copyUrlComponent v .host (targetText (schemeOf uri) (submitHost inetPton u uri)) =
        hostOf uri ∧
      (if v.fieldSet .port then some v.port else none) = portOf uri := by
  rw [submitHost_eq parsed fits]
  have plain := plain_of_kept pton parsed kept
  have implies := known_bracketed pton parsed
  obtain ⟨bracket, host, port⟩ := plain_parts ((portOf uri).map utos) plain
  change bracketed (authorityText _ _ _) = _ at bracket
  change hostIn (authorityText _ _ _) = _ at host
  change portIn (authorityText _ _ _) = _ at port
  have server := authorityText_server (inetPton (hostOf uri)) (portOf uri) (host_server parsed)
  have again_fits := server_fits parsed fits implies bracket
  have again_port := port_fits parsed fits implies port
  obtain ⟨v, accepted⟩ := parse_target parsed.letters parsed.named plain
    (parsed.port fits.port).2 again_fits again_port
  have again := parse_spec accepted again_fits
  refine ⟨v, accepted, ?_, ?_, ?_⟩
  · rw [again.scheme, schemeOf_target parsed.letters]
  · rw [again.host, hostOf, hostPort_target parsed.letters server, host]
  · rw [(again.port again_port).1, portOf, hostPort_target parsed.letters server, port]
    cases portOf uri with
    | none => rfl
    | some n => simp [(utos_spec n).1]

theorem kept_of_again (parsed : Parsed uri u) (fits : NoWrap uri)
    {v : HttpParserUrl} (accepted : Accepts (targetText (schemeOf uri) (submitHost inetPton u uri)) v)
    (host : copyUrlComponent v .host (targetText (schemeOf uri) (submitHost inetPton u uri)) =
      hostOf uri) : HostKept inetPton uri := by
  rw [submitHost_eq parsed fits] at accepted host
  intro bracket
  by_cases known : inetPton (hostOf uri) = true
  · exact .inl known
  · right
    simp only [Bool.not_eq_true] at known
    rw [known] at accepted host
    have server := authorityText_server false (portOf uri) (host_server parsed)
    have bare : bracketed (authorityText false (hostOf uri) (portOf uri)) = false := by
      obtain ⟨c, rest, split⟩ := List.exists_cons_of_ne_nil parsed.shape.nonempty
      have letter := parsed.shape.literal bracket c (by rw [split]; simp)
      change hostOf uri = c :: rest at split
      simpa [authorityText, hostText, bracketed, split] using (literal_letter letter).1
    have again := parse_spec accepted (server_fits parsed fits (by simp) bare)
    have shape := again.shape
    rw [hostPort_target parsed.letters server] at shape
    rw [again.host, hostOf, hostPort_target parsed.letters server] at host
    rw [← host]
    exact shape.name bare

theorem split_at_mark {c : UInt8} {p q p' q' : Bytes} (first : c ∉ p) (short : p'.length ≤ p.length)
    (same : p' ++ c :: q' = p ++ c :: q) : p' = p ∧ q' = q := by
  have equal : p' = p := by
    rcases List.append_eq_append_iff.mp same with ⟨a, longer, rest⟩ | ⟨a, longer, _⟩
    · cases a with
      | nil => simpa using longer.symm
      | cons d a =>
        obtain ⟨rfl, _⟩ := List.cons.inj rest
        exact absurd (by simp [longer]) first
    · have sizes := congrArg List.length longer
      rw [List.length_append] at sizes
      obtain rfl : a = [] := List.length_eq_zero_iff.mp (by omega)
      simpa using longer
  rw [equal] at same
  simpa [equal] using same

theorem pathOf_unmarked (uri : Bytes) : question ∉ pathOf uri := by
  intro member
  have inside := List.mem_takeWhile_imp member
  exact absurd inside (by decide)

/-- The copied path and query are no longer than what they are copied from, so `:path` is
    right only when each of them was copied whole. -/
theorem path_copied (accepted : Accepts uri u) {method : Bytes} {h : HeaderMap}
    (path : fieldValue (submitNva method u (submitUri inetPton u uri) h) (lit ":path") =
      some ((if pathOf uri = [] then [slash] else pathOf uri) ++ queryPart (queryOf uri))) :
    (pathOf uri).length < 2 ^ 16 ∧ (queryOf uri).length < 2 ^ 16 := by
  obtain ⟨_, path_found, query_found⟩ := accepts_found accepted
  have path_short := copy_length path_found uri
  have query_short := copy_length query_found uri
  have wrapped : ∀ n, uint16 n ≤ n ∧ uint16 n < 2 ^ 16 :=
    fun n => ⟨Nat.mod_le _ _, Nat.mod_lt _ (by omega)⟩
  obtain ⟨path_le, path_lt⟩ := wrapped (pathOf uri).length
  obtain ⟨_, query_lt⟩ := wrapped (queryOf uri).length
  obtain ⟨_, _, _, written, _⟩ := submitNva_fields method u (submitUri inetPton u uri) h
  rw [written, query_found.1] at path
  simp only [submitUri] at path
  generalize copyUrlComponent u .path uri = copied at *
  generalize copyUrlComponent u .query uri = queried at *
  have unmarked : question ∉ (if pathOf uri = [] then [slash] else pathOf uri) := by
    split
    · decide
    · exact pathOf_unmarked uri
  have shorter : (if copied = [] then [slash] else copied).length ≤
      (if pathOf uri = [] then [slash] else pathOf uri).length := by
    by_cases empty : pathOf uri = []
    · have none : copied = [] := by simpa [empty, uint16] using path_short
      rw [if_pos empty, if_pos none]
    · have size : 0 < (pathOf uri).length := List.length_pos_iff.mpr empty
      rw [if_neg empty]
      split
      · rw [List.length_singleton]
        omega
      · omega
  have whole : (if copied = [] then [slash] else copied) =
      (if pathOf uri = [] then [slash] else pathOf uri) → (pathOf uri).length < 2 ^ 16 := by
    intro same
    have sizes := congrArg List.length same
    have bound : (if copied = [] then [slash] else copied).length < 2 ^ 16 := by
      split
      · simp
      · omega
    by_cases empty : pathOf uri = []
    · simp [empty]
    · rw [if_neg empty] at sizes
      omega
  by_cases query : queryOf uri = []
  · simp only [query, queryPart, ne_eq, not_true_eq_false, decide_false, Bool.false_eq_true,
      ↓reduceIte, List.append_nil, Option.some.injEq] at path
    exact ⟨whole path, by simp [query]⟩
  · simp only [query, queryPart, ne_eq, not_false_eq_true, decide_true, ↓reduceIte,
      Option.some.injEq] at path
    obtain ⟨same, rfl⟩ := split_at_mark unmarked shorter path
    exact ⟨whole same, by omega⟩

theorem scheme_copied {scheme authority : Bytes} {v : HttpParserUrl}
    (accepted : Accepts (targetText scheme authority) v)
    (same : copyUrlComponent v .schema (targetText scheme authority) = schemeOf uri) :
    (schemeOf uri).length < 2 ^ 16 := by
  have short := copy_length (accepts_found accepted).1 (targetText scheme authority)
  rw [same] at short
  exact Nat.lt_of_le_of_lt short (Nat.mod_lt _ (by omega))

theorem kept_of_target (accepted : Accepts uri u) (fits : NoWrap uri) {method : Bytes}
    {h : HeaderMap} (target : SameTarget uri (submitNva method u (submitUri inetPton u uri) h)) :
    HostKept inetPton uri := by
  obtain ⟨_, schemeEq, authorityEq, _, _⟩ :=
    submitNva_fields method u (submitUri inetPton u uri) h
  obtain ⟨scheme, authority, v, is_scheme, is_authority, again, _, host, _⟩ := target.again
  have parsed := parse_spec accepted fits.toServerFits
  obtain rfl : schemeOf uri = scheme := by
    rw [← parsed.scheme]
    exact Option.some.inj (schemeEq.symm.trans is_scheme)
  obtain rfl : submitHost inetPton u uri = authority :=
    Option.some.inj (authorityEq.symm.trans is_authority)
  exact kept_of_again parsed fits again host

theorem target_of_kept (pton : PtonSpec inetPton) (accepted : Accepts uri u) (fits : NoWrap uri)
    (kept : HostKept inetPton uri) (method : Bytes) (h : HeaderMap) :
    SameTarget uri (submitNva method u (submitUri inetPton u uri) h) := by
  obtain ⟨_, schemeEq, authorityEq, _, _⟩ :=
    submitNva_fields method u (submitUri inetPton u uri) h
  have parsed := parse_spec accepted fits.toServerFits
  obtain ⟨v, again, same⟩ := target_again pton parsed fits kept
  refine ⟨submit_path parsed fits method h, schemeOf uri, submitHost inetPton u uri, v, ?_,
    authorityEq, again, same⟩
  rw [schemeEq]
  exact congrArg some parsed.scheme

end Target

/-- Where no offset or length wraps around, the pseudo headers denote the target of the URI
    exactly when its host is kept; and they never do for a scheme, path or query of 2^16
    bytes or more. -/
theorem submit_same_target {inetPton : InetPton} (pton : PtonSpec inetPton)
    {streams next : Client.Streams} {method uri : Bytes} {h : HeaderMap} {answer : Int}
    {nva : List Nv}
    (submitted : Client.submit inetPton streams method uri h answer = some (next, nva)) :
    (NoWrap uri → (SameTarget uri nva ↔ HostKept inetPton uri)) ∧
      (SameTarget uri nva → (schemeOf uri).length < 2 ^ 16 ∧ (pathOf uri).length < 2 ^ 16 ∧
        (queryOf uri).length < 2 ^ 16) := by
  obtain ⟨u, accepted, rfl, _⟩ := Client.submit_some submitted
  refine ⟨fun fits => ⟨kept_of_target accepted fits,
    fun kept => target_of_kept pton accepted fits kept method h⟩, fun target => ?_⟩
  obtain ⟨scheme, authority, v, _, _, again, same, _⟩ := target.again
  exact ⟨scheme_copied again same, path_copied accepted target.path⟩

def loopbackOnly : InetPton := fun a => a = lit "::1"

theorem loopbackOnly_spec : PtonSpec loopbackOnly := by
  constructor
  · intro a known
    obtain rfl : a = lit "::1" := by simpa [loopbackOnly] using known
    decide +kernel
  · intro a known
    obtain rfl : a = lit "::1" := by simpa [loopbackOnly] using known
    decide +kernel

theorem submit_same_target_loopback : ∃ next nva,
    Client.submit loopbackOnly ∅ (lit "GET") (lit "http://[::1]:080/a?b") Multimap.empty 1 =
        some (next, nva) ∧ SameTarget (lit "http://[::1]:080/a?b") nva := by
  obtain ⟨⟨next, nva⟩, submitted⟩ : ∃ r, Client.submit loopbackOnly ∅ (lit "GET")
      (lit "http://[::1]:080/a?b") Multimap.empty 1 = some r :=
    Option.isSome_iff_exists.mp (by decide +kernel)
  have fits : NoWrap (lit "http://[::1]:080/a?b") :=
    ⟨⟨by decide +kernel, by decide +kernel, by decide +kernel⟩, by decide +kernel,
      by decide +kernel, by decide +kernel⟩
  have kept : HostKept loopbackOnly (lit "http://[::1]:080/a?b") := fun _ => .inl (by decide +kernel)
  exact ⟨next, nva, submitted, ((submit_same_target loopbackOnly_spec submitted).1 fits).mpr kept⟩

theorem zone_loses_brackets : ∃ next nva,
    Client.submit loopbackOnly ∅ (lit "GET") (lit "http://[fe80::1%25en0]/") Multimap.empty 1 =
        some (next, nva) ∧ ¬ SameTarget (lit "http://[fe80::1%25en0]/") nva := by
  obtain ⟨⟨next, nva⟩, submitted⟩ : ∃ r, Client.submit loopbackOnly ∅ (lit "GET")
      (lit "http://[fe80::1%25en0]/") Multimap.empty 1 = some r :=
    Option.isSome_iff_exists.mp (by decide +kernel)
  refine ⟨next, nva, submitted, ?_⟩
  obtain ⟨u, accepted, rfl, _⟩ := Client.submit_some submitted
  have fits : NoWrap (lit "http://[fe80::1%25en0]/") :=
    ⟨⟨by decide +kernel, by decide +kernel, by decide +kernel⟩, by decide +kernel,
      by decide +kernel, by decide +kernel⟩
  intro target
  have kept := kept_of_target accepted fits target
  rcases kept (by decide +kernel) with known | letters
  · exact absurd known (by decide +kernel)
  · exact absurd letters (by decide +kernel)

end Nghttp2Asio
