import Nghttp2Asio.Library.Multimap
import Nghttp2Asio.Util

/-!
Header fields, URIs and the header budget shared by the server and the client
(asio_http2.h, asio_common.h and the token table of http2.cc).
-/
namespace Nghttp2Asio
open Util

structure HeaderValue where
  value : Bytes
  sensitive : Bool
  deriving DecidableEq, Repr

abbrev HeaderMap := Multimap.Map Bytes HeaderValue

structure UriRef where
  scheme : Bytes
  host : Bytes
  path : Bytes
  rawPath : Bytes
  rawQuery : Bytes
  fragment : Bytes
  deriving DecidableEq, Repr

def UriRef.empty : UriRef := ⟨[], [], [], [], [], []⟩

def splitPath (dst : UriRef) (value : Bytes) : UriRef :=
  let rawPath := value.takeWhile (· ≠ question)
  { dst with
    path := percentDecode rawPath
    rawPath := rawPath
    rawQuery := (value.dropWhile (· ≠ question)).drop 1 }

inductive Token where
  | authority | pseudoHost | method | path | protocol | scheme | status | acceptEncoding
  | acceptLanguage | altSvc | cacheControl | connection | contentLength | contentType | cookie
  | date | earlyData | expect | forwarded | host | http2Settings | ifModifiedSince | keepAlive
  | link | location | proxyConnection | secWebsocketAccept | secWebsocketKey | server | te
  | trailer | transferEncoding | upgrade | userAgent | via | xForwardedFor | xForwardedProto
  deriving DecidableEq, Repr

/-- The generated switch over length, last byte and remaining bytes accepts exactly
    these names. -/
def tokens : List (Bytes × Token) :=
  [(lit ":authority", .authority), (lit ":host", .pseudoHost), (lit ":method", .method),
   (lit ":path", .path), (lit ":protocol", .protocol), (lit ":scheme", .scheme),
   (lit ":status", .status), (lit "accept-encoding", .acceptEncoding),
   (lit "accept-language", .acceptLanguage), (lit "alt-svc", .altSvc),
   (lit "cache-control", .cacheControl), (lit "connection", .connection),
   (lit "content-length", .contentLength), (lit "content-type", .contentType),
   (lit "cookie", .cookie), (lit "date", .date), (lit "early-data", .earlyData),
   (lit "expect", .expect), (lit "forwarded", .forwarded), (lit "host", .host),
   (lit "http2-settings", .http2Settings), (lit "if-modified-since", .ifModifiedSince),
   (lit "keep-alive", .keepAlive), (lit "link", .link), (lit "location", .location),
   (lit "proxy-connection", .proxyConnection),
   (lit "sec-websocket-accept", .secWebsocketAccept),
   (lit "sec-websocket-key", .secWebsocketKey), (lit "server", .server), (lit "te", .te),
   (lit "trailer", .trailer), (lit "transfer-encoding", .transferEncoding),
   (lit "upgrade", .upgrade), (lit "user-agent", .userAgent), (lit "via", .via),
   (lit "x-forwarded-for", .xForwardedFor), (lit "x-forwarded-proto", .xForwardedProto)]

def lookupToken (name : Bytes) : Option Token := tokens.lookup name

/-- One field as nghttp2 hands it to `on_header_callback`; `noIndex` is the
    NGHTTP2_NV_FLAG_NO_INDEX bit of its flags. -/
structure Field where
  name : Bytes
  value : Bytes
  noIndex : Bool
  deriving DecidableEq, Repr

def Field.size (f : Field) : Nat := f.name.length + f.value.length

def Field.entry (f : Field) : Bytes × HeaderValue := (f.name, ⟨f.value, f.noIndex⟩)

def headerLimit : Nat := 65536

structure HeaderStore where
  header : HeaderMap
  headerBufferSize : Nat
  deriving DecidableEq

def HeaderStore.empty : HeaderStore := ⟨Multimap.empty, 0⟩

/-- The budget check and the `emplace` after it; `none` is the branch that submits
    RST_STREAM and stores nothing. -/
def HeaderStore.add (s : HeaderStore) (f : Field) : Option HeaderStore :=
  if s.headerBufferSize + f.size > headerLimit then none
  else some ⟨s.header.emplace f.entry.1 f.entry.2, s.headerBufferSize + f.size⟩

structure Nv where
  name : Bytes
  value : Bytes
  noIndex : Bool
  deriving DecidableEq, Repr

def makeNv (name : Bytes) (v : HeaderValue) : Nv := ⟨name, v.value, v.sensitive⟩

def makeNvLs (name value : Bytes) : Nv := ⟨name, value, false⟩

def expectResponseBodyOf (statusCode : Int) : Bool :=
  statusCode = 101 || (statusCode.tdiv 100 ≠ 1 && statusCode ≠ 304 && statusCode ≠ 204)

def expectResponseBody (method : Bytes) (statusCode : Int) : Bool :=
  method ≠ lit "HEAD" && expectResponseBodyOf statusCode

structure RequestImpl where
  store : HeaderStore
  method : Bytes
  uri : UriRef
  deriving DecidableEq

def RequestImpl.empty : RequestImpl := ⟨.empty, [], .empty⟩

/-- A field that is no pseudo header goes to the store; the flag tells that the budget is
    spent and the caller has to reset a stream. -/
def RequestImpl.storeField (req : RequestImpl) (f : Field) : RequestImpl × Bool :=
  match req.store.add f with
  | some store => ({ req with store := store }, false)
  | none => (req, true)

/-- The switch over the field's token, the same for a request on the server and for a
    pushed request on the client. `host` falls through to the fields that are stored. -/
def RequestImpl.receive (req : RequestImpl) (f : Field) : RequestImpl × Bool :=
  match lookupToken f.name with
  | some .method => ({ req with method := f.value }, false)
  | some .scheme => ({ req with uri := { req.uri with scheme := f.value } }, false)
  | some .authority => ({ req with uri := { req.uri with host := f.value } }, false)
  | some .path => ({ req with uri := splitPath req.uri f.value }, false)
  | some .host =>
    if req.uri.host = [] then
      storeField { req with uri := { req.uri with host := f.value } } f
    else storeField req f
  | _ => storeField req f

inductive HeadersCategory where
  | request | response | pushResponse | headers
  deriving DecidableEq, Repr

/-- A frame as the callbacks of nghttp2 show it; `endStream` is the END_STREAM flag. -/
inductive Frame where
  | data (streamId : Int) (endStream : Bool)
  | headers (streamId : Int) (endStream : Bool) (cat : HeadersCategory)
  | pushPromise (streamId : Int) (promisedStreamId : Int)
  | other (type : UInt8) (streamId : Int)
  deriving DecidableEq, Repr

def Frame.streamId : Frame → Int
  | .data id _ | .headers id _ _ | .pushPromise id _ | .other _ id => id

inductive Event where
  | beginHeaders (frame : Frame)
  | header (frame : Frame) (field : Field)
  | frameRecv (frame : Frame)
  | dataChunk (streamId : Int) (data : Bytes)
  | streamClose (streamId : Int) (errorCode : UInt32)
  deriving DecidableEq, Repr

def Event.streamId : Event → Int
  | .beginHeaders frame | .header frame _ | .frameRecv frame => frame.streamId
  | .dataChunk id _ | .streamClose id _ => id

def internalError : UInt32 := 2

/-! The header budget. -/

def HeaderStore.addAll (s : HeaderStore) (fields : List Field) : HeaderStore :=
  fields.foldl (fun s f => (s.add f).getD s) s

def fieldsSize (fields : List Field) : Nat := (fields.map Field.size).sum

def entriesSize (entries : List (Bytes × HeaderValue)) : Nat :=
  (entries.map (fun e => e.1.length + e.2.value.length)).sum

structure HeaderStore.Balanced (s : HeaderStore) : Prop where
  counted : s.headerBufferSize = entriesSize s.header.entries
  within : s.headerBufferSize ≤ headerLimit

theorem balanced_empty : HeaderStore.empty.Balanced := ⟨rfl, Nat.zero_le _⟩

theorem balanced_add {s t : HeaderStore} {f : Field} (balanced : s.Balanced)
    (added : s.add f = some t) : t.Balanced := by
  unfold HeaderStore.add at added
  split at added
  · contradiction
  · rename_i fits
    injection added with result
    rw [← result]
    constructor
    · have perm := (Multimap.emplace_perm s.header f.entry.1 f.entry.2).map
        (fun e => e.1.length + e.2.value.length)
      have size : f.size = f.entry.1.length + f.entry.2.value.length := rfl
      simp only [entriesSize, perm.sum_nat, List.map_cons, List.sum_cons, size]
      rw [balanced.counted, entriesSize]
      omega
    · simp only
      omega

theorem balanced_addAll {s : HeaderStore} (balanced : s.Balanced) (fields : List Field) :
    (s.addAll fields).Balanced := by
  induction fields generalizing s with
  | nil => exact balanced
  | cons f rest ih =>
    apply ih
    dsimp only
    cases added : s.add f with
    | none => exact balanced
    | some t => exact balanced_add balanced added

theorem addAll_fits (fields : List Field) (s : HeaderStore)
    (fits : s.headerBufferSize + fieldsSize fields ≤ headerLimit) :
    s.addAll fields = ⟨(fields.map Field.entry).foldl (fun m e => m.emplace e.1 e.2) s.header,
      s.headerBufferSize + fieldsSize fields⟩ := by
  induction fields generalizing s with
  | nil => rfl
  | cons f rest ih =>
    rw [fieldsSize, List.map_cons, List.sum_cons] at fits
    have room : ¬ s.headerBufferSize + f.size > headerLimit := by omega
    have tail := ih ⟨s.header.emplace f.entry.1 f.entry.2, s.headerBufferSize + f.size⟩
      (by simp only [fieldsSize]; omega)
    rw [HeaderStore.addAll, List.foldl_cons, HeaderStore.add, if_neg room, Option.getD_some]
    rw [HeaderStore.addAll] at tail
    rw [tail]
    simp only [List.map_cons, List.foldl_cons, fieldsSize, List.sum_cons]
    congr 1
    omega

theorem addAll_exact_iff (fields : List Field) :
    (HeaderStore.empty.addAll fields).header = Multimap.ofList (fields.map Field.entry) ↔
      fieldsSize fields ≤ headerLimit := by
  constructor
  · intro exact_
    have balanced := balanced_addAll balanced_empty fields
    have within := balanced.within
    have perm := (Multimap.ofList_perm (fields.map Field.entry)).map
      (fun e => e.1.length + e.2.value.length)
    rw [balanced.counted, exact_, entriesSize, perm.sum_nat, List.map_map] at within
    exact within
  · intro fits
    rw [addAll_fits fields .empty (by simpa [HeaderStore.empty] using fits)]
    rfl

end Nghttp2Asio
