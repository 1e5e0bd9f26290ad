import Nghttp2Asio.Decimal
import Nghttp2Asio.EndOfBody
import Nghttp2Asio.Submit

/-!
Heads across the wire. What one end puts into the header list of a request, of a
promised request or of a response reaches the callbacks of the other end field by field
(asio_server_http2_handler.cc, asio_client_session_impl.cc). The object made there is
compared with the one the sender keeps.
-/
namespace Nghttp2Asio
open Util UrlParser

def Nv.field (nv : Nv) : Field := ⟨nv.name, nv.value, nv.noIndex⟩

/-- nghttp2 hands over the fields in the order of the header list. -/
def wireFields (nva : List Nv) : List Field := nva.map Nv.field

def Plain (h : HeaderMap) : Prop := ∀ e ∈ h.entries, e.1.head? ≠ some Client.colon

instance (h : HeaderMap) : Decidable (Plain h) :=
  inferInstanceAs (Decidable (∀ e ∈ h.entries, e.1.head? ≠ some Client.colon))

def mapFields (h : HeaderMap) : List Field := wireFields (Server.headerNva h)

theorem mapFields_entry (h : HeaderMap) : (mapFields h).map Field.entry = h.entries := by
  simp [mapFields, wireFields, Server.headerNva, makeNv, Nv.field, Field.entry, Function.comp_def]

theorem mapFields_size (h : HeaderMap) : fieldsSize (mapFields h) = entriesSize h.entries := by
  simp [mapFields, wireFields, Server.headerNva, makeNv, Nv.field, Field.size, fieldsSize,
    entriesSize, Function.comp_def]

theorem mapFields_regular {h : HeaderMap} (plain : Plain h) :
    ∀ f ∈ mapFields h, Client.Regular f := by
  intro f member
  simp only [mapFields, wireFields, Server.headerNva, List.map_map, List.mem_map,
    Function.comp_apply] at member
  obtain ⟨e, inside, rfl⟩ := member
  exact plain e inside

/-! Fields of a request. -/

/-- The host that regular fields name: the first one that is not empty. -/
def hostNamed (fields : List Field) : Bytes :=
  (((fields.filter (fun f => lookupToken f.name = some .host)).map Field.value).find? (· ≠ [])).getD []

theorem regular_pseudo {f : Field} (regular : Client.Regular f) {t : Token}
    (found : lookupToken f.name = some t) : t ∉ [.method, .scheme, .authority, .path] := by
  intro member
  obtain ⟨front, back, split, _⟩ := List.lookup_eq_some_iff.mp found
  have inside : (f.name, t) ∈ tokens := by simp [split]
  have pseudo : ∀ entry ∈ tokens, entry.2 ∈ [.method, .scheme, .authority, .path] →
      entry.1.head? = some Client.colon := by decide
  exact regular (pseudo _ inside member)

theorem storeField_eq (req : RequestImpl) (f : Field) :
    (req.storeField f).1 = { req with store := (req.store.add f).getD req.store } := by
  unfold RequestImpl.storeField
  cases req.store.add f <;> rfl

theorem receive_regular {f : Field} (regular : Client.Regular f) (req : RequestImpl) :
    (req.receive f).1 = ⟨(req.store.add f).getD req.store, req.method, { req.uri with
      host := if lookupToken f.name = some .host ∧ req.uri.host = [] then f.value
        else req.uri.host }⟩ := by
  unfold RequestImpl.receive
  split
  · rename_i found
    exact absurd (by simp) (regular_pseudo regular found)
  · rename_i found
    exact absurd (by simp) (regular_pseudo regular found)
  · rename_i found
    exact absurd (by simp) (regular_pseudo regular found)
  · rename_i found
    exact absurd (by simp) (regular_pseudo regular found)
  · rename_i found
    split
    · rename_i unknown
      rw [storeField_eq, if_pos ⟨found, unknown⟩]
    · rename_i known
      rw [storeField_eq, if_neg (fun both => known both.2)]
  · rename_i other
    rw [storeField_eq, if_neg (fun both => other both.1)]

theorem hostNamed_cons (f : Field) (rest : List Field) : hostNamed (f :: rest) =
    if lookupToken f.name = some .host ∧ f.value ≠ [] then f.value else hostNamed rest := by
  unfold hostNamed
  by_cases named : lookupToken f.name = some .host
  · by_cases empty : f.value = [] <;> simp [named, empty]
  · simp [named]

theorem receiveFields_regular (fields : List Field) :
    ∀ req : RequestImpl, (∀ f ∈ fields, Client.Regular f) →
      Server.receiveFields req fields = ⟨req.store.addAll fields, req.method, { req.uri with
        host := if req.uri.host = [] then hostNamed fields else req.uri.host }⟩ := by
  induction fields with
  | nil =>
    intro req _
    by_cases unknown : req.uri.host = []
    · rw [if_pos unknown]
      obtain ⟨store, method, scheme, host, path, rawPath, rawQuery, fragment⟩ := req
      simp_all [Server.receiveFields, HeaderStore.addAll, hostNamed]
    · rw [if_neg unknown]
      rfl
  | cons f rest ih =>
    intro req regular
    have tail := ih (req.receive f).1 (fun g member => regular g (by simp [member]))
    rw [Server.receiveFields] at tail ⊢
    rw [List.foldl_cons, tail, receive_regular (regular f (by simp)), hostNamed_cons]
    by_cases unknown : req.uri.host = []
    · by_cases named : lookupToken f.name = some .host
      · by_cases empty : f.value = [] <;> simp [unknown, named, empty, HeaderStore.addAll]
      · simp [unknown, named, HeaderStore.addAll]
    · simp [unknown, HeaderStore.addAll]

theorem receivedRequest_pseudo (method scheme authority path : Bytes) {fields : List Field}
    (regular : ∀ f ∈ fields, Client.Regular f) :
    Server.receivedRequest (⟨lit ":method", method, false⟩ :: ⟨lit ":scheme", scheme, false⟩ ::
        ⟨lit ":path", path, false⟩ :: ⟨lit ":authority", authority, false⟩ :: fields) =
      ⟨HeaderStore.empty.addAll fields, method, { splitPath UriRef.empty path with
        scheme := scheme
        host := if authority = [] then hostNamed fields else authority }⟩ ∧
    Server.receivedRequest (⟨lit ":method", method, false⟩ :: ⟨lit ":scheme", scheme, false⟩ ::
        ⟨lit ":authority", authority, false⟩ :: ⟨lit ":path", path, false⟩ :: fields) =
      ⟨HeaderStore.empty.addAll fields, method, { splitPath UriRef.empty path with
        scheme := scheme
        host := if authority = [] then hostNamed fields else authority }⟩ := by
  have names : lookupToken (lit ":method") = some .method ∧
      lookupToken (lit ":scheme") = some .scheme ∧ lookupToken (lit ":path") = some .path ∧
      lookupToken (lit ":authority") = some .authority := by decide
  obtain ⟨m, s, p, a⟩ := names
  constructor
  · rw [Server.receivedRequest, Server.receiveFields, List.foldl_cons, List.foldl_cons,
      List.foldl_cons, List.foldl_cons, ← Server.receiveFields, receiveFields_regular fields _ regular]
    simp [RequestImpl.receive, RequestImpl.empty, splitPath, m, s, p, a]
  · rw [Server.receivedRequest, Server.receiveFields, List.foldl_cons, List.foldl_cons,
      List.foldl_cons, List.foldl_cons, ← Server.receiveFields, receiveFields_regular fields _ regular]
    simp [RequestImpl.receive, RequestImpl.empty, splitPath, m, s, p, a]

theorem other_of_unmarked {path : Bytes} (unmarked : question ∉ path) :
    ∀ c ∈ path, decide (c ≠ question) = true := by
  intro c member
  rw [decide_eq_true_eq]
  rintro rfl
  exact unmarked member

theorem splitPath_marked (dst : UriRef) {path : Bytes} (query : Bytes) (unmarked : question ∉ path) :
    splitPath dst (path ++ question :: query) =
      { dst with path := percentDecode path, rawPath := path, rawQuery := query } := by
  have other := other_of_unmarked unmarked
  have here : decide (question ≠ question) = false := by simp
  simp only [splitPath, List.takeWhile_append_of_pos other, List.dropWhile_append_of_pos other,
    List.takeWhile_cons, List.dropWhile_cons, here]
  simp

theorem splitPath_unmarked (dst : UriRef) {path : Bytes} (unmarked : question ∉ path) :
    splitPath dst path =
      { dst with path := percentDecode path, rawPath := path, rawQuery := [] } := by
  have other := other_of_unmarked unmarked
  have front := List.takeWhile_eq_self_iff.mpr other
  have back := List.dropWhile_eq_nil_iff.mpr other
  simp only [splitPath, front, back, List.drop_nil]

/-- Whatever wraps around, the path is copied from the text in front of the query. -/
theorem submitPath_unmarked {inetPton : InetPton} {u : HttpParserUrl} {uri : Bytes}
    (accepted : Accepts uri u) : question ∉ (submitUri inetPton u uri).rawPath := by
  obtain ⟨sc, _, _, scanned, _⟩ := accepts_inv accepted
  have path := copy_before (accepts_found accepted).2.1 uri
  have split : authorityOf uri ++ (pathOf uri ++ (afterAuthority uri).dropWhile inPath) =
      hierarchyOf uri := by
    rw [pathOf, List.takeWhile_append_dropWhile]
    exact List.takeWhile_append_dropWhile
  have front : uri.take (pathOff uri + (pathOf uri).length) =
      (schemeOf uri ++ [colon, slash, slash]) ++ (authorityOf uri ++ pathOf uri) := by
    have whole : uri = ((schemeOf uri ++ [colon, slash, slash]) ++ (authorityOf uri ++ pathOf uri)) ++
        (afterAuthority uri).dropWhile inPath := by
      simpa [split] using scanned.text
    have sizes : ((schemeOf uri ++ [colon, slash, slash]) ++ (authorityOf uri ++ pathOf uri)).length =
        pathOff uri + (pathOf uri).length := by
      simp [pathOff, authorityOff]
      omega
    exact (congrArg (List.take _) whole).trans (List.take_left' sizes)
  intro member
  simp only [submitUri] at member
  split at member
  · exact absurd member (by decide)
  · have inside := path member
    rw [front, List.mem_append, List.mem_append, List.mem_append] at inside
    rcases inside with (letter | mark) | authority | here
    · exact absurd (scanned.letters _ letter) (by decide)
    · exact absurd mark (by decide)
    · exact absurd (List.mem_takeWhile_imp authority) (by decide)
    · exact pathOf_unmarked uri here

theorem submitPath_split (inetPton : InetPton) {u : HttpParserUrl} {uri : Bytes}
    (accepted : Accepts uri u) (host : Bytes) :
    let uref := submitUri inetPton u uri
    { splitPath UriRef.empty (if u.fieldSet .query then uref.rawPath ++ question :: uref.rawQuery
        else uref.rawPath) with scheme := uref.scheme, host := host } = { uref with host := host } := by
  intro uref
  have unmarked : question ∉ uref.rawPath := submitPath_unmarked accepted
  by_cases query : u.fieldSet .query = true
  · rw [if_pos query, splitPath_marked _ _ unmarked]
    rfl
  · have bare : uref.rawQuery = [] := if_neg query
    rw [if_neg query, splitPath_unmarked _ unmarked, ← bare]
    rfl

theorem submitHost_nonempty {inetPton : InetPton} {u : HttpParserUrl} {uri : Bytes}
    (parsed : Parsed uri u) (fits : NoWrap uri) : submitHost inetPton u uri ≠ [] := by
  have named : hostOf uri ≠ [] := parsed.shape.nonempty
  rw [submitHost_eq parsed fits, authorityText, hostText]
  cases inetPton (hostOf uri) <;> simp [named]

/-- What reaches the server of a submitted request: the method it was given, the target
    the client keeps, and the fields as far as the budget goes. Only a request for which
    the client keeps no host gets another one, the one its own fields name. -/
theorem submit_received {inetPton : InetPton} {u : HttpParserUrl} {uri : Bytes}
    (accepted : Accepts uri u) (method : Bytes) {h : HeaderMap} (plain : Plain h) :
    Server.receivedRequest (wireFields (submitNva method u (submitUri inetPton u uri) h)) =
      ⟨HeaderStore.empty.addAll (mapFields h), method, { submitUri inetPton u uri with
        host := if (submitUri inetPton u uri).host = [] then hostNamed (mapFields h)
          else (submitUri inetPton u uri).host }⟩ := by
  have received := (receivedRequest_pseudo method (submitUri inetPton u uri).scheme
    (submitUri inetPton u uri).host (if u.fieldSet .query then (submitUri inetPton u uri).rawPath ++
      question :: (submitUri inetPton u uri).rawQuery else (submitUri inetPton u uri).rawPath)
    (mapFields_regular plain)).1
  have target := submitPath_split inetPton accepted
    (if (submitUri inetPton u uri).host = [] then hostNamed (mapFields h)
      else (submitUri inetPton u uri).host)
  dsimp only at target
  rw [target] at received
  exact received

theorem stored_iff (h : HeaderMap) :
    (HeaderStore.empty.addAll (mapFields h)).header = h ↔ entriesSize h.entries ≤ headerLimit := by
  have exact_ := addAll_exact_iff (mapFields h)
  rw [mapFields_entry, Multimap.ofList_entries, mapFields_size] at exact_
  exact exact_

def arrivedResponse (nva : List Nv) : Client.ResponseImpl :=
  Client.ResponseImpl.new.receiveAll (wireFields nva)

theorem status_read (status : UInt32) :
    Client.toInt (parseUint (utos status.toNat)) = status.toInt32.toInt := by
  have small := status.toNat_lt
  have read : parseUint (utos status.toNat) = status.toNat := by
    rw [Decimal.utos_canonical, Decimal.parseUint_spec, Decimal.decimalValue_canonical,
      if_pos ⟨Decimal.canonical_numeric _, by omega⟩]
  rw [read, Client.toInt]
  exact (BitVec.toInt_eq_toNat_bmod status.toBitVec).symm

def dateField (date : Bytes) : Field := ⟨lit "date", date, false⟩

theorem headFields_regular {header : HeaderMap} (plain : Plain header) (date : Bytes) :
    ∀ f ∈ dateField date :: mapFields header, Client.Regular f := by
  intro f member
  rcases List.mem_cons.mp member with rfl | inside
  · exact (by decide : (lit "date").head? ≠ some Client.colon)
  · exact mapFields_regular plain f inside

def headSize (header : HeaderMap) (date : Bytes) : Nat :=
  (lit "date").length + date.length + entriesSize header.entries

theorem headFields_size (header : HeaderMap) (date : Bytes) :
    fieldsSize (dateField date :: mapFields header) = headSize header date := by
  rw [fieldsSize, List.map_cons, List.sum_cons, ← fieldsSize, mapFields_size]
  rfl

theorem arrived_submission (method : Bytes) (status : UInt32) {header : HeaderMap} (date : Bytes)
    (plain : Plain header) :
    (arrivedResponse (Server.submission method status header date).nva).statusCode =
        status.toInt32.toInt ∧
      (arrivedResponse (Server.submission method status header date).nva).onData = false ∧
      (arrivedResponse (Server.submission method status header date).nva).store =
        HeaderStore.empty.addAll (dateField date :: mapFields header) ∧
      (headSize header date ≤ headerLimit →
        (arrivedResponse (Server.submission method status header date).nva).contentLength =
          Client.lastLength (-1) (mapFields header)) := by
  have token : lookupToken (lit ":status") = some .status := by decide
  have first : (Client.ResponseImpl.new.receive ⟨lit ":status", utos status.toNat, false⟩).1 =
      { Client.ResponseImpl.new with statusCode := status.toInt32.toInt } := by
    rw [← status_read]
    simp [Client.ResponseImpl.receive, token]
  have arrived : arrivedResponse (Server.submission method status header date).nva =
      ({ Client.ResponseImpl.new with statusCode := status.toInt32.toInt } :
        Client.ResponseImpl).receiveAll (dateField date :: mapFields header) := by
    rw [← first]
    rfl
  have regular := headFields_regular plain date
  obtain ⟨code, data, store⟩ := Client.receiveAll_regular _
    { Client.ResponseImpl.new with statusCode := status.toInt32.toInt } regular
  rw [arrived]
  refine ⟨code, data, store, fun fits => ?_⟩
  have other : ¬ lookupToken (lit "date") = some Token.contentLength := by decide
  rw [Client.receiveAll_length _ _ regular (by
    rw [headFields_size]
    simpa [Client.ResponseImpl.new, HeaderStore.empty] using fits), Client.lastLength_cons]
  simp only [dateField, other, ↓reduceIte]
  rfl

theorem arrived_values (header : HeaderMap) (date : Bytes) (fits : headSize header date ≤ headerLimit)
    (name : Bytes) :
    (HeaderStore.empty.addAll (dateField date :: mapFields header)).header.values name =
      (if name = lit "date" then [⟨date, false⟩] else []) ++ header.values name := by
  rw [(addAll_exact_iff _).mpr (by rw [headFields_size]; exact fits), Multimap.values_ofList,
    List.map_cons, mapFields_entry]
  by_cases same : name = lit "date"
  · subst same
    rw [List.filter_cons_of_pos (by simp [dateField, Field.entry])]
    simp [dateField, Field.entry, Multimap.Map.values]
  · rw [List.filter_cons_of_neg (by simp [dateField, Field.entry, Ne.symm same]), if_neg same]
    rfl

end Nghttp2Asio
