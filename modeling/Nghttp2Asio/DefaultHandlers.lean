import Nghttp2Asio.Arrival

/-!
The handlers the multiplexer falls back on: `redirect_handler` and `status_handler`
(asio_server_request_handler.cc), and what a client hears of the pages they make.
-/
namespace Nghttp2Asio
open Util Decimal ServeMux

def reasonPhrases : List (Nat × Bytes) :=
  [(100, lit "Continue"), (101, lit "Switching Protocols"), (103, lit "Early Hints"),
   (200, lit "OK"), (201, lit "Created"), (202, lit "Accepted"),
   (203, lit "Non-Authoritative Information"), (204, lit "No Content"),
   (205, lit "Reset Content"), (206, lit "Partial Content"), (300, lit "Multiple Choices"),
   (301, lit "Moved Permanently"), (302, lit "Found"), (303, lit "See Other"),
   (304, lit "Not Modified"), (305, lit "Use Proxy"), (307, lit "Temporary Redirect"),
   (308, lit "Permanent Redirect"), (400, lit "Bad Request"), (401, lit "Unauthorized"),
   (402, lit "Payment Required"), (403, lit "Forbidden"), (404, lit "Not Found"),
   (405, lit "Method Not Allowed"), (406, lit "Not Acceptable"),
   (407, lit "Proxy Authentication Required"), (408, lit "Request Timeout"),
   (409, lit "Conflict"), (410, lit "Gone"), (411, lit "Length Required"),
   (412, lit "Precondition Failed"), (413, lit "Payload Too Large"), (414, lit "URI Too Long"),
   (415, lit "Unsupported Media Type"), (416, lit "Requested Range Not Satisfiable"),
   (417, lit "Expectation Failed"), (421, lit "Misdirected Request"), (425, lit "Too Early"),
   (426, lit "Upgrade Required"), (428, lit "Precondition Required"),
   (429, lit "Too Many Requests"), (431, lit "Request Header Fields Too Large"),
   (451, lit "Unavailable For Legal Reasons"), (500, lit "Internal Server Error"),
   (501, lit "Not Implemented"), (502, lit "Bad Gateway"), (503, lit "Service Unavailable"),
   (504, lit "Gateway Timeout"), (505, lit "HTTP Version Not Supported"),
   (511, lit "Network Authentication Required")]

def getReasonPhrase (statusCode : Nat) : Bytes := (reasonPhrases.lookup statusCode).getD []

/-- `iov` is the memory the digits of an unlisted status are written to. -/
def createHtml (iov : Bytes) (statusCode : Nat) : Option Bytes := do
  let statusString ← stringifyStatus iov statusCode
  let heading := statusString ++ lit " " ++ getReasonPhrase statusCode
  some (lit "<!DOCTYPE html><html lang=\"en\"><title>" ++ heading ++ lit "</title><body><h1>" ++
    heading ++ lit "</h1></body></html>")

structure Page where
  statusCode : Nat
  header : HeaderMap
  html : Bytes
  deriving DecidableEq

def text (value : Bytes) : HeaderValue := ⟨value, false⟩

def redirectHtml (iov : Bytes) (statusCode : Nat) (method : Bytes) : Option Bytes :=
  if method = lit "GET" then createHtml iov statusCode else some []

def redirectHandler (iov : Bytes) (statusCode : Nat) (uri : Bytes) (method : Bytes) : Option Page := do
  let h : HeaderMap := Multimap.empty.emplace (lit "location") (text uri)
  let html ← redirectHtml iov statusCode method
  some ⟨statusCode, h.emplace (lit "content-length") (text (utos html.length)), html⟩

def statusHandler (iov : Bytes) (statusCode : Nat) : Option Page :=
  if !expectResponseBodyOf statusCode then some ⟨statusCode, Multimap.empty, []⟩
  else do
    let html ← createHtml iov statusCode
    let h : HeaderMap := Multimap.empty.emplace (lit "content-length") (text (utos html.length))
    some ⟨statusCode, h.emplace (lit "content-type") (text (lit "text/html; charset=utf-8")), html⟩

/-- The page of a handler of the library; an application's own handler has none. -/
def ServeMux.RequestCb.page {α : Type} (iov : Bytes) (method : Bytes) :
    RequestCb α → Option Page
  | .app _ => none
  | .redirectHandler statusCode uri => Nghttp2Asio.redirectHandler iov statusCode uri method
  | .statusHandler statusCode => Nghttp2Asio.statusHandler iov statusCode

/-! The pages. -/

def heading (statusCode : Nat) : Bytes := utos statusCode ++ lit " " ++ getReasonPhrase statusCode

theorem utos_short {n : Nat} (small : n < 2 ^ 64) : (utos n).length ≤ nghttp2MaxUint64Digits := by
  rw [utos_canonical]
  exact canonical_length small

theorem createHtml_eq {iov : Bytes} {statusCode : Nat} (small : statusCode < 2 ^ 64)
    (room : nghttp2MaxUint64Digits < iov.length) :
    createHtml iov statusCode = some (lit "<!DOCTYPE html><html lang=\"en\"><title>" ++
      heading statusCode ++ lit "</title><body><h1>" ++ heading statusCode ++
        lit "</h1></body></html>") := by
  rw [createHtml, stringifyStatus_eq (Nat.lt_of_le_of_lt (utos_short small) room)]
  rfl

theorem reasonPhrase_short (statusCode : Nat) : (getReasonPhrase statusCode).length ≤ 31 := by
  have listed : ∀ e ∈ reasonPhrases, e.2.length ≤ 31 := by decide +kernel
  unfold getReasonPhrase
  cases found : reasonPhrases.lookup statusCode with
  | none => exact Nat.zero_le 31
  | some phrase =>
    obtain ⟨before, after, split, _⟩ := List.lookup_eq_some_iff.mp found
    exact listed (statusCode, phrase) (by simp [split])

theorem html_short {iov html : Bytes} {statusCode : Nat} (small : statusCode < 2 ^ 64)
    (room : nghttp2MaxUint64Digits < iov.length) (made : createHtml iov statusCode = some html) :
    html.length ≤ 200 := by
  rw [createHtml_eq small room] at made
  obtain rfl := Option.some.inj made
  have digits := utos_short small
  have phrase := reasonPhrase_short statusCode
  have most : nghttp2MaxUint64Digits = 20 := by decide
  have texts : (lit "<!DOCTYPE html><html lang=\"en\"><title>").length = 38 ∧
      (lit "</title><body><h1>").length = 18 ∧ (lit "</h1></body></html>").length = 19 ∧
      (lit " ").length = 1 := by decide +kernel
  obtain ⟨t1, t2, t3, t4⟩ := texts
  simp only [heading, List.length_append, t1, t2, t3, t4]
  omega

theorem length_read {n : Nat} (small : n ≤ 200) : parseUint (utos n) = n := by
  rw [utos_canonical, parseUint_spec, decimalValue_canonical,
    if_pos ⟨canonical_numeric n, by omega⟩]

theorem redirect_entries (uri length : HeaderValue) :
    ((Multimap.empty.emplace (lit "location") uri).emplace (lit "content-length") length :
      HeaderMap).entries = [(lit "content-length", length), (lit "location", uri)] := by
  have before : compare (lit "content-length") (lit "location") = .lt := by decide +kernel
  simp [Multimap.Map.emplace, Multimap.place, Multimap.empty, before]

theorem status_entries (length kind : HeaderValue) :
    ((Multimap.empty.emplace (lit "content-length") length).emplace (lit "content-type") kind :
      HeaderMap).entries = [(lit "content-length", length), (lit "content-type", kind)] := by
  have after : compare (lit "content-type") (lit "content-length") = .gt := by decide +kernel
  simp [Multimap.Map.emplace, Multimap.place, Multimap.empty, after]

/-- The fields of a page: none at all, or among them one length, that of the body. -/
structure Page.Sound (page : Page) : Prop where
  plain : Plain page.header
  length : Client.lastLength (-1) (mapFields page.header) =
    if page.header.entries = [] then -1 else (page.html.length : Int)

theorem sound_of_entries {page : Page} {name : Bytes} {v : HeaderValue}
    (entries : page.header.entries =
      [(lit "content-length", text (utos page.html.length)), (name, v)])
    (other : lookupToken name ≠ some .contentLength) (regular : name.head? ≠ some Client.colon)
    (short : page.html.length ≤ 200) : page.Sound := by
  have length_plain : (lit "content-length").head? ≠ some Client.colon := by decide
  have length_token : lookupToken (lit "content-length") = some .contentLength := by decide
  constructor
  · intro e member
    rw [entries] at member
    rcases List.mem_cons.mp member with rfl | member
    · exact length_plain
    · obtain rfl := List.mem_singleton.mp member
      exact regular
  · have fields : mapFields page.header =
        [⟨lit "content-length", utos page.html.length, false⟩, ⟨name, v.value, v.sensitive⟩] := by
      rw [mapFields, Server.headerNva, entries]
      rfl
    rw [fields, if_neg (by simp [entries])]
    simp [Client.lastLength, length_token, other, length_read short]

theorem redirect_sound {iov uri method : Bytes} {statusCode : Nat} {page : Page}
    (small : statusCode < 2 ^ 64) (room : nghttp2MaxUint64Digits < iov.length)
    (made : redirectHandler iov statusCode uri method = some page) : page.Sound := by
  obtain ⟨html, written, made⟩ := Option.bind_eq_some_iff.mp made
  obtain rfl := Option.some.inj made
  have short : html.length ≤ 200 := by
    unfold redirectHtml at written
    split at written
    · exact html_short small room written
    · obtain rfl := Option.some.inj written
      exact Nat.zero_le 200
  exact sound_of_entries (redirect_entries _ _) (by decide) (by decide) short

theorem status_sound {iov : Bytes} {statusCode : Nat} {page : Page} (small : statusCode < 2 ^ 64)
    (room : nghttp2MaxUint64Digits < iov.length)
    (made : statusHandler iov statusCode = some page) : page.Sound := by
  unfold statusHandler at made
  split at made
  · obtain rfl := Option.some.inj made
    exact ⟨by simp [Plain, Multimap.empty], rfl⟩
  · obtain ⟨html, written, made⟩ := Option.bind_eq_some_iff.mp made
    obtain rfl := Option.some.inj made
    exact sound_of_entries (status_entries _ _) (by decide) (by decide)
      (html_short small room written)

theorem page_sound {α : Type} {cb : RequestCb α} {iov method : Bytes} {page : Page}
    (made : cb.page iov method = some page) (small : page.statusCode < 2 ^ 64)
    (room : nghttp2MaxUint64Digits < iov.length) : page.Sound := by
  cases cb with
  | app f => contradiction
  | redirectHandler statusCode uri =>
    have same : page.statusCode = statusCode := by
      obtain ⟨html, _, rest⟩ := Option.bind_eq_some_iff.mp made
      exact congrArg Page.statusCode (Option.some.inj rest).symm
    exact redirect_sound (same ▸ small) room made
  | statusHandler statusCode =>
    have same : page.statusCode = statusCode := by
      change statusHandler iov statusCode = some page at made
      unfold statusHandler at made
      split at made
      · exact congrArg Page.statusCode (Option.some.inj made).symm
      · obtain ⟨html, _, rest⟩ := Option.bind_eq_some_iff.mp made
        exact congrArg Page.statusCode (Option.some.inj rest).symm
    exact status_sound (same ▸ small) room made

theorem page_bare {α : Type} {cb : RequestCb α} {iov method : Bytes} {page : Page}
    (made : cb.page iov method = some page) : page.header.entries = [] ↔
      ∃ statusCode, cb = .statusHandler statusCode ∧ expectResponseBodyOf statusCode = false := by
  cases cb with
  | app f => contradiction
  | redirectHandler statusCode uri =>
    obtain ⟨html, _, rest⟩ := Option.bind_eq_some_iff.mp made
    rw [← Option.some.inj rest, redirect_entries]
    simp
  | statusHandler statusCode =>
    change statusHandler iov statusCode = some page at made
    unfold statusHandler at made
    split at made
    · rename_i bodiless
      rw [← Option.some.inj made]
      simpa [Multimap.empty] using bodiless
    · rename_i bodied
      obtain ⟨html, _, rest⟩ := Option.bind_eq_some_iff.mp made
      rw [← Option.some.inj rest, status_entries]
      simpa using bodied

/-! A page on its way. -/

def Page.calls (page : Page) (head body : Server.Answer) : List Server.Call :=
  [.writeHead (UInt32.ofNat page.statusCode) page.header head, .endString page.html body]

theorem first_head (method : Bytes) (statusCode : UInt32) (h : HeaderMap) (answer : Server.Answer) :
    ∃ more, ((Server.ResponseImpl.new false).step method (.writeHead statusCode h answer)).2 =
      .startResponse (Server.submission method statusCode h answer.date) :: more := by
  simp only [Server.ResponseImpl.step, Server.ResponseImpl.writeHead, Server.ResponseImpl.new,
    Server.ResponseImpl.startResponse]
  cases Server.expectBody method statusCode <;> cases answer.ok <;> simp

theorem page_submission {page : Page} {head body : Server.Answer} {r : Responding}
    {s : Server.Submission} (handled : page.calls head body <+: r.calls) (own : r.pushed = false)
    (once : Server.submissions r.effects = [s]) :
    s = Server.submission r.method (UInt32.ofNat page.statusCode) page.header head.date := by
  obtain ⟨rest, split⟩ := handled
  obtain ⟨more, started⟩ := first_head r.method (UInt32.ofNat page.statusCode) page.header head
  rw [Responding.effects, ← split, own, Page.calls, List.cons_append, Server.respond,
    Trace.run_cons, started] at once
  exact (List.cons.inj once).1.symm

theorem page_accepted {page : Page} {head body : Server.Answer} {r : Responding}
    (handled : page.calls head body <+: r.calls) (own : r.pushed = false)
    (expected : Server.expectBody r.method (UInt32.ofNat page.statusCode) = true) :
    ∃ before c after, Server.Accepted r.method r.pushed r.calls before c after
      (some (stringGenerator page.html)) := by
  obtain ⟨rest, split⟩ := handled
  refine ⟨[.writeHead (UInt32.ofNat page.statusCode) page.header head], .endString page.html body,
    rest, split.symm, rfl, ?_⟩
  rw [own]
  simp only [Server.EndAccepted, Server.respond, Trace.run_cons, Trace.run_nil,
    Server.ResponseImpl.step, Server.ResponseImpl.writeHead, Server.ResponseImpl.new,
    Server.ResponseImpl.startResponse, expected]
  cases head.ok <;> simp

section Arrival
variable {α : Type} {ends : Ends α} {link : Link} {id : Int}

theorem bodiless_unread (good : Good ends link) {r : Responding} {s : Server.Submission}
    (responds : link.responding id = some r) (given : r.sent = some s) (off : s.provider = false) :
    r.reads = [] := by
  rcases down_shape (good.lanes id) with ⟨_, unsent⟩ | ⟨_, _, _, _, answer⟩
  · rw [unsent r responds] at given
    contradiction
  · rw [responds] at answer
    cases answer with
    | waiting _ _ unsent unread => exact unread
    | started _ t frames _ sent _ _ bare =>
      obtain rfl := Option.some.inj (sent.symm.trans given)
      exact (bare off).1

theorem page_sent (good : Good ends link) {r : Responding} (responds : link.responding id = some r)
    (own : r.pushed = false) {page : Page} {head body : Server.Answer}
    (handled : page.calls head body <+: r.calls) {s : Server.Submission} (given : r.sent = some s) :
    s = Server.submission r.method (UInt32.ofNat page.statusCode) page.header head.date := by
  obtain ⟨_, _, _, _, once, _⟩ :=
    (answered_notes Client.Output.responded good id (fun _ => rfl)).2 r s responds given
  exact page_submission handled own once

theorem page_download (good : Good ends link) {r : Responding} (responds : link.responding id = some r)
    (own : r.pushed = false) {page : Page} {head body : Server.Answer}
    (handled : page.calls head body <+: r.calls) :
    (link.heardDownload ends id).flatten <+:
        (if Server.expectBody r.method (UInt32.ofNat page.statusCode) then page.html else []) ∧
      ([] ∈ link.heardDownload ends id → (link.heardDownload ends id).flatten =
        if Server.expectBody r.method (UInt32.ofNat page.statusCode) then page.html else []) := by
  cases given : r.sent with
  | none => simp [(unsent_unheard good responds given).2]
  | some s =>
    have submitted := page_sent good responds own handled given
    cases expected : Server.expectBody r.method (UInt32.ofNat page.statusCode) with
    | false =>
      have off : s.provider = false := (congrArg Server.Submission.provider submitted).trans expected
      have bytes := (download_heard good responds).1
      rw [bodiless_unread good responds given off] at bytes
      have nothing := List.prefix_nil.mp bytes
      simp [nothing]
    | true =>
      obtain ⟨before, c, after, accepted⟩ := page_accepted handled own expected
      obtain ⟨ordered, whole⟩ := payloads_string (stringGenerator_delivers page.html
        (after.filterMap Server.Call.bufferSize))
      obtain ⟨bytes, done⟩ := body_heard good responds accepted rfl
      refine ⟨bytes.trans ordered, fun ended => ?_⟩
      obtain ⟨all, said | ⟨status, header, first, off⟩⟩ := done ended
      · exact all.trans (whole said)
      · -- the first head is the one of the page
        obtain ⟨rest, split⟩ := handled
        rw [← split] at first
        obtain ⟨rfl, rfl⟩ := Prod.mk.inj (Option.some.inj first)
        rw [expected] at off
        contradiction

theorem int_status {n : Nat} (small : n < 2 ^ 31) : (UInt32.ofNat n).toInt32.toInt = n := by
  have value : (UInt32.ofNat n).toNat = n := UInt32.toNat_ofNat_of_lt (by simp [UInt32.size]; omega)
  change (UInt32.ofNat n).toBitVec.toInt = n
  rw [BitVec.toInt_eq_toNat_of_lt]
  · exact congrArg Int.ofNat value
  · change 2 * (UInt32.ofNat n).toNat < 2 ^ 32
    omega

/-- What a client hears of a request the library answers by itself, at any time: at most one
    response, with the status of the page and the length of its body, and of the body a part
    from its start, all of it when the end is heard. To a HEAD request and with a status that
    forbids it, no body is sent, whatever the length says. -/
theorem default_page_arrives (reached : link.Reached ends) {r : Responding}
    (responds : link.responding id = some r) (own : r.pushed = false) {cb : RequestCb α}
    {iov : Bytes} (room : nghttp2MaxUint64Digits < iov.length) {page : Page}
    (made : cb.page iov r.method = some page) (small : page.statusCode < 2 ^ 31)
    {head body : Server.Answer} (handled : page.calls head body <+: r.calls) :
    (link.heardResponses ends id).length ≤ 1 ∧
      (∀ res ∈ link.heardResponses ends id, res.statusCode = page.statusCode ∧
        (headSize page.header head.date ≤ headerLimit → res.contentLength =
          if page.header.entries = [] then -1 else (page.html.length : Int))) ∧
      (link.heardDownload ends id).flatten <+:
        (if expectResponseBody r.method page.statusCode then page.html else []) ∧
      ([] ∈ link.heardDownload ends id → (link.heardDownload ends id).flatten =
        if expectResponseBody r.method page.statusCode then page.html else []) ∧
      (page.header.entries = [] ↔
        ∃ statusCode, cb = .statusHandler statusCode ∧ expectResponseBodyOf statusCode = false) := by
  have good := good_reached reached
  have sound := page_sound made (by omega) room
  have status := int_status small
  have download := page_download good responds own handled
  rw [Server.expectBody, status] at download
  have heard : (link.heardResponses ends id).length ≤ 1 ∧
      ∀ res ∈ link.heardResponses ends id, res.statusCode = page.statusCode ∧
        (headSize page.header head.date ≤ headerLimit → res.contentLength =
          if page.header.entries = [] then -1 else (page.html.length : Int)) := by
    cases given : r.sent with
    | none => simp [(unsent_unheard good responds given).1]
    | some s =>
      have front := (response_heard good responds given).1
      obtain ⟨code, _, _, length⟩ := arrived_submission r.method (UInt32.ofNat page.statusCode)
        head.date sound.plain
      rw [← page_sent good responds own handled given] at code length
      rw [status] at code
      have told : link.heardResponses ends id <+: [arrivedResponse s.nva] := by
        split at front
        · rw [List.prefix_nil.mp front]
          exact List.nil_prefix
        · exact front
      refine ⟨told.length_le, fun res member => ?_⟩
      obtain rfl := List.mem_singleton.mp (told.subset member)
      exact ⟨code, fun fits => (length fits).trans sound.length⟩
  exact ⟨heard.1, heard.2, download.1, download.2, page_bare made⟩

end Arrival

/-! A request no handler is registered for. -/

def bareEnds : Ends Unit where
  inetPton := fun _ => false
  client := ⟨fun _ => true, fun _ _ => true⟩
  server := ⟨(ServeMux.registerAll []).table, fun _ _ => ⟨true, true⟩⟩

def digitRoom : Bytes := List.replicate (nghttp2MaxUint64Digits + 1) 0

def notFound : Page :=
  ⟨404, (Multimap.empty.emplace (lit "content-length") (text (lit "101"))).emplace (lit "content-type")
      (text (lit "text/html; charset=utf-8")),
    lit "<!DOCTYPE html><html lang=\"en\"><title>404 Not Found</title><body><h1>404 Not Found</h1></body></html>"⟩

def leads (page : Page) : List Server.Call → Bool
  | .writeHead statusCode h _ :: .endString data _ :: _ =>
    statusCode = UInt32.ofNat page.statusCode && h = page.header && data = page.html
  | _ => false

theorem leads_calls {page : Page} {calls : List Server.Call} (first : leads page calls = true) :
    ∃ head body, page.calls head body <+: calls := by
  unfold leads at first
  split at first
  · rename_i statusCode h head data body rest
    simp only [Bool.and_eq_true, decide_eq_true_eq] at first
    obtain ⟨⟨rfl, rfl⟩, rfl⟩ := first
    exact ⟨head, body, rest, rfl⟩
  · contradiction

def missingActions : List Action :=
  .submit 1 (lit "GET") (lit "http://a/x") Multimap.empty none ::
    ((headBlock (.headers 1 true .request) [makeNvLs (lit ":method") (lit "GET"),
          makeNvLs (lit ":scheme") (lit "http"), makeNvLs (lit ":path") (lit "/x"),
          makeNvLs (lit ":authority") (lit "a")]).map .toServer ++
      (notFound.calls ⟨lit "now", true⟩ ⟨lit "now", true⟩).map (.call 1) ++
      .download 1 200 [notFound.html] ::
      (headBlock (.headers 1 false .response) [makeNvLs (lit ":status") (lit "404"),
          makeNvLs (lit "date") (lit "now"), makeNvLs (lit "content-length") (lit "101"),
          makeNvLs (lit "content-type") (lit "text/html; charset=utf-8")] ++
        dataFrame 1 true [notFound.html]).map .toClient)

def missingLink : Option Link := missingActions.foldlM (Link.step bareEnds) Link.new

theorem default_page_arrives_missing : ∃ (link : Link) (r : Responding), link.Reached bareEnds ∧
    link.responding 1 = some r ∧
    (RequestCb.statusHandler 404 : RequestCb Unit).page digitRoom r.method = some notFound ∧
    [] ∈ link.heardDownload bareEnds 1 ∧
    (link.heardDownload bareEnds 1).flatten = notFound.html := by
  have known : missingLink.any (fun link => (link.responding 1).any (fun r =>
      r.method = lit "GET" && !r.pushed && leads notFound r.calls) &&
        (link.heardDownload bareEnds 1).contains []) = true := by decide +kernel
  obtain ⟨link, ran, facts⟩ := (Option.any_eq_true _ _).mp known
  simp only [Bool.and_eq_true, List.contains_iff_mem] at facts
  obtain ⟨responding, ended⟩ := facts
  obtain ⟨r, responds, facts⟩ := (Option.any_eq_true _ _).mp responding
  simp only [Bool.and_eq_true, decide_eq_true_eq, Bool.not_eq_true'] at facts
  obtain ⟨⟨method, own⟩, first⟩ := facts
  obtain ⟨head, body, handled⟩ := leads_calls first
  have made : (RequestCb.statusHandler 404 : RequestCb Unit).page digitRoom r.method = some notFound := by
    rw [method]
    decide +kernel
  have reached : link.Reached bareEnds := ⟨missingActions, ran⟩
  have whole := (default_page_arrives reached responds own (by decide) made (by decide) handled).2.2.2.1
  rw [method] at whole
  exact ⟨link, r, reached, responds, made, ended, whole ended⟩

end Nghttp2Asio
