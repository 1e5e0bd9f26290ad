import Nghttp2Asio.Arrival
import Nghttp2Asio.CleanRedirect

/-!
From the URI a client submits to the handler the server runs: the target goes over the
connection and through the multiplexer.
-/
namespace Nghttp2Asio
open Util PathJoin UrlParser ServeMux Routing
variable {α : Type}

def requestedPath (uri : Bytes) : Bytes :=
  percentDecode (if pathOf uri = [] then [slash] else pathOf uri)

/-- The authority a URI asks for, in brackets when `inet_pton` knows its host. -/
def requestedHost (inetPton : InetPton) (uri : Bytes) : Bytes :=
  authorityText (inetPton (hostOf uri)) (hostOf uri) (portOf uri)

def Server.Output.handler : Server.Output α → Option (RequestCb α)
  | .request _ cb _ => some cb
  | _ => none

def Link.heardHandlers (ends : Ends α) (link : Link) (id : Int) : List (RequestCb α) :=
  ((link.serverLog ends).filter (fun o => o.streamId = id)).filterMap Server.Output.handler

theorem requestedHost_slash {inetPton : InetPton} {uri : Bytes} {u : HttpParserUrl}
    (parsed : Parsed uri u) : slash ∉ requestedHost inetPton uri := by
  intro member
  have letter := authorityText_server _ (portOf uri) (host_server parsed) slash member
  exact absurd letter (by decide)

theorem Request.Made.target {ends : Ends α} {r : Request} (made : r.Made ends) (fits : NoWrap r.uri) :
    r.stored.uri.path = requestedPath r.uri ∧ r.stored.uri.host = requestedHost ends.inetPton r.uri ∧
      r.stored.uri.rawQuery = queryOf r.uri ∧ slash ∉ r.stored.uri.host := by
  obtain ⟨u, accepted, _, stored⟩ := made
  have parsed := parse_spec accepted fits.toServerFits
  have host : r.stored.uri.host = requestedHost ends.inetPton r.uri := by
    rw [stored]
    exact submitHost_eq parsed fits
  refine ⟨?_, host, ?_, ?_⟩
  · rw [stored, requestedPath, ← parsed.path fits.path]
    rfl
  · rw [stored, ← parsed.query fits.query]
    rfl
  · rw [host]
    exact requestedHost_slash parsed

section
variable {ends : Ends α} {link : Link} {id : Int}

/-- The handler that runs for a request is decided by the URI the client submitted and by what
    was registered before: a path that is not clean is sent to the clean one, and any other goes
    to the longest pattern for its host, else for any host, else to 404. No request runs two. -/
theorem request_routed (reached : link.Reached ends) {calls : List (Call α)}
    (registered : ends.server.mux = (registerAll calls).table) {r : Request}
    (submitted : link.requests id = some r) :
    (link.heardHandlers ends id).length ≤ 1 ∧
      (link.ServerHasAll id → link.heardHandlers ends id ≠ []) ∧
      (NoWrap r.uri → Plain r.header → ∀ cb ∈ link.heardHandlers ends id,
        (Canonical (requestedPath r.uri) →
          Routed (registerAll calls).table (requestedHost ends.inetPton r.uri) (requestedPath r.uri) cb) ∧
        (r.method ≠ lit "CONNECT" → ¬ Canonical (requestedPath r.uri) → cb = .redirectHandler 301
          (PercentCoding.target (cleanPath (requestedPath r.uri)) (queryOf r.uri)))) := by
  have good := good_reached reached
  obtain ⟨made, front, all⟩ := request_heard good submitted
    Server.Output.handler (fun _ _ _ => rfl) (fun _ _ _ => rfl) (fun _ _ => rfl)
  refine ⟨front.length_le, fun has => ?_, fun fits plain cb member => ?_⟩
  · rw [Link.heardHandlers, all has]
    exact List.cons_ne_nil _ _
  · obtain ⟨path, host, query, free⟩ := made.target fits
    have received := made.received plain
    rw [if_neg (made.host fits)] at received
    rw [received, registered] at front
    obtain rfl := List.mem_singleton.mp (front.subset member)
    let req : RequestImpl := ⟨HeaderStore.empty.addAll (mapFields r.header), r.method, r.stored.uri⟩
    constructor
    · intro clean
      rw [← path, ← cleanPath_fixed_iff] at clean
      have routed := handlerIn_routed calls req clean free (List.Perm.refl _)
      rw [show req.uri = r.stored.uri from rfl, path, host] at routed
      exact routed
    · intro other odd
      rw [← path] at odd
      have redirects : redirectsToClean req = true := (redirectsToClean_iff other).mpr odd
      rw [handler_redirects _ redirects, CleanRedirect.cleanLocation_target, path, query]

end

theorem request_routed_post : ∃ (link : Link) (r : Request) (cb : RequestCb Unit),
    link.Reached postEnds ∧ link.requests 1 = some r ∧ link.heardHandlers postEnds 1 = [cb] ∧
    Routed postEnds.server.mux (lit "a") (lit "/") cb := by
  obtain ⟨link, ran, reached⟩ := postLink_some
  obtain ⟨r, submitted, _, uri, fits, plain⟩ := postLink_request ran
  have heard : (postLink.map (fun link => link.heardHandlers postEnds 1)) = some [.app ()] := by
    decide +kernel
  rw [ran] at heard
  have told : link.heardHandlers postEnds 1 = [.app ()] := Option.some.inj heard
  have routed := ((request_routed reached rfl submitted).2.2 fits plain (.app ())
    (told ▸ List.mem_cons_self)).1
  rw [uri] at routed
  refine ⟨link, r, .app (), reached, submitted, told, ?_⟩
  exact routed ((cleanPath_fixed_iff _).mp (by decide +kernel))

end Nghttp2Asio
