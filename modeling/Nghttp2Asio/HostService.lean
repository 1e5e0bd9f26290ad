import Nghttp2Asio.Submit

/-!
`host_service_from_uri`, by which an application finds the server to connect to, beside
`session_impl::submit`, which names the server in the request.
-/
namespace Nghttp2Asio
open Util UrlParser

structure HostService where
  scheme : Bytes
  host : Bytes
  service : Bytes
  deriving DecidableEq, Repr

/-- The error is always `invalid_argument`. -/
def hostServiceFromUri (uri : Bytes) : Option HostService := do
  let u ← httpParserParseUrl uri false
  if !u.fieldSet .schema || !u.fieldSet .host then none
  else
    let scheme := copyUrlComponent u .schema uri
    some {
      scheme := scheme
      host := copyUrlComponent u .host uri
      service := if u.fieldSet .port then copyUrlComponent u .port uri else scheme }

example : hostServiceFromUri (lit "https://u@[::1]:0443/") =
    some ⟨lit "https", lit "::1", lit "0443"⟩ := by decide +kernel

theorem hostServiceFromUri_some {uri : Bytes} {hs : HostService}
    (found : hostServiceFromUri uri = some hs) : ∃ u, Accepts uri u ∧
      hs = ⟨copyUrlComponent u .schema uri, copyUrlComponent u .host uri,
        if u.fieldSet .port then copyUrlComponent u .port uri else copyUrlComponent u .schema uri⟩ := by
  unfold hostServiceFromUri at found
  obtain ⟨u, parsed, found⟩ := Option.bind_eq_some_iff.mp found
  split at found
  · contradiction
  · rename_i present
    refine ⟨u, ⟨parsed, ?_, ?_⟩, (Option.some.inj found).symm⟩
    · simp_all
    · simp_all

section Port
variable {uri : Bytes} {u : HttpParserUrl}

theorem port_copied (accepted : Accepts uri u) (fits : NoWrap uri) :
    copyUrlComponent u .port uri = portDigits uri ∧
      u.fieldSet .port = (portIn (hostPort uri)).isSome := by
  obtain ⟨sc, v, _, scanned, second, third, _⟩ := accepts_inv accepted
  obtain ⟨sets, data⟩ := parsePort_sets third
  have small := (fits.authority scanned.server).1
  have window : sc.url.window uri .host = authorityOf uri :=
    window_of_data (scanned.host.2 scanned.server) (placed_authority scanned) fits.authority
      scanned.server
  rw [scanned.found_at] at second
  obtain ⟨shape, found⟩ := httpParseHost_spec window scanned.no_port second
  rw [scanned.host.2 scanned.server, uint16_of_lt small] at found
  have placed : Placed uri (hostPortStart uri) (hostPort uri) :=
    (placed_authority scanned).trans (placed_hostPort (authorityOf uri))
  have set_ : u.fieldSet .port = (portIn (hostPort uri)).isSome := by
    rw [sets]
    exact found.port_set
  refine ⟨?_, set_⟩
  rw [copyUrlComponent, set_]
  cases port : portIn (hostPort uri) with
  | none => simp [portDigits, port]
  | some d =>
    have digits : portDigits uri = d := by rw [portDigits, port, Option.getD_some]
    have room := fits.port
    rw [portOff, digits] at room
    rw [if_pos Option.isSome_some, digits]
    refine window_of_data ?_ (placed.trans (placed_port shape port)) room (shape.digits d port).1
    rw [data]
    exact found.port d port

theorem service_eq (accepted : Accepts uri u) (fits : NoWrap uri) :
    (if u.fieldSet .port then copyUrlComponent u .port uri else copyUrlComponent u .schema uri) =
      (portIn (hostPort uri)).getD (schemeOf uri) := by
  obtain ⟨digits, set_⟩ := port_copied accepted fits
  rw [digits, (parse_spec accepted fits.toServerFits).scheme, set_, portDigits]
  cases portIn (hostPort uri) <;> rfl

end Port

/-- The server an application connects to, and the one a request names. A port is named by
    its number, whatever zeros its digits start with; without one, the service is the one
    that has the name of the scheme. -/
structure SameServer (inetPton : InetPton) (hs : HostService) (nva : List Nv) : Prop where
  scheme : fieldValue nva (lit ":scheme") = some hs.scheme
  authority :
    fieldValue nva (lit ":authority") = some (authorityText (inetPton hs.host) hs.host none) ∧
        hs.service = hs.scheme ∨
      hs.service ≠ [] ∧ (∀ c ∈ hs.service, isNum c = true) ∧ portValue hs.service ≤ 0xffff ∧
        fieldValue nva (lit ":authority") =
          some (authorityText (inetPton hs.host) hs.host (some (portValue hs.service)))

theorem submit_accepts (inetPton : InetPton) (streams : Client.Streams) (method uri : Bytes)
    (h : HeaderMap) (answer : Int) :
    (Client.submit inetPton streams method uri h answer).isSome =
      ((hostServiceFromUri uri).isSome && decide (0 ≤ answer)) := by
  unfold Client.submit hostServiceFromUri
  cases httpParserParseUrl uri false with
  | none => rfl
  | some u =>
    simp only [Option.bind_eq_bind, Option.bind_some]
    split
    · rfl
    · by_cases refused : answer < 0
      · simp [refused]
      · simp [refused, Int.not_lt.mp refused]

theorem submit_server {inetPton : InetPton} {uri : Bytes} {u : HttpParserUrl}
    (accepted : Accepts uri u) (fits : NoWrap uri) (method : Bytes) (h : HeaderMap) :
    SameServer inetPton ⟨schemeOf uri, hostOf uri, (portIn (hostPort uri)).getD (schemeOf uri)⟩
      (submitNva method u (submitUri inetPton u uri) h) := by
  have parsed := parse_spec accepted fits.toServerFits
  obtain ⟨_, scheme, authority, _, _⟩ := submitNva_fields method u (submitUri inetPton u uri) h
  have host : (submitUri inetPton u uri).host =
      authorityText (inetPton (hostOf uri)) (hostOf uri) (portOf uri) := submitHost_eq parsed fits
  have small := (parsed.port fits.port).2
  constructor
  · rw [scheme]
    exact congrArg some parsed.scheme
  · rw [authority, host]
    unfold portOf at small ⊢
    cases port : portIn (hostPort uri) with
    | none => exact .inl ⟨rfl, rfl⟩
    | some d =>
      rw [port] at small
      obtain ⟨nonempty, digits⟩ := parsed.shape.digits d port
      exact .inr ⟨nonempty, digits, small (portValue d) rfl, rfl⟩

/-- `submit` takes exactly the URIs an application can connect to, as long as nghttp2 accepts
    the request; and where no offset or length wraps around, the request names the server
    connected to. -/
theorem host_service_submit (inetPton : InetPton) (streams : Client.Streams) (method uri : Bytes)
    (h : HeaderMap) (answer : Int) :
    ((Client.submit inetPton streams method uri h answer).isSome =
        ((hostServiceFromUri uri).isSome && decide (0 ≤ answer))) ∧
      ∀ next nva hs, Client.submit inetPton streams method uri h answer = some (next, nva) →
        hostServiceFromUri uri = some hs → NoWrap uri →
          hs.scheme = schemeOf uri ∧ hs.host = hostOf uri ∧ SameServer inetPton hs nva := by
  refine ⟨submit_accepts inetPton streams method uri h answer, ?_⟩
  intro next nva hs submitted found fits
  obtain ⟨u, accepted, rfl, _⟩ := Client.submit_some submitted
  obtain ⟨v, again, rfl⟩ := hostServiceFromUri_some found
  obtain rfl : u = v := Option.some.inj (accepted.1.symm.trans again.1)
  have parsed := parse_spec accepted fits.toServerFits
  rw [service_eq accepted fits, parsed.scheme, parsed.host]
  exact ⟨rfl, rfl, submit_server accepted fits method h⟩

theorem host_service_submit_loopback : ∃ next nva hs,
    Client.submit loopbackOnly ∅ (lit "GET") (lit "http://[::1]:080/a?b") Multimap.empty 1 =
        some (next, nva) ∧ hostServiceFromUri (lit "http://[::1]:080/a?b") = some hs ∧
      SameServer loopbackOnly hs nva := by
  have found : hostServiceFromUri (lit "http://[::1]:080/a?b") =
      some ⟨lit "http", lit "::1", lit "080"⟩ := by decide +kernel
  obtain ⟨accepts, same⟩ := host_service_submit loopbackOnly ∅ (lit "GET")
    (lit "http://[::1]:080/a?b") Multimap.empty 1
  rw [found] at accepts
  obtain ⟨⟨next, nva⟩, submitted⟩ := Option.isSome_iff_exists.mp (accepts.trans rfl)
  have fits : NoWrap (lit "http://[::1]:080/a?b") :=
    ⟨⟨by decide +kernel, by decide +kernel, by decide +kernel⟩, by decide +kernel,
      by decide +kernel, by decide +kernel⟩
  exact ⟨next, nva, _, submitted, found, (same next nva _ submitted found fits).2.2⟩

end Nghttp2Asio
