import Mathlib.Data.List.Induction
import Nghttp2Asio.UrlAuthority

/-!
The URL parser as a whole. Where no offset and no length of a component reaches 2^16,
what the parser finds in a URL are its scheme, host, port, path and query; and the
parser finds a host and a port again in the text that is made of them.
-/
namespace Nghttp2Asio.UrlParser
open Util Automaton

/-! Ports. -/

def portValue (digits : Bytes) : Nat := digits.foldl (fun v c => v * 10 + (c.toNat - 48)) 0

theorem isNum_range {c : UInt8} (digit : isNum c = true) :
    48 ≤ c.toNat ∧ c.toNat ≤ 57 ∧ c.toInt8.toInt = c.toNat := by
  revert c
  decide +kernel

theorem portLoop_digits {v : Nat} {d : Bytes} (small : v ≤ 0xffff)
    (digits : ∀ c ∈ d, isNum c = true) : portLoop v d =
      if d.foldl (fun v c => v * 10 + (c.toNat - 48)) v ≤ 0xffff then
        some (d.foldl (fun v c => v * 10 + (c.toNat - 48)) v)
      else none := by
  have grows : ∀ (d : Bytes) (v : Nat), v ≤ d.foldl (fun v c => v * 10 + (c.toNat - 48)) v := by
    intro d
    induction d with
    | nil => simp
    | cons c d ih =>
      intro v
      have next := ih (v * 10 + (c.toNat - 48))
      rw [List.foldl_cons]
      omega
  induction d generalizing v with
  | nil => simp [portLoop, small]
  | cons c d ih =>
    have step : (((v * 10 % 2 ^ 64 : Nat) + (c.toInt8.toInt - 48)) % 2 ^ 64 : Int).toNat =
        v * 10 + (c.toNat - 48) := by
      obtain ⟨low, high, byte⟩ := isNum_range (digits c (by simp))
      rw [byte]
      omega
    rw [portLoop, List.foldl_cons]
    simp only [step]
    by_cases large : v * 10 + (c.toNat - 48) > 0xffff
    · have final := grows d (v * 10 + (c.toNat - 48))
      rw [if_pos large, if_neg (by omega)]
    · rw [if_neg large]
      exact ih (by omega) (fun b member => digits b (by simp [member]))

theorem utosLoop_spec (n : Nat) : portValue (utosLoop n) = n ∧ (∀ c ∈ utosLoop n, isNum c = true) ∧
    (n ≠ 0 → utosLoop n ≠ []) := by
  induction n using Nat.strongRecOn with
  | ind n ih =>
    rw [utosLoop]
    split
    · rename_i zero
      simp [zero, portValue]
    · rename_i positive
      obtain ⟨value, digits, _⟩ := ih (n / 10) (Nat.div_lt_self (by omega) (by omega))
      have last : ∀ k < 10, (UInt8.ofNat k + zero).toNat - 48 = k ∧
          isNum (UInt8.ofNat k + zero) = true := by decide
      obtain ⟨digit, numeric⟩ := last (n % 10) (Nat.mod_lt n (by omega))
      refine ⟨?_, ?_, by simp⟩
      · rw [portValue] at value ⊢
        rw [List.foldl_append, value, List.foldl_cons, List.foldl_nil, digit]
        omega
      · intro c member
        rcases List.mem_append.mp member with before | final
        · exact digits c before
        · exact List.mem_singleton.mp final ▸ numeric

theorem utos_spec (n : Nat) : portValue (utos n) = n ∧ (∀ c ∈ utos n, isNum c = true) ∧
    utos n ≠ [] := by
  unfold utos
  split
  · rename_i zero
    subst zero
    decide +kernel
  · rename_i positive
    obtain ⟨value, digits, nonempty⟩ := utosLoop_spec n
    exact ⟨value, digits, nonempty positive⟩

theorem utosLoop_length {n k : Nat} (bound : n < 10 ^ k) : (utosLoop n).length ≤ k := by
  induction k generalizing n with
  | zero =>
    obtain rfl : n = 0 := by omega
    rw [utosLoop]
    simp
  | succ k ih =>
    rw [utosLoop]
    split
    · simp
    · have shorter := ih (n := n / 10) (by rw [Nat.pow_succ] at bound; omega)
      simpa using shorter

theorem portValue_bound {d : Bytes} (digits : ∀ c ∈ d, isNum c = true) :
    portValue d < 10 ^ d.length := by
  induction d using List.reverseRecOn with
  | nil => simp [portValue]
  | append_singleton d c ih =>
    obtain ⟨_, high, _⟩ := isNum_range (digits c (by simp))
    have before := ih (fun b member => digits b (by simp [member]))
    rw [portValue] at before ⊢
    rw [List.foldl_append, List.foldl_cons, List.foldl_nil, List.length_append, List.length_singleton,
      Nat.pow_succ]
    omega

theorem utos_length {d : Bytes} (nonempty : d ≠ []) (digits : ∀ c ∈ d, isNum c = true) :
    (utos (portValue d)).length ≤ d.length := by
  have size : 0 < d.length := List.length_pos_iff.mpr nonempty
  unfold utos
  split
  · have one : (lit "0").length = 1 := by decide
    omega
  · exact utosLoop_length (portValue_bound digits)

/-! Where the components stand. -/

def Placed (text : Bytes) (off : Nat) (w : Bytes) : Prop :=
  ∃ before after, text = before ++ (w ++ after) ∧ before.length = off

theorem Placed.trans {text v w : Bytes} {m n : Nat} (outer : Placed text m v) (inner : Placed v n w) :
    Placed text (m + n) w := by
  obtain ⟨b, a, rfl, rfl⟩ := outer
  obtain ⟨b', a', rfl, rfl⟩ := inner
  exact ⟨b ++ b', a' ++ a, by simp, by simp⟩

theorem Placed.window {text w : Bytes} {off : Nat} (placed : Placed text off w) :
    (text.drop off).take w.length = w := by
  obtain ⟨before, after, rfl, rfl⟩ := placed
  rw [List.drop_left, List.take_left]

/-- The offset and the length of a component that is there are 16-bit numbers. -/
def Fits (off : Nat) (w : Bytes) : Prop := w ≠ [] → off < 2 ^ 16 ∧ w.length < 2 ^ 16

instance (off : Nat) (w : Bytes) : Decidable (Fits off w) := inferInstanceAs (Decidable (_ → _))

theorem window_of_data {u : HttpParserUrl} {uri w : Bytes} {uf : UrlField} {off : Nat}
    (data : u.fieldData uf = ⟨uint16 off, uint16 w.length⟩) (placed : Placed uri off w)
    (fits : Fits off w) (nonempty : w ≠ []) : u.window uri uf = w := by
  obtain ⟨small, short⟩ := fits nonempty
  rw [HttpParserUrl.window, data, uint16_of_lt small, uint16_of_lt short]
  exact placed.window

/-! Components of a whole URL. -/

def hostPort (uri : Bytes) : Bytes := hostPortOf (authorityOf uri)

def hostPortStart (uri : Bytes) : Nat := authorityOff uri + hostPortOff (authorityOf uri)

def hostOf (uri : Bytes) : Bytes := hostIn (hostPort uri)

def hostOff (uri : Bytes) : Nat :=
  if bracketed (hostPort uri) then hostPortStart uri + 1 else hostPortStart uri

def portDigits (uri : Bytes) : Bytes := (portIn (hostPort uri)).getD []

def portOff (uri : Bytes) : Nat :=
  hostPortStart uri + ((hostPort uri).length - (portDigits uri).length)

def portOf (uri : Bytes) : Option Nat := (portIn (hostPort uri)).map portValue

structure ServerFits (uri : Bytes) : Prop where
  scheme : Fits 0 (schemeOf uri)
  authority : Fits (authorityOff uri) (authorityOf uri)
  host : Fits (hostOff uri) (hostOf uri)

/-- No recorded offset or length of a component reaches 2^16. -/
structure NoWrap (uri : Bytes) : Prop extends ServerFits uri where
  port : Fits (portOff uri) (portDigits uri)
  path : Fits (pathOff uri) (pathOf uri)
  query : Fits (queryOff uri) (queryOf uri)

theorem placed_authority {uri : Bytes} {sc : Scan} (scanned : Scanned uri sc) :
    Placed uri (authorityOff uri) (authorityOf uri) := by
  refine ⟨schemeOf uri ++ [colon, slash, slash], afterAuthority uri, ?_, by simp [authorityOff]⟩
  have split : authorityOf uri ++ afterAuthority uri = hierarchyOf uri :=
    List.takeWhile_append_dropWhile
  rw [split, List.append_assoc]
  exact scanned.text

theorem placed_tail {uri : Bytes} {sc : Scan} (scanned : Scanned uri sc) :
    Placed uri (pathOff uri) (pathOf uri ++ (afterAuthority uri).dropWhile inPath) := by
  have path : pathOf uri ++ (afterAuthority uri).dropWhile inPath = afterAuthority uri :=
    List.takeWhile_append_dropWhile
  have split : authorityOf uri ++ afterAuthority uri = hierarchyOf uri :=
    List.takeWhile_append_dropWhile
  refine ⟨schemeOf uri ++ ([colon, slash, slash] ++ authorityOf uri), [], ?_, ?_⟩
  · rw [path, List.append_nil, List.append_assoc, List.append_assoc, split]
    exact scanned.text
  · simp [pathOff, authorityOff]
    omega

theorem placed_path {uri : Bytes} {sc : Scan} (scanned : Scanned uri sc) :
    Placed uri (pathOff uri) (pathOf uri) :=
  (placed_tail scanned).trans (n := 0) ⟨[], _, rfl, rfl⟩

theorem placed_query {uri : Bytes} {sc : Scan} (scanned : Scanned uri sc)
    (some_query : queryOf uri ≠ []) : Placed uri (queryOff uri) (queryOf uri) := by
  obtain ⟨rest, left⟩ : ∃ rest, (afterAuthority uri).dropWhile inPath = question :: rest := by
    cases left : (afterAuthority uri).dropWhile inPath with
    | nil => simp [queryOf, left, queryIn] at some_query
    | cons c rest =>
      by_cases is_query : c = question
      · exact ⟨rest, by rw [is_query]⟩
      · simp [queryOf, left, queryIn, is_query] at some_query
  have query : queryOf uri = rest.takeWhile (· ≠ hash) := by
    rw [queryOf, left, queryIn, if_pos rfl]
  have inner : Placed (pathOf uri ++ (afterAuthority uri).dropWhile inPath)
      ((pathOf uri).length + 1) (queryOf uri) := by
    refine ⟨pathOf uri ++ [question], rest.dropWhile (· ≠ hash), ?_, by simp⟩
    rw [left, query, List.takeWhile_append_dropWhile]
    simp
  exact (placed_tail scanned).trans inner

theorem placed_hostPort (a : Bytes) : Placed a (hostPortOff a) (hostPortOf a) := by
  have suffix : hostPortOf a <:+ a := by
    unfold hostPortOf
    split
    · exact (List.drop_suffix 1 _).trans (List.dropWhile_suffix _)
    · exact List.suffix_refl a
  obtain ⟨before, split⟩ := suffix
  refine ⟨before, [], by simp [split], ?_⟩
  have sizes := congrArg List.length split
  rw [List.length_append] at sizes
  unfold hostPortOff
  omega

theorem placed_host {hp : Bytes} (shape : HostPort hp) :
    Placed hp (if bracketed hp then 1 else 0) (hostIn hp) := by
  have text := shape.text
  cases bracket : bracketed hp with
  | false =>
    rw [bracket] at text
    exact ⟨[], portText (portIn hp), by simpa using text, rfl⟩
  | true =>
    rw [bracket] at text
    exact ⟨[leftBracket], rightBracket :: portText (portIn hp), by simpa using text, rfl⟩

theorem placed_port {hp d : Bytes} (shape : HostPort hp) (port : portIn hp = some d) :
    Placed hp (hp.length - d.length) d := by
  have text := shape.text
  rw [port, portText] at text
  generalize (if bracketed hp then leftBracket :: (hostIn hp ++ [rightBracket]) else hostIn hp) =
    before at text
  refine ⟨before ++ [colon], [], by simpa using text, ?_⟩
  have sizes := congrArg List.length text
  simp only [List.length_append, List.length_cons, List.length_nil] at sizes ⊢
  omega

def copyUrlComponent (u : HttpParserUrl) (uf : UrlField) (url : Bytes) : Bytes :=
  if u.fieldSet uf then u.window url uf else []

def Accepts (uri : Bytes) (u : HttpParserUrl) : Prop :=
  httpParserParseUrl uri false = some u ∧ u.fieldSet .schema = true ∧ u.fieldSet .host = true

structure Parsed (uri : Bytes) (u : HttpParserUrl) : Prop where
  letters : ∀ c ∈ schemeOf uri, isAlpha c = true
  named : schemeOf uri ≠ []
  shape : HostPort (hostPort uri)
  scheme : copyUrlComponent u .schema uri = schemeOf uri
  host : copyUrlComponent u .host uri = hostOf uri
  path : Fits (pathOff uri) (pathOf uri) → copyUrlComponent u .path uri = pathOf uri
  query : Fits (queryOff uri) (queryOf uri) → copyUrlComponent u .query uri = queryOf uri
  query_set : u.fieldSet .query = decide (queryOf uri ≠ [])
  port : Fits (portOff uri) (portDigits uri) →
    (if u.fieldSet .port then some u.port else none) = portOf uri ∧
      ∀ n, portOf uri = some n → n ≤ 0xffff

theorem copy_found {u : HttpParserUrl} {uri w : Bytes} {uf : UrlField} {off : Nat}
    (found : Found u uf off w) (placed : w ≠ [] → Placed uri off w) (fits : Fits off w) :
    copyUrlComponent u uf uri = w := by
  unfold copyUrlComponent
  rw [found.1]
  by_cases nonempty : w ≠ []
  · rw [if_pos (by simpa using nonempty)]
    exact window_of_data (found.2 nonempty) (placed nonempty) fits nonempty
  · rw [if_neg (by simpa using nonempty)]
    push Not at nonempty
    exact nonempty.symm

theorem copy_length {u : HttpParserUrl} {w : Bytes} {uf : UrlField} {off : Nat}
    (found : Found u uf off w) (uri : Bytes) : (copyUrlComponent u uf uri).length ≤ uint16 w.length := by
  unfold copyUrlComponent
  rw [found.1]
  by_cases nonempty : w ≠ []
  · rw [if_pos (by simpa using nonempty), HttpParserUrl.window, found.2 nonempty]
    exact List.length_take_le _ _
  · rw [if_neg (by simpa using nonempty)]
    exact Nat.zero_le _

theorem copy_before {u : HttpParserUrl} {w : Bytes} {uf : UrlField} {off : Nat}
    (found : Found u uf off w) (uri : Bytes) :
    copyUrlComponent u uf uri ⊆ uri.take (off + w.length) := by
  have wrapped : ∀ n, uint16 n ≤ n := fun n => Nat.mod_le _ _
  unfold copyUrlComponent
  rw [found.1]
  by_cases nonempty : w ≠ []
  · rw [if_pos (by simpa using nonempty), HttpParserUrl.window, found.2 nonempty]
    have cut : (uri.drop (uint16 off)).take (uint16 w.length) =
        (uri.take (uint16 off + uint16 w.length)).drop (uint16 off) := by
      rw [List.drop_take, Nat.add_sub_cancel_left]
    rw [cut]
    intro c member
    exact List.take_subset_take_left _ (Nat.add_le_add (wrapped _) (wrapped _))
      (List.drop_subset _ _ member)
  · rw [if_neg (by simpa using nonempty)]
    exact List.nil_subset _

theorem parsePort_sets {buf : Bytes} {u v : HttpParserUrl} (done : parsePort buf u = some v) :
    v.fieldSet = u.fieldSet ∧ v.fieldData = u.fieldData := by
  unfold parsePort at done
  split at done
  · obtain ⟨n, _, rfl⟩ := Option.map_eq_some_iff.mp done
    exact ⟨rfl, rfl⟩
  · obtain rfl := Option.some.inj done
    exact ⟨rfl, rfl⟩

theorem accepts_inv {uri : Bytes} {u : HttpParserUrl} (accepted : Accepts uri u) :
    ∃ sc v, Scan.start.loop 0 uri = some sc ∧ Scanned uri sc ∧
      httpParseHost uri sc.url sc.foundAt = some v ∧ parsePort uri v = some u ∧
      ∀ uf, uf ≠ .host → uf ≠ .port → uf ≠ .userinfo →
        u.fieldSet uf = sc.url.fieldSet uf ∧ u.fieldData uf = sc.url.fieldData uf := by
  obtain ⟨parsed, schema, host⟩ := accepted
  unfold httpParserParseUrl at parsed
  split at parsed
  · contradiction
  obtain ⟨sc, loop, parsed⟩ := Option.bind_eq_some_iff.mp parsed
  split at parsed
  · contradiction
  obtain ⟨v, second, parsed⟩ := Option.bind_eq_some_iff.mp parsed
  simp only [Bool.false_and, Bool.false_eq_true, ↓reduceIte] at parsed
  obtain ⟨sets, data⟩ := parsePort_sets parsed
  unfold hostPass at second
  split at second
  · rename_i host_set
    have kept : ∀ uf, uf ≠ .host → uf ≠ .port → uf ≠ .userinfo →
        u.fieldSet uf = sc.url.fieldSet uf ∧ u.fieldData uf = sc.url.fieldData uf := by
      intro uf not_host not_port not_info
      obtain ⟨same_set, same_data⟩ := httpParseHost_keeps second uf not_port not_info
      rw [sets, data]
      exact ⟨same_set, same_data not_host⟩
    have schema_set : sc.url.fieldSet .schema = true := by
      rw [← (kept .schema (by decide) (by decide) (by decide)).1, schema]
    exact ⟨sc, v, loop, scan_spec loop schema_set host_set, second, parsed, kept⟩
  · rename_i no_host
    obtain rfl := Option.some.inj second
    rw [sets] at host
    exact absurd host no_host

/-- What is recorded of the components outside the authority, whatever wraps around. -/
theorem accepts_found {uri : Bytes} {u : HttpParserUrl} (accepted : Accepts uri u) :
    Found u .schema 0 (schemeOf uri) ∧ Found u .path (pathOff uri) (pathOf uri) ∧
      Found u .query (queryOff uri) (queryOf uri) := by
  obtain ⟨sc, _, _, scanned, _, _, kept⟩ := accepts_inv accepted
  exact ⟨scanned.schema.congr (kept .schema (by decide) (by decide) (by decide)),
    scanned.path.congr (kept .path (by decide) (by decide) (by decide)),
    scanned.query.congr (kept .query (by decide) (by decide) (by decide))⟩

theorem placed_scheme {uri : Bytes} {sc : Scan} (scanned : Scanned uri sc) :
    Placed uri 0 (schemeOf uri) := ⟨[], _, scanned.text, rfl⟩

theorem parsePort_spec {uri hp : Bytes} {v u : HttpParserUrl} {p : Nat}
    (done : parsePort uri v = some u) (shape : HostPort hp) (found : HostFound v p hp)
    (placed : Placed uri p hp)
    (fits : Fits (p + (hp.length - ((portIn hp).getD []).length)) ((portIn hp).getD [])) :
    (if u.fieldSet .port then some u.port else none) = (portIn hp).map portValue ∧
      ∀ n, (portIn hp).map portValue = some n → n ≤ 0xffff := by
  have sets := (parsePort_sets done).1
  have port_set := found.port_set
  cases port : portIn hp with
  | none =>
    rw [port] at port_set
    simp [sets, port_set]
  | some d =>
    rw [port] at port_set fits
    obtain ⟨nonempty, digits⟩ := shape.digits d port
    have window : v.window uri .port = d :=
      window_of_data (found.port d port) (placed.trans (placed_port shape port)) fits nonempty
    unfold parsePort at done
    rw [if_pos (by simpa using port_set), window, portLoop_digits (by omega) digits] at done
    split at done
    · rename_i small
      obtain ⟨n, value, rfl⟩ := Option.map_eq_some_iff.mp done
      obtain rfl := Option.some.inj value
      have fits16 : uint16 (portValue d) = portValue d := uint16_of_lt (Nat.lt_succ_of_le small)
      refine ⟨?_, ?_⟩
      · simp only [port_set, Option.isSome_some, ↓reduceIte, Option.map_some]
        exact congrArg some fits16
      · intro n same
        obtain rfl : portValue d = n := by simpa using same
        exact small
    · simp at done

/-- Where nothing wraps around, the parser reports the components of every URL it accepts. -/
theorem parse_spec {uri : Bytes} {u : HttpParserUrl} (accepted : Accepts uri u) (fits : ServerFits uri) :
    Parsed uri u := by
  obtain ⟨sc, v, loop, scanned, second, third, _⟩ := accepts_inv accepted
  obtain ⟨found_scheme, found_path, found_query⟩ := accepts_found accepted
  obtain ⟨sets, data⟩ := parsePort_sets third
  have small := (fits.authority scanned.server).1
  have window : sc.url.window uri .host = authorityOf uri :=
    window_of_data (scanned.host.2 scanned.server) (placed_authority scanned) fits.authority
      scanned.server
  rw [scanned.found_at] at second
  obtain ⟨shape, found⟩ := httpParseHost_spec window scanned.no_port second
  change HostPort (hostPort uri) at shape
  have start : (sc.url.fieldData .host).off = authorityOff uri := by
    rw [scanned.host.2 scanned.server]
    exact uint16_of_lt small
  rw [start] at found
  change HostFound v (hostPortStart uri) (hostPort uri) at found
  have placed : Placed uri (hostPortStart uri) (hostPort uri) :=
    (placed_authority scanned).trans (placed_hostPort (authorityOf uri))
  refine {
    letters := scanned.letters
    named := scanned.named
    shape := shape
    scheme := copy_found found_scheme (fun _ => placed_scheme scanned) fits.scheme
    host := ?_
    path := copy_found found_path (fun _ => placed_path scanned)
    query := copy_found found_query (placed_query scanned)
    query_set := found_query.1
    port := parsePort_spec third shape found placed }
  have host_set : u.fieldSet .host = true := accepted.2.2
  have placed_at : Placed uri (hostOff uri) (hostOf uri) := by
    have inner := placed.trans (placed_host shape)
    unfold hostOff
    split
    · rename_i bracket
      rwa [if_pos bracket] at inner
    · rename_i bracket
      rwa [if_neg bracket] at inner
  rw [copyUrlComponent, if_pos host_set]
  refine window_of_data ?_ placed_at fits.host shape.nonempty
  rw [data]
  exact found.host

/-! A URL made of a scheme and an authority. -/

def targetText (scheme authority : Bytes) : Bytes :=
  scheme ++ ([colon, slash, slash] ++ (authority ++ [slash]))

def isServerChar (c : UInt8) : Bool :=
  isHostChar c || isV6Char c || isZoneChar c || c = leftBracket || c = rightBracket

theorem schema_letter {c : UInt8} (letter : isAlpha c = true) :
    parseUrlChar .spacesBeforeUrl c = .schema ∧ parseUrlChar .schema c = .schema ∧ c ≠ colon := by
  revert c
  decide +kernel

theorem server_letter {c : UInt8} (letter : isServerChar c = true) :
    parseUrlChar .serverStart c = .server ∧ parseUrlChar .server c = .server ∧
      inAuthority c = true ∧ c ≠ atSign := by
  revert c
  decide +kernel

theorem server_unsigned {a : Bytes} (server : ∀ c ∈ a, isServerChar c = true) :
    a.contains atSign = false := by
  simp only [List.contains_eq_mem, decide_eq_false_iff_not]
  intro member
  exact (server_letter (server atSign member)).2.2.2 rfl

theorem loop_delimiters (sc : Scan) (p : Nat) (rest : Bytes) (start : sc.state = .schema) :
    sc.loop p ([colon, slash, slash] ++ rest) =
      Scan.loop { sc with state := .serverStart } (p + 1 + 1 + 1) rest := by
  obtain ⟨s, url, old, f⟩ := sc
  obtain rfl : s = .schema := start
  have first : parseUrlChar .schema colon = .schemaSlash := by decide
  have second : parseUrlChar .schemaSlash slash = .schemaSlashSlash := by decide
  have third : parseUrlChar .schemaSlashSlash slash = .serverStart := by decide
  simp only [List.cons_append, List.nil_append, Scan.loop]
  rw [char_delimiter p (by simp only [first]; rfl), Option.bind_some]
  simp only [first]
  rw [char_delimiter (p + 1) (by simp only [second]; rfl), Option.bind_some]
  simp only [second]
  rw [char_delimiter (p + 1 + 1) (by simp only [third]; rfl), Option.bind_some]
  simp only [third]

section Target
variable {scheme authority : Bytes} (letters : ∀ c ∈ scheme, isAlpha c = true)
  (named : scheme ≠ []) (server : ∀ c ∈ authority, isServerChar c = true)
include letters

theorem schemeOf_target : schemeOf (targetText scheme authority) = scheme := by
  have apart : ∀ c ∈ scheme, decide (c ≠ colon) = true := by
    intro c member
    simpa using (schema_letter (letters c member)).2.2
  rw [schemeOf, targetText, List.takeWhile_append_of_pos apart]
  simp

theorem hierarchyOf_target : hierarchyOf (targetText scheme authority) = authority ++ [slash] := by
  rw [hierarchyOf, schemeOf_target letters, targetText, ← List.drop_drop, List.drop_left]
  rfl

theorem authorityOff_target : authorityOff (targetText scheme authority) = scheme.length + 3 := by
  rw [authorityOff, schemeOf_target letters]

include server

theorem authorityOf_target : authorityOf (targetText scheme authority) = authority := by
  rw [authorityOf, hierarchyOf_target letters, List.takeWhile_append_of_pos (fun c member =>
    (server_letter (server c member)).2.2.1)]
  have stop : inAuthority slash = false := by decide
  simp [stop]

theorem hostPort_target : hostPort (targetText scheme authority) = authority := by
  rw [hostPort, authorityOf_target letters server, hostPortOf, server_unsigned server,
    if_neg (by simp)]

theorem hostPortStart_target : hostPortStart (targetText scheme authority) = scheme.length + 3 := by
  rw [hostPortStart, authorityOff_target letters, authorityOf_target letters server, hostPortOff,
    hostPortOf, server_unsigned server]
  simp

theorem target_fits (short : scheme.length < 2 ^ 16) (reach : authority.length < 2 ^ 16)
    (start : scheme.length + (if bracketed authority then 4 else 3) < 2 ^ 16) :
    ServerFits (targetText scheme authority) := by
  have host : (hostIn authority).length ≤ authority.length := by
    unfold hostIn
    split
    · exact ((List.takeWhile_sublist _).trans (List.drop_sublist 1 _)).length_le
    · exact (List.takeWhile_sublist _).length_le
  constructor
  · rw [schemeOf_target letters]
    exact fun _ => ⟨by omega, short⟩
  · rw [authorityOff_target letters, authorityOf_target letters server]
    refine fun _ => ⟨?_, reach⟩
    split at start <;> omega
  · rw [hostOff, hostOf, hostPortStart_target letters server, hostPort_target letters server]
    refine fun _ => ⟨?_, by omega⟩
    split at start
    · rename_i bracket
      rw [if_pos bracket]
      omega
    · rename_i bracket
      rw [if_neg bracket]
      omega

include named

theorem scan_target (nonempty : authority ≠ []) :
    ∃ sc, Scan.start.loop 0 (targetText scheme authority) = some sc ∧
      sc.url.fieldSet .schema = true ∧ sc.url.fieldSet .host = true := by
  have scheme_stays : Stays parseUrlChar (· = .schema) Scan.start.state scheme :=
    stays_enters (fun c member => ⟨(schema_letter (letters c member)).1,
      (schema_letter (letters c member)).2.1⟩)
  have server_stays : Stays parseUrlChar (· = .server) .serverStart authority :=
    stays_enters (fun c member => ⟨(server_letter (server c member)).1,
      (server_letter (server c member)).2.1⟩)
  have in_scheme : scheme.foldl parseUrlChar Scan.start.state = .schema :=
    foldl_enters named (fun c member => ⟨(schema_letter (letters c member)).1,
      (schema_letter (letters c member)).2.1⟩)
  have in_server : authority.foldl parseUrlChar .serverStart = .server :=
    foldl_enters nonempty (fun c member => ⟨(server_letter (server c member)).1,
      (server_letter (server c member)).2.1⟩)
  have path : (parseUrlChar .server slash).field = some .path := by decide
  rw [targetText, loop_enters (by rintro s rfl; rfl) named scheme_stays (by decide), in_scheme,
    loop_delimiters _ _ _ rfl, loop_enters (by rintro s rfl; rfl) nonempty server_stays (by simp [Scan.inside]),
    in_server]
  simp only [Scan.loop]
  rw [char_field _ path, Option.bind_some]
  refine ⟨_, rfl, ?_, ?_⟩ <;>
    simp [Scan.advance, Scan.field, Scan.inside, HttpParserUrl.put, HttpParserUrl.mark]

end Target

theorem name_letter {c : UInt8} (letter : isHostChar c = true) :
    c ≠ colon ∧ c ≠ leftBracket ∧ isServerChar c = true := by
  revert c
  decide +kernel

theorem literal_letter {c : UInt8} (letter : isV6Char c = true ∨ isZoneChar c = true) :
    c ≠ leftBracket ∧ c ≠ rightBracket ∧ isServerChar c = true := by
  revert c
  decide +kernel

theorem digit_letter {c : UInt8} (digit : isNum c = true) : isServerChar c = true := by
  revert c
  decide +kernel

theorem plain_parts {bracket : Bool} {host : Bytes} (port : Option Bytes)
    (plain : PlainHost bracket host) : bracketed (hostText bracket host ++ portText port) = bracket ∧
      hostIn (hostText bracket host ++ portText port) = host ∧
      portIn (hostText bracket host ++ portText port) = port := by
  obtain ⟨nonempty, letters⟩ := plain
  have port_of : ∀ hp, afterHost hp = portText port → portIn hp = port :=
    fun hp => portIn_of_afterHost
  cases bracket with
  | true =>
    have inside : ∀ c ∈ host, decide (c ≠ rightBracket) = true := by
      intro c member
      simpa using (literal_letter (.inl (letters c member))).2.1
    have opens : bracketed (hostText true host ++ portText port) = true := by
      simp [hostText, bracketed]
    refine ⟨opens, ?_, port_of _ ?_⟩
    · rw [hostIn, opens, if_pos rfl]
      simp only [hostText, ↓reduceIte, List.cons_append, List.drop_succ_cons, List.drop_zero,
        List.append_assoc]
      rw [List.takeWhile_append_of_pos inside]
      simp
    · rw [afterHost, opens, if_pos rfl]
      simp only [hostText, ↓reduceIte, List.cons_append, List.drop_succ_cons, List.drop_zero,
        List.append_assoc]
      rw [List.dropWhile_append_of_pos inside]
      simp
  | false =>
    have inside : ∀ c ∈ host, decide (c ≠ colon) = true := by
      intro c member
      simpa using (name_letter (letters c member)).1
    have opens : bracketed (hostText false host ++ portText port) = false := by
      obtain ⟨c, rest, rfl⟩ := List.exists_cons_of_ne_nil nonempty
      simpa [hostText, bracketed] using (name_letter (letters c (by simp))).2.1
    refine ⟨opens, ?_, port_of _ ?_⟩
    · rw [hostIn, opens, if_neg (by simp), hostText, if_neg (by simp),
        List.takeWhile_append_of_pos inside]
      cases port <;> simp [portText]
    · rw [afterHost, opens, if_neg (by simp), hostText, if_neg (by simp),
        List.dropWhile_append_of_pos inside]
      cases port <;> simp [portText]

def authorityText (bracket : Bool) (host : Bytes) (port : Option Nat) : Bytes :=
  hostText bracket host ++ portText (port.map utos)

theorem authorityText_server (bracket : Bool) {host : Bytes} (port : Option Nat)
    (letters : ∀ c ∈ host, isServerChar c = true) :
    ∀ c ∈ authorityText bracket host port, isServerChar c = true := by
  have brackets : isServerChar leftBracket = true ∧ isServerChar rightBracket = true ∧
      isServerChar colon = true := by decide
  have text : ∀ c ∈ hostText bracket host, isServerChar c = true := by
    intro c member
    cases bracket with
    | false => exact letters c member
    | true =>
      simp only [hostText, ↓reduceIte, List.mem_cons, List.mem_append, List.not_mem_nil,
        or_false] at member
      rcases member with rfl | inner | rfl
      · exact brackets.1
      · exact letters c inner
      · exact brackets.2.1
  intro c member
  rcases List.mem_append.mp member with host_part | port_part
  · exact text c host_part
  · cases port with
    | none => simp [portText] at port_part
    | some n =>
      rcases List.mem_cons.mp port_part with rfl | digit
      · exact brackets.2.2
      · exact digit_letter ((utos_spec n).2.1 c digit)

theorem plain_server {bracket : Bool} {host : Bytes} (plain : PlainHost bracket host) :
    ∀ c ∈ host, isServerChar c = true := by
  intro c member
  have letter := plain.2 c member
  cases bracket with
  | true => exact (literal_letter (.inl letter)).2.2
  | false => exact (name_letter letter).2.2

theorem parsePort_some {uri hp : Bytes} {v : HttpParserUrl} {p : Nat} {port : Option Nat}
    (shape : HostPort hp) (found : HostFound v p hp) (placed : Placed uri p hp)
    (digits : portIn hp = port.map utos) (small : ∀ n, port = some n → n ≤ 0xffff)
    (fits : Fits (p + (hp.length - ((portIn hp).getD []).length)) ((portIn hp).getD [])) :
    ∃ u, parsePort uri v = some u := by
  have port_set := found.port_set
  unfold parsePort
  cases port with
  | none =>
    rw [digits] at port_set
    exact ⟨v, by rw [if_neg (by simp [port_set])]⟩
  | some n =>
    have port : portIn hp = some (utos n) := digits
    rw [port] at port_set fits
    obtain ⟨value, numeric, nonempty⟩ := utos_spec n
    have window : v.window uri .port = utos n :=
      window_of_data (found.port _ port) (placed.trans (placed_port shape port)) fits nonempty
    rw [if_pos (by simpa using port_set), window, portLoop_digits (by omega) numeric]
    rw [portValue] at value
    rw [value, if_pos (small n rfl)]
    exact ⟨_, rfl⟩

/-- The text made of a scheme, a plain host and a port is accepted again, with the same
    scheme, host and port. -/
theorem parse_target {scheme host : Bytes} {bracket : Bool} {port : Option Nat}
    (letters : ∀ c ∈ scheme, isAlpha c = true) (named : scheme ≠ [])
    (plain : PlainHost bracket host) (small : ∀ n, port = some n → n ≤ 0xffff)
    (fits : ServerFits (targetText scheme (authorityText bracket host port)))
    (port_fits : Fits (portOff (targetText scheme (authorityText bracket host port)))
      (portDigits (targetText scheme (authorityText bracket host port)))) :
    ∃ u, Accepts (targetText scheme (authorityText bracket host port)) u := by
  have server := authorityText_server bracket port (plain_server plain)
  obtain ⟨is_bracket, is_host, is_port⟩ := plain_parts (port.map utos) plain
  have digits : ∀ d, port.map utos = some d → d ≠ [] ∧ ∀ c ∈ d, isNum c = true := by
    intro d same
    obtain ⟨n, _, rfl⟩ := Option.map_eq_some_iff.mp same
    exact ⟨(utos_spec n).2.2, (utos_spec n).2.1⟩
  have nonempty : authorityText bracket host port ≠ [] := by
    intro empty
    obtain ⟨no_host, _⟩ := List.append_eq_nil_iff.mp empty
    cases bracket with
    | true => simp [hostText] at no_host
    | false => exact plain.1 no_host
  change portIn (authorityText bracket host port) = port.map utos at is_port
  have authority := authorityOf_target letters server
  have host_port := hostPort_target letters server
  obtain ⟨sc, loop, schema, host_set⟩ := scan_target letters named server nonempty
  generalize targetText scheme (authorityText bracket host port) = text at *
  have scanned := scan_spec loop schema host_set
  have window : sc.url.window text .host = authorityOf text :=
    window_of_data (scanned.host.2 scanned.server) (placed_authority scanned) fits.authority
      scanned.server
  have unsigned : (authorityOf text).contains atSign = false := authority ▸ server_unsigned server
  obtain ⟨v, second⟩ := httpParseHost_some plain digits (window.trans authority)
  obtain ⟨shape, found⟩ := httpParseHost_spec window scanned.no_port (unsigned ▸ second)
  have start : (sc.url.fieldData .host).off = authorityOff text := by
    rw [scanned.host.2 scanned.server]
    exact uint16_of_lt (fits.authority scanned.server).1
  rw [start] at found
  change HostPort (hostPort text) at shape
  change HostFound v (hostPortStart text) (hostPort text) at found
  have placed : Placed text (hostPortStart text) (hostPort text) :=
    (placed_authority scanned).trans (placed_hostPort (authorityOf text))
  obtain ⟨u, third⟩ := parsePort_some shape found placed (host_port ▸ is_port) small port_fits
  have sets := (parsePort_sets third).1
  have host_kept := (httpParseHost_keeps second .host (by decide) (by decide)).1
  have schema_kept := (httpParseHost_keeps second .schema (by decide) (by decide)).1
  have some_text : text ≠ [] := by
    rintro rfl
    exact scanned.server rfl
  refine ⟨u, ?_, by rw [sets, schema_kept, schema], by rw [sets, host_kept, host_set]⟩
  have found_at : sc.foundAt = false := scanned.found_at.trans unsigned
  unfold httpParserParseUrl
  rw [if_neg some_text]
  change (Scan.start.loop 0 text).bind _ = some u
  rw [loop, Option.bind_some]
  simp only [schema, host_set, hostPass, found_at, Bool.not_true, Bool.and_false, Bool.false_eq_true,
    ↓reduceIte, second, Bool.false_and]
  exact third

end Nghttp2Asio.UrlParser
