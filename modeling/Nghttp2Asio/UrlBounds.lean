import Nghttp2Asio.Submit
import Nghttp2Asio.Library.CheckedBuffer

/-!
What the URL parser reads. Offsets and lengths are kept in 16 bits and wrap around in a long
URL, so that the second and the third pass may look at other bytes than those the first one
has seen. They stay inside the URL all the same.
-/
namespace Nghttp2Asio.UrlParser
open CheckedBuffer

/-! The parser with its assertions and with every read checked. -/

inductive Stop where
  | rejected | unexpectedState | noHost | portOverflow | outside
  deriving DecidableEq, Repr

def orRejected {α : Type} : Option α → Except Stop α
  | some a => .ok a
  | none => .error .rejected

theorem orRejected_bind {α β : Type} (x : Option α) (f : α → Option β) :
    orRejected (x.bind f) = (orRejected x).bind (fun a => orRejected (f a)) := by
  cases x <;> rfl

/-- The first pass: `assert(!"Unexpected state")` stands in the last branch of its switch. -/
def Scan.checkedChar (sc : Scan) (p : Nat) (ch : UInt8) : Except Stop Scan :=
  if parseUrlChar sc.state ch = .spacesBeforeUrl then .error .unexpectedState
  else orRejected (sc.char p ch)

def checkedScan (buf : Bytes) (isConnect : Bool) : Except Stop Scan :=
  let start : State := if isConnect then .serverStart else .spacesBeforeUrl
  walk .outside Scan.checkedChar buf ⟨start, .init, none, false⟩ 0 buf.length

def checkedHost (buf : Bytes) (u : HttpParserUrl) (foundAt : Bool) : Except Stop HttpParserUrl :=
  if u.fieldSet .host = false then .error .noHost
  else do
    let start : HostScan := {
      state := if foundAt then .userinfoStart else .hostStart
      url := u.put .host ⟨(u.fieldData .host).off, 0⟩ }
    let hs ← walk .outside (fun hs p ch => orRejected (HostScan.char hs p ch)) buf start
      (u.fieldData .host).off (u.fieldData .host).len
    if hs.state.final then .ok hs.url else .error .rejected

def checkedHostPass (buf : Bytes) (sc : Scan) : Except Stop HttpParserUrl :=
  if sc.url.fieldSet .host then checkedHost buf sc.url sc.foundAt else .ok sc.url

def checkedDigit (v : Nat) (_ : Nat) (c : UInt8) : Except Stop Nat :=
  let v := (((v * 10 % 2 ^ 64 : Nat) + (c.toInt8.toInt - 48)) % 2 ^ 64 : Int).toNat
  if v > 0xffff then .error .rejected else .ok v

def checkedPort (buf : Bytes) (u : HttpParserUrl) : Except Stop HttpParserUrl :=
  if u.fieldSet .port then
    if (u.fieldData .port).off + (u.fieldData .port).len ≤ buf.length then do
      let v ← walk .outside checkedDigit buf 0 (u.fieldData .port).off (u.fieldData .port).len
      .ok { u with port := uint16 v }
    else .error .portOverflow
  else .ok u

def checkedParseUrl (buf : Bytes) (isConnect : Bool) : Except Stop HttpParserUrl :=
  if buf = [] then .error .rejected
  else do
    let sc ← checkedScan buf isConnect
    if sc.url.fieldSet .schema && !sc.url.fieldSet .host then .error .rejected
    else do
      let u ← checkedHostPass buf sc
      if isConnect && !connectOnly u then .error .rejected else checkedPort buf u

/-! Every field ends inside what has been read. -/

def Within (fields : UrlField → Bool) (u : HttpParserUrl) (n : Nat) : Prop :=
  ∀ uf, fields uf = true → (u.fieldData uf).off + (u.fieldData uf).len ≤ n

theorem uint16_le (n : Nat) : uint16 n ≤ n := Nat.mod_le ..

section Within
variable {fields : UrlField → Bool} {u : HttpParserUrl} {m n : Nat}

theorem Within.mono (inside : Within fields u m) (le : m ≤ n) : Within fields u n :=
  fun uf listed => Nat.le_trans (inside uf listed) le

theorem Within.put (inside : Within fields u n) (uf : UrlField) {data : FieldData}
    (room : data.off + data.len ≤ n) : Within fields (u.put uf data) n := by
  intro g listed
  by_cases same : g = uf
  · simpa [HttpParserUrl.put, same] using room
  · simpa [HttpParserUrl.put, same] using inside g listed

theorem Within.grow (inside : Within fields u n) {uf : UrlField} (listed : fields uf = true) :
    Within fields (u.grow uf) (n + 1) := by
  apply (inside.mono (Nat.le_succ n)).put
  have here := inside uf listed
  have wrapped := uint16_le ((u.fieldData uf).len + 1)
  simp only
  omega

end Within

/-! The first pass. -/

def anyField (_ : UrlField) : Bool := true

theorem field_within {sc : Scan} {p : Nat} (inside : Within anyField sc.url p) (uf : UrlField) :
    Within anyField (sc.field p uf).url (p + 1) := by
  unfold Scan.field
  split
  · exact inside.grow rfl
  · refine (inside.mono (Nat.le_succ p)).put uf ?_
    exact Nat.add_le_add_right (uint16_le p) 1

theorem char_within {sc next : Scan} {p : Nat} {ch : UInt8} (inside : Within anyField sc.url p)
    (stepped : sc.char p ch = some next) : Within anyField next.url (p + 1) := by
  rcases char_some stepped with ⟨_, rfl⟩ | ⟨uf, _, rfl⟩
  · exact inside.mono (Nat.le_succ p)
  · apply field_within
    exact inside

theorem loop_within {sc r : Scan} {p : Nat} {w : Bytes} (inside : Within anyField sc.url p)
    (done : sc.loop p w = some r) : Within anyField r.url (p + w.length) := by
  induction w generalizing sc p with
  | nil => exact Option.some.inj done ▸ inside
  | cons ch w ih =>
    obtain ⟨next, stepped, rest⟩ := Option.bind_eq_some_iff.mp done
    have later := ih (char_within inside stepped) rest
    rwa [List.length_cons, Nat.add_comm w.length, ← Nat.add_assoc]

def secondary (uf : UrlField) : Bool := uf = .port || uf = .userinfo

theorem field_primary {s : State} {uf : UrlField} (field : s.field = some uf) :
    secondary uf = false := by
  cases s <;> simp [State.field] at field <;> subst field <;> rfl

theorem char_secondary {sc next : Scan} {p : Nat} {ch : UInt8}
    (empty : Within secondary sc.url 0) (stepped : sc.char p ch = some next) :
    Within secondary next.url 0 := by
  rcases char_some stepped with ⟨_, rfl⟩ | ⟨g, entered, rfl⟩
  · exact empty
  · intro uf listed
    have apart : uf ≠ g := by
      rintro rfl
      rw [field_primary entered] at listed
      contradiction
    have before := empty uf listed
    unfold Scan.advance Scan.field
    split <;> simpa [HttpParserUrl.grow, HttpParserUrl.put, HttpParserUrl.mark, apart] using before

/-! The second pass. -/

def inServer (uf : UrlField) : Bool := uf = .host || secondary uf

def HostState.early : HostState → Bool
  | .userinfoStart | .userinfo | .hostStart | .hostV6Start => true
  | _ => false

/-- The second pass has reset the length of the host and counts it from zero again. -/
structure HostScan.Ready (hs : HostScan) (p : Nat) : Prop where
  inside : Within inServer hs.url p
  uncounted : hs.state.early = true → (hs.url.fieldData .host).len = 0

theorem parse_early {s : HostState} {ch : UInt8}
    (early : (httpParseHostChar s ch).early = true) : s.early = true := by
  cases s <;> simp only [httpParseHostChar] at early <;>
    first
      | rfl
      | (split_ifs at early <;> contradiction)
      | contradiction

theorem parse_enters {s : HostState} {ch : UInt8}
    (host : httpParseHostChar s ch = .host ∨ httpParseHostChar s ch = .hostV6)
    (enters : s ≠ httpParseHostChar s ch) : s.early = true := by
  cases s <;> simp only [httpParseHostChar] at host enters <;>
    first
      | rfl
      | (split_ifs at host enters <;> simp_all)
      | simp at host

theorem move_within {hs : HostScan} {p : Nat} (ready : hs.Ready p) {ch : UInt8}
    (host : httpParseHostChar hs.state ch = .host ∨ httpParseHostChar hs.state ch = .hostV6) :
    Within inServer (hs.move (httpParseHostChar hs.state ch) p) p := by
  unfold HostScan.move
  split
  · rename_i enters
    apply ready.inside.put
    rw [ready.uncounted (parse_enters host enters)]
    exact uint16_le p
  · exact ready.inside

theorem enter_within {hs : HostScan} {p : Nat} (inside : Within inServer hs.url p) (s : HostState)
    (uf : UrlField) : Within inServer (hs.enter s p uf) p := by
  unfold HostScan.enter
  split
  · refine inside.put uf ?_
    exact uint16_le p
  · exact inside

theorem host_char_within {hs next : HostScan} {p : Nat} {ch : UInt8} (ready : hs.Ready p)
    (stepped : hs.char p ch = some next) : Within inServer next.url (p + 1) := by
  have moved := @move_within hs p ready ch
  have entered := @enter_within hs p ready.inside
  have passed := ready.inside.mono (Nat.le_succ p)
  unfold HostScan.char at stepped
  generalize httpParseHostChar hs.state ch = s at *
  cases s <;> simp only [Option.some.injEq, reduceCtorEq] at stepped <;> subst stepped
  case host => exact (moved (.inl rfl)).grow rfl
  case hostV6 => exact (moved (.inr rfl)).grow rfl
  case hostV6ZoneStart | hostV6Zone => exact ready.inside.grow rfl
  case port => exact (entered .port .port).grow rfl
  case userinfo => exact (entered .userinfo .userinfo).grow rfl
  all_goals exact passed

theorem host_char_uncounted {hs next : HostScan} {p : Nat} {ch : UInt8}
    (stepped : hs.char p ch = some next) (early : next.state.early = true) :
    (next.url.fieldData .host).len = (hs.url.fieldData .host).len := by
  unfold HostScan.char at stepped
  generalize httpParseHostChar hs.state ch = s at *
  cases s <;> simp only [Option.some.injEq, reduceCtorEq] at stepped <;> subst stepped <;>
    simp only [HostState.early, Bool.false_eq_true] at early ⊢
  unfold HostScan.enter
  split <;> simp [HttpParserUrl.grow, HttpParserUrl.put, HttpParserUrl.mark]

theorem host_char_ready {hs next : HostScan} {p : Nat} {ch : UInt8} (ready : hs.Ready p)
    (stepped : hs.char p ch = some next) : next.Ready (p + 1) := by
  constructor
  · exact host_char_within ready stepped
  · intro early
    rw [host_char_uncounted stepped early]
    apply ready.uncounted
    rw [(host_char_state stepped).1] at early
    exact parse_early early

theorem host_loop_within {hs r : HostScan} {p : Nat} {w : Bytes} (ready : hs.Ready p)
    (done : hs.loop p w = some r) : Within inServer r.url (p + w.length) := by
  induction w generalizing hs p with
  | nil => exact Option.some.inj done ▸ ready.inside
  | cons ch w ih =>
    obtain ⟨next, stepped, rest⟩ := Option.bind_eq_some_iff.mp done
    have later := ih (host_char_ready ready stepped) rest
    rwa [List.length_cons, Nat.add_comm w.length, ← Nat.add_assoc]

theorem start_ready {u : HttpParserUrl} (empty : Within secondary u 0) (s : HostState) :
    HostScan.Ready ⟨s, u.put .host ⟨(u.fieldData .host).off, 0⟩⟩ (u.fieldData .host).off := by
  constructor
  · intro uf listed
    by_cases host : uf = .host
    · simp [HttpParserUrl.put, host]
    · have second : secondary uf = true := by simpa [inServer, host] using listed
      have before := Nat.eq_zero_of_le_zero (empty uf second)
      simp [HttpParserUrl.put, host, before]
  · intro _
    simp [HttpParserUrl.put]

theorem window_length (u : HttpParserUrl) (buf : Bytes) (uf : UrlField) :
    (u.window buf uf).length ≤ (u.fieldData uf).len := List.length_take_le ..

theorem httpParseHost_within {buf : Bytes} {u v : HttpParserUrl} {f : Bool}
    (inside : Within anyField u buf.length) (empty : Within secondary u 0)
    (done : httpParseHost buf u f = some v) : Within anyField v buf.length := by
  have others := httpParseHost_keeps done
  obtain ⟨hs, loop, done⟩ := Option.bind_eq_some_iff.mp done
  split at done
  swap
  · contradiction
  obtain rfl := Option.some.inj done
  have server := host_loop_within (start_ready empty _) loop
  have end_ : (u.fieldData .host).off + (u.window buf .host).length ≤ buf.length :=
    Nat.le_trans (Nat.add_le_add_left (window_length u buf .host) _) (inside .host rfl)
  intro uf _
  cases listed : inServer uf with
  | true => exact Nat.le_trans (server uf listed) end_
  | false =>
    simp only [inServer, secondary, Bool.or_eq_false_iff, decide_eq_false_iff_not] at listed
    obtain ⟨host, port, userinfo⟩ := listed
    rw [(others uf port userinfo).2 host]
    exact inside uf rfl

/-! No check fails. -/

theorem parse_onward (s : State) (ch : UInt8) : parseUrlChar s ch ≠ .spacesBeforeUrl := by
  have server : serverChar ch ≠ .spacesBeforeUrl := by
    unfold serverChar
    split_ifs <;> simp
  unfold parseUrlChar
  split
  · simp
  · cases s <;> simp only <;> first | exact server | (split_ifs <;> simp [server]) | simp

theorem checkedScan_eq (buf : Bytes) (isConnect : Bool) : checkedScan buf isConnect =
    orRejected (Scan.loop ⟨if isConnect then .serverStart else .spacesBeforeUrl, .init, none, false⟩
      0 buf) := by
  have plain : ∀ (sc : Scan) p ch, sc.checkedChar p ch = orRejected (sc.char p ch) := by
    intro sc p ch
    rw [Scan.checkedChar, if_neg (parse_onward sc.state ch)]
  have loop := @walk_inside UInt8 Stop Scan .outside Scan.checkedChar
    (fun sc p w => orRejected (sc.loop p w)) (fun _ _ => rfl)
    (fun sc p ch w => by rw [plain, Scan.loop, orRejected_bind]) buf 0 buf.length (by omega)
  rw [checkedScan, loop]
  simp

theorem checkedHost_eq {buf : Bytes} {u : HttpParserUrl} (f : Bool)
    (inside : Within anyField u buf.length) (host : u.fieldSet .host = true) :
    checkedHost buf u f = orRejected (httpParseHost buf u f) := by
  have loop := @walk_inside UInt8 Stop HostScan .outside (fun hs p ch => orRejected (hs.char p ch))
    (fun hs p w => orRejected (hs.loop p w)) (fun _ _ => rfl)
    (fun hs p ch w => by rw [HostScan.loop, orRejected_bind]) buf (u.fieldData .host).off
    (u.fieldData .host).len (inside .host rfl)
  rw [checkedHost, if_neg (by simp [host]), httpParseHost, orRejected_bind]
  simp only [loop]
  refine congrArg (Except.bind _) (funext fun hs => ?_)
  split <;> rfl

theorem checkedHostPass_eq {buf : Bytes} {sc : Scan} (inside : Within anyField sc.url buf.length) :
    checkedHostPass buf sc = orRejected (hostPass buf sc) := by
  unfold checkedHostPass hostPass
  split
  · rename_i host
    exact checkedHost_eq sc.foundAt inside host
  · rfl

theorem checkedPort_eq {buf : Bytes} {u : HttpParserUrl} (inside : Within anyField u buf.length) :
    checkedPort buf u = orRejected (parsePort buf u) := by
  have loop := @walk_inside UInt8 Stop Nat .outside checkedDigit
    (fun v _ w => orRejected (portLoop v w)) (fun _ _ => rfl)
    (fun v p c w => by
      simp only [portLoop, checkedDigit]
      split <;> rfl) buf (u.fieldData .port).off (u.fieldData .port).len (inside .port rfl)
  rw [checkedPort, parsePort]
  split
  · rw [if_pos (inside .port rfl), loop]
    change _ = orRejected ((portLoop 0 (u.window buf .port)).map _)
    rw [HttpParserUrl.window]
    cases portLoop 0 _ <;> rfl
  · rfl

theorem init_within (fields : UrlField → Bool) : Within fields .init 0 := fun _ _ => Nat.le_refl 0

theorem scan_within {buf : Bytes} {s : State} {sc : Scan}
    (done : Scan.loop ⟨s, .init, none, false⟩ 0 buf = some sc) :
    Within anyField sc.url buf.length ∧ Within secondary sc.url 0 := by
  constructor
  · rw [← Nat.zero_add buf.length]
    exact loop_within (init_within anyField) done
  · exact loop_invariant (fun sc => Within secondary sc.url 0) (fun _ _ _ _ => char_secondary)
      (init_within secondary) done

theorem hostPass_within {buf : Bytes} {sc : Scan} {u : HttpParserUrl}
    (inside : Within anyField sc.url buf.length) (empty : Within secondary sc.url 0)
    (done : hostPass buf sc = some u) : Within anyField u buf.length := by
  unfold hostPass at done
  split at done
  · exact httpParseHost_within inside empty done
  · exact Option.some.inj done ▸ inside

theorem parse_within {buf : Bytes} {isConnect : Bool} {u : HttpParserUrl}
    (done : httpParserParseUrl buf isConnect = some u) : Within anyField u buf.length := by
  unfold httpParserParseUrl at done
  split at done
  · contradiction
  obtain ⟨sc, scanned, done⟩ := Option.bind_eq_some_iff.mp done
  split at done
  · contradiction
  obtain ⟨v, second, done⟩ := Option.bind_eq_some_iff.mp done
  split at done
  · contradiction
  obtain ⟨inside, empty⟩ := scan_within scanned
  intro uf listed
  rw [(parsePort_sets done).2]
  exact hostPass_within inside empty second uf listed

theorem checkedParseUrl_eq (buf : Bytes) (isConnect : Bool) :
    checkedParseUrl buf isConnect = orRejected (httpParserParseUrl buf isConnect) := by
  unfold checkedParseUrl httpParserParseUrl
  split
  · rfl
  rw [checkedScan_eq]
  simp only
  cases scanned : Scan.loop ⟨if isConnect then .serverStart else .spacesBeforeUrl, .init, none, false⟩
    0 buf with
  | none => rfl
  | some sc =>
    obtain ⟨inside, empty⟩ := scan_within scanned
    change (if _ then _ else _ : Except Stop HttpParserUrl) = orRejected (if _ then _ else _)
    split
    · rfl
    rw [checkedHostPass_eq inside]
    cases server : hostPass buf sc with
    | none => rfl
    | some u =>
      change (if _ then _ else _ : Except Stop HttpParserUrl) = orRejected (if _ then _ else _)
      split
      · rfl
      · exact checkedPort_eq (hostPass_within inside empty server)

/-- On every text, however long, no assertion of the parser fails and no pass reads outside
    the text; and every field of a text that is accepted lies inside it. -/
theorem parse_url_inside (buf : Bytes) (isConnect : Bool) :
    checkedParseUrl buf isConnect = orRejected (httpParserParseUrl buf isConnect) ∧
      ∀ u, httpParserParseUrl buf isConnect = some u →
        ∀ uf, (u.fieldData uf).off + (u.fieldData uf).len ≤ buf.length :=
  ⟨checkedParseUrl_eq buf isConnect, fun _ done uf => parse_within done uf rfl⟩

theorem parse_url_inside_port : ∃ u, httpParserParseUrl (lit "http://a:80/") false = some u ∧
    (u.fieldData .port).off + (u.fieldData .port).len ≤ 12 := by
  obtain ⟨u, parsed⟩ : ∃ u, httpParserParseUrl (lit "http://a:80/") false = some u :=
    Option.isSome_iff_exists.mp (by decide +kernel)
  exact ⟨u, parsed, (parse_url_inside (lit "http://a:80/") false).2 u parsed .port⟩

end Nghttp2Asio.UrlParser
