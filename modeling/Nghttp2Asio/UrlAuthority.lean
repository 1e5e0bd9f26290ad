import Nghttp2Asio.UrlGrammar

/-!
The second pass of the URL parser, over the authority: an optional user info, a host
that is a name or stands in brackets, and an optional port.
-/
namespace Nghttp2Asio.UrlParser
open Automaton

/-! Components of an authority. -/

def hostPortOf (a : Bytes) : Bytes :=
  if a.contains atSign then (a.dropWhile (· ≠ atSign)).drop 1 else a

def bracketed (hp : Bytes) : Bool := hp.head? = some leftBracket

def hostIn (hp : Bytes) : Bytes :=
  if bracketed hp then (hp.drop 1).takeWhile (· ≠ rightBracket) else hp.takeWhile (· ≠ colon)

def afterHost (hp : Bytes) : Bytes :=
  if bracketed hp then ((hp.drop 1).dropWhile (· ≠ rightBracket)).drop 1
  else hp.dropWhile (· ≠ colon)

def portIn (hp : Bytes) : Option Bytes :=
  match afterHost hp with
  | [] => none
  | _ :: digits => some digits

/-! The second pass. -/

def HostState.field : HostState → Option UrlField
  | .host | .hostV6 | .hostV6ZoneStart | .hostV6Zone => some .host
  | .port => some .port
  | .userinfo => some .userinfo
  | _ => none

def HostState.grows (s next : HostState) : Bool :=
  next = s || next = .hostV6ZoneStart || next = .hostV6Zone

theorem host_parse_dead (ch : UInt8) : httpParseHostChar .dead ch = .dead := rfl

theorem host_char_grow {hs : HostScan} {ch : UInt8} {uf : UrlField} (p : Nat)
    (field : (httpParseHostChar hs.state ch).field = some uf)
    (grows : hs.state.grows (httpParseHostChar hs.state ch) = true) :
    hs.char p ch = some ⟨httpParseHostChar hs.state ch, hs.url.grow uf⟩ := by
  unfold HostScan.char HostScan.move HostScan.enter
  generalize httpParseHostChar hs.state ch = s at *
  cases s <;> simp_all [HostState.field, HostState.grows]

theorem host_char_state {hs next : HostScan} {p : Nat} {ch : UInt8}
    (stepped : hs.char p ch = some next) :
    next.state = httpParseHostChar hs.state ch ∧ next.state ≠ .dead := by
  unfold HostScan.char at stepped
  generalize httpParseHostChar hs.state ch = s at *
  cases s <;> simp at stepped <;> simp [← stepped]

theorem host_char_some {hs : HostScan} {p : Nat} {ch : UInt8}
    (alive : httpParseHostChar hs.state ch ≠ .dead) : ∃ next, hs.char p ch = some next := by
  unfold HostScan.char
  generalize httpParseHostChar hs.state ch = s at *
  cases s <;> simp_all

theorem host_loop_state {hs r : HostScan} {p : Nat} {w : Bytes} (start : hs.state ≠ .dead)
    (done : hs.loop p w = some r) : r.state = w.foldl httpParseHostChar hs.state ∧ r.state ≠ .dead := by
  induction w generalizing hs p with
  | nil =>
    obtain rfl := Option.some.inj done
    exact ⟨rfl, start⟩
  | cons ch w ih =>
    obtain ⟨next, stepped, rest⟩ := Option.bind_eq_some_iff.mp done
    obtain ⟨same, alive⟩ := host_char_state stepped
    rw [List.foldl_cons, ← same]
    exact ih alive rest

theorem host_loop_some (hs : HostScan) {w : Bytes} (p : Nat)
    (alive : w.foldl httpParseHostChar hs.state ≠ .dead) : ∃ r, hs.loop p w = some r := by
  induction w generalizing hs p with
  | nil => exact ⟨hs, rfl⟩
  | cons ch w ih =>
    obtain ⟨next, stepped⟩ := host_char_some (p := p) (alive_head host_parse_dead alive)
    rw [HostScan.loop, stepped, Option.bind_some]
    apply ih
    rw [(host_char_state stepped).1]
    exact alive

def HostScan.inside (base : HttpParserUrl) (uf : UrlField) (off : Nat) (s : HostState) (k : Nat) :
    HostScan := ⟨s, base.put uf ⟨off, uint16 k⟩⟩

theorem host_loop_stays {within : HostState → Prop} {uf : UrlField}
    (grows : ∀ s ch, within s → within (httpParseHostChar s ch) →
      (httpParseHostChar s ch).field = some uf ∧ s.grows (httpParseHostChar s ch) = true)
    (base : HttpParserUrl) (off : Nat) {w : Bytes} {s : HostState} (inside : within s)
    (stays : Stays httpParseHostChar within s w) (k p : Nat) (rest : Bytes) :
    (HostScan.inside base uf off s k).loop p (w ++ rest) =
      (HostScan.inside base uf off (w.foldl httpParseHostChar s) (k + w.length)).loop
        (p + w.length) rest := by
  induction w generalizing s k p with
  | nil => simp
  | cons ch w ih =>
    obtain ⟨field, grow⟩ := grows s ch inside stays.1
    have stepped : (HostScan.inside base uf off s k).char p ch =
        some (HostScan.inside base uf off (httpParseHostChar s ch) (k + 1)) := by
      rw [host_char_grow p field grow]
      unfold HostScan.inside
      rw [grow_put]
    rw [List.cons_append, HostScan.loop, stepped, Option.bind_some, ih stays.1 stays.2,
      List.foldl_cons, List.length_cons, Nat.add_assoc k, Nat.add_assoc p, Nat.add_comm 1]

theorem put_zero_grow (u : HttpParserUrl) (uf : UrlField) (off : Nat) :
    (u.put uf ⟨off, 0⟩).grow uf = u.put uf ⟨off, uint16 1⟩ := grow_put u uf off 0

theorem host_char_enter (hs : HostScan) {ch : UInt8} {s : HostState} (p : Nat)
    (next : httpParseHostChar hs.state ch = s) (host : s = .host ∨ s = .hostV6)
    (outside : hs.state ≠ s) (empty : (hs.url.fieldData .host).len = 0) :
    hs.char p ch = some (HostScan.inside hs.url .host (uint16 p) s 1) := by
  unfold HostScan.char HostScan.move HostScan.inside
  rw [next]
  rcases host with rfl | rfl <;> simp [outside, empty, put_zero_grow]

theorem host_char_port {hs : HostScan} {ch : UInt8} (p : Nat)
    (next : httpParseHostChar hs.state ch = .port) (outside : hs.state ≠ .port) :
    hs.char p ch = some (HostScan.inside (hs.url.mark .port) .port (uint16 p) .port 1) := by
  unfold HostScan.char HostScan.enter HostScan.inside
  rw [next]
  simp only [outside, ne_eq, not_false_eq_true, ↓reduceIte]
  rw [← put_zero_grow]
  rfl

theorem scan_port {hs r : HostScan} {p : Nat} {d : Bytes} (done : hs.loop p d = some r)
    (start : hs.state = .portStart) (final : r.state.final = true) :
    d ≠ [] ∧ (∀ c ∈ d, isNum c = true) ∧
      r.url = (hs.url.mark .port).put .port ⟨uint16 p, uint16 d.length⟩ := by
  obtain ⟨state, alive⟩ := host_loop_state (by simp [start]) done
  have body : ∀ s ch, s = .portStart ∨ s = .port → httpParseHostChar s ch = .dead ∨
      httpParseHostChar s ch = .port := by
    intro s ch reading
    rcases reading with rfl | rfl <;> simp only [httpParseHostChar] <;> split_ifs <;> simp
  have stays : Stays httpParseHostChar (· = .port) hs.state d :=
    stays_of_alive host_parse_dead (fun s later => Or.inr later) body (.inl start) (state ▸ alive)
  have digits : ∀ c ∈ d, isNum c = true := by
    intro c member
    obtain ⟨s, reading, entered⟩ := stays.letters (fun s => s = .portStart ∨ s = .port)
      (fun s later => .inr later) (.inl start) c member
    rcases reading with rfl | rfl <;> simpa [httpParseHostChar] using entered
  cases d with
  | nil =>
    obtain rfl := Option.some.inj done
    simp [start, HostState.final] at final
  | cons ch d =>
    refine ⟨by simp, digits, ?_⟩
    have grows : ∀ s ch, s = .port → httpParseHostChar s ch = .port →
        (httpParseHostChar s ch).field = some .port ∧ s.grows (httpParseHostChar s ch) = true := by
      rintro s ch rfl next
      rw [next]
      decide
    rw [HostScan.loop, host_char_port p stays.1 (by simp [start]), Option.bind_some,
      ← List.append_nil d, host_loop_stays grows _ _ rfl (stays.1 ▸ stays.2)] at done
    obtain rfl := Option.some.inj done
    simp [HostScan.inside, Nat.add_comm]

theorem scan_afterHost {hs r : HostScan} {p : Nat} {w : Bytes} (done : hs.loop p w = some r)
    (reading : hs.state = .host ∨ hs.state = .hostV6End) (final : r.state.final = true)
    (ended : ∀ ch ∈ w.head?, hs.state = .host → ch = colon) :
    (w = [] ∧ r.url = hs.url) ∨ ∃ d, w = colon :: d ∧ d ≠ [] ∧ (∀ c ∈ d, isNum c = true) ∧
      r.url = (hs.url.mark .port).put .port ⟨uint16 (p + 1), uint16 d.length⟩ := by
  cases w with
  | nil =>
    obtain rfl := Option.some.inj done
    exact .inl ⟨rfl, rfl⟩
  | cons ch d =>
    obtain ⟨state, alive⟩ := host_loop_state (by rcases reading with h | h <;> simp [h]) done
    rw [state] at alive
    have living := alive_head host_parse_dead alive
    have is_colon : ch = colon := by
      rcases reading with h | h
      · exact ended ch (by simp) h
      · by_contra other
        simp [h, httpParseHostChar, other] at living
    subst is_colon
    have next : httpParseHostChar hs.state colon = .portStart := by
      rcases reading with h | h <;> rw [h] <;> decide
    have stepped : hs.char p colon = some ⟨.portStart, hs.url⟩ := by
      simp [HostScan.char, next]
    rw [HostScan.loop, stepped, Option.bind_some] at done
    obtain ⟨some_digits, digits, url⟩ := scan_port done rfl final
    exact .inr ⟨d, rfl, some_digits, digits, url⟩

def portText : Option Bytes → Bytes
  | none => []
  | some digits => colon :: digits

/-- A host and a port the second pass accepts. -/
structure HostPort (hp : Bytes) : Prop where
  text : hp = (if bracketed hp then leftBracket :: (hostIn hp ++ [rightBracket]) else hostIn hp) ++
    portText (portIn hp)
  nonempty : hostIn hp ≠ []
  name : bracketed hp = false → ∀ c ∈ hostIn hp, isHostChar c = true
  literal : bracketed hp = true → ∀ c ∈ hostIn hp, isV6Char c = true ∨ isZoneChar c = true
  digits : ∀ d, portIn hp = some d → d ≠ [] ∧ ∀ c ∈ d, isNum c = true

def located (u : HttpParserUrl) (p : Nat) (hp : Bytes) : HttpParserUrl :=
  let host := u.put .host ⟨uint16 (if bracketed hp then p + 1 else p), uint16 (hostIn hp).length⟩
  match portIn hp with
  | none => host
  | some d => (host.mark .port).put .port ⟨uint16 (p + (hp.length - d.length)), uint16 d.length⟩

theorem portIn_of_afterHost {hp : Bytes} {port : Option Bytes}
    (after : afterHost hp = portText port) : portIn hp = port := by
  unfold portIn
  rw [after]
  cases port <;> rfl

theorem located_of_parts {hs r : HostScan} {hp : Bytes} {p q : Nat}
    (text : hp = (if bracketed hp then leftBracket :: (hostIn hp ++ [rightBracket]) else hostIn hp) ++
      afterHost hp)
    (end_host : q = p + (hp.length - (afterHost hp).length))
    (after : (afterHost hp = [] ∧ r.url = hs.url) ∨ ∃ d, afterHost hp = colon :: d ∧ d ≠ [] ∧
      (∀ c ∈ d, isNum c = true) ∧
      r.url = (hs.url.mark .port).put .port ⟨uint16 (q + 1), uint16 d.length⟩) {u : HttpParserUrl}
    (host : hs.url = u.put .host
      ⟨uint16 (if bracketed hp then p + 1 else p), uint16 (hostIn hp).length⟩) :
    r.url = located u p hp ∧ afterHost hp = portText (portIn hp) ∧
      ∀ d, portIn hp = some d → d ≠ [] ∧ ∀ c ∈ d, isNum c = true := by
  rcases after with ⟨none, url⟩ | ⟨d, port, some_digits, digits, url⟩
  · have absent : portIn hp = Option.none := portIn_of_afterHost none
    refine ⟨?_, by rw [none, absent]; rfl, by simp [absent]⟩
    rw [url, host]
    simp [located, absent]
  · have present : portIn hp = some d := portIn_of_afterHost port
    refine ⟨?_, by rw [port, present]; rfl, ?_⟩
    · have shorter : d.length < hp.length := by
        rw [text, port]
        simp
        omega
      have off : q + 1 = p + (hp.length - d.length) := by
        rw [end_host, port, List.length_cons]
        omega
      rw [url, host, off]
      simp [located, present]
    · intro d' same
      obtain rfl : d = d' := by simpa [present] using same
      exact ⟨some_digits, digits⟩

theorem parse_hostStart {ch : UInt8} (unbracketed : ch ≠ leftBracket)
    (alive : httpParseHostChar .hostStart ch ≠ .dead) :
    httpParseHostChar .hostStart ch = .host ∧ isHostChar ch = true := by
  simp only [httpParseHostChar, unbracketed, ↓reduceIte] at alive ⊢
  split_ifs at alive ⊢ with named
  · exact ⟨rfl, named⟩
  · exact absurd rfl alive

theorem parse_host {ch : UInt8} (other : ch ≠ colon) :
    httpParseHostChar .host ch = .dead ∨
      httpParseHostChar .host ch = .host ∧ isHostChar ch = true := by
  simp only [httpParseHostChar, other, ↓reduceIte]
  split_ifs with letter
  · exact Or.inr ⟨rfl, letter⟩
  · exact Or.inl rfl

theorem name_grows (s : HostState) (ch : UInt8) (reading : s = .host)
    (next : httpParseHostChar s ch = .host) :
    (httpParseHostChar s ch).field = some .host ∧ s.grows (httpParseHostChar s ch) = true := by
  rw [next, reading]
  decide

theorem name_cut {ch : UInt8} {tl : Bytes} (unbracketed : bracketed (ch :: tl) = false)
    (apart : ch ≠ colon) :
    hostIn (ch :: tl) = ch :: tl.takeWhile (· ≠ colon) ∧
      afterHost (ch :: tl) = tl.dropWhile (· ≠ colon) := by
  constructor
  · rw [hostIn, unbracketed, if_neg (by simp), List.takeWhile_cons_of_pos (by simpa using apart)]
  · rw [afterHost, unbracketed, if_neg (by simp), List.dropWhile_cons_of_pos (by simpa using apart)]

theorem scan_name {hs r : HostScan} {p : Nat} {hp : Bytes} (done : hs.loop p hp = some r)
    (start : hs.state = .hostStart) (final : r.state.final = true)
    (empty : (hs.url.fieldData .host).len = 0) (unbracketed : bracketed hp = false) :
    HostPort hp ∧ r.url = located hs.url p hp := by
  obtain ⟨state, alive⟩ := host_loop_state (by simp [start]) done
  rw [state] at alive
  cases hp with
  | nil =>
    obtain rfl := Option.some.inj done
    simp [start, HostState.final] at final
  | cons ch tl =>
    have first : ch ≠ leftBracket := by simpa [bracketed] using unbracketed
    have living := alive_head host_parse_dead alive
    rw [start] at living
    obtain ⟨entered, letter⟩ := parse_hostStart first living
    have apart : ch ≠ colon := by
      rintro rfl
      exact absurd letter (by decide)
    obtain ⟨host, after⟩ := name_cut unbracketed apart
    have split : tl = tl.takeWhile (· ≠ colon) ++ tl.dropWhile (· ≠ colon) :=
      List.takeWhile_append_dropWhile.symm
    have stays : Stays httpParseHostChar (· = .host) .host (tl.takeWhile (· ≠ colon)) := by
      rw [List.foldl_cons, start, entered] at alive
      refine stays_takeWhile host_parse_dead (fun s later => later) ?_ rfl alive
      rintro s c rfl other
      exact (parse_host (by simpa using other)).imp_right And.left
    have last : (tl.takeWhile (· ≠ colon)).foldl httpParseHostChar .host = .host :=
      stays.last rfl
    have letters : ∀ c ∈ tl.takeWhile (· ≠ colon), isHostChar c = true := by
      intro c member
      obtain ⟨s, rfl, kept⟩ := stays.letters (· = .host) (fun s later => later) rfl c member
      have other : c ≠ colon := by simpa using List.mem_takeWhile_imp member
      exact ((parse_host other).resolve_left (by simp [kept])).2
    rw [HostScan.loop, host_char_enter hs p (start ▸ entered) (.inl rfl) (by simp [start]) empty,
      Option.bind_some, split, host_loop_stays name_grows _ _ rfl stays, last] at done
    have parts := scan_afterHost done (.inl rfl) final (fun c first _ => by
      simpa using head_dropWhile _ tl c first)
    rw [← after] at parts
    have text : ch :: tl = (if bracketed (ch :: tl) then
        leftBracket :: (hostIn (ch :: tl) ++ [rightBracket]) else hostIn (ch :: tl)) ++
        afterHost (ch :: tl) := by
      rw [unbracketed, if_neg (by simp), host, after, List.cons_append, ← split]
    have lengths := congrArg List.length split
    obtain ⟨url, port, digits⟩ := located_of_parts (u := hs.url) (p := p) text (by
      rw [List.length_append] at lengths
      rw [after, List.length_cons]
      omega) parts (by
      simp [HostScan.inside, host, unbracketed, Nat.add_comm])
    refine ⟨⟨by rw [← port]; exact text, by simp [host], fun _ => ?_, by simp [unbracketed], digits⟩, url⟩
    rw [host]
    exact List.forall_mem_cons.mpr ⟨letter, letters⟩

def HostState.literal (s : HostState) : Prop :=
  s = .hostV6 ∨ s = .hostV6ZoneStart ∨ s = .hostV6Zone

theorem parse_literal {s : HostState} {ch : UInt8} (reading : s.literal) (other : ch ≠ rightBracket) :
    httpParseHostChar s ch = .dead ∨ (httpParseHostChar s ch).literal ∧
      (isV6Char ch = true ∨ isZoneChar ch = true) ∧ s.grows (httpParseHostChar s ch) = true := by
  have zone : isZoneChar percent = true := by decide
  rcases reading with rfl | rfl | rfl <;> simp only [httpParseHostChar, other, ↓reduceIte] <;>
    split_ifs <;> simp_all [HostState.literal, HostState.grows]

theorem parse_hostV6Start {ch : UInt8} (alive : httpParseHostChar .hostV6Start ch ≠ .dead) :
    httpParseHostChar .hostV6Start ch = .hostV6 ∧ isV6Char ch = true := by
  simp only [httpParseHostChar] at alive ⊢
  split_ifs at alive ⊢ with named
  · exact ⟨rfl, named⟩
  · exact absurd rfl alive

theorem literal_field {s : HostState} (reading : s.literal) : s.field = some .host := by
  rcases reading with rfl | rfl | rfl <;> rfl

theorem literal_grows (s : HostState) (ch : UInt8) (reading : s.literal)
    (next : (httpParseHostChar s ch).literal) :
    (httpParseHostChar s ch).field = some .host ∧ s.grows (httpParseHostChar s ch) = true := by
  have other : ch ≠ rightBracket := by
    rintro rfl
    rcases reading with rfl | rfl | rfl <;> exact absurd next (by unfold HostState.literal; decide)
  have alive : httpParseHostChar s ch ≠ .dead := by
    intro died
    simp [died, HostState.literal] at next
  exact ⟨literal_field next, ((parse_literal reading other).resolve_left alive).2.2⟩

theorem scan_bracket {hs r : HostScan} {p : Nat} {w : Bytes} (done : hs.loop p w = some r)
    (reading : hs.state.literal) (final : r.state.final = true)
    (ended : ∀ ch ∈ w.head?, ch = rightBracket) :
    ∃ rest, w = rightBracket :: rest ∧ HostScan.loop ⟨.hostV6End, hs.url⟩ (p + 1) rest = some r := by
  cases w with
  | nil =>
    obtain rfl := Option.some.inj done
    rcases reading with h | h | h <;> simp [h, HostState.final] at final
  | cons ch rest =>
    obtain rfl : ch = rightBracket := ended ch (by simp)
    obtain ⟨next, stepped, rest_done⟩ := Option.bind_eq_some_iff.mp done
    obtain ⟨same, alive⟩ := host_char_state stepped
    have closed : httpParseHostChar hs.state rightBracket = .hostV6End := by
      rcases reading with h | h | h
      · rw [h]
        decide
      · rw [same, h] at alive
        exact absurd (by decide) alive
      · rw [h]
        decide
    have unchanged : hs.char p rightBracket = some ⟨.hostV6End, hs.url⟩ := by
      simp [HostScan.char, closed]
    refine ⟨rest, rfl, ?_⟩
    rwa [HostScan.loop, unchanged, Option.bind_some] at done

theorem literal_cut {ch : UInt8} (tl : Bytes) (apart : ch ≠ rightBracket) :
    hostIn (leftBracket :: ch :: tl) = ch :: tl.takeWhile (· ≠ rightBracket) ∧
      afterHost (leftBracket :: ch :: tl) = (tl.dropWhile (· ≠ rightBracket)).drop 1 := by
  have bracket : bracketed (leftBracket :: ch :: tl) = true := by simp [bracketed]
  constructor
  · rw [hostIn, bracket, if_pos rfl, List.drop_succ_cons, List.drop_zero,
      List.takeWhile_cons_of_pos (by simpa using apart)]
  · rw [afterHost, bracket, if_pos rfl, List.drop_succ_cons, List.drop_zero,
      List.dropWhile_cons_of_pos (by simpa using apart)]

theorem scan_literal {hs r : HostScan} {p : Nat} {hp : Bytes} (done : hs.loop p hp = some r)
    (start : hs.state = .hostStart) (final : r.state.final = true)
    (empty : (hs.url.fieldData .host).len = 0) (bracket : bracketed hp = true) :
    HostPort hp ∧ r.url = located hs.url p hp := by
  obtain ⟨tl, rfl⟩ : ∃ tl, hp = leftBracket :: tl := by
    cases hp with
    | nil => simp [bracketed] at bracket
    | cons ch tl => exact ⟨tl, by simpa [bracketed] using bracket⟩
  have opened : hs.char p leftBracket = some ⟨.hostV6Start, hs.url⟩ := by
    have next : httpParseHostChar hs.state leftBracket = .hostV6Start := by rw [start]; decide
    simp [HostScan.char, next]
  rw [HostScan.loop, opened, Option.bind_some] at done
  obtain ⟨state, alive⟩ := host_loop_state (by simp) done
  rw [state] at alive
  cases tl with
  | nil =>
    obtain rfl := Option.some.inj done
    simp [HostState.final] at final
  | cons ch tl =>
    obtain ⟨entered, letter⟩ := parse_hostV6Start (alive_head host_parse_dead alive)
    have apart : ch ≠ rightBracket := by
      rintro rfl
      exact absurd letter (by decide)
    obtain ⟨host, after⟩ := literal_cut tl apart
    have split : tl = tl.takeWhile (· ≠ rightBracket) ++ tl.dropWhile (· ≠ rightBracket) :=
      List.takeWhile_append_dropWhile.symm
    have stays : Stays httpParseHostChar HostState.literal .hostV6
        (tl.takeWhile (· ≠ rightBracket)) := by
      rw [List.foldl_cons, entered] at alive
      exact stays_takeWhile host_parse_dead (fun s later => later) (fun s c reading other =>
        (parse_literal reading (by simpa using other)).imp_right And.left) (.inl rfl) alive
    have letters : ∀ c ∈ tl.takeWhile (· ≠ rightBracket), isV6Char c = true ∨ isZoneChar c = true := by
      intro c member
      obtain ⟨s, reading, kept⟩ := stays.letters _ (fun s later => later) (.inl rfl) c member
      have other : c ≠ rightBracket := by simpa using List.mem_takeWhile_imp member
      have living : httpParseHostChar s c ≠ .dead := by
        intro died
        simp [died, HostState.literal] at kept
      exact ((parse_literal reading other).resolve_left living).2.1
    rw [HostScan.loop, host_char_enter ⟨.hostV6Start, hs.url⟩ (p + 1) entered (.inr rfl) (by simp)
      empty,
      Option.bind_some, split, host_loop_stays literal_grows _ _ (.inl rfl) stays] at done
    obtain ⟨rest, left, done⟩ := scan_bracket done (stays.last (.inl rfl)) final (fun c first => by
      simpa using head_dropWhile _ tl c first)
    rw [left, List.drop_succ_cons, List.drop_zero] at after
    rw [left] at split
    have parts := scan_afterHost done (.inr rfl) final (by simp)
    rw [← after] at parts
    have text : leftBracket :: ch :: tl = (if bracketed (leftBracket :: ch :: tl) then
        leftBracket :: (hostIn (leftBracket :: ch :: tl) ++ [rightBracket])
        else hostIn (leftBracket :: ch :: tl)) ++ afterHost (leftBracket :: ch :: tl) := by
      rw [bracket, if_pos rfl, host, after, List.cons_append, List.cons_append, List.cons_append,
        List.append_assoc, List.singleton_append, ← split]
    have lengths := congrArg List.length split
    obtain ⟨url, port, digits⟩ := located_of_parts (u := hs.url) (p := p) text (by
      rw [List.length_append, List.length_cons] at lengths
      rw [after, List.length_cons, List.length_cons]
      omega) parts (by
      simp [HostScan.inside, host, bracket, Nat.add_comm])
    refine ⟨⟨by rw [← port]; exact text, by simp [host], by simp [bracket], fun _ => ?_, digits⟩, url⟩
    rw [host]
    exact List.forall_mem_cons.mpr ⟨.inl letter, letters⟩

theorem scan_userinfo {hs r : HostScan} {p : Nat} {a : Bytes} (done : hs.loop p a = some r)
    (reading : hs.state = .userinfoStart ∨ hs.state = .userinfo) (sign : atSign ∈ a) :
    ∃ t : HostScan, t.state = .hostStart ∧
      t.loop (p + (a.length - ((a.dropWhile (· ≠ atSign)).drop 1).length))
        ((a.dropWhile (· ≠ atSign)).drop 1) = some r ∧
      ∀ uf, uf ≠ .userinfo → t.url.fieldSet uf = hs.url.fieldSet uf ∧
        t.url.fieldData uf = hs.url.fieldData uf := by
  induction a generalizing hs p with
  | nil => simp at sign
  | cons ch a ih =>
    obtain ⟨next, stepped, rest⟩ := Option.bind_eq_some_iff.mp done
    obtain ⟨same, alive⟩ := host_char_state stepped
    by_cases at_end : ch = atSign
    · subst at_end
      have ends : httpParseHostChar hs.state atSign = .hostStart := by
        rcases reading with h | h <;> rw [h] <;> decide
      have unchanged : hs.char p atSign = some ⟨.hostStart, hs.url⟩ := by
        simp [HostScan.char, ends]
      obtain rfl : HostScan.mk .hostStart hs.url = next := by
        rw [unchanged] at stepped
        exact Option.some.inj stepped
      rw [List.dropWhile_cons_of_neg (by simp), List.drop_succ_cons, List.drop_zero,
        List.length_cons, Nat.add_sub_cancel_left]
      exact ⟨_, rfl, rest, fun uf _ => ⟨rfl, rfl⟩⟩
    · have stays : httpParseHostChar hs.state ch = .userinfo := by
        rw [same] at alive
        rcases reading with h | h <;> rw [h] at alive ⊢ <;>
          simp only [httpParseHostChar, at_end, ↓reduceIte] at alive ⊢ <;> split_ifs at alive ⊢ <;>
          first | rfl | exact absurd rfl alive
      have kept : ∀ uf, uf ≠ .userinfo → next.url.fieldSet uf = hs.url.fieldSet uf ∧
          next.url.fieldData uf = hs.url.fieldData uf := by
        intro uf other
        unfold HostScan.char HostScan.enter at stepped
        rw [stays] at stepped
        obtain rfl := Option.some.inj stepped
        split_ifs <;> simp [HttpParserUrl.grow, HttpParserUrl.put, HttpParserUrl.mark, other]
      have later : atSign ∈ a := by
        rcases List.mem_cons.mp sign with first | later
        · exact absurd first.symm at_end
        · exact later
      obtain ⟨t, state, loop, others⟩ := ih rest (.inr (same.trans stays)) later
      have size := (((List.drop_sublist 1 _).trans (List.dropWhile_sublist
        (fun c => decide (c ≠ atSign)))) : List.Sublist ((a.dropWhile _).drop 1) a).length_le
      have off : p + 1 + (a.length - ((a.dropWhile (· ≠ atSign)).drop 1).length) =
          p + ((ch :: a).length - ((a.dropWhile (· ≠ atSign)).drop 1).length) := by
        rw [List.length_cons]
        omega
      rw [List.dropWhile_cons_of_pos (by simpa using at_end)]
      rw [off] at loop
      exact ⟨t, state, loop, fun uf other => ⟨(others uf other).1.trans (kept uf other).1,
        (others uf other).2.trans (kept uf other).2⟩⟩

theorem host_char_keeps {hs t : HostScan} {p : Nat} {ch : UInt8} (stepped : hs.char p ch = some t)
    {uf : UrlField} (port : uf ≠ .port) (userinfo : uf ≠ .userinfo) :
    t.url.fieldSet uf = hs.url.fieldSet uf ∧
      (uf ≠ .host → t.url.fieldData uf = hs.url.fieldData uf) := by
  have entered (s : HostState) {g : UrlField} (ne : uf ≠ g) :
      ((hs.enter s p g).grow g).fieldSet uf = hs.url.fieldSet uf ∧
        (uf ≠ .host → ((hs.enter s p g).grow g).fieldData uf = hs.url.fieldData uf) := by
    unfold HostScan.enter
    split_ifs <;> simp [HttpParserUrl.grow, HttpParserUrl.put, HttpParserUrl.mark, ne]
  have moved (s : HostState) : ((hs.move s p).grow .host).fieldSet uf = hs.url.fieldSet uf ∧
      (uf ≠ .host → ((hs.move s p).grow .host).fieldData uf = hs.url.fieldData uf) := by
    unfold HostScan.move
    refine ⟨?_, fun host => ?_⟩ <;> split_ifs <;>
      simp [HttpParserUrl.grow, HttpParserUrl.put, *]
  have grown : (hs.url.grow .host).fieldSet uf = hs.url.fieldSet uf ∧
      (uf ≠ .host → (hs.url.grow .host).fieldData uf = hs.url.fieldData uf) :=
    ⟨rfl, fun host => by simp [HttpParserUrl.grow, HttpParserUrl.put, host]⟩
  unfold HostScan.char at stepped
  generalize httpParseHostChar hs.state ch = s at *
  cases s <;> simp at stepped <;> rw [← stepped]
  case userinfoStart | hostStart | hostV6Start | hostV6End | portStart => exact ⟨rfl, fun _ => rfl⟩
  case host | hostV6 => exact moved _
  case hostV6ZoneStart | hostV6Zone => exact grown
  case userinfo => exact entered _ userinfo
  case port => exact entered _ port

theorem httpParseHost_keeps {buf : Bytes} {u v : HttpParserUrl} {f : Bool}
    (done : httpParseHost buf u f = some v) (uf : UrlField) (port : uf ≠ .port)
    (userinfo : uf ≠ .userinfo) : v.fieldSet uf = u.fieldSet uf ∧
      (uf ≠ .host → v.fieldData uf = u.fieldData uf) := by
  have kept : ∀ (w : Bytes) (hs r : HostScan) (p : Nat), hs.loop p w = some r →
      r.url.fieldSet uf = hs.url.fieldSet uf ∧
        (uf ≠ .host → r.url.fieldData uf = hs.url.fieldData uf) := by
    intro w
    induction w with
    | nil =>
      intro hs r p loop
      obtain rfl := Option.some.inj loop
      exact ⟨rfl, fun _ => rfl⟩
    | cons ch w ih =>
      intro hs r p loop
      obtain ⟨next, stepped, rest⟩ := Option.bind_eq_some_iff.mp loop
      have first := host_char_keeps stepped port userinfo
      have later := ih next r (p + 1) rest
      exact ⟨later.1.trans first.1, fun host => (later.2 host).trans (first.2 host)⟩
  obtain ⟨r, loop, ended⟩ := Option.bind_eq_some_iff.mp done
  split at ended
  case isFalse => contradiction
  obtain rfl := Option.some.inj ended
  obtain ⟨set_, data⟩ := kept _ _ r _ loop
  refine ⟨set_, fun host => (data host).trans ?_⟩
  simp [HttpParserUrl.put, host]

def hostPortOff (a : Bytes) : Nat := a.length - (hostPortOf a).length

/-- What the second pass says of an authority that starts at `p`. -/
structure HostFound (u : HttpParserUrl) (p : Nat) (hp : Bytes) : Prop where
  host : u.fieldData .host =
    ⟨uint16 (if bracketed hp then p + 1 else p), uint16 (hostIn hp).length⟩
  port_set : u.fieldSet .port = (portIn hp).isSome
  port : ∀ d, portIn hp = some d →
    u.fieldData .port = ⟨uint16 (p + (hp.length - d.length)), uint16 d.length⟩

theorem located_found {u : HttpParserUrl} (p : Nat) (hp : Bytes) (no_port : u.fieldSet .port = false) :
    HostFound (located u p hp) p hp := by
  unfold located
  cases port : portIn hp with
  | none =>
    refine ⟨?_, ?_, ?_⟩ <;> simp [HttpParserUrl.put, no_port, port]
  | some d =>
    refine ⟨?_, ?_, ?_⟩ <;> simp [HttpParserUrl.put, HttpParserUrl.mark, port]

theorem scan_hostPort {hs r : HostScan} {p : Nat} {hp : Bytes} (done : hs.loop p hp = some r)
    (start : hs.state = .hostStart) (final : r.state.final = true)
    (empty : (hs.url.fieldData .host).len = 0) : HostPort hp ∧ r.url = located hs.url p hp := by
  cases bracket : bracketed hp with
  | true => exact scan_literal done start final empty bracket
  | false => exact scan_name done start final empty bracket

theorem httpParseHost_spec {buf a : Bytes} {u v : HttpParserUrl} (window : u.window buf .host = a)
    (no_port : u.fieldSet .port = false) (done : httpParseHost buf u (a.contains atSign) = some v) :
    HostPort (hostPortOf a) ∧
      HostFound v ((u.fieldData .host).off + hostPortOff a) (hostPortOf a) := by
  unfold httpParseHost at done
  rw [window] at done
  obtain ⟨r, loop, ended⟩ := Option.bind_eq_some_iff.mp done
  split at ended
  case isFalse => contradiction
  rename_i final
  obtain rfl := Option.some.inj ended
  -- the user info leaves a scan that stands before the host
  obtain ⟨t, start, rest, others⟩ : ∃ t : HostScan, t.state = .hostStart ∧
      t.loop ((u.fieldData .host).off + hostPortOff a) (hostPortOf a) = some r ∧
      ∀ uf, uf ≠ .userinfo →
        t.url.fieldSet uf = (u.put .host ⟨(u.fieldData .host).off, 0⟩).fieldSet uf ∧
        t.url.fieldData uf = (u.put .host ⟨(u.fieldData .host).off, 0⟩).fieldData uf := by
    by_cases sign : atSign ∈ a
    · have found : a.contains atSign = true := by simpa using sign
      rw [found] at loop
      have info := scan_userinfo loop (.inl rfl) sign
      simpa only [hostPortOff, hostPortOf, found, ↓reduceIte] using info
    · have found : a.contains atSign = false := by simpa using sign
      rw [found] at loop
      refine ⟨⟨.hostStart, u.put .host ⟨(u.fieldData .host).off, 0⟩⟩, rfl, ?_, fun uf _ => ⟨rfl, rfl⟩⟩
      simpa [hostPortOff, hostPortOf, sign] using loop
  have empty : (t.url.fieldData .host).len = 0 := by
    rw [(others .host (by decide)).2]
    simp [HttpParserUrl.put]
  obtain ⟨shape, url⟩ := scan_hostPort rest start final empty
  have fresh : t.url.fieldSet .port = false := (others .port (by decide)).1.trans no_port
  rw [url]
  exact ⟨shape, located_found _ _ fresh⟩

/-! Texts the second pass accepts. -/

theorem accepts_digits (c : UInt8) (digit : isNum c = true) :
    httpParseHostChar .portStart c = .port ∧ httpParseHostChar .port c = .port := by
  simp [httpParseHostChar, digit]

theorem accepts_name (c : UInt8) (letter : isHostChar c = true) :
    httpParseHostChar .hostStart c = .host ∧ httpParseHostChar .host c = .host := by
  have other : c ≠ leftBracket := by
    rintro rfl
    exact absurd letter (by decide)
  simp [httpParseHostChar, letter, other]

theorem accepts_literal (c : UInt8) (letter : isV6Char c = true) :
    httpParseHostChar .hostV6Start c = .hostV6 ∧ httpParseHostChar .hostV6 c = .hostV6 := by
  have other : c ≠ rightBracket := by
    rintro rfl
    exact absurd letter (by decide)
  simp [httpParseHostChar, letter, other]

def hostText (bracket : Bool) (host : Bytes) : Bytes :=
  if bracket then leftBracket :: (host ++ [rightBracket]) else host

/-- A name, or a literal in brackets that has no zone. -/
def PlainHost (bracket : Bool) (host : Bytes) : Prop :=
  host ≠ [] ∧ ∀ c ∈ host, if bracket then isV6Char c = true else isHostChar c = true

theorem accepts_host {bracket : Bool} {host : Bytes} (plain : PlainHost bracket host) :
    (hostText bracket host).foldl httpParseHostChar .hostStart =
      if bracket then .hostV6End else .host := by
  obtain ⟨nonempty, letters⟩ := plain
  cases bracket with
  | false => exact foldl_enters nonempty (fun c member => accepts_name c (letters c member))
  | true =>
    have opened : httpParseHostChar .hostStart leftBracket = .hostV6Start := by decide
    have inner := foldl_enters nonempty (fun c member => accepts_literal c (letters c member))
    have closed : httpParseHostChar .hostV6 rightBracket = .hostV6End := by decide
    simp only [hostText, ↓reduceIte]
    rw [List.foldl_cons, opened, List.foldl_append, inner, List.foldl_cons, closed, List.foldl_nil]

theorem accepts_hostPort {bracket : Bool} {host : Bytes} {port : Option Bytes}
    (plain : PlainHost bracket host)
    (digits : ∀ d, port = some d → d ≠ [] ∧ ∀ c ∈ d, isNum c = true) :
    ((hostText bracket host ++ portText port).foldl httpParseHostChar .hostStart) ∈
      [HostState.host, .hostV6End, .port] := by
  rw [List.foldl_append, accepts_host plain]
  cases port with
  | none => cases bracket <;> simp [portText]
  | some d =>
    obtain ⟨nonempty, all_digits⟩ := digits d rfl
    have entered : ∀ s, s = .host ∨ s = .hostV6End → httpParseHostChar s colon = .portStart := by
      rintro s (rfl | rfl) <;> decide
    have start : httpParseHostChar (if bracket = true then .hostV6End else .host) colon =
        .portStart := by
      apply entered
      cases bracket <;> simp
    rw [portText, List.foldl_cons, start,
      foldl_enters nonempty (fun c member => accepts_digits c (all_digits c member))]
    simp

theorem httpParseHost_some {buf : Bytes} {u : HttpParserUrl} {bracket : Bool} {host : Bytes}
    {port : Option Bytes} (plain : PlainHost bracket host)
    (digits : ∀ d, port = some d → d ≠ [] ∧ ∀ c ∈ d, isNum c = true)
    (window : u.window buf .host = hostText bracket host ++ portText port) :
    ∃ v, httpParseHost buf u false = some v := by
  have ends := accepts_hostPort plain digits
  have alive : (hostText bracket host ++ portText port).foldl httpParseHostChar .hostStart ≠
      .dead := by
    intro died
    simp [died] at ends
  obtain ⟨r, loop⟩ := host_loop_some ⟨.hostStart, u.put .host ⟨(u.fieldData .host).off, 0⟩⟩
    (u.fieldData .host).off alive
  have final : r.state.final = true := by
    rw [(host_loop_state (by simp) loop).1]
    revert ends
    generalize List.foldl httpParseHostChar _ _ = s
    cases s <;> decide
  refine ⟨r.url, ?_⟩
  simp only [httpParseHost, Bool.false_eq_true, ↓reduceIte, window]
  rw [loop, Option.bind_some, if_pos final]

end Nghttp2Asio.UrlParser
