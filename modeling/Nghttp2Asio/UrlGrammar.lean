import Nghttp2Asio.Library.Automaton
import Nghttp2Asio.UrlParser

/-!
The components of an absolute URL as a text, and what the two passes of the URL parser
record of them. Every offset and every length is recorded modulo 2^16; where none of
them reaches 2^16 the recorded windows are the components.
-/
namespace Nghttp2Asio.UrlParser
open Automaton

/-! Components of a text. -/

def schemeOf (uri : Bytes) : Bytes := uri.takeWhile (· ≠ colon)

def hierarchyOf (uri : Bytes) : Bytes := uri.drop ((schemeOf uri).length + 3)

def inAuthority (c : UInt8) : Bool := c ≠ slash && c ≠ question && c ≠ hash

def inPath (c : UInt8) : Bool := c ≠ question && c ≠ hash

def authorityOf (uri : Bytes) : Bytes := (hierarchyOf uri).takeWhile inAuthority

def afterAuthority (uri : Bytes) : Bytes := (hierarchyOf uri).dropWhile inAuthority

def pathOf (uri : Bytes) : Bytes := (afterAuthority uri).takeWhile inPath

def queryIn : Bytes → Bytes
  | [] => []
  | c :: rest => if c = question then rest.takeWhile (· ≠ hash) else []

def queryOf (uri : Bytes) : Bytes := queryIn ((afterAuthority uri).dropWhile inPath)

def authorityOff (uri : Bytes) : Nat := (schemeOf uri).length + 3

def pathOff (uri : Bytes) : Nat := authorityOff uri + (authorityOf uri).length

def queryOff (uri : Bytes) : Nat := pathOff uri + (pathOf uri).length + 1

/-! The first pass. -/

def State.field : State → Option UrlField
  | .schema => some .schema
  | .server | .serverWithAt => some .host
  | .path => some .path
  | .queryString => some .query
  | .fragment => some .fragment
  | _ => none

theorem uint16_of_lt {n : Nat} (small : n < 2 ^ 16) : uint16 n = n := Nat.mod_eq_of_lt small

theorem put_put (u : HttpParserUrl) (uf : UrlField) (a b : FieldData) :
    (u.put uf a).put uf b = u.put uf b := by
  unfold HttpParserUrl.put
  congr 1
  funext g
  by_cases same : g = uf <;> simp [same]

theorem grow_put (u : HttpParserUrl) (uf : UrlField) (off k : Nat) :
    (u.put uf ⟨off, uint16 k⟩).grow uf = u.put uf ⟨off, uint16 (k + 1)⟩ := by
  have next : uint16 (uint16 k + 1) = uint16 (k + 1) := by
    unfold uint16
    omega
  unfold HttpParserUrl.grow
  rw [put_put]
  simp [HttpParserUrl.put, next]

theorem parse_dead (ch : UInt8) : parseUrlChar .dead ch = .dead := by
  unfold parseUrlChar
  split <;> rfl

def Scan.advance (sc : Scan) (p : Nat) (ch : UInt8) (uf : UrlField) : Scan :=
  Scan.field
    { sc with
      state := parseUrlChar sc.state ch
      foundAt := sc.foundAt || parseUrlChar sc.state ch = .serverWithAt } p uf

theorem char_field {sc : Scan} {ch : UInt8} {uf : UrlField} (p : Nat)
    (entered : (parseUrlChar sc.state ch).field = some uf) :
    sc.char p ch = some (sc.advance p ch uf) := by
  unfold Scan.char Scan.advance
  generalize parseUrlChar sc.state ch = s at *
  cases s <;> simp_all [State.field]

def State.delimiter : State → Bool
  | .schemaSlash | .schemaSlashSlash | .serverStart | .queryStringStart | .fragmentStart => true
  | _ => false

theorem char_delimiter {sc : Scan} {ch : UInt8} (p : Nat)
    (skipped : (parseUrlChar sc.state ch).delimiter = true) :
    sc.char p ch = some { sc with state := parseUrlChar sc.state ch } := by
  unfold Scan.char
  generalize parseUrlChar sc.state ch = s at *
  cases s <;> simp_all [State.delimiter]

theorem char_some {sc next : Scan} {p : Nat} {ch : UInt8} (stepped : sc.char p ch = some next) :
    ((parseUrlChar sc.state ch).delimiter = true ∧
        next = { sc with state := parseUrlChar sc.state ch }) ∨
      ∃ uf, (parseUrlChar sc.state ch).field = some uf ∧ next = sc.advance p ch uf := by
  by_cases skipped : (parseUrlChar sc.state ch).delimiter = true
  · rw [char_delimiter p skipped] at stepped
    exact .inl ⟨skipped, (Option.some.inj stepped).symm⟩
  · cases entered : (parseUrlChar sc.state ch).field with
    | some uf =>
      rw [char_field p entered] at stepped
      exact .inr ⟨uf, rfl, (Option.some.inj stepped).symm⟩
    | none =>
      unfold Scan.char at stepped
      generalize parseUrlChar sc.state ch = s at *
      cases s <;> simp_all [State.field, State.delimiter]

@[simp] theorem advance_state (sc : Scan) (p : Nat) (ch : UInt8) (uf : UrlField) :
    (sc.advance p ch uf).state = parseUrlChar sc.state ch := by
  unfold Scan.advance Scan.field
  split <;> rfl

theorem char_state {sc next : Scan} {p : Nat} {ch : UInt8} (stepped : sc.char p ch = some next) :
    next.state = parseUrlChar sc.state ch ∧ next.state ≠ .dead := by
  rcases char_some stepped with ⟨skipped, rfl⟩ | ⟨uf, entered, rfl⟩
  · refine ⟨rfl, ?_⟩
    intro died
    replace died : parseUrlChar sc.state ch = .dead := died
    simp [died, State.delimiter] at skipped
  · refine ⟨advance_state .., ?_⟩
    intro died
    rw [advance_state] at died
    simp [died, State.field] at entered

theorem loop_alive {sc r : Scan} {p : Nat} {w : Bytes} (start : sc.state ≠ .dead)
    (done : sc.loop p w = some r) : w.foldl parseUrlChar sc.state ≠ .dead := by
  induction w generalizing sc p with
  | nil => exact start
  | cons ch w ih =>
    obtain ⟨next, stepped, rest⟩ := Option.bind_eq_some_iff.mp done
    obtain ⟨same, alive⟩ := char_state stepped
    rw [List.foldl_cons, ← same]
    exact ih alive rest

theorem at_iff {s : State} {ch : UInt8} (host : (parseUrlChar s ch).field = some .host) :
    parseUrlChar s ch = .serverWithAt ↔ ch = atSign := by
  have server : ∀ c, (serverChar c).field = some .host →
      (serverChar c = .serverWithAt ↔ c = atSign) := by
    intro c
    unfold serverChar
    split_ifs <;> simp_all [State.field]
  cases s <;> simp only [parseUrlChar] at host ⊢
  case serverStart =>
    split_ifs at host ⊢
    · simp [State.field] at host
    · exact server ch host
  case server =>
    split_ifs at host ⊢
    · simp [State.field] at host
    · exact server ch host
  case serverWithAt =>
    split_ifs at host ⊢
    · simp [State.field] at host
    · simp [State.field] at host
    · exact server ch host
  all_goals
    exfalso
    split_ifs at host <;> simp [State.field] at host

def foundIn (uf : UrlField) (w : Bytes) : Bool := uf = .host && w.contains atSign

theorem advance_found {s : State} {ch : UInt8} {uf : UrlField} (f : Bool)
    (entered : (parseUrlChar s ch).field = some uf) :
    (f || decide (parseUrlChar s ch = .serverWithAt)) = (f || foundIn uf [ch]) := by
  congr 1
  by_cases host : uf = .host
  · subst host
    have same := at_iff entered
    simp [foundIn, same, eq_comm]
  · have other : parseUrlChar s ch ≠ .serverWithAt := by
      intro sign
      rw [sign] at entered
      exact host (Option.some.inj entered).symm
    simp [foundIn, host, other]

theorem foundIn_cons (uf : UrlField) (ch : UInt8) (w : Bytes) (f : Bool) :
    (f || foundIn uf [ch] || foundIn uf w) = (f || foundIn uf (ch :: w)) := by
  unfold foundIn
  cases f <;> by_cases host : uf = .host <;> simp [host]

def Scan.inside (base : HttpParserUrl) (uf : UrlField) (off : Nat) (s : State) (k : Nat) (f : Bool) :
    Scan := ⟨s, base.put uf ⟨off, uint16 k⟩, some uf, f⟩

/-- A word on which the automaton stays in the states of one field lengthens the field. -/
theorem loop_stays {within : State → Prop} {uf : UrlField}
    (field : ∀ s, within s → s.field = some uf) (base : HttpParserUrl) (off : Nat) {w : Bytes}
    {s : State} (stays : Stays parseUrlChar within s w) (k p : Nat) (f : Bool) (rest : Bytes) :
    (Scan.inside base uf off s k f).loop p (w ++ rest) =
      (Scan.inside base uf off (w.foldl parseUrlChar s) (k + w.length)
        (f || foundIn uf w)).loop (p + w.length) rest := by
  induction w generalizing s k p f with
  | nil => simp [foundIn]
  | cons ch w ih =>
    have entered : (parseUrlChar s ch).field = some uf := field _ stays.1
    have stepped : (Scan.inside base uf off s k f).char p ch =
        some (Scan.inside base uf off (parseUrlChar s ch) (k + 1) (f || foundIn uf [ch])) := by
      rw [char_field p entered, ← advance_found f entered]
      unfold Scan.advance Scan.field Scan.inside
      rw [if_pos rfl, grow_put]
    rw [List.cons_append, Scan.loop, stepped, Option.bind_some, ih stays.2, foundIn_cons,
      List.foldl_cons, List.length_cons, Nat.add_assoc k, Nat.add_assoc p, Nat.add_comm 1]

theorem loop_enters {within : State → Prop} {uf : UrlField}
    (field : ∀ s, within s → s.field = some uf) {sc : Scan} {w : Bytes} (nonempty : w ≠ [])
    (stays : Stays parseUrlChar within sc.state w) (other : sc.oldUf ≠ some uf) (p : Nat)
    (rest : Bytes) : sc.loop p (w ++ rest) =
      (Scan.inside (sc.url.mark uf) uf (uint16 p) (w.foldl parseUrlChar sc.state) w.length
        (sc.foundAt || foundIn uf w)).loop (p + w.length) rest := by
  obtain ⟨ch, w, rfl⟩ := List.exists_cons_of_ne_nil nonempty
  have entered : (parseUrlChar sc.state ch).field = some uf := field _ stays.1
  have stepped : sc.char p ch = some (Scan.inside (sc.url.mark uf) uf (uint16 p)
      (parseUrlChar sc.state ch) 1 (sc.foundAt || foundIn uf [ch])) := by
    rw [char_field p entered, ← advance_found sc.foundAt entered]
    unfold Scan.advance Scan.field Scan.inside
    rw [if_neg other]
    rfl
  rw [List.cons_append, Scan.loop, stepped, Option.bind_some, loop_stays field _ _ stays.2,
    foundIn_cons, List.foldl_cons, List.length_cons, Nat.add_comm 1, Nat.add_assoc p,
    Nat.add_comm 1]

def State.rank : State → Nat
  | .dead | .spacesBeforeUrl => 0
  | .schema => 1
  | .schemaSlash => 2
  | .schemaSlashSlash => 3
  | .serverStart => 4
  | .server | .serverWithAt => 5
  | .path => 6
  | .queryStringStart => 7
  | .queryString => 8
  | .fragmentStart => 9
  | .fragment => 10

def UrlField.rank : UrlField → Nat
  | .schema => 1
  | .host => 5
  | .path => 6
  | .query => 8
  | .fragment => 10
  | .port | .userinfo => 0

theorem parse_rank (s : State) (ch : UInt8) :
    parseUrlChar s ch = .dead ∨ s.rank ≤ (parseUrlChar s ch).rank := by
  have server : serverChar ch = .dead ∨ 5 ≤ (serverChar ch).rank := by
    unfold serverChar
    split_ifs <;> simp [State.rank]
  cases s <;> simp only [parseUrlChar]
  case serverStart =>
    split_ifs
    · exact .inl rfl
    · exact server.imp_right (Nat.le_trans (by decide))
  case server =>
    split_ifs
    · exact .inl rfl
    · exact server
  case serverWithAt =>
    split_ifs
    · exact .inl rfl
    · exact .inl rfl
    · exact server
  all_goals split_ifs <;> simp [State.rank]

theorem field_rank {s : State} {uf : UrlField} (field : s.field = some uf) : uf.rank = s.rank := by
  cases s <;> simp [State.field] at field <;> rw [← field] <;> rfl

theorem loop_invariant (inv : Scan → Prop)
    (next : ∀ sc p ch t, inv sc → sc.char p ch = some t → inv t) {sc r : Scan} {p : Nat} {w : Bytes}
    (start : inv sc) (done : sc.loop p w = some r) : inv r := by
  induction w generalizing sc p with
  | nil => exact Option.some.inj done ▸ start
  | cons ch w ih =>
    obtain ⟨t, stepped, rest⟩ := Option.bind_eq_some_iff.mp done
    exact ih (next sc p ch t start stepped) rest

theorem char_rank {sc t : Scan} {p : Nat} {ch : UInt8} (stepped : sc.char p ch = some t) :
    sc.state.rank ≤ t.state.rank := by
  obtain ⟨same, alive⟩ := char_state stepped
  rcases parse_rank sc.state ch with died | forward
  · exact absurd (same.trans died) alive
  · exact same ▸ forward

theorem char_passed {sc t : Scan} {p : Nat} {ch : UInt8} (stepped : sc.char p ch = some t)
    {uf : UrlField} (passed : uf.rank < t.state.rank) :
    t.url.fieldSet uf = sc.url.fieldSet uf ∧ t.url.fieldData uf = sc.url.fieldData uf := by
  rcases char_some stepped with ⟨_, rfl⟩ | ⟨g, entered, rfl⟩
  · exact ⟨rfl, rfl⟩
  · have apart : uf ≠ g := by
      intro same
      subst same
      have level := field_rank entered
      rw [advance_state] at passed
      omega
    unfold Scan.advance Scan.field
    split <;> simp [HttpParserUrl.grow, HttpParserUrl.put, HttpParserUrl.mark, apart]

/-- The automaton never goes back, so a field it has passed is final. -/
theorem loop_keeps {sc r : Scan} {p : Nat} {w : Bytes} (done : sc.loop p w = some r) (uf : UrlField)
    (passed : uf.rank < sc.state.rank) :
    r.url.fieldSet uf = sc.url.fieldSet uf ∧ r.url.fieldData uf = sc.url.fieldData uf := by
  have kept : uf.rank < r.state.rank ∧ r.url.fieldSet uf = sc.url.fieldSet uf ∧
      r.url.fieldData uf = sc.url.fieldData uf := by
    refine loop_invariant (fun t => uf.rank < t.state.rank ∧ t.url.fieldSet uf = _ ∧
      t.url.fieldData uf = _) ?_ ⟨passed, rfl, rfl⟩ done
    rintro t p ch next ⟨later, set_, data⟩ stepped
    have onward := Nat.lt_of_lt_of_le later (char_rank stepped)
    obtain ⟨set_next, data_next⟩ := char_passed stepped onward
    exact ⟨onward, set_next.trans set_, data_next.trans data⟩
  exact kept.2

theorem char_found {sc t : Scan} {p : Nat} {ch : UInt8} (stepped : sc.char p ch = some t)
    (passed : UrlField.host.rank < t.state.rank) : t.foundAt = sc.foundAt := by
  rcases char_some stepped with ⟨_, rfl⟩ | ⟨g, entered, rfl⟩
  · rfl
  · have plain : parseUrlChar sc.state ch ≠ .serverWithAt := by
      intro sign
      rw [advance_state, sign] at passed
      exact absurd passed (by decide)
    unfold Scan.advance Scan.field
    split <;> simp [plain]

theorem loop_found {sc r : Scan} {p : Nat} {w : Bytes} (done : sc.loop p w = some r)
    (passed : UrlField.host.rank < sc.state.rank) : r.foundAt = sc.foundAt := by
  have kept : UrlField.host.rank < r.state.rank ∧ r.foundAt = sc.foundAt := by
    refine loop_invariant (fun t => UrlField.host.rank < t.state.rank ∧ t.foundAt = _) ?_
      ⟨passed, rfl⟩ done
    rintro t p ch next ⟨later, same⟩ stepped
    have onward := Nat.lt_of_lt_of_le later (char_rank stepped)
    exact ⟨onward, (char_found stepped onward).trans same⟩
  exact kept.2

/-- The field holds a component that starts at `off`, or is not set where there is none. -/
def Found (u : HttpParserUrl) (uf : UrlField) (off : Nat) (w : Bytes) : Prop :=
  u.fieldSet uf = decide (w ≠ []) ∧ (w ≠ [] → u.fieldData uf = ⟨uint16 off, uint16 w.length⟩)

theorem Found.congr {u v : HttpParserUrl} {uf : UrlField} {off : Nat} {w : Bytes}
    (found : Found u uf off w)
    (same : v.fieldSet uf = u.fieldSet uf ∧ v.fieldData uf = u.fieldData uf) : Found v uf off w :=
  ⟨same.1.trans found.1, fun nonempty => same.2.trans (found.2 nonempty)⟩

theorem rest_keeps {sc r : Scan} {p : Nat} {rest : Bytes} (uf : UrlField)
    (done : sc.loop p rest = some r)
    (leaves : ∀ ch ∈ rest.head?, parseUrlChar sc.state ch = .dead ∨
      uf.rank < (parseUrlChar sc.state ch).rank) :
    (r.url.fieldSet uf = sc.url.fieldSet uf ∧ r.url.fieldData uf = sc.url.fieldData uf) ∧
      (uf = .host → r.foundAt = sc.foundAt) := by
  cases rest with
  | nil =>
    obtain rfl := Option.some.inj done
    exact ⟨⟨rfl, rfl⟩, fun _ => rfl⟩
  | cons ch rest =>
    obtain ⟨t, stepped, rest_done⟩ := Option.bind_eq_some_iff.mp done
    obtain ⟨same, alive⟩ := char_state stepped
    have passed : uf.rank < t.state.rank := by
      rw [same]
      exact (leaves ch (by simp)).resolve_left (same ▸ alive)
    obtain ⟨set_first, data_first⟩ := char_passed stepped passed
    obtain ⟨set_rest, data_rest⟩ := loop_keeps rest_done uf passed
    refine ⟨⟨set_rest.trans set_first, data_rest.trans data_first⟩, ?_⟩
    rintro rfl
    exact (loop_found rest_done passed).trans (char_found stepped passed)

theorem found_inside {base : HttpParserUrl} {uf : UrlField} {p : Nat} {w : Bytes} (s : State)
    (f : Bool) (nonempty : w ≠ []) :
    Found (Scan.inside (base.mark uf) uf (uint16 p) s w.length f).url uf p w := by
  constructor
  · simp [Scan.inside, HttpParserUrl.put, HttpParserUrl.mark, nonempty]
  · simp [Scan.inside, HttpParserUrl.put]

theorem found_absent {u : HttpParserUrl} {uf : UrlField} (off : Nat) (absent : u.fieldSet uf = false) :
    Found u uf off [] := by
  constructor <;> simp [absent]

theorem head_dropWhile (keep : UInt8 → Bool) (w : Bytes) : ∀ ch ∈ (w.dropWhile keep).head?,
    keep ch = false := by
  intro ch first
  have left := List.head?_dropWhile_not keep w
  simpa [Option.mem_def.mp first] using left

structure ReadField (within : State → Prop) (uf : UrlField) (word : Bytes) (sc t : Scan) : Prop where
  read : word ≠ [] → within t.state ∧ t.oldUf = some uf
  skipped : word = [] → t = sc
  sign : t.foundAt = (sc.foundAt || foundIn uf word)
  others : ∀ g, g ≠ uf → t.url.fieldSet g = sc.url.fieldSet g ∧
    t.url.fieldData g = sc.url.fieldData g

theorem scan_field {within : State → Prop} {uf : UrlField} {keep : UInt8 → Bool} {sc r : Scan}
    {p : Nat} {w : Bytes} (done : sc.loop p w = some r) (field : ∀ s, within s → s.field = some uf)
    (stays : Stays parseUrlChar within sc.state (w.takeWhile keep))
    (leaves : ∀ s ch, s = sc.state ∨ within s → keep ch = false →
      parseUrlChar s ch = .dead ∨ uf.rank < (parseUrlChar s ch).rank)
    (unset : sc.url.fieldSet uf = false) (other : sc.oldUf ≠ some uf) :
    ∃ t, ReadField within uf (w.takeWhile keep) sc t ∧
      t.loop (p + (w.takeWhile keep).length) (w.dropWhile keep) = some r ∧
      Found r.url uf p (w.takeWhile keep) ∧ (uf = .host → r.foundAt = t.foundAt) := by
  by_cases empty : w.takeWhile keep = []
  · have whole : w.dropWhile keep = w := by
      have split := List.takeWhile_append_dropWhile (p := keep) (l := w)
      rwa [empty, List.nil_append] at split
    simp only [empty, whole, List.length_nil, Nat.add_zero]
    obtain ⟨same, sign⟩ := rest_keeps uf done (fun ch first => leaves _ ch (.inl rfl)
      (head_dropWhile keep w ch (whole.symm ▸ first)))
    refine ⟨sc, ⟨by simp, fun _ => rfl, by simp [foundIn], fun g _ => ⟨rfl, rfl⟩⟩, done,
      (found_absent p unset).congr same, sign⟩
  · have split : w = w.takeWhile keep ++ w.dropWhile keep :=
      List.takeWhile_append_dropWhile.symm
    have last : within ((w.takeWhile keep).foldl parseUrlChar sc.state) := by
      obtain ⟨ch, word, word_eq⟩ := List.exists_cons_of_ne_nil empty
      rw [word_eq] at stays ⊢
      rw [List.foldl_cons]
      exact stays.2.last stays.1
    rw [split, loop_enters field empty stays other] at done
    obtain ⟨same, sign⟩ := rest_keeps uf done (fun ch first => leaves _ ch (.inr last)
      (head_dropWhile keep w ch first))
    refine ⟨_, ⟨fun _ => ⟨last, rfl⟩, fun none => absurd none empty, rfl, ?_⟩, done,
      (found_inside _ _ empty).congr same, sign⟩
    intro g apart
    simp [Scan.inside, HttpParserUrl.put, HttpParserUrl.mark, apart]

theorem parse_path (ch : UInt8) (inside : inPath ch = true) :
    parseUrlChar .path ch = .dead ∨ parseUrlChar .path ch = .path := by
  obtain ⟨not_query, not_hash⟩ : ch ≠ question ∧ ch ≠ hash := by simpa [inPath] using inside
  simp only [parseUrlChar, not_query, not_hash, ↓reduceIte]
  split_ifs <;> simp

theorem parse_query {s : State} (ch : UInt8) (reading : s = .queryStringStart ∨ s = .queryString)
    (inside : ch ≠ hash) : parseUrlChar s ch = .dead ∨ parseUrlChar s ch = .queryString := by
  rcases reading with rfl | rfl <;> simp only [parseUrlChar, inside, ↓reduceIte] <;>
    split_ifs <;> simp

theorem parse_server {s : State} (ch : UInt8)
    (reading : s = .serverStart ∨ s = .server ∨ s = .serverWithAt) (inside : inAuthority ch = true) :
    parseUrlChar s ch = .dead ∨ parseUrlChar s ch = .server ∨ parseUrlChar s ch = .serverWithAt := by
  obtain ⟨not_path, not_query, _⟩ : ch ≠ slash ∧ ch ≠ question ∧ ch ≠ hash := by
    simpa [inAuthority, and_assoc] using inside
  have server : serverChar ch = .dead ∨ serverChar ch = .server ∨ serverChar ch = .serverWithAt := by
    simp only [serverChar, not_path, not_query, ↓reduceIte]
    split_ifs <;> simp
  rcases reading with rfl | rfl | rfl <;> simp only [parseUrlChar] <;> split_ifs <;>
    first | exact .inl rfl | exact server

theorem scan_query {sc r : Scan} {p : Nat} {w : Bytes} (start : sc.state = .queryStringStart)
    (unset : sc.url.fieldSet .query = false) (other : sc.oldUf ≠ some .query)
    (done : sc.loop p w = some r) : Found r.url .query p (w.takeWhile (· ≠ hash)) := by
  have alive := loop_alive (by simp [start]) done
  have stays : Stays parseUrlChar (· = .queryString) sc.state (w.takeWhile (· ≠ hash)) :=
    stays_takeWhile parse_dead (fun s later => Or.inr later)
      (fun s ch reading inside => parse_query ch reading (by simpa using inside)) (.inl start) alive
  have leaves : ∀ s ch, s = sc.state ∨ s = .queryString → decide (ch ≠ hash) = false →
      parseUrlChar s ch = .dead ∨ UrlField.query.rank < (parseUrlChar s ch).rank := by
    intro s ch reading ended
    obtain rfl : ch = hash := by simpa using ended
    rw [start] at reading
    rcases reading with rfl | rfl <;> decide
  obtain ⟨t, _, _, found, _⟩ := scan_field done (by rintro s rfl; rfl) stays leaves unset other
  exact found

theorem scan_afterPath {sc r : Scan} {p : Nat} {w : Bytes}
    (reading : sc.state = .path ∨ sc.state = .server ∨ sc.state = .serverWithAt)
    (ended : ∀ ch ∈ w.head?, inPath ch = false) (unset : sc.url.fieldSet .query = false)
    (other : sc.oldUf ≠ some .query) (done : sc.loop p w = some r) :
    Found r.url .query (p + 1) (queryIn w) := by
  cases w with
  | nil => exact Option.some.inj done ▸ found_absent _ unset
  | cons ch rest =>
    have ends : ch = question ∨ ch = hash := by
      have outside := ended ch (by simp)
      unfold inPath at outside
      simpa [or_iff_not_imp_left] using outside
    rcases ends with rfl | rfl
    · have query : parseUrlChar sc.state question = .queryStringStart := by
        rcases reading with h | h | h <;> rw [h] <;> decide
      rw [Scan.loop, char_delimiter p (by rw [query]; rfl), Option.bind_some] at done
      rw [queryIn, if_pos rfl]
      exact @scan_query { sc with state := parseUrlChar sc.state question } r (p + 1) rest query
        unset other done
    · have fragment : queryIn (hash :: rest) = [] := by
        rw [queryIn, if_neg (by decide)]
      rw [fragment]
      refine (found_absent _ unset).congr (rest_keeps _ done ?_).1
      intro ch first
      obtain rfl : hash = ch := by simpa using first
      rcases reading with h | h | h <;> rw [h] <;> decide

theorem scan_afterAuthority {sc r : Scan} {p : Nat} {w : Bytes}
    (reading : sc.state = .server ∨ sc.state = .serverWithAt)
    (ended : ∀ ch ∈ w.head?, inAuthority ch = false) (no_path : sc.url.fieldSet .path = false)
    (no_query : sc.url.fieldSet .query = false) (not_path : sc.oldUf ≠ some .path)
    (not_query : sc.oldUf ≠ some .query) (done : sc.loop p w = some r) :
    Found r.url .path p (w.takeWhile inPath) ∧
      Found r.url .query (p + (w.takeWhile inPath).length + 1) (queryIn (w.dropWhile inPath)) := by
  have alive := loop_alive (by rcases reading with h | h <;> simp [h]) done
  have stays : Stays parseUrlChar (· = .path) sc.state (w.takeWhile inPath) := by
    cases w with
    | nil => trivial
    | cons ch rest =>
      by_cases inside : inPath ch = true
      · have is_slash : ch = slash := by
          have outside := ended ch (by simp)
          unfold inPath at inside
          unfold inAuthority at outside
          by_contra other
          simp_all
        subst is_slash
        have entered : parseUrlChar sc.state slash = .path := by
          rcases reading with h | h <;> rw [h] <;> decide
        rw [List.takeWhile_cons_of_pos inside]
        refine ⟨entered, stays_takeWhile parse_dead (fun s later => later) ?_ entered alive⟩
        rintro s c rfl kept
        exact parse_path c kept
      · rw [List.takeWhile_cons_of_neg inside]
        trivial
  have leaves : ∀ s ch, s = sc.state ∨ s = .path → inPath ch = false →
      parseUrlChar s ch = .dead ∨ UrlField.path.rank < (parseUrlChar s ch).rank := by
    intro s ch where_ outside
    have ends : ch = question ∨ ch = hash := by
      unfold inPath at outside
      simpa [or_iff_not_imp_left] using outside
    have states : s = .server ∨ s = .serverWithAt ∨ s = .path := by
      rcases where_ with rfl | rfl
      · tauto
      · tauto
    rcases ends with rfl | rfl <;> rcases states with rfl | rfl | rfl <;> decide
  obtain ⟨t, reads, rest, path, _⟩ :=
    scan_field done (by rintro s rfl; rfl) stays leaves no_path not_path
  have position : (t.state = .path ∨ t.state = .server ∨ t.state = .serverWithAt) ∧
      t.oldUf ≠ some .query := by
    by_cases empty : w.takeWhile inPath = []
    · rw [reads.skipped empty]
      exact ⟨.inr reading, not_query⟩
    · obtain ⟨state, old⟩ := reads.read empty
      exact ⟨.inl state, by simp [old]⟩
  refine ⟨path, scan_afterPath position.1 (head_dropWhile _ _) ?_ position.2 rest⟩
  rw [(reads.others .query (by decide)).1, no_query]

/-- What the first pass says of an absolute URL. -/
structure Scanned (uri : Bytes) (sc : Scan) : Prop where
  text : uri = schemeOf uri ++ ([colon, slash, slash] ++ hierarchyOf uri)
  letters : ∀ c ∈ schemeOf uri, isAlpha c = true
  named : schemeOf uri ≠ []
  server : authorityOf uri ≠ []
  schema : Found sc.url .schema 0 (schemeOf uri)
  host : Found sc.url .host (authorityOff uri) (authorityOf uri)
  path : Found sc.url .path (pathOff uri) (pathOf uri)
  query : Found sc.url .query (queryOff uri) (queryOf uri)
  no_port : sc.url.fieldSet .port = false
  found_at : sc.foundAt = (authorityOf uri).contains atSign

def Scan.start : Scan := ⟨.spacesBeforeUrl, .init, none, false⟩

theorem parse_schema {ch : UInt8} (other : ch ≠ colon) :
    parseUrlChar .schema ch = .dead ∨ parseUrlChar .schema ch = .schema := by
  simp only [parseUrlChar, other, ↓reduceIte]
  split_ifs <;> simp

theorem scan_slash {sc r : Scan} {p : Nat} {w : Bytes} {s : State} (done : sc.loop p w = some r)
    (reading : sc.state = .schemaSlash ∧ s = .schemaSlashSlash ∨
      sc.state = .schemaSlashSlash ∧ s = .serverStart)
    (no_host : sc.url.fieldSet .host = false) (host : r.url.fieldSet .host = true) :
    ∃ rest, w = slash :: rest ∧ Scan.loop { sc with state := s } (p + 1) rest = some r := by
  cases w with
  | nil =>
    obtain rfl := Option.some.inj done
    simp [no_host] at host
  | cons ch rest =>
    have start : sc.state ≠ .dead := by rcases reading with h | h <;> simp [h.1]
    have alive := alive_head parse_dead (loop_alive start done)
    have is_slash : ch = slash := by
      by_contra other
      rcases reading with h | h <;> simp [h.1, parseUrlChar, other] at alive
    subst is_slash
    have next : parseUrlChar sc.state slash = s := by
      rcases reading with h | h <;> rw [h.1, h.2] <;> decide
    have skipped : (parseUrlChar sc.state slash).delimiter = true := by
      rcases reading with h | h <;> rw [next, h.2] <;> rfl
    rw [Scan.loop, char_delimiter p skipped, Option.bind_some, next] at done
    exact ⟨rest, rfl, done⟩

theorem scan_hierarchy {sc r : Scan} {p : Nat} {w : Bytes} (done : sc.loop p w = some r)
    (start : sc.state = .serverStart)
    (fresh : ∀ uf, uf ≠ .schema → sc.url.fieldSet uf = false) (other : sc.oldUf = some .schema)
    (none_found : sc.foundAt = false) (host : r.url.fieldSet .host = true) :
    w.takeWhile inAuthority ≠ [] ∧ Found r.url .host p (w.takeWhile inAuthority) ∧
      Found r.url .path (p + (w.takeWhile inAuthority).length)
        ((w.dropWhile inAuthority).takeWhile inPath) ∧
      Found r.url .query (p + (w.takeWhile inAuthority).length +
        ((w.dropWhile inAuthority).takeWhile inPath).length + 1)
        (queryIn ((w.dropWhile inAuthority).dropWhile inPath)) ∧
      r.foundAt = (w.takeWhile inAuthority).contains atSign := by
  have alive := loop_alive (by simp [start]) done
  have stays : Stays parseUrlChar (fun s => s = .server ∨ s = .serverWithAt) sc.state
      (w.takeWhile inAuthority) :=
    stays_takeWhile parse_dead (fun s later => Or.inr later)
      (fun s ch reading inside => parse_server ch reading inside) (.inl start) alive
  have leaves : ∀ s ch, s = sc.state ∨ s = .server ∨ s = .serverWithAt → inAuthority ch = false →
      parseUrlChar s ch = .dead ∨ UrlField.host.rank < (parseUrlChar s ch).rank := by
    intro s ch where_ outside
    have ends : ch = slash ∨ ch = question ∨ ch = hash := by
      unfold inAuthority at outside
      simp only [Bool.and_eq_false_iff, decide_eq_false_iff_not, not_not] at outside
      tauto
    rw [start] at where_
    rcases ends with rfl | rfl | rfl <;> rcases where_ with rfl | rfl | rfl <;> decide
  obtain ⟨t, reads, rest, server, sign⟩ := scan_field done
    (by rintro s (rfl | rfl) <;> rfl) stays leaves (fresh .host (by decide)) (by simp [other])
  have nonempty : w.takeWhile inAuthority ≠ [] := by
    rw [server.1] at host
    simpa using host
  obtain ⟨state, old⟩ := reads.read nonempty
  have unset : ∀ uf, uf ≠ .schema → uf ≠ .host → t.url.fieldSet uf = false := by
    intro uf not_schema not_host
    rw [(reads.others uf not_host).1, fresh uf not_schema]
  obtain ⟨path, query⟩ := scan_afterAuthority state (head_dropWhile _ _) (unset .path (by decide) (by decide))
    (unset .query (by decide) (by decide)) (by simp [old]) (by simp [old]) rest
  refine ⟨nonempty, server, path, query, ?_⟩
  rw [sign rfl, reads.sign, none_found]
  simp [foundIn]

theorem parse_letter {s : State} {ch : UInt8} (reading : s = .spacesBeforeUrl ∨ s = .schema)
    (entered : parseUrlChar s ch = .schema) : isAlpha ch = true := by
  rcases reading with rfl | rfl <;> simp only [parseUrlChar] at entered <;>
    split_ifs at entered <;> assumption

theorem scan_first {r : Scan} {ch : UInt8} {rest : Bytes}
    (done : Scan.start.loop 0 (ch :: rest) = some r) (schema : r.url.fieldSet .schema = true) :
    parseUrlChar .spacesBeforeUrl ch = .schema := by
  have alive := alive_head parse_dead (loop_alive (by decide) done)
  have choice : parseUrlChar .spacesBeforeUrl ch = .dead ∨
      parseUrlChar .spacesBeforeUrl ch = .path ∨
      parseUrlChar .spacesBeforeUrl ch = .schema := by
    simp only [parseUrlChar]
    split_ifs <;> simp
  rcases choice with died | path | entered
  · exact absurd died alive
  · have kept := (rest_keeps .schema done (by
      intro c first
      obtain rfl : ch = c := by simpa using first
      exact .inr (path ▸ by decide))).1.1
    rw [kept] at schema
    exact absurd schema (by decide)
  · exact entered

theorem scan_scheme {uri : Bytes} {r : Scan} (done : Scan.start.loop 0 uri = some r)
    (schema : r.url.fieldSet .schema = true) :
    ∃ t, ReadField (· = .schema) .schema (schemeOf uri) Scan.start t ∧
      t.loop (schemeOf uri).length (uri.dropWhile (· ≠ colon)) = some r ∧
      Found r.url .schema 0 (schemeOf uri) ∧ (∀ c ∈ schemeOf uri, isAlpha c = true) := by
  have alive := loop_alive (by decide) done
  have stays : Stays parseUrlChar (· = .schema) .spacesBeforeUrl (schemeOf uri) := by
    cases uri with
    | nil => trivial
    | cons ch rest =>
      have first := scan_first done schema
      have apart : ch ≠ colon := by
        rintro rfl
        exact absurd first (by decide)
      rw [schemeOf, List.takeWhile_cons_of_pos (by simpa using apart)]
      refine ⟨first, stays_takeWhile parse_dead (fun s later => later) ?_ first alive⟩
      rintro s c rfl kept
      exact parse_schema (by simpa using kept)
  have leaves : ∀ s ch, s = .spacesBeforeUrl ∨ s = .schema → decide (ch ≠ colon) = false →
      parseUrlChar s ch = .dead ∨ UrlField.schema.rank < (parseUrlChar s ch).rank := by
    intro s ch reading ended
    obtain rfl : ch = colon := by simpa using ended
    rcases reading with rfl | rfl <;> decide
  obtain ⟨t, reads, rest, scheme, _⟩ :=
    scan_field done (by rintro s rfl; rfl) stays leaves rfl (by decide)
  rw [Nat.zero_add] at rest
  refine ⟨t, reads, rest, scheme, fun c member => ?_⟩
  obtain ⟨s, reading, entered⟩ := stays.letters
    (fun s => s = .spacesBeforeUrl ∨ s = .schema) (fun s later => .inr later) (.inl rfl) c member
  exact parse_letter reading entered

/-- The first pass finds the components of every URL with a scheme and a host. -/
theorem scan_spec {uri : Bytes} {r : Scan} (done : Scan.start.loop 0 uri = some r)
    (schema : r.url.fieldSet .schema = true) (host : r.url.fieldSet .host = true) :
    Scanned uri r := by
  obtain ⟨t, reads, rest, scheme, letters⟩ := scan_scheme done schema
  have named : schemeOf uri ≠ [] := by
    rw [scheme.1] at schema
    simpa using schema
  obtain ⟨state, old⟩ := reads.read named
  have unset : ∀ uf, uf ≠ .schema → t.url.fieldSet uf = false :=
    fun uf other => (reads.others uf other).1
  -- `://`
  obtain ⟨after, after_eq⟩ : ∃ after, uri.dropWhile (· ≠ colon) = colon :: after := by
    cases left : uri.dropWhile (· ≠ colon) with
    | nil =>
      rw [left] at rest
      obtain rfl := Option.some.inj rest
      simp [unset] at host
    | cons ch after =>
      have ends := head_dropWhile (fun c => decide (c ≠ colon)) uri ch
      rw [left] at ends
      exact ⟨after, by simpa using ends rfl⟩
  have at_colon : parseUrlChar t.state colon = .schemaSlash := by rw [state]; decide
  rw [after_eq, Scan.loop, char_delimiter _ (by rw [at_colon]; rfl), Option.bind_some] at rest
  rw [at_colon] at rest
  obtain ⟨after', rfl, second⟩ := scan_slash rest (.inl ⟨rfl, rfl⟩) (unset .host (by decide)) host
  obtain ⟨after, rfl, third⟩ := scan_slash second (.inr ⟨rfl, rfl⟩) (unset .host (by decide)) host
  have text : uri = schemeOf uri ++ ([colon, slash, slash] ++ after) := by
    have split := List.takeWhile_append_dropWhile (p := fun c => decide (c ≠ colon)) (l := uri)
    rw [after_eq] at split
    exact split.symm
  have hierarchy : hierarchyOf uri = after := by
    have dropped : ∀ w, uri = w ++ ([colon, slash, slash] ++ after) →
        uri.drop (w.length + 3) = after := by
      rintro w rfl
      rw [← List.drop_drop, List.drop_left]
      rfl
    exact dropped _ text
  obtain ⟨server, found_host, found_path, found_query, sign⟩ := scan_hierarchy third
    rfl unset old (by rw [reads.sign]; rfl) host
  have port_kept : r.url.fieldSet .port = t.url.fieldSet .port := 
    (loop_keeps third .port (Nat.zero_lt_succ 3)).1
  rw [← hierarchy] at text server found_host found_path found_query sign
  exact {
    text := text
    letters := letters
    named := named
    server := server
    schema := scheme
    host := found_host
    path := found_path
    query := found_query
    no_port := by rw [port_kept, unset .port (by decide)]
    found_at := sign }

end Nghttp2Asio.UrlParser
