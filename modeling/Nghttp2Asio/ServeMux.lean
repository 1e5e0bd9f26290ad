import Nghttp2Asio.Http
import Nghttp2Asio.Library.LongestMatch
import Nghttp2Asio.Library.OrderedTable
import Nghttp2Asio.PathJoin

/-!
The request multiplexer of asio_server_serve_mux.cc: registration of patterns and
the choice of the callback that answers a request. A user callback is an opaque
value; the two handlers the library makes itself keep their arguments.
-/
namespace Nghttp2Asio.ServeMux
open Util PathJoin OrderedTable
variable {α : Type}

inductive RequestCb (α : Type) where
  | app (f : α)
  | redirectHandler (statusCode : Nat) (uri : Bytes)
  | statusHandler (statusCode : Nat)
  deriving DecidableEq, Repr

structure HandlerEntry (α : Type) where
  userDefined : Bool
  cb : RequestCb α
  pattern : Bytes
  deriving DecidableEq, Repr

abbrev Table (α : Type) := Std.ExtTreeMap Bytes (HandlerEntry α)

def userDefinedAt (mux : Table α) (pattern : Bytes) : Bool := mux[pattern]?.any (·.userDefined)

def redirectPath (pattern : Bytes) : Bytes :=
  if pattern.head? = some slash then pattern else pattern.dropWhile (· ≠ slash)

def redirectEntry (pattern : Bytes) : HandlerEntry α :=
  ⟨false, .redirectHandler 301 (redirectPath pattern), pattern⟩

def addRedirect (mux : Table α) (pattern : Bytes) : Table α :=
  if 2 ≤ pattern.length ∧ pattern.getLast? = some slash then
    let redirectPattern := pattern.dropLast
    match mux[redirectPattern]? with
    | none => mux.insertIfNew redirectPattern (redirectEntry pattern)
    | some e =>
      if e.userDefined then mux else mux.insert redirectPattern (redirectEntry pattern)
  else mux

/-- An empty `std::function` is `none`. The last `emplace` leaves an entry that is
    already there as it is. -/
def handle (mux : Table α) (pattern : Bytes) (cb : Option (RequestCb α)) : Bool × Table α :=
  match cb with
  | none => (false, mux)
  | some cb =>
    if pattern = [] then (false, mux)
    else if userDefinedAt mux pattern then (false, mux)
    else (true, (addRedirect mux pattern).insertIfNew pattern ⟨true, cb, pattern⟩)

def pathMatch (pattern path : Bytes) : Bool :=
  if pattern.getLast? ≠ some slash then pattern == path else startsWith path pattern

def matchEntries (entries : List (Bytes × HandlerEntry α)) (path : Bytes) :
    Option (RequestCb α) :=
  (LongestMatch.scan (fun kv => pathMatch kv.1 path) (fun kv => kv.1.length) entries).map
    (fun kv => kv.2.cb)

def cleanLocation (uri : UriRef) : Bytes :=
  let newUri := percentEncodePath (cleanPath uri.path)
  if uri.rawQuery = [] then newUri else newUri ++ question :: uri.rawQuery

def redirectsToClean (req : RequestImpl) : Bool :=
  req.method ≠ lit "CONNECT" && cleanPath req.uri.path ≠ req.uri.path

def handlerIn (entries : List (Bytes × HandlerEntry α)) (req : RequestImpl) : RequestCb α :=
  if redirectsToClean req then .redirectHandler 301 (cleanLocation req.uri)
  else
    match matchEntries entries (req.uri.host ++ req.uri.path) with
    | some cb => cb
    | none =>
      match matchEntries entries req.uri.path with
      | some cb => cb
      | none => .statusHandler 404

def handler (mux : Table α) (req : RequestImpl) : RequestCb α := handlerIn mux.toList req

/-! Registration. -/

structure Call (α : Type) where
  pattern : Bytes
  cb : Option (RequestCb α)
  deriving DecidableEq, Repr

structure Registration (α : Type) where
  log : List (Call α × Bool)
  table : Table α

def register (r : Registration α) (c : Call α) : Registration α :=
  ⟨r.log ++ [(c, (handle r.table c.pattern c.cb).1)], (handle r.table c.pattern c.cb).2⟩

def registerAll (calls : List (Call α)) : Registration α := calls.foldl register ⟨[], ∅⟩

def Valid (c : Call α) : Prop := c.pattern ≠ [] ∧ c.cb.isSome = true

instance (c : Call α) : Decidable (Valid c) := inferInstanceAs (Decidable (_ ∧ _))

theorem registerAll_concat (calls : List (Call α)) (c : Call α) :
    registerAll (calls ++ [c]) = register (registerAll calls) c := by
  simp [registerAll]

theorem userDefinedAt_iff (mux : Table α) (pattern : Bytes) :
    userDefinedAt mux pattern = true ↔ ∃ e, mux[pattern]? = some e ∧ e.userDefined = true := by
  simp [userDefinedAt, Option.any_eq_true]

def twin (p : Bytes) : Bytes := p ++ [slash]

theorem twin_ne (p : Bytes) : twin p ≠ p := by simp [twin]

theorem twin_injective {p q : Bytes} (same : twin p = twin q) : p = q := by
  simpa [twin] using same

theorem addRedirect_lookup (mux : Table α) (pattern p : Bytes) (named : p ≠ []) :
    (addRedirect mux pattern)[p]? =
      if pattern = twin p ∧ userDefinedAt mux p = false then some (redirectEntry pattern)
      else mux[p]? := by
  by_cases ends : 2 ≤ pattern.length ∧ pattern.getLast? = some slash
  · obtain ⟨q, rfl⟩ : ∃ q, pattern = twin q := by
      refine ⟨pattern.dropLast, ?_⟩
      have nonempty : pattern ≠ [] := by rintro rfl; simp at ends
      have last := ends.2
      rw [List.getLast?_eq_some_getLast nonempty, Option.some.injEq] at last
      rw [twin, ← last, List.dropLast_append_getLast]
    have shorter : (twin q).dropLast = q := by simp [twin]
    have same_iff : twin q = twin p ↔ q = p := ⟨twin_injective, fun same => same ▸ rfl⟩
    unfold addRedirect
    rw [if_pos ends, shorter]
    simp only [same_iff]
    cases entry : mux[q]? with
    | none =>
      have free : userDefinedAt mux q = false := by simp [userDefinedAt, entry]
      by_cases same : q = p
      · subst same
        simp only [get_emplace, entry, free]
        rfl
      · simp only [get_emplace, same, false_and, ↓reduceIte]
    | some e =>
      have user_iff : userDefinedAt mux q = e.userDefined := by simp [userDefinedAt, entry]
      by_cases same : q = p
      · subst same
        by_cases user : e.userDefined = true <;> simp [user_iff, user, entry]
      · by_cases user : e.userDefined = true
        · simp [same, user]
        · simp [same, user, get_insert]
  · have different : pattern ≠ twin p := by
      rintro rfl
      apply ends
      have : 0 < p.length := List.length_pos_iff.mpr named
      simp [twin]
      omega
    unfold addRedirect
    rw [if_neg ends, if_neg (by simp [different])]

theorem handle_returns (mux : Table α) (c : Call α) :
    (handle mux c.pattern c.cb).1 = true ↔ Valid c ∧ userDefinedAt mux c.pattern = false := by
  obtain ⟨pattern, cb⟩ := c
  cases cb with
  | none => simp [handle, Valid]
  | some cb =>
    by_cases empty : pattern = []
    · simp [handle, Valid, empty]
    · by_cases user : userDefinedAt mux pattern = true <;> simp [handle, Valid, empty, user]

theorem handle_refused {mux : Table α} {c : Call α}
    (refused : (handle mux c.pattern c.cb).1 = false) : (handle mux c.pattern c.cb).2 = mux := by
  obtain ⟨pattern, cb⟩ := c
  cases cb with
  | none => rfl
  | some cb =>
    simp only [handle] at refused ⊢
    split
    · rfl
    · rename_i named
      rw [if_neg named] at refused
      by_cases user : userDefinedAt mux pattern = true
      · simp [user]
      · simp [user] at refused

/-- What an accepted call does to the entry of a pattern: a slot that is taken stays
    as it is, and the twin gets its redirect unless a user registered it. -/
theorem handle_lookup {mux : Table α} {c : Call α} (p : Bytes) (named : p ≠ [])
    (accepted : (handle mux c.pattern c.cb).1 = true) :
    (handle mux c.pattern c.cb).2[p]? =
      if c.pattern = p then mux[p]?.or (c.cb.map (⟨true, ·, p⟩))
      else if c.pattern = twin p ∧ userDefinedAt mux p = false then some (redirectEntry (twin p))
      else mux[p]? := by
  obtain ⟨⟨nonempty, given⟩, free⟩ := (handle_returns mux c).mp accepted
  obtain ⟨pattern, cb⟩ := c
  obtain ⟨cb, rfl⟩ := Option.isSome_iff_exists.mp given
  simp only at nonempty free
  have untouched := addRedirect_lookup mux pattern p named
  simp only [handle, nonempty, free, ↓reduceIte, Bool.false_eq_true, Option.map_some]
  rw [get_emplace]
  by_cases same : pattern = p
  · subst same
    rw [if_neg (by simp [(twin_ne pattern).symm])] at untouched
    simp [untouched]
  · rw [if_neg same, untouched, if_neg same]
    by_cases twins : pattern = twin p <;> simp [twins]

def deciding (calls : List (Call α)) (p : Bytes) : Option (Call α) :=
  calls.find? (fun c => decide (Valid c) && (c.pattern == p || c.pattern == twin p))

def decided (p : Bytes) (c : Call α) : Option (HandlerEntry α) :=
  if c.pattern = p then c.cb.map (⟨true, ·, p⟩) else some (redirectEntry (twin p))

theorem deciding_concat (calls : List (Call α)) (c : Call α) (p : Bytes) :
    deciding (calls ++ [c]) p = (deciding calls p).or
      (if Valid c ∧ (c.pattern = p ∨ c.pattern = twin p) then some c else none) := by
  simp only [deciding, List.find?_append, List.find?_singleton]
  congr 1
  by_cases valid : Valid c <;> simp [valid]

theorem deciding_some {calls : List (Call α)} {p : Bytes} {c : Call α}
    (first : deciding calls p = some c) :
    c ∈ calls ∧ Valid c ∧ (c.pattern = p ∨ c.pattern = twin p) := by
  refine ⟨List.mem_of_find?_eq_some first, ?_⟩
  simpa using List.find?_some first

theorem decided_userDefined {p : Bytes} {c : Call α} {e : HandlerEntry α}
    (entry : decided p c = some e) : e.userDefined = true ↔ c.pattern = p := by
  unfold decided at entry
  split at entry
  · obtain ⟨cb, _, rfl⟩ := Option.map_eq_some_iff.mp entry
    simp_all
  · rename_i other
    simp [← Option.some.inj entry, redirectEntry, other]

theorem decided_isSome (p : Bytes) {c : Call α} (valid : Valid c) : (decided p c).isSome = true := by
  unfold decided
  split
  · simpa using valid.2
  · rfl

theorem deciding_exists {calls : List (Call α)} {p : Bytes} {c : Call α} (member : c ∈ calls)
    (valid : Valid c) (pattern : c.pattern = p ∨ c.pattern = twin p) :
    ∃ d, deciding calls p = some d := by
  rw [← Option.isSome_iff_exists, deciding, List.find?_isSome]
  exact ⟨c, member, by simpa using ⟨valid, pattern⟩⟩

theorem user_iff_deciding {calls : List (Call α)} {p : Bytes}
    (lookup : (registerAll calls).table[p]? = (deciding calls p).bind (decided p)) :
    userDefinedAt (registerAll calls).table p = true ↔
      ∃ d, deciding calls p = some d ∧ d.pattern = p := by
  rw [userDefinedAt_iff, lookup]
  constructor
  · rintro ⟨e, entry, user⟩
    obtain ⟨d, first, made⟩ := Option.bind_eq_some_iff.mp entry
    exact ⟨d, first, (decided_userDefined made).mp user⟩
  · rintro ⟨d, first, same⟩
    obtain ⟨e, made⟩ := Option.isSome_iff_exists.mp (decided_isSome p (deciding_some first).2.1)
    exact ⟨e, by simp [first, made], (decided_userDefined made).mpr same⟩

/-- The table after any sequence of calls: the entry of a pattern is decided by the
    first valid call for it or for its twin. -/
theorem registerAll_lookup (calls : List (Call α)) (p : Bytes) (named : p ≠ []) :
    (registerAll calls).table[p]? = (deciding calls p).bind (decided p) := by
  induction calls using List.reverseRecOn generalizing p with
  | nil => simp [registerAll, deciding]
  | append_singleton calls c ih =>
    have user := user_iff_deciding (ih p named)
    rw [registerAll_concat, register, deciding_concat]
    cases accepted : (handle (registerAll calls).table c.pattern c.cb).1 with
    | false =>
      simp only [handle_refused accepted]
      rw [ih p named]
      cases first : deciding calls p with
      | some d => rfl
      | none =>
        -- a refused valid call has an earlier twin of itself, which decides already
        rw [if_neg]
        · rfl
        rintro ⟨valid, pattern⟩
        have taken : userDefinedAt (registerAll calls).table c.pattern = true := by
          by_contra free
          exact absurd ((handle_returns _ c).mpr ⟨valid, by simpa using free⟩) (by simp [accepted])
        obtain ⟨d, earlier, same⟩ := (user_iff_deciding (ih _ valid.1)).mp taken
        obtain ⟨member, d_valid, _⟩ := deciding_some earlier
        obtain ⟨e, found⟩ := deciding_exists member d_valid (same ▸ pattern)
        simp [first] at found
    | true =>
      have valid := ((handle_returns _ c).mp accepted).1
      simp only [handle_lookup p named accepted]
      rw [ih p named]
      cases first : deciding calls p with
      | some d =>
        obtain ⟨e, made⟩ :=
          Option.isSome_iff_exists.mp (decided_isSome p (deciding_some first).2.1)
        simp only [Option.bind_some, Option.some_or, made]
        split
        · rfl
        split
        · rename_i other twins
          have not_user : d.pattern ≠ p := by
            intro same
            have taken := user.mpr ⟨d, first, same⟩
            simp [twins.2] at taken
          rw [← made, decided, if_neg not_user]
        · rfl
      | none =>
        have free : userDefinedAt (registerAll calls).table p = false := by
          by_contra taken
          obtain ⟨d, found, _⟩ := user.mp (by simpa using taken)
          simp [first] at found
        by_cases same : c.pattern = p
        · simp [same, valid, decided]
        · by_cases twins : c.pattern = twin p
          · simp [twins, valid, decided, twin_ne, free]
          · simp [same, twins]

theorem mem_log {calls : List (Call α)} {c : Call α} {ok : Bool} :
    (c, ok) ∈ (registerAll calls).log ↔ ∃ pre post, calls = pre ++ c :: post ∧
      (handle (registerAll pre).table c.pattern c.cb).1 = ok := by
  induction calls using List.reverseRecOn with
  | nil => simp [registerAll]
  | append_singleton calls d ih =>
    rw [registerAll_concat, register, List.mem_append, ih]
    constructor
    · rintro (⟨pre, post, rfl, result⟩ | last)
      · exact ⟨pre, post ++ [d], by simp, result⟩
      · obtain ⟨rfl, rfl⟩ := Prod.mk.inj (List.mem_singleton.mp last)
        exact ⟨calls, [], rfl, rfl⟩
    · rintro ⟨pre, post, split, result⟩
      cases post using List.reverseRecOn with
      | nil =>
        obtain ⟨rfl, rfl⟩ := List.append_singleton_inj.mp split
        exact Or.inr (by simp [result])
      | append_singleton post e =>
        have regrouped : calls ++ [d] = (pre ++ c :: post) ++ [e] := by simp [split]
        obtain ⟨rfl, rfl⟩ := List.append_singleton_inj.mp regrouped
        exact Or.inl ⟨pre, post, rfl, result⟩

def ValidFor (calls : List (Call α)) (p : Bytes) : Prop := ∃ c ∈ calls, Valid c ∧ c.pattern = p

def Registered (calls : List (Call α)) (p : Bytes) : Prop :=
  ∃ c, (c, true) ∈ (registerAll calls).log ∧ c.pattern = p

theorem user_iff (calls : List (Call α)) (p : Bytes) (named : p ≠ []) :
    userDefinedAt (registerAll calls).table p = true ↔
      ∃ d, deciding calls p = some d ∧ d.pattern = p :=
  user_iff_deciding (registerAll_lookup calls p named)

theorem registered_iff_valid (calls : List (Call α)) (p : Bytes) :
    Registered calls p ↔ ValidFor calls p := by
  constructor
  · rintro ⟨c, logged, same⟩
    obtain ⟨pre, post, rfl, accepted⟩ := mem_log.mp logged
    exact ⟨c, by simp, ((handle_returns _ c).mp accepted).1, same⟩
  · rintro ⟨c, member, valid, same⟩
    obtain ⟨first, found⟩ : ∃ d, calls.find? (fun c => decide (Valid c ∧ c.pattern = p)) = some d := by
      rw [← Option.isSome_iff_exists, List.find?_isSome]
      exact ⟨c, member, by simp [valid, same]⟩
    obtain ⟨holds, pre, post, rfl, earlier⟩ := List.find?_eq_some_iff_append.mp found
    obtain ⟨first_valid, first_same⟩ := of_decide_eq_true holds
    refine ⟨first, mem_log.mpr ⟨pre, post, rfl, (handle_returns _ first).mpr ⟨first_valid, ?_⟩⟩,
      first_same⟩
    by_contra taken
    obtain ⟨d, deciding_pre, d_same⟩ :=
      (user_iff pre first.pattern first_valid.1).mp (by simpa using taken)
    obtain ⟨inside, d_valid, _⟩ := deciding_some deciding_pre
    have refused := earlier d inside
    simp [d_valid, d_same, first_same] at refused

theorem addRedirect_empty (mux : Table α) (pattern : Bytes) :
    (addRedirect mux pattern)[([] : Bytes)]? = mux[([] : Bytes)]? := by
  unfold addRedirect
  split
  · rename_i long
    have named : pattern.dropLast ≠ [] := by
      intro short
      have size := congrArg List.length short
      simp only [List.length_dropLast, List.length_nil] at size
      omega
    simp only
    split
    · rw [get_emplace, if_neg named]
    split
    · rfl
    · rw [get_insert, if_neg named]
  · rfl

theorem registerAll_empty (calls : List (Call α)) :
    (registerAll calls).table[([] : Bytes)]? = none := by
  induction calls using List.reverseRecOn with
  | nil => simp [registerAll]
  | append_singleton calls c ih =>
    rw [registerAll_concat, register]
    obtain ⟨pattern, cb⟩ := c
    cases cb with
    | none => exact ih
    | some cb =>
      simp only [handle]
      split
      · exact ih
      split
      · exact ih
      · rename_i named _
        simp [get_emplace, named, addRedirect_empty, ih]

/-- What registration promises: which calls are refused, that every accepted callback
    is in the table, and that everything else in it is an implicit redirect. -/
structure Promised (calls : List (Call α)) : Prop where
  returns : ∀ pre c post, calls = pre ++ c :: post →
    ((handle (registerAll pre).table c.pattern c.cb).1 = false ↔
      c.pattern = [] ∨ c.cb = none ∨ Registered pre c.pattern)
  users : ∀ p cb, (⟨p, some cb⟩, true) ∈ (registerAll calls).log →
    (registerAll calls).table[p]? = some ⟨true, cb, p⟩
  others : ∀ p, ¬ Registered calls p → ∀ e, (registerAll calls).table[p]? = some e ↔
    p ≠ [] ∧ Registered calls (twin p) ∧ e = redirectEntry (twin p)

/-- No pattern is registered for the first time after its twin. -/
def TwinsOrdered (calls : List (Call α)) : Prop :=
  ∀ pre d post p, calls = pre ++ d :: post → p ≠ [] → Valid d → d.pattern = twin p →
    ValidFor post p → ValidFor pre p

theorem twinsOrdered_before {calls post : List (Call α)} (ordered : TwinsOrdered (calls ++ post)) :
    TwinsOrdered calls := by
  rintro pre d rest p rfl named valid twins ⟨c, member, c_valid, same⟩
  exact ordered pre d (rest ++ post) p (by simp) named valid twins
    ⟨c, by simp [member], c_valid, same⟩

theorem deciding_append (xs ys : List (Call α)) (p : Bytes) :
    deciding (xs ++ ys) p = (deciding xs p).or (deciding ys p) := by
  simp [deciding, List.find?_append]

theorem ordered_deciding {calls : List (Call α)} (ordered : TwinsOrdered calls) {p : Bytes}
    (named : p ≠ []) (called : ValidFor calls p) :
    ∃ d, deciding calls p = some d ∧ d.pattern = p := by
  obtain ⟨c, member, valid, same⟩ := called
  obtain ⟨d, first⟩ := deciding_exists member valid (Or.inl same)
  refine ⟨d, first, ?_⟩
  by_contra other
  have twins : d.pattern = twin p := (deciding_some first).2.2.resolve_left other
  obtain ⟨_, pre, post, rfl, earlier⟩ := List.find?_eq_some_iff_append.mp first
  have none_before : ¬ ValidFor pre p := by
    rintro ⟨e, inside, e_valid, e_same⟩
    have refused := earlier e inside
    simp [e_valid, e_same] at refused
  apply none_before
  refine ordered pre d post p rfl named (deciding_some first).2.1 twins ⟨c, ?_, valid, same⟩
  rcases List.mem_append.mp member with inside | later
  · exact absurd ⟨c, inside, valid, same⟩ none_before
  · exact (List.mem_cons.mp later).resolve_left (fun eq => other (eq ▸ same))

theorem others_redirect (calls : List (Call α)) (p : Bytes) (unregistered : ¬ Registered calls p)
    (e : HandlerEntry α) : (registerAll calls).table[p]? = some e ↔
      p ≠ [] ∧ Registered calls (twin p) ∧ e = redirectEntry (twin p) := by
  by_cases named : p = []
  · subst named
    simp [registerAll_empty]
  have not_called : ∀ d, deciding calls p = some d → d.pattern = twin p := by
    intro d first
    obtain ⟨member, valid, pattern⟩ := deciding_some first
    refine pattern.resolve_left (fun same => unregistered ?_)
    exact (registered_iff_valid calls p).mpr ⟨d, member, valid, same⟩
  rw [registerAll_lookup calls p named, registered_iff_valid, Option.bind_eq_some_iff]
  constructor
  · rintro ⟨d, first, made⟩
    have twins := not_called d first
    obtain ⟨member, valid, _⟩ := deciding_some first
    refine ⟨named, ⟨d, member, valid, twins⟩, ?_⟩
    rw [decided, twins, if_neg (twin_ne p)] at made
    exact (Option.some.inj made).symm
  · rintro ⟨_, ⟨c, member, valid, twins⟩, rfl⟩
    obtain ⟨d, first⟩ := deciding_exists member valid (Or.inr twins)
    exact ⟨d, first, by rw [decided, not_called d first, if_neg (twin_ne p)]⟩

theorem ordered_user_iff {calls : List (Call α)} (ordered : TwinsOrdered calls) {p : Bytes}
    (named : p ≠ []) : userDefinedAt (registerAll calls).table p = true ↔ Registered calls p := by
  rw [user_iff calls p named, registered_iff_valid]
  constructor
  · rintro ⟨d, first, same⟩
    obtain ⟨member, valid, _⟩ := deciding_some first
    exact ⟨d, member, valid, same⟩
  · exact ordered_deciding ordered named

theorem ordered_returns {pre : List (Call α)} (ordered : TwinsOrdered pre) (c : Call α) :
    (handle (registerAll pre).table c.pattern c.cb).1 = false ↔
      c.pattern = [] ∨ c.cb = none ∨ Registered pre c.pattern := by
  rw [← Bool.not_eq_true, handle_returns]
  by_cases named : c.pattern = []
  · simp [Valid, named]
  by_cases given : c.cb = none
  · simp [Valid, given]
  have valid : Valid c := ⟨named, Option.isSome_iff_ne_none.mpr given⟩
  rw [← ordered_user_iff ordered named]
  simp [valid, named, given]

theorem ordered_users {calls : List (Call α)} (ordered : TwinsOrdered calls) {p : Bytes}
    {cb : RequestCb α} (logged : (⟨p, some cb⟩, true) ∈ (registerAll calls).log) :
    (registerAll calls).table[p]? = some ⟨true, cb, p⟩ := by
  obtain ⟨pre, post, rfl, accepted⟩ := mem_log.mp logged
  obtain ⟨valid, free⟩ := (handle_returns _ _).mp accepted
  have named : p ≠ [] := valid.1
  -- nothing before the accepted call decides its pattern
  have undecided : deciding pre p = none := by
    cases first : deciding pre p with
    | none => rfl
    | some d =>
      obtain ⟨e, decides, own⟩ := ordered_deciding ordered named ⟨_, by simp, valid, rfl⟩
      rw [deciding_append, first, Option.some_or] at decides
      have taken := (user_iff pre p named).mpr ⟨d, first, Option.some.inj decides ▸ own⟩
      simp [free] at taken
  rw [registerAll_lookup _ p named, deciding_append, undecided]
  have found : deciding (⟨p, some cb⟩ :: post) p = some ⟨p, some cb⟩ := by
    rw [deciding, List.find?_cons_of_pos (by simp [valid])]
  simp [found, decided]

theorem promised_of_ordered {calls : List (Call α)} (ordered : TwinsOrdered calls) :
    Promised calls where
  returns := by
    rintro pre c post rfl
    exact ordered_returns (twinsOrdered_before ordered) c
  users _ _ logged := ordered_users ordered logged
  others p unregistered e := others_redirect calls p unregistered e

theorem ordered_of_promised {calls : List (Call α)} (promised : Promised calls) :
    TwinsOrdered calls := by
  rintro pre d post p rfl named valid twins called
  by_contra none_before
  -- the twin decides the entry, so it can never become the user's
  have redirected : ∃ e, deciding (pre ++ d :: post) p = some e ∧ e.pattern ≠ p := by
    rw [deciding_append]
    cases first : deciding pre p with
    | some e =>
      obtain ⟨member, e_valid, _⟩ := deciding_some first
      exact ⟨e, rfl, fun same => none_before ⟨e, member, e_valid, same⟩⟩
    | none =>
      refine ⟨d, ?_, by rw [twins]; exact twin_ne p⟩
      rw [Option.none_or, deciding, List.find?_cons_of_pos (by simp [valid, twins])]
  obtain ⟨e, first, other⟩ := redirected
  have registered : Registered (pre ++ d :: post) p := by
    obtain ⟨c, member, c_valid, same⟩ := called
    exact (registered_iff_valid _ p).mpr ⟨c, by simp [member], c_valid, same⟩
  obtain ⟨⟨q, cb⟩, logged, same⟩ := registered
  obtain ⟨_, _, _, accepted⟩ := mem_log.mp logged
  obtain ⟨cb, rfl⟩ := Option.isSome_iff_exists.mp ((handle_returns _ _).mp accepted).1.2
  have entry := promised.users q cb logged
  simp only at same
  subst same
  rw [registerAll_lookup _ q named, first, Option.bind_some, decided, if_neg other] at entry
  simp [redirectEntry] at entry

theorem ordered_lookup_iff {calls : List (Call α)} (ordered : TwinsOrdered calls)
    (distinct : (calls.map Call.pattern).Nodup) (p : Bytes) (e : HandlerEntry α) :
    (registerAll calls).table[p]? = some e ↔ p ≠ [] ∧
      ((∃ cb, ⟨p, some cb⟩ ∈ calls ∧ e = ⟨true, cb, p⟩) ∨
        (¬ ValidFor calls p ∧ ValidFor calls (twin p) ∧ e = redirectEntry (twin p))) := by
  by_cases named : p = []
  · subst named
    simp [registerAll_empty]
  by_cases called : ValidFor calls p
  · obtain ⟨d, first, same⟩ := ordered_deciding ordered named called
    obtain ⟨member, valid, _⟩ := deciding_some first
    obtain ⟨q, cb⟩ := d
    obtain ⟨cb, rfl⟩ := Option.isSome_iff_exists.mp valid.2
    simp only at same
    subst same
    have only : ∀ cb', ⟨q, some cb'⟩ ∈ calls → cb' = cb := by
      intro cb' other
      have equal := List.inj_on_of_nodup_map distinct other member rfl
      simpa using equal
    rw [registerAll_lookup _ q named, first]
    simp only [Option.bind_some, decided, ↓reduceIte, Option.map_some, Option.some.injEq, called,
      not_true_eq_false, false_and, or_false]
    constructor
    · rintro rfl
      exact ⟨named, cb, member, rfl⟩
    · rintro ⟨_, cb', other, rfl⟩
      rw [only cb' other]
  · have unregistered : ¬ Registered calls p := fun h => called ((registered_iff_valid _ _).mp h)
    have no_call : ∀ cb, ⟨p, some cb⟩ ∉ calls := fun cb member =>
      called ⟨_, member, ⟨named, rfl⟩, rfl⟩
    rw [others_redirect calls p unregistered, registered_iff_valid]
    simp [called, no_call]

theorem ordered_table_perm {calls calls' : List (Call α)} (same : calls.Perm calls')
    (distinct : (calls.map Call.pattern).Nodup) (ordered : TwinsOrdered calls)
    (ordered' : TwinsOrdered calls') : (registerAll calls').table = (registerAll calls).table := by
  have distinct' : (calls'.map Call.pattern).Nodup := (same.map _).nodup_iff.mp distinct
  have called_iff : ∀ q, ValidFor calls q ↔ ValidFor calls' q := by
    intro q
    unfold ValidFor
    simp only [same.mem_iff]
  apply Std.ExtTreeMap.ext_getElem?
  intro p
  apply Option.ext
  intro e
  rw [ordered_lookup_iff ordered' distinct', ordered_lookup_iff ordered distinct]
  simp only [called_iff, same.mem_iff]

/-- Registration keeps its promises exactly for the sequences in the order of the
    twins; among those, the table does not depend on the order. -/
theorem registration_promised_iff (calls : List (Call α)) :
    (Promised calls ↔ TwinsOrdered calls) ∧
      (TwinsOrdered calls → ∀ calls', calls.Perm calls' → (calls.map Call.pattern).Nodup →
        TwinsOrdered calls' → (registerAll calls').table = (registerAll calls).table) :=
  ⟨⟨ordered_of_promised, promised_of_ordered⟩, fun ordered _ same distinct ordered' =>
    ordered_table_perm same distinct ordered ordered'⟩

/-- Registering `/a/` and then `/a`: the second call returns true, but its callback is
    lost behind the redirect, and the other order gives another table. -/
theorem late_twin_lost :
    let slashed : Call Nat := ⟨lit "/a/", some (.app 1)⟩
    let plain : Call Nat := ⟨lit "/a", some (.app 2)⟩
    ¬ Promised [slashed, plain] ∧
      (registerAll [plain, slashed]).table ≠ (registerAll [slashed, plain]).table := by
  intro slashed plain
  constructor
  · intro promised
    have entry := promised.users (lit "/a") (.app 2) (by decide)
    revert entry
    decide
  · intro same
    have entry := congrArg (fun t : Table Nat => t[lit "/a"]?) same
    revert entry
    decide

end Nghttp2Asio.ServeMux
