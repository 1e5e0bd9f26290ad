import Nghttp2Asio.ServeMux

/-!
What `serve_mux::handler` decides: which paths it redirects, what the redirect
points to, and which entry of a registered table answers the rest.
-/
namespace Nghttp2Asio.Routing
open Util PathJoin SegmentStack ServeMux
variable {α : Type}

/-! The cleaning redirect. -/

def SingleSlash (location : Bytes) : Prop :=
  location.head? = some slash ∧ location[1]? ≠ some slash

theorem cleanPath_rooted (p : Bytes) : ∃ r, cleanPath p = slash :: r := by
  rw [cleanPath_resolve]
  exact ⟨_, rfl⟩

theorem cleanLocation_front (uri : UriRef) : (cleanLocation uri).head? = some slash ∧
    ((cleanLocation uri)[1]? = some slash ↔ (cleanPath uri.path)[1]? = some slash) := by
  obtain ⟨r, rooted⟩ := cleanPath_rooted uri.path
  obtain ⟨query, located, safe⟩ : ∃ query, cleanLocation uri =
      slash :: (percentEncodePath r ++ query) ∧ query.head? ≠ some slash := by
    unfold cleanLocation
    rw [rooted]
    split
    · exact ⟨[], by simp [percentEncodePath, percentEncodeChar_slash], by simp⟩
    · exact ⟨question :: uri.rawQuery, by simp [percentEncodePath, percentEncodeChar_slash],
        by simpa using question_ne_slash⟩
  rw [located, rooted]
  refine ⟨rfl, ?_⟩
  cases r with
  | nil => simpa [percentEncodePath, List.head?_eq_getElem?] using safe
  | cons c r =>
    by_cases double : c = slash
    · simp [percentEncodePath, double, percentEncodeChar_slash]
    · obtain ⟨h, tail, encoded, other⟩ :=
        percentEncodeChar_head c double (percentEncodePath r ++ query)
      have front : percentEncodePath (c :: r) ++ query = h :: tail := by
        simpa [percentEncodePath] using encoded
      simp [front, other, double]

theorem handler_redirects (mux : Table α) {req : RequestImpl} (cleaning : redirectsToClean req = true) :
    handler mux req = .redirectHandler 301 (cleanLocation req.uri) := by
  simp [handler, handlerIn, cleaning]

theorem redirectsToClean_iff {req : RequestImpl} (method : req.method ≠ lit "CONNECT") :
    redirectsToClean req = true ↔ ¬ Canonical req.uri.path := by
  simp [redirectsToClean, method, cleanPath_fixed_iff]

theorem rooted_empty_not_canonical {p : Bytes}
    (rooted : RootedEmpty [dot] [dot, dot] (p.splitOn slash)) : ¬ Canonical p := by
  rintro ⟨_, _, named⟩
  obtain ⟨pre, d, post, split, _, relative, _⟩ := rooted
  have absolute := named d (by rw [split]; simp)
  tauto

/-- The path-cleaning redirect stays on this host exactly when the request path has no
    relative segment directly followed by an empty one at the root, left open by the
    segments after it. -/
theorem redirect_stays_iff (mux : Table α) (req : RequestImpl)
    (method : req.method ≠ lit "CONNECT") :
    (redirectsToClean req = true → ∀ location,
        handler mux req = .redirectHandler 301 location → SingleSlash location) ↔
      ¬ RootedEmpty [dot] [dot, dot] (req.uri.path.splitOn slash) := by
  obtain ⟨front, second⟩ := cleanLocation_front req.uri
  rw [← cleanPath_double_iff, ← second]
  constructor
  · intro stays double
    have cleaning : redirectsToClean req = true := by
      rw [redirectsToClean_iff method]
      exact rooted_empty_not_canonical ((cleanPath_double_iff _).mp (second.mp double))
    exact (stays cleaning _ (handler_redirects mux cleaning)).2 double
  · rintro single cleaning location answered
    rw [handler_redirects mux cleaning] at answered
    injection answered with _ located
    exact located ▸ ⟨front, single⟩

def getRequest (path : Bytes) : RequestImpl :=
  { RequestImpl.empty with method := lit "GET", uri := { UriRef.empty with path := path } }

theorem redirect_stays_dots : SingleSlash (lit "/b") := by
  refine (redirect_stays_iff (∅ : Table Unit) (getRequest (lit "/a/../b")) (by decide)).mpr ?_
    (by decide +kernel) _ (by decide +kernel)
  rw [← cleanPath_double_iff]
  decide +kernel

theorem redirect_leaves_host :
    redirectsToClean (getRequest (lit "/.//evil.example/")) = true ∧
      handler (∅ : Table Unit) (getRequest (lit "/.//evil.example/")) =
        .redirectHandler 301 (lit "//evil.example/") ∧
      ¬ SingleSlash (lit "//evil.example/") := by
  refine ⟨by decide +kernel, by decide +kernel, fun single => single.2 (by decide)⟩

/-- Only canonical paths get past the cleaning redirect, so only they reach a user's
    handler, however the path was encoded. -/
theorem only_canonical_dispatched (p : Bytes) :
    (pathJoin [] [] p [] = p ↔ Canonical p) ∧
      ∀ (calls : List (Call α)) (req : RequestImpl), req.method ≠ lit "CONNECT" →
        req.uri.path = p →
        (redirectsToClean req = false ↔ Canonical p) ∧
        (¬ Canonical p → handler (registerAll calls).table req =
          .redirectHandler 301 (cleanLocation req.uri)) ∧
        (∀ f, handler (registerAll calls).table req = .app f → Canonical p) ∧
        (∀ dst value, req.uri = splitPath dst value →
          (∃ f, handler (registerAll calls).table req = .app f) →
          Canonical (percentDecode (value.takeWhile (· ≠ question)))) := by
  refine ⟨cleanPath_fixed_iff p, fun calls req method path => ?_⟩
  subst path
  have redirected : ¬ Canonical req.uri.path → handler (registerAll calls).table req =
      .redirectHandler 301 (cleanLocation req.uri) := by
    intro odd
    exact handler_redirects _ ((redirectsToClean_iff method).mpr odd)
  have dispatched : ∀ f, handler (registerAll calls).table req = .app f →
      Canonical req.uri.path := by
    intro f answered
    by_contra odd
    rw [redirected odd] at answered
    cases answered
  refine ⟨?_, redirected, dispatched, ?_⟩
  · rw [← not_iff_not, ← redirectsToClean_iff method]
    simp
  · rintro dst value uri ⟨f, answered⟩
    have canonical := dispatched f answered
    rw [uri] at canonical
    exact canonical

/-! The routing rule. -/

def hostPart (pattern : Bytes) : Bytes := pattern.takeWhile (· ≠ slash)

def pathPart (pattern : Bytes) : Bytes := pattern.dropWhile (· ≠ slash)

def PathMatches (part path : Bytes) : Prop :=
  part = path ∨ (part.getLast? = some slash ∧ part <+: path)

def HostMatch (host path pattern : Bytes) : Prop :=
  hostPart pattern ≠ [] ∧ hostPart pattern = host ∧ PathMatches (pathPart pattern) path

def AnyHostMatch (path pattern : Bytes) : Prop :=
  pattern.head? = some slash ∧ PathMatches pattern path

def Longest (table : Table α) (Matches : Bytes → Prop) (pattern : Bytes) (e : HandlerEntry α) :
    Prop :=
  table[pattern]? = some e ∧ Matches pattern ∧
    ∀ q d, table[q]? = some d → Matches q → q ≠ pattern → q.length < pattern.length

def NoMatch (table : Table α) (Matches : Bytes → Prop) : Prop :=
  ∀ q d, table[q]? = some d → ¬ Matches q

/-- The answer the documentation of `http2::handle` describes. -/
inductive Routed (table : Table α) (host path : Bytes) : RequestCb α → Prop where
  | host (pattern : Bytes) (e : HandlerEntry α)
      (longest : Longest table (HostMatch host path) pattern e) : Routed table host path e.cb
  | anyHost (pattern : Bytes) (e : HandlerEntry α)
      (other_host : NoMatch table (HostMatch host path))
      (longest : Longest table (AnyHostMatch path) pattern e) : Routed table host path e.cb
  | notFound (other_host : NoMatch table (HostMatch host path))
      (other_path : NoMatch table (AnyHostMatch path)) :
      Routed table host path (.statusHandler 404)

theorem pathMatch_iff (pattern text : Bytes) :
    pathMatch pattern text = true ↔ PathMatches pattern text := by
  unfold pathMatch PathMatches startsWith
  split
  · rename_i file
    simp [file]
  · rename_i dir
    rw [List.isPrefixOf_iff_prefix]
    constructor
    · intro front
      exact Or.inr ⟨by simpa using dir, front⟩
    · rintro (rfl | ⟨_, front⟩)
      · exact List.prefix_refl _
      · exact front

theorem pathMatches_rooted {pattern r : Bytes} (named : pattern ≠ []) :
    PathMatches pattern (slash :: r) ↔ AnyHostMatch (slash :: r) pattern := by
  refine ⟨fun found => ⟨?_, found⟩, fun found => found.2⟩
  obtain ⟨c, rest, rfl⟩ := List.exists_cons_of_ne_nil named
  rcases found with same | ⟨_, front⟩
  · simp [(List.cons.inj same).1]
  · simp [(List.cons_prefix_cons.mp front).1]

/-- No pattern can straddle the border between the host and the path. -/
theorem pathMatches_host {host r : Bytes} (pattern : Bytes) (free : slash ∉ host) (given : host ≠ []) :
    PathMatches pattern (host ++ slash :: r) ↔ HostMatch host (slash :: r) pattern := by
  by_cases member : slash ∈ pattern
  · obtain ⟨h, t, rfl, h_free⟩ := List.eq_append_cons_of_mem member
    have parts : hostPart (h ++ slash :: t) = h ∧ pathPart (h ++ slash :: t) = slash :: t :=
      ⟨takeWhile_segment h_free t, dropWhile_segment h_free t⟩
    have last : (h ++ slash :: t).getLast? = (slash :: t).getLast? := by
      obtain ⟨c, last⟩ : ∃ c, (slash :: t).getLast? = some c :=
        ⟨_, List.getLast?_eq_some_getLast (by simp)⟩
      rw [List.getLast?_append, last, Option.some_or]
    unfold HostMatch PathMatches
    rw [parts.1, parts.2, last]
    constructor
    · intro found
      have front : h ++ slash :: t <+: host ++ slash :: r := by
        rcases found with same | ⟨_, front⟩
        · rw [same]
        · exact front
      have same : host = h := by
        refine (first_segment_iff free h_free r).mp (List.IsPrefix.trans ?_ front)
        exact ⟨t, by simp⟩
      subst same
      refine ⟨given, rfl, ?_⟩
      rcases found with same | ⟨ends, front⟩
      · exact Or.inl (List.append_cancel_left same)
      · exact Or.inr ⟨ends, (List.prefix_append_right_inj host).mp front⟩
    · rintro ⟨_, rfl, same | ⟨ends, front⟩⟩
      · exact Or.inl (by rw [same])
      · exact Or.inr ⟨ends, (List.prefix_append_right_inj h).mpr front⟩
  · have no_path : pathPart pattern = [] := by
      unfold pathPart
      rw [List.dropWhile_eq_nil_iff]
      intro c inside
      simpa using ne_of_mem_of_not_mem inside member
    unfold HostMatch PathMatches
    rw [no_path]
    constructor
    · rintro (rfl | ⟨ends, _⟩)
      · simp at member
      · exact absurd (List.mem_of_getLast? ends) member
    · rintro ⟨_, _, absent | ⟨ends, _⟩⟩
      · simp at absent
      · simp at ends

theorem pathMatches_unique {p q text : Bytes} (left : PathMatches p text)
    (right : PathMatches q text) (size : p.length = q.length) : p = q := by
  have front : ∀ {x : Bytes}, PathMatches x text → x <+: text := by
    rintro x (rfl | ⟨_, front⟩)
    · exact List.prefix_refl _
    · exact front
  exact (List.prefix_of_prefix_length_le (front left) (front right) size.le).eq_of_length size

theorem matchEntries_longest {table : Table α} {order : List (Bytes × HandlerEntry α)}
    {text : Bytes} {Matches : Bytes → Prop} (iterated : order.Perm table.toList)
    (same : ∀ q d, table[q]? = some d → (PathMatches q text ↔ Matches q)) :
    (matchEntries order text = none → NoMatch table Matches) ∧
      ∀ cb, matchEntries order text = some cb →
        ∃ pattern e, Longest table Matches pattern e ∧ e.cb = cb := by
  have inside : ∀ q d, table[q]? = some d ↔ (q, d) ∈ order := by
    intro q d
    rw [iterated.mem_iff, Std.ExtTreeMap.mem_toList_iff_getElem?_eq_some]
  have found := LongestMatch.scan_found (fun kv => pathMatch kv.1 text) (fun kv => kv.1.length) order
  unfold matchEntries
  constructor
  · intro nothing
    rw [Option.map_eq_none_iff.mp nothing] at found
    intro q d entry matched
    have refused : pathMatch q text = false := found (q, d) ((inside q d).mp entry)
    rw [(pathMatch_iff q text).mpr ((same q d entry).mpr matched)] at refused
    cases refused
  · intro cb chosen
    obtain ⟨⟨pattern, e⟩, scanned, rfl⟩ := Option.map_eq_some_iff.mp chosen
    rw [scanned] at found
    obtain ⟨member, accepted, largest⟩ := found
    have entry := (inside pattern e).mpr member
    have matched := (pathMatch_iff pattern text).mp accepted
    refine ⟨pattern, e, ⟨entry, (same pattern e entry).mp matched, ?_⟩, rfl⟩
    intro q d other q_matched different
    have q_text := (same q d other).mpr q_matched
    have bound := largest (q, d) ((inside q d).mp other) ((pathMatch_iff q text).mpr q_text)
    refine Nat.lt_of_le_of_ne bound (fun size => different ?_)
    exact pathMatches_unique q_text matched size

theorem longest_unique {table : Table α} {Matches : Bytes → Prop} {p q : Bytes}
    {e d : HandlerEntry α} (left : Longest table Matches p e) (right : Longest table Matches q d) :
    e = d := by
  have same : p = q := by
    by_contra different
    have shorter := left.2.2 q d right.1 right.2.1 (Ne.symm different)
    have longer := right.2.2 p e left.1 left.2.1 different
    omega
  subst same
  exact Option.some.inj (left.1.symm.trans right.1)

theorem routed_unique {table : Table α} {host path : Bytes} {cb cb' : RequestCb α}
    (left : Routed table host path cb) (right : Routed table host path cb') : cb = cb' := by
  cases left with
  | host p e longest =>
    cases right with
    | host q d longest' => rw [longest_unique longest longest']
    | anyHost q d other_host longest' => exact absurd longest.2.1 (other_host p e longest.1)
    | notFound other_host other_path => exact absurd longest.2.1 (other_host p e longest.1)
  | anyHost p e other_host longest =>
    cases right with
    | host q d longest' => exact absurd longest'.2.1 (other_host q d longest'.1)
    | anyHost q d _ longest' => rw [longest_unique longest longest']
    | notFound _ other_path => exact absurd longest.2.1 (other_path p e longest.1)
  | notFound other_host other_path =>
    cases right with
    | host q d longest' => exact absurd longest'.2.1 (other_host q d longest'.1)
    | anyHost q d _ longest' => exact absurd longest'.2.1 (other_path q d longest'.1)
    | notFound _ _ => rfl

theorem handlerIn_routed (calls : List (Call α)) (req : RequestImpl)
    (clean : cleanPath req.uri.path = req.uri.path) (free : slash ∉ req.uri.host)
    {order : List (Bytes × HandlerEntry α)} (iterated : order.Perm (registerAll calls).table.toList) :
    Routed (registerAll calls).table req.uri.host req.uri.path (handlerIn order req) := by
  have kept : redirectsToClean req = false := by simp [redirectsToClean, clean]
  obtain ⟨r, rooted⟩ := cleanPath_rooted req.uri.path
  rw [clean] at rooted
  simp only [handlerIn, kept, Bool.false_eq_true, ↓reduceIte]
  generalize req.uri.host = host at *
  generalize req.uri.path = path at *
  subst rooted
  have named : ∀ (q : Bytes) d, (registerAll calls).table[q]? = some d → q ≠ [] := by
    rintro q d entry rfl
    simp [registerAll_empty] at entry
  obtain ⟨by_path_none, by_path_some⟩ := matchEntries_longest iterated
    (fun q d entry => pathMatches_rooted (r := r) (named q d entry))
  by_cases given : host = []
  · -- without a host both scans look at the path alone
    have other_host : NoMatch (registerAll calls).table (HostMatch host (slash :: r)) := by
      rintro q d _ ⟨nonempty, same, _⟩
      exact nonempty (same.trans given)
    subst given
    rw [List.nil_append]
    cases chosen : matchEntries order (slash :: r) with
    | none => exact .notFound other_host (by_path_none chosen)
    | some cb =>
      obtain ⟨pattern, e, longest, rfl⟩ := by_path_some cb chosen
      exact .anyHost pattern e other_host longest
  · obtain ⟨by_host_none, by_host_some⟩ := matchEntries_longest iterated
      (fun q d _ => pathMatches_host (r := r) q free given)
    cases first : matchEntries order (host ++ slash :: r) with
    | some cb =>
      obtain ⟨pattern, e, longest, rfl⟩ := by_host_some cb first
      exact .host pattern e longest
    | none =>
      have other_host := by_host_none first
      cases chosen : matchEntries order (slash :: r) with
      | none => exact .notFound other_host (by_path_none chosen)
      | some cb =>
        obtain ⟨pattern, e, longest, rfl⟩ := by_path_some cb chosen
        exact .anyHost pattern e other_host longest

/-- Every request that is not redirected gets the answer of the routing rule, whatever
    the order in which the table is iterated. -/
theorem handler_routed (calls : List (Call α)) (req : RequestImpl)
    (clean : cleanPath req.uri.path = req.uri.path) (free : slash ∉ req.uri.host) :
    (∀ cb, Routed (registerAll calls).table req.uri.host req.uri.path cb ↔
        cb = handler (registerAll calls).table req) ∧
      ∀ order, order.Perm (registerAll calls).table.toList →
        handlerIn order req = handler (registerAll calls).table req := by
  have answer := handlerIn_routed calls req clean free (List.Perm.refl _)
  refine ⟨fun cb => ⟨fun routed => routed_unique routed answer, fun same => same ▸ answer⟩, ?_⟩
  intro order iterated
  exact routed_unique (handlerIn_routed calls req clean free iterated) answer

theorem handler_routed_images :
    let calls : List (Call Nat) := [⟨lit "/images/x", some (.app 1)⟩,
      ⟨lit "a.example/images/", some (.app 2)⟩, ⟨lit "a.example/", some (.app 3)⟩]
    Routed (registerAll calls).table (lit "a.example") (lit "/images/x") (.app 2) := by
  intro calls
  let req : RequestImpl := ⟨HeaderStore.empty, lit "GET",
    { UriRef.empty with host := lit "a.example", path := lit "/images/x" }⟩
  exact ((handler_routed calls req (by decide +kernel) (by decide)).1 (.app 2)).mpr (by decide +kernel)

end Nghttp2Asio.Routing
