import Nghttp2Asio.PercentCoding
import Nghttp2Asio.Routing

/-!
A client that follows the path-cleaning redirects of `serve_mux::handler`. Each
Location comes back as the `:path` of the next request and is decoded on arrival.
-/
namespace Nghttp2Asio.CleanRedirect
open Util PathJoin ServeMux Routing PercentCoding
variable {α : Type} {mux : Table α} {first req next last : RequestImpl} {n : Nat}

/-- The client requests the Location of a cleaning redirect. Nothing else is said about
    the new request. -/
structure ReRequested (mux : Table α) (req next : RequestImpl) : Prop where
  cleaning : redirectsToClean req = true
  method : next.method ≠ lit "CONNECT"
  arrived : ∃ dst location, handler mux req = .redirectHandler 301 location ∧
    next.uri = splitPath dst location

inductive Redirects (mux : Table α) (first : RequestImpl) : Nat → RequestImpl → Prop where
  | start : Redirects mux first 0 first
  | follow {n : Nat} {req next : RequestImpl} (run : Redirects mux first n req)
      (again : ReRequested mux req next) : Redirects mux first (n + 1) next

theorem cleanLocation_target (uri : UriRef) :
    cleanLocation uri = target (cleanPath uri.path) uri.rawQuery := by
  unfold cleanLocation target
  split <;> simp

theorem reRequested_uri (again : ReRequested mux req next) :
    next.uri.path = cleanPath req.uri.path ∧ next.uri.rawQuery = req.uri.rawQuery := by
  obtain ⟨dst, location, answered, arrived⟩ := again.arrived
  rw [handler_redirects mux again.cleaning] at answered
  injection answered with _ located
  rw [arrived, ← located, cleanLocation_target, splitPath_target]
  exact ⟨rfl, rfl⟩

theorem reRequested_exists (mux : Table α) (cleaning : redirectsToClean req = true) :
    ∃ next, ReRequested mux req next := by
  refine ⟨{ req with uri := splitPath req.uri (cleanLocation req.uri) }, cleaning, ?_, req.uri, _,
    handler_redirects mux cleaning, rfl⟩
  simp only [redirectsToClean, Bool.and_eq_true, decide_eq_true_eq] at cleaning
  exact cleaning.1

theorem redirects_uri (run : Redirects mux first n last) :
    last.uri.path = cleanPath^[n] first.uri.path ∧ last.uri.rawQuery = first.uri.rawQuery := by
  induction run with
  | start => exact ⟨rfl, rfl⟩
  | follow run again ih =>
    obtain ⟨path, query⟩ := reRequested_uri again
    rw [path, query, ih.1, ih.2, Function.iterate_succ_apply']
    exact ⟨rfl, rfl⟩

theorem redirects_method (method : first.method ≠ lit "CONNECT")
    (run : Redirects mux first n last) : last.method ≠ lit "CONNECT" := by
  cases run with
  | start => exact method
  | follow run again => exact again.method

theorem redirects_settled (method : first.method ≠ lit "CONNECT") (run : Redirects mux first n last)
    (enough : 2 ≤ n) : redirectsToClean last = false := by
  have canonical : Canonical last.uri.path := by
    obtain ⟨k, rfl⟩ := Nat.exists_eq_add_of_le' enough
    rw [(redirects_uri run).1, Nat.add_comm, Function.iterate_add_apply]
    exact cleanPath_twice_canonical _
  rw [← Bool.not_eq_true, redirectsToClean_iff (redirects_method method run)]
  exact not_not_intro canonical

theorem redirects_bounded (method : first.method ≠ lit "CONNECT")
    (run : Redirects mux first n last) : n ≤ 2 := by
  cases run with
  | start => omega
  | @follow n req _ run again =>
    by_contra many
    have settled := redirects_settled method run (by omega)
    rw [again.cleaning] at settled
    cases settled

theorem redirects_finish (mux : Table α) (method : first.method ≠ lit "CONNECT") :
    ∃ n last, Redirects mux first n last ∧ redirectsToClean last = false := by
  have continued : ∀ k n req, Redirects mux first n req → 2 ≤ n + k →
      ∃ n last, Redirects mux first n last ∧ redirectsToClean last = false := by
    intro k
    induction k with
    | zero =>
      intro n req run enough
      exact ⟨n, req, run, redirects_settled method run enough⟩
    | succ k ih =>
      intro n req run enough
      cases cleaning : redirectsToClean req with
      | false => exact ⟨n, req, run, cleaning⟩
      | true =>
        obtain ⟨next, again⟩ := reRequested_exists mux cleaning
        exact ih (n + 1) next (.follow run again) (by omega)
  exact continued 2 0 first .start (by omega)

/-- Every re-request carries the query of the first request, the cleaning branch is done
    after at most two redirects, and no client is redirected for ever. -/
theorem cleaning_redirects_converge (mux : Table α) (first : RequestImpl)
    (method : first.method ≠ lit "CONNECT") :
    (∀ n last, Redirects mux first n last → last.uri.rawQuery = first.uri.rawQuery ∧ n ≤ 2 ∧
        (n = 2 → redirectsToClean last = false)) ∧
      (∃ n last, n ≤ 2 ∧ Redirects mux first n last ∧ redirectsToClean last = false) ∧
      ¬ ∃ chain : Nat → RequestImpl, chain 0 = first ∧
        ∀ n, ReRequested mux (chain n) (chain (n + 1)) := by
  refine ⟨?_, ?_, ?_⟩
  · intro n last run
    exact ⟨(redirects_uri run).2, redirects_bounded method run,
      fun two => redirects_settled method run (by omega)⟩
  · obtain ⟨n, last, run, settled⟩ := redirects_finish mux method
    exact ⟨n, last, redirects_bounded method run, run, settled⟩
  · rintro ⟨chain, rfl, forever⟩
    have run : ∀ n, Redirects mux (chain 0) n (chain n) := by
      intro n
      induction n with
      | zero => exact .start
      | succ n ih => exact .follow ih (forever n)
    have bound := redirects_bounded method (run 3)
    omega

/-- The second redirect is needed where the first leaves an empty segment. -/
theorem cleaning_redirects_twice :
    cleanPath (lit "/.//a") = lit "//a" ∧ cleanPath (lit "//a") = lit "/a" ∧
      ∃ n last, n ≤ 2 ∧ Redirects (∅ : Table Unit) (getRequest (lit "/.//a")) n last ∧
        redirectsToClean last = false :=
  ⟨by decide +kernel, by decide +kernel,
    (cleaning_redirects_converge ∅ (getRequest (lit "/.//a")) (by decide)).2.1⟩

end Nghttp2Asio.CleanRedirect
