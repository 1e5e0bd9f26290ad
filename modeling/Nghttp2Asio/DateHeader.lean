import Nghttp2Asio.Arrival
import Nghttp2Asio.HttpDate

/-!
The date of a response: `http2_handler::http_date` keeps the text of the second it was last
asked for. Each step of a run has its time, and `start_response` reads the clock in it; the
clock may stand still, jump and go back.
-/
namespace Nghttp2Asio
open Util HttpDate
variable {α : Type}

/-- `tstamp_cached_` and `formatted_date_`. -/
structure DateCache where
  tstampCached : Int
  formattedDate : Bytes

def DateCache.new (gmtimeR : Int → Option Tm) (t : Int) : Option DateCache :=
  (HttpDate.httpDate gmtimeR t).map fun date => ⟨t, date⟩

def DateCache.httpDate (gmtimeR : Int → Option Tm) (cache : DateCache) (t : Int) :
    Option (DateCache × Bytes) :=
  if t ≠ cache.tstampCached then
    (HttpDate.httpDate gmtimeR t).map fun date => (⟨t, date⟩, date)
  else some (cache, cache.formattedDate)

def Server.Call.answer : Server.Call → Option Server.Answer
  | .writeHead _ _ answer | .endString _ answer | .endWith _ answer | .pushPromiseSent answer =>
    some answer
  | _ => none

def Action.called : Action → Option (Int × Server.Call)
  | .call id c => some (id, c)
  | .promise id answer => some (id, .pushPromiseSent answer)
  | _ => none

def Link.asked (link : Link) (action : Action) : Option (Int × Bytes) := do
  let (id, c) ← action.called
  let r ← link.responding id
  let _ ← (Server.submissions (r.response.step r.method c).2).head?
  let answer ← c.answer
  some (id, answer.date)

structure Clocked where
  cache : DateCache
  link : Link

/-- A step at a time. The date in it is the one the cache gives. -/
def Clocked.step (gmtimeR : Int → Option Tm) (ends : Ends α) (s : Clocked) (e : Int × Action) :
    Option Clocked := do
  let next ← s.link.step ends e.2
  match s.link.asked e.2 with
  | none => some ⟨s.cache, next⟩
  | some (_, date) => do
    let (cache, given) ← s.cache.httpDate gmtimeR e.1
    guard (given = date)
    some ⟨cache, next⟩

/-! The cache. -/

section
variable {gmtimeR : Int → Option Tm} {cache next : DateCache} {t : Int} {date : Bytes}

def DateCache.Sound (gmtimeR : Int → Option Tm) (cache : DateCache) : Prop :=
  HttpDate.httpDate gmtimeR cache.tstampCached = some cache.formattedDate

theorem new_sound (made : DateCache.new gmtimeR t = some cache) : cache.Sound gmtimeR := by
  obtain ⟨date, written, rfl⟩ := Option.map_eq_some_iff.mp made
  exact written

theorem cache_sound (sound : cache.Sound gmtimeR) (read : cache.httpDate gmtimeR t = some (next, date)) :
    next.Sound gmtimeR ∧ HttpDate.httpDate gmtimeR t = some date := by
  unfold DateCache.httpDate at read
  split at read
  · obtain ⟨written, made, same⟩ := Option.map_eq_some_iff.mp read
    obtain ⟨rfl, rfl⟩ := Prod.mk.inj same
    exact ⟨made, made⟩
  · rename_i again
    obtain ⟨rfl, rfl⟩ := Prod.mk.inj (Option.some.inj read)
    rw [not_not.mp again]
    exact ⟨sound, sound⟩

end

/-! Where the date of a response comes from. -/

namespace Server

def DatedBy (method : Bytes) (answer : Answer) (effects : List Effect) : Prop :=
  ∀ s ∈ submissions effects, ∃ status header, s = submission method status header answer.date

section
variable {method : Bytes} {answer : Answer} {res : ResponseImpl}

theorem datedBy_quiet {effects : List Effect} (quiet : submissions effects = []) :
    DatedBy method answer effects := by
  intro s made
  rw [quiet] at made
  contradiction

theorem startResponse_dated : DatedBy method answer (res.startResponse method answer).2 := by
  intro s made
  have one : submissions (res.startResponse method answer).2 =
      [submission method res.statusCode res.header answer.date] := by
    unfold ResponseImpl.startResponse
    cases expectBody method res.statusCode <;> cases answer.ok <;> rfl
  rw [one] at made
  exact ⟨_, _, List.mem_singleton.mp made⟩

theorem writeHead_dated (statusCode : UInt32) (h : HeaderMap) :
    DatedBy method answer (res.writeHead method answer statusCode h).2 := by
  unfold ResponseImpl.writeHead
  split
  · exact datedBy_quiet rfl
  dsimp only
  split
  · exact datedBy_quiet rfl
  · exact startResponse_dated

theorem endWith_dated (cb : Option Generator) :
    DatedBy method answer (res.endWith method answer cb).2 := by
  unfold ResponseImpl.endWith
  split
  · exact datedBy_quiet rfl
  dsimp only
  split
  · exact writeHead_dated _ _
  · exact datedBy_quiet rfl

theorem sentPushPromise_dated : DatedBy method answer (res.sentPushPromise method answer).2 := by
  unfold ResponseImpl.sentPushPromise
  split
  · exact datedBy_quiet rfl
  dsimp only
  split
  · exact datedBy_quiet rfl
  · exact startResponse_dated

end

theorem step_dated {method : Bytes} {res : ResponseImpl} {c : Call} {s : Submission}
    (made : s ∈ submissions (res.step method c).2) :
    ∃ answer status header, c.answer = some answer ∧
      s = submission method status header answer.date := by
  have dated : ∀ answer, c.answer = some answer → DatedBy method answer (res.step method c).2 := by
    intro answer told
    cases c with
    | writeHead statusCode h a =>
      obtain rfl := Option.some.inj told
      exact writeHead_dated statusCode h
    | endString data a =>
      obtain rfl := Option.some.inj told
      exact endWith_dated (some (stringGenerator data))
    | endWith cb a =>
      obtain rfl := Option.some.inj told
      exact endWith_dated cb
    | pushPromiseSent a =>
      obtain rfl := Option.some.inj told
      exact sentPushPromise_dated
    | _ => contradiction
  cases told : c.answer with
  | none => cases c <;> contradiction
  | some answer =>
    obtain ⟨status, header, same⟩ := dated answer told s made
    exact ⟨answer, status, header, rfl, same⟩

end Server

section
variable {ends : Ends α} {link next : Link} {action : Action} {id : Int} {r : Responding}

inductive Grown (link : Link) (action : Action) (id : Int) (r : Responding) : Prop where
  | fresh (uncalled : r.calls = [])
  | same (q : Responding) (old : link.responding id = some q) (effects : r.effects = q.effects)
  | read (q : Responding) (old : link.responding id = some q) (len : Nat)
      (read : r = { q with calls := q.calls ++ [.callRead len] })
  | call (q : Responding) (old : link.responding id = some q) (c : Server.Call)
      (made : action.called = some (id, c)) (method : r.method = q.method)
      (pushed : r.pushed = q.pushed) (calls : r.calls = q.calls ++ [c])

theorem grown_kept (kept : next.responding = link.responding) (found : next.responding id = some r) :
    Grown link action id r := by
  rw [kept] at found
  exact .same r found rfl

theorem grown_update {k : Int} {q : Responding}
    (responding : next.responding = Function.update link.responding k (some q))
    (here : Grown link action k q) (found : next.responding id = some r) : Grown link action id r := by
  rw [responding] at found
  by_cases same : id = k
  · subst same
    rw [Function.update_self] at found
    obtain rfl := Option.some.inj found
    exact here
  · rw [Function.update_of_ne same] at found
    exact .same r found rfl

theorem step_grown (stepped : link.step ends action = some next)
    (found : next.responding id = some r) : Grown link action id r := by
  cases action with
  | submit k method uri header body =>
    simp only [Link.step, Option.bind_eq_bind, Option.bind_eq_some_iff, Option.guard_eq_some',
      Prod.exists] at stepped
    obtain ⟨_, _, _, _, _, _, _, result⟩ := stepped
    obtain rfl := Option.some.inj result
    exact grown_kept rfl found
  | upload k len chunks =>
    simp only [Link.step, Option.bind_eq_bind, Option.bind_eq_some_iff] at stepped
    obtain ⟨_, _, _, _, _, _, result⟩ := stepped
    obtain rfl := Option.some.inj result
    exact grown_kept rfl found
  | uploadTrailer k h =>
    simp only [Link.step, Option.bind_eq_bind, Option.bind_eq_some_iff] at stepped
    obtain ⟨_, _, _, _, result⟩ := stepped
    obtain rfl := Option.some.inj result
    exact grown_kept rfl found
  | call k c =>
    simp only [Link.step, Option.bind_eq_bind, Option.bind_eq_some_iff] at stepped
    obtain ⟨q, old, _, _, result⟩ := stepped
    obtain rfl := Option.some.inj result
    refine grown_update rfl ?_ found
    exact .call q old c rfl rfl rfl rfl
  | download k len chunks =>
    simp only [Link.step, Option.bind_eq_bind, Option.bind_eq_some_iff] at stepped
    obtain ⟨q, old, _, _, _, _, _, _, result⟩ := stepped
    obtain rfl := Option.some.inj result
    exact grown_update rfl (.read q old len rfl) found
  | trailer k h =>
    simp only [Link.step, Option.bind_eq_bind, Option.bind_eq_some_iff] at stepped
    obtain ⟨q, old, _, _, _, _, result⟩ := stepped
    obtain rfl := Option.some.inj result
    exact grown_update rfl (.same q old rfl) found
  | push parent promised method rawPathQuery header =>
    simp only [Link.step, Option.bind_eq_bind, Option.bind_eq_some_iff, Prod.exists] at stepped
    obtain ⟨_, _, _, _, _, _, _, _, _, result⟩ := stepped
    obtain rfl := Option.some.inj result
    exact grown_update rfl (.fresh rfl) found
  | promise promised answer =>
    simp only [Link.step, Option.bind_eq_bind, Option.bind_eq_some_iff] at stepped
    obtain ⟨_, _, q, old, _, _, result⟩ := stepped
    obtain rfl := Option.some.inj result
    refine grown_update rfl ?_ found
    exact .call q old (.pushPromiseSent answer) rfl rfl rfl rfl
  | toServer e =>
    simp only [Link.step, Option.bind_eq_bind, Option.bind_eq_some_iff] at stepped
    obtain ⟨_, _, result⟩ := stepped
    obtain rfl := Option.some.inj result
    rcases served_cases ends link e with kept | ⟨method, appeared⟩
    · exact grown_kept kept found
    · cases known : link.responding e.streamId with
      | none =>
        rw [known, Option.none_or] at appeared
        exact grown_update appeared (.fresh rfl) found
      | some q =>
        rw [known, Option.some_or] at appeared
        exact grown_update appeared (.same q known rfl) found
  | toClient e =>
    simp only [Link.step, Option.bind_eq_bind, Option.bind_eq_some_iff] at stepped
    obtain ⟨_, _, result⟩ := stepped
    obtain rfl := Option.some.inj result
    exact grown_kept rfl found
  | closeServer k errorCode =>
    obtain rfl := Option.some.inj stepped
    exact grown_kept rfl found
  | closeClient k errorCode =>
    obtain rfl := Option.some.inj stepped
    exact grown_kept rfl found

theorem submission_cases (stepped : link.step ends action = some next)
    (found : next.responding id = some r) {s : Server.Submission}
    (made : s ∈ Server.submissions r.effects) :
    (∃ q, link.responding id = some q ∧ s ∈ Server.submissions q.effects) ∨
      ∃ method status header date, link.asked action = some (id, date) ∧
        s = Server.submission method status header date := by
  cases step_grown stepped found with
  | fresh uncalled =>
    rw [Responding.effects, uncalled] at made
    contradiction
  | same q old effects =>
    rw [effects] at made
    exact Or.inl ⟨q, old, made⟩
  | read q old len read =>
    rw [read, Responding.effects, Server.respond_concat, Server.submissions_append] at made
    rcases List.mem_append.mp made with before | now
    · exact Or.inl ⟨q, old, before⟩
    · obtain ⟨_, _, _, told, _⟩ := Server.step_dated now
      contradiction
  | call q old c called method pushed calls =>
    rw [Responding.effects, calls, method, pushed, Server.respond_concat,
      Server.submissions_append] at made
    rcases List.mem_append.mp made with before | now
    · exact Or.inl ⟨q, old, before⟩
    · obtain ⟨answer, status, header, told, same⟩ := Server.step_dated now
      refine Or.inr ⟨q.method, status, header, answer.date, ?_, same⟩
      obtain ⟨first, rest, split⟩ := List.exists_cons_of_ne_nil (List.ne_nil_of_mem now)
      simp [Link.asked, called, old, told, Responding.response, split]

end

section
variable {gmtimeR : Int → Option Tm} {ends : Ends α} {s next : Clocked} {e : Int × Action}

theorem step_link (stepped : s.step gmtimeR ends e = some next) :
    s.link.step ends e.2 = some next.link := by
  obtain ⟨link, moved, rest⟩ := Option.bind_eq_some_iff.mp stepped
  rw [moved]
  split at rest
  · exact congrArg (fun t => some t.link) (Option.some.inj rest)
  · simp only [Option.bind_eq_bind, Option.bind_eq_some_iff, Prod.exists] at rest
    obtain ⟨_, _, _, _, _, result⟩ := rest
    exact congrArg (fun t => some t.link) (Option.some.inj result)

theorem step_cache (sound : s.cache.Sound gmtimeR) (stepped : s.step gmtimeR ends e = some next) :
    next.cache.Sound gmtimeR ∧ ∀ id date, s.link.asked e.2 = some (id, date) →
      HttpDate.httpDate gmtimeR e.1 = some date := by
  obtain ⟨link, _, rest⟩ := Option.bind_eq_some_iff.mp stepped
  split at rest
  · rename_i unasked
    obtain rfl := Option.some.inj rest
    refine ⟨sound, fun id date asked => ?_⟩
    rw [unasked] at asked
    contradiction
  · rename_i k date asked
    simp only [Option.bind_eq_bind, Option.bind_eq_some_iff, Prod.exists, Option.guard_eq_some'] at rest
    obtain ⟨cache, given, read, _, rfl, result⟩ := rest
    obtain rfl := Option.some.inj result
    obtain ⟨kept, written⟩ := cache_sound sound read
    refine ⟨kept, fun id other same => ?_⟩
    rw [asked] at same
    obtain ⟨_, rfl⟩ := Prod.mk.inj (Option.some.inj same)
    exact written

/-- The step of a run that asked for the date of a response. -/
structure Dating (gmtimeR : Int → Option Tm) (ends : Ends α) (first : Clocked)
    (timed : List (Int × Action)) (id t : Int) (date : Bytes) : Prop where
  asked : ∃ before action after earlier, timed = before ++ (t, action) :: after ∧
    before.foldlM (Clocked.step gmtimeR ends) first = some earlier ∧
    earlier.link.asked action = some (id, date)
  written : HttpDate.httpDate gmtimeR t = some date

theorem Dating.later {first : Clocked} {timed : List (Int × Action)} {id t : Int} {date : Bytes}
    (dating : Dating gmtimeR ends first timed id t date) (e : Int × Action) :
    Dating gmtimeR ends first (timed ++ [e]) id t date := by
  obtain ⟨⟨before, action, after, earlier, split, ran, asked⟩, written⟩ := dating
  exact ⟨⟨before, action, after ++ [e], earlier, by simp [split], ran, asked⟩, written⟩

theorem run_dated {first : Clocked} (sound : first.cache.Sound gmtimeR)
    (unanswered : first.link.responding = fun _ => none) (timed : List (Int × Action)) :
    ∀ last, timed.foldlM (Clocked.step gmtimeR ends) first = some last →
      last.cache.Sound gmtimeR ∧
      (timed.map Prod.snd).foldlM (Link.step ends) first.link = some last.link ∧
      ∀ id r, last.link.responding id = some r → ∀ s ∈ Server.submissions r.effects,
        ∃ t method status header date, Dating gmtimeR ends first timed id t date ∧
          s = Server.submission method status header date := by
  induction timed using List.reverseRecOn with
  | nil =>
    intro last ran
    obtain rfl := Option.some.inj ran
    refine ⟨sound, rfl, fun id r found => ?_⟩
    rw [unanswered] at found
    contradiction
  | append_singleton timed e ih =>
    intro last ran
    rw [List.foldlM_append] at ran
    obtain ⟨mid, before, now⟩ := Option.bind_eq_some_iff.mp ran
    obtain ⟨_, stepped, result⟩ := Option.bind_eq_some_iff.mp now
    obtain rfl := Option.some.inj result
    obtain ⟨mid_sound, linked, dated⟩ := ih mid before
    obtain ⟨kept, written⟩ := step_cache mid_sound stepped
    have moved := step_link stepped
    refine ⟨kept, ?_, fun id r found s made => ?_⟩
    · rw [List.map_append, List.foldlM_append, linked]
      simp [moved]
    · rcases submission_cases moved found made with
        ⟨q, old, inside⟩ | ⟨method, status, header, date, asked, same⟩
      · obtain ⟨t, method, status, header, date, dating, same⟩ := dated id q old s inside
        exact ⟨t, method, status, header, date, dating.later e, same⟩
      · exact ⟨e.1, method, status, header, date,
          ⟨⟨timed, e.2, [], mid, rfl, before, asked⟩, written id date asked⟩, same⟩

theorem date_read (documented : Gregorian gmtimeR) {t : Int} {date : Bytes}
    (years : -62135596800 ≤ t ∧ t ≤ 253402300799) (written : HttpDate.httpDate gmtimeR t = some date) :
    date.length = 29 ∧ nghttp2TimegmWithoutYday (readDate date) = t := by
  obtain ⟨m, inside⟩ := (inYears_iff t).mpr years
  obtain ⟨text, writes, length, read⟩ := httpDate_spec documented inside
  rw [(httpDate_writes writes length).1] at written
  obtain rfl := Option.some.inj written
  exact ⟨length, read⟩

end

theorem submission_date {method method' : Bytes} {status status' : UInt32} {header header' : HeaderMap}
    {date date' : Bytes} (same : Server.submission method status header date =
      Server.submission method' status' header' date') : date = date' := by
  simp only [Server.submission, Server.Submission.mk.injEq, List.cons.injEq] at same
  exact congrArg Nv.value same.1.2.1

/-- Every response a client hears carries the date of the second in which the server started
    it, however the clock went and whatever the cache held, and the second can be read back
    from it. The years are those of four digits. -/
theorem response_dated {gmtimeR : Int → Option Tm} {ends : Ends α} (documented : Gregorian gmtimeR)
    {start : Int} {cache : DateCache} (made : DateCache.new gmtimeR start = some cache)
    {timed : List (Int × Action)} {last : Clocked}
    (ran : timed.foldlM (Clocked.step gmtimeR ends) ⟨cache, Link.new⟩ = some last)
    (years : ∀ e ∈ timed, -62135596800 ≤ e.1 ∧ e.1 ≤ 253402300799) {id : Int} {r : Responding}
    (responds : last.link.responding id = some r) {status : UInt32} {header : HeaderMap}
    (first : Server.firstHead r.calls = some (status, header)) (plain : Plain header)
    (fits : entriesSize header.entries + 33 ≤ headerLimit) :
    ∀ res ∈ last.link.heardResponses ends id, ∃ before t action after earlier date,
      timed = before ++ (t, action) :: after ∧
      before.foldlM (Clocked.step gmtimeR ends) ⟨cache, Link.new⟩ = some earlier ∧
      earlier.link.asked action = some (id, date) ∧
      res.store.header.values (lit "date") = ⟨date, false⟩ :: header.values (lit "date") ∧
      nghttp2TimegmWithoutYday (readDate date) = t := by
  intro res member
  obtain ⟨_, linked, dated⟩ := run_dated (new_sound made) rfl timed last ran
  have good := good_reached ⟨_, linked⟩
  cases given : r.sent with
  | none =>
    rw [(unsent_unheard good responds given).1] at member
    contradiction
  | some s =>
    obtain ⟨_, _, _, owed, once, _⟩ :=
      (answered_notes Client.Output.responded good id (fun _ => rfl)).2 r s responds given
    obtain ⟨status', header', date, head, submitted⟩ := started_head owed once
    obtain ⟨rfl, rfl⟩ := Prod.mk.inj (Option.some.inj (first.symm.trans head))
    obtain ⟨t, _, _, _, date', dating, same⟩ := dated id r responds s (by simp [once])
    obtain ⟨⟨before, action, after, earlier, split, reached, asked⟩, written⟩ := dating
    obtain rfl := submission_date (submitted.symm.trans same)
    obtain ⟨length, read⟩ := date_read documented (years (t, action) (by simp [split])) written
    refine ⟨before, t, action, after, earlier, date, split, reached, asked, ?_, read⟩
    have front := (response_heard good responds given).1
    split at front
    · rw [List.prefix_nil.mp front] at member
      contradiction
    · obtain rfl := List.mem_singleton.mp (front.subset member)
      have store := (arrived_submission r.method status date plain).2.2.1
      have small : headSize header date ≤ headerLimit := by
        have name : (lit "date").length = 4 := by decide
        rw [headSize, name, length]
        omega
      rw [submitted, store, arrived_values header date small, if_pos rfl]
      rfl

/-! A request answered in the second after the connection was made. -/

def gmtimeMinute (t : Int) : Option Tm :=
  if 1411799460 ≤ t ∧ t < 1411799520 then some ⟨t - 1411799460, 31, 6, 27, 8, 114, 6, 269⟩
  else gmtime t

def minuteDate : Calendar.Date := ⟨2014, 8, 27, by decide, by decide, by decide⟩

theorem minuteDate_number : minuteDate.dayNumber = 735868 := by
  have years : Calendar.daysBeforeYear 2014 = 735599 := by
    have count := Calendar.daysBeforeYear_eq 2014
    omega
  have year : minuteDate.year = 2014 := rfl
  have months : minuteDate.dayOfYear = 269 := by decide
  rw [Calendar.Date.dayNumber, year, years, months]

theorem gmtimeMinute_gregorian : Gregorian gmtimeMinute := by
  intro t m years
  unfold gmtimeMinute
  split
  · rename_i inside
    obtain ⟨second, rfl⟩ : ∃ second : Nat, t = 1411799460 + second :=
      ⟨(t - 1411799460).toNat, by omega⟩
    have same : m = ⟨minuteDate, 6, 31, second, by decide, by decide, by omega⟩ := by
      apply Calendar.Moment.seconds_injective epoch
      rw [years.1]
      simp only [Calendar.Moment.seconds, minuteDate_number, epoch_eq]
      omega
    rw [same, brokenDown, minuteDate_number, epoch_eq]
    simp only [Option.some.injEq, Tm.mk.injEq]
    exact ⟨by omega, rfl, rfl, rfl, rfl, by decide, by decide, by decide⟩
  · exact gmtime_gregorian t m years

def datedActions : List (Int × Action) :=
  (1411799475, .submit 1 (lit "GET") (lit "http://a/") Multimap.empty none) ::
    ((headBlock (.headers 1 true .request) [makeNvLs (lit ":method") (lit "GET"),
        makeNvLs (lit ":scheme") (lit "http"), makeNvLs (lit ":path") (lit "/"),
        makeNvLs (lit ":authority") (lit "a")]).map fun e => (1411799475, .toServer e)) ++
    (1411799476, .call 1 (.endString [] ⟨lit "Sat, 27 Sep 2014 06:31:16 GMT", true⟩)) ::
    ((headBlock (.headers 1 false .response) [makeNvLs (lit ":status") (lit "200"),
        makeNvLs (lit "date") (lit "Sat, 27 Sep 2014 06:31:16 GMT")]).map
      fun e => (1411799477, .toClient e))

def datedRun : Option Clocked := do
  let cache ← DateCache.new gmtimeMinute 1411799475
  datedActions.foldlM (Clocked.step gmtimeMinute postEnds) ⟨cache, Link.new⟩

theorem response_dated_second : ∃ (last : Clocked) (res : Client.ResponseImpl) (t : Int) (date : Bytes),
    datedRun = some last ∧ res ∈ last.link.heardResponses postEnds 1 ∧
    res.store.header.values (lit "date") = [⟨date, false⟩] ∧
    nghttp2TimegmWithoutYday (readDate date) = t := by
  have known : datedRun.any (fun last => (last.link.responding 1).any (fun r =>
      Server.firstHead r.calls = some (200, Multimap.empty)) &&
        !(last.link.heardResponses postEnds 1).isEmpty) = true := by decide +kernel
  obtain ⟨last, ran, facts⟩ := (Option.any_eq_true _ _).mp known
  simp only [Bool.and_eq_true, Bool.not_eq_true', List.isEmpty_eq_false_iff] at facts
  obtain ⟨responding, heard⟩ := facts
  obtain ⟨r, responds, first⟩ := (Option.any_eq_true _ _).mp responding
  obtain ⟨res, member⟩ := List.exists_mem_of_ne_nil _ heard
  have ran' := ran
  simp only [datedRun, Option.bind_eq_bind, Option.bind_eq_some_iff] at ran'
  obtain ⟨cache, made, run⟩ := ran'
  have years : ∀ e ∈ datedActions, -62135596800 ≤ e.1 ∧ e.1 ≤ 253402300799 := by decide +kernel
  obtain ⟨_, t, _, _, _, date, _, _, _, values, read⟩ :=
    response_dated gmtimeMinute_gregorian made run years responds (of_decide_eq_true first)
      (by decide) (by decide) res member
  exact ⟨last, res, t, date, ran, member, values, read⟩

end Nghttp2Asio
