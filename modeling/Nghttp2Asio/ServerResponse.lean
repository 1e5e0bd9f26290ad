import Nghttp2Asio.Generator
import Nghttp2Asio.Http
import Nghttp2Asio.Library.Trace

/-!
The response of one server stream (asio_server_response_impl.cc) with the calls it
makes on its `http2_handler`. Runs are arbitrary interleavings of the application's
calls, the PUSH_PROMISE-sent event and the reads nghttp2 makes; what a run does is
stated as a function of the calls made so far.
-/
namespace Nghttp2Asio.Server
open Util

inductive ResponseState where
  | initial | headerDone | bodyStarted
  deriving DecidableEq, Repr

structure ResponseImpl where
  header : HeaderMap
  generatorCb : Option Generator
  statusCode : UInt32
  state : ResponseState
  pushed : Bool
  pushPromiseSent : Bool

def ResponseImpl.new (pushed : Bool) : ResponseImpl :=
  ⟨Multimap.empty, some deferredGenerator, 200, .initial, pushed, false⟩

/-- The arguments of `nghttp2_submit_response`; `provider` tells whether a data
    provider is given. -/
structure Submission where
  nva : List Nv
  provider : Bool
  deriving DecidableEq

inductive Effect where
  | startResponse (submission : Submission)
  | streamError (errorCode : UInt32)
  | submitTrailer (nva : List Nv)
  | resume
  | read (len : Nat) (result : ReadResult)
  deriving DecidableEq

structure Answer where
  date : Bytes
  ok : Bool

def headerNva (h : HeaderMap) : List Nv := h.entries.map (fun hd => makeNv hd.1 hd.2)

/-- `status_code_` is an unsigned value that `expect_response_body` takes as an int. -/
def expectBody (method : Bytes) (statusCode : UInt32) : Bool :=
  expectResponseBody method statusCode.toInt32.toInt

def submission (method : Bytes) (statusCode : UInt32) (header : HeaderMap) (date : Bytes) :
    Submission :=
  ⟨makeNvLs (lit ":status") (utos statusCode.toNat) :: makeNvLs (lit "date") date ::
      headerNva header,
    expectBody method statusCode⟩

namespace ResponseImpl

def startResponse (method : Bytes) (answer : Answer) (res : ResponseImpl) :
    ResponseImpl × List Effect :=
  let res := if expectBody method res.statusCode then res
    else { res with state := .bodyStarted }
  let start := Effect.startResponse (submission method res.statusCode res.header answer.date)
  if answer.ok then (res, [start]) else (res, [start, .streamError internalError])

def writeHead (method : Bytes) (answer : Answer) (statusCode : UInt32) (h : HeaderMap)
    (res : ResponseImpl) : ResponseImpl × List Effect :=
  if res.state ≠ .initial then (res, [])
  else
    let res := { res with statusCode := statusCode, header := h, state := .headerDone }
    if res.pushed && !res.pushPromiseSent then (res, [])
    else startResponse method answer res

def endWith (method : Bytes) (answer : Answer) (cb : Option Generator) (res : ResponseImpl) :
    ResponseImpl × List Effect :=
  if res.state = .bodyStarted then (res, [])
  else
    let res := { res with generatorCb := cb }
    let (res, effects) :=
      if res.state = .initial then writeHead method answer res.statusCode Multimap.empty res
      else (res, [.resume])
    ({ res with state := .bodyStarted }, effects)

def endString (method : Bytes) (answer : Answer) (data : Bytes) (res : ResponseImpl) :
    ResponseImpl × List Effect :=
  endWith method answer (some (stringGenerator data)) res

def sentPushPromise (method : Bytes) (answer : Answer) (res : ResponseImpl) :
    ResponseImpl × List Effect :=
  if res.pushPromiseSent then (res, [])
  else
    let res := { res with pushPromiseSent := true }
    if res.state = .initial then (res, []) else startResponse method answer res

def read (len : Nat) (res : ResponseImpl) : ResponseImpl × List Effect :=
  ({ res with generatorCb := (callRead res.generatorCb len).2 },
    [.read len (callRead res.generatorCb len).1])

end ResponseImpl

inductive Call where
  | writeHead (statusCode : UInt32) (h : HeaderMap) (answer : Answer)
  | endString (data : Bytes) (answer : Answer)
  | endWith (cb : Option Generator) (answer : Answer)
  | pushPromiseSent (answer : Answer)
  | callRead (len : Nat)
  | writeTrailer (h : HeaderMap)
  | cancel (errorCode : UInt32)
  | resume

def ResponseImpl.step (method : Bytes) (res : ResponseImpl) : Call → ResponseImpl × List Effect
  | .writeHead statusCode h answer => res.writeHead method answer statusCode h
  | .endString data answer => res.endString method answer data
  | .endWith cb answer => res.endWith method answer cb
  | .pushPromiseSent answer => res.sentPushPromise method answer
  | .callRead len => res.read len
  | .writeTrailer h => (res, [.submitTrailer (headerNva h)])
  | .cancel errorCode => (res, [.streamError errorCode])
  | .resume => (res, [.resume])

def respond (method : Bytes) (pushed : Bool) (calls : List Call) :
    ResponseImpl × List Effect :=
  Trace.run (ResponseImpl.step method) (.new pushed) calls

def Effect.submitted : Effect → Option Submission
  | .startResponse s => some s
  | _ => none

def submissions (log : List Effect) : List Submission := log.filterMap Effect.submitted

def Effect.reading : Effect → Option (Nat × ReadResult)
  | .read len result => some (len, result)
  | _ => none

def readings (log : List Effect) : List (Nat × ReadResult) := log.filterMap Effect.reading

namespace Call

/-- The head a call would write: an explicit one, or 200 without headers for `end`. -/
def head : Call → Option (UInt32 × HeaderMap)
  | .writeHead statusCode h _ => some (statusCode, h)
  | .endString _ _ | .endWith _ _ => some (200, Multimap.empty)
  | _ => none

def body : Call → Option (Option Generator)
  | .endString data _ => some (some (stringGenerator data))
  | .endWith cb _ => some cb
  | _ => none

def promised : Call → Bool
  | .pushPromiseSent _ => true
  | _ => false

def bufferSize : Call → Option Nat
  | .callRead len => some len
  | _ => none

end Call

def firstHead (calls : List Call) : Option (UInt32 × HeaderMap) := calls.findSome? Call.head

def PromiseSent (calls : List Call) : Prop := ∃ c ∈ calls, c.promised = true

instance (calls : List Call) : Decidable (PromiseSent calls) :=
  inferInstanceAs (Decidable (∃ c ∈ calls, c.promised = true))

def StartDue (pushed : Bool) (calls : List Call) : Prop :=
  (firstHead calls).isSome = true ∧ (pushed = false ∨ PromiseSent calls)

instance (pushed : Bool) (calls : List Call) : Decidable (StartDue pushed calls) :=
  inferInstanceAs (Decidable (_ ∧ _))

def EndAccepted (method : Bytes) (pushed : Bool) (calls : List Call) : Prop :=
  (respond method pushed calls).1.state ≠ .bodyStarted

@[simp] theorem submissions_append (first rest : List Effect) :
    submissions (first ++ rest) = submissions first ++ submissions rest := by
  simp [submissions]

@[simp] theorem readings_append (first rest : List Effect) :
    readings (first ++ rest) = readings first ++ readings rest := by
  simp [readings]

theorem firstHead_concat (calls : List Call) (c : Call) :
    firstHead (calls ++ [c]) = (firstHead calls).or c.head := by
  simp only [firstHead, List.findSome?_append, List.findSome?_singleton]

theorem promiseSent_concat (calls : List Call) (c : Call) :
    PromiseSent (calls ++ [c]) ↔ PromiseSent calls ∨ c.promised = true := by
  simp [PromiseSent, or_and_right, exists_or]

theorem startResponse_state (method : Bytes) (answer : Answer) (res : ResponseImpl) :
    (res.startResponse method answer).1 =
      { res with state := if expectBody method res.statusCode then res.state
        else .bodyStarted } := by
  unfold ResponseImpl.startResponse
  cases expectBody method res.statusCode <;> cases answer.ok <;> rfl

theorem startResponse_effects (method : Bytes) (answer : Answer) (res : ResponseImpl) :
    submissions (res.startResponse method answer).2 =
        [submission method res.statusCode res.header answer.date] ∧
      readings (res.startResponse method answer).2 = [] := by
  unfold ResponseImpl.startResponse
  cases expectBody method res.statusCode <;> cases answer.ok <;> exact ⟨rfl, rfl⟩

/-- What the members of a response and its submissions have to do with the calls made. -/
structure Reflects (method : Bytes) (pushed : Bool) (past : List Call) (res : ResponseImpl)
    (log : List Effect) : Prop where
  kind : res.pushed = pushed
  promise : res.pushPromiseSent = true ↔ PromiseSent past
  initial : res.state = .initial ↔ firstHead past = none
  head : (res.statusCode, res.header) = (firstHead past).getD (200, Multimap.empty)
  due : StartDue pushed past →
    ∃ date, submissions log = [submission method res.statusCode res.header date]
  early : ¬ StartDue pushed past → submissions log = []

theorem reflects_new (method : Bytes) (pushed : Bool) :
    Reflects method pushed [] (.new pushed) [] where
  kind := rfl
  promise := by simp [ResponseImpl.new, PromiseSent]
  initial := by simp [ResponseImpl.new, firstHead]
  head := rfl
  due := by
    intro due
    simp [StartDue, firstHead] at due
  early := by
    intro _
    rfl

section Step
variable {method : Bytes} {pushed : Bool} {past : List Call} {res : ResponseImpl}
  {log : List Effect}

theorem Reflects.keep {next : ResponseImpl} {effects : List Effect} (c : Call)
    (holds : Reflects method pushed past res log)
    (late : firstHead past ≠ none ∨ c.head = none) (plain : c.promised = false)
    (same : (next.pushed, next.pushPromiseSent, next.statusCode, next.header) =
      (res.pushed, res.pushPromiseSent, res.statusCode, res.header))
    (phase : next.state = .initial ↔ res.state = .initial)
    (silent : submissions effects = []) :
    Reflects method pushed (past ++ [c]) next (log ++ effects) := by
  have sameHead : firstHead (past ++ [c]) = firstHead past := by
    rw [firstHead_concat]
    rcases late with written | nothing
    · obtain ⟨head, found⟩ := Option.ne_none_iff_exists'.mp written
      rw [found]
      rfl
    · rw [nothing, Option.or_none]
  have samePromise : PromiseSent (past ++ [c]) ↔ PromiseSent past := by
    simp [promiseSent_concat, plain]
  have sameDue : StartDue pushed (past ++ [c]) ↔ StartDue pushed past := by
    simp only [StartDue, sameHead, samePromise]
  simp only [Prod.mk.injEq] at same
  obtain ⟨kind, promise, status, header⟩ := same
  constructor
  · rw [kind, holds.kind]
  · rw [promise, samePromise]
    exact holds.promise
  · rw [phase, sameHead]
    exact holds.initial
  · rw [status, header, sameHead]
    exact holds.head
  · intro due
    obtain ⟨date, one⟩ := holds.due (sameDue.mp due)
    exact ⟨date, by rw [submissions_append, one, silent, status, header, List.append_nil]⟩
  · intro notDue
    rw [submissions_append, holds.early (mt sameDue.mpr notDue), silent, List.append_nil]

theorem Reflects.start (answer : Answer) (kind : res.pushed = pushed)
    (promise : res.pushPromiseSent = true ↔ PromiseSent past)
    (written : res.state ≠ .initial)
    (head : firstHead past = some (res.statusCode, res.header))
    (free : pushed = false ∨ PromiseSent past) (fresh : submissions log = []) :
    Reflects method pushed past (res.startResponse method answer).1
      (log ++ (res.startResponse method answer).2) := by
  obtain ⟨one, _⟩ := startResponse_effects method answer res
  rw [startResponse_state]
  constructor
  · exact kind
  · exact promise
  · rw [head]
    cases expectBody method res.statusCode <;> simp [written]
  · rw [head]
    rfl
  · intro _
    exact ⟨answer.date, by rw [submissions_append, fresh, one, List.nil_append]⟩
  · intro notDue
    exact absurd ⟨by rw [head]; rfl, free⟩ notDue

theorem Reflects.first (c : Call) (answer : Answer) {statusCode : UInt32} {h : HeaderMap}
    (holds : Reflects method pushed past res log) (unwritten : res.state = .initial)
    (head : c.head = some (statusCode, h)) (plain : c.promised = false) :
    Reflects method pushed (past ++ [c]) (res.writeHead method answer statusCode h).1
      (log ++ (res.writeHead method answer statusCode h).2) := by
  have nothing : firstHead past = none := holds.initial.mp unwritten
  have nowHead : firstHead (past ++ [c]) = some (statusCode, h) := by
    rw [firstHead_concat, nothing, head]
    rfl
  have samePromise : PromiseSent (past ++ [c]) ↔ PromiseSent past := by
    simp [promiseSent_concat, plain]
  have unstarted : submissions log = [] := by
    apply holds.early
    simp [StartDue, nothing]
  have promise : res.pushPromiseSent = true ↔ PromiseSent (past ++ [c]) := by
    rw [samePromise]
    exact holds.promise
  unfold ResponseImpl.writeHead
  rw [if_neg (by simp [unwritten])]
  dsimp only
  split
  · -- a pushed response whose promise is not out yet only remembers its head
    rename_i held
    rw [Bool.and_eq_true, Bool.not_eq_true'] at held
    have notDue : ¬ StartDue pushed (past ++ [c]) := by
      rw [StartDue, ← promise, ← holds.kind, held.1, held.2]
      simp
    constructor
    · exact holds.kind
    · exact promise
    · rw [nowHead]
      simp
    · rw [nowHead]
      rfl
    · intro due
      exact absurd due notDue
    · intro _
      rw [List.append_nil]
      exact unstarted
  · rename_i free
    rw [Bool.and_eq_true, Bool.not_eq_true', not_and, Bool.not_eq_false, holds.kind,
      promise] at free
    apply Reflects.start
    · exact holds.kind
    · exact promise
    · simp
    · exact nowHead
    · cases pushed with
      | false => exact Or.inl rfl
      | true => exact Or.inr (free rfl)
    · exact unstarted

theorem Reflects.writeHead (holds : Reflects method pushed past res log)
    (answer : Answer) (statusCode : UInt32) (h : HeaderMap) :
    Reflects method pushed (past ++ [.writeHead statusCode h answer])
      (res.writeHead method answer statusCode h).1
      (log ++ (res.writeHead method answer statusCode h).2) := by
  by_cases unwritten : res.state = .initial
  · exact holds.first _ answer unwritten rfl rfl
  · unfold ResponseImpl.writeHead
    rw [if_pos unwritten]
    exact holds.keep _ (Or.inl (mt holds.initial.mpr unwritten)) rfl rfl Iff.rfl rfl

theorem Reflects.endWith (c : Call) (holds : Reflects method pushed past res log)
    (answer : Answer) (cb : Option Generator) (head : c.head = some (200, Multimap.empty))
    (plain : c.promised = false) :
    Reflects method pushed (past ++ [c]) (res.endWith method answer cb).1
      (log ++ (res.endWith method answer cb).2) := by
  unfold ResponseImpl.endWith
  split
  · rename_i settled
    have written : res.state ≠ .initial := by simp [settled]
    exact holds.keep c (Or.inl (mt holds.initial.mpr written)) plain rfl Iff.rfl rfl
  · dsimp only
    by_cases unwritten : res.state = .initial
    · rw [if_pos unwritten]
      have named := holds.head
      rw [holds.initial.mp unwritten, Option.getD_none, Prod.mk.injEq] at named
      have swapped : Reflects method pushed past { res with generatorCb := cb } log :=
        ⟨holds.kind, holds.promise, holds.initial, holds.head, holds.due, holds.early⟩
      have implied : c.head = some (res.statusCode, Multimap.empty) := by rw [named.1, head]
      have result := swapped.first c answer unwritten implied plain
      have written : firstHead (past ++ [c]) ≠ none := by
        rw [firstHead_concat, head]
        cases firstHead past <;> simp
      exact ⟨result.kind, result.promise, by simp [written], result.head, result.due,
        result.early⟩
    · rw [if_neg unwritten]
      exact holds.keep c (Or.inl (mt holds.initial.mpr unwritten)) plain rfl
        (by simp [unwritten]) rfl

theorem Reflects.sentPushPromise (holds : Reflects method pushed past res log)
    (isPushed : pushed = true) (answer : Answer) :
    Reflects method pushed (past ++ [.pushPromiseSent answer])
      (res.sentPushPromise method answer).1
      (log ++ (res.sentPushPromise method answer).2) := by
  have sameHead : firstHead (past ++ [.pushPromiseSent answer]) = firstHead past := by
    rw [firstHead_concat]
    exact Option.or_none
  have sent : PromiseSent (past ++ [.pushPromiseSent answer]) := by
    simp [promiseSent_concat, Call.promised]
  unfold ResponseImpl.sentPushPromise
  split
  · rename_i again
    have before : PromiseSent past := holds.promise.mp again
    have sameDue : StartDue pushed (past ++ [.pushPromiseSent answer]) ↔
        StartDue pushed past := by
      simp only [StartDue, sameHead, before, sent]
    rw [List.append_nil]
    exact ⟨holds.kind, by simp [again, sent], by rw [sameHead]; exact holds.initial,
      by rw [sameHead]; exact holds.head, fun due => holds.due (sameDue.mp due),
      fun notDue => holds.early (mt sameDue.mpr notDue)⟩
  · rename_i unsent
    have waiting : ¬ PromiseSent past := mt holds.promise.mpr unsent
    have unstarted : submissions log = [] := by
      apply holds.early
      simp [StartDue, isPushed, waiting]
    dsimp only
    split
    · rename_i unwritten
      have nothing := holds.initial.mp unwritten
      have notDue : ¬ StartDue pushed (past ++ [.pushPromiseSent answer]) := by
        simp [StartDue, sameHead, nothing]
      rw [List.append_nil]
      exact ⟨holds.kind, by simp [sent], by rw [sameHead]; exact holds.initial,
        by rw [sameHead]; exact holds.head, fun due => absurd due notDue,
        fun _ => unstarted⟩
    · rename_i written
      obtain ⟨first, found⟩ := Option.ne_none_iff_exists'.mp (mt holds.initial.mpr written)
      have named := holds.head
      rw [found, Option.getD_some] at named
      apply Reflects.start
      · exact holds.kind
      · simp [sent]
      · exact written
      · rw [sameHead, found, ← named]
      · exact Or.inr sent
      · exact unstarted

theorem Reflects.step (c : Call) (holds : Reflects method pushed past res log)
    (owed : c.promised = true → pushed = true) :
    Reflects method pushed (past ++ [c]) (res.step method c).1
      (log ++ (res.step method c).2) := by
  cases c with
  | writeHead statusCode h answer => exact holds.writeHead answer statusCode h
  | endString data answer => exact holds.endWith _ answer _ rfl rfl
  | endWith cb answer => exact holds.endWith _ answer cb rfl rfl
  | pushPromiseSent answer => exact holds.sentPushPromise (owed rfl) answer
  | callRead len => exact holds.keep _ (Or.inr rfl) rfl rfl Iff.rfl rfl
  | writeTrailer h => exact holds.keep _ (Or.inr rfl) rfl rfl Iff.rfl rfl
  | cancel errorCode => exact holds.keep _ (Or.inr rfl) rfl rfl Iff.rfl rfl
  | resume => exact holds.keep _ (Or.inr rfl) rfl rfl Iff.rfl rfl

end Step

/-- Only a pushed response is told that its PUSH_PROMISE was sent. -/
def Owed (pushed : Bool) (calls : List Call) : Prop := pushed = false → ¬ PromiseSent calls

theorem Owed.init {pushed : Bool} {past : List Call} {c : Call}
    (owed : Owed pushed (past ++ [c])) :
    Owed pushed past ∧ (c.promised = true → pushed = true) := by
  simp only [Owed, promiseSent_concat, not_or, Bool.not_eq_true] at owed
  constructor
  · intro plain
    exact (owed plain).1
  · intro promised
    by_contra plain
    rw [(owed (by simpa using plain)).2] at promised
    contradiction

theorem respond_reflects (method : Bytes) (pushed : Bool) (calls : List Call)
    (owed : Owed pushed calls) :
    Reflects method pushed calls (respond method pushed calls).1
      (respond method pushed calls).2 := by
  revert calls
  apply Trace.run_history (fun calls res log => Owed pushed calls →
    Reflects method pushed calls res log)
  · intro _
    exact reflects_new method pushed
  · intro past res log c holds owed
    exact (holds owed.init.1).step c owed.init.2

theorem writeHead_generator (method : Bytes) (answer : Answer) (statusCode : UInt32)
    (h : HeaderMap) (res : ResponseImpl) :
    (res.writeHead method answer statusCode h).1.generatorCb = res.generatorCb := by
  unfold ResponseImpl.writeHead
  split
  · rfl
  · dsimp only
    split
    · rfl
    · rw [startResponse_state]

theorem sentPushPromise_generator (method : Bytes) (answer : Answer) (res : ResponseImpl) :
    (res.sentPushPromise method answer).1.generatorCb = res.generatorCb := by
  unfold ResponseImpl.sentPushPromise
  split
  · rfl
  · dsimp only
    split
    · rfl
    · rw [startResponse_state]

theorem endWith_accepted (method : Bytes) (answer : Answer) (cb : Option Generator)
    (res : ResponseImpl) :
    (res.endWith method answer cb).1.generatorCb =
        (if res.state = .bodyStarted then res.generatorCb else cb) ∧
      (res.endWith method answer cb).1.state = .bodyStarted := by
  unfold ResponseImpl.endWith
  split
  · rename_i settled
    exact ⟨rfl, settled⟩
  · dsimp only
    split
    · exact ⟨writeHead_generator method answer _ _ _, rfl⟩
    · exact ⟨rfl, rfl⟩

theorem step_generator (method : Bytes) (res : ResponseImpl) (c : Call) :
    (res.step method c).1.generatorCb =
      if res.state = .bodyStarted then advance res.generatorCb c.bufferSize.toList
      else c.body.getD (advance res.generatorCb c.bufferSize.toList) := by
  cases c with
  | writeHead statusCode h answer =>
    simpa [ResponseImpl.step, Call.body, Call.bufferSize, advance] using
      writeHead_generator method answer statusCode h res
  | endString data answer =>
    exact (endWith_accepted method answer (some (stringGenerator data)) res).1
  | endWith cb answer => exact (endWith_accepted method answer cb res).1
  | pushPromiseSent answer =>
    simpa [ResponseImpl.step, Call.body, Call.bufferSize, advance] using
      sentPushPromise_generator method answer res
  | callRead len => split <;> rfl
  | writeTrailer h => split <;> rfl
  | cancel errorCode => split <;> rfl
  | resume => split <;> rfl

theorem startResponse_bodyStarted (method : Bytes) (answer : Answer) (res : ResponseImpl)
    (open_ : res.state ≠ .bodyStarted) :
    (res.startResponse method answer).1.state = .bodyStarted ↔
      submissions (res.startResponse method answer).2 ≠ [] ∧
        expectBody method (res.startResponse method answer).1.statusCode = false := by
  rw [startResponse_state, (startResponse_effects method answer res).1]
  cases expectBody method res.statusCode <;> simp [open_]

theorem step_bodyStarted (method : Bytes) (res : ResponseImpl) (c : Call)
    (open_ : res.state ≠ .bodyStarted) :
    (res.step method c).1.state = .bodyStarted ↔
      c.body ≠ none ∨ (submissions (res.step method c).2 ≠ [] ∧
        expectBody method (res.step method c).1.statusCode = false) := by
  cases c with
  | writeHead statusCode h answer =>
    simp only [ResponseImpl.step, ResponseImpl.writeHead, Call.body, ne_eq, not_true_eq_false,
      false_or]
    split
    · simp [open_, submissions]
    · split
      · simp [submissions]
      · exact startResponse_bodyStarted method answer _ (by simp)
  | endString data answer =>
    have settled := (endWith_accepted method answer (some (stringGenerator data)) res).2
    simp [ResponseImpl.step, ResponseImpl.endString, settled, Call.body]
  | endWith cb answer =>
    have settled := (endWith_accepted method answer cb res).2
    simp [ResponseImpl.step, settled, Call.body]
  | pushPromiseSent answer =>
    simp only [ResponseImpl.step, ResponseImpl.sentPushPromise, Call.body, ne_eq,
      not_true_eq_false, false_or]
    split
    · simp [open_, submissions]
    · split
      · simp [open_, submissions]
      · exact startResponse_bodyStarted method answer _ open_
  | callRead len => simp [ResponseImpl.step, ResponseImpl.read, open_, Call.body, submissions,
      Effect.submitted]
  | writeTrailer h => simp [ResponseImpl.step, open_, Call.body, submissions,
      Effect.submitted]
  | cancel errorCode => simp [ResponseImpl.step, open_, Call.body, submissions,
      Effect.submitted]
  | resume => simp [ResponseImpl.step, open_, Call.body, submissions, Effect.submitted]

theorem step_stays (method : Bytes) (res : ResponseImpl) (c : Call)
    (settled : res.state = .bodyStarted) : (res.step method c).1.state = .bodyStarted := by
  cases c with
  | writeHead statusCode h answer => simp [ResponseImpl.step, ResponseImpl.writeHead, settled]
  | endString data answer => exact (endWith_accepted method answer _ res).2
  | endWith cb answer => exact (endWith_accepted method answer cb res).2
  | pushPromiseSent answer =>
    simp only [ResponseImpl.step, ResponseImpl.sentPushPromise]
    split
    · exact settled
    · split
      · exact settled
      · rw [startResponse_state]
        simp [settled]
  | callRead len => exact settled
  | writeTrailer h => exact settled
  | cancel errorCode => exact settled
  | resume => exact settled

theorem step_readings (method : Bytes) (res : ResponseImpl) (c : Call) :
    readings (res.step method c).2 = readAll res.generatorCb c.bufferSize.toList := by
  have head : ∀ answer statusCode h (r : ResponseImpl),
      readings (r.writeHead method answer statusCode h).2 = [] := by
    intro answer statusCode h r
    unfold ResponseImpl.writeHead
    split
    · rfl
    · dsimp only
      split
      · rfl
      · exact (startResponse_effects method answer _).2
  have close : ∀ answer cb, readings (res.endWith method answer cb).2 = [] := by
    intro answer cb
    unfold ResponseImpl.endWith
    split
    · rfl
    · dsimp only
      split
      · exact head answer _ _ _
      · rfl
  cases c with
  | writeHead statusCode h answer => exact head answer statusCode h res
  | endString data answer => exact close answer _
  | endWith cb answer => exact close answer cb
  | pushPromiseSent answer =>
    simp only [ResponseImpl.step, ResponseImpl.sentPushPromise]
    split
    · rfl
    · split
      · rfl
      · exact (startResponse_effects method answer _).2
  | callRead len => rfl
  | writeTrailer h => rfl
  | cancel errorCode => rfl
  | resume => rfl

theorem advance_deferred (lens : List Nat) :
    advance (some deferredGenerator) lens = some deferredGenerator := by
  induction lens with
  | nil => rfl
  | cons len rest ih => exact ih

theorem readAll_deferred (lens : List Nat) :
    ∀ read ∈ readAll (some deferredGenerator) lens, read.2 = ⟨errDeferred, [], 0⟩ := by
  induction lens with
  | nil => simp [readAll]
  | cons len rest ih =>
    intro read member
    rcases List.mem_cons.mp member with here | later
    · rw [here]
      rfl
    · exact ih read later

/-- From the moment the body is settled, reads go through its generator and nothing else
    touches it. -/
theorem settled_run (method : Bytes) (after : List Call) :
    ∀ res : ResponseImpl, res.state = .bodyStarted →
      (Trace.run (ResponseImpl.step method) res after).1.state = .bodyStarted ∧
        (Trace.run (ResponseImpl.step method) res after).1.generatorCb =
          advance res.generatorCb (after.filterMap Call.bufferSize) ∧
        readings (Trace.run (ResponseImpl.step method) res after).2 =
          readAll res.generatorCb (after.filterMap Call.bufferSize) := by
  induction after with
  | nil =>
    intro res settled
    exact ⟨settled, rfl, rfl⟩
  | cons c rest ih =>
    intro res settled
    obtain ⟨stays, moved, reads⟩ := ih _ (step_stays method res c settled)
    have sizes : (c :: rest).filterMap Call.bufferSize =
        c.bufferSize.toList ++ rest.filterMap Call.bufferSize := by
      cases found : c.bufferSize <;> simp [found]
    have generator := step_generator method res c
    rw [if_pos settled] at generator
    rw [generator] at moved reads
    rw [Trace.run_cons, sizes]
    refine ⟨stays, ?_, ?_⟩
    · rw [moved, advance, advance, advance, List.foldl_append]
    · rw [readings_append, step_readings, reads, readAll_append]

structure Accepted (method : Bytes) (pushed : Bool) (calls before : List Call) (c : Call)
    (after : List Call) (cb : Option Generator) : Prop where
  position : calls = before ++ c :: after
  named : c.body = some cb
  taken : EndAccepted method pushed before

theorem respond_concat (method : Bytes) (pushed : Bool) (calls : List Call) (c : Call) :
    respond method pushed (calls ++ [c]) =
      (((respond method pushed calls).1.step method c).1,
        (respond method pushed calls).2 ++ ((respond method pushed calls).1.step method c).2) :=
  Trace.run_concat _ _ _ _

theorem respond_waiting (method : Bytes) (pushed : Bool) (calls : List Call)
    (none_ : ∀ before c after cb, ¬ Accepted method pushed calls before c after cb) :
    (respond method pushed calls).1.generatorCb = some deferredGenerator ∧
      ∀ read ∈ readings (respond method pushed calls).2, read.2 = ⟨errDeferred, [], 0⟩ := by
  induction calls using List.reverseRecOn with
  | nil => simp [respond, ResponseImpl.new, readings]
  | append_singleton past c ih =>
    have earlier : ∀ before d after cb,
        ¬ Accepted method pushed past before d after cb := by
      intro before d after cb accepted
      apply none_ before d (after ++ [c]) cb
      exact ⟨by simp [accepted.position], accepted.named, accepted.taken⟩
    obtain ⟨waiting, reads⟩ := ih earlier
    rw [respond_concat]
    constructor
    · rw [step_generator, waiting, advance_deferred]
      split
      · rfl
      · rename_i open_
        cases found : c.body with
        | none => rfl
        | some cb => exact absurd ⟨rfl, found, open_⟩ (none_ past c [] cb)
    · intro read member
      rw [readings_append, List.mem_append, step_readings, waiting] at member
      rcases member with old | new
      · exact reads read old
      · exact readAll_deferred _ read new

theorem respond_settled {method : Bytes} {pushed : Bool} {calls before : List Call} {c : Call}
    {after : List Call} {cb : Option Generator}
    (accepted : Accepted method pushed calls before c after cb) :
    (respond method pushed calls).1.state = .bodyStarted ∧
      (respond method pushed calls).1.generatorCb =
        advance cb (after.filterMap Call.bufferSize) ∧
      readings (respond method pushed calls).2 = readings (respond method pushed before).2 ++
        readAll cb (after.filterMap Call.bufferSize) := by
  obtain ⟨position, named, taken⟩ := accepted
  have noRead : c.bufferSize = none := by
    cases c <;> first | rfl | simp [Call.body] at named
  have settled := (step_bodyStarted method _ c taken).mpr (Or.inl (by simp [named]))
  obtain ⟨stays, moved, reads⟩ := settled_run method after _ settled
  have generator := step_generator method (respond method pushed before).1 c
  rw [if_neg taken, named, Option.getD_some] at generator
  rw [generator] at moved reads
  have whole : respond method pushed calls =
      ((Trace.run (ResponseImpl.step method)
          ((respond method pushed before).1.step method c).1 after).1,
        (respond method pushed before).2 ++
          (((respond method pushed before).1.step method c).2 ++
            (Trace.run (ResponseImpl.step method)
              ((respond method pushed before).1.step method c).1 after).2)) := by
    rw [position, respond, Trace.run_append, Trace.run_cons]
    rfl
  rw [whole]
  refine ⟨stays, moved, ?_⟩
  rw [readings_append, readings_append, step_readings, noRead, reads]
  rfl

theorem accepted_last {method : Bytes} {pushed : Bool} {calls before before' extra : List Call}
    {c c' : Call} {after after' : List Call} {cb : Option Generator}
    (first : Accepted method pushed calls before c after cb)
    (later : EndAccepted method pushed before') (front : before' = before ++ extra)
    (back : c :: after = extra ++ c' :: after') : extra = [] := by
  cases extra with
  | nil => rfl
  | cons d rest =>
    rw [List.cons_append] at back
    injection back with same _
    have inner : Accepted method pushed before' before c rest cb :=
      ⟨by rw [front, same], first.named, first.taken⟩
    exact absurd (respond_settled inner).1 later

theorem accepted_unique {method : Bytes} {pushed : Bool} {calls before before' : List Call}
    {c c' : Call} {after after' : List Call} {cb cb' : Option Generator}
    (first : Accepted method pushed calls before c after cb)
    (second : Accepted method pushed calls before' c' after' cb') :
    before = before' ∧ c = c' ∧ after = after' := by
  have both := first.position.symm.trans second.position
  have sameFront : before = before' := by
    rcases List.append_eq_append_iff.mp both with ⟨extra, front, back⟩ | ⟨extra, front, back⟩
    · rw [front, accepted_last first second.taken front back, List.append_nil]
    · rw [front, accepted_last second first.taken front back, List.append_nil]
  rw [sameFront] at both
  have sameBack := List.append_cancel_left both
  injection sameBack with sameCall sameAfter
  exact ⟨sameFront, sameCall, sameAfter⟩

theorem startDue_concat {pushed : Bool} {past : List Call} (c : Call)
    (due : StartDue pushed past) :
    StartDue pushed (past ++ [c]) ∧ firstHead (past ++ [c]) = firstHead past := by
  obtain ⟨first, found⟩ := Option.isSome_iff_exists.mp due.1
  have same : firstHead (past ++ [c]) = firstHead past := by
    rw [firstHead_concat, found]
    rfl
  refine ⟨⟨by rw [same]; exact due.1, ?_⟩, same⟩
  rcases due.2 with plain | sent
  · exact Or.inl plain
  · exact Or.inr ((promiseSent_concat past c).mpr (Or.inl sent))

theorem step_starts (method : Bytes) (pushed : Bool) (past : List Call) (c : Call)
    (owed : Owed pushed (past ++ [c])) :
    submissions ((respond method pushed past).1.step method c).2 ≠ [] ↔
      StartDue pushed (past ++ [c]) ∧ ¬ StartDue pushed past := by
  have before := respond_reflects method pushed past owed.init.1
  have after := respond_reflects method pushed (past ++ [c]) owed
  rw [respond_concat] at after
  by_cases wasDue : StartDue pushed past
  · obtain ⟨_, one⟩ := before.due wasDue
    obtain ⟨_, stillOne⟩ := after.due (startDue_concat c wasDue).1
    rw [submissions_append, one, List.singleton_append, List.cons.injEq] at stillOne
    simp [stillOne.2, wasDue]
  · have nothing := before.early wasDue
    by_cases nowDue : StartDue pushed (past ++ [c])
    · obtain ⟨_, one⟩ := after.due nowDue
      rw [submissions_append, nothing, List.nil_append] at one
      simp [one, nowDue, wasDue]
    · have still := after.early nowDue
      rw [submissions_append, nothing, List.nil_append] at still
      simp [still, nowDue]

theorem endAccepted_iff (method : Bytes) (pushed : Bool) (calls : List Call)
    (owed : Owed pushed calls) :
    EndAccepted method pushed calls ↔
      (∀ c ∈ calls, c.body = none) ∧ (StartDue pushed calls →
        expectBody method ((firstHead calls).getD (200, Multimap.empty)).1 = true) := by
  induction calls using List.reverseRecOn with
  | nil => simp [EndAccepted, respond, ResponseImpl.new, StartDue, firstHead]
  | append_singleton past c ih =>
    have bound := ih owed.init.1
    have after := (respond_reflects method pushed (past ++ [c]) owed).head
    by_cases open_ : EndAccepted method pushed past
    · obtain ⟨noEnd, bodied⟩ := bound.mp open_
      have state := step_bodyStarted method (respond method pushed past).1 c open_
      rw [step_starts method pushed past c owed] at state
      have status : ((respond method pushed past).1.step method c).1.statusCode =
          ((firstHead (past ++ [c])).getD (200, Multimap.empty)).1 := by
        rw [← after, respond_concat]
      rw [EndAccepted, respond_concat, ne_eq, state, status]
      constructor
      · intro free
        push Not at free
        refine ⟨?_, ?_⟩
        · intro d member
          rcases List.mem_append.mp member with old | new
          · exact noEnd d old
          · rw [List.mem_singleton.mp new]
            exact free.1
        · intro due
          by_cases wasDue : StartDue pushed past
          · rw [(startDue_concat c wasDue).2]
            exact bodied wasDue
          · simpa using free.2 ⟨due, wasDue⟩
      · intro ⟨noEndNow, bodiedNow⟩ closed
        rcases closed with ended | ⟨⟨due, _⟩, bodyless⟩
        · exact ended (noEndNow c (by simp))
        · rw [bodiedNow due] at bodyless
          contradiction
    · have shut : ¬ EndAccepted method pushed (past ++ [c]) := by
        rw [EndAccepted, not_not] at open_ ⊢
        rw [respond_concat]
        exact step_stays method _ c open_
      constructor
      · intro accepted
        exact absurd accepted shut
      · intro ⟨noEndNow, bodiedNow⟩
        apply absurd (bound.mpr ⟨fun d member => noEndNow d (by simp [member]), ?_⟩) open_
        intro wasDue
        have kept := startDue_concat c wasDue
        rw [← kept.2]
        exact bodiedNow kept.1

/-- Everything a response does, for every order of the application's calls, the reads and
    the PUSH_PROMISE event. -/
theorem response_lifecycle (method : Bytes) (pushed : Bool) (calls : List Call)
    (owed : Owed pushed calls) :
    (submissions (respond method pushed calls).2).length ≤ 1 ∧
    (submissions (respond method pushed calls).2 ≠ [] ↔ StartDue pushed calls) ∧
    (∀ statusCode header, firstHead calls = some (statusCode, header) →
      (respond method pushed calls).1.statusCode = statusCode ∧
      (respond method pushed calls).1.header = header ∧
      ∀ sent ∈ submissions (respond method pushed calls).2,
        ∃ date, sent = submission method statusCode header date ∧
          sent.nva = makeNvLs (lit ":status") (utos statusCode.toNat) ::
            makeNvLs (lit "date") date :: headerNva header ∧
          sent.provider = expectBody method statusCode) ∧
    (EndAccepted method pushed calls ↔
      (∀ c ∈ calls, c.body = none) ∧ (StartDue pushed calls →
        expectBody method ((firstHead calls).getD (200, Multimap.empty)).1 = true)) ∧
    ((∀ before c after cb, ¬ Accepted method pushed calls before c after cb) →
      (respond method pushed calls).1.generatorCb = some deferredGenerator) ∧
    (∀ before c after cb, Accepted method pushed calls before c after cb →
      (respond method pushed before).1.generatorCb = some deferredGenerator ∧
      (respond method pushed calls).1.generatorCb =
        advance cb (after.filterMap Call.bufferSize) ∧
      ∀ before' c' after' cb', Accepted method pushed calls before' c' after' cb' →
        before = before' ∧ c = c' ∧ after = after') ∧
    (∀ before data answer after,
      Accepted method pushed calls before (.endString data answer) after
        (some (stringGenerator data)) →
      ∃ early reads, readings (respond method pushed calls).2 = early ++ reads ∧
        reads.map Prod.fst = after.filterMap Call.bufferSize ∧
        (∀ read ∈ early, read.2 = ⟨errDeferred, [], 0⟩) ∧ Delivers data reads) := by
  have reflects := respond_reflects method pushed calls owed
  have started : submissions (respond method pushed calls).2 ≠ [] ↔ StartDue pushed calls := by
    constructor
    · intro some_
      by_contra notDue
      exact some_ (reflects.early notDue)
    · intro due
      obtain ⟨date, one⟩ := reflects.due due
      simp [one]
  have quiet : ∀ before c after cb, Accepted method pushed calls before c after cb →
      ∀ before' c' after' cb', ¬ Accepted method pushed before before' c' after' cb' := by
    intro before c after cb accepted before' c' after' cb' inner
    exact accepted.taken (respond_settled inner).1
  refine ⟨?_, started, ?_, endAccepted_iff method pushed calls owed, ?_, ?_, ?_⟩
  · by_cases due : StartDue pushed calls
    · obtain ⟨date, one⟩ := reflects.due due
      simp [one]
    · simp [reflects.early due]
  · intro statusCode header first
    have named := reflects.head
    rw [first, Option.getD_some, Prod.mk.injEq] at named
    refine ⟨named.1, named.2, ?_⟩
    intro sent member
    obtain ⟨date, one⟩ := reflects.due (started.mp (List.ne_nil_of_mem member))
    rw [one, List.mem_singleton, named.1, named.2] at member
    subst member
    exact ⟨date, rfl, rfl, rfl⟩
  · intro none_
    exact (respond_waiting method pushed calls none_).1
  · intro before c after cb accepted
    refine ⟨(respond_waiting method pushed before (quiet _ _ _ _ accepted)).1,
      (respond_settled accepted).2.1, ?_⟩
    intro before' c' after' cb' again
    exact accepted_unique accepted again
  · intro before data answer after accepted
    refine ⟨_, _, (respond_settled accepted).2.2, readAll_sizes _ _,
      (respond_waiting method pushed before (quiet _ _ _ _ accepted)).2, ?_⟩
    exact stringGenerator_delivers data _

theorem response_lifecycle_pushed :
    let calls : List Call := [.callRead 4, .endString (lit "hello") ⟨lit "now", true⟩,
      .pushPromiseSent ⟨lit "now", true⟩, .writeHead 404 Multimap.empty ⟨lit "now", true⟩,
      .callRead 3, .callRead 9]
    StartDue true calls ∧ submissions (respond (lit "GET") true calls).2 ≠ [] :=
  ⟨by decide, (response_lifecycle (lit "GET") true _ (by simp [Owed])).2.1.mpr (by decide)⟩

end Nghttp2Asio.Server
