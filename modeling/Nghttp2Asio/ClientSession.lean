import Mathlib.Data.List.Induction
import Nghttp2Asio.ClientStream

/-!
The stream table of a connected `session_impl` (asio_client_session_impl.cc) over whole
runs. An action is a public call made outside callbacks or a completion handler; what
nghttp2 and the application do while `nghttp2_session_mem_recv` or
`nghttp2_session_mem_send` runs is the list of callbacks that goes with it. Callbacks
that nghttp2 does not make (an id used twice, a close that was reported before) have no
result, so a run with a result is one nghttp2 can cause.
-/
namespace Nghttp2Asio.Client

/-- What happens inside nghttp2: one of its callbacks, or a `submit` the application makes
    from one of its own. `none` is a submission that fails. -/
inductive Callback where
  | recv (e : Event)
  | submit (streamId : Option Int) (request : RequestImpl)

inductive FlushEnd where
  | failed
  | nothing (drained : Bool)
  | wrote

def Output.closed : Output → Option (Int × UInt32)
  | .close id errorCode => some (id, errorCode)
  | _ => none

theorem step_keeps (app : App) (streams : Streams) (e : Event)
    (opens : ∀ id promised, e ≠ .beginHeaders (.pushPromise id promised))
    (closes : ∀ id errorCode, e ≠ .streamClose id errorCode) :
    (∀ k, (findStream (step app streams (.recv e)).1 k).isSome =
        (findStream streams k).isSome) ∧
      (step app streams (.recv e)).2.filterMap Output.closed = [] := by
  have kept : ∀ {id : Int} {strm next : Stream}, findStream streams id = some strm →
      ∀ k, (findStream (streams.insert id next) k).isSome =
        (findStream streams k).isSome := by
    intro id strm next found k
    by_cases same : id = k
    · subst same
      simp [found]
    · simp [same]
  cases e with
  | beginHeaders frame =>
    rcases frame with ⟨id, fin⟩ | ⟨id, fin, cat⟩ | ⟨id, promised⟩ | ⟨type, id⟩
    case pushPromise => exact absurd rfl (opens id promised)
    all_goals exact ⟨fun _ => rfl, rfl⟩
  | header frame f =>
    rcases frame with ⟨id, fin⟩ | ⟨id, fin, cat⟩ | ⟨id, promised⟩ | ⟨type, id⟩
    case headers =>
      cases found : findStream streams id with
      | none => simp [step, onHeader, found]
      | some strm =>
        simp only [step, onHeader, found]
        split
        · exact ⟨fun _ => rfl, rfl⟩
        · refine ⟨kept found, ?_⟩
          split <;> rfl
    case pushPromise =>
      cases found : findStream streams promised with
      | none => simp [step, onHeader, found]
      | some strm =>
        simp only [step, onHeader, found]
        refine ⟨kept found, ?_⟩
        split <;> rfl
    all_goals exact ⟨fun _ => rfl, rfl⟩
  | frameRecv frame =>
    rcases frame with ⟨id, fin⟩ | ⟨id, fin, cat⟩ | ⟨id, promised⟩ | ⟨type, id⟩
    case data =>
      cases found : findStream streams id <;> cases fin <;>
        simp [step, onFrameRecv, found, callOnData, Output.closed]
    case headers =>
      cases found : findStream streams id with
      | none => simp [step, onFrameRecv, found]
      | some strm =>
        simp only [step, onFrameRecv, found]
        split
        · exact ⟨fun _ => rfl, rfl⟩
        · split
          · exact ⟨fun _ => rfl, rfl⟩
          · refine ⟨kept found, ?_⟩
            cases fin <;> rfl
    case pushPromise =>
      simp only [step, onFrameRecv]
      split <;> exact ⟨fun _ => rfl, rfl⟩
    case other => exact ⟨fun _ => rfl, rfl⟩
  | dataChunk id data =>
    cases found : findStream streams id <;>
      simp [step, onDataChunkRecv, found, callOnData, Output.closed]
  | streamClose id errorCode => exact absurd rfl (closes id errorCode)

/-- `used` are the ids nghttp2 has opened and `reported` the closes it has reported;
    `notified` are the calls of `call_on_close`. -/
structure Session where
  streams : Streams
  writing : Bool
  stopped : Bool
  used : List Int
  reported : List (Int × UInt32)
  notified : List (Int × UInt32)

namespace Session

def new : Session := ⟨∅, false, false, [], [], []⟩

def stop (s : Session) : Session := { s with stopped := true }

def feed (app : App) (i : Input) (s : Session) : Session :=
  { s with
    streams := (Client.step app s.streams i).1
    notified := s.notified ++ (Client.step app s.streams i).2.filterMap Output.closed }

def openId (s : Session) (id : Int) : Option Session :=
  if id ∈ s.used then none else some { s with used := s.used ++ [id] }

def closeId (s : Session) (id : Int) (errorCode : UInt32) : Option Session :=
  if id ∈ s.used ∧ id ∉ s.reported.map Prod.fst then
    some { s with reported := s.reported ++ [(id, errorCode)] }
  else none

def announce (s : Session) : Event → Option Session
  | .beginHeaders (.pushPromise _ promised) => s.openId promised
  | .streamClose id errorCode => s.closeId id errorCode
  | _ => some s

def callback (app : App) (s : Session) : Callback → Option Session
  | .recv e => (s.announce e).map (feed app (.recv e))
  | .submit id request =>
    if s.stopped then some s
    else
      match id with
      | none => some s
      -- inside a callback `signal_write` does nothing
      | some id => (s.openId id).map (feed app (.submit id request))

def FlushEnd.apply (s : Session) : FlushEnd → Session
  | .failed => s.stop
  | .nothing drained => if drained then s.stop else s
  | .wrote => { s with writing := true }

def doWrite (app : App) (script : List Callback) (result : FlushEnd) (s : Session) :
    Option Session :=
  if s.stopped then some s
  else if s.writing then some s
  else (script.foldlM (callback app) s).map (FlushEnd.apply · result)

/-- `submit` outside callbacks: the flush comes before the registration. -/
def submit (app : App) (id : Option Int) (request : RequestImpl) (script : List Callback)
    (result : FlushEnd) (s : Session) : Option Session :=
  if s.stopped then some s
  else
    match id with
    | none => some s
    | some id =>
      ((s.openId id).bind (doWrite app script result)).map (feed app (.submit id request))

inductive Action where
  | submit (streamId : Option Int) (request : RequestImpl) (script : List Callback)
      (result : FlushEnd)
  /-- `cancel`, `resume`, `write_trailer`, `shutdown` or a ping, outside callbacks. -/
  | signalWrite (script : List Callback) (result : FlushEnd)
  | readDone (events script : List Callback) (result : FlushEnd) (drained : Bool)
  | recvFailure (events : List Callback)
  | readError
  | writeDone (script : List Callback) (result : FlushEnd)
  | writeError
  | stop

def step (app : App) (s : Session) : Action → Option Session
  | .submit id request script result => s.submit app id request script result
  | .signalWrite script result => s.doWrite app script result
  | .readDone events script result drained =>
    ((events.foldlM (callback app) s).bind (doWrite app script result)).map
      (fun s => if !s.writing && drained then s.stop else s)
  | .recvFailure events => (events.foldlM (callback app) s).map stop
  | .readError => some s.stop
  | .writeDone script result => { s with writing := false }.doWrite app script result
  | .writeError => some s.stop
  | .stop => some s.stop

def run (app : App) (actions : List Action) : Option Session := actions.foldlM (step app) new

/-- The table is in step with nghttp2, and every close it reported was passed on once. -/
structure Consistent (s : Session) : Prop where
  entries : ∀ id, (findStream s.streams id).isSome = true ↔
    id ∈ s.used ∧ id ∉ s.reported.map Prod.fst
  notices : s.notified = s.reported

def ClosesOwn (s : Session) : Action → Prop
  | .submit (some id) _ script _ => s.stopped = false ∧ s.writing = false ∧
      ∃ errorCode, Callback.recv (.streamClose id errorCode) ∈ script
  | _ => False

/-- The table with at most one stream that is open but not registered yet. -/
structure Pending (pending : Option Int) (s : Session) : Prop where
  entries : ∀ id, (findStream s.streams id).isSome = true ↔
    (id ∈ s.used ∧ id ∉ s.reported.map Prod.fst) ∧ pending ≠ some id
  notices : s.notified = s.reported
  known : ∀ id ∈ s.reported.map Prod.fst, id ∈ s.used
  opened : ∀ id, pending = some id → id ∈ s.used ∧ id ∉ s.reported.map Prod.fst

theorem Pending.consistent {s : Session} (settled : Pending none s) : Consistent s :=
  ⟨by simpa using settled.entries, settled.notices⟩

theorem pending_new : Pending none new where
  entries := by simp [new, findStream]
  notices := rfl
  known := by simp [new]
  opened := by simp

section Step
variable {app : App} {pending : Option Int} {s t : Session}

theorem Pending.keep (holds : Pending pending s) {e : Event}
    (opens : ∀ id promised, e ≠ .beginHeaders (.pushPromise id promised))
    (closes : ∀ id errorCode, e ≠ .streamClose id errorCode) :
    Pending pending (s.feed app (.recv e)) := by
  obtain ⟨kept, silent⟩ := step_keeps app s.streams e opens closes
  constructor
  · intro k
    rw [feed, kept k]
    exact holds.entries k
  · rw [feed, silent, List.append_nil]
    exact holds.notices
  · exact holds.known
  · exact holds.opened

theorem Pending.create (holds : Pending pending s) {id : Int} (fresh : id ∉ s.used)
    (request : RequestImpl) {i : Input}
    (registers : ∀ streams, Client.step app streams i =
      (streams.insertIfNew id (.new request), [])) :
    Pending pending (feed app i { s with used := s.used ++ [id] }) := by
  have unreported : id ∉ s.reported.map Prod.fst := mt (holds.known id) fresh
  have elsewhere : pending ≠ some id := by
    intro same
    exact fresh (holds.opened id same).1
  constructor
  · intro k
    by_cases same : id = k
    · subst same
      simp only [feed, registers, find_emplace, ↓reduceIte, List.mem_append,
        List.mem_singleton]
      cases findStream s.streams id <;> simp [unreported, elsewhere]
    · simp only [feed, registers, find_emplace, if_neg same, List.mem_append,
        List.mem_singleton, Ne.symm same, or_false]
      exact holds.entries k
  · simp only [feed, registers, List.filterMap_nil, List.append_nil]
    exact holds.notices
  · intro k member
    exact List.mem_append_left _ (holds.known k member)
  · intro k waits
    exact ⟨List.mem_append_left _ (holds.opened k waits).1, (holds.opened k waits).2⟩

theorem Pending.close (holds : Pending pending s) {id : Int} (errorCode : UInt32)
    (live : id ∈ s.used ∧ id ∉ s.reported.map Prod.fst) (other : pending ≠ some id) :
    Pending pending (feed app (.recv (.streamClose id errorCode))
      { s with reported := s.reported ++ [(id, errorCode)] }) := by
  obtain ⟨strm, found⟩ := Option.isSome_iff_exists.mp ((holds.entries id).mpr ⟨live, other⟩)
  have popped : Client.step app s.streams (.recv (.streamClose id errorCode)) =
      (s.streams.erase id, [.close id errorCode]) := by
    simp only [Client.step, onStreamClose, found]
  constructor
  · intro k
    by_cases same : id = k
    · subst same
      simp [feed, popped]
    · simp only [feed, popped, find_erase, if_neg same, List.map_append, List.map_cons,
        List.map_nil, List.mem_append, List.mem_singleton, Ne.symm same, or_false]
      exact holds.entries k
  · simp only [feed, popped, holds.notices]
    rfl
  · intro k member
    simp only [feed, List.map_append, List.map_cons, List.map_nil, List.mem_append,
      List.mem_singleton] at member
    rcases member with old | new
    · exact holds.known k old
    · rw [new]
      exact live.1
  · intro k waits
    have different : k ≠ id := by
      intro same
      rw [same] at waits
      exact other waits
    simp only [feed, List.map_append, List.map_cons, List.map_nil, List.mem_append,
      List.mem_singleton, different, or_false]
    exact holds.opened k waits

theorem openId_some {id : Int} (opened : s.openId id = some t) :
    id ∉ s.used ∧ t = { s with used := s.used ++ [id] } := by
  unfold openId at opened
  split at opened
  · contradiction
  · rename_i fresh
    injection opened with result
    exact ⟨fresh, result.symm⟩

theorem closeId_some {id : Int} {errorCode : UInt32} (closed : s.closeId id errorCode = some t) :
    (id ∈ s.used ∧ id ∉ s.reported.map Prod.fst) ∧
      t = { s with reported := s.reported ++ [(id, errorCode)] } := by
  unfold closeId at closed
  split at closed
  · rename_i live
    injection closed with result
    exact ⟨live, result.symm⟩
  · contradiction

theorem event_pending {e : Event} (holds : Pending pending s)
    (other : ∀ id errorCode, e = .streamClose id errorCode → pending ≠ some id)
    (made : (s.announce e).map (feed app (.recv e)) = some t) : Pending pending t := by
  obtain ⟨mid, announced, fed⟩ := Option.map_eq_some_iff.mp made
  rw [← fed]
  unfold announce at announced
  split at announced
  · obtain ⟨fresh, opened⟩ := openId_some announced
    rw [opened]
    exact holds.create fresh .empty (fun _ => rfl)
  · rename_i id errorCode
    obtain ⟨live, closed⟩ := closeId_some announced
    rw [closed]
    exact holds.close errorCode live (other id errorCode rfl)
  · rename_i opens closes
    injection announced with same
    rw [← same]
    exact holds.keep opens closes

theorem callback_pending {c : Callback} (holds : Pending pending s)
    (other : ∀ id errorCode, c = .recv (.streamClose id errorCode) → pending ≠ some id)
    (made : callback app s c = some t) : Pending pending t := by
  cases c with
  | recv e =>
    apply event_pending holds _ made
    intro id errorCode same
    exact other id errorCode (by rw [same])
  | submit id request =>
    simp only [callback] at made
    split at made
    · injection made with result
      rw [← result]
      exact holds
    · cases id with
      | none =>
        injection made with result
        rw [← result]
        exact holds
      | some id =>
        obtain ⟨mid, opened, fed⟩ := Option.map_eq_some_iff.mp made
        obtain ⟨fresh, result⟩ := openId_some opened
        rw [← fed, result]
        exact holds.create fresh request (fun _ => rfl)

theorem callbacks_pending (script : List Callback) :
    ∀ {s : Session}, Pending pending s →
      (∀ id errorCode, Callback.recv (.streamClose id errorCode) ∈ script →
        pending ≠ some id) →
      script.foldlM (callback app) s = some t → Pending pending t := by
  induction script with
  | nil =>
    intro s holds _ made
    injection made with result
    rw [← result]
    exact holds
  | cons c rest ih =>
    intro s holds other made
    rw [List.foldlM_cons] at made
    obtain ⟨mid, first, later⟩ := Option.bind_eq_some_iff.mp made
    apply ih (callback_pending holds _ first) _ later
    · intro id errorCode same
      exact other id errorCode (by simp [same])
    · intro id errorCode member
      exact other id errorCode (by simp [member])

theorem Pending.flags (holds : Pending pending s) (writing stopped : Bool) :
    Pending pending { s with writing := writing, stopped := stopped } :=
  ⟨holds.entries, holds.notices, holds.known, holds.opened⟩

theorem doWrite_pending {script : List Callback} {result : FlushEnd}
    (holds : Pending pending s)
    (other : s.stopped = false → s.writing = false → ∀ id errorCode,
      Callback.recv (.streamClose id errorCode) ∈ script → pending ≠ some id)
    (made : s.doWrite app script result = some t) : Pending pending t := by
  unfold doWrite at made
  split at made
  · injection made with same
    rw [← same]
    exact holds
  · rename_i running
    split at made
    · injection made with same
      rw [← same]
      exact holds
    · rename_i free
      obtain ⟨mid, flushed, ended⟩ := Option.map_eq_some_iff.mp made
      have midHolds := callbacks_pending script holds
        (other (by simpa using running) (by simpa using free)) flushed
      rw [← ended]
      cases result with
      | failed => exact midHolds.flags mid.writing true
      | nothing drained =>
        cases drained with
        | true => exact midHolds.flags mid.writing true
        | false => exact midHolds
      | wrote => exact midHolds.flags true mid.stopped

theorem Pending.openOnly (holds : Pending none s) {id : Int} (fresh : id ∉ s.used) :
    Pending (some id) { s with used := s.used ++ [id] } := by
  have unreported : id ∉ s.reported.map Prod.fst := mt (holds.known id) fresh
  constructor
  · intro k
    rw [holds.entries k]
    by_cases same : id = k
    · subst same
      simp [fresh]
    · simp [same, Ne.symm same]
  · exact holds.notices
  · intro k member
    exact List.mem_append_left _ (holds.known k member)
  · intro k same
    injection same with same
    subst same
    exact ⟨by simp, unreported⟩

theorem Pending.register {id : Int} (holds : Pending (some id) s) (request : RequestImpl) :
    Pending none (s.feed app (.submit id request)) := by
  constructor
  · intro k
    by_cases same : id = k
    · subst same
      have live := holds.opened id rfl
      simp only [feed, Client.step, find_emplace, ↓reduceIte]
      cases findStream s.streams id <;> simp [live]
    · simp only [feed, Client.step, find_emplace, if_neg same]
      rw [holds.entries k]
      simp [same]
  · simp only [feed, Client.step, List.filterMap_nil, List.append_nil]
    exact holds.notices
  · exact holds.known
  · simp

theorem submit_pending {id : Option Int} {request : RequestImpl} {script : List Callback}
    {result : FlushEnd} (holds : Pending none s)
    (quiet : ¬ ClosesOwn s (.submit id request script result))
    (made : s.submit app id request script result = some t) : Pending none t := by
  unfold submit at made
  split at made
  · injection made with same
    rw [← same]
    exact holds
  · cases id with
    | none =>
      injection made with same
      rw [← same]
      exact holds
    | some id =>
      obtain ⟨flushed, ended, registered⟩ := Option.map_eq_some_iff.mp made
      obtain ⟨opened, taken, written⟩ := Option.bind_eq_some_iff.mp ended
      obtain ⟨fresh, same⟩ := openId_some taken
      rw [same] at written
      rw [← registered]
      apply Pending.register
      apply doWrite_pending (holds.openOnly fresh) _ written
      intro running free k errorCode member mine
      injection mine with mine
      rw [← mine] at member
      exact quiet ⟨running, free, errorCode, member⟩

theorem step_pending {a : Action} (holds : Pending none s) (quiet : ¬ ClosesOwn s a)
    (made : s.step app a = some t) : Pending none t := by
  have anyone : ∀ script : List Callback, ∀ id errorCode,
      Callback.recv (.streamClose id errorCode) ∈ script →
      (none : Option Int) ≠ some id := by simp
  cases a with
  | submit id request script result => exact submit_pending holds quiet made
  | signalWrite script result =>
    exact doWrite_pending holds (fun _ _ => anyone script) made
  | readDone events script result drained =>
    obtain ⟨flushed, ended, stopped⟩ := Option.map_eq_some_iff.mp made
    obtain ⟨mid, received, written⟩ := Option.bind_eq_some_iff.mp ended
    have midHolds := callbacks_pending events holds (anyone events) received
    have after := doWrite_pending midHolds (fun _ _ => anyone script) written
    rw [← stopped]
    split
    · exact after.flags flushed.writing true
    · exact after
  | recvFailure events =>
    obtain ⟨mid, received, stopped⟩ := Option.map_eq_some_iff.mp made
    rw [← stopped]
    exact (callbacks_pending events holds (anyone events) received).flags mid.writing true
  | writeDone script result =>
    exact doWrite_pending (holds.flags false s.stopped) (fun _ _ => anyone script) made
  | readError | writeError | stop =>
    injection made with same
    rw [← same]
    exact holds.flags s.writing true

theorem event_reported {e : Event} (made : (s.announce e).map (feed app (.recv e)) = some t) :
    (∀ id ∈ s.reported.map Prod.fst, id ∈ t.reported.map Prod.fst) ∧
      ∀ id errorCode, e = .streamClose id errorCode → id ∈ t.reported.map Prod.fst := by
  obtain ⟨mid, announced, fed⟩ := Option.map_eq_some_iff.mp made
  have same : t.reported = mid.reported := by
    rw [← fed]
    rfl
  rw [same]
  unfold announce at announced
  split at announced
  · rw [(openId_some announced).2]
    exact ⟨fun _ member => member, by simp⟩
  · rename_i id errorCode
    rw [(closeId_some announced).2, List.map_append]
    refine ⟨fun _ member => List.mem_append_left _ member, ?_⟩
    intro k code named
    injection named with named _
    simp [named]
  · rename_i closes
    injection announced with kept
    rw [← kept]
    exact ⟨fun _ member => member, fun id errorCode named => absurd named (closes id errorCode)⟩

theorem callback_reported {c : Callback} (made : callback app s c = some t) :
    (∀ id ∈ s.reported.map Prod.fst, id ∈ t.reported.map Prod.fst) ∧
      ∀ id errorCode, c = .recv (.streamClose id errorCode) →
        id ∈ t.reported.map Prod.fst := by
  cases c with
  | recv e =>
    obtain ⟨grows, reports⟩ := event_reported made
    refine ⟨grows, ?_⟩
    intro id errorCode same
    injection same with same
    exact reports id errorCode same
  | submit id request =>
    simp only [callback] at made
    split at made
    · injection made with result
      rw [← result]
      exact ⟨fun _ member => member, by simp⟩
    · cases id with
      | none =>
        injection made with result
        rw [← result]
        exact ⟨fun _ member => member, by simp⟩
      | some id =>
        obtain ⟨mid, opened, fed⟩ := Option.map_eq_some_iff.mp made
        rw [← fed, (openId_some opened).2]
        exact ⟨fun _ member => member, by simp⟩

theorem callbacks_reported (script : List Callback) :
    ∀ {s : Session}, script.foldlM (callback app) s = some t →
      (∀ id ∈ s.reported.map Prod.fst, id ∈ t.reported.map Prod.fst) ∧
        ∀ id errorCode, Callback.recv (.streamClose id errorCode) ∈ script →
          id ∈ t.reported.map Prod.fst := by
  induction script with
  | nil =>
    intro s made
    injection made with result
    rw [← result]
    exact ⟨fun _ member => member, by simp⟩
  | cons c rest ih =>
    intro s made
    rw [List.foldlM_cons] at made
    obtain ⟨mid, first, later⟩ := Option.bind_eq_some_iff.mp made
    obtain ⟨grows, reports⟩ := callback_reported first
    obtain ⟨restGrows, restReports⟩ := ih later
    refine ⟨fun id member => restGrows id (grows id member), ?_⟩
    intro id errorCode member
    rcases List.mem_cons.mp member with here | there
    · exact restGrows id (reports id errorCode here.symm)
    · exact restReports id errorCode there

theorem closesOwn_breaks {a : Action} (own : ClosesOwn s a) (made : s.step app a = some t) :
    ¬ Consistent t := by
  match a, own with
  | .submit (some id) request script result, ⟨running, free, errorCode, member⟩ =>
    simp only [step, submit, running, Bool.false_eq_true, ↓reduceIte] at made
    obtain ⟨flushed, ended, registered⟩ := Option.map_eq_some_iff.mp made
    obtain ⟨opened, taken, written⟩ := Option.bind_eq_some_iff.mp ended
    rw [(openId_some taken).2] at written
    simp only [doWrite, running, free, Bool.false_eq_true, ↓reduceIte] at written
    obtain ⟨mid, sent, flagged⟩ := Option.map_eq_some_iff.mp written
    have reported := (callbacks_reported script sent).2 id errorCode member
    have kept : t.reported = mid.reported := by
      rw [← registered, ← flagged]
      cases result with
      | failed => rfl
      | nothing drained => cases drained <;> rfl
      | wrote => rfl
    intro consistent
    have present : (findStream t.streams id).isSome = true := by
      rw [← registered]
      simp only [feed, Client.step, find_emplace, ↓reduceIte]
      cases findStream flushed.streams id <;> rfl
    have closed := ((consistent.entries id).mp present).2
    rw [kept] at closed
    exact closed reported

end Step

section Run
variable (app : App)

theorem run_concat (actions : List Action) (a : Action) :
    run app (actions ++ [a]) = (run app actions).bind (fun s => s.step app a) := by
  simp [run, List.foldlM_append]

theorem run_pending (actions : List Action) (last : Session)
    (ran : run app actions = some last)
    (quiet : ∀ before a after s, actions = before ++ a :: after → run app before = some s →
      ¬ ClosesOwn s a) : Pending none last := by
  induction actions using List.reverseRecOn generalizing last with
  | nil =>
    injection ran with same
    rw [← same]
    exact pending_new
  | append_singleton past a ih =>
    rw [run_concat] at ran
    obtain ⟨s, reached, stepped⟩ := Option.bind_eq_some_iff.mp ran
    apply step_pending (ih s reached _) (quiet past a [] s rfl reached) stepped
    intro before b after t split
    exact quiet before b (after ++ [a]) t (by simp [split])

/-- In a run nghttp2 can cause, the table is in step with it after every call and handler
    exactly when no `submit` made outside callbacks flushes out the close of its own
    stream. -/
theorem table_consistent_iff (actions : List Action) (last : Session)
    (ran : run app actions = some last) :
    (∀ before after s, actions = before ++ after → run app before = some s → Consistent s) ↔
      ∀ before a after s, actions = before ++ a :: after → run app before = some s →
        ¬ ClosesOwn s a := by
  constructor
  · intro consistent before a after s split reached own
    have upto : ∃ t, run app (before ++ [a]) = some t := by
      rw [split, List.append_cons, run, List.foldlM_append] at ran
      obtain ⟨t, front, _⟩ := Option.bind_eq_some_iff.mp ran
      exact ⟨t, front⟩
    obtain ⟨t, front⟩ := upto
    have stepped := front
    rw [run_concat, reached, Option.bind_some] at stepped
    exact closesOwn_breaks own stepped
      (consistent (before ++ [a]) after t (by simp [split]) front)
  · intro quiet before after s split reached
    apply Pending.consistent
    apply run_pending app before s reached
    intro early a late t inner
    exact quiet early a (late ++ after) t (by simp [split, inner])

end Run

def listener : App := ⟨fun _ => true, fun _ _ => true⟩

def closedRun : List Action :=
  [.submit (some 1) .empty [] .wrote,
   .readDone [.recv (.beginHeaders (.pushPromise 1 2)), .submit (some 3) .empty] []
     (.nothing false) false,
   .writeDone [.recv (.streamClose 3 8)] .wrote,
   .readDone [.recv (.frameRecv (.headers 1 true .response)), .recv (.streamClose 1 0),
     .recv (.streamClose 2 0)] [] .wrote false]

theorem closedRun_consistent :
    ∃ last, run listener closedRun = some last ∧
      ∀ before after s, closedRun = before ++ after → run listener before = some s →
        Consistent s := by
  have ran : (run listener closedRun).isSome = true := by decide
  obtain ⟨last, reached⟩ := Option.isSome_iff_exists.mp ran
  refine ⟨last, reached, (table_consistent_iff listener closedRun last reached).mpr ?_⟩
  intro before a after s split _
  have member : a ∈ closedRun := by simp [split]
  simp only [closedRun, List.mem_cons, List.not_mem_nil, or_false] at member
  rcases member with rfl | rfl | rfl | rfl <;> simp [ClosesOwn]

/-- A request whose stream is closed while `submit` flushes it, as by a RST_STREAM for a
    body that cannot be read. -/
def lostRun : List Action :=
  [.submit (some 1) .empty [.recv (.streamClose 1 internalError)] .wrote]

theorem lostRun_not_consistent :
    ¬ ∀ before after s, lostRun = before ++ after → run listener before = some s →
      Consistent s := by
  intro consistent
  have reached : run listener lostRun = some ⟨(∅ : Streams).insertIfNew 1 (.new .empty), true,
      false, [1], [(1, internalError)], []⟩ := by
    simp [run, lostRun, step, submit, openId, doWrite, callback, announce, closeId, feed,
      Client.step, onStreamClose, FlushEnd.apply, new, findStream]
  have lost := (consistent lostRun [] _ (by simp) reached).notices
  contradiction

end Session

end Nghttp2Asio.Client
