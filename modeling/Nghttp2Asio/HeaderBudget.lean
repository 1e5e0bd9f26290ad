import Nghttp2Asio.ServerHandler
import Nghttp2Asio.ClientStream

/-!
The header budget of the three kinds of header blocks an endpoint receives: requests on
the server, responses and pushed requests on the client. The counter of a block is the
size of what it stores in every state a run reaches; which stream is reset when a field
does not fit is decided field by field.
-/
namespace Nghttp2Asio

def HeaderStore.exceeds (s : HeaderStore) (f : Field) : Bool :=
  s.headerBufferSize + f.size > headerLimit

theorem add_eq_none_iff (s : HeaderStore) (f : Field) : s.add f = none ↔ s.exceeds f = true := by
  unfold HeaderStore.add HeaderStore.exceeds
  split <;> simp_all

theorem not_exceeds_of_add {s t : HeaderStore} {f : Field} (added : s.add f = some t) :
    s.exceeds f = false := by
  rw [← Bool.not_eq_true, ← add_eq_none_iff, added]
  simp

def Field.storedInRequest (f : Field) : Bool :=
  lookupToken f.name ≠ some .method ∧ lookupToken f.name ≠ some .scheme ∧
    lookupToken f.name ≠ some .authority ∧ lookupToken f.name ≠ some .path

def RequestImpl.overflows (req : RequestImpl) (f : Field) : Bool :=
  f.storedInRequest && req.store.exceeds f

theorem storeField_spec (req : RequestImpl) (f : Field) :
    (req.storeField f).1.store = (req.store.add f).getD req.store ∧
      (req.storeField f).2 = req.store.exceeds f := by
  unfold RequestImpl.storeField
  cases added : req.store.add f with
  | none => simp [(add_eq_none_iff _ _).mp added]
  | some store => simp [not_exceeds_of_add added]

theorem RequestImpl.receive_spec (req : RequestImpl) (f : Field) :
    (req.receive f).1.store =
        (if f.storedInRequest then (req.store.add f).getD req.store else req.store) ∧
      (req.receive f).2 = req.overflows f := by
  unfold RequestImpl.receive RequestImpl.overflows Field.storedInRequest
  split
  case h_5 named =>
    split <;> simp [named, storeField_spec]
  case h_6 not_method not_scheme not_authority not_path _ =>
    have stored : ∀ t ∈ [Token.method, .scheme, .authority, .path], lookupToken f.name ≠ some t := by
      simpa using ⟨not_method, not_scheme, not_authority, not_path⟩
    simp only [List.forall_mem_cons] at stored
    simp [stored, storeField_spec]
  all_goals
    rename_i named
    simp [named]

theorem RequestImpl.receive_balanced {req : RequestImpl} (f : Field)
    (balanced : req.store.Balanced) : (req.receive f).1.store.Balanced := by
  rw [(req.receive_spec f).1]
  split
  · cases added : req.store.add f with
    | none => exact balanced
    | some store => exact balanced_add balanced added
  · exact balanced

theorem RequestImpl.receive_overflow {req : RequestImpl} {f : Field}
    (overflow : req.overflows f = true) : (req.receive f).1.store = req.store := by
  obtain ⟨stored, spent⟩ : f.storedInRequest = true ∧ req.store.exceeds f = true := by
    simpa [RequestImpl.overflows] using overflow
  rw [(req.receive_spec f).1, if_pos stored, (add_eq_none_iff _ _).mpr spent]
  rfl

namespace Server
variable {α : Type}

def Output.reset : Output α → Option Int
  | .rstStream id _ => some id
  | _ => none

def overflowed (streams : Streams) : Event → Option Int
  | .header (.headers id _ .request) f =>
    match findStream streams id with
    | none => none
    | some strm => if strm.request.overflows f then some id else none
  | _ => none

def requestStore (streams : Streams) (id : Int) : Option HeaderStore :=
  (findStream streams id).map (fun strm => strm.request.store)

/-- An overflowing field is not stored, and the stream of its block, no other, is reset. -/
structure Enforces (app : App α) (streams : Streams) (e : Event) : Prop where
  resets : (step app streams e).2.filterMap Output.reset = (overflowed streams e).toList
  refused : ∀ id, overflowed streams e = some id → ∀ k,
    requestStore (step app streams e).1 k = requestStore streams k

structure Budgeted (app : App α) (events : List Event) : Prop where
  balanced : ∀ past, past <+: events → ∀ id store,
    requestStore (Trace.run (step app) ∅ past).1 id = some store → store.Balanced
  enforced : ∀ past e, past ++ [e] <+: events → Enforces app (Trace.run (step app) ∅ past).1 e

theorem step_enforces (app : App α) (streams : Streams) (e : Event) : Enforces app streams e := by
  cases e with
  | beginHeaders frame =>
    rcases frame with ⟨id, fin⟩ | ⟨id, fin, _ | _ | _ | _⟩ | ⟨id, promised⟩ | ⟨type, id⟩
    all_goals exact ⟨rfl, by intro id overflow; cases overflow⟩
  | header frame f =>
    rcases frame with ⟨id, fin⟩ | ⟨id, fin, _ | _ | _ | _⟩ | ⟨id, promised⟩ | ⟨type, id⟩
    case headers.request =>
      cases found : findStream streams id with
      | none => constructor <;> simp [step, onHeader, overflowed, found]
      | some strm =>
        constructor
        · cases overflow : strm.request.overflows f <;>
            simp [step, onHeader, overflowed, found, strm.request.receive_spec, overflow,
              Output.reset]
        · intro id' overflow k
          have full : strm.request.overflows f = true := by
            by_contra fits
            simp [overflowed, found, fits] at overflow
          have kept := RequestImpl.receive_overflow full
          by_cases same : id = k
          · subst same
            simp [step, onHeader, requestStore, found, kept]
          · simp [step, onHeader, requestStore, found, same]
    all_goals exact ⟨rfl, by intro id overflow; cases overflow⟩
  | frameRecv frame =>
    rcases frame with ⟨id, fin⟩ | ⟨id, fin, _ | _ | _ | _⟩ | ⟨id, promised⟩ | ⟨type, id⟩
    case data =>
      refine ⟨?_, by intro id overflow; cases overflow⟩
      cases found : findStream streams id <;> cases fin <;>
        simp [step, onFrameRecv, overflowed, found, callOnData, Output.reset]
    case headers.request =>
      refine ⟨?_, by intro id overflow; cases overflow⟩
      cases found : findStream streams id <;> cases fin <;>
        simp [step, onFrameRecv, overflowed, found, callOnRequest, callOnData, Output.reset]
    all_goals exact ⟨rfl, by intro id overflow; cases overflow⟩
  | dataChunk id data =>
    refine ⟨?_, by intro id overflow; cases overflow⟩
    cases found : findStream streams id <;>
      simp [step, onDataChunkRecv, overflowed, found, callOnData, Output.reset]
  | streamClose id errorCode =>
    refine ⟨?_, by intro id overflow; cases overflow⟩
    cases found : findStream streams id <;>
      simp [step, onStreamClose, overflowed, found, callOnClose, Output.reset]

theorem Stream.step_balanced (app : App α) (strm : Option Stream) (e : Event)
    (before : ∀ s, strm = some s → s.request.store.Balanced) :
    ∀ s, (Stream.step app strm e).1 = some s → s.request.store.Balanced := by
  intro s after
  unfold Stream.step at after
  split at after
  · cases strm with
    | none =>
      obtain rfl : Stream.new = s := by simpa using after
      exact balanced_empty
    | some t => exact before s (by simpa using after)
  · split at after
    · contradiction
    · rename_i t
      obtain rfl := Option.some.inj after
      exact RequestImpl.receive_balanced _ (before t rfl)
  · exact before s after
  · split at after
    · contradiction
    · rename_i t
      obtain rfl := Option.some.inj after
      exact before t rfl
  · exact before s after
  · contradiction
  · exact before s after

theorem run_balanced (app : App α) (events : List Event) : ∀ id strm,
    findStream (Trace.run (step app) ∅ events).1 id = some strm → strm.request.store.Balanced := by
  induction events using List.reverseRecOn with
  | nil => simp [findStream]
  | append_singleton events e ih =>
    rw [Trace.run_concat]
    intro id strm found
    by_cases mine : e.streamId = id
    · subst mine
      rw [step_own] at found
      exact Stream.step_balanced app _ e (ih e.streamId) strm found
    · rw [step_other app _ e id mine] at found
      exact ih id strm found

theorem budgeted (app : App α) (events : List Event) : Budgeted app events where
  balanced := by
    intro past _ id store found
    obtain ⟨strm, present, rfl⟩ := Option.map_eq_some_iff.mp found
    exact run_balanced app past id strm present
  enforced := fun past e _ => step_enforces app _ e

end Server

namespace Client

def Output.reset : Output → Option Int
  | .rstStream id _ => some id
  | _ => none

def ResponseImpl.overflows (res : ResponseImpl) (f : Field) : Bool :=
  lookupToken f.name ≠ some .status && res.store.exceeds f

theorem ResponseImpl.receive_spec (res : ResponseImpl) (f : Field) :
    (res.receive f).1.store = (if lookupToken f.name = some .status then res.store
        else (res.store.add f).getD res.store) ∧
      (res.receive f).2 = res.overflows f := by
  unfold ResponseImpl.receive ResponseImpl.overflows
  by_cases status : lookupToken f.name = some .status
  · simp [status]
  · cases added : res.store.add f with
    | none => simp [status, (add_eq_none_iff _ _).mp added]
    | some store => simp [status, not_exceeds_of_add added]

theorem ResponseImpl.receive_balanced {res : ResponseImpl} (f : Field)
    (balanced : res.store.Balanced) : (res.receive f).1.store.Balanced := by
  rw [(res.receive_spec f).1]
  split
  · exact balanced
  · cases added : res.store.add f with
    | none => exact balanced
    | some store => exact balanced_add balanced added

theorem ResponseImpl.receive_overflow {res : ResponseImpl} {f : Field}
    (overflow : res.overflows f = true) : (res.receive f).1.store = res.store := by
  obtain ⟨other, spent⟩ : lookupToken f.name ≠ some .status ∧ res.store.exceeds f = true := by
    simpa [ResponseImpl.overflows] using overflow
  rw [(res.receive_spec f).1, if_neg other, (add_eq_none_iff _ _).mpr spent]
  rfl

/-- The stream whose header block a field overflows: of a PUSH_PROMISE block the promised
    one. -/
def overflowed (streams : Streams) : Input → Option Int
  | .recv (.header (.headers id _ cat) f) =>
    match findStream streams id with
    | none => none
    | some strm =>
      if !strm.response.ignores cat && strm.response.overflows f then some id else none
  | .recv (.header (.pushPromise _ promised) f) =>
    match findStream streams promised with
    | none => none
    | some strm => if strm.request.overflows f then some promised else none
  | _ => none

def stores (streams : Streams) (id : Int) : Option (HeaderStore × HeaderStore) :=
  (findStream streams id).map (fun strm => (strm.request.store, strm.response.store))

structure Enforces (app : App) (streams : Streams) (i : Input) : Prop where
  resets : (step app streams i).2.filterMap Output.reset = (overflowed streams i).toList
  refused : ∀ id, overflowed streams i = some id → ∀ k,
    stores (step app streams i).1 k = stores streams k

structure Budgeted (app : App) (inputs : List Input) : Prop where
  response : ∀ past, past <+: inputs → ∀ id strm,
    findStream (Trace.run (step app) ∅ past).1 id = some strm → strm.response.store.Balanced
  pushed : ∀ past, past <+: inputs → ∀ id strm,
    findStream (Trace.run (step app) ∅ past).1 id = some strm →
      (∀ request, .submit id request ∉ past) → strm.request.store.Balanced
  enforced : ∀ past i, past ++ [i] <+: inputs → Enforces app (Trace.run (step app) ∅ past).1 i

def promiseOverflows (streams : Streams) : Input → Bool
  | .recv (.header (.pushPromise id promised) f) =>
    id ≠ promised && (findStream streams promised).any (fun strm => strm.request.overflows f)
  | _ => false

theorem entry_insert {streams : Streams} {id k : Int} {strm new : Stream}
    (found : findStream (streams.insert id new) k = some strm) :
    findStream streams k = some strm ∨ k = id ∧ strm = new := by
  rw [find_insert] at found
  split at found
  · rename_i same
    exact .inr ⟨same.symm, (Option.some.inj found).symm⟩
  · exact .inl found

theorem entry_emplace {streams : Streams} {id k : Int} {strm new : Stream}
    (found : findStream (streams.insertIfNew id new) k = some strm) :
    findStream streams k = some strm ∨ k = id ∧ strm = new := by
  rw [find_emplace] at found
  split at found
  · rename_i same
    rcases Option.or_eq_some_iff.mp found with old | ⟨_, fresh⟩
    · exact .inl old
    · exact .inr ⟨same.symm, (Option.some.inj fresh).symm⟩
  · exact .inl found

theorem step_entry (app : App) (streams : Streams) (i : Input) (k : Int) (strm : Stream)
    (found : findStream (step app streams i).1 k = some strm) :
    findStream streams k = some strm ∨
      (∃ request, i = .submit k request ∧ strm = .new request) ∨ strm = .new .empty ∨
      ∃ old, findStream streams k = some old ∧
        ((∃ f, strm = { old with response := (old.response.receive f).1 }) ∨
          (∃ f, strm = { old with request := (old.request.receive f).1 }) ∨
          strm = { old with response := (callOnResponse app k old.response).1 }) := by
  rcases i with ⟨id, request⟩ | e
  · rcases entry_emplace found with old | ⟨rfl, new⟩
    · exact .inl old
    · exact .inr (.inl ⟨request, rfl, new⟩)
  cases e with
  | beginHeaders frame =>
    rcases frame with ⟨id, fin⟩ | ⟨id, fin, cat⟩ | ⟨id, promised⟩ | ⟨type, id⟩
    case pushPromise =>
      rcases entry_emplace found with old | ⟨_, new⟩
      · exact .inl old
      · exact .inr (.inr (.inl new))
    all_goals exact .inl found
  | header frame f =>
    rcases frame with ⟨id, fin⟩ | ⟨id, fin, cat⟩ | ⟨id, promised⟩ | ⟨type, id⟩
    case headers =>
      simp only [step, onHeader] at found
      split at found
      · exact .inl found
      rename_i old present
      split at found
      · exact .inl found
      rcases entry_insert found with kept | ⟨rfl, new⟩
      · exact .inl kept
      · exact .inr (.inr (.inr ⟨old, present, .inl ⟨f, new⟩⟩))
    case pushPromise =>
      simp only [step, onHeader] at found
      split at found
      · exact .inl found
      rename_i old present
      rcases entry_insert found with kept | ⟨rfl, new⟩
      · exact .inl kept
      · exact .inr (.inr (.inr ⟨old, present, .inr (.inl ⟨f, new⟩)⟩))
    all_goals exact .inl found
  | frameRecv frame =>
    rcases frame with ⟨id, fin⟩ | ⟨id, fin, cat⟩ | ⟨id, promised⟩ | ⟨type, id⟩
    case headers =>
      simp only [step, onFrameRecv] at found
      split at found
      · exact .inl found
      rename_i old present
      split at found
      · exact .inl found
      split at found
      · exact .inl found
      rcases entry_insert found with kept | ⟨rfl, new⟩
      · exact .inl kept
      · exact .inr (.inr (.inr ⟨old, present, .inr (.inr new)⟩))
    case other => exact .inl found
    all_goals
      simp only [step, onFrameRecv] at found
      split at found <;> exact .inl found
  | dataChunk id data =>
    simp only [step, onDataChunkRecv] at found
    split at found <;> exact .inl found
  | streamClose id errorCode =>
    simp only [step, onStreamClose] at found
    split at found
    · exact .inl found
    · rw [find_erase] at found
      split at found
      · contradiction
      · exact .inl found

theorem run_response_balanced (app : App) (inputs : List Input) : ∀ id strm,
    findStream (Trace.run (step app) ∅ inputs).1 id = some strm →
      strm.response.store.Balanced := by
  induction inputs using List.reverseRecOn with
  | nil => simp [findStream]
  | append_singleton inputs i ih =>
    rw [Trace.run_concat]
    intro id strm found
    rcases step_entry app _ i id strm found with
      kept | ⟨request, _, rfl⟩ | rfl | ⟨old, present, ⟨f, rfl⟩ | ⟨f, rfl⟩ | rfl⟩
    · exact ih id strm kept
    · exact balanced_empty
    · exact balanced_empty
    · exact ResponseImpl.receive_balanced f (ih id old present)
    · exact ih id old present
    · exact ih id old present

theorem run_pushed_balanced (app : App) (inputs : List Input) : ∀ id strm,
    findStream (Trace.run (step app) ∅ inputs).1 id = some strm →
      (∀ request, .submit id request ∉ inputs) → strm.request.store.Balanced := by
  induction inputs using List.reverseRecOn with
  | nil => simp [findStream]
  | append_singleton inputs i ih =>
    rw [Trace.run_concat]
    intro id strm found unsubmitted
    have earlier : ∀ request, .submit id request ∉ inputs := by
      intro request member
      exact unsubmitted request (by simp [member])
    rcases step_entry app _ i id strm found with
      kept | ⟨request, submitted, rfl⟩ | rfl | ⟨old, present, ⟨f, rfl⟩ | ⟨f, rfl⟩ | rfl⟩
    · exact ih id strm kept earlier
    · exact absurd (by simp [submitted]) (unsubmitted request)
    · exact balanced_empty
    · exact ih id old present earlier
    · exact RequestImpl.receive_balanced f (ih id old present earlier)
    · exact ih id old present earlier

theorem stores_insert {streams : Streams} {id : Int} {strm new : Stream} (k : Int)
    (found : findStream streams id = some strm)
    (request : new.request.store = strm.request.store)
    (response : new.response.store = strm.response.store) :
    stores (streams.insert id new) k = stores streams k := by
  by_cases same : id = k
  · subst same
    simp [stores, found, request, response]
  · simp [stores, same]

theorem step_refused (app : App) (streams : Streams) (i : Input) (id : Int)
    (overflow : overflowed streams i = some id) (k : Int) :
    stores (step app streams i).1 k = stores streams k := by
  unfold overflowed at overflow
  split at overflow
  · rename_i id fin cat f
    split at overflow
    · contradiction
    rename_i strm found
    split at overflow
    · rename_i full
      obtain ⟨heeded, full⟩ : strm.response.ignores cat = false ∧
          strm.response.overflows f = true := by simpa using full
      simp only [step, onHeader, found, heeded, Bool.false_eq_true, ↓reduceIte]
      exact stores_insert k found rfl (ResponseImpl.receive_overflow full)
    · contradiction
  · rename_i id promised f
    split at overflow
    · contradiction
    rename_i strm found
    split at overflow
    · rename_i full
      simp only [step, onHeader, found]
      exact stores_insert k found (RequestImpl.receive_overflow full) rfl
    · contradiction
  · contradiction

theorem step_resets_promise (app : App) (streams : Streams) (id promised : Int) (f : Field) :
    (step app streams (.recv (.header (.pushPromise id promised) f))).2.filterMap Output.reset =
        (overflowed streams (.recv (.header (.pushPromise id promised) f))).toList ↔
      promiseOverflows streams (.recv (.header (.pushPromise id promised) f)) = false := by
  cases found : findStream streams promised with
  | none => simp [step, onHeader, overflowed, promiseOverflows, found]
  | some strm =>
    have flag := (strm.request.receive_spec f).2
    cases overflow : strm.request.overflows f <;>
      simp [step, onHeader, overflowed, promiseOverflows, found, flag, overflow, Output.reset]

theorem step_resets (app : App) (streams : Streams) (i : Input)
    (other : ∀ id promised f, i ≠ .recv (.header (.pushPromise id promised) f)) :
    (step app streams i).2.filterMap Output.reset = (overflowed streams i).toList := by
  rcases i with ⟨id, request⟩ | e
  · rfl
  cases e with
  | beginHeaders frame =>
    rcases frame with ⟨id, fin⟩ | ⟨id, fin, cat⟩ | ⟨id, promised⟩ | ⟨type, id⟩
    all_goals rfl
  | header frame f =>
    rcases frame with ⟨id, fin⟩ | ⟨id, fin, cat⟩ | ⟨id, promised⟩ | ⟨type, id⟩
    case headers =>
      cases found : findStream streams id with
      | none => simp [step, onHeader, overflowed, found]
      | some strm =>
        have flag := (strm.response.receive_spec f).2
        cases ignored : strm.response.ignores cat <;>
          cases overflow : strm.response.overflows f <;>
          simp [step, onHeader, overflowed, found, ignored, flag, overflow, Output.reset]
    case pushPromise => exact absurd rfl (other id promised f)
    all_goals rfl
  | frameRecv frame =>
    rcases frame with ⟨id, fin⟩ | ⟨id, fin, cat⟩ | ⟨id, promised⟩ | ⟨type, id⟩
    case data =>
      cases found : findStream streams id <;> cases fin <;>
        simp [step, onFrameRecv, overflowed, found, callOnData, Output.reset]
    case headers =>
      cases found : findStream streams id with
      | none => simp [step, onFrameRecv, overflowed, found]
      | some strm =>
        cases ignored : strm.response.ignores cat <;>
          cases waits : strm.response.expectFinalResponse <;> cases fin <;>
          simp [step, onFrameRecv, overflowed, found, ignored, waits, callOnResponse, callOnData,
            Output.reset]
    case pushPromise =>
      cases found : findStream streams id <;> cases pushed : findStream streams promised <;>
        simp [step, onFrameRecv, overflowed, found, pushed, Output.reset]
    case other => rfl
  | dataChunk id data =>
    cases found : findStream streams id <;>
      simp [step, onDataChunkRecv, overflowed, found, callOnData, Output.reset]
  | streamClose id errorCode =>
    cases found : findStream streams id <;>
      simp [step, onStreamClose, overflowed, found, Output.reset]

/-- Of all fields, only one that overflows the block of a PUSH_PROMISE is answered with
    the reset of another stream. -/
theorem enforces_iff (app : App) (streams : Streams) (i : Input) :
    Enforces app streams i ↔ promiseOverflows streams i = false := by
  by_cases promise : ∃ id promised f, i = .recv (.header (.pushPromise id promised) f)
  · obtain ⟨id, promised, f, rfl⟩ := promise
    rw [← step_resets_promise app]
    exact ⟨fun both => both.resets, fun resets => ⟨resets, step_refused app streams _⟩⟩
  · push Not at promise
    have quiet : promiseOverflows streams i = false := by
      unfold promiseOverflows
      split
      · exact absurd rfl (promise _ _ _)
      · rfl
    simp only [quiet, iff_true]
    exact ⟨step_resets app streams i promise, step_refused app streams i⟩

def PromisesFit (app : App) (inputs : List Input) : Prop :=
  ∀ past i, past ++ [i] <+: inputs →
    promiseOverflows (Trace.run (step app) ∅ past).1 i = false

theorem budgeted_iff (app : App) (inputs : List Input) :
    Budgeted app inputs ↔ PromisesFit app inputs := by
  constructor
  · intro budgeted past i part
    exact (enforces_iff app _ i).mp (budgeted.enforced past i part)
  · intro fit
    exact {
      response := fun past _ => run_response_balanced app past
      pushed := fun past _ => run_pushed_balanced app past
      enforced := fun past i part => (enforces_iff app _ i).mpr (fit past i part) }

end Client

/-- The server keeps the budget in every run; the client exactly in the runs without an
    overflowing PUSH_PROMISE block. -/
theorem header_budget {α : Type} (server : Server.App α) (events : List Event)
    (client : Client.App) (inputs : List Client.Input) :
    Server.Budgeted server events ∧
      (Client.Budgeted client inputs ↔ Client.PromisesFit client inputs) :=
  ⟨Server.budgeted server events, Client.budgeted_iff client inputs⟩

def promiseOf (value : Bytes) : List Client.Input :=
  [.submit 1 .empty, .recv (.beginHeaders (.pushPromise 1 2)),
    .recv (.header (.pushPromise 1 2) ⟨lit "x", value, false⟩)]

theorem promiseOf_overflows (app : Client.App) (value : Bytes) (long : headerLimit ≤ value.length) :
    ¬ Client.PromisesFit app (promiseOf value) := by
  intro fit
  have overflow := fit [.submit 1 .empty, .recv (.beginHeaders (.pushPromise 1 2))] _
    (List.prefix_refl (promiseOf value))
  have unnamed : lookupToken (lit "x") = none := by decide +kernel
  have one : (lit "x").length = 1 := by decide
  simp [Client.promiseOverflows, Trace.run_cons, Client.step, Client.onBeginHeaders,
    Client.createPushStream, Client.Stream.new, RequestImpl.overflows, Field.storedInRequest,
    unnamed, HeaderStore.exceeds, Field.size, RequestImpl.empty, HeaderStore.empty,
    one] at overflow
  omega

theorem long_promise_resets_parent : ¬ Client.Budgeted ⟨fun _ => false, fun _ _ => false⟩
    (promiseOf (List.replicate headerLimit zero)) := by
  rw [Client.budgeted_iff]
  exact promiseOf_overflows _ _ (by rw [List.length_replicate])

end Nghttp2Asio
