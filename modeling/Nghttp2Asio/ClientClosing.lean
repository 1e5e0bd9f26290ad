import Nghttp2Asio.ClientSession
import Nghttp2Asio.Library.Trace

/-!
The end of a client session. `~session_impl` tells every stream that is still in the table,
so over the life of a session each stream hears of its close once, those included that a
flush closes while they are submitted.
-/
namespace Nghttp2Asio.Client.Session

def destroy (s : Session) : List (Int × UInt32) :=
  s.streams.toList.map (fun p => (p.1, internalError))

/-- A stream nghttp2 has opened was told of its close or is in the table, unless its
    `submit` is still flushing. -/
structure Accounted (pending : Option Int) (s : Session) : Prop where
  opened : s.used.Nodup
  told : (s.notified.map Prod.fst).Nodup
  closed : (s.reported.map Prod.fst).Nodup
  entries : ∀ id, (findStream s.streams id).isSome = true ↔
    id ∈ s.used ∧ id ∉ s.notified.map Prod.fst ∧ pending ≠ some id
  known : ∀ id ∈ s.reported.map Prod.fst, id ∈ s.used
  passed : ∀ c ∈ s.notified, c ∈ s.reported
  waits : ∀ id, pending = some id → id ∈ s.used ∧ id ∉ s.notified.map Prod.fst

theorem accounted_new : Accounted none new where
  opened := List.nodup_nil
  told := List.nodup_nil
  closed := List.nodup_nil
  entries := by simp [new, findStream]
  known := by simp [new]
  passed := by simp [new]
  waits := by simp

section Step
variable {app : App} {pending : Option Int} {s t : Session}

theorem Accounted.told_used (holds : Accounted pending s) {id : Int}
    (member : id ∈ s.notified.map Prod.fst) : id ∈ s.used := by
  obtain ⟨c, inside, rfl⟩ := List.mem_map.mp member
  exact holds.known c.1 (List.mem_map_of_mem (holds.passed c inside))

theorem Accounted.flags (holds : Accounted pending s) (writing stopped : Bool) :
    Accounted pending { s with writing := writing, stopped := stopped } :=
  ⟨holds.opened, holds.told, holds.closed, holds.entries, holds.known, holds.passed, holds.waits⟩

theorem Accounted.keep (holds : Accounted pending s) {e : Event}
    (opens : ∀ id promised, e ≠ .beginHeaders (.pushPromise id promised))
    (closes : ∀ id errorCode, e ≠ .streamClose id errorCode) :
    Accounted pending (s.feed app (.recv e)) := by
  obtain ⟨kept, silent⟩ := step_keeps app s.streams e opens closes
  have quiet : (s.feed app (.recv e)).notified = s.notified := by
    rw [feed, silent, List.append_nil]
  constructor
  · exact holds.opened
  · rw [quiet]
    exact holds.told
  · exact holds.closed
  · intro k
    rw [quiet, feed, kept k]
    exact holds.entries k
  · exact holds.known
  · rw [quiet]
    exact holds.passed
  · rw [quiet]
    exact holds.waits

theorem Accounted.openOnly (holds : Accounted none s) {id : Int} (fresh : id ∉ s.used) :
    Accounted (some id) { s with used := s.used ++ [id] } := by
  have untold : id ∉ s.notified.map Prod.fst := mt holds.told_used fresh
  constructor
  · simpa using holds.opened.concat fresh
  · exact holds.told
  · exact holds.closed
  · intro k
    rw [holds.entries k]
    by_cases same : id = k
    · subst same
      simp [fresh]
    · simp [same, Ne.symm same]
  · intro k member
    exact List.mem_append_left _ (holds.known k member)
  · exact holds.passed
  · intro k same
    injection same with same
    subst same
    exact ⟨by simp, untold⟩

theorem Accounted.create (holds : Accounted pending s) {id : Int} (fresh : id ∉ s.used)
    (request : RequestImpl) {i : Input}
    (registers : ∀ streams, Client.step app streams i = (streams.insertIfNew id (.new request), [])) :
    Accounted pending (feed app i { s with used := s.used ++ [id] }) := by
  have untold : id ∉ s.notified.map Prod.fst := mt holds.told_used fresh
  have elsewhere : pending ≠ some id := fun same => fresh (holds.waits id same).1
  have quiet : (feed app i { s with used := s.used ++ [id] }).notified = s.notified := by
    simp [feed, registers]
  constructor
  · simpa [feed] using holds.opened.concat fresh
  · rw [quiet]
    exact holds.told
  · exact holds.closed
  · intro k
    rw [quiet]
    by_cases same : id = k
    · subst same
      simp only [feed, registers, find_emplace, ↓reduceIte, List.mem_append, List.mem_singleton]
      cases findStream s.streams id <;> simp [untold, elsewhere]
    · simp only [feed, registers, find_emplace, if_neg same, List.mem_append, List.mem_singleton,
        Ne.symm same, or_false]
      exact holds.entries k
  · intro k member
    exact List.mem_append_left _ (holds.known k member)
  · rw [quiet]
    exact holds.passed
  · intro k same
    rw [quiet]
    exact ⟨List.mem_append_left _ (holds.waits k same).1, (holds.waits k same).2⟩

/-- A close that finds no entry is one that the pending stream has not heard of. -/
theorem Accounted.close (holds : Accounted pending s) {id : Int} {errorCode : UInt32}
    (live : id ∈ s.used ∧ id ∉ s.reported.map Prod.fst) :
    Accounted pending (feed app (.recv (.streamClose id errorCode))
      { s with reported := s.reported ++ [(id, errorCode)] }) := by
  have closed : ((s.reported ++ [(id, errorCode)]).map Prod.fst).Nodup := by
    simpa using holds.closed.concat live.2
  have known : ∀ k ∈ (s.reported ++ [(id, errorCode)]).map Prod.fst, k ∈ s.used := by
    intro k member
    simp only [List.map_append, List.map_cons, List.map_nil, List.mem_append,
      List.mem_singleton] at member
    rcases member with old | rfl
    · exact holds.known k old
    · exact live.1
  cases found : findStream s.streams id with
  | none =>
    have silent : Client.step app s.streams (.recv (.streamClose id errorCode)) = (s.streams, []) := by
      simp only [Client.step, onStreamClose, found]
    constructor
    · exact holds.opened
    · simpa [feed, silent] using holds.told
    · exact closed
    · simpa [feed, silent] using holds.entries
    · exact known
    · simp only [feed, silent, List.filterMap_nil, List.append_nil]
      exact fun c member => List.mem_append_left _ (holds.passed c member)
    · simpa [feed, silent] using holds.waits
  | some strm =>
    obtain ⟨_, untold, elsewhere⟩ := (holds.entries id).mp (by rw [found]; rfl)
    have popped : Client.step app s.streams (.recv (.streamClose id errorCode)) =
        (s.streams.erase id, [.close id errorCode]) := by
      simp only [Client.step, onStreamClose, found]
    have told : (feed app (.recv (.streamClose id errorCode))
        { s with reported := s.reported ++ [(id, errorCode)] }).notified =
          s.notified ++ [(id, errorCode)] := by
      simp [feed, popped, Output.closed]
    constructor
    · exact holds.opened
    · rw [told]
      simpa using holds.told.concat untold
    · exact closed
    · intro k
      rw [told]
      by_cases same : id = k
      · subst same
        simp [feed, popped]
      · simp only [feed, popped, find_erase, if_neg same, List.map_append, List.map_cons,
          List.map_nil, List.mem_append, List.mem_singleton, Ne.symm same, or_false]
        exact holds.entries k
    · exact known
    · intro c member
      rw [told] at member
      rcases List.mem_append.mp member with old | new
      · exact List.mem_append_left _ (holds.passed c old)
      · exact List.mem_append_right _ new
    · intro k same
      rw [told]
      have different : k ≠ id := by
        rintro rfl
        exact elsewhere same
      obtain ⟨used, unheard⟩ := holds.waits k same
      exact ⟨used, by simpa [different] using unheard⟩

theorem Accounted.register {id : Int} (holds : Accounted (some id) s) (request : RequestImpl) :
    Accounted none (s.feed app (.submit id request)) := by
  obtain ⟨used, untold⟩ := holds.waits id rfl
  have quiet : (s.feed app (.submit id request)).notified = s.notified := by
    simp [feed, Client.step]
  constructor
  · exact holds.opened
  · rw [quiet]
    exact holds.told
  · exact holds.closed
  · intro k
    rw [quiet]
    by_cases same : id = k
    · subst same
      simp only [feed, Client.step, find_emplace, ↓reduceIte]
      cases findStream s.streams id <;> simp [used, untold]
    · simp only [feed, Client.step, find_emplace, if_neg same]
      rw [holds.entries k]
      simp [same]
  · exact holds.known
  · rw [quiet]
    exact holds.passed
  · simp

theorem callback_accounted {c : Callback} (holds : Accounted pending s)
    (made : callback app s c = some t) : Accounted pending t := by
  cases c with
  | recv e =>
    obtain ⟨mid, announced, rfl⟩ := Option.map_eq_some_iff.mp made
    unfold announce at announced
    split at announced
    · obtain ⟨fresh, rfl⟩ := openId_some announced
      exact holds.create fresh .empty (fun _ => rfl)
    · obtain ⟨live, rfl⟩ := closeId_some announced
      exact holds.close live
    · rename_i opens closes
      obtain rfl := Option.some.inj announced
      exact holds.keep opens closes
  | submit id request =>
    simp only [callback] at made
    split at made
    · obtain rfl := Option.some.inj made
      exact holds
    · cases id with
      | none =>
        obtain rfl := Option.some.inj made
        exact holds
      | some id =>
        obtain ⟨mid, opened, rfl⟩ := Option.map_eq_some_iff.mp made
        obtain ⟨fresh, rfl⟩ := openId_some opened
        exact holds.create fresh request (fun _ => rfl)

theorem callbacks_accounted (script : List Callback) (holds : Accounted pending s)
    (made : script.foldlM (callback app) s = some t) : Accounted pending t :=
  Trace.foldlM_preserves (Accounted pending) script (fun _ => callback_accounted) holds made

theorem doWrite_accounted {script : List Callback} {result : FlushEnd} (holds : Accounted pending s)
    (made : s.doWrite app script result = some t) : Accounted pending t := by
  unfold doWrite at made
  split at made
  · obtain rfl := Option.some.inj made
    exact holds
  · split at made
    · obtain rfl := Option.some.inj made
      exact holds
    · obtain ⟨mid, flushed, rfl⟩ := Option.map_eq_some_iff.mp made
      have after := callbacks_accounted script holds flushed
      cases result with
      | failed => exact after.flags mid.writing true
      | nothing drained =>
        cases drained with
        | true => exact after.flags mid.writing true
        | false => exact after
      | wrote => exact after.flags true mid.stopped

theorem submit_accounted {id : Option Int} {request : RequestImpl} {script : List Callback}
    {result : FlushEnd} (holds : Accounted none s)
    (made : s.submit app id request script result = some t) : Accounted none t := by
  unfold submit at made
  split at made
  · obtain rfl := Option.some.inj made
    exact holds
  · cases id with
    | none =>
      obtain rfl := Option.some.inj made
      exact holds
    | some id =>
      obtain ⟨flushed, ended, rfl⟩ := Option.map_eq_some_iff.mp made
      obtain ⟨opened, taken, written⟩ := Option.bind_eq_some_iff.mp ended
      obtain ⟨fresh, rfl⟩ := openId_some taken
      exact (doWrite_accounted (holds.openOnly fresh) written).register request

theorem step_accounted {a : Action} (holds : Accounted none s) (made : s.step app a = some t) :
    Accounted none t := by
  cases a with
  | submit id request script result => exact submit_accounted holds made
  | signalWrite script result => exact doWrite_accounted holds made
  | readDone events script result drained =>
    obtain ⟨flushed, ended, rfl⟩ := Option.map_eq_some_iff.mp made
    obtain ⟨mid, received, written⟩ := Option.bind_eq_some_iff.mp ended
    have after := doWrite_accounted (callbacks_accounted events holds received) written
    split
    · exact after.flags flushed.writing true
    · exact after
  | recvFailure events =>
    obtain ⟨mid, received, rfl⟩ := Option.map_eq_some_iff.mp made
    exact (callbacks_accounted events holds received).flags mid.writing true
  | writeDone script result => exact doWrite_accounted (holds.flags false s.stopped) made
  | readError | writeError | stop =>
    obtain rfl := Option.some.inj made
    exact holds.flags s.writing true

end Step

theorem run_accounted {app : App} {actions : List Action} {last : Session}
    (ran : run app actions = some last) : Accounted none last :=
  Trace.foldlM_preserves (Accounted none) actions (fun _ => step_accounted) accounted_new ran

theorem mem_destroy (s : Session) (c : Int × UInt32) :
    c ∈ s.destroy ↔ (findStream s.streams c.1).isSome = true ∧ c.2 = internalError := by
  rw [destroy, List.mem_map, Option.isSome_iff_exists]
  constructor
  · rintro ⟨⟨id, strm⟩, member, rfl⟩
    exact ⟨⟨strm, Std.ExtTreeMap.mem_toList_iff_getElem?_eq_some.mp member⟩, rfl⟩
  · rintro ⟨⟨strm, found⟩, code⟩
    exact ⟨(c.1, strm), Std.ExtTreeMap.mem_toList_iff_getElem?_eq_some.mpr found, by rw [← code]⟩

theorem destroy_once (s : Session) : (s.destroy.map Prod.fst).Nodup := by
  rw [destroy, List.map_map]
  apply List.pairwise_map.mpr
  apply s.streams.distinct_keys_toList.imp
  intro a b different same
  exact different (by simpa using same)

/-- Over the life of a session, its destruction included, `on_close` is called once for
    every stream nghttp2 has opened and for no other. A call before the end passes on what
    nghttp2 reported. A report that was not passed on, which a `submit` lost that flushed
    the close of its own stream, is made up for by an INTERNAL_ERROR at the end. -/
theorem closes_once (app : App) (actions : List Action) (last : Session)
    (ran : run app actions = some last) :
    last.used.Nodup ∧ ((last.notified ++ last.destroy).map Prod.fst).Perm last.used ∧
      (∀ c ∈ last.notified, c ∈ last.reported) ∧
      ∀ c ∈ last.reported, c ∈ last.notified ∨ (c.1, internalError) ∈ last.destroy := by
  have holds := run_accounted ran
  refine ⟨holds.opened, ?_, holds.passed, fun c member => ?_⟩
  · have apart : ((last.notified ++ last.destroy).map Prod.fst).Nodup := by
      rw [List.map_append]
      refine holds.told.append (destroy_once last) ?_
      intro id told left
      obtain ⟨c, inside, rfl⟩ := List.mem_map.mp left
      exact ((holds.entries c.1).mp ((mem_destroy last c).mp inside).1).2.1 told
    rw [List.perm_ext_iff_of_nodup apart holds.opened]
    intro id
    rw [List.map_append, List.mem_append]
    constructor
    · rintro (told | left)
      · exact holds.told_used told
      · obtain ⟨c, inside, rfl⟩ := List.mem_map.mp left
        exact ((holds.entries c.1).mp ((mem_destroy last c).mp inside).1).1
    · intro used
      by_cases told : id ∈ last.notified.map Prod.fst
      · exact Or.inl told
      · have entry := (holds.entries id).mpr ⟨used, told, by simp⟩
        have left := (mem_destroy last (id, internalError)).mpr ⟨entry, rfl⟩
        exact Or.inr (List.mem_map.mpr ⟨_, left, rfl⟩)
  · by_cases told : c.1 ∈ last.notified.map Prod.fst
    · obtain ⟨d, inside, same⟩ := List.mem_map.mp told
      -- nghttp2 reports a close once, so this is the one
      have one := List.inj_on_of_nodup_map holds.closed (holds.passed d inside) member same
      exact Or.inl (one ▸ inside)
    · have used := holds.known c.1 (List.mem_map_of_mem member)
      exact Or.inr ((mem_destroy last _).mpr ⟨(holds.entries c.1).mpr ⟨used, told, by simp⟩, rfl⟩)

theorem closes_once_lost : ∃ last, run listener lostRun = some last ∧ last.notified = [] ∧
    last.reported = [(1, internalError)] ∧ (1, internalError) ∈ last.destroy := by
  have ran : (run listener lostRun).any (fun last => last.notified = [] ∧
      last.reported = [(1, internalError)]) = true := by decide
  obtain ⟨last, reached, facts⟩ := (Option.any_eq_true _ _).mp ran
  simp only [decide_eq_true_eq] at facts
  obtain ⟨silent, reported⟩ := facts
  have made := (closes_once listener lostRun last reached).2.2.2 (1, internalError) (by simp [reported])
  rw [silent] at made
  exact ⟨last, reached, silent, reported, made.resolve_left (by simp)⟩

end Nghttp2Asio.Client.Session
