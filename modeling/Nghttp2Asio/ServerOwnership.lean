import Nghttp2Asio.ServerSupervision

/-!
Who keeps a server connection alive. A posted `initiate_write` owns the handler but not the
connection that its `writefun_` refers to; the connection lives as long as one of its
operations or its deadline is to be handled.
-/
namespace Nghttp2Asio.Server.Service
open EventLoop

/-- An `initiate_write` that is run next finds its connection. -/
def Owned (s : Service) : Prop :=
  ∀ k io, s.io.take k = some (.task .initiateWrite, io) → 0 < { s with io := io }.owners

def Calm (s : Service) : Prop := s.stopped = true → s.posted = 0

section Owners
variable {α : Type} {app : App α} {s t : Service} {k : Nat} {io : Loop Clock Operation Task}

theorem owners_take {h : Ready Clock Operation Task} (taken : s.io.take k = some (h, io)) :
    s.owners = { s with io := io }.owners + if h.isTask .initiateWrite then 0 else 1 := by
  have shakes := Loop.inflight_take taken .handshake
  have reads := Loop.inflight_take taken .read
  have writes := Loop.inflight_take taken .write
  have deadlines := Loop.outstanding_take taken .deadline
  simp only [owners]
  rcases h with ⟨_ | _ | _, failed⟩ | ⟨_, aborted⟩ | _
  all_goals
    simp only [Ready.isDone, Ready.isTimer, Ready.isTask, decide_true, reduceCtorEq, decide_false,
      Bool.false_eq_true, ↓reduceIte] at shakes reads writes deadlines ⊢
    omega

theorem Sound.owned (sound : Sound s) (calm : s.Calm) : s.Owned := by
  intro k io taken
  have owners := owners_take taken
  have tasks := Loop.posted_take taken .initiateWrite
  simp only [Ready.isTask, decide_true, ↓reduceIte, Nat.add_zero] at owners tasks
  have running : s.stopped = false := by
    by_contra stopped
    have none := calm (Bool.eq_true_of_not_eq_false stopped)
    simp only [posted] at none
    omega
  have one := sound.supervised running
  simp only [Service.owners] at owners ⊢
  omega

def ends : Answers := ⟨false, false, [], true, false, ⟨[⟨[], .failure, false⟩], false⟩, false⟩

theorem stop_of_stopped (stopped : s.stopped = true) : s.stop = s := if_pos stopped

theorem onWrite_ends (outside : s.insideCallback = false) :
    s.onWrite app ends.flush = some (true, s.putOut { s.out with len := 0 }.refill) := by
  simp [onWrite, ends, SendLoop.loop, SendLoop.Outbuf.take, enterCallback, leaveCallback, putOut,
    outside]

theorem onRead_ends (outside : s.insideCallback = false) :
    s.onRead app ends = some (true, s.setSendable false) := by
  simp [onRead, ends, enterCallback, leaveCallback, setSendable, outside]

theorem handle_ends {h : Ready Clock Operation Task} (outside : s.insideCallback = false)
    (stopped : s.stopped = true) (owner : h.isTask .initiateWrite = false) :
    ∃ t, s.handle app ends h = some t ∧ t.io = s.io ∧ t.stopped = true := by
  rcases h with ⟨_ | _ | _, failed⟩ | ⟨_, aborted⟩ | _
  · refine ⟨s, ?_, rfl, stopped⟩
    simp [handle, handshakeDone, ends, stop_of_stopped stopped]
  · have told : ({ s with received := true } : Service).stopped = true := stopped
    have read : onRead app ends { s with received := true } = _ := onRead_ends outside
    cases failed with
    | true => exact ⟨_, congrArg some (stop_of_stopped told), rfl, stopped⟩
    | false =>
      refine ⟨{ s with received := true }.setSendable false, ?_, rfl, stopped⟩
      simp only [handle, readDone, read]
      exact congrArg some (stop_of_stopped stopped)
  · cases failed with
    | true => exact ⟨s, congrArg some (stop_of_stopped stopped), rfl, stopped⟩
    | false =>
      have written : onWrite app ends.flush { s with writing := false } = _ := onWrite_ends outside
      refine ⟨{ s with writing := false }.putOut { s.out with len := 0 }.refill, ?_, rfl, stopped⟩
      simp only [handle, writeDone, doWrite, written]
      exact congrArg some (stop_of_stopped stopped)
  · exact ⟨s, congrArg some (if_pos stopped), rfl, stopped⟩
  · simp [Ready.isTask] at owner

theorem Sound.release {h : Ready Clock Operation Task} (sound : Sound s) (stopped : s.stopped = true)
    (taken : s.io.take k = some (h, io)) (owner : h.isTask .initiateWrite = false) :
    ∃ t, s.step app (.run k ends) = some t ∧ Sound t ∧ t.stopped = true ∧ t.posted = s.posted ∧
      t.io.pending = s.io.pending ∧ t.owners < s.owners := by
  obtain ⟨t, made, same, ended⟩ : ∃ t, Service.handle app ends { s with io := io } h = some t ∧
      t.io = io ∧ t.stopped = true := handle_ends sound.outside stopped owner
  have ran : s.step app (.run k ends) = some t := by
    simp only [Service.step, taken, Option.bind_some]
    exact made
  have tasks := Loop.posted_take taken .initiateWrite
  have owners := owners_take taken
  have pending : io.pending = s.io.pending := by rw [(Loop.take_inv taken).1]
  simp only [owner, Bool.false_eq_true, ↓reduceIte, Nat.add_zero] at tasks owners
  refine ⟨t, ran, sound.step ran, ended, ?_, ?_, ?_⟩
  · simp [posted, same, tasks]
  · rw [same, pending]
  · simp only [Service.owners] at owners ⊢
    rw [same]
    omega

theorem Sound.unowned (sound : Sound s) (stopped : s.stopped = true) (idle : s.io.pending = [])
    (tasks : ∀ h ∈ s.io.queue, h.isTask .initiateWrite = true) : s.owners = 0 := by
  have disarmed := sound.disarmed stopped
  have done : ∀ op, s.io.inflight op = 0 := by
    intro op
    simp only [Loop.inflight, idle, List.count_nil, Nat.zero_add, List.countP_eq_zero]
    intro h member done
    have task := tasks h member
    cases h <;> simp [Ready.isDone, Ready.isTask] at done task
  have timers : s.io.outstanding .deadline = 0 := by
    simp only [Loop.outstanding, disarmed, Nat.zero_add, List.countP_eq_zero]
    intro h member waits
    have task := tasks h member
    cases h <;> simp [Ready.isTimer, Ready.isTask] at waits task
  simp [owners, done, timers]

theorem Sound.abort {op : Operation} {rest : List Operation} (sound : Sound s)
    (stopped : s.stopped = true) (pending : s.io.pending = op :: rest) :
    ∃ t, s.step app (.complete op true) = some t ∧ Sound t ∧ t.stopped = true ∧
      t.posted = s.posted ∧ t.io.pending = rest ∧ t.owners = s.owners := by
  obtain ⟨io, completed⟩ : ∃ io, s.io.complete op true = some io :=
    ⟨_, if_pos (by simp [pending])⟩
  have made : s.step app (.complete op true) = some { s with io := io } := by
    simp [Service.step, completed]
  refine ⟨_, made, sound.step made, stopped, Loop.posted_complete completed .initiateWrite, ?_, ?_⟩
  · simp only [Loop.complete, pending, List.mem_cons_self, ↓reduceIte, List.erase_cons_head,
      Option.some.injEq] at completed
    rw [← completed]
  · simp only [owners, Loop.inflight_complete completed, Loop.outstanding_complete completed]

theorem unowned_lost (unowned : s.owners = 0) (posted : 0 < s.posted) : ¬ s.Owned := by
  intro owned
  obtain ⟨h, ready, task⟩ := List.countP_pos_iff.mp posted
  obtain ⟨k, io, taken⟩ := Loop.take_of_mem ready
  have owners := owners_take taken
  cases h with
  | done op failed => simp [Ready.isTask] at task
  | timer t aborted => simp [Ready.isTask] at task
  | task t =>
    have alive := owned k io taken
    omega

/-- On a stopped connection every handler can run before the posted write does. -/
theorem Sound.drains (app : App α) (sound : Sound s) (stopped : s.stopped = true)
    (posted : 0 < s.posted) : ∃ more t, s.run app more = some t ∧ ¬ t.Owned := by
  -- every operation that fails and every handler that runs leaves less to do
  induction size : s.owners + s.io.pending.length using Nat.strong_induction_on generalizing s with
  | _ n ih =>
    subst size
    have after {t : Service} {act : Action} (made : s.step app act = some t) (sound : Sound t)
        (stopped : t.stopped = true) (same : t.posted = s.posted)
        (less : t.owners + t.io.pending.length < s.owners + s.io.pending.length) :
        ∃ more t, s.run app more = some t ∧ ¬ t.Owned := by
      obtain ⟨more, u, ran, lost⟩ := ih _ less sound stopped (same ▸ posted) rfl
      refine ⟨act :: more, u, ?_, lost⟩
      rw [Service.run, List.foldlM_cons, made]
      exact ran
    cases pending : s.io.pending with
    | cons op rest =>
      obtain ⟨t, made, next, ended, same, shorter, equal⟩ := sound.abort stopped pending
      apply after made next ended same
      rw [shorter, equal, pending, List.length_cons]
      omega
    | nil =>
      by_cases tasks : ∀ h ∈ s.io.queue, h.isTask .initiateWrite = true
      · exact ⟨[], s, rfl, unowned_lost (sound.unowned stopped pending tasks) posted⟩
      · push Not at tasks
        obtain ⟨h, ready, owner⟩ := tasks
        obtain ⟨k, io, taken⟩ := Loop.take_of_mem ready
        obtain ⟨t, made, next, ended, same, still, less⟩ :=
          sound.release stopped taken (Bool.eq_false_of_not_eq_true owner)
        apply after made next ended same
        rw [still]
        omega

end Owners

/-- In a run in which no `initiate_write` is posted while the connection is stopped, each
    that runs finds its connection; and from any other state the handlers can run in an
    order in which one does not. -/
theorem posted_writes_owned {α : Type} (app : App α) (tls : Bool) (now : Int)
    (tlsHandshakeTimeout readTimeout : Option Int) (a : Answers) :
    (∀ actions : List Action,
      (∀ before after s, actions = before ++ after →
        (accepted tls now tlsHandshakeTimeout readTimeout a).run app before = some s → s.Calm) →
      ∀ before after s, actions = before ++ after →
        (accepted tls now tlsHandshakeTimeout readTimeout a).run app before = some s → s.Owned) ∧
      ∀ (actions : List Action) (s : Service),
        (accepted tls now tlsHandshakeTimeout readTimeout a).run app actions = some s →
          ¬ s.Calm → ∃ more t, s.run app more = some t ∧ ¬ t.Owned := by
  refine ⟨?_, ?_⟩
  · intro actions calm before after s split ran
    exact (run_sound ran).owned (calm before after s split ran)
  · intro actions s ran restless
    simp only [Calm, Classical.not_imp] at restless
    exact (run_sound ran).drains app restless.1 (Nat.pos_of_ne_zero restless.2)

theorem posted_writes_owned_resumed : ∃ s,
    (accepted false 0 (some 60) (some 60) quiet).run emptyApp resumedRun = some s ∧
      s.posted = 1 ∧ s.Owned := by
  have running : resumedRun.inits.all (fun before =>
      ((accepted false 0 (some 60) (some 60) quiet).run emptyApp before).all
        (fun s => !s.stopped)) = true := by
    decide +kernel
  have calm : ∀ before after s, resumedRun = before ++ after →
      (accepted false 0 (some 60) (some 60) quiet).run emptyApp before = some s → s.Calm := by
    intro before after s split ran stopped
    have among : before ∈ resumedRun.inits := (List.mem_inits _ _).mpr ⟨after, split.symm⟩
    have still := List.all_eq_true.mp running before among
    simp [ran, stopped] at still
  have reached : ((accepted false 0 (some 60) (some 60) quiet).run emptyApp resumedRun).any
      (fun s => s.posted = 1) = true := by
    decide +kernel
  obtain ⟨s, ran, posted⟩ := (Option.any_eq_true _ _).mp reached
  exact ⟨s, ran, by simpa using posted,
    (posted_writes_owned emptyApp false 0 (some 60) (some 60) quiet).1 resumedRun calm resumedRun []
      s (by simp) ran⟩

/-- A connection that expires; its read is aborted, and then the application resumes a
    response. -/
def lateRun : List Action :=
  servedRun ++ [.elapse 60, .fire, .run 0 quiet, .complete .read true,
    .call (.respond 1 .resume true true), .run 0 quiet]

theorem late_write_unowned : ∃ s,
    (accepted false 0 (some 60) (some 60) quiet).run emptyApp lateRun = some s ∧ ¬ s.Owned := by
  have lost : ((accepted false 0 (some 60) (some 60) quiet).run emptyApp lateRun).any (fun s =>
      (s.io.take 0).any (fun taken =>
        taken.1 = .task .initiateWrite && { s with io := taken.2 }.owners = 0)) = true := by
    decide +kernel
  obtain ⟨s, ran, lost⟩ := (Option.any_eq_true _ _).mp lost
  obtain ⟨⟨h, io⟩, taken, gone⟩ := (Option.any_eq_true _ _).mp lost
  simp only [Bool.and_eq_true, decide_eq_true_eq] at gone
  obtain ⟨rfl, gone⟩ := gone
  refine ⟨s, ran, fun owned => ?_⟩
  have alive := owned 0 io taken
  omega

end Nghttp2Asio.Server.Service
