import Nghttp2Asio.ClientSupervision
import Nghttp2Asio.ServerSupervision

/-!
Both ends together: no output is left without a write that takes it, and no connection is
left without the handler of its deadline.
-/
namespace Nghttp2Asio
open EventLoop Util

/-- Between any two handlers of a connection that runs, what nghttp2 has to send is taken by
    a write in flight or, on the server, by a posted `initiate_write`; and no callback is
    entered twice or left twice. -/
theorem output_wakes :
    (∀ (env : Client.Env) (tls : Bool) (now : Int) (connectTimeout : Option Int)
        (actions : List Client.Lifecycle.Action) (s : Client.Lifecycle),
      (Client.Lifecycle.started tls now connectTimeout).run env actions = some s →
        (s.session = true → s.stopped = false → s.out.sendable = true →
          s.writing = true ∧ 0 < s.io.inflight .write) ∧
          ∀ n ∈ s.log, n.2 ≠ .assertion) ∧
      ∀ (α : Type) (app : Server.App α) (tls : Bool) (now : Int)
          (tlsHandshakeTimeout readTimeout : Option Int) (a : Server.Answers)
          (actions : List Server.Service.Action) (s : Server.Service),
        (Server.Service.accepted tls now tlsHandshakeTimeout readTimeout a).run app actions =
            some s →
          (s.received = true → s.stopped = false → s.out.sendable = true →
            s.writing = true ∧ 0 < s.io.inflight .write ∨ 0 < s.posted) ∧
            ∀ n ∈ s.log, n.2 ≠ .assertion := by
  refine ⟨?_, ?_⟩
  · intro env tls now connectTimeout actions s ran
    have sound := Client.Lifecycle.run_sound ran
    refine ⟨?_, ?_⟩
    · intro _ running sendable
      have writing := sound.settled running sendable
      exact ⟨writing, sound.flying running writing⟩
    · rintro ⟨b, n⟩ member rfl
      have proper := sound.log _ member
      cases b <;> exact proper
  · intro α app tls now tlsHandshakeTimeout readTimeout a actions s ran
    have sound := Server.Service.run_sound ran
    refine ⟨?_, ?_⟩
    · intro received running sendable
      rcases sound.settled running received sendable with writing | signaled
      · exact .inl ⟨writing, sound.flying running writing⟩
      · right
        rw [sound.signaled, signaled]
        decide
    · rintro ⟨b, n⟩ member rfl
      have proper := sound.log _ member
      cases b <;> exact proper

def requestedRun : List Client.Lifecycle.Action :=
  Client.Lifecycle.idleRun ++
    [.call (.submit (lit "GET") (lit "http://a/") Multimap.empty 1 true) Client.Lifecycle.flushByte]

theorem output_wakes_requested :
    (∃ s, (Client.Lifecycle.started false 0 (some 10)).run Client.Lifecycle.idleEnv requestedRun =
        some s ∧ s.out.sendable = true ∧ s.writing = true ∧ 0 < s.io.inflight .write) ∧
      ∃ s, (Server.Service.accepted false 0 (some 60) (some 60) Server.Service.quiet).run
          Server.Service.emptyApp Server.Service.resumedRun = some s ∧
        s.out.sendable = true ∧
          (s.writing = true ∧ 0 < s.io.inflight .write ∨ 0 < s.posted) := by
  refine ⟨?_, ?_⟩
  · have reached : ((Client.Lifecycle.started false 0 (some 10)).run Client.Lifecycle.idleEnv
        requestedRun).any (fun s => s.session && !s.stopped && s.out.sendable) = true := by
      decide +kernel
    obtain ⟨s, ran, busy⟩ := (Option.any_eq_true _ _).mp reached
    simp only [Bool.and_eq_true, Bool.not_eq_true'] at busy
    obtain ⟨⟨opened, running⟩, sendable⟩ := busy
    exact ⟨s, ran, sendable, (output_wakes.1 _ _ _ _ _ s ran).1 opened running sendable⟩
  · have reached : ((Server.Service.accepted false 0 (some 60) (some 60) Server.Service.quiet).run
        Server.Service.emptyApp Server.Service.resumedRun).any
          (fun s => s.received && !s.stopped && s.out.sendable) = true := by
      decide +kernel
    obtain ⟨s, ran, busy⟩ := (Option.any_eq_true _ _).mp reached
    simp only [Bool.and_eq_true, Bool.not_eq_true'] at busy
    obtain ⟨⟨received, running⟩, sendable⟩ := busy
    exact ⟨s, ran, sendable, (output_wakes.2 _ _ _ _ _ _ _ _ s ran).1 received running sendable⟩

/-- Between any two handlers of a connection that runs, exactly one deadline handler waits
    or is ready; after `stop` it runs without arming the timer again, and it is the last. -/
theorem deadline_supervised :
    (∀ (env : Client.Env) (tls : Bool) (now : Int) (connectTimeout : Option Int)
        (actions : List Client.Lifecycle.Action) (s : Client.Lifecycle),
      (Client.Lifecycle.started tls now connectTimeout).run env actions = some s →
        (s.stopped = false → s.io.outstanding .deadline = 1) ∧
          s.io.outstanding .deadline ≤ 1 ∧
          (∀ n ∈ s.log, n ≠ (true, .waits .deadline)) ∧
          (s.stopped = true → ∀ k a aborted io t,
            s.io.take k = some (.timer .deadline aborted, io) → s.step env (.run k a) = some t →
              t = { s with io := io } ∧ t.io.outstanding .deadline = 0)) ∧
      ∀ (α : Type) (app : Server.App α) (tls : Bool) (now : Int)
          (tlsHandshakeTimeout readTimeout : Option Int) (a : Server.Answers)
          (actions : List Server.Service.Action) (s : Server.Service),
        (Server.Service.accepted tls now tlsHandshakeTimeout readTimeout a).run app actions =
            some s →
          (s.stopped = false → s.io.outstanding .deadline = 1) ∧
            s.io.outstanding .deadline ≤ 1 ∧
            (∀ n ∈ s.log, n ≠ (true, .waits)) ∧
            (s.stopped = true → ∀ k a aborted io t,
              s.io.take k = some (.timer .deadline aborted, io) → s.step app (.run k a) = some t →
                t = { s with io := io } ∧ t.io.outstanding .deadline = 0) := by
  refine ⟨?_, ?_⟩
  · intro env tls now connectTimeout actions s ran
    have sound := Client.Lifecycle.run_sound ran
    refine ⟨sound.deadline, sound.single, ?_, ?_⟩
    · rintro n member rfl
      exact sound.log _ member
    · intro stopped k a aborted io t
      exact sound.lastDeadline stopped
  · intro α app tls now tlsHandshakeTimeout readTimeout a actions s ran
    have sound := Server.Service.run_sound ran
    refine ⟨sound.supervised, sound.single, ?_, ?_⟩
    · rintro n member rfl
      exact sound.log _ member
    · intro stopped k a aborted io t
      exact sound.lastDeadline stopped

theorem deadline_supervised_open :
    (∃ s, (Client.Lifecycle.started false 0 (some 10)).run Client.Lifecycle.idleEnv
        Client.Lifecycle.idleRun = some s ∧ s.io.outstanding .deadline = 1) ∧
      ∃ s, (Server.Service.accepted false 0 (some 60) (some 60) Server.Service.quiet).run
          Server.Service.emptyApp Server.Service.servedRun = some s ∧
        s.io.outstanding .deadline = 1 := by
  refine ⟨?_, ?_⟩
  · have reached : ((Client.Lifecycle.started false 0 (some 10)).run Client.Lifecycle.idleEnv
        Client.Lifecycle.idleRun).any (fun s => !s.stopped) = true := by
      decide +kernel
    obtain ⟨s, ran, running⟩ := (Option.any_eq_true _ _).mp reached
    exact ⟨s, ran, (deadline_supervised.1 _ _ _ _ _ s ran).1 (by simpa using running)⟩
  · have reached : ((Server.Service.accepted false 0 (some 60) (some 60) Server.Service.quiet).run
        Server.Service.emptyApp Server.Service.servedRun).any (fun s => !s.stopped) = true := by
      decide +kernel
    obtain ⟨s, ran, running⟩ := (Option.any_eq_true _ _).mp reached
    exact ⟨s, ran, (deadline_supervised.2 _ _ _ _ _ _ _ _ s ran).1 (by simpa using running)⟩

end Nghttp2Asio
