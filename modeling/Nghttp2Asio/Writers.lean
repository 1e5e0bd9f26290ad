import Nghttp2Asio.Library.SendBuffer
import Nghttp2Asio.Library.Trace
import Nghttp2Asio.Util

/-!
The two writers: `connection::do_write` with `http2_handler::on_write` on the server
(asio_server_connection.h, asio_server_http2_handler.h) and `session_impl::do_write` on
the client (asio_client_session_impl.cc). Handlers run one after the other; each action
is one of them. `source` are the answers `nghttp2_session_mem_send` has still to give, in
the order in which it is asked. A run that copies past the end of the buffer has no result.
-/
namespace Nghttp2Asio
open SendBuffer

def bufferSize : Nat := 65536

abbrev Script := List (Send UInt8 bufferSize)

abbrev HeldChunk := Option (Chunk UInt8 bufferSize)

def oneByte : Chunk UInt8 bufferSize := ⟨[0], by simp, by decide⟩

/-- What an observer of the socket sees of a writer: the bytes given to writes so far, the
    writes in flight, and what was held back and in flight at each graceful stop. -/
structure Wire where
  handed : Bytes
  inflight : List Bytes
  graceful : List (Bytes × List Bytes)

namespace Wire

def new : Wire := ⟨[], [], []⟩

def send (w : Wire) (data : Bytes) : Wire :=
  { w with handed := w.handed ++ data, inflight := w.inflight ++ [data] }

def complete (w : Wire) : Wire := { w with inflight := w.inflight.tail }

def witness (w : Wire) (held : HeldChunk) : Wire :=
  { w with graceful := w.graceful ++ [(heldBytes held, w.inflight)] }

/-- One write at most, out of a buffer nobody touches; every byte that nghttp2 was asked
    for once and in order, unless it failed; no graceful stop with anything left to send. -/
structure Intact (w : Wire) (answers source : Script) (buf : Bytes) (held : HeldChunk)
    (writing : Bool) : Prop where
  single : w.inflight.length ≤ 1
  busy : w.inflight ≠ [] → writing = true
  untouched : ∀ data ∈ w.inflight, buf.take data.length = data
  bytes : ∃ asked, answers = asked ++ source ∧
    (.failure ∉ asked → w.handed ++ heldBytes held = given asked)
  graceful : ∀ left ∈ w.graceful, left = ([], [])

theorem intact_new (answers : Script) (buf : Bytes) :
    Wire.new.Intact answers answers buf none false where
  single := Nat.zero_le _
  busy := by simp [new]
  untouched := by simp [new]
  bytes := ⟨[], rfl, fun _ => rfl⟩
  graceful := by simp [new]

section Flush
variable {w : Wire} {answers source asked : Script} {buf : Bytes} {held : HeldChunk}
  {r : Filled UInt8 bufferSize}

theorem Intact.free (intact : w.Intact answers source buf held false) : w.inflight = [] := by
  by_contra some_
  simpa using intact.busy some_

theorem Intact.unsent (intact : w.Intact answers source buf held false)
    (sound : Sound (heldBytes held) source asked r) (rest : r.failed = true ∨ r.len = 0) :
    w.Intact answers r.rest r.buf r.held false where
  single := intact.single
  busy := intact.busy
  untouched := by
    intro data member
    rw [intact.free] at member
    contradiction
  bytes := by
    obtain ⟨earlier, split, kept⟩ := intact.bytes
    refine ⟨earlier ++ asked, by rw [split, sound.split, List.append_assoc], fun fine => ?_⟩
    simp only [List.mem_append, not_or] at fine
    rcases rest with failed | empty
    · exact absurd (sound.failed.mp failed) fine.2
    · obtain ⟨none_, start, nothing⟩ := sound.idle empty
      have before := kept fine.1
      rw [start] at before
      rw [given_append, ← before, none_, nothing]
      simp [heldBytes]
  graceful := intact.graceful

theorem Intact.sent (intact : w.Intact answers source buf held false)
    (sound : Sound (heldBytes held) source asked r) :
    (w.send (r.buf.take r.len)).Intact answers r.rest r.buf r.held true where
  single := by simp [send, intact.free]
  busy := by
    intro _
    rfl
  untouched := by
    intro data member
    have size := sound.size
    have level := sound.level
    simp only [send, intact.free, List.nil_append, List.mem_singleton] at member
    rw [member, List.length_take, Nat.min_eq_left (by omega)]
  bytes := by
    obtain ⟨earlier, split, kept⟩ := intact.bytes
    refine ⟨earlier ++ asked, by rw [split, sound.split, List.append_assoc], fun fine => ?_⟩
    simp only [List.mem_append, not_or] at fine
    rw [send, List.append_assoc, sound.bytes, ← List.append_assoc, kept fine.1, given_append]
  graceful := intact.graceful

theorem Intact.completed {writing : Bool} (intact : w.Intact answers source buf held writing)
    (later : Bool) : w.complete.Intact answers source buf held later := by
  have nothing : w.inflight.tail = [] := by
    have single := intact.single
    rw [← List.length_eq_zero_iff, List.length_tail]
    omega
  constructor
  · simp [complete, nothing]
  · simp [complete, nothing]
  · simp [complete, nothing]
  · exact intact.bytes
  · exact intact.graceful

theorem Intact.stoppedGracefully (intact : w.Intact answers source buf none false) :
    (w.witness none).Intact answers source buf none false := by
  constructor
  · exact intact.single
  · exact intact.busy
  · exact intact.untouched
  · exact intact.bytes
  · intro left member
    simp only [witness, intact.free, List.mem_append, List.mem_singleton] at member
    rcases member with old | new
    · exact intact.graceful left old
    · exact new

end Flush

end Wire

/-- What a flush asks nghttp2 for. -/
def Drained (before after : Script) (held : HeldChunk) : Prop :=
  ∃ asked, before = asked ++ after ∧ Exhausted asked after held

namespace Server

structure Connection where
  source : Script
  outbuf : Bytes
  buf : HeldChunk
  writing : Bool
  stopped : Bool
  wire : Wire

namespace Connection

def new (memory : Vector UInt8 bufferSize) (answers : Script) : Connection :=
  ⟨answers, memory.toList, none, false, false, .new⟩

def stop (c : Connection) : Connection := { c with stopped := true }

def stopGracefully (c : Connection) : Connection :=
  if c.stopped then c else { c with stopped := true, wire := c.wire.witness c.buf }

def doWrite (drained : Bool) (c : Connection) : Option Connection :=
  if c.writing then some c
  else
    match refill c.outbuf 0 c.buf c.source with
    | none => none
    | some r =>
      let c := { c with source := r.rest, outbuf := r.buf, buf := r.held }
      if r.failed then some c.stop
      else if r.len = 0 then
        if drained then some c.stopGracefully else some c
      else some { c with writing := true, wire := c.wire.send (r.buf.take r.len) }

inductive Action where
  | initiateWrite (drained : Bool)
  | readError
  | recvFailure
  | readDone (drained stillDrained : Bool)
  | writeError
  | writeDone (drained : Bool)
  | deadline

/-- A completion handler only runs for a write in flight. A failed write leaves
    `writing_` set. -/
def step (c : Connection) : Action → Option Connection
  | .initiateWrite drained => c.doWrite drained
  | .readError => some c.stop
  | .recvFailure => some c.stop
  | .readDone drained stillDrained =>
    (c.doWrite drained).map
      (fun c => if !c.writing && stillDrained then c.stopGracefully else c)
  | .writeError =>
    if c.wire.inflight = [] then some c else some { c with wire := c.wire.complete }.stop
  | .writeDone drained =>
    if c.wire.inflight = [] then some c
    else { c with wire := c.wire.complete, writing := false }.doWrite drained
  | .deadline => some c.stop

def run (memory : Vector UInt8 bufferSize) (answers : Script) (actions : List Action) :
    Option Connection :=
  actions.foldlM step (new memory answers)

/-- What holds between handlers: a chunk is held back only while a write is running. -/
structure Valid (answers : Script) (c : Connection) : Prop where
  size : c.outbuf.length = bufferSize
  intact : c.wire.Intact answers c.source c.outbuf c.buf c.writing
  held : c.buf ≠ none → c.writing = true

section
variable {answers : Script} {c : Connection}

theorem valid_new (memory : Vector UInt8 bufferSize) (answers : Script) :
    (new memory answers).Valid answers where
  size := memory.length_toList
  intact := Wire.intact_new answers _
  held := by simp [new]

theorem Valid.stop (valid : c.Valid answers) : c.stop.Valid answers :=
  ⟨valid.size, valid.intact, valid.held⟩

theorem Valid.stopGracefully (valid : c.Valid answers) (free : c.writing = false) :
    c.stopGracefully.Valid answers := by
  unfold Connection.stopGracefully
  split
  · exact valid
  · have none_ : c.buf = none := by
      by_contra some_
      have busy := valid.held some_
      rw [free] at busy
      contradiction
    have intact := valid.intact
    rw [none_, free] at intact
    refine ⟨valid.size, ?_, valid.held⟩
    rw [none_, free]
    exact intact.stoppedGracefully

theorem stopGracefully_source (c : Connection) :
    c.stopGracefully.source = c.source ∧ c.stopGracefully.buf = c.buf := by
  unfold Connection.stopGracefully
  split <;> exact ⟨rfl, rfl⟩

theorem doWrite_valid (size : c.outbuf.length = bufferSize)
    (intact : c.wire.Intact answers c.source c.outbuf c.buf c.writing) (drained : Bool) :
    ∃ next, c.doWrite drained = some next ∧ next.Valid answers ∧
      (c.writing = false → Drained c.source next.source next.buf) := by
  unfold doWrite
  cases busy : c.writing with
  | true => exact ⟨c, rfl, ⟨size, intact, fun _ => busy⟩, by simp⟩
  | false =>
    rw [busy] at intact
    obtain ⟨r, asked, filled, sound⟩ := refill_sound c.outbuf c.buf c.source size
    have drains : Drained c.source r.rest r.held := ⟨asked, sound.split, sound.exhausted⟩
    simp only [filled, Bool.false_eq_true, ↓reduceIte]
    cases failed : r.failed with
    | true =>
      have none_ : r.held = none := by
        by_contra some_
        rw [(sound.full some_).2] at failed
        contradiction
      refine ⟨_, rfl, ⟨sound.size, ?_, by simp [Connection.stop, none_]⟩, fun _ => drains⟩
      exact intact.unsent sound (Or.inl failed)
    | false =>
      by_cases empty : r.len = 0
      · have none_ := (sound.idle empty).1
        have valid : Connection.Valid answers ⟨r.rest, r.buf, r.held, false, c.stopped, c.wire⟩ :=
          ⟨sound.size, intact.unsent sound (Or.inr empty), by simp [none_]⟩
        simp only [empty, ↓reduceIte, Bool.false_eq_true]
        cases drained with
        | true =>
          refine ⟨_, rfl, valid.stopGracefully rfl, fun _ => ?_⟩
          rw [(stopGracefully_source _).1, (stopGracefully_source _).2]
          exact drains
        | false => exact ⟨_, rfl, valid, fun _ => drains⟩
      · simp only [empty, ↓reduceIte, Bool.false_eq_true]
        exact ⟨_, rfl, ⟨sound.size, intact.sent sound, fun _ => rfl⟩, fun _ => drains⟩

theorem step_valid (valid : c.Valid answers) (a : Action) :
    ∃ next, c.step a = some next ∧ next.Valid answers := by
  cases a with
  | initiateWrite drained =>
    obtain ⟨next, written, nextValid, _⟩ := doWrite_valid valid.size valid.intact drained
    exact ⟨next, written, nextValid⟩
  | readError => exact ⟨_, rfl, valid.stop⟩
  | recvFailure => exact ⟨_, rfl, valid.stop⟩
  | deadline => exact ⟨_, rfl, valid.stop⟩
  | readDone drained stillDrained =>
    obtain ⟨next, written, nextValid, _⟩ := doWrite_valid valid.size valid.intact drained
    simp only [step, written, Option.map_some]
    split
    · rename_i finished
      simp only [Bool.and_eq_true, Bool.not_eq_true'] at finished
      exact ⟨_, rfl, nextValid.stopGracefully finished.1⟩
    · exact ⟨_, rfl, nextValid⟩
  | writeError =>
    simp only [step]
    split
    · exact ⟨_, rfl, valid⟩
    · rename_i running
      refine ⟨_, rfl, valid.size, valid.intact.completed _, ?_⟩
      intro _
      exact valid.intact.busy running
  | writeDone drained =>
    simp only [step]
    split
    · exact ⟨_, rfl, valid⟩
    · obtain ⟨next, written, nextValid, _⟩ :=
        doWrite_valid (c := { c with wire := c.wire.complete, writing := false }) valid.size
          (valid.intact.completed false) drained
      exact ⟨next, written, nextValid⟩

end

theorem run_valid (memory : Vector UInt8 bufferSize) (answers : Script) (actions : List Action) :
    ∃ c, run memory answers actions = some c ∧ c.Valid answers :=
  Trace.foldlM_invariant (Valid answers) (fun _ a valid => step_valid valid a) actions
    (new memory answers) (valid_new memory answers)

end Connection

end Server

namespace Client

structure SessionWriter where
  source : Script
  wb : Bytes
  wblen : Nat
  dataPending : HeldChunk
  writing : Bool
  stopped : Bool
  wire : Wire

namespace SessionWriter

def new (memory : Vector UInt8 bufferSize) (answers : Script) : SessionWriter :=
  ⟨answers, memory.toList, 0, none, false, false, .new⟩

def stop (s : SessionWriter) : SessionWriter := { s with stopped := true }

def stopGracefully (s : SessionWriter) : SessionWriter :=
  if s.stopped then s else { s with stopped := true, wire := s.wire.witness s.dataPending }

def shouldStop (s : SessionWriter) (drained : Bool) : Bool := !s.writing && drained

def doWrite (drained : Bool) (s : SessionWriter) : Option SessionWriter :=
  if s.stopped then some s
  else if s.writing then some s
  else
    match refill s.wb s.wblen s.dataPending s.source with
    | none => none
    | some r =>
      let s := { s with source := r.rest, wb := r.buf, wblen := r.len, dataPending := r.held }
      if r.failed then some s.stop
      else if r.len = 0 then
        if s.shouldStop drained then some s.stopGracefully else some s
      else some { s with writing := true, wire := s.wire.send (r.buf.take r.len) }

inductive Action where
  | signalWrite (drained : Bool)
  | readError (drained : Bool)
  | recvFailure
  | readDone (drained stillDrained : Bool)
  | writeError
  | writeDone (drained : Bool)
  | stop

def step (s : SessionWriter) : Action → Option SessionWriter
  | .signalWrite drained => s.doWrite drained
  | .readError drained =>
    -- the end of input of a session that has nothing left to do is not reported
    some (if s.shouldStop drained then s.stopGracefully else s.stop)
  | .recvFailure => some s.stop
  | .readDone drained stillDrained =>
    (s.doWrite drained).map
      (fun s => if s.shouldStop stillDrained then s.stopGracefully else s)
  | .writeError =>
    if s.wire.inflight = [] then some s else some { s with wire := s.wire.complete }.stop
  | .writeDone drained =>
    if s.wire.inflight = [] then some s
    else { s with wire := s.wire.complete, wblen := 0, writing := false }.doWrite drained
  | .stop => some s.stop

def run (memory : Vector UInt8 bufferSize) (answers : Script) (actions : List Action) :
    Option SessionWriter :=
  actions.foldlM step (new memory answers)

structure Valid (answers : Script) (s : SessionWriter) : Prop where
  size : s.wb.length = bufferSize
  intact : s.wire.Intact answers s.source s.wb s.dataPending s.writing
  level : s.stopped = false → s.writing = false → s.wblen = 0
  held : s.stopped = false → s.dataPending ≠ none → s.writing = true

section
variable {answers : Script} {s : SessionWriter}

theorem valid_new (memory : Vector UInt8 bufferSize) (answers : Script) :
    (new memory answers).Valid answers where
  size := memory.length_toList
  intact := Wire.intact_new answers _
  level := by
    intro _ _
    rfl
  held := by simp [new]

theorem Valid.stop (valid : s.Valid answers) : s.stop.Valid answers :=
  ⟨valid.size, valid.intact, by simp [SessionWriter.stop], by simp [SessionWriter.stop]⟩

theorem Valid.stopGracefully (valid : s.Valid answers) {drained : Bool}
    (finished : s.shouldStop drained = true) : s.stopGracefully.Valid answers := by
  have free : s.writing = false := by
    simp only [shouldStop, Bool.and_eq_true, Bool.not_eq_true'] at finished
    exact finished.1
  unfold SessionWriter.stopGracefully
  cases stopped : s.stopped with
  | true => simpa using valid
  | false =>
    have none_ : s.dataPending = none := by
      by_contra some_
      have busy := valid.held stopped some_
      rw [free] at busy
      contradiction
    have intact := valid.intact
    rw [none_, free] at intact
    refine ⟨valid.size, ?_, by simp, by simp⟩
    simp only [none_, free]
    exact intact.stoppedGracefully

theorem stopGracefully_source (s : SessionWriter) :
    s.stopGracefully.source = s.source ∧ s.stopGracefully.dataPending = s.dataPending := by
  unfold SessionWriter.stopGracefully
  split <;> exact ⟨rfl, rfl⟩

theorem doWrite_valid (size : s.wb.length = bufferSize)
    (intact : s.wire.Intact answers s.source s.wb s.dataPending s.writing)
    (level : s.stopped = false → s.writing = false → s.wblen = 0) (drained : Bool) :
    ∃ next, s.doWrite drained = some next ∧ next.Valid answers ∧
      (s.stopped = false → s.writing = false →
        Drained s.source next.source next.dataPending) := by
  unfold doWrite
  cases stopped : s.stopped with
  | true =>
    exact ⟨s, by simp, ⟨size, intact, level, by simp [stopped]⟩, by simp⟩
  | false =>
    cases busy : s.writing with
    | true => exact ⟨s, by simp, ⟨size, intact, level, fun _ _ => busy⟩, by simp⟩
    | false =>
      rw [busy] at intact
      obtain ⟨r, asked, filled, sound⟩ := refill_sound s.wb s.dataPending s.source size
      have drains : Drained s.source r.rest r.held := ⟨asked, sound.split, sound.exhausted⟩
      rw [level stopped busy, filled]
      simp only [Bool.false_eq_true, ↓reduceIte]
      cases failed : r.failed with
      | true =>
        refine ⟨_, rfl, ⟨sound.size, ?_, by simp [SessionWriter.stop],
          by simp [SessionWriter.stop]⟩, fun _ _ => drains⟩
        exact intact.unsent sound (Or.inl failed)
      | false =>
        by_cases empty : r.len = 0
        · have none_ := (sound.idle empty).1
          have valid : SessionWriter.Valid answers
              ⟨r.rest, r.buf, r.len, r.held, false, false, s.wire⟩ :=
            ⟨sound.size, intact.unsent sound (Or.inr empty), fun _ _ => empty,
              by simp [none_]⟩
          simp only [empty, ↓reduceIte, Bool.false_eq_true] at valid ⊢
          split
          · rename_i finished
            refine ⟨_, rfl, valid.stopGracefully finished, fun _ _ => ?_⟩
            rw [(stopGracefully_source _).1, (stopGracefully_source _).2]
            exact drains
          · exact ⟨_, rfl, valid, fun _ _ => drains⟩
        · simp only [empty, ↓reduceIte, Bool.false_eq_true]
          exact ⟨_, rfl, ⟨sound.size, intact.sent sound, by simp, fun _ _ => rfl⟩,
            fun _ _ => drains⟩

theorem step_valid (valid : s.Valid answers) (a : Action) :
    ∃ next, s.step a = some next ∧ next.Valid answers := by
  cases a with
  | signalWrite drained =>
    obtain ⟨next, written, nextValid, _⟩ :=
      doWrite_valid valid.size valid.intact valid.level drained
    exact ⟨next, written, nextValid⟩
  | readError drained =>
    simp only [step]
    split
    · rename_i finished
      exact ⟨_, rfl, valid.stopGracefully finished⟩
    · exact ⟨_, rfl, valid.stop⟩
  | recvFailure => exact ⟨_, rfl, valid.stop⟩
  | stop => exact ⟨_, rfl, valid.stop⟩
  | readDone drained stillDrained =>
    obtain ⟨next, written, nextValid, _⟩ :=
      doWrite_valid valid.size valid.intact valid.level drained
    simp only [step, written, Option.map_some]
    split
    · rename_i finished
      exact ⟨_, rfl, nextValid.stopGracefully finished⟩
    · exact ⟨_, rfl, nextValid⟩
  | writeError =>
    simp only [step]
    split
    · exact ⟨_, rfl, valid⟩
    · refine ⟨_, rfl, valid.size, valid.intact.completed _, ?_, ?_⟩
      · simp [SessionWriter.stop]
      · simp [SessionWriter.stop]
  | writeDone drained =>
    simp only [step]
    split
    · exact ⟨_, rfl, valid⟩
    · obtain ⟨next, written, nextValid, _⟩ :=
        doWrite_valid (s := { s with wire := s.wire.complete, wblen := 0, writing := false })
          valid.size (valid.intact.completed false) (fun _ _ => rfl) drained
      exact ⟨next, written, nextValid⟩

end

theorem run_valid (memory : Vector UInt8 bufferSize) (answers : Script) (actions : List Action) :
    ∃ s, run memory answers actions = some s ∧ s.Valid answers :=
  Trace.foldlM_invariant (Valid answers) (fun _ a valid => step_valid valid a) actions
    (new memory answers) (valid_new memory answers)

end SessionWriter

end Client

/-- No copy leaves the buffer in any run of either writer, after every run the bytes on the
    wire are intact, and a flush that is then made by a free writer asks nghttp2 as long as
    it gives chunks that fit. -/
theorem writers_intact (memory : Vector UInt8 bufferSize) (answers : Script) :
    (∀ actions, ∃ c, Server.Connection.run memory answers actions = some c ∧
      c.wire.Intact answers c.source c.outbuf c.buf c.writing ∧
      ∀ drained, ∃ next, c.step (.initiateWrite drained) = some next ∧
        (c.writing = false → Drained c.source next.source next.buf)) ∧
    (∀ actions, ∃ s, Client.SessionWriter.run memory answers actions = some s ∧
      s.wire.Intact answers s.source s.wb s.dataPending s.writing ∧
      ∀ drained, ∃ next, s.step (.signalWrite drained) = some next ∧
        (s.stopped = false → s.writing = false →
          Drained s.source next.source next.dataPending)) := by
  constructor
  · intro actions
    obtain ⟨c, reached, valid⟩ := Server.Connection.run_valid memory answers actions
    refine ⟨c, reached, valid.intact, fun drained => ?_⟩
    obtain ⟨next, written, _, drains⟩ :=
      Server.Connection.doWrite_valid valid.size valid.intact drained
    exact ⟨next, written, drains⟩
  · intro actions
    obtain ⟨s, reached, valid⟩ := Client.SessionWriter.run_valid memory answers actions
    refine ⟨s, reached, valid.intact, fun drained => ?_⟩
    obtain ⟨next, written, _, drains⟩ :=
      Client.SessionWriter.doWrite_valid valid.size valid.intact valid.level drained
    exact ⟨next, written, drains⟩

/-! A chunk that ends where the buffer ends, and one more byte. -/

theorem chunk_of_length {n : Nat} (some_ : 0 < n) (fits : n ≤ bufferSize) :
    ∃ c : Chunk UInt8 bufferSize, c.data.length = n :=
  ⟨⟨List.replicate n 0, List.ne_nil_of_length_pos (by simpa using some_), by simpa using fits⟩,
    List.length_replicate⟩

theorem oneByte_length : oneByte.data.length = 1 := rfl

def boundaryAnswers (wide : Chunk UInt8 bufferSize) : Script :=
  [.chunk wide, .chunk oneByte, .chunk oneByte, .nothing, .nothing]

section
variable (memory : Vector UInt8 bufferSize) {wide : Chunk UInt8 bufferSize}

theorem boundary_held (length : wide.data.length = 65535) :
    ∃ c, Server.Connection.run memory (boundaryAnswers wide) [.initiateWrite false] = some c ∧
      c.buf = some oneByte ∧ c.wire.handed.length = 65536 := by
  have size : memory.toList.length = 65536 := memory.length_toList
  simp [Server.Connection.run, boundaryAnswers, Server.Connection.step,
    Server.Connection.doWrite, Server.Connection.new, refill, fill, copyN, length, oneByte_length,
    Wire.new, Wire.send, size]

theorem boundary_connection (length : wide.data.length = 65535) :
    ∃ c, Server.Connection.run memory (boundaryAnswers wide)
        [.initiateWrite false, .writeDone false, .writeDone true] = some c ∧
      c.source = [] ∧ c.buf = none ∧ c.stopped = true := by
  have size : memory.toList.length = 65536 := memory.length_toList
  simp [Server.Connection.run, boundaryAnswers, Server.Connection.step,
    Server.Connection.doWrite, Server.Connection.new, refill, fill, copyN, length, oneByte_length,
    Wire.new, Wire.send, Wire.complete, Server.Connection.stopGracefully, Wire.witness, size]

theorem boundary_session (length : wide.data.length = 65535) :
    ∃ s, Client.SessionWriter.run memory (boundaryAnswers wide)
        [.signalWrite false, .writeDone false, .writeDone true] = some s ∧
      s.source = [] ∧ s.dataPending = none ∧ s.stopped = true := by
  have size : memory.toList.length = 65536 := memory.length_toList
  simp [Client.SessionWriter.run, boundaryAnswers, Client.SessionWriter.step,
    Client.SessionWriter.doWrite, Client.SessionWriter.new, refill, fill, copyN, length,
    oneByte_length, Wire.new, Wire.send, Wire.complete, Client.SessionWriter.shouldStop,
    Client.SessionWriter.stopGracefully, Wire.witness, size]

theorem intact_whole {w : Wire} {answers : Script} {buf : Bytes} {writing : Bool}
    (intact : w.Intact answers [] buf none writing) (fine : .failure ∉ answers) :
    w.handed = given answers := by
  obtain ⟨asked, split, kept⟩ := intact.bytes
  rw [List.append_nil] at split
  rw [split] at fine ⊢
  simpa [heldBytes] using kept fine

end

theorem writers_intact_boundary : ∃ (wide : Chunk UInt8 bufferSize) (c : Server.Connection)
    (s : Client.SessionWriter), wide.data.length = 65535 ∧
    (∃ first, Server.Connection.run (Vector.replicate bufferSize 0) (boundaryAnswers wide)
      [.initiateWrite false] = some first ∧ first.buf = some oneByte ∧
      first.wire.handed.length = 65536) ∧
    Server.Connection.run (Vector.replicate bufferSize 0) (boundaryAnswers wide)
      [.initiateWrite false, .writeDone false, .writeDone true] = some c ∧
    Client.SessionWriter.run (Vector.replicate bufferSize 0) (boundaryAnswers wide)
      [.signalWrite false, .writeDone false, .writeDone true] = some s ∧
    c.wire.handed = wide.data ++ [0, 0] ∧ s.wire.handed = wide.data ++ [0, 0] := by
  obtain ⟨wide, length⟩ := chunk_of_length (n := 65535) (by omega) (by decide)
  have fine : .failure ∉ boundaryAnswers wide := by simp [boundaryAnswers]
  have bytes : given (boundaryAnswers wide) = wide.data ++ [0, 0] := by
    simp [given, boundaryAnswers, oneByte]
  obtain ⟨c, ran, used, empty, _⟩ := boundary_connection (Vector.replicate bufferSize 0) length
  obtain ⟨s, ran', used', empty', _⟩ := boundary_session (Vector.replicate bufferSize 0) length
  obtain ⟨server, client⟩ := writers_intact (Vector.replicate bufferSize 0) (boundaryAnswers wide)
  obtain ⟨d, reached, intact, _⟩ := server [.initiateWrite false, .writeDone false, .writeDone true]
  obtain ⟨t, reached', intact', _⟩ := client [.signalWrite false, .writeDone false, .writeDone true]
  obtain rfl := Option.some.inj (ran.symm.trans reached)
  obtain rfl := Option.some.inj (ran'.symm.trans reached')
  rw [used, empty] at intact
  rw [used', empty'] at intact'
  exact ⟨wide, c, s, length, boundary_held _ length, ran, ran', (intact_whole intact fine).trans bytes,
    (intact_whole intact' fine).trans bytes⟩

end Nghttp2Asio
