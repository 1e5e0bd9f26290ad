import Nghttp2Asio.Arrival

/-!
`file_generator_from_fd` (asio_common.cc), with the answers of the system to its `read`s,
and what a client hears of a file that is sent as a response.
-/
namespace Nghttp2Asio
open Util

def errTemporalCallbackFailure : Int := -521

/-- The answer to one `read`: -1 with EINTR, -1 with another error, or a count of bytes. -/
inductive SysRead where
  | interrupted | failed | got (n : Nat)
  deriving DecidableEq, Repr

structure File where
  content : Bytes
  offset : Nat
  deriving DecidableEq, Repr

/-- One call of the generator, with the answers to the `read`s it makes; `none` as long as
    they are all interrupted. -/
def fileGeneratorFromFd (f : File) : List SysRead → Option (ReadResult × File)
  | [] => none
  | .interrupted :: rest => fileGeneratorFromFd f rest
  | .failed :: _ => some (⟨errTemporalCallbackFailure, [], 0⟩, f)
  | .got n :: _ =>
    some (⟨n, (f.content.drop f.offset).take n, if n = 0 then dataFlagEof else 0⟩,
      { f with offset := f.offset + n })

/-- `read` on a regular file: as many bytes as there is room for or fewer, and none only
    behind the last one. -/
def SysRead.Regular (f : File) (len : Nat) : SysRead → Prop
  | .interrupted | .failed => True
  | .got n => n ≤ len ∧ f.offset + n ≤ f.content.length ∧ (n = 0 → f.offset = f.content.length)

instance (f : File) (len : Nat) : (a : SysRead) → Decidable (a.Regular f len)
  | .interrupted => isTrue trivial
  | .failed => isTrue trivial
  | .got _ => inferInstanceAs (Decidable (_ ∧ _ ∧ _))

inductive FileReads : File → List (Nat × ReadResult) → File → Prop where
  | nil (f : File) : FileReads f [] f
  | cons {f g h : File} {len : Nat} {answers : List SysRead} {r : ReadResult}
      {rest : List (Nat × ReadResult)} (regular : ∀ a ∈ answers, a.Regular f len)
      (read : fileGeneratorFromFd f answers = some (r, g)) (later : FileReads g rest h) :
      FileReads f ((len, r) :: rest) h

inductive FileRead (f : File) (len : Nat) : ReadResult → File → Prop where
  | failed : FileRead f len ⟨errTemporalCallbackFailure, [], 0⟩ f
  | more (n : Nat) (some_ : 0 < n) (room : n ≤ len) (left : f.offset + n ≤ f.content.length) :
      FileRead f len ⟨n, (f.content.drop f.offset).take n, 0⟩ { f with offset := f.offset + n }
  | ended (done : f.offset = f.content.length) : FileRead f len ⟨0, [], dataFlagEof⟩ f

theorem generate_cases {f g : File} {len : Nat} {answers : List SysRead} {r : ReadResult}
    (regular : ∀ a ∈ answers, a.Regular f len) (read : fileGeneratorFromFd f answers = some (r, g)) :
    FileRead f len r g := by
  induction answers with
  | nil => contradiction
  | cons a answers ih =>
    cases a with
    | interrupted => exact ih (fun a member => regular a (List.mem_cons_of_mem _ member)) read
    | failed =>
      obtain ⟨rfl, rfl⟩ := Prod.mk.inj (Option.some.inj read)
      exact .failed
    | got n =>
      obtain ⟨rfl, rfl⟩ := Prod.mk.inj (Option.some.inj read)
      obtain ⟨room, left, last⟩ := regular (.got n) List.mem_cons_self
      cases n with
      | zero => exact .ended (last rfl)
      | succ n => exact .more (n + 1) (Nat.succ_pos n) room left

/-- What has been handed out of a file after some calls. -/
structure Handed (f g : File) (reads : List (Nat × ReadResult)) : Prop where
  same : g.content = f.content
  inside : g.offset ≤ f.content.length
  bytes : f.content.take f.offset ++ payloads reads = f.content.take g.offset
  fits : ∀ read ∈ reads, read.2.data.length ≤ read.1 ∧ (read.2.value = read.2.data.length ∨
    read.2.value = errTemporalCallbackFailure ∧ read.2.data = [])
  ended : reads.any (fun read => read.2.eof) = true → g.offset = f.content.length
  onward : (∀ read ∈ reads, read.2.value ≠ errTemporalCallbackFailure) →
    reads.any (fun read => read.2.eof) = false → f.offset + reads.length ≤ g.offset

theorem payloads_cons (len : Nat) (r : ReadResult) (reads : List (Nat × ReadResult)) :
    payloads ((len, r) :: reads) = r.payload ++ payloads reads := by
  simp [payloads]

theorem Handed.offset_le {f g : File} {reads : List (Nat × ReadResult)} (handed : Handed f g reads)
    (start : f.offset ≤ f.content.length) : f.offset ≤ g.offset := by
  have sizes := congrArg List.length handed.bytes
  simp only [List.length_append, List.length_take] at sizes
  have inside := handed.inside
  omega

theorem Handed.failed {f h : File} {rest : List (Nat × ReadResult)} (later : Handed f h rest)
    (len : Nat) : Handed f h ((len, ⟨errTemporalCallbackFailure, [], 0⟩) :: rest) where
  same := later.same
  inside := later.inside
  bytes := by
    rw [payloads_cons]
    exact later.bytes
  fits := by
    intro read member
    rcases List.mem_cons.mp member with rfl | member
    · exact ⟨Nat.zero_le len, Or.inr ⟨rfl, rfl⟩⟩
    · exact later.fits read member
  ended := by
    intro ended
    exact later.ended (by simpa [ReadResult.eof] using ended)
  onward := by
    intro none_ _
    exact absurd rfl (none_ _ List.mem_cons_self)

theorem Handed.more {f h : File} {rest : List (Nat × ReadResult)} {len n : Nat}
    (later : Handed { f with offset := f.offset + n } h rest) (some_ : 0 < n) (room : n ≤ len)
    (left : f.offset + n ≤ f.content.length) :
    Handed f h ((len, ⟨n, (f.content.drop f.offset).take n, 0⟩) :: rest) where
  same := later.same
  inside := later.inside
  bytes := by
    have whole : ((f.content.drop f.offset).take n).take n = (f.content.drop f.offset).take n := by
      rw [List.take_take, Nat.min_self]
    rw [payloads_cons, ReadResult.payload, Int.toNat_natCast, whole, ← List.append_assoc,
      ← List.take_add]
    exact later.bytes
  fits := by
    have size : ((f.content.drop f.offset).take n).length = n := by
      rw [List.length_take, List.length_drop]
      omega
    intro read member
    rcases List.mem_cons.mp member with rfl | member
    · exact ⟨Nat.le_trans (Nat.le_of_eq size) room, Or.inl (congrArg Int.ofNat size.symm)⟩
    · exact later.fits read member
  ended := by
    intro ended
    exact later.ended (by simpa [ReadResult.eof] using ended)
  onward := by
    intro none_ running
    have rest_onward := later.onward (fun read member => none_ read (List.mem_cons_of_mem _ member))
      (by simpa [ReadResult.eof] using running)
    simp only [List.length_cons] at rest_onward ⊢
    omega

theorem Handed.end {f h : File} {rest : List (Nat × ReadResult)} (later : Handed f h rest)
    (len : Nat) (done : f.offset = f.content.length) :
    Handed f h ((len, ⟨0, [], dataFlagEof⟩) :: rest) where
  same := later.same
  inside := later.inside
  bytes := by
    rw [payloads_cons]
    exact later.bytes
  fits := by
    intro read member
    rcases List.mem_cons.mp member with rfl | member
    · exact ⟨Nat.zero_le len, Or.inl rfl⟩
    · exact later.fits read member
  ended := by
    intro _
    have behind := later.offset_le (Nat.le_of_eq done)
    have inside := later.inside
    omega
  onward := by
    intro _ running
    simp only [ReadResult.eof, List.any_cons, Bool.or_eq_false_iff] at running
    exact absurd running.1 (by simp [dataFlagEof])

theorem fileReads_handed {f g : File} {reads : List (Nat × ReadResult)} (ran : FileReads f reads g)
    (start : f.offset ≤ f.content.length) : Handed f g reads := by
  induction ran with
  | nil f => exact ⟨rfl, start, by simp [payloads], by simp, by simp, by simp⟩
  | cons regular read later ih =>
    cases generate_cases regular read with
    | failed => exact (ih start).failed _
    | more n some_ room left => exact (ih left).more some_ room left
    | ended done => exact (ih start).end _ done

section Arrival
variable {α : Type} {ends : Ends α} {link : Link} {id : Int}

/-- A file that is sent as a response comes over from its start, and whole when the end is
    heard, however its reads are cut and interrupted. No read overruns its buffer, and the
    file ends or fails after as many reads as it has bytes. -/
theorem file_arrives (reached : link.Reached ends) {r : Responding}
    (responds : link.responding id = some r) {before after : List Server.Call} {c : Server.Call}
    {cb : Option Generator} (accepted : Server.Accepted r.method r.pushed r.calls before c after cb)
    {content : Bytes} {reads : List (Nat × ReadResult)} {last : File}
    (made : readAll cb (after.filterMap Server.Call.bufferSize) = reads)
    (ran : FileReads ⟨content, 0⟩ reads last) :
    (link.heardDownload ends id).flatten <+: content ∧
      ([] ∈ link.heardDownload ends id → (link.heardDownload ends id).flatten = content ∨
        ∃ status header, Server.firstHead r.calls = some (status, header) ∧
          Server.expectBody r.method status = false) ∧
      (∀ read ∈ reads, read.2.data.length ≤ read.1 ∧ (read.2.value = read.2.data.length ∨
        read.2.value = errTemporalCallbackFailure ∧ read.2.data = [])) ∧
      (content.length < reads.length → reads.any (fun read => read.2.eof) = true ∨
        ∃ read ∈ reads, read.2.value = errTemporalCallbackFailure) := by
  have handed := fileReads_handed ran (Nat.zero_le _)
  obtain ⟨bytes, done⟩ := body_heard (good_reached reached) responds accepted made
  have part : payloads reads = content.take last.offset := by
    simpa using handed.bytes
  refine ⟨?_, fun ended => ?_, handed.fits, fun many => ?_⟩
  · rw [part] at bytes
    exact bytes.trans (List.take_prefix _ _)
  · obtain ⟨all, said | off⟩ := done ended
    · left
      have behind : last.offset = content.length := handed.ended said
      rw [all, part, behind, List.take_length]
    · exact Or.inr off
  · by_contra neither
    push Not at neither
    obtain ⟨running, healthy⟩ := neither
    have onward := handed.onward healthy (by simpa using running)
    have inside := handed.inside
    simp only at onward inside
    omega

end Arrival

/-! A file of three bytes, in two reads of which the first is interrupted. -/

def outFile : Generator := .app (fun count _ => match count with
  | 0 => ⟨2, lit "ou", 0⟩
  | 1 => ⟨1, lit "t", 0⟩
  | _ => ⟨0, [], dataFlagEof⟩) 0

def outReads : List (Nat × ReadResult) :=
  [(9, ⟨2, lit "ou", 0⟩), (9, ⟨1, lit "t", 0⟩), (9, ⟨0, [], dataFlagEof⟩)]

def fileActions : List Action :=
  .submit 1 (lit "GET") (lit "http://a/") Multimap.empty none ::
    ((headBlock (.headers 1 true .request) [makeNvLs (lit ":method") (lit "GET"),
          makeNvLs (lit ":scheme") (lit "http"), makeNvLs (lit ":path") (lit "/"),
          makeNvLs (lit ":authority") (lit "a")]).map .toServer ++
      .call 1 (.endWith (some outFile) ⟨lit "now", true⟩) ::
      .download 1 9 [lit "ou"] :: .download 1 9 [lit "t"] :: .download 1 9 [] ::
      (headBlock (.headers 1 false .response) [makeNvLs (lit ":status") (lit "200"),
          makeNvLs (lit "date") (lit "now")] ++ dataFrame 1 false [lit "ou"] ++
        dataFrame 1 false [lit "t"] ++ dataFrame 1 true []).map .toClient)

def fileLink : Option Link := fileActions.foldlM (Link.step postEnds) Link.new

def endReads : List Server.Call → Option (List (Nat × ReadResult))
  | .endWith cb _ :: rest => some (readAll cb (rest.filterMap Server.Call.bufferSize))
  | _ => none

theorem endReads_accepted (method : Bytes) {calls : List Server.Call}
    {reads : List (Nat × ReadResult)} (made : endReads calls = some reads) :
    ∃ c after cb, Server.Accepted method false calls [] c after cb ∧
      readAll cb (after.filterMap Server.Call.bufferSize) = reads := by
  unfold endReads at made
  split at made
  · rename_i cb answer rest
    exact ⟨.endWith cb answer, rest, cb, ⟨rfl, rfl, nofun⟩, Option.some.inj made⟩
  · contradiction

theorem outReads_read : FileReads ⟨lit "out", 0⟩ outReads ⟨lit "out", 3⟩ := by
  apply @FileReads.cons _ _ _ _ [.interrupted, .got 2]
  · decide
  · rfl
  apply @FileReads.cons _ _ _ _ [.got 1]
  · decide
  · rfl
  apply @FileReads.cons _ _ _ _ [.got 0]
  · decide
  · rfl
  exact FileReads.nil _

theorem file_arrives_out : ∃ (link : Link) (r : Responding), link.Reached postEnds ∧
    link.responding 1 = some r ∧ link.heardDownload postEnds 1 = [lit "ou", lit "t", []] ∧
    (link.heardDownload postEnds 1).flatten <+: lit "out" := by
  have known : fileLink.any (fun link => (link.responding 1).any (fun r =>
      !r.pushed && endReads r.calls = some outReads) &&
        link.heardDownload postEnds 1 = [lit "ou", lit "t", []]) = true := by decide +kernel
  obtain ⟨link, ran, facts⟩ := (Option.any_eq_true _ _).mp known
  simp only [Bool.and_eq_true, decide_eq_true_eq] at facts
  obtain ⟨responding, heard⟩ := facts
  obtain ⟨r, responds, facts⟩ := (Option.any_eq_true _ _).mp responding
  simp only [Bool.and_eq_true, decide_eq_true_eq, Bool.not_eq_true'] at facts
  obtain ⟨own, first⟩ := facts
  obtain ⟨c, after, cb, accepted, made⟩ := endReads_accepted r.method first
  rw [← own] at accepted
  have reached : link.Reached postEnds := ⟨fileActions, ran⟩
  exact ⟨link, r, reached, responds, heard, (file_arrives reached responds accepted made outReads_read).1⟩

end Nghttp2Asio
