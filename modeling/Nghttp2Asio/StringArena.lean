import Nghttp2Asio.AllocatorLifetime
import Nghttp2Asio.Util

/-!
The strings of allocator.h: `make_string_ref`, `concat_string_ref` and
`realloc_concat_string_ref`. Their arguments are read from memory, so that they may be
parts of strings of the same allocator, also of the one that is extended.
-/
namespace Nghttp2Asio.BlockAllocator
open FlatMemory

structure StringRef where
  base : Nat
  len : Nat
  deriving DecidableEq, Repr

def StringRef.text (mem : Memory) (s : StringRef) : List UInt8 := readBytes mem s.base s.len

def concatStringRefCount (acc : Nat) : List StringRef → Option Nat
  | [] => some acc
  | value :: args => (sizeAdd acc value.len).bind fun acc => concatStringRefCount acc args

def concatStringRefCopy (mem : Memory) (p : Nat) : List StringRef → Memory × Nat
  | [] => (mem, p)
  | value :: args => concatStringRefCopy (copy mem value.base p value.len) (p + value.len) args

def writeArgs (mem : Memory) (p : Nat) (args : List StringRef) : Memory :=
  let (mem, p) := concatStringRefCopy mem p args
  store mem p 0

def makeStringRef (a : Allocator) (mem : Memory) (src : StringRef) (block : Nat) :
    Option (Allocator × Memory × StringRef) :=
  (sizeAdd src.len 1).bind fun size =>
    (a.alloc mem size block).map fun (a, mem, dst) =>
      (a, store (copy mem src.base dst src.len) (dst + src.len) 0, ⟨dst, src.len⟩)

def concatStringRef (a : Allocator) (mem : Memory) (args : List StringRef) (block : Nat) :
    Option (Allocator × Memory × StringRef) :=
  (concatStringRefCount 0 args).bind fun len =>
    (sizeAdd len 1).bind fun size =>
      (a.alloc mem size block).map fun (a, mem, dst) => (a, writeArgs mem dst args, ⟨dst, len⟩)

def reallocConcatStringRef (a : Allocator) (mem : Memory) (value : StringRef) (args : List StringRef)
    (block : Nat) : Option (Allocator × Memory × StringRef) :=
  if value.len = 0 then concatStringRef a mem args block
  else
    (concatStringRefCount 0 args).bind fun count =>
      (sizeAdd value.len count).bind fun len =>
        (sizeAdd len 1).bind fun size =>
          (a.realloc mem value.base size block).map fun (a, mem, dst) =>
            (a, writeArgs mem (dst + value.len) args, ⟨dst, len⟩)

/-- The strings that have been made, with what was to be in them. -/
structure Arena where
  state : State
  strings : List (StringRef × List UInt8)

inductive Arena.Action where
  | make (src : StringRef) (block : Nat)
  | concat (args : List StringRef) (block : Nat)
  | extend (value : StringRef) (args : List StringRef) (block : Nat)
  | bytes (size block : Nat)
  | write (x : Nat) (c : UInt8)
  | elsewhere (x : Nat) (c : UInt8)

/-- An argument is a part of a string that was made here, or lies outside of all blocks. -/
def Arena.Readable (arena : Arena) (a : Allocator) (v : StringRef) : Prop :=
  (∃ e ∈ arena.strings, e.1.base ≤ v.base ∧ v.base + v.len ≤ e.1.base + e.1.len) ∨
    ∀ c ∈ a.retain, v.base + v.len ≤ c.address ∨ c.end_ ≤ v.base

instance (arena : Arena) (a : Allocator) (v : StringRef) : Decidable (arena.Readable a v) :=
  inferInstanceAs (Decidable (_ ∨ _))

/-- A new string; one that was extended where it stands is no longer there. -/
def Arena.hold (arena : Arena) (s : State) (made : StringRef) (text : List UInt8) : Arena :=
  ⟨s, (made, text) :: arena.strings.filter (fun e => e.1.base ≠ made.base)⟩

def Arena.texts (arena : Arena) (args : List StringRef) : List UInt8 :=
  args.flatMap (StringRef.text arena.state.mem)

namespace Arena

def step (arena : Arena) : Arena.Action → Option Arena
  | .make src block => do
    let (a, mem, made) ← makeStringRef arena.state.allocator arena.state.mem src block
    guard (arena.Readable a src)
    return arena.hold (arena.state.afterAlloc a mem made.base (made.len + 1)) made (arena.texts [src])
  | .concat args block => do
    let (a, mem, made) ← concatStringRef arena.state.allocator arena.state.mem args block
    guard (∀ v ∈ args, arena.Readable a v)
    return arena.hold (arena.state.afterAlloc a mem made.base (made.len + 1)) made (arena.texts args)
  | .extend value args block => do
    let (a, mem, made) ← reallocConcatStringRef arena.state.allocator arena.state.mem value args block
    guard (∀ v ∈ args, arena.Readable a v)
    if value.len = 0 then
      return arena.hold (arena.state.afterAlloc a mem made.base (made.len + 1)) made (arena.texts args)
    guard (value ∈ arena.strings.map Prod.fst)
    return arena.hold (arena.state.afterRealloc a mem value.base made.base (made.len + 1)) made
      (arena.texts (value :: args))
  | .bytes size block => do
    let (a, mem, p) ← arena.state.allocator.alloc arena.state.mem size block
    return { arena with state := arena.state.afterAlloc a mem p size }
  | .write x c => do
    guard (∃ r ∈ arena.state.regions, r.ptr ≤ x ∧ x < r.hi ∧ ∀ e ∈ arena.strings, e.1.base ≠ r.ptr)
    return { arena with state := { arena.state with mem := store arena.state.mem x c } }
  | .elsewhere x c => do
    guard (∀ b ∈ arena.state.allocator.retain, x < b.address ∨ b.end_ ≤ x)
    return { arena with state := { arena.state with mem := store arena.state.mem x c } }

def Reached (blockSize isolationThreshold : Nat) (arena : Arena) : Prop :=
  ∃ (a : Allocator) (mem : Memory) (actions : List Arena.Action),
    Allocator.new blockSize isolationThreshold = some a ∧
      actions.foldlM step ⟨⟨a, mem, []⟩, []⟩ = some arena

end Arena

/-! What is copied. -/

def total (args : List StringRef) : Nat := (args.map StringRef.len).sum

theorem concatStringRefCount_some {acc n : Nat} {args : List StringRef}
    (counted : concatStringRefCount acc args = some n) : n = acc + total args := by
  induction args generalizing acc with
  | nil => exact (Option.some.inj counted).symm
  | cons value args ih =>
    obtain ⟨next, added, rest⟩ := Option.bind_eq_some_iff.mp counted
    have count := ih rest
    rw [(sizeAdd_some added).1] at count
    rw [count, total, total, List.map_cons, List.sum_cons, Nat.add_assoc]

theorem concatStringRefCopy_spec {mem : Memory} {p : Nat} {args : List StringRef}
    (away : ∀ v ∈ args, v.base + v.len ≤ p ∨ p + total args ≤ v.base) :
    (concatStringRefCopy mem p args).2 = p + total args ∧
      (∀ x, x < p ∨ p + total args ≤ x → (concatStringRefCopy mem p args).1 x = mem x) ∧
      readBytes (concatStringRefCopy mem p args).1 p (total args) = args.flatMap (StringRef.text mem) := by
  induction args generalizing mem p with
  | nil => exact ⟨rfl, fun _ _ => rfl, rfl⟩
  | cons value args ih =>
    have size : total (value :: args) = value.len + total args := by
      simp [total]
    rw [size] at away ⊢
    have first := away value List.mem_cons_self
    obtain ⟨last, outside, texts⟩ := @ih (copy mem value.base p value.len) (p + value.len)
      (fun v member => by
        have off := away v (List.mem_cons_of_mem _ member)
        omega)
    refine ⟨?_, fun x off => ?_, ?_⟩
    · rw [concatStringRefCopy, last, Nat.add_assoc]
    · rw [concatStringRefCopy, outside x (by omega), copy_outside _ _ _ _ (by omega)]
    · have front : readBytes (concatStringRefCopy (copy mem value.base p value.len) (p + value.len) args).1
          p value.len = value.text mem := by
        apply readBytes_shift
        intro i bound
        rw [outside (p + i) (by omega), copy_content mem (by omega) i bound]
      have behind : args.flatMap (StringRef.text (copy mem value.base p value.len)) =
          args.flatMap (StringRef.text mem) := by
        apply List.flatMap_congr
        intro v member
        have off := away v (List.mem_cons_of_mem _ member)
        apply readBytes_congr
        intro x low high
        exact copy_outside _ _ _ _ (by omega)
      rw [concatStringRefCopy, readBytes_append, front, texts, behind, List.flatMap_cons]

theorem writeArgs_spec {mem : Memory} {p : Nat} {args : List StringRef}
    (away : ∀ v ∈ args, v.base + v.len ≤ p ∨ p + total args ≤ v.base) :
    (∀ x, x < p ∨ p + total args < x → writeArgs mem p args x = mem x) ∧
      readBytes (writeArgs mem p args) p (total args) = args.flatMap (StringRef.text mem) ∧
      writeArgs mem p args (p + total args) = 0 := by
  obtain ⟨last, outside, texts⟩ := @concatStringRefCopy_spec mem p args away
  simp only [writeArgs, last]
  refine ⟨fun x off => ?_, ?_, if_pos rfl⟩
  · rw [store_other _ _ (by omega), outside x (by omega)]
  · rw [← texts]
    apply readBytes_congr
    intro x low high
    exact store_other _ _ (by omega)

theorem makeStringRef_eq (a : Allocator) (mem : Memory) (src : StringRef) (block : Nat) :
    makeStringRef a mem src block = concatStringRef a mem [src] block := by
  simp only [makeStringRef, concatStringRef, concatStringRefCount, sizeAdd, Nat.zero_add]
  by_cases small : src.len < 2 ^ 64
  · rw [if_pos small]
    rfl
  · rw [if_neg small, if_neg (by omega)]
    rfl

/-! Strings stay. -/

theorem Valid.touched {s : State} (valid : Valid s) {r : Region} (held : r ∈ s.regions) {new : Memory}
    (same : ∀ x, x < r.ptr ∨ r.hi ≤ x → new x = s.mem x) : Valid { s with mem := new } :=
  ⟨valid.layout, valid.stored.touched valid.layout held same, valid.headed.touched valid.layout held same⟩

structure Kept (arena : Arena) : Prop where
  valid : Valid arena.state
  placed : ∀ e ∈ arena.strings, ∃ r ∈ arena.state.regions, r.ptr = e.1.base ∧ e.1.len < r.room
  once : ∀ e ∈ arena.strings, ∀ f ∈ arena.strings, e.1.base = f.1.base → e = f
  text : ∀ e ∈ arena.strings, e.1.text arena.state.mem = e.2 ∧
    arena.state.mem (e.1.base + e.1.len) = 0

section
variable {arena : Arena} {s : State}

theorem Kept.other (kept : Kept arena) (valid : Valid s)
    (more : ∀ r ∈ arena.state.regions, r ∈ s.regions) {r : Region} (held : r ∈ s.regions)
    {e : StringRef × List UInt8} (member : e ∈ arena.strings) (different : e.1.base ≠ r.ptr) :
    e.1.base + e.1.len < r.lo ∨ r.hi ≤ e.1.base := by
  obtain ⟨q, own, at_, room⟩ := kept.placed e member
  have apart := valid.layout.apart.forall (more q own) held
    (fun same => different (by rw [← at_, same]))
  have word : sizeofSizeT = 8 := rfl
  simp only [Region.Apart, Region.hi, Region.lo] at apart ⊢
  omega

theorem Kept.same (kept : Kept arena) {new : Memory}
    (keeps : Keeps arena.state.regions arena.state.mem new) {e : StringRef × List UInt8}
    (member : e ∈ arena.strings) {x : Nat} (low : e.1.base ≤ x) (high : x ≤ e.1.base + e.1.len) :
    new x = arena.state.mem x := by
  obtain ⟨q, own, at_, room⟩ := kept.placed e member
  apply keeps q own x
  · unfold Region.lo
    omega
  · unfold Region.hi
    omega

/-- What allocated memory for a string has done so far: the state `s` has a region for it, and
    the strings there were are as they were. -/
structure Ready (arena : Arena) (s : State) (r : Region) : Prop where
  valid : Valid s
  held : r ∈ s.regions
  more : ∀ q ∈ arena.state.regions, q ∈ s.regions
  keeps : Keeps arena.state.regions arena.state.mem s.mem
  outside : ∀ x, (∀ c ∈ s.allocator.retain, x < c.address ∨ c.end_ ≤ x) → s.mem x = arena.state.mem x

theorem Ready.argument {r : Region} (ready : Ready arena s r) (kept : Kept arena) {start : Nat}
    (own : ∀ e ∈ arena.strings, e.1.base = r.ptr → e.1.len ≤ start) {v : StringRef}
    (readable : arena.Readable s.allocator v) :
    v.text s.mem = v.text arena.state.mem ∧ (v.base + v.len ≤ r.ptr + start ∨ r.hi ≤ v.base) := by
  rcases readable with ⟨e, member, low, high⟩ | away
  · constructor
    · apply readBytes_congr
      intro x above below
      exact kept.same ready.keeps member (by omega) (by omega)
    · by_cases here : e.1.base = r.ptr
      · have short := own e member here
        omega
      · have off := kept.other ready.valid ready.more ready.held member here
        unfold Region.lo at off
        omega
  · obtain ⟨c, retained, inside⟩ := ready.valid.layout.inside r ready.held
    have address := ready.valid.layout.address_add retained
    constructor
    · apply readBytes_congr
      intro x above below
      apply ready.outside
      intro d retained
      have off := away d retained
      omega
    · have off := away c retained
      unfold Region.Inside at inside
      omega

theorem Ready.finish {r : Region} (ready : Ready arena s r) (kept : Kept arena) {start : Nat}
    {args : List StringRef} (own : ∀ e ∈ arena.strings, e.1.base = r.ptr → e.1.len ≤ start)
    (readable : ∀ v ∈ args, arena.Readable s.allocator v) (room : start + total args < r.room) :
    Kept (arena.hold { s with mem := writeArgs s.mem (r.ptr + start) args }
      ⟨r.ptr, start + total args⟩ (readBytes s.mem r.ptr start ++ arena.texts args)) := by
  have away : ∀ v ∈ args, v.base + v.len ≤ r.ptr + start ∨ r.ptr + start + total args ≤ v.base := by
    intro v member
    have off := (ready.argument kept own (readable v member)).2
    unfold Region.hi at off
    omega
  obtain ⟨same, texts, zero⟩ := @writeArgs_spec s.mem (r.ptr + start) args away
  have arguments : args.flatMap (StringRef.text s.mem) = arena.texts args := by
    apply List.flatMap_congr
    intro v member
    exact (ready.argument kept own (readable v member)).1
  have others : ∀ e ∈ arena.strings, e.1.base ≠ r.ptr → ∀ x, e.1.base ≤ x → x ≤ e.1.base + e.1.len →
      writeArgs s.mem (r.ptr + start) args x = arena.state.mem x := by
    intro e member different x low high
    have off := kept.other ready.valid ready.more ready.held member different
    unfold Region.lo Region.hi at off
    rw [same x (by omega), kept.same ready.keeps member low high]
  have valid : Valid { s with mem := writeArgs s.mem (r.ptr + start) args } := by
    apply ready.valid.touched ready.held
    intro x off
    apply same
    unfold Region.hi at off
    omega
  refine ⟨valid, fun e member => ?_, fun e member f member' equal => ?_, fun e member => ?_⟩
  · rcases List.mem_cons.mp member with rfl | old
    · exact ⟨r, ready.held, rfl, room⟩
    · obtain ⟨q, held, rest⟩ := kept.placed e (List.mem_filter.mp old).1
      exact ⟨q, ready.more q held, rest⟩
  · rcases List.mem_cons.mp member with rfl | old <;> rcases List.mem_cons.mp member' with rfl | old'
    · rfl
    · simp only [List.mem_filter, decide_eq_true_eq] at old'
      exact absurd equal.symm old'.2
    · simp only [List.mem_filter, decide_eq_true_eq] at old
      exact absurd equal old.2
    · exact kept.once e (List.mem_filter.mp old).1 f (List.mem_filter.mp old').1 equal
  · rcases List.mem_cons.mp member with rfl | old
    · have front : readBytes (writeArgs s.mem (r.ptr + start) args) r.ptr start =
          readBytes s.mem r.ptr start := by
        apply readBytes_congr
        intro x low high
        exact same x (by omega)
      refine ⟨?_, ?_⟩
      · simp only [StringRef.text, Arena.hold]
        rw [readBytes_append, front, texts, arguments]
      · simp only [Arena.hold]
        rw [← Nat.add_assoc]
        exact zero
    · simp only [List.mem_filter, decide_eq_true_eq] at old
      obtain ⟨known, ended⟩ := kept.text e old.1
      have bytes := others e old.1 old.2
      refine ⟨?_, ?_⟩
      · rw [← known]
        apply readBytes_congr
        intro x low high
        exact bytes x low (by omega)
      · rw [← ended]
        exact bytes _ (by omega) (by omega)

theorem Layout.fresh_ptr {a : Allocator} {r q : Region} {regions : List Region}
    (layout : Layout a (r :: regions)) (old : q ∈ regions) : q.ptr ≠ r.ptr := by
  have apart := (List.pairwise_cons.mp layout.apart).1 q old
  have bound := layout.ptr_bound (List.mem_cons_self (a := r))
  have word : sizeofSizeT = 8 := rfl
  simp only [Region.Apart, Region.hi, Region.lo] at apart
  omega

theorem Kept.fresh (kept : Kept arena) {a : Allocator} {r : Region}
    (layout : Layout a (r :: arena.state.regions)) {e : StringRef × List UInt8}
    (member : e ∈ arena.strings) : e.1.base ≠ r.ptr := by
  obtain ⟨q, own, at_, _⟩ := kept.placed e member
  rw [← at_]
  exact layout.fresh_ptr own

theorem Kept.concat (kept : Kept arena) {b : Allocator} {mem : Memory} {args : List StringRef}
    {made : StringRef} {block : Nat}
    (given : concatStringRef arena.state.allocator arena.state.mem args block = some (b, mem, made))
    (readable : ∀ v ∈ args, arena.Readable b v) :
    Kept (arena.hold (arena.state.afterAlloc b mem made.base (made.len + 1)) made (arena.texts args)) := by
  obtain ⟨len, counted, rest⟩ := Option.bind_eq_some_iff.mp given
  obtain ⟨size, added, rest⟩ := Option.bind_eq_some_iff.mp rest
  obtain ⟨⟨c, mid, dst⟩, taken, result⟩ := Option.map_eq_some_iff.mp rest
  simp only [Prod.mk.injEq] at result
  obtain ⟨rfl, rfl, rfl⟩ := result
  have len_eq := concatStringRefCount_some counted
  rw [Nat.zero_add] at len_eq
  rw [(sizeAdd_some added).1, len_eq] at taken
  obtain ⟨valid, keeps, _⟩ := alloc_spec kept.valid taken
  have grows := alloc_grows kept.valid.layout kept.valid.headed taken
  have ready : Ready arena (arena.state.afterAlloc c mid dst (total args + 1))
      ⟨dst, total args + 1, arena.state.allocator.roomFor (total args + 1)⟩ :=
    ⟨valid, List.mem_cons_self, fun q old => List.mem_cons_of_mem _ old, keeps, grows.outside⟩
  have room := roomFor_le arena.state.allocator (total args + 1)
  have done := @Ready.finish _ _ _ ready kept 0 args
    (fun e member same => absurd same (kept.fresh valid.layout member)) readable
    (by simp only; omega)
  rw [len_eq]
  simpa [readBytes, State.afterAlloc] using done

theorem Kept.extend (kept : Kept arena) {b : Allocator} {mem : Memory} {value made : StringRef}
    {args : List StringRef} {block : Nat} (some_ : value.len ≠ 0)
    (there : value ∈ arena.strings.map Prod.fst)
    (given : reallocConcatStringRef arena.state.allocator arena.state.mem value args block =
      some (b, mem, made)) (readable : ∀ v ∈ args, arena.Readable b v) :
    Kept (arena.hold (arena.state.afterRealloc b mem value.base made.base (made.len + 1)) made
      (arena.texts (value :: args))) := by
  rw [reallocConcatStringRef, if_neg some_] at given
  obtain ⟨count, counted, rest⟩ := Option.bind_eq_some_iff.mp given
  obtain ⟨len, longer, rest⟩ := Option.bind_eq_some_iff.mp rest
  obtain ⟨size, added, rest⟩ := Option.bind_eq_some_iff.mp rest
  obtain ⟨⟨c, mid, dst⟩, taken, result⟩ := Option.map_eq_some_iff.mp rest
  simp only [Prod.mk.injEq] at result
  obtain ⟨rfl, rfl, rfl⟩ := result
  have count_eq := concatStringRefCount_some counted
  rw [Nat.zero_add] at count_eq
  have len_eq := (sizeAdd_some longer).1
  rw [count_eq] at len_eq
  rw [(sizeAdd_some added).1] at taken
  obtain ⟨e, member, rfl⟩ := List.mem_map.mp there
  obtain ⟨q, own, at_, short⟩ := kept.placed e member
  have live : arena.state.Live e.1.base := Or.inr ⟨q, own, at_⟩
  obtain ⟨valid, keeps, enough, moved⟩ := realloc_spec kept.valid live taken
  have grows := realloc_grows kept.valid live taken
  have positive := kept.valid.layout.ptr_bound own
  have header : sizeofMemBlock = 32 := rfl
  have length := (kept.valid.stored q own).1
  rw [at_] at positive length
  have front : readBytes mid dst e.1.len = e.1.text arena.state.mem := by
    apply readBytes_shift
    intro i bound
    exact moved (by omega) i (by omega)
  -- the region is that of the string itself, or a new one
  have written : ∀ r ∈ (arena.state.afterRealloc c mid e.1.base dst (len + 1)).regions, r.ptr = dst →
      (∀ q ∈ arena.state.regions, q ∈ (arena.state.afterRealloc c mid e.1.base dst (len + 1)).regions) →
      (∀ f ∈ arena.strings, f.1.base = r.ptr → f.1.len ≤ e.1.len) →
      Kept (arena.hold (arena.state.afterRealloc c (writeArgs mid (dst + e.1.len) args) e.1.base dst
        (len + 1)) ⟨dst, len⟩ (arena.texts (e.1 :: args))) := by
    intro r held here more alone
    have stored := (valid.stored r held).1
    rw [here] at stored
    have ready : Ready arena (arena.state.afterRealloc c mid e.1.base dst (len + 1)) r :=
      ⟨valid, held, more, keeps, grows.outside⟩
    have done := ready.finish kept alone readable (by
      simp only [State.afterRealloc] at stored
      omega)
    rw [here] at done
    rw [len_eq]
    simpa only [State.afterRealloc, front, len_eq, Arena.texts, List.flatMap_cons] using done
  by_cases same : dst = e.1.base
  · have regions : (arena.state.afterRealloc c mid e.1.base dst (len + 1)).regions =
        arena.state.regions := if_pos same
    refine written q (regions ▸ own) (at_.trans same.symm) (fun q old => regions ▸ old) ?_
    intro f other at_f
    obtain rfl := kept.once f other e member (at_f.trans at_)
    exact Nat.le_refl _
  · have regions : (arena.state.afterRealloc c mid e.1.base dst (len + 1)).regions =
        _ :: arena.state.regions := if_neg same
    refine written _ (regions ▸ List.mem_cons_self) rfl
      (fun q old => regions ▸ List.mem_cons_of_mem _ old) ?_
    intro f other at_f
    have layout := valid.layout
    rw [regions] at layout
    exact absurd at_f (kept.fresh layout other)

theorem Kept.preserved (kept : Kept arena) (valid : Valid s)
    (more : ∀ r ∈ arena.state.regions, r ∈ s.regions)
    (same : ∀ e ∈ arena.strings, ∀ x, e.1.base ≤ x → x ≤ e.1.base + e.1.len →
      s.mem x = arena.state.mem x) : Kept { arena with state := s } := by
  refine ⟨valid, fun e member => ?_, kept.once, fun e member => ?_⟩
  · obtain ⟨r, held, rest⟩ := kept.placed e member
    exact ⟨r, more r held, rest⟩
  · obtain ⟨known, ended⟩ := kept.text e member
    have bytes := same e member
    refine ⟨?_, ?_⟩
    · rw [← known]
      apply readBytes_congr
      intro x low high
      exact bytes x low (by omega)
    · rw [← ended]
      exact bytes _ (by omega) (by omega)

theorem step_kept {next : Arena} {action : Arena.Action} (kept : Kept arena)
    (stepped : arena.step action = some next) : Kept next := by
  cases action with
  | make src block =>
    simp only [Arena.step, Option.bind_eq_bind, Option.bind_eq_some_iff, Option.guard_eq_some',
      Prod.exists] at stepped
    obtain ⟨a, mem, made, given, _, readable, result⟩ := stepped
    obtain rfl := Option.some.inj result
    rw [makeStringRef_eq] at given
    exact kept.concat given (by simpa using readable)
  | concat args block =>
    simp only [Arena.step, Option.bind_eq_bind, Option.bind_eq_some_iff, Option.guard_eq_some',
      Prod.exists] at stepped
    obtain ⟨a, mem, made, given, _, readable, result⟩ := stepped
    obtain rfl := Option.some.inj result
    exact kept.concat given readable
  | extend value args block =>
    simp only [Arena.step, Option.bind_eq_bind, Option.bind_eq_some_iff, Option.guard_eq_some',
      Prod.exists] at stepped
    obtain ⟨a, mem, made, given, _, readable, rest⟩ := stepped
    split at rest
    · rename_i empty
      obtain rfl := Option.some.inj rest
      rw [reallocConcatStringRef, if_pos empty] at given
      exact kept.concat given readable
    · rename_i some_
      simp only [Option.bind_eq_some_iff, Option.guard_eq_some'] at rest
      obtain ⟨_, there, result⟩ := rest
      obtain rfl := Option.some.inj result
      exact kept.extend some_ there given readable
  | bytes size block =>
    simp only [Arena.step, Option.bind_eq_bind, Option.bind_eq_some_iff, Prod.exists] at stepped
    obtain ⟨a, mem, p, given, result⟩ := stepped
    obtain rfl := Option.some.inj result
    obtain ⟨valid, keeps, _⟩ := alloc_spec kept.valid given
    exact kept.preserved valid (fun r old => List.mem_cons_of_mem _ old)
      (fun e member x low high => kept.same keeps member low high)
  | write x c =>
    simp only [Arena.step, Option.bind_eq_bind, Option.bind_eq_some_iff, Option.guard_eq_some'] at stepped
    obtain ⟨_, ⟨r, held, low, high, free⟩, result⟩ := stepped
    obtain rfl := Option.some.inj result
    refine kept.preserved (kept.valid.touched held fun y off => store_other _ c (by omega))
      (fun r old => old) fun e member y above below => ?_
    have off := kept.other kept.valid (fun r old => old) held member (free e member)
    unfold Region.lo at off
    exact store_other _ c (by omega)
  | elsewhere x c =>
    simp only [Arena.step, Option.bind_eq_bind, Option.bind_eq_some_iff, Option.guard_eq_some'] at stepped
    obtain ⟨_, outside, result⟩ := stepped
    obtain rfl := Option.some.inj result
    have same : ∀ b ∈ arena.state.allocator.retain, ∀ y, b.address ≤ y → y < b.end_ →
        store arena.state.mem x c y = arena.state.mem y := by
      intro b retained y low high
      have off := outside b retained
      exact store_other _ c (by omega)
    refine kept.preserved (kept.valid.framed same) (fun r old => old) fun e member y above below => ?_
    obtain ⟨r, held, at_, room⟩ := kept.placed e member
    have inside : r.lo ≤ y ∧ y < r.hi := by
      unfold Region.lo Region.hi
      omega
    obtain ⟨⟨b, retained, low, high⟩, _⟩ := kept.valid.layout.inner_region held inside.1 inside.2
    exact same b retained y low high

theorem reached_kept {blockSize isolationThreshold : Nat}
    (reached : arena.Reached blockSize isolationThreshold) : Kept arena := by
  obtain ⟨a, mem, actions, made, ran⟩ := reached
  have start : Kept ⟨⟨a, mem, []⟩, []⟩ := ⟨new_valid mem made, nofun, nofun, nofun⟩
  generalize (⟨⟨a, mem, []⟩, []⟩ : Arena) = first at ran start
  induction actions generalizing first with
  | nil =>
    obtain rfl := Option.some.inj ran
    exact start
  | cons action actions ih =>
    obtain ⟨next, stepped, ran⟩ := Option.bind_eq_some_iff.mp ran
    exact ih next ran (step_kept start stepped)

/-- Every string reads as the texts of its arguments did when it was made, with a zero byte
    behind it, whatever was made, extended and written since, also where the arguments were
    parts of strings of the allocator. No two of them share a byte. -/
theorem strings_stay {blockSize isolationThreshold : Nat}
    (reached : arena.Reached blockSize isolationThreshold) :
    (∀ e ∈ arena.strings, e.1.text arena.state.mem = e.2 ∧
      arena.state.mem (e.1.base + e.1.len) = 0 ∧ e.1.len < getAllocLength arena.state.mem e.1.base) ∧
    ∀ e ∈ arena.strings, ∀ f ∈ arena.strings, e ≠ f →
      e.1.base + e.1.len < f.1.base ∨ f.1.base + f.1.len < e.1.base := by
  have kept := reached_kept reached
  refine ⟨fun e member => ?_, fun e member f member' different => ?_⟩
  · obtain ⟨known, ended⟩ := kept.text e member
    obtain ⟨r, held, at_, room⟩ := kept.placed e member
    have stored := (kept.valid.stored r held).1
    rw [at_] at stored
    exact ⟨known, ended, stored ▸ room⟩
  · obtain ⟨r, held, at_, room⟩ := kept.placed f member'
    have apart := kept.other kept.valid (fun r old => old) held member
      (fun same => different (kept.once e member f member' (same.trans at_)))
    unfold Region.lo Region.hi at apart
    omega

end

def doubledActions : List Arena.Action :=
  [.elsewhere 100 97, .elsewhere 101 98, .elsewhere 102 99, .make ⟨100, 3⟩ 4096,
   .extend ⟨4136, 3⟩ [⟨4137, 2⟩] 4096, .concat [⟨4136, 2⟩, ⟨4137, 4⟩] 8192]

def doubledArena : Option Arena :=
  (Allocator.new 64 8).bind fun a => doubledActions.foldlM Arena.step ⟨⟨a, fun _ => 0, []⟩, []⟩

theorem strings_stay_doubled : ∃ arena : Arena, arena.Reached 64 8 ∧
    arena.strings.map Prod.snd = [lit "abbcbc", lit "abcbc"] ∧
    ∀ e ∈ arena.strings, e.1.text arena.state.mem = e.2 := by
  have known : doubledArena.any (fun arena =>
      arena.strings.map Prod.snd = [lit "abbcbc", lit "abcbc"]) = true := by decide +kernel
  obtain ⟨arena, ran, texts⟩ := (Option.any_eq_true _ _).mp known
  obtain ⟨a, made, ran⟩ := Option.bind_eq_some_iff.mp ran
  have reached : arena.Reached 64 8 := ⟨a, fun _ => 0, doubledActions, made, ran⟩
  exact ⟨arena, reached, of_decide_eq_true texts, fun e member => ((strings_stay reached).1 e member).1⟩

end Nghttp2Asio.BlockAllocator
