import Mathlib.Algebra.Group.Int.Defs
import Mathlib.Data.List.Pairwise
import Mathlib.Logic.Relation
import Nghttp2Asio.Library.FlatMemory

/-!
The block allocator of allocator.h on a flat memory. Addresses are numbers below 2^64.
The address that `new` returns is an argument of each call. A call whose size
arithmetic wraps, or for which `new` would return memory in use, has no result. The
allocator has a copy of the header of its head block; `Headed` says that it is in memory.
-/
namespace Nghttp2Asio.BlockAllocator
open FlatMemory

/-! The code. -/

def sizeofMemBlock : Nat := 32

def sizeofSizeT : Nat := 8

def sizeAdd (a b : Nat) : Option Nat := if a + b < 2 ^ 64 then some (a + b) else none

def sizeMul (a b : Nat) : Option Nat := if a * b < 2 ^ 64 then some (a * b) else none

def toSsizeT (a : Nat) : Option Int := if a < 2 ^ 63 then some a else none

/-- The difference of two addresses is signed. -/
def ptrDiff (a b : Nat) : Int :=
  let d : Nat := (a + 2 ^ 64 - b) % 2 ^ 64
  if d < 2 ^ 63 then d else (d : Int) - 2 ^ 64

/-- `(a + 0xf) & ~0xf` in 64 bits. -/
def roundUp (a : Nat) : Nat :=
  let x := (a + 0xf) % 2 ^ 64
  x - x % 16

/-- The buffer of a block. Its header is in front of it. -/
structure Block where
  begin_ : Nat
  end_ : Nat
  deriving DecidableEq, Repr

/-- `last` is read only of the block that is `head`. -/
structure MemBlock extends Block where
  last : Nat
  deriving DecidableEq, Repr

def Block.address (b : Block) : Nat := b.begin_ - sizeofMemBlock

def Block.Apart (b c : Block) : Prop := b.end_ ≤ c.address ∨ c.end_ ≤ b.address

instance (b c : Block) : Decidable (b.Apart c) := inferInstanceAs (Decidable (_ ∨ _))

structure Allocator where
  retain : List Block
  head : Option MemBlock
  blockSize : Nat
  isolationThreshold : Nat
  bounded : isolationThreshold ≤ blockSize

/-- The constructor asserts what its `min` makes sure of. -/
def Allocator.new (blockSize isolationThreshold : Nat) : Option Allocator :=
  if isolationThreshold ≤ blockSize then
    some ⟨[], none, blockSize, min blockSize isolationThreshold, Nat.min_le_left _ _⟩
  else none

def storeNext (mem : Memory) (block next : Nat) : Memory := storeWord mem block next 8
def storeBegin (mem : Memory) (block p : Nat) : Memory := storeWord mem (block + 8) p 8
def storeLast (mem : Memory) (block p : Nat) : Memory := storeWord mem (block + 16) p 8
def storeEnd (mem : Memory) (block p : Nat) : Memory := storeWord mem (block + 24) p 8

def Allocator.retainAddress (a : Allocator) : Nat := (a.retain.head?.map Block.address).getD 0

/-- `new` returns memory inside the address space that no block of this allocator uses. -/
def Allocator.Fresh (a : Allocator) (b : Block) : Prop :=
  b.end_ < 2 ^ 64 ∧ ∀ c ∈ a.retain, b.Apart c

instance (a : Allocator) (b : Block) : Decidable (a.Fresh b) := inferInstanceAs (Decidable (_ ∧ _))

def Allocator.allocMemBlock (a : Allocator) (mem : Memory) (size block : Nat) :
    Option (Allocator × Memory × MemBlock) :=
  (sizeAdd sizeofMemBlock size).bind fun total =>
    let b : Block := ⟨block + sizeofMemBlock, block + total⟩
    if a.Fresh b then
      let mem := storeNext mem block a.retainAddress
      let mem := storeEnd (storeLast (storeBegin mem block b.begin_) block b.begin_) block b.end_
      some ({ a with retain := b :: a.retain }, mem, { b with last := b.begin_ })
    else none

def Allocator.cut (a : Allocator) (mem : Memory) (mb : MemBlock) (size : Nat) :
    Allocator × Memory × Nat :=
  let res := mb.last + sizeofSizeT
  let mem := storeWord mem mb.last size 8
  let last := roundUp (res + size)
  ({ a with head := some { mb with last := last } }, storeLast mem mb.toBlock.address last, res)

def Allocator.alloc (a : Allocator) (mem : Memory) (size block : Nat) :
    Option (Allocator × Memory × Nat) :=
  (sizeAdd size sizeofSizeT).bind fun need =>
    if need ≥ a.isolationThreshold then
      let len := max 16 size
      (sizeAdd len sizeofSizeT).bind fun total =>
        (a.allocMemBlock mem total block).map fun (a, mem, mb) =>
          let mem := storeWord mem mb.begin_ len 8
          (a, storeLast mem mb.toBlock.address mb.end_, mb.begin_ + sizeofSizeT)
    else
      match a.head with
      | some mb =>
        (toSsizeT need).bind fun room =>
          if ptrDiff mb.end_ mb.last < room then
            (a.allocMemBlock mem a.blockSize block).map fun (a, mem, mb) => a.cut mem mb size
          else some (a.cut mem mb size)
      | none => (a.allocMemBlock mem a.blockSize block).map fun (a, mem, mb) => a.cut mem mb size

def getAllocLength (mem : Memory) (ptr : Nat) : Nat := loadWord mem (ptr - sizeofSizeT) 8

def Allocator.realloc (a : Allocator) (mem : Memory) (ptr size block : Nat) :
    Option (Allocator × Memory × Nat) :=
  if ptr = 0 then a.alloc mem size block
  else
    let alloclen := getAllocLength mem ptr
    if size ≤ alloclen then some (a, mem, ptr)
    else
      (sizeAdd size 1).bind fun more =>
        (sizeMul alloclen 2).bind fun twice =>
          (a.alloc mem (max more twice) block).map fun (a, mem, res) =>
            (a, copy mem ptr res alloclen, res)

/-! Addresses. -/

theorem roundUp_cases (x : Nat) (space : x < 2 ^ 64) :
    x ≤ roundUp x ∧ roundUp x < x + 16 ∨ roundUp x = 0 ∧ 2 ^ 64 ≤ x + 15 := by
  simp only [roundUp]
  omega

theorem roundUp_lt (x : Nat) : roundUp x < 256 ^ 8 := by
  simp only [roundUp]
  omega

theorem roundUp_room {x e : Nat} (inside : x ≤ e) (space : e < 2 ^ 64)
    (room : 0 < ptrDiff e (roundUp x)) : x ≤ roundUp x ∧ roundUp x ≤ e := by
  have rounded := roundUp_cases x (by omega)
  generalize roundUp x = l at *
  by_cases near : (e + 2 ^ 64 - l) % 2 ^ 64 < 2 ^ 63
  · rw [ptrDiff, if_pos near] at room
    omega
  · rw [ptrDiff, if_neg near] at room
    omega

theorem ptrDiff_room {e l n : Nat} (behind : l ≤ e) (space : e < 2 ^ 64)
    (room : (n : Int) ≤ ptrDiff e l) : l + n ≤ e := by
  by_cases near : (e + 2 ^ 64 - l) % 2 ^ 64 < 2 ^ 63
  · rw [ptrDiff, if_pos near] at room
    omega
  · rw [ptrDiff, if_neg near] at room
    omega

/-! The layout. -/

/-- What a call has returned: the pointer, how much was asked for and how much room was
    taken for it. -/
structure Region where
  ptr : Nat
  requested : Nat
  room : Nat
  deriving DecidableEq, Repr

def Region.lo (r : Region) : Nat := r.ptr - sizeofSizeT

def Region.hi (r : Region) : Nat := r.ptr + r.room

def Region.Apart (r q : Region) : Prop := r.hi ≤ q.lo ∨ q.hi ≤ r.lo

def Region.Inside (r : Region) (b : Block) : Prop :=
  b.begin_ + sizeofSizeT ≤ r.ptr ∧ r.hi ≤ b.end_

def Allocator.roomFor (a : Allocator) (size : Nat) : Nat :=
  if size + sizeofSizeT ≥ a.isolationThreshold then max 16 size else size

/-- In front of the bump pointer of a block that has room left is everything that was cut
    from it. -/
def Bump (regions : List Region) (mb : MemBlock) : Prop :=
  0 < ptrDiff mb.end_ mb.last → mb.begin_ ≤ mb.last ∧ mb.last ≤ mb.end_ ∧
    ∀ r ∈ regions, r.Inside mb.toBlock → r.hi ≤ mb.last

structure Layout (a : Allocator) (regions : List Region) : Prop where
  blocks : a.retain.Pairwise Block.Apart
  bounds : ∀ b ∈ a.retain, sizeofMemBlock ≤ b.begin_ ∧ b.begin_ ≤ b.end_ ∧ b.end_ < 2 ^ 64
  head : ∀ mb, a.head = some mb → mb.toBlock ∈ a.retain ∧ Bump regions mb
  inside : ∀ r ∈ regions, ∃ c ∈ a.retain, r.Inside c
  apart : regions.Pairwise Region.Apart

def Keeps (regions : List Region) (mem new : Memory) : Prop :=
  ∀ r ∈ regions, ∀ x, r.lo ≤ x → x < r.hi → new x = mem x

/-- Length words hold the room, which is enough. -/
def Stored (regions : List Region) (mem : Memory) : Prop :=
  ∀ r ∈ regions, getAllocLength mem r.ptr = r.room ∧ r.requested ≤ r.room

def Headed (a : Allocator) (mem : Memory) : Prop :=
  ∀ mb, a.head = some mb → loadWord mem (mb.toBlock.address + 16) 8 = mb.last ∧
    loadWord mem (mb.toBlock.address + 24) 8 = mb.end_

theorem Keeps.refl (regions : List Region) (mem : Memory) : Keeps regions mem mem :=
  fun _ _ _ _ _ => rfl

theorem Keeps.trans {regions : List Region} {mem mid new : Memory} (first : Keeps regions mem mid)
    (second : Keeps regions mid new) : Keeps regions mem new := by
  intro r member x low high
  rw [second r member x low high, first r member x low high]

instance : Std.Symm Block.Apart := ⟨fun _ _ apart => Or.symm apart⟩

instance : Std.Symm Region.Apart := ⟨fun _ _ apart => Or.symm apart⟩

section
variable {a : Allocator} {regions : List Region} {mem : Memory}

theorem Layout.ptr_bound (layout : Layout a regions) {r : Region} (member : r ∈ regions) :
    sizeofMemBlock + sizeofSizeT ≤ r.ptr := by
  obtain ⟨c, retained, inside⟩ := layout.inside r member
  have bounds := layout.bounds c retained
  unfold Region.Inside at inside
  omega

theorem Layout.other_block (layout : Layout a regions) {r : Region} (member : r ∈ regions) {b : Block}
    (retained : b ∈ a.retain) (other : ¬ r.Inside b) : r.hi ≤ b.address ∨ b.end_ ≤ r.lo := by
  obtain ⟨c, own, inside⟩ := layout.inside r member
  have different : c ≠ b := fun same => other (same ▸ inside)
  have apart := layout.blocks.forall own retained different
  have front : c.address ≤ c.begin_ := Nat.sub_le _ _
  unfold Region.Inside at inside
  unfold Block.Apart at apart
  unfold Region.lo
  omega

theorem Layout.header (layout : Layout a regions) {r : Region} (member : r ∈ regions) {b : Block}
    (retained : b ∈ a.retain) : r.hi ≤ b.address ∨ b.begin_ ≤ r.lo := by
  have bounds := layout.bounds b retained
  by_cases own : r.Inside b
  · unfold Region.Inside at own
    unfold Region.lo
    omega
  · have apart := layout.other_block member retained own
    omega

theorem Headed.kept {b : Allocator} {new : Memory} (headed : Headed a mem) (head : b.head = a.head)
    (same : ∀ mb, a.head = some mb → ∀ x, mb.toBlock.address ≤ x → x < mb.toBlock.address + 32 →
      new x = mem x) : Headed b new := by
  intro mb current
  rw [head] at current
  have header := same mb current
  obtain ⟨last, end_eq⟩ := headed mb current
  refine ⟨?_, ?_⟩
  · rw [← last]
    exact loadWord_congr fun x low high => header x (by omega) (by omega)
  · rw [← end_eq]
    exact loadWord_congr fun x low high => header x (by omega) (by omega)

theorem Headed.touched {new : Memory} {r : Region} (layout : Layout a regions) (member : r ∈ regions)
    (same : ∀ x, x < r.ptr ∨ r.hi ≤ x → new x = mem x) (headed : Headed a mem) : Headed a new := by
  refine headed.kept rfl fun mb current x low high => same x ?_
  have retained := (layout.head mb current).1
  have apart := layout.header member retained
  have address : mb.toBlock.address + sizeofMemBlock = mb.begin_ :=
    Nat.sub_add_cancel (layout.bounds mb.toBlock retained).1
  have header : sizeofMemBlock = 32 := rfl
  unfold Region.lo at apart
  omega

theorem Layout.storeLast_keeps (layout : Layout a regions) {b : Block} (retained : b ∈ a.retain)
    (mem : Memory) (p : Nat) : Keeps regions mem (storeLast mem b.address p) := by
  intro r member x low high
  have apart := layout.header member retained
  have bounds := (layout.bounds b retained).1
  have address : b.address + sizeofMemBlock = b.begin_ := Nat.sub_add_cancel bounds
  have size : sizeofMemBlock = 32 := rfl
  exact storeWord_outside _ _ _ _ (by omega)

theorem sizeAdd_some {x y z : Nat} (added : sizeAdd x y = some z) : z = x + y ∧ x + y < 2 ^ 64 := by
  unfold sizeAdd at added
  split at added
  · exact ⟨(Option.some.inj added).symm, ‹_›⟩
  · cases added

theorem allocMemBlock_cases {b : Allocator} {new : Memory} {size block : Nat} {mb : MemBlock}
    (given : a.allocMemBlock mem size block = some (b, new, mb)) :
    let begin_ := block + sizeofMemBlock
    let end_ := block + (sizeofMemBlock + size)
    a.Fresh ⟨begin_, end_⟩ ∧ b = { a with retain := ⟨begin_, end_⟩ :: a.retain } ∧
      new = storeEnd (storeLast (storeBegin (storeNext mem block a.retainAddress) block begin_)
        block begin_) block end_ ∧ mb = ⟨⟨begin_, end_⟩, begin_⟩ := by
  obtain ⟨total, added, rest⟩ := Option.bind_eq_some_iff.mp given
  rw [(sizeAdd_some added).1] at rest
  simp only at rest
  split at rest
  · rename_i fresh
    simp only [Option.some.injEq, Prod.mk.injEq] at rest
    exact ⟨fresh, rest.1.symm, rest.2.1.symm, rest.2.2.symm⟩
  · cases rest

theorem header_outside (mem : Memory) (block next begin_ end_ : Nat) {x : Nat}
    (outside : x < block ∨ block + sizeofMemBlock ≤ x) :
    storeEnd (storeLast (storeBegin (storeNext mem block next) block begin_) block begin_) block end_ x =
      mem x := by
  have header : sizeofMemBlock = 32 := rfl
  simp only [storeNext, storeBegin, storeLast, storeEnd]
  rw [storeWord_outside _ _ _ _ (by omega), storeWord_outside _ _ _ _ (by omega),
    storeWord_outside _ _ _ _ (by omega), storeWord_outside _ _ _ _ (by omega)]

theorem allocMemBlock_spec {b : Allocator} {new : Memory} {size block : Nat} {mb : MemBlock}
    (layout : Layout a regions) (given : a.allocMemBlock mem size block = some (b, new, mb)) :
    b.retain = mb.toBlock :: a.retain ∧ b.head = a.head ∧ mb.last = mb.begin_ ∧
      mb.end_ = mb.begin_ + size ∧ Layout b regions ∧ Keeps regions mem new ∧
      ∀ r ∈ regions, ¬ r.Inside mb.toBlock := by
  obtain ⟨fresh, rfl, rfl, rfl⟩ := allocMemBlock_cases given
  have header : sizeofMemBlock = 32 := rfl
  have address : Block.address ⟨block + sizeofMemBlock, block + (sizeofMemBlock + size)⟩ = block :=
    Nat.add_sub_cancel _ _
  have away : ∀ r ∈ regions, r.hi ≤ block ∨ block + (sizeofMemBlock + size) ≤ r.lo := by
    intro r member
    obtain ⟨c, own, inside⟩ := layout.inside r member
    have apart := fresh.2 c own
    have front : c.address ≤ c.begin_ := Nat.sub_le _ _
    unfold Region.Inside at inside
    unfold Block.Apart at apart
    rw [address] at apart
    simp only [Region.lo] at apart ⊢
    omega
  refine ⟨rfl, rfl, rfl, by simp only; omega, ⟨?_, ?_, ?_, ?_, layout.apart⟩, ?_, ?_⟩
  · exact List.pairwise_cons.mpr ⟨fresh.2, layout.blocks⟩
  · intro c member
    rcases List.mem_cons.mp member with rfl | old
    · have space := fresh.1
      simp only at space ⊢
      omega
    · exact layout.bounds c old
  · intro h current
    exact ⟨List.mem_cons_of_mem _ (layout.head h current).1, (layout.head h current).2⟩
  · intro r member
    obtain ⟨c, own, inside⟩ := layout.inside r member
    exact ⟨c, List.mem_cons_of_mem _ own, inside⟩
  · intro r member x low high
    have apart := away r member
    exact header_outside _ _ _ _ _ (by omega)
  · intro r member inside
    have apart := away r member
    have word : sizeofSizeT = 8 := rfl
    simp only [Region.Inside, Region.lo, Region.hi] at apart inside
    omega

theorem allocMemBlock_header {b : Allocator} {new : Memory} {size block : Nat} {mb : MemBlock}
    (layout : Layout a regions) (given : a.allocMemBlock mem size block = some (b, new, mb)) :
    loadWord new (mb.toBlock.address + 24) 8 = mb.end_ ∧ (Headed a mem → Headed b new) := by
  obtain ⟨fresh, rfl, rfl, rfl⟩ := allocMemBlock_cases given
  have header : sizeofMemBlock = 32 := rfl
  have address : Block.address ⟨block + sizeofMemBlock, block + (sizeofMemBlock + size)⟩ = block :=
    Nat.add_sub_cancel _ _
  refine ⟨?_, fun headed => headed.kept rfl fun mb current x low high => ?_⟩
  · rw [address]
    exact loadWord_storeWord _ _ fresh.1
  · have retained := (layout.head mb current).1
    have apart := fresh.2 mb.toBlock retained
    have bounds := layout.bounds mb.toBlock retained
    have front : mb.toBlock.address + sizeofMemBlock = mb.begin_ := Nat.sub_add_cancel bounds.1
    simp only [Block.Apart, address] at apart
    exact header_outside _ _ _ _ _ (by omega)

theorem Layout.add (layout : Layout a regions) {b : Allocator} {r : Region} (chain : b.retain = a.retain)
    (inside : ∃ c ∈ a.retain, r.Inside c) (apart : ∀ q ∈ regions, r.Apart q)
    (head : ∀ mb, b.head = some mb → mb.toBlock ∈ a.retain ∧ Bump (r :: regions) mb) :
    Layout b (r :: regions) where
  blocks := chain ▸ layout.blocks
  bounds := chain ▸ layout.bounds
  head := chain ▸ head
  inside := by
    intro q member
    rw [chain]
    rcases List.mem_cons.mp member with rfl | old
    · exact inside
    · exact layout.inside q old
  apart := List.pairwise_cons.mpr ⟨apart, layout.apart⟩

theorem storeLength_keeps {r : Region} (apart : ∀ q ∈ regions, r.Apart q) (word : sizeofSizeT ≤ r.ptr)
    (mem : Memory) (len : Nat) : Keeps regions mem (storeWord mem r.lo len 8) := by
  intro q member x low high
  have away := apart q member
  have size : sizeofSizeT = 8 := rfl
  unfold Region.Apart Region.hi at away
  unfold Region.hi at high
  unfold Region.lo at away low ⊢
  exact storeWord_outside _ _ _ _ (by omega)

theorem Layout.length_written (layout : Layout a regions) {b : Block} (retained : b ∈ a.retain)
    {r : Region} (inside : r.Inside b) (apart : ∀ q ∈ regions, r.Apart q) (mem : Memory) (p : Nat) :
    Keeps regions mem (storeLast (storeWord mem r.lo r.room 8) b.address p) ∧
      getAllocLength (storeLast (storeWord mem r.lo r.room 8) b.address p) r.ptr = r.room := by
  have word : sizeofSizeT = 8 := rfl
  have header : sizeofMemBlock = 32 := rfl
  have bounds := layout.bounds b retained
  have address : b.address + sizeofMemBlock = b.begin_ := Nat.sub_add_cancel bounds.1
  simp only [Region.Inside, Region.hi] at inside
  refine ⟨?_, ?_⟩
  · have stored := storeLength_keeps apart (by omega) mem r.room
    exact stored.trans (layout.storeLast_keeps retained _ _)
  · have small : r.room < 256 ^ 8 := by omega
    unfold getAllocLength
    rw [loadWord_congr, ← Region.lo, loadWord_storeWord mem r.lo small]
    intro x low high
    exact storeWord_outside _ _ _ _ (by omega)

/-- What a successful request leaves behind. -/
structure Granted (regions : List Region) (mem : Memory) (b : Allocator) (new : Memory)
    (r : Region) : Prop where
  layout : Layout b (r :: regions)
  keeps : Keeps regions mem new
  length : getAllocLength new r.ptr = r.room
  headed : Headed b new

theorem Granted.after {b : Allocator} {mid new : Memory} {r : Region} (kept : Keeps regions mem mid)
    (granted : Granted regions mid b new r) : Granted regions mem b new r :=
  ⟨granted.layout, kept.trans granted.keeps, granted.length, granted.headed⟩

theorem cut_granted (layout : Layout a regions) (mem : Memory) {mb : MemBlock} (size requested : Nat)
    (retained : mb.toBlock ∈ a.retain) (start : mb.begin_ ≤ mb.last)
    (room : mb.last + (size + sizeofSizeT) ≤ mb.end_)
    (before : ∀ r ∈ regions, r.Inside mb.toBlock → r.hi ≤ mb.last)
    (header_end : loadWord mem (mb.toBlock.address + 24) 8 = mb.end_) :
    Granted regions mem (a.cut mem mb size).1 (a.cut mem mb size).2.1
      ⟨(a.cut mem mb size).2.2, requested, size⟩ := by
  have word : sizeofSizeT = 8 := rfl
  have header : sizeofMemBlock = 32 := rfl
  have bounds := layout.bounds mb.toBlock retained
  have address : mb.toBlock.address + sizeofMemBlock = mb.begin_ := Nat.sub_add_cancel bounds.1
  have apart : ∀ q ∈ regions,
      Region.Apart ⟨mb.last + sizeofSizeT, requested, size⟩ q := by
    intro q member
    simp only [Region.Apart, Region.hi, Region.lo]
    by_cases own : q.Inside mb.toBlock
    · have behind := before q member own
      unfold Region.hi at behind
      omega
    · have away := layout.other_block member retained own
      simp only [Region.hi, Region.lo] at away
      omega
  have rounding := roundUp_room (x := mb.last + sizeofSizeT + size) (e := mb.end_) (by omega) bounds.2.2
  have inside : Region.Inside ⟨mb.last + sizeofSizeT, requested, size⟩ mb.toBlock := by
    simp only [Region.Inside, Region.hi]
    omega
  have written := layout.length_written retained inside apart mem
    (roundUp (mb.last + sizeofSizeT + size))
  rw [show Region.lo ⟨mb.last + sizeofSizeT, requested, size⟩ = mb.last from
    Nat.add_sub_cancel _ _] at written
  refine ⟨layout.add rfl ⟨mb.toBlock, retained, inside⟩ apart ?_, written.1, written.2, ?_⟩
  · rintro _ ⟨⟩
    refine ⟨retained, fun left => ?_⟩
    have rounded := rounding left
    simp only
    refine ⟨by omega, rounded.2, fun q member own => ?_⟩
    rcases List.mem_cons.mp member with rfl | old
    · exact rounded.1
    · have behind := before q old own
      omega
  · rintro _ ⟨⟩
    refine ⟨loadWord_storeWord _ _ (roundUp_lt _), ?_⟩
    rw [← header_end]
    apply loadWord_congr
    intro x low high
    simp only [Allocator.cut, storeLast] at low high ⊢
    rw [storeWord_outside _ _ _ _ (by omega), storeWord_outside _ _ _ _ (by omega)]

theorem isolated_granted {b : Allocator} {new : Memory} {mb : MemBlock} {len requested : Nat} {block : Nat}
    (layout : Layout a regions) (headed : Headed a mem)
    (given : a.allocMemBlock mem (len + sizeofSizeT) block = some (b, new, mb)) :
    Granted regions mem b (storeLast (storeWord new mb.begin_ len 8) mb.toBlock.address mb.end_)
      ⟨mb.begin_ + sizeofSizeT, requested, len⟩ := by
  obtain ⟨chain, head, _, end_eq, next, kept, other⟩ := allocMemBlock_spec layout given
  have word : sizeofSizeT = 8 := rfl
  have header : sizeofMemBlock = 32 := rfl
  have retained : mb.toBlock ∈ b.retain := by simp [chain]
  have bounds := next.bounds mb.toBlock retained
  have address : mb.toBlock.address + sizeofMemBlock = mb.begin_ := Nat.sub_add_cancel bounds.1
  have apart : ∀ q ∈ regions,
      Region.Apart ⟨mb.begin_ + sizeofSizeT, requested, len⟩ q := by
    intro q member
    have away := next.other_block member retained (other q member)
    simp only [Region.Apart, Region.hi, Region.lo] at away ⊢
    omega
  -- the head was there before the new block
  have older : ∀ h, b.head = some h → mb.toBlock.Apart h.toBlock := by
    intro h current
    have h_retained := (layout.head h (head ▸ current)).1
    exact (List.pairwise_cons.mp (chain ▸ next.blocks)).1 h.toBlock h_retained
  have inside : Region.Inside ⟨mb.begin_ + sizeofSizeT, requested, len⟩ mb.toBlock := by
    simp only [Region.Inside, Region.hi]
    omega
  have written := next.length_written retained inside apart new mb.end_
  rw [show Region.lo ⟨mb.begin_ + sizeofSizeT, requested, len⟩ = mb.begin_ from
    Nat.add_sub_cancel _ _] at written
  refine ⟨next.add rfl ⟨mb.toBlock, retained, inside⟩ apart ?_, kept.trans written.1, written.2, ?_⟩
  · intro h current
    obtain ⟨h_retained, bump⟩ := next.head h current
    refine ⟨h_retained, fun left => ?_⟩
    obtain ⟨low, high, before⟩ := bump left
    refine ⟨low, high, fun q member own => ?_⟩
    rcases List.mem_cons.mp member with rfl | old
    · have separate := older h current
      have front : h.toBlock.address ≤ h.begin_ := Nat.sub_le _ _
      simp only [Block.Apart] at separate
      simp only [Region.Inside, Region.hi] at own
      omega
    · exact before q old own
  · refine ((allocMemBlock_header layout given).2 headed).kept rfl fun h current x low high => ?_
    have separate := older h current
    have h_bounds := next.bounds h.toBlock (next.head h current).1
    have front : h.toBlock.address + sizeofMemBlock = h.begin_ := Nat.sub_add_cancel h_bounds.1
    unfold Block.Apart at separate
    simp only [storeLast]
    rw [storeWord_outside _ _ _ _ (by omega), storeWord_outside _ _ _ _ (by omega)]

theorem shared_granted {b c : Allocator} {mid new : Memory} {mb : MemBlock} {size requested block p : Nat}
    (layout : Layout a regions) (shared : size + sizeofSizeT < a.isolationThreshold)
    (given : a.allocMemBlock mem a.blockSize block = some (b, mid, mb))
    (result : b.cut mid mb size = (c, new, p)) : Granted regions mem c new ⟨p, requested, size⟩ := by
  obtain ⟨chain, _, last, end_eq, next, kept, other⟩ := allocMemBlock_spec layout given
  have bounded := a.bounded
  have granted := cut_granted next mid size requested (by simp [chain]) (Nat.le_of_eq last.symm)
    (by omega) (fun r member inside => absurd inside (other r member))
    (allocMemBlock_header layout given).1
  rw [result] at granted
  exact granted.after kept

theorem alloc_granted {b : Allocator} {new : Memory} {size block p : Nat} (requested : Nat)
    (layout : Layout a regions) (headed : Headed a mem)
    (given : a.alloc mem size block = some (b, new, p)) :
    Granted regions mem b new ⟨p, requested, a.roomFor size⟩ := by
  obtain ⟨need, added, rest⟩ := Option.bind_eq_some_iff.mp given
  rw [(sizeAdd_some added).1] at rest
  unfold Allocator.roomFor
  by_cases isolated : size + sizeofSizeT ≥ a.isolationThreshold
  · rw [if_pos isolated] at rest ⊢
    obtain ⟨total, total_eq, taken⟩ := Option.bind_eq_some_iff.mp rest
    rw [(sizeAdd_some total_eq).1] at taken
    obtain ⟨⟨c, mid, mb⟩, found, result⟩ := Option.map_eq_some_iff.mp taken
    simp only [Prod.mk.injEq] at result
    obtain ⟨rfl, rfl, rfl⟩ := result
    exact isolated_granted layout headed found
  · rw [if_neg isolated] at rest ⊢
    have shared := Nat.lt_of_not_le isolated
    cases current : a.head with
    | none =>
      simp only [current] at rest
      obtain ⟨⟨c, mid, mb⟩, found, result⟩ := Option.map_eq_some_iff.mp rest
      exact shared_granted layout shared found result
    | some mb =>
      simp only [current] at rest
      obtain ⟨room, cast, chosen⟩ := Option.bind_eq_some_iff.mp rest
      split at chosen
      · obtain ⟨⟨c, mid, mb⟩, found, result⟩ := Option.map_eq_some_iff.mp chosen
        exact shared_granted layout shared found result
      · -- the signed comparison says that the block has room
        rename_i fits
        have room_eq : ((size + sizeofSizeT : Nat) : Int) = room := by
          unfold toSsizeT at cast
          split at cast
          · exact Option.some.inj cast
          · cases cast
        have word : sizeofSizeT = 8 := rfl
        obtain ⟨retained, bump⟩ := layout.head mb current
        obtain ⟨low, high, before⟩ := bump (by omega)
        have space := (layout.bounds mb.toBlock retained).2.2
        have granted := cut_granted layout mem size requested retained low
          (ptrDiff_room high space (n := size + sizeofSizeT) (by omega)) before (headed mb current).2
        rw [Option.some.inj chosen] at granted
        exact granted

/-! Runs. -/

theorem roomFor_le (a : Allocator) (size : Nat) : size ≤ a.roomFor size := by
  unfold Allocator.roomFor
  split
  · exact Nat.le_max_right _ _
  · exact Nat.le_refl _

theorem Keeps.stored (layout : Layout a regions) {new : Memory} (kept : Keeps regions mem new)
    (stored : Stored regions mem) : Stored regions new := by
  intro r member
  have word : sizeofSizeT = 8 := rfl
  have bound := layout.ptr_bound member
  obtain ⟨length, enough⟩ := stored r member
  refine ⟨?_, enough⟩
  rw [← length]
  apply loadWord_congr
  intro x low high
  exact kept r member x low (by unfold Region.hi; omega)

theorem Granted.stored {b : Allocator} {new : Memory} {r : Region} (layout : Layout a regions)
    (granted : Granted regions mem b new r) (enough : r.requested ≤ r.room)
    (stored : Stored regions mem) : Stored (r :: regions) new := by
  intro q member
  rcases List.mem_cons.mp member with rfl | old
  · exact ⟨granted.length, enough⟩
  · exact granted.keeps.stored layout stored q old

theorem Stored.touched (layout : Layout a regions) {new : Memory} {r : Region} (member : r ∈ regions)
    (same : ∀ x, x < r.ptr ∨ r.hi ≤ x → new x = mem x) (stored : Stored regions mem) :
    Stored regions new := by
  intro q other
  have word : sizeofSizeT = 8 := rfl
  have bound := layout.ptr_bound other
  have bound' := layout.ptr_bound member
  obtain ⟨length, enough⟩ := stored q other
  refine ⟨?_, enough⟩
  rw [← length]
  apply loadWord_congr
  intro x low high
  apply same
  by_cases own : q = r
  · subst own
    omega
  · have apart := layout.apart.forall other member own
    simp only [Region.Apart, Region.hi, Region.lo] at apart
    unfold Region.hi
    omega

theorem sizeMul_some {x y z : Nat} (multiplied : sizeMul x y = some z) : z = x * y := by
  unfold sizeMul at multiplied
  split at multiplied
  · exact (Option.some.inj multiplied).symm
  · cases multiplied

def reallocSize (mem : Memory) (ptr size : Nat) : Nat :=
  if ptr = 0 then size else max (size + 1) (getAllocLength mem ptr * 2)

theorem realloc_cases {b : Allocator} {new : Memory} {ptr size block p : Nat}
    (given : a.realloc mem ptr size block = some (b, new, p)) :
    (ptr = 0 ∧ a.alloc mem size block = some (b, new, p)) ∨
    (ptr ≠ 0 ∧ size ≤ getAllocLength mem ptr ∧ b = a ∧ new = mem ∧ p = ptr) ∨
    (ptr ≠ 0 ∧ getAllocLength mem ptr < size ∧ ∃ mid,
      a.alloc mem (reallocSize mem ptr size) block = some (b, mid, p) ∧
      new = copy mid ptr p (getAllocLength mem ptr)) := by
  unfold Allocator.realloc at given
  by_cases null : ptr = 0
  · rw [if_pos null] at given
    exact Or.inl ⟨null, given⟩
  · rw [if_neg null] at given
    by_cases enough : size ≤ getAllocLength mem ptr
    · simp only [enough, ↓reduceIte, Option.some.injEq, Prod.mk.injEq] at given
      obtain ⟨rfl, rfl, rfl⟩ := given
      exact Or.inr (Or.inl ⟨null, enough, rfl, rfl, rfl⟩)
    · simp only [enough, ↓reduceIte] at given
      obtain ⟨more, added, rest⟩ := Option.bind_eq_some_iff.mp given
      obtain ⟨twice, doubled, last⟩ := Option.bind_eq_some_iff.mp rest
      obtain ⟨⟨c, mid, q⟩, taken, result⟩ := Option.map_eq_some_iff.mp last
      simp only [Prod.mk.injEq] at result
      obtain ⟨rfl, rfl, rfl⟩ := result
      have size_eq : max more twice = reallocSize mem ptr size := by
        rw [(sizeAdd_some added).1, sizeMul_some doubled, reallocSize, if_neg null]
      rw [size_eq] at taken
      exact Or.inr (Or.inr ⟨null, Nat.lt_of_not_le enough, mid, taken, rfl⟩)

end

structure State where
  allocator : Allocator
  mem : Memory
  regions : List Region

def State.Live (s : State) (ptr : Nat) : Prop := ptr = 0 ∨ ∃ r ∈ s.regions, r.ptr = ptr

/-- What the user holds after a call; `realloc` may return the pointer it was given. -/
def State.afterAlloc (s : State) (b : Allocator) (new : Memory) (p size : Nat) : State :=
  ⟨b, new, ⟨p, size, s.allocator.roomFor size⟩ :: s.regions⟩

def State.afterRealloc (s : State) (b : Allocator) (new : Memory) (ptr p size : Nat) : State :=
  ⟨b, new, if p = ptr then s.regions
    else ⟨p, size, s.allocator.roomFor (reallocSize s.mem ptr size)⟩ :: s.regions⟩

/-- Calls with any sizes and any answers of `new`, and writes of the user into what it
    holds. -/
inductive Step : State → State → Prop where
  | alloc {s : State} {b : Allocator} {new : Memory} {size block p : Nat}
      (given : s.allocator.alloc s.mem size block = some (b, new, p)) :
      Step s (s.afterAlloc b new p size)
  | realloc {s : State} {b : Allocator} {new : Memory} {ptr size block p : Nat} (live : s.Live ptr)
      (given : s.allocator.realloc s.mem ptr size block = some (b, new, p)) :
      Step s (s.afterRealloc b new ptr p size)
  | write {s : State} {r : Region} {x : Nat} (c : UInt8) (held : r ∈ s.regions) (low : r.ptr ≤ x)
      (high : x < r.hi) : Step s ⟨s.allocator, store s.mem x c, s.regions⟩

structure Valid (s : State) : Prop where
  layout : Layout s.allocator s.regions
  stored : Stored s.regions s.mem
  headed : Headed s.allocator s.mem

variable {s : State} {b : Allocator} {new : Memory} {ptr size block p : Nat}

theorem alloc_spec (valid : Valid s) (given : s.allocator.alloc s.mem size block = some (b, new, p)) :
    Valid (s.afterAlloc b new p size) ∧ Keeps s.regions s.mem new ∧ size ≤ getAllocLength new p := by
  have granted := alloc_granted size valid.layout valid.headed given
  have enough := roomFor_le s.allocator size
  refine ⟨⟨granted.layout, granted.stored valid.layout enough valid.stored, granted.headed⟩,
    granted.keeps, ?_⟩
  rw [granted.length]
  exact enough

theorem moved_spec {mid : Memory} {r q : Region} (valid : Valid s) (held : q ∈ s.regions)
    (granted : Granted s.regions s.mem b mid r) (enough : r.requested ≤ r.room)
    (fits : q.room ≤ r.room) :
    Valid ⟨b, copy mid q.ptr r.ptr q.room, r :: s.regions⟩ ∧
      Keeps s.regions s.mem (copy mid q.ptr r.ptr q.room) ∧
      ∀ i < q.room, copy mid q.ptr r.ptr q.room (r.ptr + i) = s.mem (q.ptr + i) := by
  have word : sizeofSizeT = 8 := rfl
  have apart : ∀ o ∈ s.regions, r.Apart o := (List.pairwise_cons.mp granted.layout.apart).1
  have bound := granted.layout.ptr_bound (r := r) (by simp)
  have kept : Keeps s.regions mid (copy mid q.ptr r.ptr q.room) := by
    intro o member x low high
    have away := apart o member
    simp only [Region.Apart, Region.hi, Region.lo] at away low high
    exact copy_outside _ _ _ _ (by omega)
  have outside : ∀ x, x < r.ptr ∨ r.hi ≤ x → copy mid q.ptr r.ptr q.room x = mid x := by
    intro x outside
    unfold Region.hi at outside
    exact copy_outside _ _ _ _ (by omega)
  have stored := granted.stored valid.layout enough valid.stored
  refine ⟨⟨granted.layout, stored.touched granted.layout List.mem_cons_self outside,
    granted.headed.touched granted.layout List.mem_cons_self outside⟩, granted.keeps.trans kept, ?_⟩
  · intro i inside
    have away := apart q held
    simp only [Region.Apart, Region.hi, Region.lo] at away
    rw [copy_content mid (by omega) i inside]
    exact granted.keeps q held _ (by unfold Region.lo; omega) (by unfold Region.hi; omega)

theorem realloc_spec (valid : Valid s) (live : s.Live ptr)
    (given : s.allocator.realloc s.mem ptr size block = some (b, new, p)) :
    Valid (s.afterRealloc b new ptr p size) ∧ Keeps s.regions s.mem new ∧
      size ≤ getAllocLength new p ∧
      (ptr ≠ 0 → ∀ i < getAllocLength s.mem ptr, new (p + i) = s.mem (ptr + i)) := by
  have header : sizeofMemBlock = 32 := rfl
  have word : sizeofSizeT = 8 := rfl
  unfold State.afterRealloc
  obtain ⟨null, taken⟩ | ⟨some_ptr, enough, rfl, rfl, rfl⟩ | ⟨some_ptr, short, mid, taken, copied⟩ :=
    realloc_cases given
  · subst null
    obtain ⟨next, kept, length⟩ := alloc_spec valid taken
    have positive := next.layout.ptr_bound List.mem_cons_self
    simp only at positive
    rw [if_neg (by omega), reallocSize, if_pos rfl]
    exact ⟨next, kept, length, fun some_ptr => absurd rfl some_ptr⟩
  · rw [if_pos rfl]
    exact ⟨valid, Keeps.refl _ _, enough, fun _ _ _ => rfl⟩
  · obtain ⟨q, held, rfl⟩ := live.resolve_left some_ptr
    have length := (valid.stored q held).1
    rw [length] at copied
    subst copied
    have granted := alloc_granted size valid.layout valid.headed taken
    have grown := roomFor_le s.allocator (reallocSize s.mem q.ptr size)
    have larger : size + 1 ≤ reallocSize s.mem q.ptr size ∧
        q.room * 2 ≤ reallocSize s.mem q.ptr size := by
      rw [reallocSize, if_neg some_ptr, length]
      exact ⟨Nat.le_max_left _ _, Nat.le_max_right _ _⟩
    have away := (List.pairwise_cons.mp granted.layout.apart).1 q held
    simp only [Region.Apart, Region.hi, Region.lo] at away
    have positive := valid.layout.ptr_bound held
    rw [length, if_neg (by omega)]
    have enough : size ≤ s.allocator.roomFor (reallocSize s.mem q.ptr size) := by omega
    have fits : q.room ≤ s.allocator.roomFor (reallocSize s.mem q.ptr size) := by omega
    obtain ⟨next, kept, same⟩ := moved_spec valid held granted enough fits
    refine ⟨next, kept, ?_, fun _ => same⟩
    have stored := (next.stored _ List.mem_cons_self).1
    rw [stored]
    exact enough

theorem step_valid {t : State} (valid : Valid s) (step : Step s t) : Valid t := by
  cases step with
  | alloc given => exact (alloc_spec valid given).1
  | realloc live given => exact (realloc_spec valid live given).1
  | @write r y c held low high =>
    have same : ∀ x, x < r.ptr ∨ r.hi ≤ x → store s.mem y c x = s.mem x :=
      fun x outside => store_other s.mem c (by omega)
    exact ⟨valid.layout, valid.stored.touched valid.layout held same,
      valid.headed.touched valid.layout held same⟩

theorem new_valid {blockSize isolationThreshold : Nat} {a : Allocator} (mem : Memory)
    (made : Allocator.new blockSize isolationThreshold = some a) : Valid ⟨a, mem, []⟩ := by
  unfold Allocator.new at made
  split at made
  · obtain rfl := Option.some.inj made
    exact ⟨⟨.nil, by simp, by simp, by simp, .nil⟩, by simp [Stored], by simp [Headed]⟩
  · cases made

theorem run_valid {t : State} (valid : Valid s) (run : Relation.ReflTransGen Step s t) : Valid t := by
  induction run with
  | refl => exact valid
  | tail _ step ih => exact step_valid ih step

/-! Calls return. -/

def Allocator.blockFor (a : Allocator) (size : Nat) : Nat :=
  if size + sizeofSizeT ≥ a.isolationThreshold then max 16 size + sizeofSizeT else a.blockSize

/-- No size wraps, and what is compared with a difference of addresses has a sign bit left. -/
def Allocator.Fits (a : Allocator) (size : Nat) : Prop :=
  sizeofMemBlock + a.blockFor size < 2 ^ 64 ∧
    (size + sizeofSizeT < a.isolationThreshold → size + sizeofSizeT < 2 ^ 63)

def Allocator.Served (a : Allocator) (size block : Nat) : Prop :=
  a.Fresh ⟨block + sizeofMemBlock, block + (sizeofMemBlock + a.blockFor size)⟩

theorem sizeAdd_fits {x y : Nat} (small : x + y < 2 ^ 64) : sizeAdd x y = some (x + y) := by
  rw [sizeAdd, if_pos small]

theorem fits_small {a : Allocator} {size : Nat} (fits : a.Fits size) : size < 2 ^ 64 := by
  obtain ⟨small, signed⟩ := fits
  unfold Allocator.blockFor at small
  split at small
  · have long := Nat.le_max_right 16 size
    omega
  · omega

theorem allocMemBlock_returns (a : Allocator) (mem : Memory) {size block : Nat}
    (small : sizeofMemBlock + size < 2 ^ 64)
    (fresh : a.Fresh ⟨block + sizeofMemBlock, block + (sizeofMemBlock + size)⟩) :
    ∃ result, a.allocMemBlock mem size block = some result := by
  rw [Allocator.allocMemBlock, sizeAdd_fits small, Option.bind_some]
  simp only
  rw [if_pos fresh]
  exact ⟨_, rfl⟩

theorem alloc_returns (a : Allocator) (mem : Memory) {size block : Nat} (fits : a.Fits size)
    (served : a.Served size block) : ∃ result, a.alloc mem size block = some result := by
  obtain ⟨small, signed⟩ := fits
  obtain ⟨result, taken⟩ := allocMemBlock_returns a mem small served
  have bounded := a.bounded
  have header : sizeofMemBlock = 32 := rfl
  unfold Allocator.blockFor at small taken
  by_cases isolated : size + sizeofSizeT ≥ a.isolationThreshold
  · rw [if_pos isolated] at small taken
    have long := Nat.le_max_right 16 size
    rw [Allocator.alloc, sizeAdd_fits (by omega), Option.bind_some, if_pos isolated]
    simp only
    rw [sizeAdd_fits (by omega), Option.bind_some, taken]
    exact ⟨_, rfl⟩
  · rw [if_neg isolated] at small taken
    have shared := Nat.lt_of_not_le isolated
    rw [Allocator.alloc, sizeAdd_fits (by omega), Option.bind_some, if_neg isolated]
    cases a.head with
    | none =>
      simp only
      rw [taken]
      exact ⟨_, rfl⟩
    | some mb =>
      simp only
      rw [toSsizeT, if_pos (signed shared), Option.bind_some]
      split
      · rw [taken]
        exact ⟨_, rfl⟩
      · exact ⟨_, rfl⟩

theorem realloc_returns (a : Allocator) (mem : Memory) {ptr size block : Nat}
    (fits : a.Fits (reallocSize mem ptr size)) (served : a.Served (reallocSize mem ptr size) block) :
    ∃ result, a.realloc mem ptr size block = some result := by
  obtain ⟨result, taken⟩ := alloc_returns a mem fits served
  unfold reallocSize at fits taken
  by_cases null : ptr = 0
  · rw [if_pos null] at taken
    exact ⟨result, by rw [Allocator.realloc, if_pos null, taken]⟩
  · rw [if_neg null] at fits taken
    rw [Allocator.realloc, if_neg null]
    simp only
    split
    · exact ⟨_, rfl⟩
    · have more := Nat.le_max_left (size + 1) (getAllocLength mem ptr * 2)
      have twice := Nat.le_max_right (size + 1) (getAllocLength mem ptr * 2)
      have small := fits_small fits
      rw [sizeAdd_fits (by omega), Option.bind_some, sizeMul, if_pos (by omega), Option.bind_some, taken]
      exact ⟨_, rfl⟩

/-- Whatever was called before, whatever `new` answered and whatever the user wrote: every
    region lies with its length word in one block and meets no other, its length is what
    was asked for or more and no more than its room, a call keeps every byte of every
    region, and `realloc` carries the contents over. A call whose sizes do not wrap
    returns. -/
theorem block_allocator_invariant {blockSize isolationThreshold : Nat} {a : Allocator} {mem : Memory}
    {s : State} (made : Allocator.new blockSize isolationThreshold = some a)
    (run : Relation.ReflTransGen Step ⟨a, mem, []⟩ s) :
    (∀ r ∈ s.regions, ∃ c ∈ s.allocator.retain,
        c.begin_ ≤ r.lo ∧ r.lo + sizeofSizeT = r.ptr ∧ r.hi ≤ c.end_) ∧
      s.regions.Pairwise Region.Apart ∧
      (∀ r ∈ s.regions, r.requested ≤ getAllocLength s.mem r.ptr ∧
        getAllocLength s.mem r.ptr ≤ r.room) ∧
      (∀ size block b new p, s.allocator.alloc s.mem size block = some (b, new, p) →
        Keeps s.regions s.mem new ∧ size ≤ getAllocLength new p) ∧
      (∀ ptr size block b new p, s.Live ptr →
        s.allocator.realloc s.mem ptr size block = some (b, new, p) →
        Keeps s.regions s.mem new ∧ size ≤ getAllocLength new p ∧
          (ptr ≠ 0 → ∀ i < getAllocLength s.mem ptr, new (p + i) = s.mem (ptr + i))) ∧
      (∀ size block, s.allocator.Fits size → s.allocator.Served size block →
        ∃ result, s.allocator.alloc s.mem size block = some result) ∧
      (∀ ptr size block, s.allocator.Fits (reallocSize s.mem ptr size) →
        s.allocator.Served (reallocSize s.mem ptr size) block →
        ∃ result, s.allocator.realloc s.mem ptr size block = some result) ∧
      Headed s.allocator s.mem := by
  have valid := run_valid (new_valid mem made) run
  refine ⟨?_, valid.layout.apart, ?_, ?_, ?_, ?_, ?_, valid.headed⟩
  · intro r member
    obtain ⟨c, retained, low, high⟩ := valid.layout.inside r member
    have word : r.lo + sizeofSizeT = r.ptr := Nat.sub_add_cancel (by omega)
    exact ⟨c, retained, by omega, word, high⟩
  · intro r member
    obtain ⟨length, enough⟩ := valid.stored r member
    exact ⟨by omega, by omega⟩
  · intro size block b new p given
    exact (alloc_spec valid given).2
  · intro ptr size block b new p live given
    exact (realloc_spec valid live given).2
  · intro size block fits served
    exact alloc_returns s.allocator s.mem fits served
  · intro ptr size block fits served
    exact realloc_returns s.allocator s.mem fits served

theorem block_allocator_regrows :
    ∃ a s, Allocator.new 64 32 = some a ∧ Relation.ReflTransGen Step ⟨a, fun _ => 0, []⟩ s ∧
      s.regions = [⟨8232, 40, 41⟩, ⟨4136, 4, 4⟩] ∧ s.regions.Pairwise Region.Apart := by
  have made : Allocator.new 64 32 = some ⟨[], none, 64, 32, by decide⟩ := rfl
  have first : Step ⟨⟨[], none, 64, 32, by decide⟩, fun _ => 0, []⟩ _ :=
    .alloc (rfl : Allocator.alloc _ _ 4 4096 = _)
  have run := (Relation.ReflTransGen.single first).tail
    (.realloc (Or.inr ⟨_, List.mem_cons_self, rfl⟩) (rfl : Allocator.realloc _ _ 4136 40 8192 = _))
  exact ⟨_, _, made, run, rfl, (block_allocator_invariant made run).2.1⟩

end Nghttp2Asio.BlockAllocator
