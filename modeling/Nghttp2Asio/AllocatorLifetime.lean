import Mathlib.Data.Option.Basic
import Nghttp2Asio.BlockAllocator
import Nghttp2Asio.Library.PointerChain

/-!
How long the blocks of allocator.h live: `reset`, the destructor and the moves, for any
number of allocators on one heap. What `new` returned and `delete[]` did not get yet is
`live`; the addresses that `new` returns are arguments of the calls.
-/
namespace Nghttp2Asio.BlockAllocator
open FlatMemory PointerChain

def blockAt (block size : Nat) : Block := ⟨block + sizeofMemBlock, block + (sizeofMemBlock + size)⟩

def Allocator.asked (a : Allocator) (size block : Nat) : Option Block :=
  if size + sizeofSizeT ≥ a.isolationThreshold then some (blockAt block (max 16 size + sizeofSizeT))
  else match a.head with
    | some mb =>
      if ptrDiff mb.end_ mb.last < (size + sizeofSizeT : Nat) then some (blockAt block a.blockSize)
      else none
    | none => some (blockAt block a.blockSize)

def Allocator.askedAgain (a : Allocator) (mem : Memory) (ptr size block : Nat) : Option Block :=
  if ptr ≠ 0 ∧ size ≤ getAllocLength mem ptr then none
  else a.asked (reallocSize mem ptr size) block

def Allocator.emptied (a : Allocator) : Allocator := { a with retain := [], head := none }

def nextOf (mem : Memory) (mb : Nat) : Nat := loadWord mem mb 8

def Allocator.reset (a : Allocator) (mem : Memory) (live : List Block) :
    Option (Allocator × List Block) :=
  (freeAll 0 (nextOf mem) Block.address live a.retainAddress).map fun live => (a.emptied, live)

structure Owner where
  allocator : Allocator
  regions : List Region

structure Heap where
  objects : Nat → Option Owner
  mem : Memory
  live : List Block

inductive Action where
  | construct (id blockSize isolationThreshold : Nat)
  | alloc (id size block : Nat)
  | realloc (id ptr size block : Nat)
  | reset (id : Nat)
  | destroy (id : Nat)
  | moveConstruct (id other : Nat)
  | moveAssign (id other : Nat)
  | write (id x : Nat) (c : UInt8)
  | elsewhere (x : Nat) (c : UInt8)

/-- `new` returns memory that is not in use. -/
def Heap.Fresh (h : Heap) (b : Block) : Prop := b.address ≠ 0 ∧ ∀ c ∈ h.live, b.Apart c

instance (h : Heap) (b : Block) : Decidable (h.Fresh b) := inferInstanceAs (Decidable (_ ∧ _))

instance (s : State) (ptr : Nat) : Decidable (s.Live ptr) := inferInstanceAs (Decidable (_ ∨ _))

def Heap.new : Heap := ⟨fun _ => none, fun _ => 0, []⟩

def Heap.set (h : Heap) (id : Nat) (o : Option Owner) : Heap :=
  { h with objects := fun i => if i = id then o else h.objects i }

def Heap.view (h : Heap) (o : Owner) : State := ⟨o.allocator, h.mem, o.regions⟩

def Heap.after (h : Heap) (id : Nat) (s : State) (asked : Option Block) : Heap :=
  { h.set id (some ⟨s.allocator, s.regions⟩) with mem := s.mem, live := asked.toList ++ h.live }

def Heap.reset (h : Heap) (id : Nat) : Option Heap := do
  let o ← h.objects id
  let (a, live) ← o.allocator.reset h.mem h.live
  return { h.set id (some ⟨a, []⟩) with live := live }

def Heap.take (h : Heap) (id other : Nat) : Option Heap := do
  let o ← h.objects other
  return (h.set other (some ⟨o.allocator.emptied, []⟩)).set id (some o)

def Heap.step (h : Heap) : Action → Option Heap
  | .construct id blockSize isolationThreshold => do
    guard (h.objects id).isNone
    let a ← Allocator.new blockSize isolationThreshold
    return h.set id (some ⟨a, []⟩)
  | .alloc id size block => do
    let o ← h.objects id
    guard (∀ b ∈ o.allocator.asked size block, h.Fresh b)
    let (a, mem, p) ← o.allocator.alloc h.mem size block
    return h.after id ((h.view o).afterAlloc a mem p size) (o.allocator.asked size block)
  | .realloc id ptr size block => do
    let o ← h.objects id
    guard ((h.view o).Live ptr)
    guard (∀ b ∈ o.allocator.askedAgain h.mem ptr size block, h.Fresh b)
    let (a, mem, p) ← o.allocator.realloc h.mem ptr size block
    return h.after id ((h.view o).afterRealloc a mem ptr p size)
      (o.allocator.askedAgain h.mem ptr size block)
  | .reset id => h.reset id
  | .destroy id => (h.reset id).map fun h => h.set id none
  | .moveConstruct id other => do
    guard (h.objects id).isNone
    h.take id other
  | .moveAssign id other => do
    let h ← h.reset id
    h.take id other
  | .write id x c => do
    let o ← h.objects id
    guard (∃ r ∈ o.regions, r.ptr ≤ x ∧ x < r.hi)
    return h.after id { h.view o with mem := store h.mem x c } none
  | .elsewhere x c => do
    guard (∀ b ∈ h.live, x < b.address ∨ b.end_ ≤ x)
    return { h with mem := store h.mem x c }

def Heap.Reached (h : Heap) : Prop := ∃ actions : List Action, actions.foldlM Heap.step Heap.new = some h

/-! What a call changes. -/

/-- Inside the blocks of an allocator, and not a link between them. -/
def Inner (a : Allocator) (x : Nat) : Prop :=
  (∃ c ∈ a.retain, c.address ≤ x ∧ x < c.end_) ∧ ∀ c ∈ a.retain, x < c.address ∨ c.address + 8 ≤ x

/-- A call keeps the links between the blocks, puts the one it got in front, and changes
    nothing outside of the blocks. -/
structure Grows (a b : Allocator) (mem new : Memory) (asked : Option Block) : Prop where
  chain : b.retain = asked.toList ++ a.retain
  outside : ∀ x, (∀ c ∈ b.retain, x < c.address ∨ c.end_ ≤ x) → new x = mem x
  links : ∀ c ∈ a.retain, ∀ x, c.address ≤ x → x < c.address + 8 → new x = mem x
  link : ∀ c ∈ asked, nextOf new c.address = a.retainAddress

section
variable {a b : Allocator} {regions : List Region} {mem mid new : Memory} {asked : Option Block}

theorem Layout.address_add (layout : Layout a regions) {c : Block} (retained : c ∈ a.retain) :
    c.address + 32 = c.begin_ :=
  Nat.sub_add_cancel (layout.bounds c retained).1

theorem Layout.not_apart (layout : Layout a regions) {c : Block} (retained : c ∈ a.retain) :
    ¬ c.Apart c := by
  have address := layout.address_add retained
  have bounds := layout.bounds c retained
  unfold Block.Apart
  omega

theorem Layout.inner_region (layout : Layout a regions) {r : Region} (held : r ∈ regions) {x : Nat}
    (low : r.lo ≤ x) (high : x < r.hi) : Inner a x := by
  obtain ⟨c, own, inside⟩ := layout.inside r held
  have address := layout.address_add own
  have word : sizeofSizeT = 8 := rfl
  refine ⟨⟨c, own, ?_⟩, fun d retained => ?_⟩
  · unfold Region.Inside at inside
    unfold Region.lo at low
    omega
  · have header := layout.header held retained
    have behind := layout.address_add retained
    omega

theorem Layout.inner_last (layout : Layout a regions) {c : Block} (own : c ∈ a.retain) {x : Nat}
    (low : c.address + 16 ≤ x) (high : x < c.address + 24) : Inner a x := by
  have address := layout.address_add own
  have bounds := layout.bounds c own
  refine ⟨⟨c, own, by omega⟩, fun d retained => ?_⟩
  have behind := layout.address_add retained
  have bounds' := layout.bounds d retained
  by_cases same : c = d
  · subst same
    omega
  · have apart := layout.blocks.forall own retained same
    unfold Block.Apart at apart
    omega

theorem grows_refl (a : Allocator) (mem : Memory) : Grows a a mem mem none :=
  ⟨rfl, fun _ _ => rfl, fun _ _ _ _ _ => rfl, by simp⟩

theorem Grows.inner (grows : Grows a b mem mid asked) (same : ∀ x, ¬ Inner b x → new x = mid x) :
    Grows a b mem new asked where
  chain := grows.chain
  outside := by
    intro x outside
    rw [same x, grows.outside x outside]
    rintro ⟨⟨c, own, low, high⟩, _⟩
    have away := outside c own
    omega
  links := by
    intro c member x low high
    have own : c ∈ b.retain := by
      rw [grows.chain]
      exact List.mem_append_right _ member
    rw [same x, grows.links c member x low high]
    rintro ⟨_, away⟩
    have off := away c own
    omega
  link := by
    intro c got
    have own : c ∈ b.retain := by
      rw [grows.chain]
      exact List.mem_append_left _ (Option.mem_toList.mpr got)
    rw [← grows.link c got]
    apply loadWord_congr
    intro x low high
    apply same
    rintro ⟨_, away⟩
    have off := away c own
    omega

theorem Grows.same_chain {c : Allocator} (grows : Grows a b mem new asked) (same : c.retain = b.retain) :
    Grows a c mem new asked :=
  ⟨same.trans grows.chain, same ▸ grows.outside, grows.links, grows.link⟩

theorem Layout.retainAddress_lt (layout : Layout a regions) : a.retainAddress < 256 ^ 8 := by
  unfold Allocator.retainAddress
  cases first : a.retain with
  | nil => exact Nat.pos_of_ne_zero (by decide)
  | cons c rest =>
    have own : c ∈ a.retain := by simp [first]
    have bounds := layout.bounds c own
    have address := layout.address_add own
    simp only [List.head?_cons, Option.map_some, Option.getD_some]
    omega

theorem allocMemBlock_grows {size block : Nat} {mb : MemBlock} (layout : Layout a regions)
    (given : a.allocMemBlock mem size block = some (b, new, mb)) :
    mb.toBlock = blockAt block size ∧
      Grows a b mem new (some mb.toBlock) := by
  obtain ⟨fresh, rfl, rfl, rfl⟩ := allocMemBlock_cases given
  have header : sizeofMemBlock = 32 := rfl
  have address : Block.address ⟨block + sizeofMemBlock, block + (sizeofMemBlock + size)⟩ = block :=
    Nat.add_sub_cancel _ _
  refine ⟨rfl, rfl, fun x outside => ?_, fun c member x low high => ?_, ?_⟩
  · have away := outside _ List.mem_cons_self
    rw [address] at away
    simp only at away
    exact header_outside _ _ _ _ _ (by omega)
  · have apart := fresh.2 c member
    have behind := layout.address_add member
    have bounds := layout.bounds c member
    simp only [Block.Apart, address] at apart
    exact header_outside _ _ _ _ _ (by omega)
  · rintro _ ⟨⟩
    rw [address]
    refine (loadWord_congr fun x low high => ?_).trans
      (loadWord_storeWord mem block layout.retainAddress_lt)
    simp only [storeNext, storeBegin, storeLast, storeEnd]
    rw [storeWord_outside _ _ _ _ (by omega), storeWord_outside _ _ _ _ (by omega),
      storeWord_outside _ _ _ _ (by omega)]

theorem Grows.finish (grows : Grows a b mem mid asked) (layout : Layout b regions) {r : Region}
    (held : r ∈ regions) {c : Block} (own : c ∈ b.retain) (len v : Nat) :
    Grows a b mem (storeLast (storeWord mid r.lo len 8) c.address v) asked := by
  have bound := layout.ptr_bound held
  have word : sizeofSizeT = 8 := rfl
  apply grows.inner
  intro x away
  have off_last : x < c.address + 16 ∨ c.address + 16 + 8 ≤ x := by
    by_contra inside
    exact away (layout.inner_last own (by omega) (by omega))
  have off_length : x < r.lo ∨ r.lo + 8 ≤ x := by
    by_contra inside
    apply away (layout.inner_region held (by omega) _)
    unfold Region.lo at inside
    unfold Region.hi
    omega
  rw [storeLast, storeWord_outside _ _ _ _ off_last, storeWord_outside _ _ _ _ off_length]

theorem cut_grows {mb : MemBlock} {size p : Nat} {c : Allocator} {r : Region}
    (grows : Grows a b mem mid asked) (result : b.cut mid mb size = (c, new, p))
    (layout : Layout c (r :: regions)) (at_ : r.ptr = p) (own : mb.toBlock ∈ b.retain) :
    Grows a c mem new asked := by
  simp only [Allocator.cut, Prod.mk.injEq] at result
  obtain ⟨rest, written, place⟩ := result
  have chain : c.retain = b.retain := by rw [← rest]
  have start : r.lo = mb.last := by
    rw [Region.lo, at_, ← place]
    exact Nat.add_sub_cancel _ _
  rw [← written, ← start]
  exact (grows.same_chain chain).finish layout List.mem_cons_self (chain ▸ own) _ _

theorem shared_grows {c : Allocator} {mb : MemBlock} {size block p : Nat} {r : Region}
    (layout : Layout a regions) (found : a.allocMemBlock mem a.blockSize block = some (c, mid, mb))
    (result : c.cut mid mb size = (b, new, p)) (next : Layout b (r :: regions)) (at_ : r.ptr = p) :
    Grows a b mem new (some (blockAt block a.blockSize)) := by
  obtain ⟨block_eq, grows⟩ := allocMemBlock_grows layout found
  rw [← block_eq]
  exact cut_grows grows result next at_ (by simp [grows.chain])

theorem toSsizeT_some {n : Nat} {i : Int} (cast : toSsizeT n = some i) : i = n := by
  unfold toSsizeT at cast
  split at cast
  · exact (Option.some.inj cast).symm
  · contradiction

theorem alloc_grows {size block p : Nat} (layout : Layout a regions) (headed : Headed a mem)
    (given : a.alloc mem size block = some (b, new, p)) : Grows a b mem new (a.asked size block) := by
  have granted := alloc_granted size layout headed given
  obtain ⟨need, added, rest⟩ := Option.bind_eq_some_iff.mp given
  rw [(sizeAdd_some added).1] at rest
  unfold Allocator.asked
  by_cases isolated : size + sizeofSizeT ≥ a.isolationThreshold
  · rw [if_pos isolated] at rest ⊢
    obtain ⟨total, total_eq, taken⟩ := Option.bind_eq_some_iff.mp rest
    rw [(sizeAdd_some total_eq).1] at taken
    obtain ⟨⟨c, mid, mb⟩, found, result⟩ := Option.map_eq_some_iff.mp taken
    simp only [Prod.mk.injEq] at result
    obtain ⟨rfl, rfl, rfl⟩ := result
    obtain ⟨block_eq, grows⟩ := allocMemBlock_grows layout found
    have own : mb.toBlock ∈ c.retain := by simp [grows.chain]
    rw [← block_eq]
    exact grows.finish granted.layout List.mem_cons_self own (max 16 size) mb.end_
  · rw [if_neg isolated] at rest ⊢
    cases current : a.head with
    | none =>
      simp only [current] at rest ⊢
      obtain ⟨⟨c, mid, mb⟩, found, result⟩ := Option.map_eq_some_iff.mp rest
      exact shared_grows layout found result granted.layout rfl
    | some mb =>
      simp only [current] at rest ⊢
      obtain ⟨room, cast, chosen⟩ := Option.bind_eq_some_iff.mp rest
      rw [toSsizeT_some cast] at chosen
      split at chosen
      · rename_i full
        rw [if_pos full]
        obtain ⟨⟨c, mid, mb⟩, found, result⟩ := Option.map_eq_some_iff.mp chosen
        exact shared_grows layout found result granted.layout rfl
      · rename_i fits
        rw [if_neg fits]
        exact cut_grows (grows_refl a mem) (Option.some.inj chosen) granted.layout rfl
          (layout.head mb current).1

theorem Grows.held (grows : Grows a b mem mid asked) (layout : Layout b regions) {r : Region}
    (held : r ∈ regions) (same : ∀ x, x < r.ptr ∨ r.hi ≤ x → new x = mid x) :
    Grows a b mem new asked := by
  have word : sizeofSizeT = 8 := rfl
  apply grows.inner
  intro x away
  apply same
  by_contra inside
  apply away (layout.inner_region held _ (by omega))
  unfold Region.lo
  omega

theorem realloc_grows {s : State} {ptr size block p : Nat} (valid : Valid s) (live : s.Live ptr)
    (given : s.allocator.realloc s.mem ptr size block = some (b, new, p)) :
    Grows s.allocator b s.mem new (s.allocator.askedAgain s.mem ptr size block) := by
  unfold Allocator.askedAgain
  obtain ⟨null, taken⟩ | ⟨some_ptr, enough, rfl, rfl, rfl⟩ | ⟨some_ptr, short, mid, taken, rfl⟩ :=
    realloc_cases given
  · rw [if_neg (fun both => both.1 null), reallocSize, if_pos null]
    exact alloc_grows valid.layout valid.headed taken
  · rw [if_pos ⟨some_ptr, enough⟩]
    exact grows_refl _ _
  · rw [if_neg (fun both => Nat.not_le_of_lt short both.2)]
    have granted := alloc_granted size valid.layout valid.headed taken
    have grown := roomFor_le s.allocator (reallocSize s.mem ptr size)
    have larger : getAllocLength s.mem ptr * 2 ≤ reallocSize s.mem ptr size := by
      rw [reallocSize, if_neg some_ptr]
      exact Nat.le_max_right _ _
    apply (alloc_grows valid.layout valid.headed taken).held granted.layout List.mem_cons_self
    intro x outside
    apply copy_outside
    simp only [Region.hi] at outside
    omega

end

/-! Any number of allocators. -/

/-- An allocator whose blocks are live and chained in memory. -/
structure Keeping (mem : Memory) (live : List Block) (o : Owner) : Prop where
  valid : Valid ⟨o.allocator, mem, o.regions⟩
  linked : Chain 0 (nextOf mem) o.allocator.retainAddress (o.allocator.retain.map Block.address)
  live : ∀ b ∈ o.allocator.retain, b ∈ live

/-- Every live block is in the chain of one allocator, and only there. -/
structure Sound (h : Heap) : Prop where
  keeping : ∀ id o, h.objects id = some o → Keeping h.mem h.live o
  apart : ∀ i j o q, i ≠ j → h.objects i = some o → h.objects j = some q →
    ∀ b ∈ o.allocator.retain, ∀ c ∈ q.allocator.retain, b.Apart c
  owned : ∀ b ∈ h.live, ∃ id o, h.objects id = some o ∧ b ∈ o.allocator.retain

structure Bare (o : Owner) : Prop where
  retain : o.allocator.retain = []
  head : o.allocator.head = none
  regions : o.regions = []

section
variable {mem new : Memory} {live : List Block} {o : Owner}

theorem Bare.keeping (bare : Bare o) (mem : Memory) (live : List Block) : Keeping mem live o := by
  obtain ⟨⟨retain, head, blockSize, isolationThreshold, bounded⟩, regions⟩ := o
  obtain ⟨rfl, rfl, rfl⟩ := bare
  exact ⟨⟨⟨.nil, by simp, by simp, by simp, .nil⟩, by simp [Stored], by simp [Headed]⟩, .nil, by simp⟩

theorem emptied_bare (a : Allocator) : Bare ⟨a.emptied, []⟩ := ⟨rfl, rfl, rfl⟩

theorem new_bare {blockSize isolationThreshold : Nat} {a : Allocator}
    (made : Allocator.new blockSize isolationThreshold = some a) : Bare ⟨a, []⟩ := by
  unfold Allocator.new at made
  split at made
  · obtain rfl := Option.some.inj made
    exact ⟨rfl, rfl, rfl⟩
  · contradiction

theorem Keeping.address_lt (keeping : Keeping mem live o) {b : Block} (own : b ∈ o.allocator.retain) :
    b.address + 32 = b.begin_ ∧ b.begin_ ≤ b.end_ :=
  ⟨keeping.valid.layout.address_add own, (keeping.valid.layout.bounds b own).2.1⟩

theorem Valid.framed {s : State} (valid : Valid s)
    (same : ∀ b ∈ s.allocator.retain, ∀ x, b.address ≤ x → x < b.end_ → new x = s.mem x) :
    Valid { s with mem := new } := by
  have layout := valid.layout
  have word : sizeofSizeT = 8 := rfl
  refine ⟨layout, fun r held => ?_, ?_⟩
  · obtain ⟨length, enough⟩ := valid.stored r held
    refine ⟨?_, enough⟩
    rw [← length]
    apply loadWord_congr
    intro x low high
    obtain ⟨c, own, inside⟩ := layout.inside r held
    have address := layout.address_add own
    have bound := layout.ptr_bound held
    unfold Region.Inside Region.hi at inside
    exact same c own x (by omega) (by omega)
  · apply valid.headed.kept rfl
    intro mb current x low high
    have own := (layout.head mb current).1
    have address := layout.address_add own
    have long := (layout.bounds mb.toBlock own).2.1
    exact same mb.toBlock own x low (by omega)

theorem Keeping.framed (keeping : Keeping mem live o) {more : List Block}
    (same : ∀ b ∈ o.allocator.retain, ∀ x, b.address ≤ x → x < b.end_ → new x = mem x)
    (still : ∀ b ∈ o.allocator.retain, b ∈ more) : Keeping new more o := by
  refine ⟨keeping.valid.framed same, ?_, still⟩
  apply keeping.linked.congr
  intro q member
  obtain ⟨c, own, rfl⟩ := List.mem_map.mp member
  obtain ⟨address, long⟩ := keeping.address_lt own
  apply loadWord_congr
  intro x low high
  exact same c own x low (by omega)

theorem Keeping.grown (keeping : Keeping mem live o) {s : State} {asked : Option Block} (valid : Valid s)
    (grows : Grows o.allocator s.allocator mem s.mem asked) (some_ : ∀ b ∈ asked, b.address ≠ 0) :
    Keeping s.mem (asked.toList ++ live) ⟨s.allocator, s.regions⟩ := by
  have kept : Chain 0 (nextOf s.mem) o.allocator.retainAddress
      (o.allocator.retain.map Block.address) := by
    apply keeping.linked.congr
    intro q member
    obtain ⟨c, own, rfl⟩ := List.mem_map.mp member
    apply loadWord_congr
    intro x low high
    exact grows.links c own x low high
  refine ⟨valid, ?_, fun b own => ?_⟩
  · rw [Allocator.retainAddress, grows.chain]
    cases asked with
    | none => exact kept
    | some b =>
      have link := grows.link b rfl
      apply Chain.cons (some_ b rfl)
      rw [link]
      exact kept
  · simp only [grows.chain] at own
    rcases List.mem_append.mp own with got | old
    · exact List.mem_append_left _ got
    · exact List.mem_append_right _ (keeping.live b old)

theorem Keeping.once (keeping : Keeping mem live o) :
    (o.allocator.retain.map Block.address).Nodup := by
  rw [List.Nodup, List.pairwise_map]
  apply (keeping.valid.layout.blocks.imp_of_mem _)
  intro b c own other apart same
  have first := keeping.address_lt own
  have second := keeping.address_lt other
  unfold Block.Apart at apart
  omega

end

section
variable {h : Heap} {id : Nat} {o : Owner}

theorem Sound.blocks (sound : Sound h) {b c : Block} (first : b ∈ h.live) (second : c ∈ h.live) :
    b = c ∨ b.Apart c := by
  obtain ⟨i, o, at_i, own⟩ := sound.owned b first
  obtain ⟨j, q, at_j, other⟩ := sound.owned c second
  by_cases here : i = j
  · subst here
    obtain rfl := Option.some.inj (at_i.symm.trans at_j)
    by_cases same : b = c
    · exact Or.inl same
    · exact Or.inr ((sound.keeping i o at_i).valid.layout.blocks.forall own other same)
  · exact Or.inr (sound.apart i j o q here at_i at_j b own c other)

theorem Sound.address_lt (sound : Sound h) {b : Block} (member : b ∈ h.live) :
    b.address + 32 = b.begin_ ∧ b.begin_ ≤ b.end_ := by
  obtain ⟨i, o, at_i, own⟩ := sound.owned b member
  exact (sound.keeping i o at_i).address_lt own

section
variable {s : State} {asked : Option Block}
  (grows : Grows o.allocator s.allocator h.mem s.mem asked) (fresh : ∀ b ∈ asked, h.Fresh b)
include grows fresh

theorem Sound.away (sound : Sound h) (found : h.objects id = some o) {j : Nat} {q : Owner}
    (other : j ≠ id) (at_j : h.objects j = some q) {b c : Block} (own : b ∈ s.allocator.retain)
    (theirs : c ∈ q.allocator.retain) : b.Apart c := by
  rw [grows.chain] at own
  rcases List.mem_append.mp own with got | old
  · exact (fresh b (Option.mem_toList.mp got)).2 c ((sound.keeping j q at_j).live c theirs)
  · exact sound.apart id j o q (Ne.symm other) found at_j b old c theirs

theorem Sound.others_kept (sound : Sound h) (found : h.objects id = some o) {j : Nat} {q : Owner}
    (other : j ≠ id) (at_j : h.objects j = some q) {c : Block} (theirs : c ∈ q.allocator.retain)
    {x : Nat} (low : c.address ≤ x) (high : x < c.end_) : s.mem x = h.mem x := by
  apply grows.outside
  intro b own
  have apart := sound.away grows fresh found other at_j own theirs
  unfold Block.Apart at apart
  omega

theorem Sound.after (sound : Sound h) (found : h.objects id = some o) (valid : Valid s) :
    Sound (h.after id s asked) := by
  have mine := sound.keeping id o found
  refine ⟨fun i q at_i => ?_, fun i j q p different at_i at_j b own c theirs => ?_, fun b member => ?_⟩
  · simp only [Heap.after, Heap.set] at at_i
    split at at_i
    · obtain rfl := Option.some.inj at_i
      exact mine.grown valid grows fun b got => (fresh b got).1
    · rename_i other
      have theirs := sound.keeping i q at_i
      exact theirs.framed
        (fun c own x low high => sound.others_kept grows fresh found other at_i own low high)
        (fun c own => List.mem_append_right _ (theirs.live c own))
  · simp only [Heap.after, Heap.set] at at_i at_j
    split at at_i <;> split at at_j
    · omega
    · obtain rfl := Option.some.inj at_i
      exact sound.away grows fresh found ‹_› at_j own theirs
    · obtain rfl := Option.some.inj at_j
      exact Or.symm (sound.away grows fresh found ‹_› at_i theirs own)
    · exact sound.apart i j q p different at_i at_j b own c theirs
  · rcases List.mem_append.mp member with got | old
    · refine ⟨id, ⟨s.allocator, s.regions⟩, by simp [Heap.after, Heap.set], ?_⟩
      simp only [grows.chain]
      exact List.mem_append_left _ got
    · obtain ⟨i, q, at_i, own⟩ := sound.owned b old
      by_cases here : i = id
      · subst here
        obtain rfl := Option.some.inj (at_i.symm.trans found)
        refine ⟨i, ⟨s.allocator, s.regions⟩, by simp [Heap.after, Heap.set], ?_⟩
        simp only [grows.chain]
        exact List.mem_append_right _ own
      · exact ⟨i, q, by simpa [Heap.after, Heap.set, here] using at_i, own⟩

end

theorem Sound.rearranged (sound : Sound h) {objects : Nat → Option Owner} (origin : Nat → Nat)
    (known : ∀ i q, objects i = some q → Bare q ∨ h.objects (origin i) = some q)
    (once : ∀ i j q p, objects i = some q → objects j = some p → i ≠ j → origin i = origin j →
      q.allocator.retain = [] ∨ p.allocator.retain = [])
    (all : ∀ j q, h.objects j = some q → q.allocator.retain = [] ∨ ∃ i, objects i = some q) :
    Sound { h with objects := objects } where
  keeping := by
    intro i q at_i
    rcases known i q at_i with bare | old
    · exact bare.keeping _ _
    · exact sound.keeping (origin i) q old
  apart := by
    intro i j q p different at_i at_j b own c theirs
    rcases known i q at_i with bare | old
    · simp [bare.retain] at own
    rcases known j p at_j with bare | old'
    · simp [bare.retain] at theirs
    by_cases same : origin i = origin j
    · rcases once i j q p at_i at_j different same with none_ | none_
      · simp [none_] at own
      · simp [none_] at theirs
    · exact sound.apart _ _ q p same old old' b own c theirs
  owned := by
    intro b member
    obtain ⟨j, q, at_j, own⟩ := sound.owned b member
    rcases all j q at_j with none_ | ⟨i, at_i⟩
    · simp [none_] at own
    · exact ⟨i, q, at_i, own⟩

/-- `reset` gives back the blocks of the allocator, and only these. -/
theorem Sound.freed (sound : Sound h) (found : h.objects id = some o) :
    ∃ live, o.allocator.reset h.mem h.live = some (o.allocator.emptied, live) ∧
      ∀ b, b ∈ live ↔ b ∈ h.live ∧ b ∉ o.allocator.retain := by
  have mine := sound.keeping id o found
  have there : ∀ q ∈ o.allocator.retain.map Block.address, ∃ b ∈ h.live, b.address = q := by
    intro q member
    obtain ⟨b, own, rfl⟩ := List.mem_map.mp member
    exact ⟨b, mine.live b own, rfl⟩
  refine ⟨_, by rw [Allocator.reset, freeAll_chain mine.linked mine.once there, Option.map_some],
    fun b => ?_⟩
  simp only [List.mem_filter, decide_eq_true_eq, List.mem_map, not_exists, not_and]
  constructor
  · rintro ⟨member, away⟩
    exact ⟨member, fun own => away b own rfl⟩
  · rintro ⟨member, other⟩
    refine ⟨member, fun c own same => ?_⟩
    rcases sound.blocks member (mine.live c own) with rfl | apart
    · exact other own
    · -- blocks that are apart do not start at one address
      have first := sound.address_lt member
      have second := mine.address_lt own
      unfold Block.Apart at apart
      omega

structure IsReset (h : Heap) (id : Nat) (o : Owner) (new : Heap) : Prop where
  found : h.objects id = some o
  objects : new.objects = (h.set id (some ⟨o.allocator.emptied, []⟩)).objects
  mem : new.mem = h.mem
  live : ∀ b, b ∈ new.live ↔ b ∈ h.live ∧ b ∉ o.allocator.retain

theorem Sound.reset_cases (sound : Sound h) {new : Heap} (done : h.reset id = some new) :
    ∃ o, IsReset h id o new := by
  obtain ⟨o, found, rest⟩ := Option.bind_eq_some_iff.mp done
  obtain ⟨live, given, back⟩ := sound.freed found
  simp only [given, Option.bind_eq_bind, Option.bind_some] at rest
  obtain rfl := Option.some.inj rest
  exact ⟨o, found, rfl, rfl, back⟩

theorem IsReset.bare {new : Heap} (reset : IsReset h id o new) :
    new.objects id = some ⟨o.allocator.emptied, []⟩ := by
  rw [reset.objects]
  simp [Heap.set]

theorem IsReset.sound {new : Heap} (reset : IsReset h id o new) (sound : Sound h) : Sound new := by
  have mine := sound.keeping id o reset.found
  have other_objects : ∀ i q, new.objects i = some q →
      Bare q ∨ i ≠ id ∧ h.objects i = some q := by
    intro i q at_i
    rw [reset.objects] at at_i
    simp only [Heap.set] at at_i
    split at at_i
    · obtain rfl := Option.some.inj at_i
      exact Or.inl (emptied_bare _)
    · exact Or.inr ⟨‹_›, at_i⟩
  refine ⟨fun i q at_i => ?_, fun i j q p different at_i at_j b own c theirs => ?_, fun b member => ?_⟩
  · rcases other_objects i q at_i with bare | ⟨other, old⟩
    · exact bare.keeping _ _
    · have theirs := sound.keeping i q old
      rw [reset.mem]
      refine theirs.framed (fun _ _ _ _ _ => rfl) fun b own => (reset.live b).mpr ⟨theirs.live b own, ?_⟩
      intro shared
      exact theirs.valid.layout.not_apart own (sound.apart i id q o other old reset.found b own b shared)
  · rcases other_objects i q at_i with bare | ⟨_, old⟩
    · simp [bare.retain] at own
    rcases other_objects j p at_j with bare | ⟨_, old'⟩
    · simp [bare.retain] at theirs
    exact sound.apart i j q p different old old' b own c theirs
  · obtain ⟨old, not_mine⟩ := (reset.live b).mp member
    obtain ⟨i, q, at_i, own⟩ := sound.owned b old
    have other : i ≠ id := by
      rintro rfl
      obtain rfl := Option.some.inj (at_i.symm.trans reset.found)
      exact not_mine own
    exact ⟨i, q, by simpa [reset.objects, Heap.set, other] using at_i, own⟩

theorem Sound.take (sound : Sound h) {other : Nat} {new : Heap}
    (bare : ∀ q, h.objects id = some q → q.allocator.retain = [])
    (moved : h.take id other = some new) : Sound new := by
  obtain ⟨o, found, rest⟩ := Option.bind_eq_some_iff.mp moved
  obtain rfl := Option.some.inj rest
  refine sound.rearranged (fun i => if i = id then other else i) ?_ ?_ ?_
  · intro i q at_i
    simp only [Heap.set] at at_i
    by_cases here : i = id
    · rw [if_pos here] at at_i ⊢
      exact Or.inr (found.trans at_i)
    · rw [if_neg here] at at_i ⊢
      split at at_i
      · obtain rfl := Option.some.inj at_i
        exact Or.inl (emptied_bare _)
      · exact Or.inr at_i
  · -- only the allocator that is moved from has the same origin
    intro i j q p at_i at_j different same
    simp only [Heap.set] at at_i at_j same
    split at same <;> split at same
    · omega
    · right
      rw [if_neg ‹_›, if_pos same.symm] at at_j
      exact congrArg (fun o => o.allocator.retain) (Option.some.inj at_j).symm
    · left
      rw [if_neg ‹_›, if_pos same] at at_i
      exact congrArg (fun o => o.allocator.retain) (Option.some.inj at_i).symm
    · omega
  · intro j q at_j
    by_cases here : j = id
    · exact Or.inl (bare q (here ▸ at_j))
    · right
      by_cases from_ : j = other
      · subst from_
        exact ⟨id, by simpa [Heap.set] using found.symm.trans at_j⟩
      · exact ⟨j, by simpa [Heap.set, here, from_] using at_j⟩

theorem take_mem {other : Nat} {new : Heap} (moved : h.take id other = some new) : new.mem = h.mem := by
  obtain ⟨o, found, rest⟩ := Option.bind_eq_some_iff.mp moved
  obtain rfl := Option.some.inj rest
  rfl

theorem Sound.drop (sound : Sound h)
    (bare : ∀ q, h.objects id = some q → q.allocator.retain = []) : Sound (h.set id none) := by
  refine sound.rearranged (fun i => i) (fun i q at_i => ?_) (fun i j q p _ _ different same => ?_)
    (fun j q at_j => ?_)
  · split at at_i
    · contradiction
    · exact Or.inr at_i
  · exact absurd same different
  · by_cases here : j = id
    · exact Or.inl (bare q (here ▸ at_j))
    · exact Or.inr ⟨j, by simpa [Heap.set, here] using at_j⟩

theorem Sound.construct (sound : Sound h) (free : h.objects id = none) {q : Owner} (bare : Bare q) :
    Sound (h.set id (some q)) := by
  refine sound.rearranged (fun i => i) (fun i p at_i => ?_) (fun i j p r _ _ different same => ?_)
    (fun j p at_j => ?_)
  · split at at_i
    · obtain rfl := Option.some.inj at_i
      exact Or.inl bare
    · exact Or.inr at_i
  · exact absurd same different
  · have other : j ≠ id := by
      rintro rfl
      rw [free] at at_j
      contradiction
    exact Or.inr ⟨j, by simpa [Heap.set, other] using at_j⟩

theorem Sound.framed (sound : Sound h) {new : Memory}
    (same : ∀ b ∈ h.live, ∀ x, b.address ≤ x → x < b.end_ → new x = h.mem x) :
    Sound { h with mem := new } where
  keeping := by
    intro i q at_i
    have theirs := sound.keeping i q at_i
    exact theirs.framed (fun b own => same b (theirs.live b own)) theirs.live
  apart := sound.apart
  owned := sound.owned

theorem step_sound {h' : Heap} {action : Action} (sound : Sound h) (stepped : h.step action = some h') :
    Sound h' := by
  cases action with
  | construct id blockSize isolationThreshold =>
    simp only [Heap.step, Option.bind_eq_bind, Option.bind_eq_some_iff, Option.guard_eq_some'] at stepped
    obtain ⟨_, free, a, made, result⟩ := stepped
    obtain rfl := Option.some.inj result
    exact sound.construct (Option.isNone_iff_eq_none.mp free) (new_bare made)
  | alloc id size block =>
    simp only [Heap.step, Option.bind_eq_bind, Option.bind_eq_some_iff, Option.guard_eq_some',
      Prod.exists] at stepped
    obtain ⟨o, found, _, fresh, a, mem, p, given, result⟩ := stepped
    obtain rfl := Option.some.inj result
    have valid := (sound.keeping id o found).valid
    exact sound.after (alloc_grows valid.layout valid.headed given) fresh found (alloc_spec valid given).1
  | realloc id ptr size block =>
    simp only [Heap.step, Option.bind_eq_bind, Option.bind_eq_some_iff, Option.guard_eq_some',
      Prod.exists] at stepped
    obtain ⟨o, found, _, live, _, fresh, a, mem, p, given, result⟩ := stepped
    obtain rfl := Option.some.inj result
    have valid := (sound.keeping id o found).valid
    exact sound.after (realloc_grows valid live given) fresh found (realloc_spec valid live given).1
  | reset id =>
    obtain ⟨o, reset⟩ := sound.reset_cases stepped
    exact reset.sound sound
  | destroy id =>
    obtain ⟨mid, first, rfl⟩ := Option.map_eq_some_iff.mp stepped
    obtain ⟨o, reset⟩ := sound.reset_cases first
    apply (reset.sound sound).drop
    intro q at_id
    obtain rfl := Option.some.inj (reset.bare.symm.trans at_id)
    rfl
  | moveConstruct id other =>
    simp only [Heap.step, Option.bind_eq_bind, Option.bind_eq_some_iff, Option.guard_eq_some'] at stepped
    obtain ⟨_, free, moved⟩ := stepped
    refine sound.take (fun q at_id => ?_) moved
    rw [Option.isNone_iff_eq_none.mp free] at at_id
    contradiction
  | moveAssign id other =>
    obtain ⟨mid, first, moved⟩ := Option.bind_eq_some_iff.mp stepped
    obtain ⟨o, reset⟩ := sound.reset_cases first
    refine (reset.sound sound).take (fun q at_id => ?_) moved
    obtain rfl := Option.some.inj (reset.bare.symm.trans at_id)
    rfl
  | write id x c =>
    simp only [Heap.step, Option.bind_eq_bind, Option.bind_eq_some_iff, Option.guard_eq_some'] at stepped
    obtain ⟨o, found, _, ⟨r, held, low, high⟩, result⟩ := stepped
    obtain rfl := Option.some.inj result
    have valid := (sound.keeping id o found).valid
    have step : Step (h.view o) { h.view o with mem := store h.mem x c } := .write c held low high
    refine sound.after ?_ (by simp) found (step_valid valid step)
    apply (grows_refl o.allocator h.mem).held valid.layout held
    intro y outside
    exact store_other h.mem c (by omega)
  | elsewhere x c =>
    simp only [Heap.step, Option.bind_eq_bind, Option.bind_eq_some_iff, Option.guard_eq_some'] at stepped
    obtain ⟨_, outside, result⟩ := stepped
    obtain rfl := Option.some.inj result
    apply sound.framed
    intro b member y low high
    have away := outside b member
    exact store_other h.mem c (by omega)

theorem reached_sound (reached : h.Reached) : Sound h := by
  obtain ⟨actions, ran⟩ := reached
  have start : Sound Heap.new := ⟨nofun, nofun, nofun⟩
  generalize Heap.new = first at ran start
  induction actions generalizing first with
  | nil =>
    obtain rfl := Option.some.inj ran
    exact start
  | cons action actions ih =>
    obtain ⟨next, stepped, ran⟩ := Option.bind_eq_some_iff.mp ran
    exact ih next ran (step_sound start stepped)

theorem Sound.held_kept (sound : Sound h) (found : h.objects id = some o) {s : State}
    {asked : Option Block} (grows : Grows o.allocator s.allocator h.mem s.mem asked)
    (fresh : ∀ b ∈ asked, h.Fresh b) (kept : Keeps o.regions h.mem s.mem) {i : Nat} {q : Owner}
    (at_i : h.objects i = some q) : Keeps q.regions h.mem s.mem := by
  by_cases here : i = id
  · subst here
    obtain rfl := Option.some.inj (at_i.symm.trans found)
    exact kept
  · intro r held x low high
    have layout := (sound.keeping i q at_i).valid.layout
    obtain ⟨c, own, inside⟩ := layout.inside r held
    have address := layout.address_add own
    have word : sizeofSizeT = 8 := rfl
    unfold Region.Inside at inside
    unfold Region.lo at low
    exact sound.others_kept grows fresh found here at_i own (by omega) (by omega)

theorem step_keeps {h' : Heap} {action : Action} (sound : Sound h) (stepped : h.step action = some h')
    (not_write : ∀ id x c, action ≠ .write id x c) {i : Nat} {q : Owner}
    (at_i : h.objects i = some q) : Keeps q.regions h.mem h'.mem := by
  cases action with
  | construct id blockSize isolationThreshold =>
    simp only [Heap.step, Option.bind_eq_bind, Option.bind_eq_some_iff, Option.guard_eq_some'] at stepped
    obtain ⟨_, free, a, made, result⟩ := stepped
    obtain rfl := Option.some.inj result
    exact Keeps.refl _ _
  | alloc id size block =>
    simp only [Heap.step, Option.bind_eq_bind, Option.bind_eq_some_iff, Option.guard_eq_some',
      Prod.exists] at stepped
    obtain ⟨o, found, _, fresh, a, mem, p, given, result⟩ := stepped
    obtain rfl := Option.some.inj result
    have valid := (sound.keeping id o found).valid
    exact sound.held_kept found (alloc_grows valid.layout valid.headed given) fresh
      (alloc_spec valid given).2.1 at_i
  | realloc id ptr size block =>
    simp only [Heap.step, Option.bind_eq_bind, Option.bind_eq_some_iff, Option.guard_eq_some',
      Prod.exists] at stepped
    obtain ⟨o, found, _, live, _, fresh, a, mem, p, given, result⟩ := stepped
    obtain rfl := Option.some.inj result
    have valid := (sound.keeping id o found).valid
    exact sound.held_kept found (realloc_grows valid live given) fresh
      (realloc_spec valid live given).2.1 at_i
  | reset id =>
    obtain ⟨o, reset⟩ := sound.reset_cases stepped
    rw [reset.mem]
    exact Keeps.refl _ _
  | destroy id =>
    obtain ⟨mid, first, rfl⟩ := Option.map_eq_some_iff.mp stepped
    obtain ⟨o, reset⟩ := sound.reset_cases first
    rw [Heap.set, reset.mem]
    exact Keeps.refl _ _
  | moveConstruct id other =>
    simp only [Heap.step, Option.bind_eq_bind, Option.bind_eq_some_iff, Option.guard_eq_some'] at stepped
    obtain ⟨_, free, moved⟩ := stepped
    rw [take_mem moved]
    exact Keeps.refl _ _
  | moveAssign id other =>
    obtain ⟨mid, first, moved⟩ := Option.bind_eq_some_iff.mp stepped
    obtain ⟨o, reset⟩ := sound.reset_cases first
    rw [take_mem moved, reset.mem]
    exact Keeps.refl _ _
  | write id x c => exact absurd rfl (not_write id x c)
  | elsewhere x c =>
    simp only [Heap.step, Option.bind_eq_bind, Option.bind_eq_some_iff, Option.guard_eq_some'] at stepped
    obtain ⟨_, outside, result⟩ := stepped
    obtain rfl := Option.some.inj result
    intro r held y low high
    have theirs := sound.keeping i q at_i
    obtain ⟨⟨c, own, inside⟩, _⟩ := theirs.valid.layout.inner_region held low high
    have away := outside c (theirs.live c own)
    exact store_other h.mem _ (by omega)

/-- Whatever allocators are made, used, reset, moved and destroyed on a heap, in whatever
    order: `reset` always comes to the end of its chain and gives back exactly the blocks of
    its own allocator, each of them live; after the last destructor no block is left. What is
    held lies in live blocks, apart from all else that is held, and no call on any allocator
    changes a byte of it. -/
theorem heap_lifetime (reached : h.Reached) :
    (∀ id o, h.objects id = some o → ∃ live,
      o.allocator.reset h.mem h.live = some (o.allocator.emptied, live) ∧
        (∀ b, b ∈ live ↔ b ∈ h.live ∧ b ∉ o.allocator.retain) ∧
        (∀ b ∈ o.allocator.retain, b ∈ h.live) ∧
        ∀ j q, j ≠ id → h.objects j = some q → ∀ b ∈ q.allocator.retain, b ∈ live) ∧
    ((∀ id, h.objects id = none) → h.live = []) ∧
    (∀ id o, h.objects id = some o → o.regions.Pairwise Region.Apart ∧
      ∀ r ∈ o.regions, r.requested ≤ r.room ∧ ∃ b ∈ h.live, r.Inside b) ∧
    (∀ i j o q, i ≠ j → h.objects i = some o → h.objects j = some q →
      ∀ r ∈ o.regions, ∀ t ∈ q.regions, r.Apart t) ∧
    ∀ action h', h.step action = some h' → (∀ id x c, action ≠ .write id x c) →
      ∀ id o, h.objects id = some o → Keeps o.regions h.mem h'.mem := by
  have sound := reached_sound reached
  refine ⟨fun id o found => ?_, fun gone => ?_, fun id o found => ?_, fun i j o q different at_i at_j => ?_,
    fun action h' stepped not_write id o found => step_keeps sound stepped not_write found⟩
  · obtain ⟨live, given, back⟩ := sound.freed found
    refine ⟨live, given, back, (sound.keeping id o found).live, fun j q other at_j b theirs => ?_⟩
    have keeping := sound.keeping j q at_j
    refine (back b).mpr ⟨keeping.live b theirs, fun shared => ?_⟩
    exact (keeping.valid.layout.not_apart theirs) (sound.apart j id q o other at_j found b theirs b shared)
  · apply List.eq_nil_iff_forall_not_mem.mpr
    intro b member
    obtain ⟨id, o, found, _⟩ := sound.owned b member
    rw [gone id] at found
    contradiction
  · have keeping := sound.keeping id o found
    refine ⟨keeping.valid.layout.apart, fun r held => ⟨(keeping.valid.stored r held).2, ?_⟩⟩
    obtain ⟨c, own, inside⟩ := keeping.valid.layout.inside r held
    exact ⟨c, keeping.live c own, inside⟩
  · intro r held t held'
    obtain ⟨b, own, inside⟩ := (sound.keeping i o at_i).valid.layout.inside r held
    obtain ⟨c, own', inside'⟩ := (sound.keeping j q at_j).valid.layout.inside t held'
    have apart := sound.apart i j o q different at_i at_j b own c own'
    have address := (sound.keeping i o at_i).address_lt own
    have address' := (sound.keeping j q at_j).address_lt own'
    have word : sizeofSizeT = 8 := rfl
    unfold Region.Inside at inside inside'
    unfold Block.Apart at apart
    unfold Region.Apart Region.lo
    omega

end

def movedActions : List Action :=
  [.construct 1 64 64, .alloc 1 8 4096, .alloc 1 100 8192, .construct 2 64 64, .alloc 2 8 16384,
   .write 1 4136 7, .moveAssign 2 1, .realloc 2 4136 90 12288, .destroy 1]

def movedHeap : Option Heap := movedActions.foldlM Heap.step Heap.new

theorem heap_lifetime_moved : ∃ (h : Heap) (o : Owner) (live : List Block), h.Reached ∧
    h.objects 2 = some o ∧ o.allocator.retain.map Block.address = [12288, 8192, 4096] ∧
    o.allocator.reset h.mem h.live = some (o.allocator.emptied, live) ∧
    ∀ b ∈ o.allocator.retain, b ∈ h.live ∧ b ∉ live := by
  have known : movedHeap.any (fun h => (h.objects 2).any (fun o =>
      o.allocator.retain.map Block.address = [12288, 8192, 4096])) = true := by decide +kernel
  obtain ⟨h, ran, facts⟩ := (Option.any_eq_true _ _).mp known
  obtain ⟨o, found, blocks⟩ := (Option.any_eq_true _ _).mp facts
  have reached : h.Reached := ⟨movedActions, ran⟩
  obtain ⟨live, given, back, own, _⟩ := (heap_lifetime reached).1 2 o found
  exact ⟨h, o, live, reached, found, of_decide_eq_true blocks, given,
    fun b member => ⟨own b member, fun left => ((back b).mp left).2 member⟩⟩

end Nghttp2Asio.BlockAllocator
