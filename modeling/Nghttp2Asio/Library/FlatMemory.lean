import Mathlib.Algebra.GroupWithZero.Nat

/-!
A flat memory of bytes. Words are stored with the low byte first, and a copy goes
forwards byte by byte. Each operation says where it leaves the memory alone.
-/
namespace FlatMemory

abbrev Memory := Nat → UInt8

def store (m : Memory) (a : Nat) (b : UInt8) : Memory := fun x => if x = a then b else m x

/-- The `k` low bytes of `v` from address `a` on. -/
def storeWord (m : Memory) (a v : Nat) : Nat → Memory
  | 0 => m
  | k + 1 => storeWord (store m a (UInt8.ofNat (v % 256))) (a + 1) (v / 256) k

def loadWord (m : Memory) (a : Nat) : Nat → Nat
  | 0 => 0
  | k + 1 => (m a).toNat + 256 * loadWord m (a + 1) k

def copy (m : Memory) (src dst : Nat) : Nat → Memory
  | 0 => m
  | n + 1 => store (copy m src dst n) (dst + n) (copy m src dst n (src + n))

def readBytes (m : Memory) (a : Nat) : Nat → List UInt8
  | 0 => []
  | k + 1 => m a :: readBytes m (a + 1) k

theorem store_other (m : Memory) {a x : Nat} (b : UInt8) (other : x ≠ a) : store m a b x = m x := by
  rw [store, if_neg other]

theorem storeWord_outside (m : Memory) (a v k : Nat) {x : Nat} (outside : x < a ∨ a + k ≤ x) :
    storeWord m a v k x = m x := by
  induction k generalizing m a v with
  | zero => rfl
  | succ k ih =>
    rw [storeWord, ih _ (a + 1) (v / 256) (by omega), store_other m _ (by omega)]

theorem loadWord_congr {m n : Memory} {a k : Nat} (same : ∀ x, a ≤ x → x < a + k → m x = n x) :
    loadWord m a k = loadWord n a k := by
  induction k generalizing a with
  | zero => rfl
  | succ k ih =>
    rw [loadWord, loadWord, same a (by omega) (by omega),
      ih (fun x low high => same x (by omega) (by omega))]

theorem loadWord_storeWord (m : Memory) (a : Nat) {v k : Nat} (small : v < 256 ^ k) :
    loadWord (storeWord m a v k) a k = v := by
  induction k generalizing m a v with
  | zero =>
    rw [Nat.pow_zero] at small
    rw [loadWord]
    omega
  | succ k ih =>
    have high : v / 256 < 256 ^ k := by
      rw [Nat.pow_succ] at small
      omega
    have low : storeWord (store m a (UInt8.ofNat (v % 256))) (a + 1) (v / 256) k a =
        UInt8.ofNat (v % 256) := by
      rw [storeWord_outside _ _ _ _ (by omega), store, if_pos rfl]
    have byte : (UInt8.ofNat (v % 256)).toNat = v % 256 :=
      UInt8.toNat_ofNat_of_lt' (Nat.mod_lt v (by omega))
    rw [storeWord, loadWord, ih _ (a + 1) high, low, byte]
    omega

theorem copy_outside (m : Memory) (src dst n : Nat) {x : Nat} (outside : x < dst ∨ dst + n ≤ x) :
    copy m src dst n x = m x := by
  induction n with
  | zero => rfl
  | succ n ih => rw [copy, store_other _ _ (by omega), ih (by omega)]

theorem copy_content (m : Memory) {src dst n : Nat} (apart : src + n ≤ dst ∨ dst + n ≤ src) :
    ∀ i < n, copy m src dst n (dst + i) = m (src + i) := by
  induction n with
  | zero => omega
  | succ n ih =>
    intro i bound
    have source := copy_outside m src dst n (x := src + n) (by omega)
    rw [copy, store]
    split
    · rename_i last
      obtain rfl : i = n := by omega
      exact source
    · exact ih (by omega) i (by omega)

theorem readBytes_shift {m n : Memory} {a b k : Nat} (same : ∀ i < k, m (a + i) = n (b + i)) :
    readBytes m a k = readBytes n b k := by
  induction k generalizing a b with
  | zero => rfl
  | succ k ih =>
    have first := same 0 (by omega)
    rw [readBytes, readBytes, ih fun i bound => ?_]
    · exact congrArg (· :: _) first
    · have next := same (i + 1) (by omega)
      rw [Nat.add_assoc, Nat.add_assoc, Nat.add_comm 1 i]
      exact next

theorem readBytes_congr {m n : Memory} {a k : Nat} (same : ∀ x, a ≤ x → x < a + k → m x = n x) :
    readBytes m a k = readBytes n a k :=
  readBytes_shift fun i bound => same (a + i) (by omega) (by omega)

theorem readBytes_append (m : Memory) (a j k : Nat) :
    readBytes m a (j + k) = readBytes m a j ++ readBytes m (a + j) k := by
  induction j generalizing a with
  | zero => simp [readBytes]
  | succ j ih =>
    rw [Nat.succ_add, readBytes, readBytes, ih, List.cons_append, Nat.add_assoc, Nat.add_comm 1 j]

end FlatMemory
