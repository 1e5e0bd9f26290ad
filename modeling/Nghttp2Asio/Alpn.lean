import Nghttp2Asio.Library.CheckedBuffer
import Nghttp2Asio.Util

/-!
ALPN negotiation (util.cc and asio_server_tls_context.cc). The protocol list of the
client is a byte string from the wire; a position in it is an offset, and a read
outside it makes the whole call `none`.
-/
namespace Nghttp2Asio.Alpn
open CheckedBuffer

def nghttp2H2Alpn : Bytes := 2 :: lit "h2"
def nghttp2H2 : Bytes := lit "h2"
def nghttp2H216Alpn : Bytes := 5 :: lit "h2-16"
def nghttp2H216 : Bytes := lit "h2-16"
def nghttp2H214Alpn : Bytes := 5 :: lit "h2-14"
def nghttp2H214 : Bytes := lit "h2-14"

def checkH2IsSelected (proto : Bytes) : Bool :=
  nghttp2H2 == proto || nghttp2H216 == proto || nghttp2H214 == proto

/-- What is stored through `out` and `outlen`; `out` is the offset into the list. -/
structure Selection where
  out : Nat
  outlen : UInt8
  deriving DecidableEq, Repr

def Selection.bytes (s : Selection) (input : Bytes) : Bytes := (input.drop s.out).take s.outlen.toNat

def selectProtoLoop (input key : Bytes) (p : Nat) : Option (Option Selection) :=
  if p + key.length ≤ input.length then
    (equalAt input p key).bind fun same =>
      match h : input[p]? with
      | none => none
      | some len =>
        if same then some (some ⟨p + 1, len⟩)
        else selectProtoLoop input key (p + (len.toNat + 1))
  else some none
termination_by input.length - p
decreasing_by
  have inside := (List.getElem?_eq_some_iff.mp h).1
  omega

def selectProto (input key : Bytes) : Option (Option Selection) := selectProtoLoop input key 0

def selectH2 (input : Bytes) : Option (Option Selection) :=
  (selectProto input nghttp2H2Alpn).bind fun
    | some s => some (some s)
    | none =>
      (selectProto input nghttp2H216Alpn).bind fun
        | some s => some (some s)
        | none => selectProto input nghttp2H214Alpn

inductive SslTlsextErr where
  | ok | noack
  deriving DecidableEq, Repr

def alpnSelectProtoCb (input : Bytes) : Option (SslTlsextErr × Option Selection) :=
  (selectH2 input).map fun
    | some s => (.ok, some s)
    | none => (.noack, none)

def getDefaultAlpn : Bytes := nghttp2H2Alpn ++ nghttp2H216Alpn ++ nghttp2H214Alpn

/-! Any input. -/

def entry (w : Bytes) : Bytes := UInt8.ofNat w.length :: w

theorem entry_length (w : Bytes) : (entry w).length = w.length + 1 := rfl

theorem nghttp2H2Alpn_entry : nghttp2H2Alpn = entry nghttp2H2 := by decide
theorem nghttp2H216Alpn_entry : nghttp2H216Alpn = entry nghttp2H216 := by decide
theorem nghttp2H214Alpn_entry : nghttp2H214Alpn = entry nghttp2H214 := by decide

theorem selectProtoLoop_step {input key : Bytes} {p : Nat} (named : 0 < key.length)
    (room : p + key.length ≤ input.length) :
    ∃ len, input[p]? = some len ∧ selectProtoLoop input key p =
      if key <+: input.drop p then some (some ⟨p + 1, len⟩)
      else selectProtoLoop input key (p + (len.toNat + 1)) := by
  have inside : p < input.length := by omega
  refine ⟨input[p], List.getElem?_eq_getElem inside, ?_⟩
  rw [selectProtoLoop, if_pos room, equalAt_inside room, Option.bind_some]
  split
  · rename_i outside
    simp [List.getElem?_eq_getElem inside] at outside
  · rename_i len found
    rw [List.getElem?_eq_getElem inside, Option.some.injEq] at found
    simp [found]

theorem selectProtoLoop_stop {input key : Bytes} {p : Nat} (rest : ¬ p + key.length ≤ input.length) :
    selectProtoLoop input key p = some none := by
  rw [selectProtoLoop, if_neg rest]

theorem entry_prefix {w rest : Bytes} (front : entry w <+: rest) :
    rest[0]? = some (UInt8.ofNat w.length) ∧ (rest.drop 1).take w.length = w := by
  obtain ⟨tail, rfl⟩ := front
  simp [entry]

theorem selectProtoLoop_inside (input : Bytes) {w : Bytes} (short : w.length < 256) (p : Nat) :
    ∃ r, selectProtoLoop input (entry w) p = some r ∧
      ∀ s, r = some s → s.out + s.outlen.toNat ≤ input.length ∧ s.bytes input = w := by
  induction rest : input.length - p using Nat.strongRecOn generalizing p with
  | ind k ih =>
    by_cases room : p + (entry w).length ≤ input.length
    · obtain ⟨len, read, step⟩ := selectProtoLoop_step (by simp [entry]) room
      rw [step]
      rw [entry_length] at room
      split
      · rename_i front
        obtain ⟨first, word⟩ := entry_prefix front
        have size : len.toNat = w.length := by
          rw [List.getElem?_drop, Nat.add_zero, read, Option.some.injEq] at first
          rw [first, UInt8.toNat_ofNat_of_lt' short]
        refine ⟨_, rfl, ?_⟩
        rintro s ⟨⟩
        refine ⟨by simp only; omega, ?_⟩
        rw [Selection.bytes, size]
        simpa using word
      · exact ih (input.length - (p + (len.toNat + 1))) (by omega) _ rfl
    · exact ⟨none, selectProtoLoop_stop room, by simp⟩

theorem selectH2_cases {input : Bytes} {a b c : Option Selection}
    (first : selectProto input nghttp2H2Alpn = some a)
    (second : selectProto input nghttp2H216Alpn = some b)
    (third : selectProto input nghttp2H214Alpn = some c) :
    selectH2 input = some (a.or (b.or c)) := by
  unfold selectH2
  rw [first, second, third]
  cases a with
  | some s => rfl
  | none => cases b <;> rfl

theorem selectH2_inside (input : Bytes) : ∃ r, selectH2 input = some r ∧
    ∀ s, r = some s → s.out + s.outlen.toNat ≤ input.length ∧
      checkH2IsSelected (s.bytes input) = true := by
  obtain ⟨a, first, a_inside⟩ := selectProtoLoop_inside input (w := nghttp2H2) (by decide) 0
  obtain ⟨b, second, b_inside⟩ := selectProtoLoop_inside input (w := nghttp2H216) (by decide) 0
  obtain ⟨c, third, c_inside⟩ := selectProtoLoop_inside input (w := nghttp2H214) (by decide) 0
  rw [← nghttp2H2Alpn_entry] at first
  rw [← nghttp2H216Alpn_entry] at second
  rw [← nghttp2H214Alpn_entry] at third
  refine ⟨_, selectH2_cases first second third, ?_⟩
  intro s chosen
  simp only [Option.or_eq_some_iff] at chosen
  rcases chosen with found | ⟨_, found | ⟨_, found⟩⟩
  · obtain ⟨bound, word⟩ := a_inside s found
    exact ⟨bound, by simp [word, checkH2IsSelected]⟩
  · obtain ⟨bound, word⟩ := b_inside s found
    exact ⟨bound, by simp [word, checkH2IsSelected]⟩
  · obtain ⟨bound, word⟩ := c_inside s found
    exact ⟨bound, by simp [word, checkH2IsSelected]⟩

/-! Well-formed lists. -/

/-- The strings of a protocol list; a length fits in one byte. -/
structure ProtocolList where
  names : List Bytes
  short : ∀ w ∈ names, w.length < 256

def wire (names : List Bytes) : Bytes := names.flatMap entry

theorem wire_cons (w : Bytes) (names : List Bytes) : wire (w :: names) = entry w ++ wire names := by
  simp [wire]

theorem wire_length_mem {w : Bytes} {names : List Bytes} (member : w ∈ names) :
    (entry w).length ≤ (wire names).length := by
  obtain ⟨before, after, rfl⟩ := List.append_of_mem member
  simp only [wire, List.flatMap_append, List.flatMap_cons, List.length_append]
  omega

theorem entry_front_iff {v w : Bytes} (v_short : v.length < 256) (w_short : w.length < 256)
    (rest : Bytes) : entry w <+: entry v ++ rest ↔ w = v := by
  constructor
  · intro front
    simp only [entry, List.cons_append, List.cons_prefix_cons] at front
    obtain ⟨lengths, inside⟩ := front
    have size : w.length = v.length := by
      have numbers := congrArg UInt8.toNat lengths
      rwa [UInt8.toNat_ofNat_of_lt' w_short, UInt8.toNat_ofNat_of_lt' v_short] at numbers
    rw [List.prefix_iff_eq_take, size, List.take_left] at inside
    exact inside
  · rintro rfl
    exact List.prefix_append _ _

def selectionAt (names : List Bytes) (w : Bytes) : Selection :=
  ⟨(wire (names.takeWhile (· ≠ w))).length + 1, UInt8.ofNat w.length⟩

theorem selectProtoLoop_list (before : Bytes) {names : List Bytes} {w : Bytes}
    (short : ∀ v ∈ names, v.length < 256) (w_short : w.length < 256) :
    selectProtoLoop (before ++ wire names) (entry w) before.length = some (if w ∈ names then
      some { selectionAt names w with out := before.length + (selectionAt names w).out } else none) := by
  induction names generalizing before with
  | nil =>
    rw [selectProtoLoop_stop (by simp [wire, entry])]
    simp
  | cons v names ih =>
    have v_short := short v (by simp)
    by_cases room : before.length + (entry w).length ≤ (before ++ wire (v :: names)).length
    · obtain ⟨len, read, step⟩ := selectProtoLoop_step (by simp [entry]) room
      have length : len = UInt8.ofNat v.length := by
        simpa [wire_cons, entry, eq_comm] using read
      rw [step, List.drop_left, wire_cons]
      simp only [entry_front_iff v_short w_short]
      split
      · rename_i same
        subst same
        simp [selectionAt, wire, length]
      · rename_i different
        have further := ih (before ++ entry v) (fun u member => short u (by simp [member]))
        have next : before.length + (len.toNat + 1) = (before ++ entry v).length := by
          rw [length, UInt8.toNat_ofNat_of_lt' v_short, List.length_append, entry_length]
        rw [next, ← List.append_assoc, further]
        have other : ¬ v = w := fun same => different same.symm
        simp [selectionAt, other, different, wire_cons, Nat.add_assoc]
    · have absent : w ∉ v :: names := by
        intro member
        have fits := wire_length_mem member
        rw [List.length_append] at room
        omega
      rw [selectProtoLoop_stop room, if_neg absent]

theorem selectProto_list (l : ProtocolList) {w : Bytes} (w_short : w.length < 256) :
    selectProto (wire l.names) (entry w) =
      some (if w ∈ l.names then some (selectionAt l.names w) else none) := by
  have scanned := selectProtoLoop_list [] l.short w_short
  simpa [selectProto] using scanned

def preferred : List Bytes := [nghttp2H2, nghttp2H216, nghttp2H214]

theorem selectH2_list (l : ProtocolList) : selectH2 (wire l.names) =
    some ((preferred.find? (· ∈ l.names)).map (selectionAt l.names)) := by
  have first := selectProto_list l (w := nghttp2H2) (by decide)
  have second := selectProto_list l (w := nghttp2H216) (by decide)
  have third := selectProto_list l (w := nghttp2H214) (by decide)
  rw [← nghttp2H2Alpn_entry] at first
  rw [← nghttp2H216Alpn_entry] at second
  rw [← nghttp2H214Alpn_entry] at third
  rw [selectH2_cases first second third]
  by_cases h2 : nghttp2H2 ∈ l.names
  · simp [preferred, h2]
  by_cases h216 : nghttp2H216 ∈ l.names
  · simp [preferred, h2, h216]
  by_cases h214 : nghttp2H214 ∈ l.names <;> simp [preferred, h2, h216, h214]

/-- The first occurrence of the most preferred identifier that is an entry of the list. -/
structure Preferred (names : List Bytes) (s : Selection) (before after : List Bytes) (w : Bytes) :
    Prop where
  occurs : names = before ++ w :: after
  first : w ∉ before
  accepted : ∃ better worse, preferred = better ++ w :: worse ∧ ∀ v ∈ better, v ∉ names
  out : s.out = (wire before).length + 1
  outlen : s.outlen.toNat = w.length

theorem preferred_short : ∀ w ∈ preferred, w.length < 256 := by decide

theorem selected_preferred {l : ProtocolList} {s : Selection}
    (selected : selectH2 (wire l.names) = some (some s)) :
    ∃ before w after, Preferred l.names s before after w := by
  rw [selectH2_list, Option.some.injEq, Option.map_eq_some_iff] at selected
  obtain ⟨w, found, rfl⟩ := selected
  obtain ⟨member, better, worse, split, none_better⟩ := List.find?_eq_some_iff_append.mp found
  have present : w ∈ l.names := by simpa using member
  obtain ⟨before, after, occurs, first⟩ := List.eq_append_cons_of_mem present
  have skipped : l.names.takeWhile (· ≠ w) = before := by
    have others : ∀ v ∈ before, decide (v ≠ w) = true := by
      intro v inside
      simpa using ne_of_mem_of_not_mem inside first
    rw [occurs, List.takeWhile_append_of_pos others]
    simp
  have short := preferred_short w (by simp [split])
  refine ⟨before, w, after, occurs, first, ⟨better, worse, split, ?_⟩, ?_, ?_⟩
  · intro v inside
    simpa using none_better v inside
  · rw [selectionAt, skipped]
  · exact UInt8.toNat_ofNat_of_lt' short

theorem getDefaultAlpn_wire : getDefaultAlpn = wire preferred := by decide

/-- On any bytes `select_h2` returns, reads nothing outside them and selects only an
    identifier of HTTP/2; on a well-formed list it selects exactly when an entry is one,
    and then the first occurrence of the most preferred; it accepts the default list. -/
theorem alpn_selection :
    (∀ input, ∃ r, selectH2 input = some r ∧ ∀ s, r = some s →
      s.out + s.outlen.toNat ≤ input.length ∧ checkH2IsSelected (s.bytes input) = true) ∧
    (∀ l : ProtocolList,
      ((∃ s, selectH2 (wire l.names) = some (some s)) ↔
        nghttp2H2 ∈ l.names ∨ nghttp2H216 ∈ l.names ∨ nghttp2H214 ∈ l.names) ∧
      ∀ s, selectH2 (wire l.names) = some (some s) →
        ∃ before w after, Preferred l.names s before after w) ∧
    ∃ s, selectH2 getDefaultAlpn = some (some s) ∧
      alpnSelectProtoCb getDefaultAlpn = some (.ok, some s) := by
  have selects : ∀ l : ProtocolList, (∃ s, selectH2 (wire l.names) = some (some s)) ↔
      nghttp2H2 ∈ l.names ∨ nghttp2H216 ∈ l.names ∨ nghttp2H214 ∈ l.names := by
    intro l
    rw [selectH2_list]
    simp only [Option.some.injEq, Option.map_eq_some_iff]
    constructor
    · rintro ⟨s, w, found, _⟩
      have member : w ∈ l.names := by simpa using List.find?_some found
      have listed := List.mem_of_find?_eq_some found
      simp only [preferred, List.mem_cons, List.not_mem_nil, or_false] at listed
      rcases listed with rfl | rfl | rfl
      · exact Or.inl member
      · exact Or.inr (Or.inl member)
      · exact Or.inr (Or.inr member)
    · intro present
      have found : (preferred.find? (· ∈ l.names)).isSome = true := by
        rw [List.find?_isSome]
        simpa [preferred] using present
      obtain ⟨w, found⟩ := Option.isSome_iff_exists.mp found
      exact ⟨_, w, found, rfl⟩
  refine ⟨selectH2_inside, fun l => ⟨selects l, fun s selected => selected_preferred selected⟩, ?_⟩
  obtain ⟨s, selected⟩ := (selects ⟨preferred, preferred_short⟩).mpr (Or.inl (by simp [preferred]))
  rw [getDefaultAlpn_wire]
  exact ⟨s, selected, by rw [alpnSelectProtoCb, selected]; rfl⟩

end Nghttp2Asio.Alpn
