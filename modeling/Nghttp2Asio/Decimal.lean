import Mathlib.Data.List.TakeWhile
import Mathlib.Data.Nat.Digits.Lemmas
import Nghttp2Asio.Library.CheckedBuffer
import Nghttp2Asio.Util

/-!
Decimal numbers as text: `parse_uint` and the two variants of `utos` (util.cc,
util.h), and `stringify_status` of http2.cc. What a text means and which text is
canonical is said with the digits of a natural number in base ten.
-/
namespace Nghttp2Asio.Decimal
open Util CheckedBuffer

def digitValue (c : UInt8) : Nat := (c - zero).toNat

def digitChar (d : Nat) : UInt8 := UInt8.ofNat d + zero

def decimalValue (s : Bytes) : Nat := Nat.ofDigits 10 (s.reverse.map digitValue)

def canonical (n : Nat) : Bytes :=
  if n = 0 then [zero] else (Nat.digits 10 n).reverse.map digitChar

def Numeric (s : Bytes) : Prop := s ≠ [] ∧ ∀ c ∈ s, isDigit c = true

theorem digitValue_lt {c : UInt8} (digit : isDigit c = true) : digitValue c < 10 := by
  revert c
  decide +kernel

theorem digit_facts : ∀ d < 10, digitValue (digitChar d) = d ∧ isDigit (digitChar d) = true := by
  decide

theorem decimalValue_concat (s : Bytes) (c : UInt8) :
    decimalValue (s ++ [c]) = 10 * decimalValue s + digitValue c := by
  simp only [decimalValue, List.reverse_append, List.reverse_singleton, List.singleton_append,
    List.map_cons, Nat.ofDigits_cons]
  omega

theorem decimalValue_le (s t : Bytes) : decimalValue s ≤ decimalValue (s ++ t) := by
  induction t using List.reverseRecOn with
  | nil => simp
  | append_singleton t c ih =>
    rw [← List.append_assoc, decimalValue_concat]
    omega

/-! Parsing. -/

/-- A signed 64-bit value; an overflow is `none`. -/
def int64 (n : Int) : Option Int := if -2 ^ 63 ≤ n ∧ n ≤ int64Max then some n else none

def parseUintLoop64 (n : Int) (i : Nat) : Bytes → Option (Int × Nat)
  | [] => some (if i = 0 then (-1, 0) else (n, i))
  | c :: rest =>
    if isDigit c then
      if n > int64Max / 10 then some (-1, 0)
      else
        (int64 (n * 10)).bind fun n =>
          (int64 (int64Max - digitValue c)).bind fun limit =>
            if n > limit then some (-1, 0)
            else (int64 (n + digitValue c)).bind fun n => parseUintLoop64 n (i + 1) rest
    else some (if i = 0 then (-1, 0) else (n, i))

theorem int64_inside {n : Int} (low : 0 ≤ n) (high : n ≤ int64Max) : int64 n = some n := by
  rw [int64, if_pos ⟨by omega, high⟩]

theorem int64Max_eq : int64Max = 9223372036854775807 := by decide

theorem parseUintLoop_digit (n : Int) (i : Nat) {c : UInt8} (digit : isDigit c = true) (rest : Bytes) :
    parseUintLoop n i (c :: rest) = if n > int64Max / 10 then (-1, 0)
      else if n * 10 > int64Max - digitValue c then (-1, 0)
      else parseUintLoop (n * 10 + digitValue c) (i + 1) rest := by
  rw [parseUintLoop, if_pos digit]
  rfl

theorem parseUintLoop64_some {n : Int} (low : 0 ≤ n) (high : n ≤ int64Max) (i : Nat) (s : Bytes) :
    parseUintLoop64 n i s = some (parseUintLoop n i s) := by
  have max := int64Max_eq
  induction s generalizing n i with
  | nil => rfl
  | cons c rest ih =>
    by_cases digit : isDigit c = true
    · have small := digitValue_lt digit
      rw [parseUintLoop64, if_pos digit, parseUintLoop_digit n i digit]
      split
      · rfl
      · rename_i scaled
        rw [int64_inside (by omega) (by omega), Option.bind_some,
          int64_inside (by omega) (by omega), Option.bind_some]
        split
        · rfl
        · rename_i added
          rw [int64_inside (by omega) (by omega), Option.bind_some]
          exact ih (by omega) (by omega) (i + 1)
    · rw [parseUintLoop64, if_neg digit, parseUintLoop, if_neg digit]

/-- What the digits read so far are worth: their value and their number, if there are
    any and the value is not too large. -/
def outcome (read : Bytes) : Int × Nat :=
  if read = [] then (-1, 0)
  else if (decimalValue read : Int) ≤ int64Max then (decimalValue read, read.length)
  else (-1, 0)

theorem outcome_end {read : Bytes} (small : (decimalValue read : Int) ≤ int64Max) :
    (if read.length = 0 then (-1, 0) else ((decimalValue read : Int), read.length)) = outcome read := by
  simp only [outcome, List.length_eq_zero_iff, small, ↓reduceIte]

theorem outcome_large {read : Bytes} (large : ¬ (decimalValue read : Int) ≤ int64Max) :
    outcome read = (-1, 0) := by
  rw [outcome, if_neg large]
  split <;> rfl

theorem outcome_cases (read : Bytes) :
    outcome read = (-1, 0) ∨ ∃ value, outcome read = (value, read.length) := by
  unfold outcome
  split
  · exact Or.inl rfl
  split
  · exact Or.inr ⟨_, rfl⟩
  · exact Or.inl rfl

theorem parseUintLoop_spec (read rest : Bytes) (small : (decimalValue read : Int) ≤ int64Max) :
    parseUintLoop (decimalValue read) read.length rest = outcome (read ++ rest.takeWhile isDigit) := by
  have max := int64Max_eq
  induction rest generalizing read with
  | nil =>
    rw [parseUintLoop, outcome_end small, List.takeWhile_nil, List.append_nil]
  | cons c rest ih =>
    by_cases digit : isDigit c = true
    · have next := decimalValue_concat read c
      have grows := decimalValue_le (read ++ [c]) (rest.takeWhile isDigit)
      have small_digit := digitValue_lt digit
      have again : read ++ (c :: rest).takeWhile isDigit =
          (read ++ [c]) ++ rest.takeWhile isDigit := by
        simp [digit]
      rw [parseUintLoop_digit _ _ digit, again]
      by_cases fits : (decimalValue (read ++ [c]) : Int) ≤ int64Max
      · have step : (decimalValue read : Int) * 10 + (digitValue c : Int) =
            (decimalValue (read ++ [c]) : Int) := by omega
        have size : read.length + 1 = (read ++ [c]).length := by simp
        rw [if_neg (by omega), if_neg (by omega), step, size, ih (read ++ [c]) fits]
      · rw [outcome_large (by omega)]
        split
        · rfl
        · rw [if_pos (by omega)]
    · rw [parseUintLoop, if_neg digit, outcome_end small, List.takeWhile_cons_of_neg digit,
        List.append_nil]

theorem parseUintDigits_spec (s : Bytes) : parseUintDigits s = outcome (s.takeWhile isDigit) := by
  unfold parseUintDigits
  split
  · rename_i empty
    rw [List.length_eq_zero_iff.mp empty]
    rfl
  · exact parseUintLoop_spec [] s (by decide)

def parseUint64 (s : Bytes) : Option Int :=
  (if s.length = 0 then some (-1, 0) else parseUintLoop64 0 0 s).map fun (n, i) =>
    if n = -1 ∨ i ≠ s.length then -1 else n

theorem parseUint64_some (s : Bytes) : parseUint64 s = some (parseUint s) := by
  unfold parseUint64 parseUint parseUintDigits
  split
  · rfl
  · rw [parseUintLoop64_some (by omega) (by decide), Option.map_some]

instance (s : Bytes) : Decidable (Numeric s) := inferInstanceAs (Decidable (_ ∧ _))

theorem parseUint_spec (s : Bytes) : parseUint s =
    if Numeric s ∧ decimalValue s ≤ 2 ^ 63 - 1 then (decimalValue s : Int) else -1 := by
  have max := int64Max_eq
  unfold parseUint
  rw [parseUintDigits_spec]
  by_cases digits : ∀ c ∈ s, isDigit c = true
  · rw [List.takeWhile_eq_self_iff.mpr digits]
    by_cases empty : s = []
    · simp [outcome, empty, Numeric]
    by_cases fits : (decimalValue s : Int) ≤ int64Max
    · rw [if_pos ⟨⟨empty, digits⟩, by omega⟩]
      simp only [outcome, empty, fits, ↓reduceIte]
      rw [if_neg (by omega)]
    · rw [outcome_large fits, if_neg (by omega)]
      simp
  · have shorter : (s.takeWhile isDigit).length < s.length := by
      have front := List.takeWhile_prefix (p := isDigit) (l := s)
      refine Nat.lt_of_le_of_ne front.length_le (fun same => digits ?_)
      exact List.takeWhile_eq_self_iff.mp (front.eq_of_length same)
    rw [if_neg (fun numeric => digits numeric.1.2)]
    rcases outcome_cases (s.takeWhile isDigit) with refused | ⟨value, kept⟩
    · simp [refused]
    · simp only [kept]
      rw [if_pos (by omega)]

/-! Printing. -/

def nghttp2MaxUint64Digits : Nat := (lit "18446744073709551615").length

def nlenLoop (t nlen : Nat) : Nat := if t = 0 then nlen else nlenLoop (t / 10) (nlen + 1)
termination_by t
decreasing_by exact Nat.div_lt_self (by omega) (by omega)

def fillLoop (buf : Bytes) (p n : Nat) : Option Bytes :=
  if n = 0 then some buf
  else if p = 0 then none
  else (write buf (p - 1) (UInt8.ofNat (n % 10) + zero)).bind fun buf => fillLoop buf (p - 1) (n / 10)
termination_by n
decreasing_by exact Nat.div_lt_self (by omega) (by omega)

def utosString (n : Nat) : Option Bytes :=
  if n = 0 then some (lit "0")
  else
    let nlen := nlenLoop n 0
    fillLoop (List.replicate nlen 0) nlen n

def utosAt (buf : Bytes) (dst n : Nat) : Option (Bytes × Nat) :=
  if n = 0 then (write buf dst zero).map fun buf => (buf, dst + 1)
  else
    let p := dst + nlenLoop n 0
    (fillLoop buf p n).map fun buf => (buf, p)

/-- `iov` is the memory that `make_byte_ref` returns, with whatever it holds. -/
def makeStringRefUint (iov : Bytes) (n : Nat) : Option Bytes :=
  (utosAt iov 0 n).bind fun (iov, p) => (write iov p 0).map fun iov => iov.take p

def statusTexts : List (Nat × Bytes) :=
  [(100, lit "100"), (101, lit "101"), (103, lit "103"), (200, lit "200"), (201, lit "201"),
   (202, lit "202"), (203, lit "203"), (204, lit "204"), (205, lit "205"), (206, lit "206"),
   (300, lit "300"), (301, lit "301"), (302, lit "302"), (303, lit "303"), (304, lit "304"),
   (305, lit "305"), (307, lit "307"), (308, lit "308"), (400, lit "400"), (401, lit "401"),
   (402, lit "402"), (403, lit "403"), (404, lit "404"), (405, lit "405"), (406, lit "406"),
   (407, lit "407"), (408, lit "408"), (409, lit "409"), (410, lit "410"), (411, lit "411"),
   (412, lit "412"), (413, lit "413"), (414, lit "414"), (415, lit "415"), (416, lit "416"),
   (417, lit "417"), (421, lit "421"), (426, lit "426"), (428, lit "428"), (429, lit "429"),
   (431, lit "431"), (451, lit "451"), (500, lit "500"), (501, lit "501"), (502, lit "502"),
   (503, lit "503"), (504, lit "504"), (505, lit "505"), (511, lit "511")]

def stringifyStatus (iov : Bytes) (statusCode : Nat) : Option Bytes :=
  match statusTexts.lookup statusCode with
  | some text => some text
  | none => makeStringRefUint iov statusCode

theorem utosLoop_digits (n : Nat) : utosLoop n = (Nat.digits 10 n).reverse.map digitChar := by
  induction n using Nat.strongRecOn with
  | ind n ih =>
    rw [utosLoop]
    split
    · rename_i zero
      simp [zero]
    · rename_i positive
      rw [ih (n / 10) (Nat.div_lt_self (by omega) (by omega)),
        Nat.digits_def' (by omega) (by omega : 0 < n)]
      simp [digitChar]

theorem utos_canonical (n : Nat) : utos n = canonical n := by
  unfold utos canonical
  rw [utosLoop_digits]
  rfl

theorem nlenLoop_eq (t nlen : Nat) : nlenLoop t nlen = nlen + (utosLoop t).length := by
  induction t using Nat.strongRecOn generalizing nlen with
  | ind t ih =>
    rw [nlenLoop, utosLoop]
    split
    · simp
    · rw [ih (t / 10) (Nat.div_lt_self (by omega) (by omega)), List.length_append,
        List.length_singleton]
      omega

theorem fillLoop_spec (before gap after : Bytes) (n : Nat) (size : gap.length = (utosLoop n).length) :
    fillLoop (before ++ (gap ++ after)) (before.length + gap.length) n =
      some (before ++ (utosLoop n ++ after)) := by
  induction n using Nat.strongRecOn generalizing gap after with
  | ind n ih =>
    rw [fillLoop]
    rw [utosLoop] at size ⊢
    split
    · rename_i zero
      rw [if_pos zero, List.length_nil, List.length_eq_zero_iff] at size
      rw [size]
    · rename_i positive
      rw [if_neg positive] at size
      cases gap using List.reverseRecOn with
      | nil => simp at size
      | append_singleton gap old =>
        simp only [List.length_append, List.length_singleton] at size ⊢
        have last : before.length + (gap.length + 1) - 1 = (before ++ gap).length := by
          rw [List.length_append]
          omega
        have cells : before ++ (gap ++ [old] ++ after) = (before ++ gap) ++ old :: after := by simp
        rw [if_neg (by omega), last, cells, write_middle, Option.bind_some, List.append_assoc,
          List.length_append, ih (n / 10) (Nat.div_lt_self (by omega) (by omega)) gap _ (by omega)]
        simp

theorem utosString_eq (n : Nat) : utosString n = some (utos n) := by
  unfold utosString utos
  split
  · rfl
  · have size : nlenLoop n 0 = (utosLoop n).length := by
      rw [nlenLoop_eq]
      omega
    have filled := fillLoop_spec [] (List.replicate (nlenLoop n 0) 0) [] n (by simp [size])
    simpa using filled

theorem utosAt_eq (before gap after : Bytes) (n : Nat) (size : gap.length = (utos n).length) :
    utosAt (before ++ (gap ++ after)) before.length n =
      some (before ++ (utos n ++ after), before.length + (utos n).length) := by
  unfold utosAt
  unfold utos at size ⊢
  split
  · rename_i zero
    rw [if_pos zero] at size
    obtain ⟨old, rfl⟩ := List.length_eq_one_iff.mp size
    rw [List.singleton_append, write_middle]
    rfl
  · rename_i positive
    rw [if_neg positive] at size
    have length : nlenLoop n 0 = gap.length := by
      rw [nlenLoop_eq, size]
      omega
    simp only [length]
    rw [fillLoop_spec before gap after n size, Option.map_some, size]

theorem canonical_length {n : Nat} (small : n < 2 ^ 64) :
    (canonical n).length ≤ nghttp2MaxUint64Digits := by
  have digits : nghttp2MaxUint64Digits = 20 := by decide
  unfold canonical
  split
  · simp [digits]
  · rw [List.length_map, List.length_reverse, digits, Nat.digits_length_le_iff (by omega)]
    omega

theorem canonical_numeric (n : Nat) : Numeric (canonical n) := by
  unfold canonical
  split
  · exact ⟨by simp, by decide +kernel⟩
  · rename_i positive
    have some_digit := Nat.digits_ne_nil_iff_ne_zero (b := 10).mpr positive
    refine ⟨by simpa using some_digit, ?_⟩
    intro c member
    obtain ⟨d, digit, rfl⟩ := List.mem_map.mp member
    exact (digit_facts d (Nat.digits_lt_base (by omega) (List.mem_reverse.mp digit))).2

theorem decimalValue_canonical (n : Nat) : decimalValue (canonical n) = n := by
  unfold canonical
  split
  · rename_i zero
    rw [zero]
    decide
  · have back : ((Nat.digits 10 n).reverse.map digitChar).reverse.map digitValue =
        Nat.digits 10 n := by
      have each : ∀ d ∈ Nat.digits 10 n, (digitValue ∘ digitChar) d = id d := by
        intro d digit
        exact (digit_facts d (Nat.digits_lt_base (by omega) digit)).1
      rw [← List.map_reverse, List.reverse_reverse, List.map_map, List.map_congr_left each,
        List.map_id]
    rw [decimalValue, back, Nat.ofDigits_digits]

theorem utosAt_room {buf : Bytes} {dst n : Nat} (room : dst + (utos n).length ≤ buf.length) :
    utosAt buf dst n = some (buf.take dst ++ (utos n ++ buf.drop (dst + (utos n).length)),
      dst + (utos n).length) := by
  have cells : buf = buf.take dst ++
      ((buf.drop dst).take (utos n).length ++ buf.drop (dst + (utos n).length)) := by
    rw [← List.drop_drop, List.take_append_drop, List.take_append_drop]
  have start : (buf.take dst).length = dst := by
    rw [List.length_take]
    omega
  have printed := utosAt_eq (buf.take dst) ((buf.drop dst).take (utos n).length)
    (buf.drop (dst + (utos n).length)) n (by simp only [List.length_take, List.length_drop]; omega)
  rwa [← cells, start] at printed

theorem makeStringRefUint_eq {iov : Bytes} {n : Nat} (room : (utos n).length < iov.length) :
    makeStringRefUint iov n = some (utos n) := by
  rw [makeStringRefUint, utosAt_room (by omega), Option.bind_some]
  simp only [List.take_zero, List.nil_append, Nat.zero_add]
  obtain ⟨old, rest, spare⟩ : ∃ old rest, iov.drop (utos n).length = old :: rest :=
    List.exists_cons_of_ne_nil (by simpa using room)
  rw [spare, write_middle, Option.map_some, List.take_left]

theorem statusTexts_utos : ∀ e ∈ statusTexts, e.2 = utos e.1 := by decide +kernel

theorem stringifyStatus_eq {iov : Bytes} {n : Nat} (room : (utos n).length < iov.length) :
    stringifyStatus iov n = some (utos n) := by
  unfold stringifyStatus
  split
  · rename_i text found
    obtain ⟨before, after, listed, _⟩ := List.lookup_eq_some_iff.mp found
    rw [← statusTexts_utos (n, text) (by simp [listed])]
  · exact makeStringRefUint_eq room

/-- `parse_uint` reads every decimal text that fits and nothing else, without overflow;
    both variants of `utos` print the canonical digits in at most twenty bytes, so that
    `parse_uint` reads them back; and `stringify_status` prints the same. -/
theorem decimal_round_trip :
    (∀ s, parseUint64 s = some
      (if Numeric s ∧ decimalValue s ≤ 2 ^ 63 - 1 then (decimalValue s : Int) else -1)) ∧
    (∀ n : UInt64, utosString n.toNat = some (canonical n.toNat) ∧
      (canonical n.toNat).length ≤ nghttp2MaxUint64Digits ∧
      (∀ buf dst, dst + nghttp2MaxUint64Digits ≤ buf.length → utosAt buf dst n.toNat =
        some (buf.take dst ++ (canonical n.toNat ++ buf.drop (dst + (canonical n.toNat).length)),
          dst + (canonical n.toNat).length)) ∧
      (utosString n.toNat).bind parseUint64 =
        some (if n.toNat ≤ 2 ^ 63 - 1 then (n.toNat : Int) else -1)) ∧
    ∀ (n : UInt32) (iov : Bytes), iov.length = nghttp2MaxUint64Digits + 1 →
      stringifyStatus iov n.toNat = utosString n.toNat := by
  have parsed : ∀ s, parseUint64 s = some
      (if Numeric s ∧ decimalValue s ≤ 2 ^ 63 - 1 then (decimalValue s : Int) else -1) := by
    intro s
    rw [parseUint64_some, parseUint_spec]
  refine ⟨parsed, fun n => ?_, fun n iov size => ?_⟩
  · have length := canonical_length n.toNat_lt
    refine ⟨by rw [utosString_eq, utos_canonical], length, fun buf dst room => ?_, ?_⟩
    · rw [← utos_canonical] at length ⊢
      exact utosAt_room (by omega)
    · rw [utosString_eq, utos_canonical, Option.bind_some, parsed, decimalValue_canonical]
      simp only [canonical_numeric, true_and]
  · have small : n.toNat < 2 ^ 64 := Nat.lt_trans n.toNat_lt (by omega)
    have length := canonical_length small
    rw [← utos_canonical] at length
    rw [utosString_eq, stringifyStatus_eq (by omega)]

end Nghttp2Asio.Decimal
