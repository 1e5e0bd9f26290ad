import Mathlib.Data.List.TakeWhile
import Nghttp2Asio.Http

/-!
Percent coding of paths (util.h, util.cc and `split_path` of asio_common.h): the
decoder undoes the encoder on every byte string, and an encoded path is safe to
stand in a header field in front of a query.
-/
namespace Nghttp2Asio.PercentCoding
open Util

/-! The alphabet of RFC 3986, written out. -/

def unreserved : Bytes :=
  lit "ABCDEFGHIJKLMNOPQRSTUVWXYZabcdefghijklmnopqrstuvwxyz0123456789-._~"

def subDelims : Bytes := lit "!$&'()*+,;="

def upperHex : Bytes := lit "0123456789ABCDEF"

inductive EncodedText : Bytes → Prop where
  | done : EncodedText []
  | plain {c : UInt8} {rest : Bytes} (allowed : c ∈ unreserved ∨ c ∈ subDelims ∨ c = slash)
      (more : EncodedText rest) : EncodedText (c :: rest)
  | escape {h l : UInt8} {rest : Bytes} (high : h ∈ upperHex) (low : l ∈ upperHex)
      (more : EncodedText rest) : EncodedText (percent :: h :: l :: rest)

def delimiters : Bytes := [13, 10, 0, 32, question, 35]

theorem reserved_not_allowed :
    ∀ d ∈ percent :: delimiters, d ∉ unreserved ∧ d ∉ subDelims ∧ d ≠ slash := by
  decide +kernel

theorem allowed_safe {c : UInt8} (allowed : c ∈ unreserved ∨ c ∈ subDelims ∨ c = slash) :
    c ∉ percent :: delimiters := by
  intro reserved
  obtain ⟨not_unreserved, not_delim, not_slash⟩ := reserved_not_allowed c reserved
  obtain member | member | same := allowed
  · exact not_unreserved member
  · exact not_delim member
  · exact not_slash same

theorem delimiters_not_hex : ∀ d ∈ delimiters, d ∉ upperHex := by decide +kernel

theorem hex_safe {c : UInt8} (hex : c ∈ upperHex) : c ∉ delimiters :=
  fun delimiter => delimiters_not_hex c delimiter hex

theorem percent_safe : percent ∉ delimiters := by decide

theorem encodedText_safe {s : Bytes} (encoded : EncodedText s) : ∀ c ∈ s, c ∉ delimiters := by
  induction encoded with
  | done => simp
  | plain allowed more ih =>
    intro c member
    rcases List.mem_cons.mp member with same | later
    · exact fun delimiter => allowed_safe allowed (List.mem_cons_of_mem _ (same ▸ delimiter))
    · exact ih c later
  | escape high low more ih =>
    intro c member
    simp only [List.mem_cons] at member
    obtain same | same | same | later := member
    · exact same ▸ percent_safe
    · exact hex_safe (same ▸ high)
    · exact hex_safe (same ▸ low)
    · exact ih c later

/-! One byte. -/

theorem unreservedChars_mem :
    ∀ c : UInt8, inRfc3986UnreservedChars c = true → c ∈ unreserved := by
  decide +kernel

theorem upperXdigit_spec : ∀ n : UInt8, n < 16 →
    upperXdigit n ∈ upperHex ∧ isHexDigit (upperXdigit n) = true ∧
      hexToUint (upperXdigit n) = n.toUInt32 := by
  decide +kernel

theorem nibbles_spec : ∀ c : UInt8, (c >>> 4) &&& 0x0f < 16 ∧ c &&& 0x0f < 16 ∧
    ((((c >>> 4) &&& 0x0f).toUInt32 <<< 4) + (c &&& 0x0f).toUInt32).toUInt8 = c := by
  decide +kernel

theorem percentEncodeChar_cases (c : UInt8) :
    (percentEncodeChar c = [c] ∧ c ≠ percent ∧ (c ∈ unreserved ∨ c ∈ subDelims ∨ c = slash)) ∨
      ∃ h l, percentEncodeChar c = [percent, h, l] ∧ h ∈ upperHex ∧ l ∈ upperHex ∧
        isHexDigit h = true ∧ isHexDigit l = true ∧
        ((hexToUint h <<< 4) + hexToUint l).toUInt8 = c := by
  unfold percentEncodeChar
  split
  · rename_i kept
    simp only [Bool.or_eq_true, beq_iff_eq, or_assoc] at kept
    have allowed : c ∈ unreserved ∨ c ∈ subDelims ∨ c = slash := by
      obtain plain | delim | same := kept
      · exact Or.inl (unreservedChars_mem c plain)
      · exact Or.inr (Or.inl (List.contains_iff_mem.mp delim))
      · exact Or.inr (Or.inr same)
    have other : c ≠ percent := fun same => allowed_safe allowed (same ▸ List.mem_cons_self)
    exact Or.inl ⟨rfl, other, allowed⟩
  · obtain ⟨high, low, value⟩ := nibbles_spec c
    obtain ⟨high_mem, high_hex, high_value⟩ := upperXdigit_spec _ high
    obtain ⟨low_mem, low_hex, low_value⟩ := upperXdigit_spec _ low
    refine Or.inr ⟨_, _, rfl, high_mem, low_mem, high_hex, low_hex, ?_⟩
    rw [high_value, low_value, value]

theorem percentDecode_plain {c : UInt8} (other : c ≠ percent) (rest : Bytes) :
    percentDecode (c :: rest) = c :: percentDecode rest := by
  match rest with
  | [] => simp [percentDecode]
  | [h] => simp [percentDecode]
  | h :: l :: rest => rw [percentDecode, if_neg (by simp [other])]

theorem percentDecode_encodeChar (c : UInt8) (rest : Bytes) :
    percentDecode (percentEncodeChar c ++ rest) = c :: percentDecode rest := by
  obtain ⟨kept, other, _⟩ | ⟨h, l, escaped, _, _, high, low, value⟩ := percentEncodeChar_cases c
  · rw [kept]
    exact percentDecode_plain other rest
  · rw [escaped]
    simp only [List.cons_append, List.nil_append, percentDecode, high, low, and_self, ↓reduceIte,
      value]

/-! Whole paths. -/

theorem percentEncodePath_cons (c : UInt8) (s : Bytes) :
    percentEncodePath (c :: s) = percentEncodeChar c ++ percentEncodePath s := by
  simp [percentEncodePath]

theorem percentDecode_encodePath (s : Bytes) : percentDecode (percentEncodePath s) = s := by
  induction s with
  | nil => rfl
  | cons c s ih => rw [percentEncodePath_cons, percentDecode_encodeChar, ih]

theorem percentEncodePath_encoded (s : Bytes) : EncodedText (percentEncodePath s) := by
  induction s with
  | nil => exact .done
  | cons c s ih =>
    rw [percentEncodePath_cons]
    obtain ⟨kept, _, allowed⟩ | ⟨h, l, escaped, high, low, _⟩ := percentEncodeChar_cases c
    · rw [kept]
      exact .plain allowed ih
    · rw [escaped]
      exact .escape high low ih

theorem splitPath_noQuery (dst : UriRef) {rawPath : Bytes} (free : question ∉ rawPath) :
    splitPath dst rawPath =
      { dst with path := percentDecode rawPath, rawPath := rawPath, rawQuery := [] } := by
  have inside : ∀ c ∈ rawPath, decide (c ≠ question) = true := by
    intro c member
    simpa using ne_of_mem_of_not_mem member free
  simp only [splitPath, List.takeWhile_eq_self_iff.mpr inside, List.dropWhile_eq_nil_iff.mpr inside,
    List.drop_nil]

theorem splitPath_query (dst : UriRef) {rawPath : Bytes} (free : question ∉ rawPath) (query : Bytes) :
    splitPath dst (rawPath ++ question :: query) =
      { dst with path := percentDecode rawPath, rawPath := rawPath, rawQuery := query } := by
  have inside : ∀ c ∈ rawPath, decide (c ≠ question) = true := by
    intro c member
    simpa using ne_of_mem_of_not_mem member free
  rw [splitPath, List.takeWhile_append_of_pos inside, List.dropWhile_append_of_pos inside]
  simp

/-- A target made of a path and a query: the `?` is there only with a query. -/
def target (path query : Bytes) : Bytes :=
  percentEncodePath path ++ (if query = [] then [] else question :: query)

theorem splitPath_target (dst : UriRef) (path query : Bytes) :
    splitPath dst (target path query) =
      { dst with path := path, rawPath := percentEncodePath path, rawQuery := query } := by
  have free : question ∉ percentEncodePath path := fun member =>
    encodedText_safe (percentEncodePath_encoded path) question member (by decide)
  unfold target
  split
  · rename_i empty
    rw [List.append_nil, splitPath_noQuery dst free, percentDecode_encodePath, empty]
  · rw [splitPath_query dst free, percentDecode_encodePath]

/-- Decoding undoes encoding for every byte string; an encoded path is made of the
    characters of RFC 3986 and escapes alone; and a target is split into what it was
    made of. -/
theorem percent_coding_round_trip (s q : Bytes) :
    percentDecode (percentEncodePath s) = s ∧
      EncodedText (percentEncodePath s) ∧
      (∀ c ∈ percentEncodePath s, c ∉ delimiters) ∧
      ∀ dst, (splitPath dst (target s q)).path = s ∧
        (splitPath dst (target s q)).rawPath = percentEncodePath s ∧
        (splitPath dst (target s q)).rawQuery = q := by
  refine ⟨percentDecode_encodePath s, percentEncodePath_encoded s,
    encodedText_safe (percentEncodePath_encoded s), fun dst => ?_⟩
  rw [splitPath_target]
  exact ⟨rfl, rfl, rfl⟩

end Nghttp2Asio.PercentCoding
