import Mathlib.Algebra.Group.Int.Defs
import Mathlib.Algebra.GroupWithZero.Nat
import Mathlib.Data.List.Basic

/-!
Byte strings and the functions of util.h and util.cc that the path, header and
table code is built on. A `char` is a byte here; where the source compares signed
characters the comparison is made on the signed value.
-/
namespace Nghttp2Asio

abbrev Bytes := List UInt8

def lit (s : String) : Bytes := s.toList.map Char.toUInt8

def slash : UInt8 := '/'.toUInt8
def dot : UInt8 := '.'.toUInt8
def question : UInt8 := '?'.toUInt8
def percent : UInt8 := '%'.toUInt8
def zero : UInt8 := '0'.toUInt8

theorem forall_byte_iff {P : UInt8 → Prop} : (∀ n < 256, P (UInt8.ofNat n)) ↔ ∀ c, P c := by
  constructor
  · intro all c
    have found := all c.toNat c.toNat_lt
    rwa [UInt8.ofNat_toNat] at found
  · intro all n _
    exact all (UInt8.ofNat n)

instance decidableForallByte {P : UInt8 → Prop} [DecidablePred P] : Decidable (∀ c, P c) :=
  decidable_of_iff _ forall_byte_iff

theorem percent_ne_slash : percent ≠ slash := by decide
theorem question_ne_slash : question ≠ slash := by decide

namespace Util

def between (lo hi : Char) (c : UInt8) : Bool := lo.toUInt8 ≤ c && c ≤ hi.toUInt8

def isAlpha (c : UInt8) : Bool := between 'A' 'Z' c || between 'a' 'z' c

def isDigit (c : UInt8) : Bool := between '0' '9' c

def isHexDigit (c : UInt8) : Bool := isDigit c || between 'A' 'F' c || between 'a' 'f' c

def inRfc3986UnreservedChars (c : UInt8) : Bool :=
  isAlpha c || isDigit c || (lit "-._~").contains c

def inRfc3986SubDelims (c : UInt8) : Bool := (lit "!$&'()*+,;=").contains c

def upperXdigit (n : UInt8) : UInt8 := (lit "0123456789ABCDEF").getD n.toNat 0

def percentEncodeChar (c : UInt8) : Bytes :=
  if inRfc3986UnreservedChars c || inRfc3986SubDelims c || c == slash then [c]
  else [percent, upperXdigit ((c >>> 4) &&& 0x0f), upperXdigit (c &&& 0x0f)]

def percentEncodePath (s : Bytes) : Bytes := s.flatMap percentEncodeChar

/-- The bounds `'9'`, `'Z'` and `'z'` are compared with a signed `char`. -/
def hexToUint (c : UInt8) : UInt32 :=
  let n := c.toInt8.toInt
  if n ≤ 57 then UInt32.ofInt (n - 48)
  else if n ≤ 90 then UInt32.ofInt (n - 65 + 10)
  else if n ≤ 122 then UInt32.ofInt (n - 97 + 10)
  else 256

/-- An escape that is cut short or not hexadecimal passes through unchanged. -/
def percentDecode : Bytes → Bytes
  | [] => []
  | c :: h :: l :: rest =>
    if c = percent ∧ isHexDigit h = true ∧ isHexDigit l = true then
      ((hexToUint h <<< 4) + hexToUint l).toUInt8 :: percentDecode rest
    else c :: percentDecode (h :: l :: rest)
  | c :: rest => c :: percentDecode rest

def startsWith (a b : Bytes) : Bool := b.isPrefixOf a

def int64Max : Int := 2 ^ 63 - 1

def parseUintLoop (n : Int) (i : Nat) : Bytes → Int × Nat
  | [] => if i = 0 then (-1, 0) else (n, i)
  | c :: rest =>
    if isDigit c then
      let d : Int := (c - zero).toNat
      if n > int64Max / 10 then (-1, 0)
      else if n * 10 > int64Max - d then (-1, 0)
      else parseUintLoop (n * 10 + d) (i + 1) rest
    else if i = 0 then (-1, 0) else (n, i)

def parseUintDigits (s : Bytes) : Int × Nat :=
  if s.length = 0 then (-1, 0) else parseUintLoop 0 0 s

def parseUint (s : Bytes) : Int :=
  let (n, i) := parseUintDigits s
  if n = -1 ∨ i ≠ s.length then -1 else n

def utosLoop (n : Nat) : Bytes :=
  if n = 0 then [] else utosLoop (n / 10) ++ [UInt8.ofNat (n % 10) + zero]
termination_by n
decreasing_by exact Nat.div_lt_self (by omega) (by omega)

def utos (n : Nat) : Bytes := if n = 0 then lit "0" else utosLoop n

example : percentDecode (percentEncodePath (lit "/a b%/c")) = lit "/a b%/c" := by decide

theorem percentEncodeChar_slash : percentEncodeChar slash = [slash] := by decide

theorem percentEncodeChar_head (c : UInt8) (other : c ≠ slash) (rest : Bytes) :
    ∃ h tail, percentEncodeChar c ++ rest = h :: tail ∧ h ≠ slash := by
  unfold percentEncodeChar
  split
  · exact ⟨c, rest, rfl, other⟩
  · exact ⟨percent, _, rfl, percent_ne_slash⟩

end Util

end Nghttp2Asio
