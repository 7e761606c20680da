import Mathlib.Data.List.Basic
import Mathlib.Data.List.TakeWhile
import Mathlib.Data.FinEnum

/-!
# Bytes and C strings

Texts are runs of bytes, as a C program sees them: no encoding is assumed, so a
byte above `0x7f` is a byte like any other. A C string (`CStr`) is a run
without NUL, the bytes before its terminator; what a `char *` into a buffer
denotes is the part of the buffer up to the first NUL (`CStr.at`).

The characters the texts of this development are made of have names here, as
do the classes of characters a scanner tests for.
-/

namespace MongrelDB

/-- A run of bytes: a text, or a part of a buffer. -/
abbrev Bytes := List UInt8

/-- The bytes of an ASCII literal. -/
def ascii (s : String) : Bytes := s.toList.map fun c => UInt8.ofNat c.toNat

namespace Ascii

/-! ## Characters -/

abbrev quote : UInt8 := 34
abbrev plus : UInt8 := 43
abbrev comma : UInt8 := 44
abbrev minus : UInt8 := 45
abbrev dot : UInt8 := 46
abbrev slash : UInt8 := 47
abbrev zero : UInt8 := 48
abbrev colon : UInt8 := 58
abbrev upperE : UInt8 := 69
abbrev lbrack : UInt8 := 91
abbrev backslash : UInt8 := 92
abbrev rbrack : UInt8 := 93
abbrev underscore : UInt8 := 95
abbrev lowerB : UInt8 := 98
abbrev lowerE : UInt8 := 101
abbrev lowerF : UInt8 := 102
abbrev lowerN : UInt8 := 110
abbrev lowerR : UInt8 := 114
abbrev lowerT : UInt8 := 116
abbrev lowerU : UInt8 := 117
abbrev lbrace : UInt8 := 123
abbrev rbrace : UInt8 := 125

/-! ## Classes -/

/-- A decimal digit. -/
def isDigit (c : UInt8) : Bool := 48 ≤ c && c ≤ 57

/-- The whitespace between JSON tokens. -/
def isWs (c : UInt8) : Bool := c == 32 || c == 9 || c == 10 || c == 13

/-- The whitespace of `isspace` in the C locale. -/
def isSpace (c : UInt8) : Bool := c == 32 || (9 ≤ c && c ≤ 13)

/-- The first character of a number. -/
def startsNumber (c : UInt8) : Bool := c == minus || isDigit c

/-- The characters a number token runs over. -/
def isNumberChar (c : UInt8) : Bool :=
  isDigit c || c == minus || c == plus || c == dot || c == lowerE || c == upperE

/-- The first character of a literal. -/
def startsLiteral (c : UInt8) : Bool := c == lowerT || c == lowerF || c == lowerN

/-- The characters a literal token runs over. -/
def isLiteralChar (c : UInt8) : Bool :=
  (97 ≤ c && c ≤ 122) || (65 ≤ c && c ≤ 90) || c == underscore

/-- A property of bytes holds if it holds of the sixteen rows of sixteen
bytes, which is how it is decided below. -/
theorem forall_byte {p : UInt8 → Prop} (h : ∀ n < 16, ∀ m < 16, p (UInt8.ofNat (16 * n + m)))
    (c : UInt8) : p c := by
  have hc := h (c.toNat / 16) (by have := c.toNat_lt; omega) (c.toNat % 16)
    (Nat.mod_lt _ (by decide))
  rwa [Nat.div_add_mod, UInt8.ofNat_toNat] at hc

theorem not_isSpace_of_startsNumber : ∀ c, startsNumber c = true → isSpace c = false :=
  forall_byte (by decide)

theorem isNumberChar_of_startsNumber : ∀ c, startsNumber c = true → isNumberChar c = true :=
  forall_byte (by decide)

theorem isLiteralChar_of_startsLiteral : ∀ c, startsLiteral c = true → isLiteralChar c = true :=
  forall_byte (by decide)

theorem startsNumber_of_isDigit : ∀ c, isDigit c = true → startsNumber c = true :=
  forall_byte (by decide)

theorem not_isWs_of_startsNumber : ∀ c, startsNumber c = true → isWs c = false :=
  forall_byte (by decide)

end Ascii

/-! ## C strings -/

/-- A C string: the bytes before the terminating NUL. -/
@[ext]
structure CStr where
  bytes : Bytes
  noNul : (0 : UInt8) ∉ bytes
  deriving DecidableEq

namespace CStr

/-- The string a `char *` at the bytes `b` denotes: those before the first NUL. -/
def «at» (b : Bytes) : CStr where
  bytes := b.takeWhile (· != 0)
  noNul h := by simpa using List.mem_takeWhile_imp h

/-- A literal of the source, which has no NUL inside. -/
def lit (s : String) (h : decide ((0 : UInt8) ∉ ascii s) = true := by exact Eq.refl true) : CStr :=
  ⟨ascii s, of_decide_eq_true h⟩

/-- The string at a run without NUL, terminated, is that run. -/
theorem at_append_nul {b : Bytes} (h : (0 : UInt8) ∉ b) (r : Bytes) :
    (CStr.at (b ++ 0 :: r)).bytes = b := by
  have hb : ∀ c ∈ b, (c != 0) = true := fun c hc => by
    simpa using fun h0 : c = 0 => h (h0 ▸ hc)
  simp [CStr.at, List.takeWhile_append_of_pos hb]

/-- The string at a terminated run of bytes is a prefix of that run. -/
theorem at_terminated_prefix (b : Bytes) : (CStr.at (b ++ [0])).bytes <+: b := by
  have hbytes : (CStr.at (b ++ [0])).bytes = b.takeWhile (· != 0) := by
    induction b with
    | nil => rfl
    | cons c b ih =>
      simp only [CStr.at, List.cons_append, List.takeWhile_cons] at ih ⊢
      rw [ih]
  exact hbytes ▸ List.takeWhile_prefix _

/-- The string at a C string, terminated, is that string. -/
theorem at_self (s : CStr) (r : Bytes) : CStr.at (s.bytes ++ 0 :: r) = s :=
  CStr.ext (at_append_nul s.noNul r)

/-- What stands behind the NUL is not of the string. -/
theorem at_append {b : Bytes} (hb : (0 : UInt8) ∈ b) (r : Bytes) :
    CStr.at (b ++ r) = CStr.at b := by
  obtain ⟨pre, post, rfl, hpre⟩ := List.eq_append_cons_of_mem hb
  rw [CStr.ext_iff, List.append_assoc, List.cons_append, at_append_nul hpre, at_append_nul hpre]

end CStr

end MongrelDB
