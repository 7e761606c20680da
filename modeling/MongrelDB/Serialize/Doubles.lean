import MongrelDB.Page.Value
import MongrelDB.Serialize.Text

/-!
# Doubles read back

A double is written with the digits `%.17g` prints, and `parse_scalar_into` takes
a number without `.` and exponent for an integer. So a double keeps its tag
unless it is an integer below `10 ^ 17`, and such a one comes back as the same
integer (`jsonSerializeValue_double`).
-/

namespace MongrelDB

open Ascii

/-! ## What a double stands for -/

namespace F64

variable (d : F64)

/-- The sign bit is set. -/
def negative : Bool := 2 ^ 63 ≤ d.bits.toNat

/-- The biased exponent. -/
def exponent : Nat := d.bits.toNat / 2 ^ 52 % 2 ^ 11

/-- The digits behind the binary point. -/
def fraction : Nat := d.bits.toNat % 2 ^ 52

/-- The magnitude of a finite double, as a multiple of the least positive one, `2 ^ -1074`. -/
def magnitude : Nat :=
  if d.exponent = 0 then d.fraction else (2 ^ 52 + d.fraction) * 2 ^ (d.exponent - 1)

/-- A finite double stands for the integer `i`. -/
def Denotes (i : Int) : Prop :=
  (if d.negative then -(d.magnitude : Int) else d.magnitude) = i * 2 ^ 1074

/-- A finite double stands for an integer of a magnitude below `10 ^ 17`. -/
def IsShortInt : Prop := ∃ i : Int, d.Denotes i ∧ i.natAbs < 10 ^ 17

variable {d}

/-- The sign of the integer is that of the double. -/
theorem Denotes.sign {i : Int} (h : d.Denotes i) :
    i = if d.negative then -(i.natAbs : Int) else i.natAbs := by
  have hpos : (0 : Int) < 2 ^ 1074 := by positivity
  have hmag : (0 : Int) ≤ d.magnitude := Int.natCast_nonneg _
  rw [Denotes] at h
  split_ifs at h ⊢
  · have hle : i ≤ 0 := by
      by_contra hlt
      have := Int.mul_pos (not_le.1 hlt) hpos
      omega
    omega
  · have hge : 0 ≤ i := by
      by_contra hlt
      have := Int.mul_neg_of_neg_of_pos (not_le.1 hlt) hpos
      omega
    omega

end F64

/-! ## The digits -/

/-- How `%.17g` prints the finite double `d`: an integer below `10 ^ 17` by its
    digits, and every other one as a number with a `.` or an exponent. -/
structure Libc.PrintsG (lib : Libc) (d : F64) : Prop where
  short : ∀ i : Int, d.Denotes i → i.natAbs < 10 ^ 17 →
    (lib.printG d).bytes = (if d.negative then [minus] else []) ++ natText i.natAbs
  other : ¬d.IsShortInt → lib.PrintsNumber d ∧
    (dot ∈ (lib.printG d).bytes ∨ lowerE ∈ (lib.printG d).bytes)

theorem not_looksInt {t : Bytes} (h : dot ∈ t ∨ lowerE ∈ t) : looksInt t = false := by
  rw [looksInt, List.all_eq_false]
  rcases h with h | h <;> exact ⟨_, h, by decide⟩

/-- The digits of an integer, with its sign, are read as that integer. -/
theorem intVal?_signed {i : Int} {neg : Bool}
    (h : i = if neg then -(i.natAbs : Int) else i.natAbs) :
    intVal? ((if neg then [minus] else []) ++ natText i.natAbs) = some i := by
  cases neg with
  | true =>
    rw [if_pos rfl] at h ⊢
    rw [List.singleton_append, intVal?, if_pos rfl, if_pos (isNatText_natText _),
      natOf_natText, ← h]
  | false =>
    rw [if_neg Bool.false_ne_true] at h ⊢
    rw [List.nil_append, intVal?_natText, ← h]

variable {lib : Libc} {d : F64} {r : Bytes}

/-- What `parse_scalar_into` makes of a number of less than 64 characters. -/
theorem parseScalarInto_number {t : Bytes} (ht : isNumber t = true) (hlen : t.length < 64)
    (hr : StopsAt isNumberChar r) (n : Nat) (blob : Sbuf) (h : Heap) :
    parseScalarInto lib n ⟨t ++ r, true⟩ blob h =
      .ok ⟨⟨r, true⟩, if looksInt t then .int64 (strtoll t) else .double (lib.strtod t), blob,
        NO_OFFSET, h⟩ := by
  have hplain := parseScalar_plain lib (v := .ofNum t ht) rfl Ws.none hr n 0 blob h
  rwa [show Ws.none.bytes = [] from rfl, List.nil_append, Json.ofNum, Json.text, Json.stored,
    clipTok_of_lt hlen] at hplain

/-- `parse_scalar_into` on what `json_serialize_value` writes for a finite double:
    the tag is that of a double again unless the double is an integer below
    `10 ^ 17`, and then the value is that integer. -/
theorem jsonSerializeValue_double (hd : d.isFinite = true) (hg : lib.PrintsG d)
    (hr : StopsAt isNumberChar r) (n : Nat) (blob : Sbuf) (h : Heap) :
    ∃ v, parseScalarInto lib n ⟨(jsonSerializeValue lib (.double d)).flatten ++ r, true⟩ blob h =
        .ok ⟨⟨r, true⟩, v, blob, NO_OFFSET, h⟩ ∧
      ((∃ x, v = .double x) ↔ ¬d.IsShortInt) ∧
      ∀ i : Int, d.Denotes i → i.natAbs < 10 ^ 17 → ∃ k : Int64, v = .int64 k ∧ k.toInt = i := by
  have htext : (lib.printG d).bytes.length < 64 →
      (jsonSerializeValue lib (.double d)).flatten = (lib.printG d).bytes := fun hlen => by
    simp [jsonSerializeValue, hd, snprintf, List.take_of_length_le (Nat.le_of_lt_succ hlen)]
  by_cases hshort : d.IsShortInt
  · obtain ⟨i, hi, hlt⟩ := hshort
    have hprint := hg.short i hi hlt
    have hval := intVal?_signed hi.sign
    rw [← hprint] at hval
    have hlen : (lib.printG d).bytes.length < 64 := by
      have := length_le_of_natAbs_lt (k := 16) hval hlt
      omega
    have hint : looksInt (lib.printG d).bytes = true := by
      rw [hprint, looksInt, List.all_append, ← looksInt, ← looksInt,
        looksInt_of_digits (all_isDigit_natText _), Bool.and_true]
      split_ifs <;> rfl
    have hk : (strtoll (lib.printG d).bytes).toInt = i :=
      strtoll_of_intVal? hval (by omega) (by omega)
    rw [htext hlen]
    refine ⟨_, parseScalarInto_number (isNumber_of_intVal? hval) hlen hr n blob h, ?_,
      fun i' hi' _ => ?_⟩
    · rw [hint, if_pos rfl]
      exact iff_of_false (by simp) fun hn => hn ⟨i, hi, hlt⟩
    · obtain rfl : i' = i := by
        have heq : i' * 2 ^ 1074 = i * 2 ^ 1074 := hi'.symm.trans hi
        exact Int.eq_of_mul_eq_mul_right (by positivity) heq
      rw [hint, if_pos rfl]
      exact ⟨_, rfl, hk⟩
  · obtain ⟨⟨hnum, hlen⟩, hchar⟩ := hg.other hshort
    rw [htext hlen]
    refine ⟨_, parseScalarInto_number hnum hlen hr n blob h, ?_, fun i hi hlt =>
      absurd ⟨i, hi, hlt⟩ hshort⟩
    rw [not_looksInt hchar, if_neg Bool.false_ne_true]
    exact iff_of_true ⟨_, rfl⟩ hshort

/-- Conversions that know the double `d` only, by the text `s`. -/
def Libc.knowing (d : F64) (s : CStr) : Libc where
  strtod t := if t = s.bytes then d else ⟨0⟩
  printG _ := s

/-- The double `1.5`. -/
def onePointFive : F64 := ⟨0x3ff8000000000000⟩

theorem onePointFive_not_short : ¬onePointFive.IsShortInt := by
  rintro ⟨i, hi, -⟩
  have hodd : (3 : Int) ≠ i * 2 := by omega
  have hmag : onePointFive.magnitude = 3 * 2 ^ 1073 := by decide +kernel
  rw [F64.Denotes, show onePointFive.negative = false by decide, hmag] at hi
  have hpow : (2 : Int) ^ 1074 = 2 * 2 ^ 1073 := by rw [← pow_succ']
  have hpos : (0 : Int) < 2 ^ 1073 := by positivity
  rw [if_neg Bool.false_ne_true, hpow, ← mul_assoc, Nat.cast_mul, Nat.cast_pow, Nat.cast_ofNat,
    Nat.cast_ofNat] at hi
  exact hodd (Int.eq_of_mul_eq_mul_right hpos.ne' hi)

/-- The double `1.5` keeps its tag. -/
theorem jsonSerializeValue_double_onePointFive : ∃ x h',
    parseScalarInto (.knowing onePointFive (.lit "1.5")) 1
        ⟨(jsonSerializeValue (.knowing onePointFive (.lit "1.5")) (.double onePointFive)).flatten,
          true⟩ Sbuf.empty Heap.unlimited =
      .ok ⟨⟨[], true⟩, .double x, Sbuf.empty, NO_OFFSET, h'⟩ := by
  have hprint : (Libc.knowing onePointFive (.lit "1.5")).PrintsG onePointFive :=
    ⟨fun i hi hlt => absurd ⟨i, hi, hlt⟩ onePointFive_not_short,
      fun _ => ⟨⟨by decide, by decide⟩, .inl (by decide)⟩⟩
  obtain ⟨v, he, htag, -⟩ := jsonSerializeValue_double (r := []) (by decide) hprint
    (fun c hc => absurd hc (by simp)) 1 Sbuf.empty Heap.unlimited
  obtain ⟨x, rfl⟩ := htag.2 onePointFive_not_short
  rw [List.append_nil] at he
  exact ⟨x, _, he⟩

/-- The double `1`. -/
def oneDouble : F64 := ⟨0x3ff0000000000000⟩

/-- The double `1` is printed as `1`, and comes back as an integer. -/
theorem oneDouble_integer :
    oneDouble.isFinite = true ∧ (Libc.knowing oneDouble (.lit "1")).PrintsG oneDouble ∧
      parseScalarInto (.knowing oneDouble (.lit "1")) 1
          ⟨(jsonSerializeValue (.knowing oneDouble (.lit "1")) (.double oneDouble)).flatten, true⟩
          Sbuf.empty Heap.unlimited =
        .ok ⟨⟨[], true⟩, .int64 1, Sbuf.empty, NO_OFFSET, Heap.unlimited⟩ := by
  have hone : oneDouble.Denotes 1 := by
    rw [F64.Denotes]
    decide +kernel
  refine ⟨by decide, ⟨fun i hi _ => ?_, fun hn => absurd ⟨1, hone, by decide⟩ hn⟩, by rfl⟩
  obtain rfl : i = 1 := by
    have heq : i * 2 ^ 1074 = 1 * 2 ^ 1074 := hi.symm.trans hone
    exact Int.eq_of_mul_eq_mul_right (by positivity) heq
  decide

end MongrelDB
