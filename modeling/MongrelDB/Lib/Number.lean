import Mathlib.Algebra.Field.Rat
import Mathlib.Algebra.Order.Ring.Int
import MongrelDB.Lib.Json

/-!
# The value of a number

The number a JSON number denotes, fraction and exponent included (`numVal`), and
the integer in front of its fraction and exponent (`leadInt`).

`strtoll` stops at a fraction and at an exponent, and saturates: on a number, and
on its first characters if there are enough of them, it returns the integer in
front, clamped to 64 bits (`strtoll_take`). That is the number itself exactly if
the number fits 64 bits as it is written (`clamp_leadInt_iff`).
-/

namespace MongrelDB

open Ascii

/-! ## What a number denotes -/

/-- The integer in front: a sign, if there is one, and the digits behind it. -/
def leadInt (s : Bytes) : Int :=
  let (neg, r) := splitSign s
  if neg then -natOf (r.takeWhile isDigit) else natOf (r.takeWhile isDigit)

/-- The digits behind the point, and what follows them. -/
def splitFraction : Bytes → Bytes × Bytes
  | c :: s => if c = dot then (s.takeWhile isDigit, s.dropWhile isDigit) else ([], c :: s)
  | [] => ([], [])

/-- The exponent, behind its `e`. -/
def exponentOf : Bytes → Int
  | _ :: s => leadInt s
  | [] => 0

/-- The number a JSON number denotes. -/
def numVal (t : Bytes) : ℚ :=
  let (neg, r) := splitSign t
  let (frac, e) := splitFraction (r.dropWhile isDigit)
  let n : ℚ := natOf (r.takeWhile isDigit ++ frac) * 10 ^ (exponentOf e - frac.length)
  if neg then -n else n

/-- A number fits 64 bits as it is written: it is the integer in front, and that
    fits. Or else it is the bound the integer in front is clamped to. -/
def FitsInt64 (t : Bytes) : Prop :=
  (numVal t = leadInt t ∧ -2 ^ 63 ≤ leadInt t ∧ leadInt t < 2 ^ 63) ∨
    (numVal t = 2 ^ 63 - 1 ∧ 2 ^ 63 ≤ leadInt t) ∨ (numVal t = -2 ^ 63 ∧ leadInt t < -2 ^ 63)

/-! ## Clamping -/

/-- An integer clamped to 64 bits. -/
def clampInt64 (i : Int) : Int := max (-2 ^ 63) (min i (2 ^ 63 - 1))

/-- `strtoll` returns the integer in front, behind whitespace, clamped to 64 bits. -/
theorem strtoll_toInt (s : Bytes) :
    (strtoll s).toInt = clampInt64 (leadInt (s.dropWhile isSpace)) := by
  have hmin : Int64.minValue.toInt = -2 ^ 63 := by decide
  have hmax : Int64.maxValue.toInt = 2 ^ 63 - 1 := by decide
  simp only [strtoll, leadInt, clampInt64]
  generalize (if (splitSign (s.dropWhile isSpace)).1 then _ else _ : Int) = i
  by_cases hlo : i < -2 ^ 63
  · rw [if_pos (by omega), hmin]
    omega
  by_cases hhi : i < 2 ^ 63
  · rw [toInt_saturate (by omega) hhi]
    omega
  · rw [if_neg (by omega), if_pos (by omega), hmax]
    omega

/-- The clamped integer in front is the number exactly if the number fits. -/
theorem clamp_leadInt_iff (t : Bytes) : (clampInt64 (leadInt t) : ℚ) = numVal t ↔ FitsInt64 t := by
  rw [FitsInt64, clampInt64]
  by_cases hlo : leadInt t < -2 ^ 63
  · rw [show max (-2 ^ 63) (min (leadInt t) (2 ^ 63 - 1)) = -2 ^ 63 by omega]
    constructor
    · intro h
      exact .inr (.inr ⟨by rw [← h]; norm_num, hlo⟩)
    · rintro (⟨-, h, -⟩ | ⟨-, h⟩ | ⟨h, -⟩)
      · omega
      · omega
      · rw [h]
        norm_num
  by_cases hhi : leadInt t < 2 ^ 63
  · rw [show max (-2 ^ 63) (min (leadInt t) (2 ^ 63 - 1)) = leadInt t by omega]
    constructor
    · intro h
      exact .inl ⟨h.symm, by omega, hhi⟩
    · rintro (⟨h, -, -⟩ | ⟨-, h⟩ | ⟨-, h⟩)
      · exact h.symm
      · omega
      · omega
  · rw [show max (-2 ^ 63) (min (leadInt t) (2 ^ 63 - 1)) = 2 ^ 63 - 1 by omega]
    constructor
    · intro h
      exact .inr (.inl ⟨by rw [← h]; norm_num, by omega⟩)
    · rintro (⟨-, -, h⟩ | ⟨h, -⟩ | ⟨-, h⟩)
      · omega
      · rw [h]
        norm_num
      · omega

/-! ## The first characters of a number -/

/-- A run of digits without a leading zero, cut short. -/
theorem isNatText_take {ds : Bytes} (h : isNatText ds = true) {k : Nat} (hk : 0 < k) :
    isNatText (ds.take k) = true := by
  obtain ⟨k, rfl⟩ := Nat.exists_eq_add_of_lt hk
  cases ds with
  | nil => exact h
  | cons d ds =>
    simp only [Nat.zero_add, List.take_succ_cons]
    rw [isNatText, Bool.and_eq_true, Bool.and_eq_true, Bool.or_eq_true] at h ⊢
    obtain ⟨⟨hd, hds⟩, hz⟩ := h
    refine ⟨⟨hd, List.all_eq_true.2 fun c hc => List.all_eq_true.1 hds c (List.mem_of_mem_take hc)⟩,
      hz.imp_right fun he => ?_⟩
    rw [List.isEmpty_iff.1 he, List.take_nil]
    rfl

/-- The digits in front of a fraction or an exponent have no leading zero. -/
theorem isNatText_of_takeWhile {s : Bytes} (h : isUnsigned s = true) :
    isNatText (s.takeWhile isDigit) = true := by
  cases s with
  | nil => exact h
  | cons c s =>
    rw [isUnsigned] at h
    split_ifs at h with hc
    -- A leading zero is the whole integer part.
    · have hnil : s.takeWhile isDigit = [] := by
        cases s with
        | nil => rfl
        | cons d s =>
          have hchar : ∀ d, isDigit d = true → d ≠ dot ∧ (d == lowerE || d == upperE) = false :=
            forall_byte (by decide)
          rw [List.takeWhile_cons, if_neg]
          intro hd
          rw [isFraction, if_neg (hchar d hd).1, isExponent.eq_def] at h
          simp [(hchar d hd).2] at h
      rw [hc, List.takeWhile_cons_of_pos rfl, hnil]
      rfl
    · rw [Bool.and_eq_true] at h
      rw [List.takeWhile_cons_of_pos h.1, isNatText, h.1, List.all_takeWhile]
      simp [hc]

/-- A number of more than `k` digits is at least `10 ^ k`. -/
theorem pow_le_natOf {ds : Bytes} (h : isNatText ds = true) {k : Nat} (hk : k + 1 < ds.length) :
    10 ^ (k + 1) ≤ natOf ds := by
  by_contra hlt
  have := length_le_of_natOf_lt h (not_le.1 hlt)
  omega

/-- The digits in front, cut short, leave the number as it is or beyond 64 bits. -/
theorem natOf_take {ds : Bytes} (h : isNatText ds = true) {k : Nat} (hk : 20 ≤ k) :
    natOf (ds.take k) = natOf ds ∨ 2 ^ 63 < natOf (ds.take k) ∧ 2 ^ 63 < natOf ds := by
  by_cases hlen : ds.length ≤ k
  · rw [List.take_of_length_le hlen]
    exact .inl rfl
  · have hpow : 2 ^ 63 < 10 ^ (18 + 1) := by norm_num
    refine .inr ⟨hpow.trans_le (pow_le_natOf (isNatText_take h (by omega)) ?_),
      hpow.trans_le (pow_le_natOf h (by omega))⟩
    rw [List.length_take]
    omega

/-- A number begins with no whitespace. -/
theorem dropWhile_isSpace_number {t : Bytes} (h : isNumber t = true) (k : Nat) :
    (t.take k).dropWhile isSpace = t.take k := by
  have htok := isNumTok_of_isNumber h
  cases t with
  | nil => rw [List.take_nil]; rfl
  | cons c s =>
    rw [isNumTok, Bool.and_eq_true] at htok
    cases k with
    | zero => rfl
    | succ k =>
      rw [List.take_succ_cons, List.dropWhile_cons_of_neg]
      simp [not_isSpace_of_startsNumber c htok.1]

/-- On the first characters of a number, twenty of them behind a sign, `strtoll`
    returns the integer in front of its fraction and exponent, clamped to 64 bits. -/
theorem strtoll_take {t : Bytes} (h : isNumber t = true) {k : Nat} (hk : 21 ≤ k) :
    (strtoll (t.take k)).toInt = clampInt64 (leadInt t) := by
  rw [strtoll_toInt, dropWhile_isSpace_number h]
  obtain ⟨k, rfl⟩ := Nat.exists_eq_add_of_lt (show 0 < k by omega)
  cases t with
  | nil => rw [List.take_nil]
  | cons c s =>
    rw [isNumber] at h
    rw [Nat.zero_add, List.take_succ_cons]
    split_ifs at h with hc
    · -- Behind the sign.
      have htake := natOf_take (isNatText_of_takeWhile h) (show 20 ≤ k by omega)
      rw [List.take_takeWhile] at htake
      simp only [leadInt, splitSign, hc, if_true, clampInt64]
      omega
    · have hplus : c ≠ plus := by
        rintro rfl
        exact absurd h (by simp +decide [isUnsigned])
      have htake := natOf_take (isNatText_of_takeWhile h) (show 20 ≤ k + 1 by omega)
      rw [List.take_takeWhile, List.take_succ_cons] at htake
      simp only [leadInt, splitSign, hc, hplus, if_false, Bool.false_eq_true, clampInt64]
      omega

end MongrelDB
