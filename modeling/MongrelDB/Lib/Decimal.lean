import Mathlib.Data.Nat.Digits.Lemmas
import MongrelDB.Lib.Bytes

/-!
# Integers as text

How C writes and reads integers: `printf`'s `%lld` (`intText`), `strtoll` in
base ten, which skips whitespace, takes the longest run of digits after a sign
and saturates (`strtoll`), and `strtoul` in base sixteen, on the handful of
characters of an escape (`strtoul16`).

Beside them stands the reading of an integer as a number of JSON, which takes
the whole text or nothing (`intVal?`): no sign but `-`, no leading zero. The
text C writes is such an integer (`intVal?_intText`), and `strtoll` reads such
an integer exactly, if it fits (`strtoll_of_intVal?`).
-/

namespace MongrelDB

open Ascii

/-! ## Digits -/

/-- The number a run of decimal digits denotes. -/
def natOf (ds : Bytes) : Nat := ds.foldl (fun n d => 10 * n + (d.toNat - 48)) 0

/-- The digit `d < 10` as a character. -/
def digitChar (d : Nat) : UInt8 := UInt8.ofNat (48 + d)

/-- `n` in decimal. -/
def natText (n : Nat) : Bytes :=
  if n = 0 then [zero] else (Nat.digits 10 n).reverse.map digitChar

/-- `printf`'s `%lld`. -/
def intText (i : Int) : Bytes :=
  if i < 0 then minus :: natText i.natAbs else natText i.natAbs

theorem digitChar_toNat {d : Nat} (h : d < 10) : (digitChar d).toNat = 48 + d := by
  simp only [digitChar, UInt8.toNat_ofNat']
  omega

theorem isDigit_digitChar {d : Nat} (h : d < 10) : isDigit (digitChar d) = true := by
  have := digitChar_toNat h
  simp only [isDigit, Bool.and_eq_true, decide_eq_true_eq, UInt8.le_iff_toNat_le, this]
  simp
  omega

theorem natOf_reverse_map {ds : List Nat} (h : ∀ d ∈ ds, d < 10) :
    natOf (ds.reverse.map digitChar) = Nat.ofDigits 10 ds := by
  induction ds with
  | nil => rfl
  | cons d ds ih =>
    have hd := digitChar_toNat (h d List.mem_cons_self)
    have ih := ih fun e he => h e (List.mem_cons_of_mem _ he)
    simp only [natOf] at ih
    rw [natOf, List.reverse_cons, List.map_append, List.foldl_append, ih, Nat.ofDigits_cons]
    simp only [List.map_cons, List.map_nil, List.foldl_cons, List.foldl_nil, hd]
    omega

/-- The decimal text of a number denotes it. -/
theorem natOf_natText (n : Nat) : natOf (natText n) = n := by
  by_cases h : n = 0
  · subst h; rfl
  · rw [natText, if_neg h, natOf_reverse_map fun d hd => Nat.digits_lt_base (by norm_num) hd,
      Nat.ofDigits_digits]

theorem all_isDigit_natText (n : Nat) : (natText n).all isDigit = true := by
  by_cases h : n = 0
  · subst h; rfl
  · rw [natText, if_neg h, List.all_eq_true]
    intro c hc
    obtain ⟨d, hd, rfl⟩ := List.mem_map.1 hc
    exact isDigit_digitChar (Nat.digits_lt_base (by norm_num) (List.mem_reverse.1 hd))

/-! ## Integers of JSON -/

/-- A run of digits without a leading zero. -/
def isNatText : Bytes → Bool
  | [] => false
  | d :: ds => isDigit d && ds.all isDigit && (d != zero || ds.isEmpty)

/-- The integer a JSON number without fraction or exponent denotes. -/
def intVal? : Bytes → Option Int
  | [] => none
  | c :: ds =>
    if c = minus then
      if isNatText ds then some (-natOf ds) else none
    else
      if isNatText (c :: ds) then some (natOf (c :: ds)) else none

theorem isNatText_natText (n : Nat) : isNatText (natText n) = true := by
  by_cases h : n = 0
  · subst h; rfl
  have hall := all_isDigit_natText n
  -- The first character is the most significant digit, which is not zero.
  have hne : Nat.digits 10 n ≠ [] := Nat.digits_ne_nil_iff_ne_zero.2 h
  have hlast := Nat.getLast_digit_ne_zero 10 h
  have hlt : (Nat.digits 10 n).getLast hne < 10 :=
    Nat.digits_lt_base (by norm_num) (List.getLast_mem hne)
  obtain ⟨ds, hds⟩ : ∃ ds, (Nat.digits 10 n).reverse = (Nat.digits 10 n).getLast hne :: ds := by
    refine ⟨(Nat.digits 10 n).dropLast.reverse, ?_⟩
    conv_lhs => rw [← List.dropLast_append_getLast hne]
    rw [List.reverse_append, List.reverse_singleton, List.singleton_append]
  have htext : natText n = digitChar ((Nat.digits 10 n).getLast hne) :: ds.map digitChar := by
    rw [natText, if_neg h, hds, List.map_cons]
  have hchar := digitChar_toNat hlt
  have hzero : digitChar ((Nat.digits 10 n).getLast hne) ≠ zero := fun h0 => by
    have h48 : zero.toNat = 48 := rfl
    rw [h0, h48] at hchar
    omega
  rw [htext, List.all_cons, Bool.and_eq_true] at hall
  rw [htext, isNatText, hall.1, hall.2]
  simp [hzero]

/-- The text of an integer is the JSON number that denotes it. -/
theorem intVal?_intText (i : Int) : intVal? (intText i) = some i := by
  have hnat := isNatText_natText i.natAbs
  by_cases h : i < 0
  · rw [intText, if_pos h, intVal?, if_pos rfl, if_pos hnat, natOf_natText]
    congr 1
    omega
  · rw [intText, if_neg h]
    cases htext : natText i.natAbs with
    | nil => rw [htext] at hnat; exact absurd hnat (by decide)
    | cons c ds =>
      have hc : c ≠ minus := fun hc => by
        have := all_isDigit_natText i.natAbs
        rw [htext, hc, List.all_cons, Bool.and_eq_true] at this
        exact absurd this.1 (by decide)
      rw [intVal?, if_neg hc, ← htext, if_pos hnat, natOf_natText]
      congr 1
      omega

/-! ### Length -/

/-- Each digit read multiplies what was read before by ten. -/
theorem mul_pow_le_foldl (ds : Bytes) (n : Nat) :
    n * 10 ^ ds.length ≤ ds.foldl (fun n d => 10 * n + (d.toNat - 48)) n := by
  induction ds generalizing n with
  | nil => simp
  | cons d ds ih =>
    rw [List.foldl_cons, List.length_cons, pow_succ]
    calc n * (10 ^ ds.length * 10) = 10 * n * 10 ^ ds.length := by ring
      _ ≤ (10 * n + (d.toNat - 48)) * 10 ^ ds.length :=
        Nat.mul_le_mul_right _ (Nat.le_add_right _ _)
      _ ≤ _ := ih _

/-- A number of at most `k` digits: without a leading zero, it has no more. -/
theorem length_le_of_natOf_lt {ds : Bytes} (h : isNatText ds = true) {k : Nat}
    (hlt : natOf ds < 10 ^ (k + 1)) : ds.length ≤ k + 1 := by
  cases ds with
  | nil => exact Nat.zero_le _
  | cons d ds =>
    rw [isNatText, Bool.and_eq_true, Bool.and_eq_true, Bool.or_eq_true, bne_iff_ne] at h
    obtain ⟨⟨hd, -⟩, hz | hz⟩ := h
    · have hpos : 1 ≤ d.toNat - 48 := by
        simp only [isDigit, Bool.and_eq_true, decide_eq_true_eq, UInt8.le_iff_toNat_le] at hd
        have : d.toNat ≠ 48 := fun h48 => hz (UInt8.toNat_inj.1 h48)
        simp at hd
        omega
      have hpow : 10 ^ ds.length < 10 ^ (k + 1) := calc
        10 ^ ds.length ≤ (d.toNat - 48) * 10 ^ ds.length := Nat.le_mul_of_pos_left _ hpos
        _ ≤ natOf (d :: ds) := by simpa [natOf] using mul_pow_le_foldl ds (d.toNat - 48)
        _ < 10 ^ (k + 1) := hlt
      exact (Nat.pow_lt_pow_iff_right (by norm_num)).1 hpow
    · rw [List.isEmpty_iff.1 hz]
      simp

/-- An integer has no more digits than the powers of ten below it, and a sign. -/
theorem length_le_of_natAbs_lt {t : Bytes} {i : Int} (h : intVal? t = some i) {k : Nat}
    (hlt : i.natAbs < 10 ^ (k + 1)) : t.length ≤ k + 2 := by
  cases t with
  | nil => exact Nat.zero_le _
  | cons c ds =>
    rw [intVal?] at h
    split_ifs at h with hc hn hn
    all_goals
      obtain rfl := Option.some.inj h
      have := length_le_of_natOf_lt (k := k) hn (by omega)
      simp only [List.length_cons] at this ⊢
      omega

/-- An integer of 64 bits has at most 20 characters. -/
theorem length_le_of_intVal? {t : Bytes} {i : Int} (h : intVal? t = some i)
    (hlo : -2 ^ 63 ≤ i) (hhi : i < 2 ^ 63) : t.length ≤ 20 :=
  length_le_of_natAbs_lt h (by omega)

/-! ## `strtoll` -/

/-- The sign in front of a number, and what follows it. -/
def splitSign : Bytes → Bool × Bytes
  | c :: r => if c = minus then (true, r) else if c = plus then (false, r) else (false, c :: r)
  | [] => (false, [])

/-- `strtoll(s, NULL, 10)`: the longest number in front, saturated to 64 bits. -/
def strtoll (s : Bytes) : Int64 :=
  let (neg, r) := splitSign (s.dropWhile isSpace)
  let n := natOf (r.takeWhile isDigit)
  let i : Int := if neg then -n else n
  if i < Int64.minValue.toInt then Int64.minValue
  else if Int64.maxValue.toInt < i then Int64.maxValue
  else Int64.ofInt i

theorem isNatText_all {ds : Bytes} (h : isNatText ds = true) : ds.all isDigit = true := by
  cases ds with
  | nil => rfl
  | cons d ds =>
    simp only [isNatText, Bool.and_eq_true] at h
    simp [h.1.1]
    simpa using h.1.2

/-- Conversion to 64 bits is exact on the integers that fit. -/
theorem toInt_saturate {i : Int} (hlo : -2 ^ 63 ≤ i) (hhi : i < 2 ^ 63) :
    (if i < Int64.minValue.toInt then Int64.minValue
      else if Int64.maxValue.toInt < i then Int64.maxValue
      else Int64.ofInt i).toInt = i := by
  have hmin : Int64.minValue.toInt = -2 ^ 63 := by decide
  have hmax : Int64.maxValue.toInt = 2 ^ 63 - 1 := by decide
  rw [if_neg (by omega), if_neg (by omega)]
  exact Int64.toInt_ofInt_of_le (by simpa using hlo) (by simpa using hhi)

/-- `strtoll` reads a JSON integer, and saturates it to 64 bits. -/
theorem strtoll_eq_of_intVal? {t : Bytes} {i : Int} (h : intVal? t = some i) :
    strtoll t = if i < Int64.minValue.toInt then Int64.minValue
      else if Int64.maxValue.toInt < i then Int64.maxValue
      else Int64.ofInt i := by
  cases t with
  | nil => exact absurd h (by simp [intVal?])
  | cons c ds =>
    have htake : ∀ {r : Bytes}, isNatText r = true → r.takeWhile isDigit = r := fun hr =>
      List.takeWhile_eq_self_iff.2 fun d hd => List.all_eq_true.1 (isNatText_all hr) d hd
    rw [intVal?] at h
    split_ifs at h with hc hn hn
    · -- A negative number: the sign is taken off first.
      subst hc
      obtain rfl := Option.some.inj h
      have hdrop : (minus :: ds).dropWhile isSpace = minus :: ds :=
        List.dropWhile_cons_of_neg (by decide)
      have hsign : splitSign (minus :: ds) = (true, ds) := by simp [splitSign]
      simp only [strtoll, hdrop, hsign, htake hn, if_true]
    · obtain rfl := Option.some.inj h
      have hd : isDigit c = true := by
        have := isNatText_all hn
        simp only [List.all_cons, Bool.and_eq_true] at this
        exact this.1
      have hplus : c ≠ plus := by rintro rfl; exact absurd hd (by decide)
      have hdrop : (c :: ds).dropWhile isSpace = c :: ds := by
        simp [not_isSpace_of_startsNumber c (startsNumber_of_isDigit c hd)]
      have hsign : splitSign (c :: ds) = (false, c :: ds) := by simp [splitSign, hc, hplus]
      simp only [strtoll, hdrop, hsign, htake hn, Bool.false_eq_true, if_false]

/-- `strtoll` reads a JSON integer exactly, if it fits in 64 bits. -/
theorem strtoll_of_intVal? {t : Bytes} {i : Int} (h : intVal? t = some i)
    (hlo : -2 ^ 63 ≤ i) (hhi : i < 2 ^ 63) : (strtoll t).toInt = i := by
  rw [strtoll_eq_of_intVal? h]
  exact toInt_saturate hlo hhi

/-! ### Natural numbers -/

theorem intVal?_natText (n : Nat) : intVal? (natText n) = some (n : Int) := by
  have h := intVal?_intText n
  rwa [intText, if_neg (by omega), Int.natAbs_natCast] at h

/-- A number has no more digits than the powers of ten below it. -/
theorem length_natText_le {n k : Nat} (h : n < 10 ^ (k + 1)) : (natText n).length ≤ k + 1 :=
  length_le_of_natOf_lt (isNatText_natText n) (by rwa [natOf_natText])

/-- Of the numbers of 64 bits, `strtoll` reads those exactly that fit in 63. -/
theorem toNat_strtoll_iff {t : Bytes} {n : UInt64} (h : intVal? t = some (n.toNat : Int)) :
    (strtoll t).toUInt64 = n ↔ n.toNat < 2 ^ 63 := by
  have hmin : Int64.minValue.toInt = -2 ^ 63 := by decide
  have hmax : Int64.maxValue.toInt = 2 ^ 63 - 1 := by decide
  rw [strtoll_eq_of_intVal? h, if_neg (by omega)]
  by_cases h63 : n.toNat < 2 ^ 63
  · refine iff_of_true ?_ h63
    rw [if_neg (by omega), ← UInt64.toNat_inj]
    have hint : (Int64.ofInt n.toNat).toInt = n.toNat :=
      Int64.toInt_ofInt_of_le (by simp) (by simpa using by omega)
    have hle : (0 : Int64) ≤ Int64.ofInt n.toNat := by
      rw [Int64.le_iff_toInt_le, hint]
      exact Int.natCast_nonneg _
    rw [Int64.toNat_toUInt64_of_le hle, Int64.toNatClampNeg, hint, Int.toNat_natCast]
  · refine iff_of_false (fun heq => h63 ?_) h63
    rw [if_pos (by omega)] at heq
    rw [← heq]
    decide

/-! ## `strtoul` in base sixteen -/

/-- The value of a hexadecimal digit. -/
def hexVal? (c : UInt8) : Option Nat :=
  if isDigit c then some (c.toNat - 48)
  else if 97 ≤ c ∧ c ≤ 102 then some (c.toNat - 87)
  else if 65 ≤ c ∧ c ≤ 70 then some (c.toNat - 55)
  else none

/-- The number the hexadecimal digits in front denote. -/
def hexOf : Nat → Bytes → Nat
  | n, [] => n
  | n, c :: r => match hexVal? c with
    | some d => hexOf (16 * n + d) r
    | none => n

/-- A `0x` in front of a hexadecimal number, taken off if a digit follows. -/
def dropHexPrefix : Bytes → Bytes
  | c :: x :: d :: r =>
    if c = zero ∧ (x = 120 ∨ x = 88) ∧ (hexVal? d).isSome then d :: r else c :: x :: d :: r
  | r => r

/-- `(unsigned)strtoul(s, NULL, 16)`, on a text too short to overflow. -/
def strtoul16 (s : Bytes) : UInt32 :=
  let (neg, r) := splitSign (s.dropWhile isSpace)
  let n := UInt32.ofNat (hexOf 0 (dropHexPrefix r))
  if neg then -n else n

end MongrelDB
