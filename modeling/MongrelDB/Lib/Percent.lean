import MongrelDB.Lib.Decimal
import Mathlib.Data.List.Flatten

/-!
# Percent escapes

A text in which a character may be written as `%` and two hexadecimal digits, as it
is in a URL (`percentDecode`). Texts that are decoded one by one are decoded together
(`percentDecode_append`), and if some of several texts are left out, less is decoded
(`percentDecode_sublist`). What an encoder should make of a text has no other characters
than those it keeps, and its escapes are in upper case (`isEscaped`).
-/

namespace MongrelDB

open Ascii

/-- The character in front of an escape. -/
abbrev percent : UInt8 := 37

/-- What a text denotes, if every `%` in it begins an escape. -/
def percentDecode : Bytes → Option Bytes
  | [] => some []
  | c :: s =>
    if c = percent then
      match s with
      | a :: b :: s =>
        match hexVal? a, hexVal? b with
        | some x, some y => (percentDecode s).map (UInt8.ofNat (x * 16 + y) :: ·)
        | _, _ => none
      | _ => none
    else (percentDecode s).map (c :: ·)

theorem percentDecode_cons {c : UInt8} (hc : c ≠ percent) (s : Bytes) :
    percentDecode (c :: s) = (percentDecode s).map (c :: ·) := by
  rw [percentDecode.eq_def]
  exact if_neg hc

/-- A text behind one that is decoded. -/
theorem percentDecode_append {s x : Bytes} (hs : percentDecode s = some x) (r : Bytes) :
    percentDecode (s ++ r) = (percentDecode r).map (x ++ ·) := by
  -- An escape might be cut off at the end of `s`, but `hs` excludes that.
  induction s using percentDecode.induct generalizing x with
  | case1 =>
    rw [← Option.some.inj hs]
    simp
  | case2 a b s m n ha hb ih =>
    rw [percentDecode, if_pos rfl] at hs
    simp only [ha, hb, Option.map_eq_some_iff] at hs
    obtain ⟨y, hy, rfl⟩ := hs
    rw [List.cons_append, List.cons_append, List.cons_append, percentDecode, if_pos rfl]
    simp only [ha, hb, ih hy, Option.map_map]
    rfl
  | case3 a b s hno =>
    rw [percentDecode, if_pos rfl] at hs
    split at hs
    · next hx hy => exact absurd hy (hno _ _ hx)
    · cases hs
  | case4 s hno =>
    rw [percentDecode.eq_def] at hs
    simp only [if_true] at hs
    cases hs
  | case5 c s hc ih =>
    rw [percentDecode_cons hc, Option.map_eq_some_iff] at hs
    obtain ⟨y, hy, rfl⟩ := hs
    rw [List.cons_append, percentDecode_cons hc, ih hy, Option.map_map]
    rfl

/-- Some of several texts are decoded to less than all of them, unless they are all of
    them. -/
theorem percentDecode_sublist {qs ps : List Bytes} (hsub : qs.Sublist ps)
    (hps : ∀ p ∈ ps, ∃ x, x ≠ [] ∧ percentDecode p = some x) :
    ∃ x y, percentDecode qs.flatten = some x ∧ percentDecode ps.flatten = some y ∧
      x.length ≤ y.length ∧ (x.length = y.length → qs = ps) := by
  induction hsub with
  | slnil => exact ⟨[], [], rfl, rfl, le_rfl, fun _ => rfl⟩
  | cons p hsub ih =>
    obtain ⟨⟨z, hz, hp⟩, hps⟩ := List.forall_mem_cons.1 hps
    obtain ⟨x, y, hx, hy, hle, -⟩ := ih hps
    have hpos := List.length_pos_iff.2 hz
    refine ⟨x, z ++ y, hx, ?_, ?_, fun h => ?_⟩
    · rw [List.flatten_cons, percentDecode_append hp, hy]
      rfl
    · rw [List.length_append]
      omega
    · -- A text is left out.
      rw [List.length_append] at h
      omega
  | cons_cons p hsub ih =>
    obtain ⟨⟨z, -, hp⟩, hps⟩ := List.forall_mem_cons.1 hps
    obtain ⟨x, y, hx, hy, hle, heq⟩ := ih hps
    refine ⟨z ++ x, z ++ y, ?_, ?_, ?_, fun h => ?_⟩
    · rw [List.flatten_cons, percentDecode_append hp, hx]
      rfl
    · rw [List.flatten_cons, percentDecode_append hp, hy]
      rfl
    · rw [List.length_append, List.length_append]
      omega
    · rw [List.length_append, List.length_append] at h
      rw [heq (by omega)]

/-- A hexadecimal digit in upper case. -/
def isUpperHex (c : UInt8) : Bool := isDigit c || (65 ≤ c && c ≤ 70)

/-- A text of plain characters, and of escapes in upper case. -/
def isEscaped (plain : UInt8 → Bool) : Bytes → Bool
  | [] => true
  | c :: s =>
    if c = percent then
      match s with
      | a :: b :: s => isUpperHex a && isUpperHex b && isEscaped plain s
      | _ => false
    else plain c && isEscaped plain s

variable {plain : UInt8 → Bool}

theorem isEscaped_cons {c : UInt8} (hc : c ≠ percent) (s : Bytes) :
    isEscaped plain (c :: s) = (plain c && isEscaped plain s) := by
  rw [isEscaped.eq_def]
  exact if_neg hc

theorem isEscaped_append {s r : Bytes} (hs : isEscaped plain s = true)
    (hr : isEscaped plain r = true) :
    isEscaped plain (s ++ r) = true := by
  induction s using isEscaped.induct with
  | case1 => exact hr
  | case2 a b s ih =>
    rw [isEscaped, if_pos rfl, Bool.and_eq_true] at hs
    rw [List.cons_append, List.cons_append, List.cons_append, isEscaped, if_pos rfl, hs.1, ih hs.2]
    rfl
  | case3 s hno =>
    rw [isEscaped.eq_def] at hs
    simp only [if_true] at hs
    cases hs
  | case4 c s hc ih =>
    rw [isEscaped_cons hc, Bool.and_eq_true] at hs
    rw [List.cons_append, isEscaped_cons hc, hs.1, ih hs.2]
    rfl

end MongrelDB
