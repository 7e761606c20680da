import MongrelDB.Lookup

/-!
# Unescaping

The client unescapes a string on its own: it keeps the `\u` escapes of ASCII and
drops every other one, and what it hands out ends at the first NUL. So it
delivers what the text stands for exactly if the `\u` escapes of it are in the
range `0001` to `007f` (`unescape_delivers_iff`).
-/

namespace MongrelDB

open Ascii

/-! ## Escapes -/

/-- The client reads the escapes of two characters as JSON does. -/
theorem unescapeChar_of_escapeVal? {n e : UInt8} (h : escapeVal? n = some e) :
    unescapeChar n = e := by
  have hall : ∀ n, (escapeVal? n).all (unescapeChar n == ·) = true := forall_byte (by decide)
  simpa [h] using hall n

theorem hexVal?_lt {c : UInt8} {v : Nat} (h : hexVal? c = some v) : v < 16 := by
  have hall : ∀ c : UInt8, (hexVal? c).all (· < 16) = true := forall_byte (by decide)
  simpa [h] using hall c

/-- A hexadecimal digit is neither whitespace nor a sign nor the `x` of a prefix. -/
theorem hexVal?_plain : ∀ c, (hexVal? c).isSome = true →
    isSpace c = false ∧ c ≠ minus ∧ c ≠ plus ∧ c ≠ 120 ∧ c ≠ 88 :=
  forall_byte (by decide)

theorem hex4?_lt {a b c d : UInt8} {n : Nat} (h : hex4? a b c d = some n) : n < 65536 := by
  rw [hex4?] at h
  split at h
  · rename_i va vb vc vd ha hb hc hd
    obtain rfl := Option.some.inj h
    have := hexVal?_lt ha
    have := hexVal?_lt hb
    have := hexVal?_lt hc
    have := hexVal?_lt hd
    omega
  · exact absurd h (by simp)

/-- `strtoul` reads the digits of an escape exactly. -/
theorem strtoul16_of_hex4? {a b c d : UInt8} {n : Nat} (h : hex4? a b c d = some n) :
    strtoul16 [a, b, c, d] = UInt32.ofNat n := by
  rw [hex4?] at h
  split at h
  · rename_i va vb vc vd ha hb hc hd
    obtain rfl := Option.some.inj h
    obtain ⟨h₁, h₂, h₃, -, -⟩ := hexVal?_plain a (by simp [ha])
    obtain ⟨-, -, -, h₄, h₅⟩ := hexVal?_plain b (by simp [hb])
    have hdrop : [a, b, c, d].dropWhile isSpace = [a, b, c, d] :=
      List.dropWhile_cons_of_neg (by simp [h₁])
    have hprefix : dropHexPrefix [a, b, c, d] = [a, b, c, d] := by
      simp [dropHexPrefix, h₄, h₅]
    simp [strtoul16, hdrop, splitSign, h₂, h₃, hprefix, hexOf, ha, hb, hc, hd]
  · exact absurd h (by simp)

/-- An escape `\u` in the range of ASCII is kept, and every other one is dropped. -/
theorem unescape_hex4 {a b c d : UInt8} {n : Nat} (h : hex4? a b c d = some n) (s : Bytes) :
    unescape (backslash :: lowerU :: a :: b :: c :: d :: s) =
      if n < 128 then UInt8.ofNat n :: unescape s else unescape s := by
  have hcp : UInt32.ofNat n < 0x80 ↔ n < 128 := by
    rw [UInt32.lt_iff_toNat_lt, UInt32.toNat_ofNat',
      Nat.mod_eq_of_lt (by have := hex4?_lt h; omega)]
    rfl
  have hchar : (UInt32.ofNat n).toUInt8 = UInt8.ofNat n := by
    apply UInt8.toNat_inj.1
    simp
  rw [unescape.eq_def]
  simp only [if_true, strtoul16_of_hex4? h, hcp, hchar]

/-! ## Strings -/

/-- Unescaping does not make a string longer. -/
theorem unescape_length_le (raw : Bytes) : (unescape raw).length ≤ raw.length := by
  induction raw using unescape.induct with
  | case1 => exact Nat.le_refl _
  | case2 => simp [unescape]
  | case3 h₁ h₂ h₃ h₄ r cp hcp ih =>
    rw [unescape.eq_def]
    simp only [if_true, cp, hcp, List.length_cons]
    omega
  | case4 h₁ h₂ h₃ h₄ r cp hcp ih =>
    rw [unescape.eq_def]
    simp only [if_true, cp, hcp, if_false, List.length_cons]
    omega
  | case5 r hr ih =>
    rw [unescape.eq_def]
    simp only [if_true, List.length_cons]
    omega
  | case6 c r hc ih =>
    rw [unescape.eq_def]
    simp only [if_true, hc, if_false, List.length_cons]
    omega
  | case7 c r hc ih =>
    rw [unescape.eq_def]
    simp only [hc, if_false, List.length_cons]
    omega

/-- The client unescapes a string to what it stands for, if its `\u` escapes are
    in the range it decodes. -/
theorem unescape_of_strVal? {raw b : Bytes} (h : strVal? raw = some b) : unescape raw = b := by
  replace h := standsFor_of_strVal? h
  induction h with
  | nil => simp [unescape]
  | hex hn _ hlt _ ih => rw [unescape_hex4 hn, if_pos hlt, ih]
  | escape hu he _ ih =>
    rw [unescape.eq_def]
    simp only [if_true, hu, if_false, unescapeChar_of_escapeVal? he, ih]
  | plain hc _ ih =>
    rw [unescape.eq_def]
    simp only [hc, if_false, ih]

/-- The unescaped string is no longer than what the text stands for in UTF-8. If
    it is as long, and without NUL, the escapes are those the client reads. -/
theorem unescape_utf8Val? {raw b : Bytes} (h : utf8Val? raw = some b) :
    (unescape raw).length ≤ b.length ∧
      ((unescape raw).length = b.length → (0 : UInt8) ∉ unescape raw → strVal? raw = some b) := by
  induction raw using utf8Val?.induct generalizing b with
  | case1 => simp_all [utf8Val?, unescape, strVal?]
  | case2 => simp [utf8Val?] at h
  | case3 h₁ h₂ h₃ h₄ n hn hr b' v l₁ l₂ l₃ l₄ s m hm hp ih =>
    -- A pair of surrogates: both are dropped.
    obtain ⟨rfl, rfl, hm₁, hm₂⟩ := hp
    rw [utf8Val?.eq_def] at h
    simp only [if_true, hn, hr, hm, hm₁, hm₂, and_self, Option.bind_eq_bind,
      Option.bind_eq_some_iff, Option.pure_def, Option.some.injEq] at h
    obtain ⟨u, hu, t, ht, rfl⟩ := h
    have hlen := one_lt_length_of_utf8? (by unfold pairVal; omega) hu
    have := (ih ht).1
    rw [unescape_hex4 hn, if_neg (by omega), unescape_hex4 hm, if_neg (by omega),
      List.length_append]
    exact ⟨by omega, fun h => by omega⟩
  | case4 h₁ h₂ h₃ h₄ n hn hr b' v l₁ l₂ l₃ l₄ s m hm hp =>
    rw [utf8Val?.eq_def] at h
    simp only [if_true, hn, hr, hm, hp, and_self, if_false, reduceCtorEq] at h
  | case5 h₁ h₂ h₃ h₄ n hn hr b' v l₁ l₂ l₃ l₄ s hm =>
    rw [utf8Val?.eq_def] at h
    simp only [if_true, hn, hr, hm, and_self, reduceCtorEq] at h
  | case6 h₁ h₂ h₃ h₄ s n hn hr hs =>
    rw [utf8Val?.eq_def] at h
    simp only [if_true, hn, hr, and_self, reduceCtorEq] at h
  | case7 h₁ h₂ h₃ h₄ s n hn hr ih =>
    rw [utf8Val?.eq_def] at h
    simp only [if_true, hn, hr, if_false, Option.bind_eq_bind, Option.bind_eq_some_iff,
      Option.pure_def, Option.some.injEq] at h
    obtain ⟨u, hu, t, ht, rfl⟩ := h
    have hle := (ih ht).1
    rw [unescape_hex4 hn, List.length_append]
    by_cases h128 : n < 128
    · obtain rfl := Option.some.inj ((utf8?_of_lt h128).symm.trans hu)
      rw [if_pos h128, List.length_cons, List.length_singleton, List.mem_cons, not_or]
      refine ⟨by omega, fun hl h0 => ?_⟩
      have hpos : 0 < n := Nat.pos_of_ne_zero fun h => h0.1 (by rw [h]; rfl)
      rw [strVal?.eq_def]
      simp only [if_true, hn, hpos, h128, and_self, (ih ht).2 (by omega) h0.2, Option.map_some]
      rfl
    · have hlen := one_lt_length_of_utf8? (by omega) hu
      rw [if_neg h128]
      exact ⟨by omega, fun h => by omega⟩
  | case8 h₁ h₂ h₃ h₄ s hn =>
    rw [utf8Val?.eq_def] at h
    simp only [if_true, hn, reduceCtorEq] at h
  | case9 s hs =>
    rw [utf8Val?.eq_def] at h
    simp only [if_true, reduceCtorEq] at h
  | case10 u s hu e he ih =>
    rw [utf8Val?.eq_def] at h
    simp only [if_true, hu, if_false, he, Option.map_eq_some_iff] at h
    obtain ⟨t, ht, rfl⟩ := h
    rw [unescape.eq_def, strVal?.eq_def]
    simp only [if_true, hu, if_false, unescapeChar_of_escapeVal? he, he, List.length_cons,
      List.mem_cons, not_or]
    exact ⟨by have := (ih ht).1; omega, fun hl h0 => by
      rw [(ih ht).2 (by omega) h0.2, Option.map_some]⟩
  | case11 u s hu he =>
    rw [utf8Val?.eq_def] at h
    simp only [if_true, hu, if_false, he, reduceCtorEq] at h
  | case12 c s hc ih =>
    rw [utf8Val?.eq_def] at h
    simp only [hc, if_false, Option.map_eq_some_iff] at h
    obtain ⟨t, ht, rfl⟩ := h
    rw [unescape.eq_def, strVal?.eq_def]
    simp only [hc, if_false, List.length_cons, List.mem_cons, not_or]
    exact ⟨by have := (ih ht).1; omega, fun hl h0 => by
      rw [(ih ht).2 (by omega) h0.2, Option.map_some]⟩

/-- Where the `\u` escapes are in the range of ASCII, the text stands for the same in UTF-8. -/
theorem utf8Val?_of_strVal? {raw b : Bytes} (h : strVal? raw = some b) : utf8Val? raw = some b := by
  replace h := standsFor_of_strVal? h
  induction h with
  | nil => simp [utf8Val?]
  | @hex _ _ _ _ n _ _ hn _ hlt _ ih =>
    have hlow : ¬(0xd800 ≤ n ∧ n < 0xdc00) := by omega
    rw [utf8Val?.eq_def]
    simp only [if_true, hn, hlow, if_false, utf8?_of_lt hlt, ih, Option.bind_eq_bind,
      Option.bind_some, Option.pure_def]
    rfl
  | escape hu he _ ih =>
    rw [utf8Val?.eq_def]
    simp only [if_true, hu, if_false, he, ih, Option.map_some]
  | plain hc _ ih =>
    rw [utf8Val?.eq_def]
    simp only [hc, if_false, ih, Option.map_some]

theorem escapeVal?_ne_zero : ∀ n, escapeVal? n ≠ some 0 := forall_byte (by decide)

/-- A string of JSON whose `\u` escapes are in the range the client reads has no NUL. -/
theorem zero_notMem_of_strVal? {raw b : Bytes} (hbody : isStringBody raw = true)
    (h : strVal? raw = some b) : (0 : UInt8) ∉ b := by
  replace h := standsFor_of_strVal? h
  induction h with
  | nil => exact List.not_mem_nil
  | @hex _ _ _ _ n _ _ hn hpos hlt _ ih =>
    rw [isStringBody.eq_def] at hbody
    simp only [if_true, hn, Option.isSome_some, Bool.true_and] at hbody
    have hne : (0 : UInt8) ≠ UInt8.ofNat n := fun h0 => by
      have := congrArg UInt8.toNat h0
      simp at this
      omega
    simpa [hne] using ih hbody
  | @escape u e _ _ hu he _ ih =>
    rw [isStringBody.eq_def] at hbody
    simp only [if_true, hu, if_false, he, Option.isSome_some, Bool.true_and] at hbody
    have hne : (0 : UInt8) ≠ e := fun h0 => escapeVal?_ne_zero u (h0 ▸ he)
    simpa [hne] using ih hbody
  | @plain c _ _ hc _ ih =>
    rw [isStringBody.eq_def] at hbody
    simp only [hc, if_false, Bool.and_eq_true, decide_eq_true_eq] at hbody
    have hne : (0 : UInt8) ≠ c := fun h0 => absurd hbody.1.1 (by rw [← h0]; decide)
    simpa [hne] using ih hbody.2

/-- The string the client hands out is what the text stands for exactly if its
    `\u` escapes are in the range it reads. -/
theorem unescape_delivers_iff {raw : Bytes} (hbody : isStringBody raw = true) :
    utf8Val? raw = some (CStr.at (unescape raw ++ [0])).bytes ↔ (strVal? raw).isSome := by
  constructor
  · intro h
    have hprefix := CStr.at_terminated_prefix (unescape raw)
    obtain ⟨hle, hread⟩ := unescape_utf8Val? h
    have hlen := le_antisymm hle hprefix.length_le
    have h0 : (0 : UInt8) ∉ unescape raw :=
      hprefix.eq_of_length hlen.symm ▸ (CStr.at (unescape raw ++ [0])).noNul
    exact Option.isSome_iff_exists.2 ⟨_, hread hlen h0⟩
  · intro h
    obtain ⟨b, hb⟩ := Option.isSome_iff_exists.1 h
    rw [utf8Val?_of_strVal? hb, unescape_of_strVal? hb,
      CStr.at_append_nul (zero_notMem_of_strVal? hbody hb)]

end MongrelDB
