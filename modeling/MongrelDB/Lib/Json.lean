import MongrelDB.Lib.Decimal

/-!
# The text of JSON values

A value together with its layout: the tokens it is written with and the
whitespace around each of them (`Json`). Its text is a function of it
(`Json.text`), so that a text of JSON is one that some layout has.

The tokens are those of a lenient scanner: a number is any run of number
characters after a digit or `-`, a literal any run of letters after `t`, `f`
or `n`, and a string any run of bytes in which every `"` and every last `\` is
escaped. A layout is *valid* (`Json.Valid`) if its tokens are those of the JSON
grammar; its text is then a well-formed JSON text.

What a valid value says is read off its tokens (`Json.datum?`). Escapes `\uXXXX`
are only read in the range `0001` to `007f`, where one stands for one byte.
-/

namespace MongrelDB

open Ascii

/-! ## Tokens -/

/-- Whitespace between tokens. -/
structure Ws where
  bytes : Bytes
  wf : bytes.all isWs = true

/-- One whitespace after another. -/
def Ws.append (v w : Ws) : Ws := ⟨v.bytes ++ w.bytes, by simp [v.wf, w.wf]⟩

/-- No whitespace. -/
def Ws.none : Ws := ⟨[], rfl⟩

/-- A run of number characters, from a digit or `-`. -/
def isNumTok : Bytes → Bool
  | [] => false
  | c :: r => startsNumber c && r.all isNumberChar

/-- A number token. -/
structure NumTok where
  text : Bytes
  wf : isNumTok text = true

/-- A run of letters, from `t`, `f` or `n`. -/
def isLitTok : Bytes → Bool
  | [] => false
  | c :: r => startsLiteral c && r.all isLiteralChar

/-- A literal token. -/
structure LitTok where
  text : Bytes
  wf : isLitTok text = true

/-- A run of bytes in which every quote, and no quote after it, is escaped. -/
def isClosed : Bytes → Bool
  | [] => true
  | [c] => c != quote && c != backslash
  | c :: d :: r => if c = backslash then isClosed r else c != quote && isClosed (d :: r)

/-- A string token: the bytes between the quotes. -/
structure StrTok where
  raw : Bytes
  wf : isClosed raw = true

/-! ### The tokens of JSON -/

/-- At least one digit, and only digits. -/
def isDigits (s : Bytes) : Bool := !s.isEmpty && s.all isDigit

/-- An exponent, or nothing. -/
def isExponent : Bytes → Bool
  | [] => true
  | c :: s => (c == lowerE || c == upperE) && match s with
    | [] => false
    | d :: r => if d = plus ∨ d = minus then isDigits r else isDigits (d :: r)

/-- A fraction and an exponent, either of which may be missing. -/
def isFraction : Bytes → Bool
  | [] => true
  | c :: s =>
    if c = dot then !(s.takeWhile isDigit).isEmpty && isExponent (s.dropWhile isDigit)
    else isExponent (c :: s)

/-- A number of JSON without its sign: no leading zero. -/
def isUnsigned : Bytes → Bool
  | [] => false
  | c :: s =>
    if c = zero then isFraction s else isDigit c && isFraction (s.dropWhile isDigit)

/-- A number of JSON. -/
def isNumber : Bytes → Bool
  | [] => false
  | c :: s => if c = minus then isUnsigned s else isUnsigned (c :: s)

theorem isNumberChar_of_isDigit : ∀ c, isDigit c = true → isNumberChar c = true :=
  forall_byte (by decide)

theorem all_isNumberChar_of_isDigits {s : Bytes} (h : s.all isDigit = true) :
    s.all isNumberChar = true :=
  List.all_eq_true.2 fun c hc => isNumberChar_of_isDigit c (List.all_eq_true.1 h c hc)

theorem all_isNumberChar_of_isExponent {s : Bytes} (h : isExponent s = true) :
    s.all isNumberChar = true := by
  have hdigits : ∀ {s : Bytes}, isDigits s = true → s.all isNumberChar = true := fun hs => by
    rw [isDigits, Bool.and_eq_true] at hs
    exact all_isNumberChar_of_isDigits hs.2
  have hchar : ∀ c, (c == lowerE || c == upperE) = true → isNumberChar c = true :=
    forall_byte (by decide)
  have hsign : ∀ c, c = plus ∨ c = minus → isNumberChar c = true := forall_byte (by decide)
  cases s with
  | nil => rfl
  | cons c s =>
    rw [isExponent.eq_def, Bool.and_eq_true] at h
    rw [List.all_cons, hchar c h.1, Bool.true_and]
    cases s with
    | nil => rfl
    | cons d r =>
      have hr := h.2
      simp only at hr
      split_ifs at hr with hd
      · rw [List.all_cons, hsign d hd, Bool.true_and]
        exact hdigits hr
      · exact hdigits hr

theorem all_isNumberChar_of_isFraction {s : Bytes} (h : isFraction s = true) :
    s.all isNumberChar = true := by
  cases s with
  | nil => rfl
  | cons c s =>
    rw [isFraction] at h
    split_ifs at h with hc
    · rw [Bool.and_eq_true] at h
      rw [List.all_cons, hc, show isNumberChar dot = true by rfl, Bool.true_and,
        ← List.takeWhile_append_dropWhile (p := isDigit) (l := s), List.all_append,
        all_isNumberChar_of_isDigits List.all_takeWhile, all_isNumberChar_of_isExponent h.2]
      rfl
    · exact all_isNumberChar_of_isExponent h

/-- A number without its sign begins with a digit, and is a run of number characters. -/
theorem isUnsigned_cons {s : Bytes} (h : isUnsigned s = true) :
    ∃ c r, s = c :: r ∧ isDigit c = true ∧ r.all isNumberChar = true := by
  cases s with
  | nil => exact absurd h (by decide)
  | cons c s =>
    rw [isUnsigned] at h
    split_ifs at h with hc
    · exact ⟨c, s, rfl, hc ▸ rfl, all_isNumberChar_of_isFraction h⟩
    · rw [Bool.and_eq_true] at h
      refine ⟨c, s, rfl, h.1, ?_⟩
      rw [← List.takeWhile_append_dropWhile (p := isDigit) (l := s), List.all_append,
        all_isNumberChar_of_isDigits List.all_takeWhile, all_isNumberChar_of_isFraction h.2]
      rfl

/-- A number of JSON is a number token. -/
theorem isNumTok_of_isNumber {t : Bytes} (h : isNumber t = true) : isNumTok t = true := by
  cases t with
  | nil => exact h
  | cons c s =>
    rw [isNumber] at h
    split_ifs at h with hc
    · obtain ⟨d, r, rfl, hd, hr⟩ := isUnsigned_cons h
      rw [isNumTok, hc, List.all_cons, isNumberChar_of_isDigit d hd, hr]
      rfl
    · obtain ⟨d, r, hs, hd, hr⟩ := isUnsigned_cons h
      obtain ⟨rfl, rfl⟩ := List.cons.inj hs
      rw [isNumTok, startsNumber_of_isDigit c hd, hr]
      rfl

/-- A number token is a run of number characters. -/
theorem all_isNumberChar_of_isNumTok {t : Bytes} (h : isNumTok t = true) :
    t.all isNumberChar = true := by
  cases t with
  | nil => rfl
  | cons c s =>
    rw [isNumTok, Bool.and_eq_true] at h
    rw [List.all_cons, isNumberChar_of_startsNumber c h.1, h.2]
    rfl

theorem isUnsigned_of_isNatText {s : Bytes} (h : isNatText s = true) : isUnsigned s = true := by
  cases s with
  | nil => exact h
  | cons c s =>
    rw [isNatText, Bool.and_eq_true, Bool.and_eq_true, Bool.or_eq_true, bne_iff_ne] at h
    obtain ⟨⟨hc, hs⟩, hz⟩ := h
    rw [isUnsigned]
    split_ifs with hc0
    · rw [List.isEmpty_iff.1 (hz.resolve_left fun hne => hne hc0)]
      rfl
    · rw [hc, List.dropWhile_eq_nil_iff.2 (List.all_eq_true.1 hs)]
      rfl

/-- An integer is a number of JSON. -/
theorem isNumber_of_intVal? {t : Bytes} {i : Int} (h : intVal? t = some i) : isNumber t = true := by
  cases t with
  | nil => exact absurd h (by simp [intVal?])
  | cons c s =>
    rw [intVal?] at h
    rw [isNumber]
    split_ifs at h with hc hn hn
    · rw [if_pos hc]
      exact isUnsigned_of_isNatText hn
    · rw [if_neg hc]
      exact isUnsigned_of_isNatText hn

/-- The character an escape of two characters stands for. -/
def escapeVal? (c : UInt8) : Option UInt8 :=
  if c = quote then some quote
  else if c = backslash then some backslash
  else if c = slash then some slash
  else if c = lowerB then some 8
  else if c = lowerF then some 12
  else if c = lowerN then some 10
  else if c = lowerR then some 13
  else if c = lowerT then some 9
  else none

/-- The number four hexadecimal digits denote. -/
def hex4? (a b c d : UInt8) : Option Nat :=
  match hexVal? a, hexVal? b, hexVal? c, hexVal? d with
  | some a, some b, some c, some d => some (16 * (16 * (16 * a + b) + c) + d)
  | _, _, _, _ => none

/-- Each of them is a hexadecimal digit. -/
theorem hexVal?_of_hex4? {a b c d : UInt8} (h : (hex4? a b c d).isSome = true) :
    ∀ x ∈ [a, b, c, d], (hexVal? x).isSome = true := by
  rw [hex4?] at h
  split at h
  · simp_all
  · simp at h

/-- The inside of a string of JSON: no control characters, and only its escapes. -/
def isStringBody : Bytes → Bool
  | [] => true
  | c :: s =>
    if c = backslash then
      match s with
      | [] => false
      | u :: s =>
        if u = lowerU then
          match s with
          | h₁ :: h₂ :: h₃ :: h₄ :: s => (hex4? h₁ h₂ h₃ h₄).isSome && isStringBody s
          | _ => false
        else (escapeVal? u).isSome && isStringBody s
    else 32 ≤ c && c != quote && isStringBody s

/-- The inside of a string, escape by escape. -/
inductive StringBody : Bytes → Prop
  | nil : StringBody []
  | hex {h₁ h₂ h₃ h₄ : UInt8} {s : Bytes} : (hex4? h₁ h₂ h₃ h₄).isSome = true → StringBody s →
      StringBody (backslash :: lowerU :: h₁ :: h₂ :: h₃ :: h₄ :: s)
  | escape {u : UInt8} {s : Bytes} : (escapeVal? u).isSome = true → StringBody s →
      StringBody (backslash :: u :: s)
  | plain {c : UInt8} {s : Bytes} : c ≠ backslash → c ≠ quote → 32 ≤ c → StringBody s →
      StringBody (c :: s)

theorem stringBody_of_isStringBody {raw : Bytes} (h : isStringBody raw = true) :
    StringBody raw := by
  induction raw using isStringBody.induct with
  | case1 => exact .nil
  | case2 => simp [isStringBody] at h
  | case3 h₁ h₂ h₃ h₄ s ih =>
    simp only [isStringBody, if_true, Bool.and_eq_true] at h
    exact .hex h.1 (ih h.2)
  | case4 s hs =>
    rw [isStringBody.eq_def] at h
    simp only [if_true] at h
    exact absurd h (by decide)
  | case5 u s hu ih =>
    rw [isStringBody.eq_def] at h
    simp only [if_true, hu, if_false, Bool.and_eq_true] at h
    exact .escape h.1 (ih h.2)
  | case6 c s hc ih =>
    rw [isStringBody.eq_def] at h
    simp only [hc, if_false, Bool.and_eq_true, decide_eq_true_eq, bne_iff_ne] at h
    exact .plain hc h.1.2 h.1.1 (ih h.2)

/-- In the inside of a string, every quote is escaped. -/
theorem isClosed_of_isStringBody {raw : Bytes} (h : isStringBody raw = true) :
    isClosed raw = true := by
  -- A character that is neither a quote nor a backslash leaves the string as closed as it was.
  have hplain : ∀ {c : UInt8} {r : Bytes}, c ≠ quote → c ≠ backslash → isClosed r = true →
      isClosed (c :: r) = true := fun {c r} hq hb hr => by
    cases r with
    | nil => simp [isClosed, hq, hb]
    | cons d r => simpa [isClosed, hq, hb] using hr
  have hdigit : ∀ c, (hexVal? c).isSome = true → c ≠ quote ∧ c ≠ backslash :=
    forall_byte (by decide)
  replace h := stringBody_of_isStringBody h
  induction h with
  | nil => rfl
  | @hex h₁ h₂ h₃ h₄ s hhex _ ih =>
    have hne := fun c hc => hdigit c (hexVal?_of_hex4? hhex c hc)
    rw [isClosed, if_pos rfl]
    exact hplain (hne h₁ (by simp)).1 (hne h₁ (by simp)).2
      (hplain (hne h₂ (by simp)).1 (hne h₂ (by simp)).2
        (hplain (hne h₃ (by simp)).1 (hne h₃ (by simp)).2
          (hplain (hne h₄ (by simp)).1 (hne h₄ (by simp)).2 ih)))
  | escape _ _ ih =>
    rw [isClosed, if_pos rfl]
    exact ih
  | plain hc hq _ _ ih => exact hplain hq hc ih

/-- In the inside of a string, every control character is escaped. -/
theorem le_of_mem_stringBody {raw : Bytes} (h : isStringBody raw = true) : ∀ c ∈ raw, 32 ≤ c := by
  have hhex : ∀ c, (hexVal? c).isSome = true → 32 ≤ c := forall_byte (by decide)
  have hescape : ∀ c, (escapeVal? c).isSome = true → 32 ≤ c := forall_byte (by decide)
  replace h := stringBody_of_isStringBody h
  induction h with
  | nil => exact fun c hc => absurd hc List.not_mem_nil
  | @hex h₁ h₂ h₃ h₄ s h _ ih =>
    have hdigit := fun c hc => hhex c (hexVal?_of_hex4? h c hc)
    simp only [List.forall_mem_cons]
    exact ⟨by decide, by decide, hdigit h₁ (by simp), hdigit h₂ (by simp), hdigit h₃ (by simp),
      hdigit h₄ (by simp), ih⟩
  | escape hu _ ih =>
    simp only [List.forall_mem_cons]
    exact ⟨by decide, hescape _ hu, ih⟩
  | plain _ _ hc _ ih => exact List.forall_mem_cons.2 ⟨hc, ih⟩

/-- What the inside of a string stands for, its `\u` escapes being in the range
    `0001` to `007f`. -/
def strVal? : Bytes → Option Bytes
  | [] => some []
  | c :: s =>
    if c = backslash then
      match s with
      | [] => none
      | u :: s =>
        if u = lowerU then
          match s with
          | h₁ :: h₂ :: h₃ :: h₄ :: s =>
            match hex4? h₁ h₂ h₃ h₄ with
            | some n => if 0 < n ∧ n < 128 then (strVal? s).map (UInt8.ofNat n :: ·) else none
            | none => none
          | _ => none
        else match escapeVal? u with
          | some e => (strVal? s).map (e :: ·)
          | none => none
    else (strVal? s).map (c :: ·)

/-- What the inside of a string stands for, escape by escape. -/
inductive StandsFor : Bytes → Bytes → Prop
  | nil : StandsFor [] []
  | hex {h₁ h₂ h₃ h₄ : UInt8} {n : Nat} {s b : Bytes} : hex4? h₁ h₂ h₃ h₄ = some n → 0 < n →
      n < 128 → StandsFor s b →
      StandsFor (backslash :: lowerU :: h₁ :: h₂ :: h₃ :: h₄ :: s) (UInt8.ofNat n :: b)
  | escape {u e : UInt8} {s b : Bytes} : u ≠ lowerU → escapeVal? u = some e → StandsFor s b →
      StandsFor (backslash :: u :: s) (e :: b)
  | plain {c : UInt8} {s b : Bytes} : c ≠ backslash → StandsFor s b → StandsFor (c :: s) (c :: b)

theorem standsFor_of_strVal? {raw b : Bytes} (h : strVal? raw = some b) : StandsFor raw b := by
  induction raw using strVal?.induct generalizing b with
  | case1 =>
    obtain rfl : [] = b := by simpa [strVal?] using h
    exact .nil
  | case2 => simp [strVal?] at h
  | case3 h₁ h₂ h₃ h₄ s n hn hr ih =>
    rw [strVal?.eq_def] at h
    simp only [if_true, hn, hr, and_self, Option.map_eq_some_iff] at h
    obtain ⟨b', hb', rfl⟩ := h
    exact .hex hn hr.1 hr.2 (ih hb')
  | case4 h₁ h₂ h₃ h₄ s n hn hr => simp [strVal?, hn, hr] at h
  | case5 h₁ h₂ h₃ h₄ s hn => simp [strVal?, hn] at h
  | case6 s hs =>
    rw [strVal?.eq_def] at h
    simp only [if_true] at h
    exact absurd h (by simp)
  | case7 u s hu e he ih =>
    rw [strVal?.eq_def] at h
    simp only [if_true, hu, if_false, he, Option.map_eq_some_iff] at h
    obtain ⟨b', hb', rfl⟩ := h
    exact .escape hu he (ih hb')
  | case8 u s hu he =>
    rw [strVal?.eq_def] at h
    simp only [if_true, hu, if_false, he, reduceCtorEq] at h
  | case9 c s hc ih =>
    rw [strVal?.eq_def] at h
    simp only [hc, if_false, Option.map_eq_some_iff] at h
    obtain ⟨b', hb', rfl⟩ := h
    exact .plain hc (ih hb')

/-- The UTF-8 of a code point; a surrogate is none. -/
def utf8? (n : Nat) : Option Bytes :=
  if n.isValidChar then some (String.utf8EncodeChar (Char.ofNat n)) else none

/-- The code point a pair of surrogates stands for. -/
def pairVal (hi lo : Nat) : Nat := 0x10000 + (hi - 0xd800) * 0x400 + (lo - 0xdc00)

/-- What the inside of a string stands for, in UTF-8; a lone surrogate stands
    for nothing. -/
def utf8Val? : Bytes → Option Bytes
  | [] => some []
  | c :: s =>
    if c = backslash then
      match s with
      | [] => none
      | u :: s =>
        if u = lowerU then
          match s with
          | h₁ :: h₂ :: h₃ :: h₄ :: s =>
            match hex4? h₁ h₂ h₃ h₄ with
            | some n =>
              if 0xd800 ≤ n ∧ n < 0xdc00 then
                match s with
                | b :: v :: l₁ :: l₂ :: l₃ :: l₄ :: s =>
                  match hex4? l₁ l₂ l₃ l₄ with
                  | some m =>
                    if b = backslash ∧ v = lowerU ∧ 0xdc00 ≤ m ∧ m < 0xe000 then do
                      return (← utf8? (pairVal n m)) ++ (← utf8Val? s)
                    else none
                  | none => none
                | _ => none
              else do
                return (← utf8? n) ++ (← utf8Val? s)
            | none => none
          | _ => none
        else match escapeVal? u with
          | some e => (utf8Val? s).map (e :: ·)
          | none => none
    else (utf8Val? s).map (c :: ·)

theorem utf8?_of_lt {n : Nat} (h : n < 128) : utf8? n = some [UInt8.ofNat n] := by
  have hall : ∀ n < 128, utf8? n = some [UInt8.ofNat n] := by decide
  exact hall n h

/-- Only an ASCII character is encoded in one byte. -/
theorem one_lt_length_of_utf8? {n : Nat} {b : Bytes} (hn : 128 ≤ n) (h : utf8? n = some b) :
    1 < b.length := by
  rw [utf8?] at h
  split_ifs at h with hv
  obtain rfl := Option.some.inj h
  rw [String.length_utf8EncodeChar, Char.utf8Size]
  have hval : (Char.ofNat n).val.toNat = n := by
    rw [Char.ofNat, dif_pos hv]
    rfl
  have h127 : ¬(Char.ofNat n).val ≤ UInt32.ofNatLT 0x7f (by decide) := by
    rw [UInt32.le_iff_toNat_le, hval]
    simp
    omega
  rw [if_neg h127]
  split_ifs <;> omega

/-! ## Values -/

/-- Something with the whitespace before and after it. -/
structure Item (α : Type) where
  pre : Ws
  val : α
  post : Ws

/-- A member of an object: its key, with the whitespace around it, and its value. -/
structure Member (α : Type) where
  pre : Ws
  key : StrTok
  mid : Ws
  item : Item α

/-- A value with its layout. The last whitespace of an array or an object
    stands before its closing bracket. -/
inductive Json where
  | lit (t : LitTok)
  | num (t : NumTok)
  | str (t : StrTok)
  | arr (items : List (Item Json)) (w : Ws)
  | obj (members : List (Member Json)) (w : Ws)

/-- A member's value. -/
abbrev Member.val {α : Type} (m : Member α) : α := m.item.val

/-- Texts one after the other, separated by commas. -/
def commaSep : List Bytes → Bytes
  | [] => []
  | [x] => x
  | x :: y :: r => x ++ comma :: commaSep (y :: r)

/-- Texts one after the other, each with the whitespace behind it, separated by commas. -/
def spacedText {α : Type} (f : α → Bytes) (xs : List (α × Ws)) : Bytes :=
  commaSep (xs.map fun x => f x.1 ++ x.2.bytes)

/-- What follows the first of some texts: the whitespace behind it, and the others. -/
def restText {X : Type} (text : X → Bytes) (v : Ws) : List (X × Ws) → Bytes
  | [] => v.bytes
  | x :: xs => v.bytes ++ comma :: spacedText text (x :: xs)

theorem spacedText_cons {X : Type} (text : X → Bytes) (x : X) (v : Ws) (xs : List (X × Ws)) :
    spacedText text ((x, v) :: xs) = text x ++ restText text v xs := by
  cases xs <;> simp [spacedText, restText, commaSep]

mutual

/-- The text of a value. -/
def Json.text : Json → Bytes
  | .lit t => t.text
  | .num t => t.text
  | .str t => quote :: (t.raw ++ [quote])
  | .arr es w => lbrack :: (itemsText es ++ (w.bytes ++ [rbrack]))
  | .obj ms w => lbrace :: (membersText ms ++ (w.bytes ++ [rbrace]))

/-- The text of a value and the whitespace around it. -/
def itemText : Item Json → Bytes
  | ⟨pre, v, post⟩ => pre.bytes ++ (v.text ++ post.bytes)

/-- The text of the elements of an array. -/
def itemsText : List (Item Json) → Bytes
  | [] => []
  | [e] => itemText e
  | e :: e' :: es => itemText e ++ comma :: itemsText (e' :: es)

/-- The text of a member of an object. -/
def memberText : Member Json → Bytes
  | ⟨pre, k, mid, it⟩ =>
    pre.bytes ++ (quote :: (k.raw ++ quote :: (mid.bytes ++ colon :: itemText it)))

/-- The text of the members of an object. -/
def membersText : List (Member Json) → Bytes
  | [] => []
  | [m] => memberText m
  | m :: m' :: ms => memberText m ++ comma :: membersText (m' :: ms)

end

theorem itemsText_eq (es : List (Item Json)) : itemsText es = commaSep (es.map itemText) := by
  induction es with
  | nil => simp [itemsText, commaSep]
  | cons e es ih => cases es with
    | nil => simp [itemsText, commaSep]
    | cons e' es => simpa [itemsText, commaSep] using ih

theorem membersText_eq (ms : List (Member Json)) :
    membersText ms = commaSep (ms.map memberText) := by
  induction ms with
  | nil => simp [membersText, commaSep]
  | cons m ms ih => cases ms with
    | nil => simp [membersText, commaSep]
    | cons m' ms => simpa [membersText, commaSep] using ih

/-- A text is not longer than the ones it is among. -/
theorem length_le_commaSep {x : Bytes} {xs : List Bytes} (h : x ∈ xs) :
    x.length ≤ (commaSep xs).length := by
  induction xs with
  | nil => exact absurd h List.not_mem_nil
  | cons y ys ih =>
    cases ys with
    | nil => rw [commaSep, List.mem_singleton.1 h]
    | cons z zs =>
      rw [commaSep, List.length_append, List.length_cons]
      rcases List.mem_cons.1 h with rfl | hmem
      · omega
      · have := ih hmem
        omega

/-- Nor are two of them. -/
theorem length_add_le_commaSep {α : Type} {f : α → Bytes} {a b : α} {xs : List α} (ha : a ∈ xs)
    (hb : b ∈ xs) (hne : a ≠ b) : (f a).length + (f b).length ≤ (commaSep (xs.map f)).length := by
  induction xs with
  | nil => exact absurd ha List.not_mem_nil
  | cons y ys ih =>
    -- The first element, and one of the others.
    have hcons : ∀ {c}, c ∈ ys → (f y).length + (f c).length ≤ (commaSep ((y :: ys).map f)).length ∧
        (commaSep (ys.map f)).length ≤ (commaSep ((y :: ys).map f)).length := fun {c} hc => by
      have hle := length_le_commaSep (List.mem_map_of_mem (f := f) hc)
      cases ys with
      | nil => exact absurd hc List.not_mem_nil
      | cons z zs =>
        rw [List.map_cons, List.map_cons, commaSep, List.length_append, List.length_cons,
          ← List.map_cons]
        omega
    -- One of the two is the first element, or both are behind it.
    rcases List.mem_cons.1 ha with rfl | ha'
    · rcases List.mem_cons.1 hb with rfl | hb'
      · exact absurd rfl hne
      · exact (hcons hb').1
    · rcases List.mem_cons.1 hb with rfl | hb'
      · rw [Nat.add_comm]
        exact (hcons ha').1
      · exact (ih ha' hb').trans (hcons ha').2

/-- A member is longer than its key and its value. -/
theorem length_lt_memberText (m : Member Json) :
    m.key.raw.length + m.val.text.length < (memberText m).length := by
  obtain ⟨pre, key, mid, ⟨before, v, behind⟩⟩ := m
  simp only [memberText, itemText, Member.val, List.length_append, List.length_cons]
  omega

/-- Induction on a value: through the elements of its arrays and the members of
    its objects. -/
theorem Json.induct {P : Json → Prop} (lit : ∀ t, P (.lit t)) (num : ∀ t, P (.num t))
    (str : ∀ t, P (.str t)) (arr : ∀ es w, (∀ e ∈ es, P e.val) → P (.arr es w))
    (obj : ∀ ms w, (∀ m ∈ ms, P m.val) → P (.obj ms w)) (j : Json) : P j := by
  refine Json.rec (motive_1 := P) (motive_2 := fun es => ∀ e ∈ es, P e.val)
    (motive_3 := fun ms => ∀ m ∈ ms, P m.val) (motive_4 := fun e => P e.val)
    (motive_5 := fun m => P m.val) lit num str arr obj ?_ ?_ ?_ ?_ ?_ ?_ j
  all_goals simp +contextual

/-! ### Validity -/

/-- The tokens of a value are those of the JSON grammar. -/
inductive Json.Valid : Json → Prop
  | true {t} : t.text = ascii "true" → Valid (.lit t)
  | false {t} : t.text = ascii "false" → Valid (.lit t)
  | null {t} : t.text = ascii "null" → Valid (.lit t)
  | num {t} : isNumber t.text = true → Valid (.num t)
  | str {t} : isStringBody t.raw = true → Valid (.str t)
  | arr {es w} : (∀ e ∈ es, Valid e.val) → Valid (.arr es w)
  | obj {ms w} : (∀ m ∈ ms, isStringBody m.key.raw = true) → (∀ m ∈ ms, Valid m.val) →
      Valid (.obj ms w)

/-- A well-formed JSON text: a valid value, with whitespace around it. -/
def IsJsonText (s : Bytes) : Prop := ∃ e : Item Json, e.val.Valid ∧ s = itemText e

/-- A well-formed JSON text of the value `j`. -/
def TextOf (j : Json) (s : Bytes) : Prop :=
  j.Valid ∧ ∃ pre post : Ws, s = pre.bytes ++ (j.text ++ post.bytes)

/-! ### No NUL -/

theorem Ws.zero_notMem (w : Ws) : (0 : UInt8) ∉ w.bytes := fun h =>
  absurd (List.all_eq_true.1 w.wf 0 h) (by decide)

/-- The inside of a string has no control characters. -/
theorem zero_notMem_stringBody {raw : Bytes} (h : isStringBody raw = true) : (0 : UInt8) ∉ raw :=
  fun h0 => absurd (le_of_mem_stringBody h 0 h0) (by decide)

theorem zero_notMem_commaSep {xs : List Bytes} (h : ∀ x ∈ xs, (0 : UInt8) ∉ x) :
    (0 : UInt8) ∉ commaSep xs := by
  induction xs with
  | nil => simp [commaSep]
  | cons x xs ih => cases xs with
    | nil => exact h x List.mem_cons_self
    | cons y r =>
      rw [commaSep, List.mem_append, List.mem_cons, not_or, not_or]
      exact ⟨h x List.mem_cons_self, by decide, ih fun z hz => h z (List.mem_cons_of_mem _ hz)⟩

/-- A valid value has no NUL in its text. -/
theorem Json.Valid.zero_notMem {v : Json} (h : v.Valid) : (0 : UInt8) ∉ v.text := by
  have hitem : ∀ e : Item Json, (0 : UInt8) ∉ e.val.text → (0 : UInt8) ∉ itemText e :=
    fun ⟨pre, v, post⟩ hv => by
      simp only [itemText, List.mem_append, not_or]
      exact ⟨pre.zero_notMem, hv, post.zero_notMem⟩
  -- Literals, numbers and strings exclude a NUL by their own grammar.
  induction h with
  | true h => rw [Json.text, h]; decide
  | false h => rw [Json.text, h]; decide
  | null h => rw [Json.text, h]; decide
  | @num t h =>
    obtain ⟨_ | ⟨c, r⟩, wf⟩ := t
    · simp [Json.text]
    · rw [isNumTok, Bool.and_eq_true] at wf
      rw [Json.text, List.mem_cons, not_or]
      exact ⟨fun h0 => absurd (h0 ▸ wf.1) (by decide),
        fun h0 => absurd (List.all_eq_true.1 wf.2 0 h0) (by decide)⟩
  | str h =>
    simp only [Json.text, List.mem_cons, List.mem_append, List.not_mem_nil, or_false, not_or]
    exact ⟨by decide, zero_notMem_stringBody h, by decide⟩
  | @arr es w _ ih =>
    have hes : (0 : UInt8) ∉ itemsText es := by
      rw [itemsText_eq]
      refine zero_notMem_commaSep fun x hx => ?_
      obtain ⟨e, he, rfl⟩ := List.mem_map.1 hx
      exact hitem e (ih e he)
    simp only [Json.text, List.mem_cons, List.mem_append, List.not_mem_nil, or_false, not_or]
    exact ⟨by decide, hes, w.zero_notMem, by decide⟩
  | @obj ms w hkeys _ ih =>
    have hms : (0 : UInt8) ∉ membersText ms := by
      rw [membersText_eq]
      refine zero_notMem_commaSep fun x hx => ?_
      obtain ⟨⟨pre, k, mid, it⟩, hm, rfl⟩ := List.mem_map.1 hx
      simp only [memberText, List.mem_append, List.mem_cons, not_or]
      exact ⟨pre.zero_notMem, by decide, zero_notMem_stringBody (hkeys _ hm), by decide,
        mid.zero_notMem, by decide, hitem it (ih _ hm)⟩
    simp only [Json.text, List.mem_cons, List.mem_append, List.not_mem_nil, or_false, not_or]
    exact ⟨by decide, hms, w.zero_notMem, by decide⟩

theorem TextOf.zero_notMem {j : Json} {s : Bytes} (h : TextOf j s) : (0 : UInt8) ∉ s := by
  obtain ⟨hvalid, pre, post, rfl⟩ := h
  simp only [List.mem_append, not_or]
  exact ⟨pre.zero_notMem, hvalid.zero_notMem, post.zero_notMem⟩

/-! ### What a value says -/

/-- What a value says. An array or an object is its own text. -/
inductive Datum where
  | null
  | bool (b : Bool)
  | int (i : Int)
  | num (t : Bytes)
  | str (s : Bytes)
  | raw (t : Bytes)
  deriving DecidableEq

/-- What a valid value says; a number without fraction or exponent is an integer. -/
def Json.datum? : Json → Option Datum
  | .lit t =>
    if t.text = ascii "true" then some (.bool true)
    else if t.text = ascii "false" then some (.bool false)
    else if t.text = ascii "null" then some .null
    else none
  | .num t => match intVal? t.text with
    | some i => some (.int i)
    | none => some (.num t.text)
  | .str t => (strVal? t.raw).map .str
  | j => some (.raw j.text)

/-! ### Members by name -/

/-- The value is a string. -/
def Json.isStr : Json → Bool
  | .str _ => true
  | _ => false

/-- The value is a number. -/
def Json.isNum : Json → Bool
  | .num _ => true
  | _ => false

/-- The value is an object. -/
def Json.isObj : Json → Bool
  | .obj .. => true
  | _ => false

/-- The value is `true` or `false`. -/
def Json.isBool : Json → Bool
  | .lit t => t.text == ascii "true" || t.text == ascii "false"
  | _ => false

/-- The value is an array. -/
def Json.isArr : Json → Bool
  | .arr .. => true
  | _ => false

/-- The first member of the kind `p` whose name is `key`. -/
def field? (p : Json → Bool) (key : Bytes) (ms : List (Member Json)) : Option Json :=
  (ms.find? fun m => strVal? m.key.raw == some key && p m.val).map Member.val

/-- There is a member of the kind `p` whose name is `key`. -/
def HasMember (p : Json → Bool) (key : Bytes) (ms : List (Member Json)) : Prop :=
  ∃ m ∈ ms, strVal? m.key.raw = some key ∧ p m.val = true

theorem field?_isSome_iff {p : Json → Bool} {key : Bytes} {ms : List (Member Json)} :
    (field? p key ms).isSome ↔ HasMember p key ms := by
  simp [field?, HasMember, List.find?_isSome]

theorem field?_eq_none_iff {p : Json → Bool} {key : Bytes} {ms : List (Member Json)} :
    field? p key ms = none ↔ ¬HasMember p key ms := by
  rw [← field?_isSome_iff, Option.not_isSome_iff_eq_none]

theorem kind_of_field? {p : Json → Bool} {key : Bytes} {ms : List (Member Json)} {v : Json}
    (h : field? p key ms = some v) : p v = true := by
  obtain ⟨m, hm, rfl⟩ := Option.map_eq_some_iff.1 h
  exact (Bool.and_eq_true _ _ ▸ List.find?_some hm).2

/-- The value of a member is valid if all of them are. -/
theorem valid_of_field? {p : Json → Bool} {key : Bytes} {ms : List (Member Json)} {v : Json}
    (hms : ∀ m ∈ ms, m.val.Valid) (h : field? p key ms = some v) : v.Valid := by
  obtain ⟨m, hm, rfl⟩ := Option.map_eq_some_iff.1 h
  exact hms m (List.mem_of_find?_eq_some hm)

/-- The keys of these members are written without escapes. -/
def PlainKeys (ms : List (Member Json)) : Prop := ∀ m ∈ ms, backslash ∉ m.key.raw

/-- A string written without escapes stands for itself. -/
theorem strVal?_of_plain {raw : Bytes} (h : backslash ∉ raw) : strVal? raw = some raw := by
  induction raw with
  | nil => rfl
  | cons c r ih =>
    rw [List.mem_cons, not_or] at h
    rw [strVal?.eq_def]
    simp only [Ne.symm h.1, if_false, ih h.2, Option.map_some]

/-- The first member of the kind `p` whose key is written `key`. -/
def rawField? (p : Json → Bool) (key : Bytes) (ms : List (Member Json)) : Option Json :=
  (ms.find? fun m => m.key.raw == key && p m.val).map Member.val

/-- With plain keys, the name of a member is the text of its key. -/
theorem field?_of_plain {ms : List (Member Json)} (h : PlainKeys ms) (p : Json → Bool)
    (key : Bytes) : field? p key ms = rawField? p key ms := by
  have hname : ∀ m ∈ ms, (strVal? m.key.raw == some key && p m.val) =
      (m.key.raw == key && p m.val) := fun m hm => by
    rw [strVal?_of_plain (h m hm)]
    rfl
  rw [field?, rawField?]
  congr 1
  clear h
  induction ms with
  | nil => rfl
  | cons m ms ih =>
    rw [List.find?_cons, List.find?_cons, hname m List.mem_cons_self,
      ih fun m hm => hname m (List.mem_cons_of_mem _ hm)]

end MongrelDB
