import MongrelDB.Parser.Walk
import MongrelDB.Serialize

/-!
# The text of serialized values

What the serializers append is JSON, and says what they were given: a string token
stands for the bytes of the string (`escape_spec`), an integer is that
integer, and a flat array of cells has an id and a value for each of them
(`CellsWritten`).
-/

namespace MongrelDB

open Ascii

/-! ## Strings -/

/-- A character stands for itself, for an escape of two characters, or for one of a
    code point. -/
def isEscapeOf (c : UInt8) : Bytes → Bool
  | [d] => d = c ∧ 32 ≤ c ∧ c ≠ quote ∧ c ≠ backslash
  | [d, u] => d = backslash ∧ u ≠ lowerU ∧ escapeVal? u = some c
  | [d, u, h₁, h₂, h₃, h₄] => d = backslash ∧ u = lowerU ∧
    hex4? h₁ h₂ h₃ h₄ = some c.toNat ∧ 0 < c.toNat ∧ c.toNat < 128
  | _ => false

theorem escapeChar_cases {c : UInt8} (hc : c ≠ 0) :
    (escapeChar c = [c] ∧ 32 ≤ c ∧ c ≠ quote ∧ c ≠ backslash) ∨
      (∃ u, escapeChar c = [backslash, u] ∧ u ≠ lowerU ∧ escapeVal? u = some c) ∨
      ∃ a b d e, escapeChar c = [backslash, lowerU, a, b, d, e] ∧
        hex4? a b d e = some c.toNat ∧ 0 < c.toNat ∧ c.toNat < 128 := by
  have hall : ∀ c : UInt8, c ≠ 0 → isEscapeOf c (escapeChar c) = true := by decide +kernel
  have h := hall c hc
  unfold isEscapeOf at h
  split at h
  · rename_i d hd
    obtain ⟨rfl, hc'⟩ := of_decide_eq_true h
    exact .inl ⟨hd, hc'⟩
  · rename_i d u hd
    obtain ⟨rfl, hu⟩ := of_decide_eq_true h
    exact .inr (.inl ⟨u, hd, hu⟩)
  · rename_i d u h₁ h₂ h₃ h₄ hd
    obtain ⟨rfl, rfl, hhex⟩ := of_decide_eq_true h
    exact .inr (.inr ⟨h₁, h₂, h₃, h₄, hd, hhex⟩)
  · exact absurd h Bool.false_ne_true

/-- One more escaped character in front of the inside of a string. -/
theorem escapeChar_append {c : UInt8} (hc : c ≠ 0) (r : Bytes) :
    isStringBody (escapeChar c ++ r) = isStringBody r ∧
      strVal? (escapeChar c ++ r) = (strVal? r).map (c :: ·) := by
  rcases escapeChar_cases hc with ⟨he, h32, hq, hb⟩ | ⟨u, he, hu, hval⟩ | ⟨a, b, d, e, he,
    hhex, hpos, hlt⟩
  · rw [he, List.singleton_append, isStringBody.eq_def, strVal?.eq_def]
    simp [hb, hq, h32]
  · rw [he, List.cons_append, List.singleton_append, isStringBody.eq_def, strVal?.eq_def]
    simp [hu, hval]
  · rw [he]
    simp [isStringBody, strVal?, hhex, hpos, hlt]

theorem escape_spec {s : Bytes} (hs : (0 : UInt8) ∉ s) :
    isStringBody (s.flatMap escapeChar) = true ∧ strVal? (s.flatMap escapeChar) = some s := by
  induction s with
  | nil => exact ⟨rfl, rfl⟩
  | cons c s ih =>
    rw [List.mem_cons, not_or] at hs
    obtain ⟨hbody, hval⟩ := escapeChar_append (Ne.symm hs.1) (s.flatMap escapeChar)
    obtain ⟨ihbody, ihval⟩ := ih hs.2
    rw [List.flatMap_cons, hbody, hval, ihval]
    exact ⟨ihbody, rfl⟩

/-- The token a string is written as. -/
def strTok (s : CStr) : StrTok :=
  ⟨s.bytes.flatMap escapeChar, isClosed_of_isStringBody (escape_spec s.noNul).1⟩

/-- The value a string is written as. -/
abbrev Json.ofStr (s : CStr) : Json := .str (strTok s)

theorem Json.ofStr_valid (s : CStr) : (Json.ofStr s).Valid := .str (escape_spec s.noNul).1

theorem Json.ofStr_datum (s : CStr) : (Json.ofStr s).datum? = some (.str s.bytes) := by
  rw [datum?, strTok, (escape_spec s.noNul).2, Option.map_some]

theorem flatten_jsonEscape (s : CStr) : (jsonEscape s).flatten = (Json.ofStr s).text := by
  simp [jsonEscape, Json.text, strTok, List.flatMap_def]

/-! ## Numbers -/

theorem int64Text_eq (i : Int64) : int64Text i = intText i.toInt := by
  have hlen := length_le_of_intVal? (intVal?_intText i.toInt) (by simpa using i.le_toInt)
    (by simpa using i.toInt_lt)
  exact List.take_of_length_le (by omega)

/-- The value a number token stands for. -/
def Json.ofNum (t : Bytes) (h : isNumber t = true) : Json := .num ⟨t, isNumTok_of_isNumber h⟩

/-- The value an integer is written as. -/
def Json.ofInt64 (i : Int64) : Json :=
  .ofNum (intText i.toInt) (isNumber_of_intVal? (intVal?_intText _))

theorem Json.ofInt64_valid (i : Int64) : (Json.ofInt64 i).Valid :=
  .num (isNumber_of_intVal? (intVal?_intText _))

theorem Json.ofInt64_datum (i : Int64) : (Json.ofInt64 i).datum? = some (.int i.toInt) := by
  rw [ofInt64, ofNum, datum?, intVal?_intText]

theorem Json.ofInt64_text (i : Int64) : (Json.ofInt64 i).text = int64Text i := by
  rw [int64Text_eq]
  rfl

theorem zero_notMem_jsonEscape (s : CStr) : (0 : UInt8) ∉ (jsonEscape s).flatten := by
  rw [flatten_jsonEscape]
  exact (Json.ofStr_valid s).zero_notMem

theorem zero_notMem_int64Text (i : Int64) : (0 : UInt8) ∉ int64Text i := by
  rw [← Json.ofInt64_text]
  exact (Json.ofInt64_valid i).zero_notMem

/-! ## Tokens and what follows -/

/-- Two runs of characters end where the first other character stands. -/
theorem takeWhile_append_inj {p : UInt8 → Bool} {s t x y : Bytes} (hs : s.all p = true)
    (ht : t.all p = true) (hx : StopsAt p x) (hy : StopsAt p y) (h : s ++ x = t ++ y) :
    s = t ∧ x = y := by
  have htake : ∀ {s x : Bytes}, s.all p = true → StopsAt p x → (s ++ x).takeWhile p = s :=
    fun {s x} hs hx => by
      rw [List.takeWhile_append_of_pos (List.all_eq_true.1 hs)]
      cases x with
      | nil => simp
      | cons c x => rw [List.takeWhile_cons_of_neg (by simp [hx c rfl]), List.append_nil]
  have hst : s = t := by rw [← htake hs hx, h, htake ht hy]
  subst hst
  exact ⟨rfl, List.append_cancel_left h⟩

theorem natText_append_inj {m n : Nat} {x y : Bytes} (hx : StopsAt isDigit x)
    (hy : StopsAt isDigit y) (h : natText m ++ x = natText n ++ y) : m = n ∧ x = y := by
  obtain ⟨hmn, hxy⟩ := takeWhile_append_inj (all_isDigit_natText m) (all_isDigit_natText n) hx hy h
  exact ⟨by rw [← natOf_natText m, hmn, natOf_natText], hxy⟩

theorem intText_append_inj {i j : Int} {x y : Bytes} (hx : StopsAt isNumberChar x)
    (hy : StopsAt isNumberChar y) (h : intText i ++ x = intText j ++ y) : i = j ∧ x = y := by
  have hall : ∀ i, (intText i).all isNumberChar = true := fun i =>
    all_isNumberChar_of_isNumTok (isNumTok_of_isNumber (isNumber_of_intVal? (intVal?_intText i)))
  obtain ⟨hij, hxy⟩ := takeWhile_append_inj (hall i) (hall j) hx hy h
  refine ⟨Option.some.inj ?_, hxy⟩
  rw [← intVal?_intText i, hij, intVal?_intText]

theorem ofStr_append_inj {s t : CStr} {x y : Bytes}
    (h : (Json.ofStr s).text ++ x = (Json.ofStr t).text ++ y) : s = t ∧ x = y := by
  have hrun : ∀ (s : CStr) (x : Bytes),
      jpString ⟨(Json.ofStr s).text ++ x, true⟩ = .ok ⟨x, true⟩ := fun s x => by
    simpa [Json.text] using jpString_closed (strTok s) x true
  obtain rfl : x = y := by
    have heq := (hrun s x).symm.trans (h ▸ hrun t y)
    exact congrArg JsonParser.p (Except.ok.inj heq)
  refine ⟨?_, rfl⟩
  have htext := List.append_cancel_right h
  have hraw : (strTok s).raw = (strTok t).raw := by simpa [Json.text] using htext
  have hval := (escape_spec s.noNul).2
  rw [show s.bytes.flatMap escapeChar = t.bytes.flatMap escapeChar from hraw,
    (escape_spec t.noNul).2] at hval
  exact CStr.ext (Option.some.inj hval).symm

/-! ## Values -/

/-- `%.17g` prints the double as a number of JSON, of less than 64 characters. -/
def Libc.PrintsNumber (lib : Libc) (d : F64) : Prop :=
  isNumber (lib.printG d).bytes = true ∧ (lib.printG d).bytes.length < 64

/-- A finite double is printed as a number, and raw text is one of JSON. -/
def InputValue.WellFormed (lib : Libc) : InputValue → Prop
  | .double d => d.isFinite = true → lib.PrintsNumber d
  | .json (some s) => IsJsonText s.bytes
  | _ => True

/-- A value says what it was written from: a double by its printed token, and raw
    text by itself. -/
def InputValue.WrittenAs (lib : Libc) (e : Item Json) : InputValue → Prop
  | .null => e.val.datum? = some .null
  | .bool b => e.val.datum? = some (.bool (b != 0))
  | .int64 i => e.val.datum? = some (.int i.toInt)
  | .double d => if d.isFinite then e.val.text = (lib.printG d).bytes else e.val.datum? = some .null
  | .str s => e.val.datum? = some (.str (orEmpty s).bytes)
  | .json (some s) => itemText e = s.bytes
  | .json none => e.val.datum? = some .null
  | .other => e.val.datum? = some .null

/-- A value with nothing around it. -/
def plainItem (v : Json) : Item Json := ⟨Ws.none, v, Ws.none⟩

@[simp] theorem itemText_plainItem (v : Json) : itemText (plainItem v) = v.text := by
  simp [plainItem, itemText, Ws.none]

/-- The literal `null`. -/
def Json.null : Json := .lit ⟨ascii "null", by decide⟩

/-- The literals `true` and `false`. -/
def Json.ofBool (b : Bool) : Json :=
  if b then .lit ⟨ascii "true", Eq.refl true⟩ else .lit ⟨ascii "false", Eq.refl true⟩

theorem Json.null_valid : Json.null.Valid := .null rfl

theorem Json.null_datum : Json.null.datum? = some .null := by decide

theorem Json.ofBool_valid (b : Bool) : (Json.ofBool b).Valid := by
  cases b
  · exact .false rfl
  · exact .true rfl

theorem Json.ofBool_datum (b : Bool) : (Json.ofBool b).datum? = some (.bool b) := by
  cases b <;> decide

theorem Json.ofBool_text (b : Bool) :
    (Json.ofBool b).text = if b then ascii "true" else ascii "false" := by
  cases b <;> rfl

/-- The value a natural number is written as. -/
def Json.ofNat (n : Nat) : Json := .ofNum (natText n) (isNumber_of_intVal? (intVal?_natText n))

theorem Json.ofNat_valid (n : Nat) : (Json.ofNat n).Valid :=
  .num (isNumber_of_intVal? (intVal?_natText n))

theorem Json.ofNat_datum (n : Nat) : (Json.ofNat n).datum? = some (.int n) := by
  rw [ofNat, ofNum, datum?, intVal?_natText]

/-! ## Members -/

/-- A member with nothing around its key. -/
def writtenMember (key : CStr) (e : Item Json) : Member Json := ⟨Ws.none, strTok key, Ws.none, e⟩

/-- A key and the colon behind it. -/
def keyText (key : CStr) : Bytes := (Json.ofStr key).text ++ [colon]

theorem memberText_writtenMember (key : CStr) (e : Item Json) :
    memberText (writtenMember key e) = keyText key ++ itemText e := by
  simp [writtenMember, memberText, keyText, Json.text, Ws.none]

/-- An object of written members. -/
def Json.ofMembers (ms : List (CStr × Item Json)) : Json :=
  .obj (ms.map fun m => writtenMember m.1 m.2) Ws.none

/-- Written members behind another one, each with the comma in front of it. -/
def moreMembers (ms : List (CStr × Item Json)) : Bytes :=
  ms.flatMap fun m => comma :: (keyText m.1 ++ itemText m.2)

@[simp] theorem moreMembers_nil : moreMembers [] = [] := rfl

@[simp] theorem moreMembers_cons (key : CStr) (e : Item Json) (ms : List (CStr × Item Json)) :
    moreMembers ((key, e) :: ms) = comma :: (keyText key ++ (itemText e ++ moreMembers ms)) := by
  simp [moreMembers]

@[simp] theorem moreMembers_append (ms ms' : List (CStr × Item Json)) :
    moreMembers (ms ++ ms') = moreMembers ms ++ moreMembers ms' := List.flatMap_append

theorem commaSep_cons (x : Bytes) (xs : List Bytes) :
    commaSep (x :: xs) = x ++ xs.flatMap fun y => comma :: y := by
  induction xs generalizing x with
  | nil => simp [commaSep]
  | cons y ys ih => rw [commaSep, ih, List.flatMap_cons, List.cons_append]

/-- The text of an object of written members. -/
theorem Json.text_ofMembers (key : CStr) (e : Item Json) (ms : List (CStr × Item Json)) :
    (Json.ofMembers ((key, e) :: ms)).text =
      lbrace :: (keyText key ++ (itemText e ++ (moreMembers ms ++ [rbrace]))) := by
  simp only [Json.ofMembers, Json.text, membersText_eq, List.map_cons, commaSep_cons,
    memberText_writtenMember, List.flatMap_map, Ws.none, List.nil_append, List.append_assoc,
    moreMembers]

/-- An object is valid if it is written with valid values. -/
theorem Json.valid_ofMembers {ms : List (CStr × Item Json)} (h : ∀ m ∈ ms, m.2.val.Valid) :
    (Json.ofMembers ms).Valid := by
  refine .obj (fun m hm => ?_) fun m hm => ?_
  · obtain ⟨⟨key, e⟩, -, rfl⟩ := List.mem_map.1 hm
    exact (escape_spec key.noNul).1
  · obtain ⟨⟨key, e⟩, hmem, rfl⟩ := List.mem_map.1 hm
    exact h _ hmem

/-- The name of a written member is the key it was written with. -/
theorem field?_writtenMember (p : Json → Bool) (key key' : CStr) (e : Item Json)
    (ms : List (Member Json)) : field? p key.bytes (writtenMember key' e :: ms) =
      if key' = key ∧ p e.val = true then some e.val else field? p key.bytes ms := by
  have hname : strVal? (writtenMember key' e).key.raw = some key'.bytes :=
    (escape_spec key'.noNul).2
  rw [field?, List.find?_cons, hname]
  split_ifs with h
  · have hhit : (some key'.bytes == some key.bytes && p e.val) = true := by simp [h.1, h.2]
    rw [show p (writtenMember key' e).val = p e.val from rfl, hhit]
    rfl
  · have hmiss : (some key'.bytes == some key.bytes && p e.val) = false := by
      rw [Bool.and_eq_false_iff]
      by_cases hkey : key' = key
      · exact .inr (Bool.eq_false_iff.2 fun hp => h ⟨hkey, hp⟩)
      · exact .inl (by simpa using fun hb => hkey (CStr.ext hb))
    rw [show p (writtenMember key' e).val = p e.val from rfl, hmiss]
    rfl

variable {lib : Libc}

/-- A serialized value is a text of JSON that says what it was written from. -/
theorem jsonSerializeValue_written {v : InputValue} (hv : v.WellFormed lib) :
    ∃ e : Item Json, (jsonSerializeValue lib v).flatten = itemText e ∧
      e.val.Valid ∧ v.WrittenAs lib e := by
  have hnull : ∃ e : Item Json, ascii "null" = itemText e ∧ e.val.Valid ∧
      e.val.datum? = some .null :=
    ⟨plainItem .null, by decide, Json.null_valid, Json.null_datum⟩
  cases v with
  | null => simpa [jsonSerializeValue, InputValue.WrittenAs] using hnull
  | other => simpa [jsonSerializeValue, InputValue.WrittenAs] using hnull
  | bool b =>
    refine ⟨plainItem (.ofBool (b != 0)), ?_, Json.ofBool_valid _, Json.ofBool_datum _⟩
    rw [itemText_plainItem, Json.ofBool_text]
    simp [jsonSerializeValue]
  | int64 i =>
    refine ⟨plainItem (.ofInt64 i), ?_, Json.ofInt64_valid i, Json.ofInt64_datum i⟩
    rw [itemText_plainItem, Json.ofInt64_text]
    simp [jsonSerializeValue]
  | double d =>
    cases hd : d.isFinite with
    | false => simpa [jsonSerializeValue, InputValue.WrittenAs, hd] using hnull
    | true =>
      obtain ⟨hnum, hlen⟩ := hv hd
      refine ⟨plainItem (.ofNum (lib.printG d).bytes hnum), ?_, .num hnum, ?_⟩
      · have hfits : snprintf 64 (lib.printG d).bytes = (lib.printG d).bytes :=
          List.take_of_length_le (by omega)
        simp [jsonSerializeValue, hd, hfits, Json.ofNum, Json.text]
      · simp [InputValue.WrittenAs, hd, plainItem, Json.ofNum, Json.text]
  | str s =>
    refine ⟨plainItem (.ofStr (orEmpty s)), ?_, Json.ofStr_valid _, Json.ofStr_datum _⟩
    rw [itemText_plainItem, jsonSerializeValue, flatten_jsonEscape]
  | json s =>
    cases s with
    | none => simpa [jsonSerializeValue, InputValue.WrittenAs, CStr.lit] using hnull
    | some s =>
      obtain ⟨e, he, hs⟩ : IsJsonText s.bytes := hv
      exact ⟨e, by simpa [jsonSerializeValue] using hs, he, hs.symm⟩

/-! ## Cells -/

/-- An array has an id and a value for each of these cells, in order; the values
    are related by `P`. -/
def CellsWritten (P : InputValue → Item Json → Prop) : List InputCell → List (Item Json) → Prop
  | [], [] => True
  | cell :: cells, id :: v :: es =>
    id.val.datum? = some (.int cell.columnId.toInt) ∧ P cell.value v ∧ CellsWritten P cells es
  | _, _ => False

theorem flatten_separated {α : Type} (f : α → Appends) (xs : List α) :
    (separated f xs).flatten = commaSep (xs.map fun x => (f x).flatten) := by
  cases xs with
  | nil => rfl
  | cons x xs =>
    induction xs generalizing x with
    | nil => simp [separated, commaSep]
    | cons y ys ih =>
      have hstep : commaSep ((x :: y :: ys).map fun x => (f x).flatten) =
          (f x).flatten ++ comma :: commaSep ((y :: ys).map fun x => (f x).flatten) := rfl
      rw [hstep, ← ih]
      simp [separated]

theorem itemsText_cons₂ (e e' : Item Json) (es : List (Item Json)) :
    itemsText (e :: e' :: es) = itemText e ++ comma :: itemsText (e' :: es) := rfl

/-- Serialized cells are the elements of an array of JSON, an id and a value for
    each cell, if each value is serialized as one. -/
theorem separated_cells_written {P : InputValue → Item Json → Prop} {cells : List InputCell}
    (hcells : ∀ cell ∈ cells, ∃ e : Item Json,
      (jsonSerializeValue lib cell.value).flatten = itemText e ∧ e.val.Valid ∧ P cell.value e) :
    ∃ es : List (Item Json), (separated (jsonSerializeCell lib) cells).flatten = itemsText es ∧
      (∀ e ∈ es, e.val.Valid) ∧ CellsWritten P cells es := by
  rw [flatten_separated]
  induction cells with
  | nil => exact ⟨[], by simp [commaSep, itemsText], by simp, trivial⟩
  | cons cell cells ih =>
    obtain ⟨es, hes, hvalid, hwritten⟩ := ih fun c hc => hcells c (List.mem_cons_of_mem _ hc)
    obtain ⟨v, hv, hvvalid, hvwritten⟩ := hcells cell List.mem_cons_self
    have hcell : (jsonSerializeCell lib cell).flatten =
        itemText (plainItem (.ofInt64 cell.columnId)) ++ comma :: itemText v := by
      rw [itemText_plainItem, Json.ofInt64_text, ← hv]
      simp [jsonSerializeCell]
    refine ⟨plainItem (.ofInt64 cell.columnId) :: v :: es, ?_, ?_,
      Json.ofInt64_datum _, hvwritten, hwritten⟩
    · rw [List.map_cons, hcell]
      -- The last cell has no comma behind it.
      cases cells with
      | nil =>
        obtain rfl : es = [] := by
          cases es with
          | nil => rfl
          | cons e es => exact hwritten.elim
        simp [commaSep, itemsText]
      | cons cell' cells =>
        obtain ⟨e, es, rfl⟩ : ∃ e es', es = e :: es' := by
          cases es with
          | nil => exact hwritten.elim
          | cons e es => exact ⟨e, es, rfl⟩
        rw [itemsText_cons₂, itemsText_cons₂, ← hes]
        simp [commaSep]
    · simp only [List.forall_mem_cons]
      exact ⟨Json.ofInt64_valid _, hvvalid, hvalid⟩

/-- `json_serialize_cells` writes an array of JSON. -/
theorem jsonSerializeCells_written {P : InputValue → Item Json → Prop} {cells : List InputCell}
    (hcells : ∀ cell ∈ cells, ∃ e : Item Json,
      (jsonSerializeValue lib cell.value).flatten = itemText e ∧ e.val.Valid ∧ P cell.value e) :
    ∃ es : List (Item Json),
      (jsonSerializeCells lib cells).flatten = (Json.arr es Ws.none).text ∧
      (Json.arr es Ws.none).Valid ∧ CellsWritten P cells es := by
  obtain ⟨es, hes, hvalid, hwritten⟩ := separated_cells_written hcells
  refine ⟨es, ?_, .arr hvalid, hwritten⟩
  simp [jsonSerializeCells, hes, Json.text, Ws.none]

end MongrelDB
