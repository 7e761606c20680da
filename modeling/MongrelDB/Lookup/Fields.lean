import MongrelDB.Lookup.Find

/-!
# The fields of an object

What the four lookups return on the text of a valid object with plain keys, in
terms of its members: the first member of the kind and the name asked for is
found and delivered. If there is none, the lookup delivers its default, and
returns 1 nevertheless, unless the object is empty.
-/

namespace MongrelDB

open Ascii

/-! ## Kinds by the first character -/

theorem Json.lit_head (t : LitTok) : ∃ c r, t.text = c :: r ∧ startsLiteral c = true := by
  obtain ⟨text, wf⟩ := t
  cases text with
  | nil => exact absurd wf (by decide)
  | cons c r => exact ⟨c, r, rfl, (Bool.and_eq_true _ _ ▸ wf).1⟩

theorem Json.num_head (t : NumTok) : ∃ c r, t.text = c :: r ∧ startsNumber c = true := by
  obtain ⟨text, wf⟩ := t
  cases text with
  | nil => exact absurd wf (by decide)
  | cons c r => exact ⟨c, r, rfl, (Bool.and_eq_true _ _ ▸ wf).1⟩

theorem startsLiteral_kinds : ∀ c, startsLiteral c = true →
    (c == quote) = false ∧ (c == lbrace) = false ∧ startsNumber c = false :=
  forall_byte (by decide)

theorem startsNumber_kinds : ∀ c, startsNumber c = true →
    (c == quote) = false ∧ (c == lbrace) = false ∧ (c == lowerT || c == lowerF) = false :=
  forall_byte (by decide)

theorem Json.isStr_iff_head (j : Json) : j.text.head?.any (· == quote) = j.isStr := by
  cases j with
  | lit t =>
    obtain ⟨c, r, ht, hc⟩ := Json.lit_head t
    simp [Json.text, Json.isStr, ht, (startsLiteral_kinds c hc).1]
  | num t =>
    obtain ⟨c, r, ht, hc⟩ := Json.num_head t
    simp [Json.text, Json.isStr, ht, (startsNumber_kinds c hc).1]
  | _ => simp +decide [Json.text, Json.isStr]

theorem Json.isNum_iff_head (j : Json) : j.text.head?.any startsNumber = j.isNum := by
  cases j with
  | lit t =>
    obtain ⟨c, r, ht, hc⟩ := Json.lit_head t
    simp [Json.text, Json.isNum, ht, (startsLiteral_kinds c hc).2.2]
  | num t =>
    obtain ⟨c, r, ht, hc⟩ := Json.num_head t
    simp [Json.text, Json.isNum, ht, hc]
  | _ => simp +decide [Json.text, Json.isNum]

theorem Json.isObj_iff_head (j : Json) : j.text.head?.any (· == lbrace) = j.isObj := by
  cases j with
  | lit t =>
    obtain ⟨c, r, ht, hc⟩ := Json.lit_head t
    simp [Json.text, Json.isObj, ht, (startsLiteral_kinds c hc).2.1]
  | num t =>
    obtain ⟨c, r, ht, hc⟩ := Json.num_head t
    simp [Json.text, Json.isObj, ht, (startsNumber_kinds c hc).2.1]
  | _ => simp +decide [Json.text, Json.isObj]

theorem Json.isBool_iff_head {j : Json} (hj : j.Valid) :
    j.text.head?.any (fun c => c == lowerT || c == lowerF) = j.isBool := by
  cases hj with
  | num _ =>
    rename_i t _
    obtain ⟨c, r, ht, hc⟩ := Json.num_head t
    simp only [Json.text, ht, List.head?_cons, Option.any_some, Json.isBool,
      (startsNumber_kinds c hc).2.2]
  | true h => rw [Json.text, Json.isBool, h]; decide
  | false h => rw [Json.text, Json.isBool, h]; decide
  | null h => rw [Json.text, Json.isBool, h]; decide
  | _ => simp +decide [Json.text, Json.isBool]

/-- A value of a kind is the value of its token, or of its members. -/
theorem text_of_isStr {v : Json} (h : v.isStr = true) : ∃ t, v = .str t := by
  cases v <;> first | exact ⟨_, rfl⟩ | exact absurd h (by simp [Json.isStr])

theorem text_of_isBool {v : Json} (h : v.isBool = true) : ∃ t, v = .lit t := by
  cases v <;> first | exact ⟨_, rfl⟩ | exact absurd h (by simp [Json.isBool])

theorem text_of_isNum {v : Json} (h : v.isNum = true) : ∃ t, v = .num t := by
  cases v <;> first | exact ⟨_, rfl⟩ | exact absurd h (by simp [Json.isNum])

theorem text_of_isObj {v : Json} (h : v.isObj = true) : ∃ ms w, v = .obj ms w := by
  cases v <;> first | exact ⟨_, _, rfl⟩ | exact absurd h (by simp [Json.isObj])

/-! ## The lookups -/

variable {ms : List (Member Json)} {key : CStr}

/-- The member the walk stops at is the one the name and the kind select. -/
theorem find_isHit {starts : UInt8 → Bool} {p : Json → Bool} (key : CStr)
    (hkind : ∀ m ∈ ms, m.val.text.head?.any starts = p m.val) :
    (ms.find? (isHit starts key)).map Member.val = rawField? p key.bytes ms := by
  rw [rawField?]
  congr 1
  induction ms with
  | nil => rfl
  | cons m ms ih =>
    rw [List.find?_cons, List.find?_cons, isHit, hkind m List.mem_cons_self,
      ih fun m hm => hkind m (List.mem_cons_of_mem _ hm)]

/-- Where the walk over an object ends, by the member the name and the kind select. -/
theorem jsonFind_field {starts : UInt8 → Bool} {p : Json → Bool} (key : CStr)
    (hkind : ∀ m ∈ ms, m.val.text.head?.any starts = p m.val) (pre w : Ws) (r : Bytes) :
    (rawField? p key.bytes ms = none ∧
        jsonFind starts (objText pre ms w r) key = .ok (.absent !ms.isEmpty)) ∨
      ∃ v s, rawField? p key.bytes ms = some v ∧ p v = true ∧ v.Stops s ∧
        (v.text ++ s).length ≤ (objText pre ms w r).length ∧
        jsonFind starts (objText pre ms w r) key = .ok (.at ⟨v.text ++ s, true⟩) := by
  have hfield := find_isHit key hkind
  cases hfind : ms.find? (isHit starts key) with
  | none =>
    refine .inl ⟨by rw [← hfield, hfind]; rfl, ?_⟩
    cases ms with
    | nil => exact jsonFind_nil starts key pre w r
    | cons m ms => exact jsonFind_none starts key pre _ w r (List.cons_ne_nil _ _) hfind
  | some m =>
    obtain ⟨s, h₁, h₂, h₃⟩ := jsonFind_some starts key pre ms w r hfind
    refine .inr ⟨m.val, s, by rw [← hfield, hfind]; rfl, ?_, h₁, h₂, h₃⟩
    have hhit := List.find?_some hfind
    rw [isHit, Bool.and_eq_true, hkind m (List.mem_of_find?_eq_some hfind)] at hhit
    exact hhit.2

/-- The member that is selected is there, with its key and its kind. -/
theorem member_of_rawField? {p : Json → Bool} {key : Bytes} {v : Json}
    (h : rawField? p key ms = some v) :
    ∃ m ∈ ms, m.key.raw = key ∧ m.val = v ∧ p v = true := by
  obtain ⟨m, hm, rfl⟩ := Option.map_eq_some_iff.1 h
  have hhit := List.find?_some hm
  rw [Bool.and_eq_true, beq_iff_eq] at hhit
  exact ⟨m, List.mem_of_find?_eq_some hm, hhit.1, rfl, hhit.2⟩

variable (ms key)

/-- `json_get_string` on an object, if the allocation for the string succeeds. -/
theorem jsonGetString_obj (pre w : Ws) (r : Bytes) (h : Heap) :
    jsonGetString (objText pre ms w r) key h =
      .ok (match rawField? Json.isStr key.bytes ms with
        | some (.str t) =>
          let (granted, h) := h.request (t.raw.length + 1)
          if granted then (true, some (CStr.at (unescape t.raw ++ [0])), h) else (false, none, h)
        | _ => (!ms.isEmpty, none, h)) := by
  rcases jsonFind_field key (fun m (_ : m ∈ ms) => m.val.isStr_iff_head) pre w r with
    ⟨hf, he⟩ | ⟨v, s, hf, hv, -, -, he⟩
  · simp [jsonGetString, he, hf]
  · obtain ⟨t, rfl⟩ := text_of_isStr hv
    simp only [jsonGetString, he, hf, Run.ok_bind, Json.text, List.append_assoc, List.cons_append,
      List.nil_append, ptrSucc_cons, jpString_closed, Bool.not_true, Bool.false_eq_true, if_false,
      toSize_closed, slice_append, Run.pure_eq]
    cases (h.request (t.raw.length + 1)).1 <;> simp

/-- The part of a token that fits into a buffer of `size` bytes. -/
def clipTok (size : Nat) (t : Bytes) : Bytes := t.take (clip size t.length)

theorem clipTok_of_lt {size : Nat} {t : Bytes} (h : t.length < size) : clipTok size t = t := by
  rw [clipTok, clip, if_neg (by omega), List.take_length]

/-- An integer of 64 bits is read exactly, from a buffer of more than 20 bytes. -/
theorem strtoll_clipTok {size : Nat} (hsize : 20 < size) {t : Bytes} {i : Int}
    (h : intVal? t = some i) (hlo : -2 ^ 63 ≤ i) (hhi : i < 2 ^ 63) :
    (strtoll (clipTok size t)).toInt = i := by
  have hlen := length_le_of_intVal? h hlo hhi
  rw [clipTok_of_lt (by omega), strtoll_of_intVal? h hlo hhi]

theorem clip_le (size n : Nat) : clip size n ≤ n := by
  rw [clip]
  split_ifs <;> omega

theorem slice_clip (size : Nat) (t r : Bytes) :
    slice (t ++ r) (clip size t.length) = .ok (clipTok size t) := by
  have hle := clip_le size t.length
  rw [slice, if_pos (by rw [List.length_append]; omega), List.take_append_of_le_length hle, clipTok]

/-- `json_get_number` on an object. -/
theorem jsonGetNumber_obj (lib : Libc) (pre w : Ws) (r : Bytes) :
    jsonGetNumber lib (objText pre ms w r) key =
      .ok (match rawField? Json.isNum key.bytes ms with
        | some (.num t) => (true, lib.strtod (clipTok 64 t.text), strtoll (clipTok 64 t.text))
        | _ => (!ms.isEmpty, ⟨0⟩, 0)) := by
  rcases jsonFind_field key (fun m (_ : m ∈ ms) => m.val.isNum_iff_head) pre w r with
    ⟨hf, he⟩ | ⟨v, s, hf, hv, hs, -, he⟩
  · simp [jsonGetNumber, he, hf]
  · obtain ⟨t, rfl⟩ := text_of_isNum hv
    simp only [jsonGetNumber, he, hf, Run.ok_bind, Json.text, jpNumber_tok t hs, Bool.not_true,
      Bool.false_eq_true, if_false, toSize_span, slice_clip, Run.pure_eq]

variable {ms} in
/-- `json_get_bool` on a valid object. -/
theorem jsonGetBool_obj (hvalid : ∀ m ∈ ms, m.val.Valid) (pre w : Ws)
    (r : Bytes) : jsonGetBool (objText pre ms w r) key =
      .ok (match rawField? Json.isBool key.bytes ms with
        | some (.lit t) => (true, t.text == ascii "true")
        | _ => (!ms.isEmpty, false)) := by
  rcases jsonFind_field key (fun m hm => Json.isBool_iff_head (hvalid m hm)) pre w r
    with ⟨hf, he⟩ | ⟨v, s, hf, hv, hs, -, he⟩
  · simp [jsonGetBool, he, hf]
  · obtain ⟨t, rfl⟩ := text_of_isBool hv
    simp only [jsonGetBool, he, hf, Run.ok_bind, Json.text, jpLiteral_tok t hs, Bool.not_true,
      Bool.false_eq_true, if_false, toSize_span, spanEq_append, Run.pure_eq]

/-- `json_get_object_raw` on an object. -/
theorem jsonGetObjectRaw_obj (pre w : Ws) (r : Bytes) :
    jsonGetObjectRaw (objText pre ms w r) key =
      .ok (match rawField? Json.isObj key.bytes ms with
        | some v => (true, some v.text)
        | none => (!ms.isEmpty, none)) := by
  rcases jsonFind_field key (fun m (_ : m ∈ ms) => m.val.isObj_iff_head) pre w r with
    ⟨hf, he⟩ | ⟨v, s, hf, hv, hs, hlen, he⟩
  · simp [jsonGetObjectRaw, he, hf]
  · have hwalk := jpValue_text v Ws.none s (fuelFor (objText pre ms w r)) hs
      (by rw [fuelFor]; omega)
    rw [show Ws.none.bytes = [] from rfl, List.nil_append] at hwalk
    simp only [jsonGetObjectRaw, he, hf, Run.ok_bind, hwalk, Bool.not_true, Bool.false_eq_true,
      if_false, toSize_span, slice_append, Run.pure_eq]

end MongrelDB
