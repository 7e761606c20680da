import MongrelDB.Lookup.Fields
import MongrelDB.Lookup.Strings

/-!
# Presence

What a lookup promises (`Reports`): it returns 1 if and only if the object has a
member of that name and kind, and then delivers the value of the first one.

The lookups keep the promise on the empty object, and on an object that has such
a member, as far as they can read its value (`lookups_report_iff`). On every
other object they return 1 with the default for a value: the loops leave with
`ch == '}'`.
-/

namespace MongrelDB

open Ascii

/-- What a string stands for, in UTF-8. -/
def Json.strVal? : Json → Option Bytes
  | .str t => utf8Val? t.raw
  | _ => none

/-- A lookup that returns `found` for the key `key` and the kind `p` reports the
    members `ms`: it finds one exactly if there is one, and delivers the first. -/
structure Reports (p : Json → Bool) (key : CStr) (ms : List (Member Json)) (found : Bool)
    (Delivers : Json → Prop) : Prop where
  found_iff : found = true ↔ HasMember p key.bytes ms
  delivers : ∀ v, field? p key.bytes ms = some v → Delivers v

variable {p : Json → Bool} {key : CStr} {ms : List (Member Json)} {D : Json → Prop}

/-- A lookup that finds a member reports it if it delivers its value. -/
theorem reports_some {v : Json} (hv : field? p key.bytes ms = some v) :
    Reports p key ms true D ↔ D v := by
  refine ⟨fun h => h.delivers v hv, fun h => ⟨?_, fun v' hv' => ?_⟩⟩
  · exact iff_of_true rfl (field?_isSome_iff.1 (by rw [hv, Option.isSome_some]))
  · exact Option.some.inj (hv.symm.trans hv') ▸ h

/-- A lookup that finds no member where there is one does not report it. -/
theorem not_reports_of_some {v : Json} (hv : field? p key.bytes ms = some v) :
    ¬Reports p key ms false D := fun h =>
  absurd (h.found_iff.2 (field?_isSome_iff.1 (by rw [hv, Option.isSome_some]))) (by decide)

/-- Without a member to find, a lookup has to return 0. -/
theorem reports_none (hv : field? p key.bytes ms = none) (found : Bool) :
    Reports p key ms found D ↔ found = false := by
  refine ⟨fun h => ?_, fun h => ⟨?_, fun v hv' => absurd (hv.symm.trans hv') (by simp)⟩⟩
  · exact Bool.eq_false_iff.2 fun hf => field?_eq_none_iff.1 hv (h.found_iff.1 hf)
  · rw [h]
    exact iff_of_false (by decide) (field?_eq_none_iff.1 hv)

/-! ## The four lookups -/

section

variable {src : Bytes} {w : Ws}

/-- `json_get_string` reports the strings of an object. -/
def ReportsString (src : Bytes) (key : CStr) (ms : List (Member Json)) (h : Heap) : Prop :=
  ∃ found out h', jsonGetString src key h = .ok (found, out, h') ∧
    Reports Json.isStr key ms found fun v => ∃ s, out = some s ∧ v.strVal? = some s.bytes

/-- `json_get_number` reports the numbers of an object: the double, and the
    integers of 64 bits. -/
def ReportsNumber (lib : Libc) (src : Bytes) (key : CStr) (ms : List (Member Json)) : Prop :=
  ∃ found d n, jsonGetNumber lib src key = .ok (found, d, n) ∧
    Reports Json.isNum key ms found fun v => d = lib.strtod v.text ∧
      ∀ i, v.datum? = some (.int i) → -2 ^ 63 ≤ i → i < 2 ^ 63 → n.toInt = i

/-- `json_get_bool` reports the booleans of an object. -/
def ReportsBool (src : Bytes) (key : CStr) (ms : List (Member Json)) : Prop :=
  ∃ found b, jsonGetBool src key = .ok (found, b) ∧
    Reports Json.isBool key ms found fun v => v.datum? = some (.bool b)

/-- `json_get_object_raw` reports the objects in an object. -/
def ReportsObject (src : Bytes) (key : CStr) (ms : List (Member Json)) : Prop :=
  ∃ found out, jsonGetObjectRaw src key = .ok (found, out) ∧
    Reports Json.isObj key ms found fun v => out = some v.text

theorem reportsString_iff (hsrc : TextOf (.obj ms w) src) (hplain : PlainKeys ms) (h : Heap) :
    ReportsString src key ms h ↔ ms = [] ∨ ∃ t, field? Json.isStr key.bytes ms = some (.str t) ∧
      (strVal? t.raw).isSome ∧ h.grants h.asked.length = true := by
  obtain ⟨hvalid, pre, post, rfl⟩ := hsrc
  have hget := jsonGetString_obj ms key pre w post.bytes h
  rw [objText, ← field?_of_plain hplain] at hget
  cases hf : field? Json.isStr key.bytes ms with
  | none =>
    rw [hf] at hget
    simp [ReportsString, hget, reports_none hf]
  | some v =>
    obtain ⟨t, rfl⟩ : ∃ t, v = .str t := by
      have := kind_of_field? hf
      cases v <;> first | exact ⟨_, rfl⟩ | exact absurd this (by simp [Json.isStr])
    have hne : ms ≠ [] := by rintro rfl; simp [field?] at hf
    have hbody : isStringBody t.raw = true := by
      cases valid_of_field? (by cases hvalid; assumption) hf with
      | str h => exact h
    simp only [hf, Heap.request] at hget
    cases hg : h.grants h.asked.length with
    | false => simp [ReportsString, hget, hg, not_reports_of_some hf, hne]
    | true =>
      simp [ReportsString, hget, hg, reports_some hf, hne, Json.strVal?,
        unescape_delivers_iff hbody]

theorem reportsNumber_iff (lib : Libc) (hsrc : TextOf (.obj ms w) src) (hplain : PlainKeys ms) :
    ReportsNumber lib src key ms ↔ ms = [] ∨ ∃ t, field? Json.isNum key.bytes ms = some (.num t) ∧
      lib.strtod (clipTok 64 t.text) = lib.strtod t.text := by
  obtain ⟨-, pre, post, rfl⟩ := hsrc
  have hget := jsonGetNumber_obj ms key lib pre w post.bytes
  rw [objText, ← field?_of_plain hplain] at hget
  cases hf : field? Json.isNum key.bytes ms with
  | none =>
    rw [hf] at hget
    simp [ReportsNumber, hget, reports_none hf]
  | some v =>
    obtain ⟨t, rfl⟩ : ∃ t, v = .num t := by
      have := kind_of_field? hf
      cases v <;> first | exact ⟨_, rfl⟩ | exact absurd this (by simp [Json.isNum])
    have hne : ms ≠ [] := by rintro rfl; simp [field?] at hf
    -- An int64 has at most 20 characters, and the 64 of the token are enough for it.
    have hint : ∀ i, (Json.num t).datum? = some (.int i) → -2 ^ 63 ≤ i → i < 2 ^ 63 →
        (strtoll (clipTok 64 t.text)).toInt = i := fun i hi => by
      refine strtoll_clipTok (by decide) ?_
      rw [Json.datum?] at hi
      split at hi <;> simp_all
    simp only [hf] at hget
    simp only [ReportsNumber, hget, Except.ok.injEq, Prod.mk.injEq, hne, false_or,
      Option.some.injEq, Json.num.injEq]
    constructor
    · rintro ⟨_, _, _, ⟨rfl, rfl, rfl⟩, hrep⟩
      exact ⟨t, rfl, ((reports_some hf).1 hrep).1.trans (by rw [Json.text])⟩
    · rintro ⟨_, rfl, heq⟩
      exact ⟨_, _, _, ⟨rfl, rfl, rfl⟩, (reports_some hf).2 ⟨by rw [heq, Json.text], hint⟩⟩

theorem reportsBool_iff (hsrc : TextOf (.obj ms w) src) (hplain : PlainKeys ms) :
    ReportsBool src key ms ↔ ms = [] ∨ HasMember Json.isBool key.bytes ms := by
  obtain ⟨hvalid, pre, post, rfl⟩ := hsrc
  have hget := jsonGetBool_obj key (by cases hvalid; assumption) pre w post.bytes
  rw [objText, ← field?_of_plain hplain] at hget
  rw [← field?_isSome_iff]
  cases hf : field? Json.isBool key.bytes ms with
  | none =>
    rw [hf] at hget
    simp [ReportsBool, hget, reports_none hf]
  | some v =>
    have hkind := kind_of_field? hf
    obtain ⟨t, rfl⟩ : ∃ t, v = .lit t := by
      cases v <;> first | exact ⟨_, rfl⟩ | exact absurd hkind (by simp [Json.isBool])
    have hvalue : (Json.lit t).datum? = some (.bool (t.text == ascii "true")) := by
      rw [Json.isBool, Bool.or_eq_true, beq_iff_eq, beq_iff_eq] at hkind
      rcases hkind with h | h <;> rw [Json.datum?, h] <;> decide
    simp only [hf] at hget
    simp [ReportsBool, hget, reports_some hf, hvalue, em']

theorem reportsObject_iff (hsrc : TextOf (.obj ms w) src) (hplain : PlainKeys ms) :
    ReportsObject src key ms ↔ ms = [] ∨ HasMember Json.isObj key.bytes ms := by
  obtain ⟨-, pre, post, rfl⟩ := hsrc
  have hget := jsonGetObjectRaw_obj ms key pre w post.bytes
  rw [objText, ← field?_of_plain hplain] at hget
  rw [← field?_isSome_iff]
  cases hf : field? Json.isObj key.bytes ms with
  | none =>
    rw [hf] at hget
    simp [ReportsObject, hget, reports_none hf]
  | some v =>
    simp only [hf] at hget
    simp [ReportsObject, hget, reports_some hf]

/-- When the lookups report the members of an object: if it is empty, or has a
    member to find, the value of which the lookup can read. For a string that
    needs an allocation, and `\u` escapes in the range `0001` to `007f`; for a
    number, that the double does not depend on characters from the 64th on. -/
theorem lookups_report_iff (lib : Libc) (h : Heap) (hsrc : TextOf (.obj ms w) src)
    (hplain : PlainKeys ms) :
    (ReportsString src key ms h ↔
        ms = [] ∨ ∃ t, field? Json.isStr key.bytes ms = some (.str t) ∧ (strVal? t.raw).isSome ∧
          h.grants h.asked.length = true) ∧
      (ReportsNumber lib src key ms ↔
        ms = [] ∨ ∃ t, field? Json.isNum key.bytes ms = some (.num t) ∧
          lib.strtod (clipTok 64 t.text) = lib.strtod t.text) ∧
      (ReportsBool src key ms ↔ ms = [] ∨ HasMember Json.isBool key.bytes ms) ∧
      (ReportsObject src key ms ↔ ms = [] ∨ HasMember Json.isObj key.bytes ms) :=
  ⟨reportsString_iff hsrc hplain h, reportsNumber_iff lib hsrc hplain,
    reportsBool_iff hsrc hplain, reportsObject_iff hsrc hplain⟩

/-- The members of an object with a single member, `a`. -/
def memberA : List (Member Json) :=
  [⟨Ws.none, ⟨ascii "a", by decide⟩, Ws.none, Ws.none, .lit ⟨ascii "true", by decide⟩, Ws.none⟩]

theorem memberA_text : TextOf (.obj memberA Ws.none) (ascii "\x7b\"a\":true\x7d") := by
  refine ⟨.obj ?_ ?_, Ws.none, Ws.none, by decide⟩
  · simp +decide
  · simpa [memberA] using Json.Valid.true rfl

theorem memberA_plain : PlainKeys memberA := by
  simp +decide [PlainKeys]

/-- The lookup of a boolean `a` in an object that has one reports it. -/
theorem lookups_report_member :
    ReportsBool (ascii "\x7b\"a\":true\x7d") (CStr.lit "a") memberA :=
  (lookups_report_iff Libc.zero Heap.unlimited memberA_text memberA_plain).2.2.1.2
    (.inr ⟨_, List.mem_singleton_self _, by decide, by decide⟩)

/-- The lookups of `b` in an object without a member `b` return 1. -/
theorem lookups_report_absent :
    TextOf (.obj memberA Ws.none) (ascii "\x7b\"a\":true\x7d") ∧ PlainKeys memberA ∧
      (∀ p, ¬HasMember p (ascii "b") memberA) ∧
      jsonGetString (ascii "\x7b\"a\":true\x7d") (CStr.lit "b") Heap.unlimited =
        .ok (true, none, Heap.unlimited) ∧
      (∀ lib, jsonGetNumber lib (ascii "\x7b\"a\":true\x7d") (CStr.lit "b") =
        .ok (true, ⟨0⟩, 0)) ∧
      jsonGetBool (ascii "\x7b\"a\":true\x7d") (CStr.lit "b") = .ok (true, false) ∧
      jsonGetObjectRaw (ascii "\x7b\"a\":true\x7d") (CStr.lit "b") = .ok (true, none) := by
  have hsrc : ascii "\x7b\"a\":true\x7d" = objText Ws.none memberA Ws.none [] := by decide
  have hvalid : ∀ m ∈ memberA, m.val.Valid := by simpa [memberA] using Json.Valid.true rfl
  have hnone : ∀ p, ¬HasMember p (ascii "b") memberA := fun p => by
    simp +decide [HasMember, memberA]
  have hfield : ∀ p, rawField? p (CStr.lit "b").bytes memberA = none := fun p => by
    rw [← field?_of_plain memberA_plain]
    exact field?_eq_none_iff.2 (hnone p)
  refine ⟨memberA_text, memberA_plain, hnone, ?_, fun lib => ?_, ?_, ?_⟩
  · rw [hsrc, jsonGetString_obj, hfield]
    rfl
  · rw [hsrc, jsonGetNumber_obj, hfield]
    rfl
  · rw [hsrc, jsonGetBool_obj _ hvalid, hfield]
    rfl
  · rw [hsrc, jsonGetObjectRaw_obj, hfield]
    rfl

end

end MongrelDB
