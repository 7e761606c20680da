import MongrelDB.Lib.Bracket
import MongrelDB.Lookup.Safety

/-!
# Objects inside objects

`json_get_object_raw` hands out a span of the buffer, into which the client then
looks as into a document of its own. The span ends with the bracket that matches
its first one, the parser walks over all of it, and a lookup in it does not
depend on what follows it in the buffer (`jsonGetObjectRaw_local`): it is the
lookup at that position of the buffer.
-/

namespace MongrelDB

open Ascii

/-- A lookup of a boolean in an object does not depend on what follows it. -/
theorem jsonGetBool_local (ms : List (Member Json)) (w : Ws) (r : Bytes) (key : CStr) :
    jsonGetBool (objText Ws.none ms w r) key = jsonGetBool (objText Ws.none ms w []) key := by
  have hfield := fun r => @jsonFind_field ms (fun c => c == lowerT || c == lowerF)
    (fun v => v.text.head?.any fun c => c == lowerT || c == lowerF) key
    (fun _ _ => rfl) Ws.none w r
  rcases hfield r with ⟨hf, he⟩ | ⟨v, s, hf, hv, hs, -, he⟩
  · rcases hfield [] with ⟨-, he'⟩ | ⟨_, _, hf', -⟩
    · simp only [jsonGetBool, he, he', Run.ok_bind]
    · exact absurd (hf.symm.trans hf') (by simp)
  · rcases hfield [] with ⟨hf', -⟩ | ⟨v', s', hf', -, hs', -, he'⟩
    · exact absurd (hf.symm.trans hf') (by simp)
    · obtain rfl := Option.some.inj (hf.symm.trans hf')
      -- The value begins with `t` or `f`: it is a literal, which ends where `v` does.
      have hlit : ∃ t, v = .lit t := by
        cases v with
        | lit t => exact ⟨t, rfl⟩
        | num t =>
          obtain ⟨c, s, ht, hc⟩ := Json.num_head t
          simp only [Json.text, ht, List.head?_cons, Option.any_some,
            (startsNumber_kinds c hc).2.2] at hv
          exact absurd hv Bool.false_ne_true
        | str t => exact absurd hv (by simp +decide [Json.text])
        | arr es w => exact absurd hv (by simp +decide [Json.text])
        | obj ms w => exact absurd hv (by simp +decide [Json.text])
      obtain ⟨t, rfl⟩ := hlit
      simp only [jsonGetBool, he, he', Run.ok_bind, Json.text, jpLiteral_tok t hs,
        jpLiteral_tok t hs', Bool.not_true, Bool.false_eq_true, if_false, toSize_span,
        spanEq_append]

/-- Where `json_get_object_raw` finds an object, an object stands, and the span is its text. -/
theorem jsonGetObjectRaw_span {src span : Bytes} {key : CStr} {found : Bool}
    (hget : jsonGetObjectRaw src key = .ok (found, some span)) :
    ∃ ms w post, span = (Json.obj ms w).text ∧ span ++ post <:+ src ∧
      jsonFind (· == lbrace) src key = .ok (.at ⟨span ++ post, true⟩) := by
  obtain ⟨f, hfind, hf⟩ := jsonFind_spec (· == lbrace) src key
  simp only [jsonGetObjectRaw, hfind, Run.ok_bind] at hget
  cases f with
  | absent b => simp at hget
  | «at» j =>
    have hlen := hf.2.1.length_le
    obtain ⟨c, r, rfl, hc, hsuf⟩ := hf.cons
    obtain rfl : c = lbrace := by simpa using hc
    obtain ⟨j₂, hval, h₂⟩ := jpValue_spec (n := fuelFor src) (j := ⟨lbrace :: r, true⟩)
      (by unfold fuelFor; omega)
    simp only [hval, Run.ok_bind] at hget
    cases hok : j₂.ok with
    | false => simp [hok] at hget
    | true =>
      obtain ⟨-, w, v, hs, -⟩ := h₂.sound hok
      change lbrace :: r = w.bytes ++ (v.text ++ j₂.p) at hs
      -- No whitespace before the bracket, and only an object begins with one.
      have hw : w.bytes = [] := by
        obtain ⟨_ | ⟨d, w⟩, hw⟩ := w
        · rfl
        · rw [List.all_cons, Bool.and_eq_true] at hw
          rw [List.cons_append] at hs
          exact absurd ((List.cons.inj hs).1 ▸ hw.1) (by decide)
      rw [hw, List.nil_append] at hs
      have hhead : v.text.head?.any (· == lbrace) = true := by
        obtain ⟨d, s, ht, -⟩ := v.text_starts
        rw [ht, List.cons_append] at hs
        rw [ht, ← (List.cons.inj hs).1]
        rfl
      obtain ⟨ms, w', rfl⟩ := text_of_isObj (v.isObj_iff_head.symm.trans hhead)
      simp only [hok, Bool.not_true, Bool.false_eq_true, if_false, hs, toSize_span, Run.ok_bind,
        slice_append, Run.pure_eq, Except.ok.injEq, Prod.mk.injEq, Option.some.injEq] at hget
      obtain ⟨-, rfl⟩ := hget
      exact ⟨ms, w', j₂.p, rfl, hs ▸ hsuf, by rw [hfind, hs]⟩

/-- Where `json_get_object_raw` finds an object, the span it hands out stands in
    the buffer, from a `{` to the `}` that matches it, and is a document of its
    own: `jp_value` walks over all of it, and each lookup in it returns what it
    returns at that position of the buffer. -/
theorem jsonGetObjectRaw_local {src span : Bytes} {key : CStr} {found : Bool}
    (hget : jsonGetObjectRaw src key = .ok (found, some span)) :
    ∃ pre post, src = pre ++ (span ++ post) ∧
      jsonFind (· == lbrace) src key = .ok (.at ⟨span ++ post, true⟩) ∧
      span.head? = some lbrace ∧ span.getLast? = some rbrace ∧
      behindClosing .plain [] (span ++ post) = some post ∧
      jpValue (fuelFor span) (jpParseValue span) = .ok ⟨[], true⟩ ∧
      ∀ key', (∀ h, jsonGetString span key' h = jsonGetString (span ++ post) key' h) ∧
        (∀ lib, jsonGetNumber lib span key' = jsonGetNumber lib (span ++ post) key') ∧
        jsonGetBool span key' = jsonGetBool (span ++ post) key' ∧
        jsonGetObjectRaw span key' = jsonGetObjectRaw (span ++ post) key' := by
  obtain ⟨ms, w, post, rfl, ⟨pre, hsrc⟩, hfind⟩ := jsonGetObjectRaw_span hget
  have hlast : (Json.obj ms w).text = (lbrace :: (membersText ms ++ w.bytes)) ++ [rbrace] := by
    simp [Json.text]
  refine ⟨pre, post, hsrc.symm, hfind, by simp [Json.text],
    by rw [hlast, List.getLast?_concat], behindClosing_obj post ms w, ?_, fun key' => ?_⟩
  · have hwalk := jpValue_text (.obj ms w) Ws.none [] (fuelFor (Json.obj ms w).text) trivial
      (by simp only [List.append_nil, fuelFor]; omega)
    rwa [show Ws.none.bytes = [] from rfl, List.nil_append, List.append_nil] at hwalk
  -- What a lookup returns depends on the members, not on what follows the object.
  · have hobj : ∀ r, (Json.obj ms w).text ++ r = objText Ws.none ms w r := fun _ => rfl
    have hspan : (Json.obj ms w).text = objText Ws.none ms w [] :=
      (List.append_nil _).symm.trans (hobj [])
    rw [hobj, hspan]
    exact ⟨fun h => by rw [jsonGetString_obj, jsonGetString_obj],
      fun lib => by rw [jsonGetNumber_obj, jsonGetNumber_obj],
      (jsonGetBool_local ms w post key').symm,
      by rw [jsonGetObjectRaw_obj, jsonGetObjectRaw_obj]⟩

/-- The object under `a` of an object with more behind it. -/
theorem jsonGetObjectRaw_local_inner :
    jsonGetObjectRaw (ascii "\x7b\"a\":\x7b\"b\":\"\x7d\"\x7d,\"c\":1\x7d") (CStr.lit "a") =
        .ok (true, some (ascii "\x7b\"b\":\"\x7d\"\x7d")) ∧
      behindClosing .plain [] (ascii "\x7b\"b\":\"\x7d\"\x7d" ++ ascii ",\"c\":1\x7d") =
        some (ascii ",\"c\":1\x7d") := by
  have hget : jsonGetObjectRaw (ascii "\x7b\"a\":\x7b\"b\":\"\x7d\"\x7d,\"c\":1\x7d")
      (CStr.lit "a") = .ok (true, some (ascii "\x7b\"b\":\"\x7d\"\x7d")) := by decide +kernel
  obtain ⟨pre, post, hsrc, hfind, -, -, hclosing, -⟩ := jsonGetObjectRaw_local hget
  refine ⟨hget, ?_⟩
  have hpost : jsonFind (· == lbrace)
      (ascii "\x7b\"a\":\x7b\"b\":\"\x7d\"\x7d,\"c\":1\x7d") (CStr.lit "a") =
      .ok (.at ⟨ascii "\x7b\"b\":\"\x7d\"\x7d" ++ ascii ",\"c\":1\x7d", true⟩) := by decide +kernel
  have hrest := hfind.symm.trans hpost
  simp only [Except.ok.injEq, Found.at.injEq, JsonParser.mk.injEq, and_true,
    List.append_cancel_left_eq] at hrest
  rwa [hrest] at hclosing

end MongrelDB
