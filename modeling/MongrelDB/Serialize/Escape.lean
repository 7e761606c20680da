import MongrelDB.Lookup.Strings
import MongrelDB.Page.Value
import MongrelDB.Serialize.Text

/-!
# Strings read back

What `json_escape` writes is a string of JSON without control characters, which
the client itself reads back (`jsonEscape_read`), whatever follows it:
`jp_string` stops right behind the closing quote, and both `json_get_string` and
`parse_scalar_into` unescape it to the bytes it was written from.
-/

namespace MongrelDB

open Ascii

/-- `json_get_string` at a string token returns what it unescapes to, if the
    allocation succeeds. -/
theorem jsonGetString_tok {src : Bytes} {key : CStr} {t : StrTok} {r : Bytes}
    (hfind : jsonFind (· == quote) src key = .ok (.at ⟨(Json.str t).text ++ r, true⟩)) (h : Heap) :
    jsonGetString src key h = .ok (if (h.request (t.raw.length + 1)).1 then
        (true, some (CStr.at (unescape t.raw ++ [0])), (h.request (t.raw.length + 1)).2)
      else (false, none, (h.request (t.raw.length + 1)).2)) := by
  simp only [jsonGetString, hfind, Run.ok_bind, Json.text, List.append_assoc, List.cons_append,
    List.nil_append, ptrSucc_cons, jpString_closed, Bool.not_true, Bool.false_eq_true, if_false,
    toSize_closed, slice_append, Run.pure_eq]
  cases (h.request (t.raw.length + 1)).1 <;> simp

/-- `parse_scalar_into` at a string token keeps what it unescapes to, and a NUL, if
    room is made. -/
theorem parseScalarInto_tok (lib : Libc) (n : Nat) (t : StrTok) (r : Bytes) {blob blob' : Sbuf}
    {h h' : Heap} (hreserve : blob.reserve t.raw.length h = (true, blob', h')) :
    parseScalarInto lib n ⟨(Json.str t).text ++ r, true⟩ blob h =
      .ok ⟨⟨r, true⟩, .str (.early blob.len),
        { blob' with data := blob.data ++ (unescape t.raw ++ [0]) }, blob.len, h'⟩ := by
  have hpeek : jpPeek ⟨(Json.str t).text ++ r, true⟩ =
    (some quote, ⟨(Json.str t).text ++ r, true⟩) := by
    rw [Json.text, List.cons_append, jpPeek_cons not_isWs_quote]
  -- Room is made for the span, and what is unescaped is no longer.
  obtain ⟨cap, rfl, hcap⟩ : ∃ cap, blob' = ⟨blob.data, cap⟩ ∧
    blob.len + t.raw.length + 1 ≤ cap := by
    rcases blob.reserve_cases t.raw.length h with ⟨cap, h₁, he, hcap, -⟩ | ⟨h₁, he, -⟩
    · obtain ⟨rfl, -⟩ : (⟨blob.data, cap⟩ : Sbuf) = blob' ∧ h₁ = h' := by
        simpa using he.symm.trans hreserve
      exact ⟨cap, rfl, hcap⟩
    · exact absurd (he.symm.trans hreserve) (by simp)
  rw [parseScalarInto, hpeek]
  simp only [if_true, Json.text, List.cons_append, List.append_assoc, List.nil_append,
    ptrSucc_cons, Run.ok_bind, jpString_closed, Bool.not_true, Bool.false_eq_true, if_false,
    toSize_closed, slice_append, keepText, hreserve, Sbuf.fill_text (unescape_length_le t.raw) hcap,
    Run.pure_eq]

/-- What `json_escape` writes is a string of JSON, with every control character
    escaped. Whatever follows it, `jp_string` stops behind it, and both
    unescaping loops, on the span between the quotes, give back the string it was
    written from. -/
theorem jsonEscape_read (s : CStr) (r : Bytes) :
    ∃ t : StrTok, (jsonEscape s).flatten = (Json.str t).text ∧ (Json.str t).Valid ∧
      utf8Val? t.raw = some s.bytes ∧ (∀ c ∈ (jsonEscape s).flatten, 32 ≤ c) ∧
      jpString ⟨(jsonEscape s).flatten ++ r, true⟩ = .ok ⟨r, true⟩ ∧
      (∀ src key h,
        jsonFind (· == quote) src key = .ok (.at ⟨(jsonEscape s).flatten ++ r, true⟩) →
        jsonGetString src key h = .ok (if (h.request (t.raw.length + 1)).1 then
            (true, some s, (h.request (t.raw.length + 1)).2)
          else (false, none, (h.request (t.raw.length + 1)).2))) ∧
      ∀ lib n blob blob' h h', blob.reserve t.raw.length h = (true, blob', h') →
        parseScalarInto lib n ⟨(jsonEscape s).flatten ++ r, true⟩ blob h =
          .ok ⟨⟨r, true⟩, .str (.early blob.len),
            { blob' with data := blob.data ++ (s.bytes ++ [0]) }, blob.len, h'⟩ := by
  obtain ⟨hbody, hval⟩ := escape_spec s.noNul
  have hread : unescape (strTok s).raw = s.bytes := unescape_of_strVal? hval
  refine ⟨strTok s, flatten_jsonEscape s, Json.ofStr_valid s, utf8Val?_of_strVal? hval, ?_, ?_,
    fun src key h hfind => ?_, fun lib n blob blob' h h' hreserve => ?_⟩
  · rw [flatten_jsonEscape, Json.text]
    simp only [List.forall_mem_cons, List.forall_mem_append, List.not_mem_nil, false_implies,
      implies_true, and_true]
    exact ⟨by decide, le_of_mem_stringBody hbody, by decide⟩
  · rw [flatten_jsonEscape, Json.text]
    simp only [List.cons_append, List.append_assoc, List.nil_append, jpString_closed]
  · rw [flatten_jsonEscape] at hfind
    rw [jsonGetString_tok hfind, hread, CStr.at_self]
  · rw [flatten_jsonEscape, parseScalarInto_tok lib n _ r hreserve, hread]

/-- A string that ends in a control character, at the end of which stands an escape. -/
theorem jsonEscape_read_control : ∃ h',
    jsonGetString (ascii "\x7b\"k\":\"a\\\\\\u0001\",\"l\":0\x7d") (CStr.lit "k") Heap.unlimited =
      .ok (true, some (CStr.lit "a\\\x01"), h') := by
  obtain ⟨t, -, -, -, -, -, hget, -⟩ := jsonEscape_read (CStr.lit "a\\\x01") (ascii ",\"l\":0\x7d")
  have hfind : jsonFind (· == quote) (ascii "\x7b\"k\":\"a\\\\\\u0001\",\"l\":0\x7d")
    (CStr.lit "k") =
      .ok (.at ⟨(jsonEscape (CStr.lit "a\\\x01")).flatten ++ ascii ",\"l\":0\x7d", true⟩) := by
    decide
  exact ⟨_, hget _ _ Heap.unlimited hfind⟩

end MongrelDB
