import MongrelDB.Path

/-!
# The encoder of names

A name is read back from the text the encoder makes of it, so that two names have two
texts, and an operation has two paths for them (`urlPathEncode_faithful`).
-/

namespace MongrelDB

open Ascii

/-- The characters that are to stand for themselves: letters, digits, and these. -/
def isKept (c : UInt8) : Bool :=
  (65 ≤ c && c ≤ 90) || (97 ≤ c && c ≤ 122) || isDigit c || c ∈ ascii "-_.~/"

theorem isEscaped_encodeChar : ∀ c, isEscaped isKept (encodeChar c) = true :=
  forall_byte (by decide)

theorem isEscaped_urlPathEncode (name : CStr) :
    isEscaped isKept (urlPathEncode name).flatten = true := by
  rw [urlPathEncode]
  induction name.bytes with
  | nil => rfl
  | cons c s ih =>
    rw [List.map_cons, List.flatten_cons]
    exact isEscaped_append (isEscaped_encodeChar c) ih

/-- Two names have two texts. -/
theorem urlPathEncode_inj {a b : CStr} :
    (urlPathEncode a).flatten = (urlPathEncode b).flatten ↔ a = b := by
  refine ⟨fun h => CStr.ext (Option.some.inj ?_), fun h => h ▸ rfl⟩
  rw [← percentDecode_urlPathEncode a, h, percentDecode_urlPathEncode]

namespace PathOp

/-- What is around the name in a path is the same for all names. -/
theorem flatten_appends_inj (op : PathOp) {a b : CStr} :
    (op.appends a).flatten = (op.appends b).flatten ↔ a = b := by
  rw [appends_eq, appends_eq, List.flatten_cons, List.flatten_cons, List.flatten_append,
    List.flatten_append, List.append_cancel_left_eq, List.append_cancel_right_eq, urlPathEncode_inj]

theorem fullPath_inj (op : PathOp) {a b : CStr} : op.fullPath a = op.fullPath b ↔ a = b :=
  ⟨fun h => op.flatten_appends_inj.1 (congrArg CStr.bytes h), fun h => h ▸ rfl⟩

/-- Paths that are not cut are the same only for the same name. -/
theorem path_inj (op : PathOp) {a b : CStr} {H H' : Heap} (ha : AppendsFit H (op.appends a))
    (hb : AppendsFit H' (op.appends b)) : op.path a H = op.path b H' ↔ a = b := by
  rw [path, path, ha.data, hb.data, op.flatten_appends_inj]

end PathOp

/-- The text for a name has no other characters than those of a path, and escapes; it is
    decoded to the name; so another name has another text, and in every operation another
    path, whatever allocations are made for it, unless one of the paths is cut. -/
theorem urlPathEncode_faithful (s t : CStr) (op : PathOp) :
    isEscaped isKept (urlPathEncode s).flatten = true ∧
      percentDecode (urlPathEncode s).flatten = some s.bytes ∧
      ((urlPathEncode s).flatten = (urlPathEncode t).flatten ↔ s = t) ∧
      (op.fullPath s = op.fullPath t ↔ s = t) ∧
      ∀ H H', AppendsFit H (op.appends s) → AppendsFit H' (op.appends t) →
        (op.path s H = op.path t H' ↔ s = t) :=
  ⟨isEscaped_urlPathEncode s, percentDecode_urlPathEncode s, urlPathEncode_inj, op.fullPath_inj,
    fun _ _ => op.path_inj⟩

end MongrelDB
