import MongrelDB.Lookup.Fields
import MongrelDB.Lookup.Strings
import MongrelDB.Parser.Sound

/-!
# Safety of the lookups

On an arbitrary buffer, each lookup ends without a fault.
-/

namespace MongrelDB

open Ascii

/-! ## Lengths -/

/-- Between two cursors there are as many bytes as one has moved over. -/
theorem span_suffix {p q : Bytes} (h : q <:+ p) :
    ∃ n, toSize (ptrDiff q p) = .ok n ∧ n ≤ p.length := by
  have := h.length_le
  refine ⟨p.length - q.length, ?_, Nat.sub_le _ _⟩
  rw [toSize, if_pos (by unfold ptrDiff; omega)]
  congr 1
  rw [ptrDiff]
  omega

theorem slice_ends {p : Bytes} {n : Nat} (h : n ≤ p.length) : slice p n = .ok (p.take n) := by
  rw [slice, if_pos h]

theorem spanEq_ends {p : Bytes} {n : Nat} (h : n ≤ p.length) (key : Bytes) :
    ∃ b, spanEq p n key = .ok b := by
  rw [spanEq]
  split_ifs
  · exact ⟨_, by rw [slice_ends h]; rfl⟩
  · exact ⟨_, rfl⟩

/-! ## The walk -/

/-- The walk ends at a value with a first character as asked for, or without one. -/
def FoundSpec (starts : UInt8 → Bool) (s : Bytes) : Found → Prop
  | .at j => j.ok = true ∧ j.p <:+ s ∧ j.p.head?.any starts = true
  | .absent _ => True

theorem jsonFindLoop_spec (starts : UInt8 → Bool) (key : CStr) {n : Nat} {j : JsonParser}
    (hok : j.ok = true) (hn : 3 * j.p.length + 1 ≤ n) :
    Ends (jsonFindLoop starts key n j) (FoundSpec starts j.p) := by
  induction n generalizing j with
  | zero => omega
  | succ n ih =>
  rw [jsonFindLoop, jpPeek_skipWs]
  generalize hp : jpPeek j = q
  obtain ⟨ch, j₁⟩ := q
  refine Ends.ite (fun _ => Ends.ok trivial) fun hq => ?_
  obtain ⟨wk, rk, hs, rfl⟩ := jpPeek_some (not_not.1 hq ▸ hp)
  rw [ptrSucc_cons, Run.ok_bind]
  refine Ends.bind (jpString_spec rk j.ok) fun j₂ h₂ => ?_
  cases hok₂ : j₂.ok with
  | false => exact Ends.ok trivial
  | true =>
  rw [if_neg (by decide)]
  obtain ⟨-, k, hk⟩ := h₂.sound hok₂
  obtain rfl : rk = k.raw ++ quote :: j₂.p := (List.cons.inj hk).2
  rw [toSize_closed, Run.ok_bind]
  generalize hp₂ : jpPeek j₂ = q
  obtain ⟨ch₂, j₃⟩ := q
  refine Ends.ite (fun _ => Ends.ok trivial) fun hc => ?_
  obtain ⟨mid, rc, hs₂, rfl⟩ := jpPeek_some (not_not.1 hc ▸ hp₂)
  rw [bump_cons, Run.ok_bind]
  obtain ⟨pre, s, hs₃, hp₃⟩ := jpPeek_spec ⟨rc, j₂.ok⟩
  change rc = _ at hs₃
  rw [hp₃]
  -- The key is compared in place, and the bytes up to its closing quote are there.
  obtain ⟨b, hb⟩ := spanEq_ends (n := k.raw.length) (p := k.raw ++ quote :: j₂.p)
    (by simp) key.bytes
  simp only [hb, Run.ok_bind]
  have hsuf : s <:+ j.p := by
    rw [hs, hs₂, hs₃]
    exact ⟨wk.bytes ++ quote :: (k.raw ++ quote :: (mid.bytes ++ colon :: pre.bytes)), by simp⟩
  refine Ends.ite (fun hhit => Ends.ok ⟨hok₂, hsuf, (Bool.and_eq_true _ _ ▸ hhit).2⟩) fun _ => ?_
  have hlen : s.length + 2 ≤ j.p.length := by
    simp only [hs, hs₂, hs₃, List.length_append, List.length_cons]
    omega
  refine Ends.bind (jpValue_spec (by simp only; omega)) fun j₄ h₄ => ?_
  cases hok₄ : j₄.ok with
  | false => exact Ends.ok trivial
  | true =>
  rw [if_neg (by decide)]
  -- A value takes at least one byte, so the induction goes on with less.
  have hlt := (h₄.sound hok₄).2.length_lt
  change _ < s.length at hlt
  refine Ends.ite (fun hc => ?_) fun _ => Ends.ok trivial
  obtain ⟨w, r, hs₅, hj⟩ := jpPeek_fst hc
  rw [hj, bump_cons, Run.ok_bind]
  have hr : r <:+ j₄.p := (List.suffix_cons _ _).trans (hs₅ ▸ List.suffix_append _ _)
  refine (ih (j := ⟨r, j₄.ok⟩) hok₄ (by simp only; have := hr.length_le; omega)).mono fun f hf => ?_
  cases f with
  | absent => trivial
  | «at» j' => exact ⟨hf.1, hf.2.1.trans (hr.trans (h₄.suffix.trans hsuf)), hf.2.2⟩

theorem jsonFind_spec (starts : UInt8 → Bool) (src : Bytes) (key : CStr) :
    Ends (jsonFind starts src key) (FoundSpec starts src) := by
  rw [jsonFind]
  generalize hp : jpPeek (jpParseValue src) = q
  obtain ⟨ch, j₁⟩ := q
  refine Ends.ite (fun _ => Ends.ok trivial) fun hc => ?_
  obtain ⟨w, r, hs, rfl⟩ := jpPeek_some (not_not.1 hc ▸ hp)
  have hr : r <:+ src := (List.suffix_cons _ _).trans (hs ▸ List.suffix_append _ _)
  rw [bump_cons, Run.ok_bind]
  simp only [jpPeek_skipWs]
  refine Ends.ite (fun _ => Ends.ok trivial) fun _ => ?_
  have hsuf := (jpPeek_suffix ⟨r, (jpParseValue src).ok⟩).trans hr
  refine (jsonFindLoop_spec starts key (jpPeek_ok _) ?_).mono fun f hf => ?_
  · have := hsuf.length_le
    rw [fuelFor]
    omega
  · cases f with
    | absent => trivial
    | «at» j' => exact ⟨hf.1, hf.2.1.trans hsuf, hf.2.2⟩

/-! ## The lookups -/

/-- The value a walk has ended at has a first character. -/
theorem FoundSpec.cons {starts : UInt8 → Bool} {s : Bytes} {j : JsonParser}
    (h : FoundSpec starts s (.at j)) :
    ∃ c r, j = ⟨c :: r, true⟩ ∧ starts c = true ∧ c :: r <:+ s := by
  obtain ⟨p, ok⟩ := j
  obtain ⟨rfl, hsuf, hhead⟩ := h
  cases p with
  | nil => exact absurd hhead (by simp)
  | cons c r => exact ⟨c, r, rfl, by simpa using hhead, hsuf⟩

/-- `json_get_string` finds no string, or one that takes an allocation. -/
theorem jsonGetString_cases (src : Bytes) (key : CStr) :
    (∃ found, ∀ h, jsonGetString src key h = .ok (found, none, h)) ∨
      ∃ n str, str.bytes.length ≤ src.length ∧ ∀ h : Heap, jsonGetString src key h =
        .ok (if (h.request n).1 then (true, some str, (h.request n).2)
          else (false, none, (h.request n).2)) := by
  obtain ⟨f, hfind, hf⟩ := jsonFind_spec (· == quote) src key
  simp only [jsonGetString, hfind, Run.ok_bind]
  cases f with
  | absent r => exact .inl ⟨r, fun h => rfl⟩
  | «at» j =>
  obtain ⟨c, r, rfl, hc, hsuf⟩ := hf.cons
  obtain rfl : c = quote := by simpa using hc
  obtain ⟨j₂, hj₂, h₂⟩ := jpString_spec r true
  simp only [ptrSucc_cons, Run.ok_bind, hj₂]
  cases hok : j₂.ok with
  | false => exact .inl ⟨false, fun h => rfl⟩
  | true =>
  obtain ⟨-, t, ht⟩ := h₂.sound hok
  obtain rfl : r = t.raw ++ quote :: j₂.p := (List.cons.inj ht).2
  refine .inr ⟨t.raw.length + 1, CStr.at (unescape t.raw ++ [0]), ?_, fun h => ?_⟩
  · have hprefix := (CStr.at_terminated_prefix (unescape t.raw)).length_le
    have hunescape := unescape_length_le t.raw
    have hlen := hsuf.length_le
    simp only [List.length_cons, List.length_append] at hlen
    omega
  · simp only [Bool.not_true, Bool.false_eq_true, if_false, toSize_closed, Run.ok_bind,
      slice_append, Run.pure_eq]
    cases (h.request (t.raw.length + 1)).1 <;> rfl

/-- What `json_get_string` returns, and the length of the string if there is one. -/
theorem jsonGetString_ok (src : Bytes) (key : CStr) (h : Heap) :
    ∃ found str h', jsonGetString src key h = .ok (found, str, h') ∧
      ∀ t ∈ str, t.bytes.length ≤ src.length := by
  rcases jsonGetString_cases src key with ⟨found, hget⟩ | ⟨n, t, hlen, hget⟩
  · exact ⟨found, none, h, hget h, fun _ ht => by cases ht⟩
  · rw [hget]
    cases (h.request n).1 with
    | false => exact ⟨_, _, _, rfl, fun _ ht => by cases ht⟩
    | true => exact ⟨_, _, _, rfl, fun _ ht => Option.some.inj ht ▸ hlen⟩

theorem jsonGetString_ends (src : Bytes) (key : CStr) (h : Heap) :
    Ends (jsonGetString src key h) fun r => r.2.2.grants = h.grants := by
  rcases jsonGetString_cases src key with ⟨found, hget⟩ | ⟨n, str, -, hget⟩
  · exact ⟨_, hget h, rfl⟩
  · refine ⟨_, hget h, ?_⟩
    cases (h.request n).1 <;> rfl

/-- What `json_get_string` makes of a buffer, if the allocation for the string succeeds. -/
theorem jsonGetString_granted (src : Bytes) (key : CStr) :
    ∃ found str, (∀ t ∈ str, t.bytes.length ≤ src.length) ∧ ∀ h : Heap, h.Succeeds →
      ∃ h', jsonGetString src key h = .ok (found, str, h') := by
  rcases jsonGetString_cases src key with ⟨found, hget⟩ | ⟨n, str, hlen, hget⟩
  · exact ⟨found, none, (fun _ ht => by cases ht), fun h _ => ⟨h, hget h⟩⟩
  · refine ⟨true, some str, fun _ ht => Option.some.inj ht ▸ hlen,
      fun h hs => ⟨(h.request n).2, ?_⟩⟩
    rw [hget, Heap.request_of_succeeds hs]
    rfl

theorem jsonGetNumber_ends (lib : Libc) (src : Bytes) (key : CStr) :
    Ends (jsonGetNumber lib src key) fun _ => True := by
  refine Ends.bind (jsonFind_spec _ src key) fun f hf => ?_
  cases f with
  | absent => exact Ends.ok trivial
  | «at» j =>
  simp only
  refine Ends.ite (fun _ => Ends.ok trivial) fun _ => ?_
  obtain ⟨n, hn, hle⟩ := span_suffix (p := j.p) (q := (jpNumber j).p) (List.dropWhile_suffix _)
  rw [hn, Run.ok_bind, slice_ends ((clip_le 64 n).trans hle), Run.ok_bind]
  exact Ends.ok trivial

theorem jsonGetBool_ends (src : Bytes) (key : CStr) :
    Ends (jsonGetBool src key) fun _ => True := by
  refine Ends.bind (jsonFind_spec _ src key) fun f hf => ?_
  cases f with
  | absent => exact Ends.ok trivial
  | «at» j =>
  simp only
  refine Ends.ite (fun _ => Ends.ok trivial) fun _ => ?_
  obtain ⟨n, hn, hle⟩ := span_suffix (p := j.p) (q := (jpLiteral j).p) (List.dropWhile_suffix _)
  obtain ⟨b, hb⟩ := spanEq_ends hle (ascii "true")
  rw [hn, Run.ok_bind, hb, Run.ok_bind]
  exact Ends.ok trivial

/-- The object that is found is a part of the buffer. -/
theorem jsonGetObjectRaw_short (src : Bytes) (key : CStr) :
    Ends (jsonGetObjectRaw src key) fun r => ∀ t ∈ r.2, t.length ≤ src.length := by
  have hnone : ∀ found : Bool, ∀ t ∈ (found, (none : Option Bytes)).2, t.length ≤ src.length :=
    fun _ t ht => by cases ht
  refine Ends.bind (jsonFind_spec _ src key) fun f hf => ?_
  cases f with
  | absent => exact Ends.ok (hnone _)
  | «at» j =>
  have hlen := hf.2.1.length_le
  refine Ends.bind (jpValue_spec (by unfold fuelFor; omega)) fun j₂ h₂ => ?_
  refine Ends.ite (fun _ => Ends.ok (hnone _)) fun _ => ?_
  obtain ⟨n, hn, hle⟩ := span_suffix h₂.suffix
  rw [hn, Run.ok_bind, slice_ends hle, Run.ok_bind]
  refine Ends.ok fun t ht => ?_
  obtain rfl := Option.some.inj ht
  exact (List.length_take_le' _ _).trans hlen

theorem jsonGetObjectRaw_ends (src : Bytes) (key : CStr) :
    Ends (jsonGetObjectRaw src key) fun _ => True :=
  (jsonGetObjectRaw_short src key).mono fun _ _ => trivial

end MongrelDB
