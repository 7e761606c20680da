import MongrelDB.Api.Results
import MongrelDB.Page.Body
import MongrelDB.Query.Body

/-!
# Queries that are sent

A query sends a JSON object, or nothing, whatever the server does, exactly if the bounds
that are set are finite (`mongreldbQueryPage_sends_iff`): nothing is looked at before the
request is made.
-/

namespace MongrelDB

open Ascii Prog

variable {lib : Libc} {table : CStr} {conditions : List Condition} {projection : List Int64}
  {limit offset : Int64} {s : Session}

/-! ## Text without NUL -/

theorem zero_notMem_serializeCondition (lib : Libc) (cond : Condition) :
    (0 : UInt8) ∉ (serializeCondition lib cond).flatten := by
  have hbound : ∀ (name : String) (set : Int32) (x : F64), (0 : UInt8) ∉ ascii name →
      (0 : UInt8) ∉ (boundAppends lib name set x).flatten := fun name set x hname => by
    rw [boundAppends]
    split_ifs
    · rw [List.flatten_singleton, snprintf]
      refine fun h => ?_
      rcases List.mem_append.1 (List.mem_of_mem_take h) with h | h
      · exact hname h
      · exact (lib.printG x).noNul h
    · exact List.not_mem_nil
  rw [serializeCondition]
  split_ifs with hgiven
  · simpa using (orEmpty cond.conditionJson).noNul
  · have hlo := hbound ",\"lo\":" cond.loSet cond.lo (by decide)
    have hhi := hbound ",\"hi\":" cond.hiSet cond.hi (by decide)
    cases cond.kind <;> cases cond.strValue <;>
      simp only [columnAppends, List.flatten_append, List.flatten_cons, List.flatten_nil,
        List.append_nil, List.mem_append, not_or, zero_notMem_jsonEscape, zero_notMem_int64Text,
        hlo, hhi, not_false_eq_true, and_true] <;>
      decide

/-- An array of pieces without NUL. -/
theorem zero_notMem_arrayAppends {α : Type} (name : String) (hname : (0 : UInt8) ∉ ascii name)
    {f : α → Appends} (hf : ∀ x, (0 : UInt8) ∉ (f x).flatten) (xs : List α) :
    (0 : UInt8) ∉ (arrayAppends name f xs).flatten := by
  rw [arrayAppends]
  split_ifs
  · exact List.not_mem_nil
  · have hxs : (0 : UInt8) ∉ (separated f xs).flatten := by
      rw [flatten_separated]
      refine zero_notMem_commaSep fun t ht => ?_
      obtain ⟨x, -, rfl⟩ := List.mem_map.1 ht
      exact hf x
    simp only [List.flatten_append, List.flatten_singleton, List.mem_append, not_or]
    exact ⟨⟨hname, hxs⟩, by decide⟩

theorem zero_notMem_queryAppends (lib : Libc) (table : CStr) (conditions : List Condition)
    (projection : List Int64) (limit offset : Int64) :
    (0 : UInt8) ∉ (queryAppends lib table conditions projection limit offset).flatten := by
  have hconditions := zero_notMem_arrayAppends ",\"conditions\":[" (by decide)
    (zero_notMem_serializeCondition lib) conditions
  have hprojection := zero_notMem_arrayAppends ",\"projection\":[" (by decide)
    (f := fun i : Int64 => [int64Text i])
    (fun i => by simpa using zero_notMem_int64Text i) projection
  have hnumber : ∀ (c : Prop) [Decidable c] (name : String) (i : Int64), (0 : UInt8) ∉ ascii name →
      (0 : UInt8) ∉ (if c then [ascii name, int64Text i] else [] : Appends).flatten := by
    intro c _ name i hname
    split_ifs
    · simp only [List.flatten_cons, List.flatten_nil, List.append_nil, List.mem_append, not_or]
      exact ⟨hname, zero_notMem_int64Text i⟩
    · exact List.not_mem_nil
  simp only [queryAppends, List.flatten_append, List.mem_append, not_or]
  exact ⟨⟨⟨⟨⟨⟨by decide, zero_notMem_jsonEscape table⟩, hconditions⟩, hprojection⟩,
    hnumber _ _ _ (by decide)⟩, hnumber _ _ _ (by decide)⟩, by decide⟩

/-! ## The query -/

/-- The decoding of a response makes no request. -/
theorem takePage_spec (lib : Libc) :
    wp (takePage lib) (fun _ s' => s'.curl = s.curl)
      (fun rc s' => rc ≠ .ok ∧ s'.curl = s.curl) s := by
  obtain ⟨rc, st, hpage, -⟩ := decodePage_ends lib s.c.recv.data s.c.scratch s.heaps.decode
  exact wp_mono (takePage_decoded hpage) (fun _ _ h => h.2.2.curl)
    fun _ _ h => ⟨h.2.1 ▸ h.1, h.2.2.curl⟩

/-- From `s` to `s'`, one request is made, and its body is a JSON object. -/
def Session.SendsObject (s s' : Session) : Prop :=
  ∃ req text, s'.curl.sent = req :: s.curl.sent ∧ req.body = some text ∧ IsObjectText text.bytes

/-- A query sends a JSON object, or returns an error without having sent anything. -/
def QuerySafe (lib : Libc) (table : CStr) (conditions : List Condition) (projection : List Int64)
    (limit offset : Int64) (s : Session) : Prop :=
  wp (mongreldbQueryPage lib (some table) conditions projection limit offset true)
    (fun _ s' => s.SendsObject s')
    (fun rc s' => rc ≠ .ok ∧ (s.SendsObject s' ∨ s'.curl.sent = s.curl.sent)) s

/-- A query whose body is an object. -/
theorem querySafe_of_object
    (hfit : AppendsFit s.heaps.body (queryAppends lib table conditions projection limit offset))
    (hobject : IsObjectText (queryAppends lib table conditions projection limit offset).flatten) :
    QuerySafe lib table conditions projection limit offset s := by
  have hnul := zero_notMem_queryAppends lib table conditions projection limit offset
  refine wp_step (bodyAppends_spec _) fun text s₁ hmade => ?_
  obtain ⟨htext, hs₁⟩ := hmade
  rw [Sbuf.cstr?_appendAll hfit (by simp [queryAppends]) hnul] at htext
  have hcurl : s₁.curl.sent = s.curl.sent := by rw [hs₁]
  have hsent : ∀ {s' : Session} {m : CStr}, s₁.Made s' m text → s.SendsObject s' := by
    rintro s' m ⟨req, -, hbody, hs'⟩
    exact ⟨req, _, hcurl ▸ hs', hbody.trans htext, hobject⟩
  refine wp_seq (wp_mono (doRequest_ends _ _ _) (fun _ _ h => h) fun rc s' h =>
    ⟨h.1, h.2.2.2.symm.imp hsent fun h => h.trans hcurl⟩) fun _ s₂ hmade => ?_
  obtain ⟨req, text', hreq, hrest⟩ := hsent hmade.2.2.2
  exact wp_mono (takePage_spec lib) (fun _ s' hs' => ⟨req, text', hs' ▸ hreq, hrest⟩)
    fun rc s' h => ⟨h.1, .inl ⟨req, text', h.2 ▸ hreq, hrest⟩⟩

/-- A query whose body is not JSON is sent nevertheless. -/
theorem not_querySafe
    (hfit : AppendsFit s.heaps.body (queryAppends lib table conditions projection limit offset))
    (hbad : ¬IsJsonText (queryAppends lib table conditions projection limit offset).flatten)
    (hs : s.Ready (.lit "/kit/query")) :
    ¬QuerySafe lib table conditions projection limit offset s := fun hsafe => by
  have hnul := zero_notMem_queryAppends lib table conditions projection limit offset
  -- The body goes out as it was built, whatever the server answers.
  have hsends : wp (mongreldbQueryPage lib (some table) conditions projection limit offset true)
      (fun _ s' => s.Sends s' (.lit "POST") (.lit "/kit/query") (some ⟨_, hnul⟩))
      (fun _ s' => s.Sends s' (.lit "POST") (.lit "/kit/query") (some ⟨_, hnul⟩)) s := by
    refine wp_step (bodyAppends_spec _) fun text s₁ hmade => ?_
    obtain ⟨htext, hs₁⟩ := hmade
    rw [Sbuf.cstr?_appendAll hfit (by simp [queryAppends]) hnul] at htext
    subst htext hs₁
    refine wp_seq (wp_mono (doRequest_ready (hs.withBody _) _ _) (fun _ _ h => h.sent)
      fun _ _ h => h.2.sent) fun _ s₂ hsends => ?_
    obtain ⟨headers, userpwd, hsent⟩ := hsends
    exact wp_mono (takePage_spec lib) (fun _ s' hs' => ⟨headers, userpwd, by rw [hs', hsent]⟩)
      fun _ s' h => ⟨headers, userpwd, by rw [h.2, hsent]⟩
  have hobject : ∀ {s' : Session}, s.Sends s' (.lit "POST") (.lit "/kit/query") (some ⟨_, hnul⟩) →
      ¬s.SendsObject s' := by
    rintro s' ⟨headers, userpwd, hsent⟩ ⟨req, text, hreq, hbody, htext⟩
    obtain rfl := (List.cons.inj (hsent.symm.trans hreq)).1
    obtain rfl := Option.some.inj hbody
    exact hbad htext.isJsonText
  refine not_wp_false (wp_mono (wp_and hsends hsafe) (fun _ _ h => hobject h.1 h.2)
    fun rc s' h => h.2.2.elim (hobject h.1) fun hsame => ?_)
  obtain ⟨headers, userpwd, hreq⟩ := h.1
  -- A request was sent, so the log is not what it was.
  exact List.cons_ne_self _ _ (hreq.symm.trans hsame)

/-- A query sends a JSON object, or nothing, exactly if its bounds are finite. -/
theorem mongreldbQueryPage_sends_iff (hlib : lib.PrintsDoubles)
    (hraw : ∀ cond ∈ conditions, cond.RawWellFormed) {H : Heap}
    (hfit : AppendsFit H (queryAppends lib table conditions projection limit offset)) :
    (∀ s : Session, s.heaps.body = H →
      QuerySafe lib table conditions projection limit offset s) ↔
        ∀ cond ∈ conditions, cond.BoundsFinite := by
  have hready : (Session.refusing H).Ready (.lit "/kit/query") :=
    (Session.connected_ready rfl _ (by decide)).withBody H
  refine ⟨fun h => ?_, fun hfinite s hs => ?_⟩
  · by_contra! hbad
    exact not_querySafe hfit (not_isJsonText_queryAppends hlib hraw hbad) hready (h _ rfl)
  · subst hs
    exact querySafe_of_object hfit (queryAppends_object hlib hraw hfinite)

/-- Conversions that print a zero, the infinities, and the positive NaN as the library does. -/
def Libc.plain : Libc where
  strtod _ := ⟨0⟩
  printG d :=
    if d.isFinite then .lit "0"
    else if d.bits &&& 0xfffffffffffff ≠ 0 then .lit "nan"
    else if d.bits >>> 63 = 1 then .lit "-inf"
    else .lit "inf"

theorem Libc.plain_printsDoubles : Libc.plain.PrintsDoubles where
  finite d hd := by
    simp only [plain, hd, if_true]
    decide
  nonfinite d hd := by
    simp only [plain, hd, Bool.false_eq_true, if_false]
    split_ifs
    · exact ⟨ascii "nan", by simp, List.prefix_rfl⟩
    · exact ⟨ascii "-inf", by simp, List.prefix_rfl⟩
    · exact ⟨ascii "inf", by simp, List.prefix_rfl⟩

/-- A range of the first column, from zero up to this bound. -/
def rangeTo (hi : F64) : Condition where
  kind := .range
  columnId := 1
  lo := ⟨0⟩
  hi := hi
  loSet := 1
  hiSet := 1
  loInclusive := 1
  hiInclusive := 1
  strValue := none
  intValue := 0
  conditionJson := none

/-- The range of a single value is sent as JSON. -/
theorem rangeQuery_sends : (∀ s : Session, s.heaps.body = .unlimited →
      QuerySafe .plain (.lit "t") [rangeTo ⟨0⟩] [] 0 0 s) ∧ (rangeTo ⟨0⟩).BoundsFinite := by
  have hfinite : (rangeTo ⟨0⟩).BoundsFinite := fun _ _ => ⟨fun _ => rfl, fun _ => rfl⟩
  have hfit : AppendsFit .unlimited (queryAppends .plain (.lit "t") [rangeTo ⟨0⟩] [] 0 0) :=
    ⟨Heap.unlimited_succeeds.granted _, by decide⟩
  have honly : ∀ cond ∈ [rangeTo ⟨0⟩], cond = rangeTo ⟨0⟩ := fun cond hc => List.mem_singleton.1 hc
  have hraw : ∀ cond ∈ [rangeTo ⟨0⟩], cond.RawWellFormed := fun cond hc h => by
    rw [honly cond hc] at h
    exact absurd h Bool.false_ne_true
  have hsends := mongreldbQueryPage_sends_iff Libc.plain_printsDoubles hraw hfit
  refine ⟨?_, hfinite⟩
  rw [hsends]
  intro cond hc
  rw [honly cond hc]
  exact hfinite

/-- A range without an end is sent with a bound that is not JSON. -/
theorem rangeQuery_toInfinity :
    ¬QuerySafe .plain (.lit "t") [rangeTo ⟨0x7ff0000000000000⟩] [] 0 0
      (Session.refusing .unlimited) := by
  have hfit : AppendsFit (Session.refusing .unlimited).heaps.body
      (queryAppends .plain (.lit "t") [rangeTo ⟨0x7ff0000000000000⟩] [] 0 0) :=
    ⟨Heap.unlimited_succeeds.granted _, by decide⟩
  have hbad : ¬IsJsonText
      (queryAppends .plain (.lit "t") [rangeTo ⟨0x7ff0000000000000⟩] [] 0 0).flatten := fun h =>
    absurd h.scans (by decide)
  have hready : (Session.refusing .unlimited).Ready (.lit "/kit/query") :=
    (Session.connected_ready rfl _ (by decide)).withBody .unlimited
  exact not_querySafe hfit hbad hready

end MongrelDB
