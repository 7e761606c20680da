import MongrelDB.Api.Results
import MongrelDB.Client.Delivery
import MongrelDB.Lib.Percent

/-!
# Names in paths

The name of a table, or the id of a query, is to be one segment of the path of a
request (`PathOp.Carries`). The encoder keeps a slash, so it is exactly if there is
none in the name, and no append of the path fails. A path with dot segments is not
requested as it is: the name must not be one of these two, either
(`PathOp.carries_iff`).
-/

namespace MongrelDB

open Ascii Prog

/-! ## The encoder -/

/-- A character in a path stands for itself. -/
theorem percentDecode_encodeChar : ∀ c, percentDecode (encodeChar c) = some [c] :=
  forall_byte (by decide)

theorem encodeChar_slash : ∀ c, slash ∈ encodeChar c ↔ c = slash := forall_byte (by decide)

/-- The characters that begin a query and a fragment. -/
abbrev question : UInt8 := 63
abbrev hash : UInt8 := 35

/-- A character in a path is no NUL, and begins neither a query nor a fragment. -/
theorem encodeChar_plain : ∀ c, (0 : UInt8) ∉ encodeChar c ∧ question ∉ encodeChar c ∧
    hash ∉ encodeChar c :=
  forall_byte (by decide)

theorem percentDecode_urlPathEncode (name : CStr) :
    percentDecode (urlPathEncode name).flatten = some name.bytes := by
  rw [urlPathEncode]
  induction name.bytes with
  | nil => rfl
  | cons c s ih =>
    rw [List.map_cons, List.flatten_cons, percentDecode_append (percentDecode_encodeChar c), ih]
    rfl

theorem slash_mem_urlPathEncode (name : CStr) :
    slash ∈ (urlPathEncode name).flatten ↔ slash ∈ name.bytes := by
  simp [urlPathEncode, encodeChar_slash]

theorem urlPathEncode_plain (name : CStr) : (0 : UInt8) ∉ (urlPathEncode name).flatten ∧
    question ∉ (urlPathEncode name).flatten ∧ hash ∉ (urlPathEncode name).flatten := by
  simp [urlPathEncode, encodeChar_plain]

/-! ## The operations -/

/-- The operations with a name in the path. -/
inductive PathOp where
  | dropTable
  | count
  | schemaFor
  | queryStatusGet
  | cancelQuery

namespace PathOp

/-- What is appended for the path. -/
def appends : PathOp → CStr → Appends
  | dropTable => dropTablePath
  | count => countPath
  | schemaFor => schemaForPath
  | queryStatusGet => queryStatusPath
  | cancelQuery => cancelQueryPath

/-- The segments in front of the name. -/
def before : PathOp → List Bytes
  | dropTable | count => [[], ascii "tables"]
  | schemaFor => [[], ascii "kit", ascii "schema"]
  | queryStatusGet | cancelQuery => [[], ascii "queries"]

/-- The segments behind the name. -/
def after : PathOp → List Bytes
  | dropTable | schemaFor | queryStatusGet => []
  | count => [ascii "count"]
  | cancelQuery => [ascii "cancel"]

variable {op : PathOp} {name : CStr}

/-- The path is the one of the operation, with the name as one segment. It has no query,
    and no fragment. -/
structure Carries (op : PathOp) (name : CStr) (path : Bytes) : Prop where
  segments : ∃ seg, path.splitOn slash = op.before ++ seg :: op.after ∧
    percentDecode seg = some name.bytes
  noQuery : question ∉ path
  noFragment : hash ∉ path

/-- Moreover, the path is requested as it is: no segment is `.` or `..`, which libcurl
    removes, the second one with the segment in front of it. -/
structure Addresses (op : PathOp) (name : CStr) (path : Bytes) : Prop extends
    op.Carries name path where
  noDots : [dot] ∉ path.splitOn slash ∧ [dot, dot] ∉ path.splitOn slash

/-! ## The pieces -/

/-- The text in front of the name. -/
def front : PathOp → Bytes
  | dropTable | count => ascii "/tables/"
  | schemaFor => ascii "/kit/schema/"
  | queryStatusGet | cancelQuery => ascii "/queries/"

/-- The pieces behind the name. -/
def rear : PathOp → Appends
  | dropTable | schemaFor | queryStatusGet => []
  | count => [ascii "/count"]
  | cancelQuery => [ascii "/cancel"]

theorem appends_eq (op : PathOp) (name : CStr) :
    op.appends name = op.front :: (urlPathEncode name ++ op.rear) := by
  cases op <;> simp only [appends, front, rear, dropTablePath, countPath, schemaForPath,
    queryStatusPath, cancelQueryPath, List.cons_append, List.nil_append, List.append_nil]

theorem percentDecode_front (op : PathOp) : percentDecode op.front = some op.front := by
  cases op <;> decide +kernel

/-- All the pieces denote some text. -/
theorem percentDecode_appends (op : PathOp) (name : CStr) :
    ∀ p ∈ op.appends name, ∃ x, x ≠ [] ∧ percentDecode p = some x := by
  intro p hp
  rw [appends_eq, List.mem_cons, List.mem_append] at hp
  rcases hp with rfl | hp | hp
  · exact ⟨op.front, by cases op <;> decide, op.percentDecode_front⟩
  · obtain ⟨c, -, rfl⟩ := List.mem_map.1 hp
    exact ⟨[c], List.cons_ne_nil _ _, percentDecode_encodeChar c⟩
  · refine ⟨p, ?_⟩
    revert p
    cases op <;> decide +kernel

/-- The segments of a path with this text at the place of the name. -/
theorem splitOn_path (op : PathOp) (text : Bytes) :
    (op.front ++ (text ++ op.rear.flatten)).splitOn slash =
      op.before ++ (text.splitOn slash ++ op.after) := by
  have hfront : op.front = op.front.dropLast ++ [slash] := by cases op <;> decide
  have hbefore : op.front.dropLast.splitOn slash = op.before := by cases op <;> decide
  have hrear : op.rear.flatten = [] ∧ op.after = [] ∨
      ∃ r, op.rear.flatten = slash :: r ∧ op.after = r.splitOn slash := by
    cases op with
    | dropTable | schemaFor | queryStatusGet => exact .inl ⟨rfl, rfl⟩
    | count => exact .inr ⟨ascii "count", by decide, by decide⟩
    | cancelQuery => exact .inr ⟨ascii "cancel", by decide, by decide⟩
  rw [hfront, List.append_assoc, List.singleton_append, List.splitOn_append_cons_self, hbefore]
  rcases hrear with ⟨hr, ha⟩ | ⟨r, hr, ha⟩
  · rw [hr, ha, List.append_nil, List.append_nil]
  · rw [hr, ha, List.splitOn_append_cons_self]

/-- The path with this text at the place of the name, put together again. -/
theorem eq_of_splitOn {path seg : Bytes} (h : path.splitOn slash = op.before ++ seg :: op.after) :
    path = op.front ++ (seg ++ op.rear.flatten) := by
  have hjoin : [slash].intercalate (path.splitOn slash) = path := List.intercalate_splitOn slash
  rw [← hjoin, h]
  cases op <;> simp [before, after, front, rear, List.intercalate] <;> rfl

/-- The path that is built. -/
def path (op : PathOp) (name : CStr) (H : Heap) : Bytes :=
  (Sbuf.empty.appendAll H (op.appends name)).1.data

variable {H : Heap}

theorem appends_plain (op : PathOp) (name : CStr) : (0 : UInt8) ∉ (op.appends name).flatten ∧
    question ∉ (op.appends name).flatten ∧ hash ∉ (op.appends name).flatten := by
  obtain ⟨hnul, hquestion, hhash⟩ := urlPathEncode_plain name
  have hfront : (0 : UInt8) ∉ op.front ∧ question ∉ op.front ∧ hash ∉ op.front := by
    cases op <;> decide
  have hrear : (0 : UInt8) ∉ op.rear.flatten ∧ question ∉ op.rear.flatten ∧
    hash ∉ op.rear.flatten := by
    cases op <;> decide
  rw [appends_eq]
  simp only [List.flatten_cons, List.flatten_append, List.mem_append, not_or]
  exact ⟨⟨hfront.1, hnul, hrear.1⟩, ⟨hfront.2.1, hquestion, hrear.2.1⟩, hfront.2.2, hhash,
    hrear.2.2⟩

/-- Whatever is missing of a path, it has no query, and no fragment. -/
theorem path_plain (op : PathOp) (name : CStr) (H : Heap) :
    question ∉ op.path name H ∧ hash ∉ op.path name H :=
  ⟨fun h => (op.appends_plain name).2.1 (Sbuf.mem_appendAll h),
    fun h => (op.appends_plain name).2.2 (Sbuf.mem_appendAll h)⟩

/-- If the path is not cut, the encoded name is at the place of the name. -/
theorem path_of_fit (hfit : AppendsFit H (op.appends name)) :
    op.path name H = op.front ++ ((urlPathEncode name).flatten ++ op.rear.flatten) := by
  rw [path, hfit.data, appends_eq, List.flatten_cons, List.flatten_append]

/-- A path with the name as one segment is not cut. -/
theorem Carries.fit (h : op.Carries name (op.path name H)) : AppendsFit H (op.appends name) := by
  obtain ⟨qs, hsub, hdata⟩ := Sbuf.exists_sublist_appendAll Sbuf.empty H (op.appends name)
  obtain ⟨x, y, hx, hy, -, heq⟩ := percentDecode_sublist hsub (op.percentDecode_appends name)
  obtain ⟨seg, hsplit, hseg⟩ := h.segments
  have hpath : qs.flatten = op.front ++ (seg ++ op.rear.flatten) := by
    rw [← eq_of_splitOn hsplit, path, hdata]
    rfl
  have hsame : x = y := by
    rw [hpath, percentDecode_append op.percentDecode_front, percentDecode_append hseg] at hx
    rw [appends_eq, List.flatten_cons, List.flatten_append,
      percentDecode_append op.percentDecode_front,
      percentDecode_append (percentDecode_urlPathEncode name)] at hy
    exact Option.some.inj (hx.symm.trans hy)
  refine AppendsFit.of_complete ?_ ?_
  · rw [appends_eq]
    cases op <;> exact fun h => absurd (Option.some.inj h) (by decide)
  · rw [hdata, heq (by rw [hsame])]
    rfl

/-- The name is one segment of the path exactly if there is no slash in it. -/
theorem carries_iff_slash (hfit : AppendsFit H (op.appends name)) :
    op.Carries name (op.path name H) ↔ slash ∉ name.bytes := by
  have hsplit : (op.path name H).splitOn slash =
      op.before ++ ((urlPathEncode name).flatten.splitOn slash ++ op.after) := by
    rw [path_of_fit hfit, splitOn_path]
  refine ⟨fun h hslash => ?_, fun hslash => ⟨⟨(urlPathEncode name).flatten, ?_, ?_⟩, ?_, ?_⟩⟩
  · -- The name makes two segments at least.
    obtain ⟨seg, hseg, -⟩ := h.segments
    obtain ⟨a, b, hab⟩ := List.append_of_mem ((slash_mem_urlPathEncode name).2 hslash)
    rw [hsplit, hab, List.splitOn_append_cons_self, List.append_cancel_left_eq] at hseg
    have hlen := congrArg List.length hseg
    have ha := List.length_pos_iff.2 (List.splitOn_ne_nil slash a)
    have hb := List.length_pos_iff.2 (List.splitOn_ne_nil slash b)
    simp only [List.length_append, List.length_cons] at hlen
    omega
  · rw [hsplit, List.splitOn_eq_singleton (mt (slash_mem_urlPathEncode name).1 hslash)]
    rfl
  · exact percentDecode_urlPathEncode name
  · exact (op.path_plain name H).1
  · exact (op.path_plain name H).2

/-! ## The requests -/

/-- The call of an operation on this name. -/
def call (op : PathOp) (lib : Libc) (name : CStr) : Api Unit :=
  match op with
  | dropTable => mongreldbDropTable (some name)
  | count => do let _ ← mongreldbCount lib (some name) true
  | schemaFor => do let _ ← mongreldbSchemaFor (some name) true
  | queryStatusGet => do let _ ← mongreldbQueryStatusGet lib (some name) true
  | cancelQuery => do let _ ← mongreldbCancelQuery (some name)

/-- The method of its request, and the body. -/
def method : PathOp → CStr
  | dropTable => .lit "DELETE"
  | count | schemaFor | queryStatusGet => .lit "GET"
  | cancelQuery => .lit "POST"

def requestBody : PathOp → Option CStr
  | dropTable | count | schemaFor | queryStatusGet => none
  | cancelQuery => some (.lit "\x7b\x7d")

/-- The path that is built, if it is not cut. -/
def fullPath (op : PathOp) (name : CStr) : CStr :=
  ⟨(op.appends name).flatten, (op.appends_plain name).1⟩

variable {s : Session}

/-- The path is built, and then requested. -/
theorem wp_request (hfit : AppendsFit s.heaps.body (op.appends name))
    (hs : s.Ready (op.fullPath name))
    (method : CStr) (body : Option CStr) :
    wp (bodyAppends (op.appends name)) (fun path s₁ =>
      wp (doRequest method path body) (fun _ s₂ => s.Sends s₂ method (op.fullPath name) body)
        (fun _ s₂ => s.Sends s₂ method (op.fullPath name) body) s₁) (fun _ _ => False) s := by
  refine wp_mono (bodyAppends_spec _) (fun text s₁ hpost => ?_) fun _ _ h => h
  obtain ⟨htext, hs₁⟩ := hpost
  rw [Sbuf.cstr?_appendAll hfit (by rw [appends_eq]; exact List.cons_ne_nil _ _)
    (op.appends_plain name).1] at htext
  subst htext hs₁
  exact wp_mono (doRequest_ready (hs.withBody _) _ _) (fun _ _ h => h.sent) fun _ _ h => h.2.sent

/-- The call of an operation makes a request to its path. -/
theorem call_sends (lib : Libc) (hname : name.bytes ≠ [])
    (hfit : AppendsFit s.heaps.body (op.appends name)) (hs : s.Ready (op.fullPath name)) :
    wp (op.call lib name) (fun _ s' => s.Sends s' op.method (op.fullPath name) op.requestBody)
      (fun _ s' => s.Sends s' op.method (op.fullPath name) op.requestBody) s := by
  have hrequest := wp_request hfit hs op.method op.requestBody
  have hkeeps : ∀ {s₁ s₂ : Session}, s₂.curl = s₁.curl →
      s.Sends s₁ op.method (op.fullPath name) op.requestBody →
      s.Sends s₂ op.method (op.fullPath name) op.requestBody :=
    fun hcurl ⟨headers, userpwd, hsent⟩ => ⟨headers, userpwd, by rw [hcurl, hsent]⟩
  have hgiven : isGiven (some name) = true := by
    simp [isGiven, hname]
  cases op with
  | dropTable => exact wp_step hrequest fun path s₁ h₁ => h₁
  | count =>
    refine wp_bind.2 (wp_step hrequest fun path s₁ h₁ => wp_seq h₁ fun _ s₂ h₂ => ?_)
    obtain ⟨r, hr, -⟩ := jsonGetNumber_ends lib s₂.c.recv.data (.lit "count")
    exact wp_bind.2 (wp_get.2 (wp_bind.2 (wp_lift hr h₂)))
  | schemaFor => exact wp_bind.2 (wp_step hrequest fun path s₁ h₁ => wp_seq h₁ fun _ s₂ h₂ => h₂)
  | queryStatusGet =>
    rw [call, mongreldbQueryStatusGet, hgiven]
    refine wp_bind.2 (wp_step hrequest fun path s₁ h₁ => wp_seq h₁ fun _ s₂ h₂ => ?_)
    exact wp_mono (takeStatus_decoded lib) (fun _ s₃ h₃ => hkeeps h₃.curl h₂) fun _ _ h => h.elim
  | cancelQuery =>
    rw [call, mongreldbCancelQuery, hgiven]
    exact wp_bind.2 (wp_step hrequest fun path s₁ h₁ => wp_seq h₁ fun _ s₂ h₂ => h₂)

/-! ## The names -/

/-- The encoding of a name is a dot segment only if the name is. -/
theorem urlPathEncode_dots {dots : Bytes} (hdots : percentDecode dots = some dots)
    (hkeep : (dots.map encodeChar).flatten = dots) :
    (urlPathEncode name).flatten = dots ↔ name.bytes = dots := by
  refine ⟨fun h => ?_, fun h => by rw [urlPathEncode, h, hkeep]⟩
  have hname := percentDecode_urlPathEncode name
  rw [h, hdots] at hname
  exact (Option.some.inj hname).symm

/-- The name is one segment of the path exactly if the path is not cut, and there is no
    slash in the name; and the path is requested as it is exactly if the name is no dot
    segment, either. -/
theorem carries_iff (op : PathOp) (name : CStr) (H : Heap) :
    (op.Carries name (op.path name H) ↔ AppendsFit H (op.appends name) ∧ slash ∉ name.bytes) ∧
      (op.Addresses name (op.path name H) ↔ AppendsFit H (op.appends name) ∧ slash ∉ name.bytes ∧
        name.bytes ≠ [dot] ∧ name.bytes ≠ [dot, dot]) := by
  have hcarries : op.Carries name (op.path name H) ↔
      AppendsFit H (op.appends name) ∧ slash ∉ name.bytes :=
    ⟨fun h => ⟨h.fit, (carries_iff_slash h.fit).1 h⟩, fun h => (carries_iff_slash h.1).2 h.2⟩
  -- A dot segment decodes to itself, and `url_path_encode` leaves it as it is.
  have hdots : AppendsFit H (op.appends name) → slash ∉ name.bytes → ∀ dots : Bytes,
      percentDecode dots = some dots → (dots.map encodeChar).flatten = dots →
      dots ∉ op.before ++ op.after →
      (dots ∉ (op.path name H).splitOn slash ↔ name.bytes ≠ dots) := by
    intro hfit hslash dots hdecode hkeep hfixed
    rw [path_of_fit hfit, splitOn_path,
      List.splitOn_eq_singleton (mt (slash_mem_urlPathEncode name).1 hslash)]
    rw [List.mem_append, not_or] at hfixed
    simp only [List.mem_append, List.mem_singleton, hfixed.1, hfixed.2, false_or, or_false]
    rw [eq_comm, urlPathEncode_dots hdecode hkeep]
  have hone : [dot] ∉ op.before ++ op.after := by cases op <;> decide
  have htwo : [dot, dot] ∉ op.before ++ op.after := by cases op <;> decide
  refine ⟨hcarries, fun h => ?_, fun hpost => ?_⟩
  · obtain ⟨hfit, hslash⟩ := hcarries.1 h.toCarries
    exact ⟨hfit, hslash, (hdots hfit hslash _ (by decide) (by decide) hone).1 h.noDots.1,
      (hdots hfit hslash _ (by decide) (by decide) htwo).1 h.noDots.2⟩
  · obtain ⟨hfit, hslash, hdot, hdotdot⟩ := hpost
    exact ⟨hcarries.2 ⟨hfit, hslash⟩,
      (hdots hfit hslash _ (by decide) (by decide) hone).2 hdot,
      (hdots hfit hslash _ (by decide) (by decide) htwo).2 hdotdot⟩

/-- A name with a slash makes two segments. -/
theorem slashName_split :
    ¬dropTable.Carries (.lit "a/b") (dropTable.path (.lit "a/b") .unlimited) :=
    fun h => by
  obtain ⟨seg, hseg, -⟩ := h.segments
  have hsplit : (dropTable.path (.lit "a/b") .unlimited).splitOn slash =
      [[], ascii "tables", ascii "a", ascii "b"] := by decide
  rw [hsplit] at hseg
  have hlen : 4 = 3 := congrArg List.length hseg
  exact absurd hlen (by decide)

end PathOp

end MongrelDB
