import MongrelDB.Client.Delivery
import MongrelDB.Page.Value

/-!
# The error slot

What the caller reads of an error, if the allocations for it succeed: the text that
was set (`setError_text`). For an HTTP error this is a function of the status and of
the response (`errorMessage`, `httpError_reports`): the message at the top level
of the response with the code in parentheses, or else the whole response.
-/

namespace MongrelDB

open Ascii Prog

/-! ## Strings for the error slot -/

/-- The string `json_get_string` delivers, if the allocation for it succeeds. -/
def stringField (src : Bytes) (key : CStr) : Option CStr :=
  match jsonGetString src key .unlimited with
  | .ok (_, str, _) => str
  | .error _ => none

theorem stringField_length {src : Bytes} {key t : CStr} (ht : stringField src key = some t) :
    t.bytes.length ≤ src.length := by
  obtain ⟨found, str, hlen, hget⟩ := jsonGetString_granted src key
  obtain ⟨h', hrun⟩ := hget _ Heap.unlimited_succeeds
  rw [stringField, hrun] at ht
  exact hlen t ht

variable {s : Session}

theorem errorField_granted (hs : s.heaps.error.Succeeds) (json : Bytes) (key : CStr) :
    wp (errorField json key) (fun str s' => str = stringField json key ∧ s.Silent s')
      (fun _ _ => False) s := by
  obtain ⟨found, str, -, hget⟩ := jsonGetString_granted json key
  obtain ⟨h', hrun⟩ := hget _ hs
  obtain ⟨_, hrun'⟩ := hget _ Heap.unlimited_succeeds
  have hstr : wp (errorField json key) (fun str _ => str = stringField json key)
      (fun _ _ => False) s := by
    simp only [errorField, wp_bind, wp_get]
    refine wp_lift hrun ?_
    simp only [stringField, hrun', wp_pure, wp_modify]
  exact wp_mono (wp_and hstr (errorField_spec json key)) (fun _ _ h => h) fun _ _ h => h.1

theorem dupStr_granted (hs : s.heaps.error.Succeeds) (t : CStr) :
    wp (dupStr t) (fun str s' => str = some t ∧ s.Silent s') (fun _ _ => False) s :=
  ⟨if_pos (hs _), s.silent_error rfl⟩

/-! ## The text -/

/-- The text that is set is what the caller reads. -/
theorem setError_text (hs : s.heaps.error.Succeeds) (code : Code) (text : CStr)
    (hlen : text.bytes.length < SIZE_MAX) :
    wp (setError code (some text.bytes)) (fun _ s' => s.Quiet s' ∧ s'.c.lastCode = code ∧
      s'.c.lastError = text) (fun _ _ => False) s := by
  obtain ⟨hquiet, hcode⟩ := setError_spec code (some text.bytes) (s := s)
  have hnul : (0 : UInt8) ∉ [text.bytes].flatten := by
    rw [List.flatten_singleton]
    exact text.noNul
  have htext := Sbuf.cstr?_appendAll (h := s.heaps.error) ⟨hs.granted _, by simpa using hlen⟩
    (List.cons_ne_nil _ _) hnul
  refine ⟨hquiet, hcode, ?_⟩
  change ((Sbuf.empty.appendAll s.heaps.error [text.bytes]).1.cstr?).getD (.lit "") = text
  rw [htext, Option.getD_some]
  exact CStr.ext List.flatten_singleton

/-- A text that is formatted into a buffer of 512 bytes. -/
def clipText (text : CStr) : CStr :=
  ⟨snprintf 512 text.bytes, fun h => text.noNul (List.mem_of_mem_take h)⟩

theorem setErrorFmt_text (hs : s.heaps.error.Succeeds) (code : Code) (text : CStr) :
    wp (setErrorFmt code text.bytes) (fun _ s' => s.Quiet s' ∧ s'.c.lastCode = code ∧
      s'.c.lastError = clipText text) (fun _ _ => False) s := by
  refine setError_text hs code (clipText text) ?_
  have hle : (snprintf 512 text.bytes).length ≤ 511 := List.length_take_le _ _
  exact lt_of_le_of_lt hle (by decide)

/-! ## HTTP errors -/

/-- A message with its code. -/
def detailText (msg code : CStr) : CStr where
  bytes := msg.bytes ++ (ascii " (" ++ (code.bytes ++ ascii ")"))
  noNul := by simp +decide [msg.noNul, code.noNul]

/-- The text of a message with or without a code. -/
def reportedText (msg : CStr) : Option CStr → CStr
  | some code => clipText (detailText msg code)
  | none => msg

theorem errorText_some (msg : CStr) (code : Option CStr) :
    errorText (some msg) code = some (reportedText msg code).bytes := by
  cases code <;> rfl

theorem reportedText_length {msg : CStr} (hmsg : msg.bytes.length < SIZE_MAX) (code : Option CStr) :
    (reportedText msg code).bytes.length < SIZE_MAX := by
  cases code with
  | none => exact hmsg
  | some code =>
    have hle : (snprintf 512 (detailText msg code).bytes).length ≤ 511 := List.length_take_le _ _
    exact lt_of_le_of_lt hle (by decide)

/-- The message and the code that are taken from a response. -/
def envelope (recv : Bytes) : Option CStr × Option CStr :=
  match stringField recv (.lit "message") with
  | some msg => (some msg, stringField recv (.lit "code"))
  | none => (if recv = [] then none else some (CStr.at (recv ++ [0])), none)

/-- The text for an HTTP error. -/
def errorMessage (httpCode : Int) (recv : Bytes) : CStr :=
  reportedText ((envelope recv).1.getD (sentinel (classifyHttpError httpCode (envelope recv).1)))
    (envelope recv).2

theorem sentinel_length (code : Code) : (sentinel code).bytes.length < SIZE_MAX := by
  cases code <;> decide

/-- An HTTP error, once the envelope is decoded. -/
theorem reportError_text {α : Type} (hs : s.heaps.error.Succeeds) (httpCode : Int)
    (msg code : Option CStr)
    (hmsg : ∀ m ∈ msg, m.bytes.length < SIZE_MAX) :
    wp (reportError httpCode msg code : Api α) (fun _ _ => False) (fun rc s' =>
      rc = classifyHttpError httpCode msg ∧ s'.c.lastCode = rc ∧
        s'.c.lastError = reportedText
        (msg.getD (sentinel (classifyHttpError httpCode msg))) code) s := by
  refine wp_reportError rfl (fun m hm => ?_) fun hnone => ?_
  · subst hm
    rw [errorText_some]
    exact wp_mono (setError_text hs _ _ (reportedText_length (hmsg m rfl) code))
      (fun _ _ h => ⟨rfl, h.2⟩) fun _ _ h => h
  · subst hnone
    refine wp_mono (dupStr_granted hs _) (fun m s₁ hpost => ?_) fun _ _ h => h
    obtain ⟨hm, h₁⟩ := hpost
    subst hm
    have hs₁ : s₁.heaps.error.Succeeds := fun n => (congrFun h₁.error n).trans (hs n)
    rw [errorText_some]
    exact wp_mono (setError_text hs₁ _ _ (reportedText_length (sentinel_length _) code))
      (fun _ _ h => ⟨rfl, h.2⟩) fun _ _ h => h

/-- An HTTP error is reported with the text for its status and its response. -/
theorem httpError_reports {α : Type} (hs : s.heaps.error.Succeeds) {recv : Bytes}
    (hrecv : s.c.recv.data = recv) (hlen : recv.length < SIZE_MAX) (httpCode : Int) :
    wp (httpError httpCode : Api α) (fun _ _ => False) (fun rc s' =>
      rc = classifyHttpError httpCode (envelope recv).1 ∧ s'.c.lastCode = rc ∧
        s'.c.lastError = errorMessage httpCode recv) s := by
  subst hrecv
  have hsilent : ∀ {s₁ : Session}, s.Silent s₁ → s₁.heaps.error.Succeeds := fun h n =>
    (congrFun h.error n).trans (hs n)
  rw [errorMessage, envelope]
  refine wp_httpError (wp_mono (errorField_granted hs _ _) (fun msg s₁ hfield => ?_)
    fun _ _ h => h.elim)
  obtain ⟨hmsg, h₁⟩ := hfield
  rw [← hmsg]
  cases msg with
  | some msg =>
    refine wp_mono (errorField_granted (hsilent h₁) _ _) (fun code s₂ hfield => ?_)
      fun _ _ h => h.elim
    obtain ⟨hcode, h₂⟩ := hfield
    rw [← hcode]
    refine reportError_text (hsilent (h₁.trans h₂)) httpCode (some msg) code fun m hm => ?_
    obtain rfl := Option.some.inj hm
    exact lt_of_le_of_lt (stringField_length hmsg.symm) hlen
  | none =>
    dsimp only
    -- Without a message the body is the message, unless it is empty.
    by_cases hempty : s.c.recv.data = []
    · rw [if_neg (by rw [Sbuf.len, hempty]; decide), if_pos hempty]
      exact reportError_text (hsilent h₁) httpCode none none fun _ hm =>
        absurd hm (Option.some_ne_none _).symm
    · rw [if_pos (List.length_pos_iff.2 hempty), if_neg hempty]
      refine wp_mono (dupStr_granted (hsilent h₁) _) (fun msg s₂ hcopy => ?_) fun _ _ h => h.elim
      obtain ⟨rfl, h₂⟩ := hcopy
      refine reportError_text (hsilent (h₁.trans h₂)) httpCode _ none fun m hm => ?_
      obtain rfl := Option.some.inj hm
      exact lt_of_le_of_lt (CStr.at_terminated_prefix _).length_le hlen

end MongrelDB
