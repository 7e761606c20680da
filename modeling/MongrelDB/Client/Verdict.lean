import MongrelDB.Client.Chunks
import MongrelDB.Client.Errors
import MongrelDB.Client.Slot

/-!
# How a request ends

What becomes of a request is a function of what libcurl does with it and of what the server
answers (`Answer.verdict`): a code, and the text in the error slot. If no allocation is
refused, `do_request` ends with that code and that text, whatever the answer is, and with
the whole response exactly if the code is `MDB_OK` (`doRequest_verdict`).

An answer that is too long is told from one that is not by all of its parts together, not by
the one that is rejected (`perform_chunks`).
-/

namespace MongrelDB

open Ascii Prog

/-! ## Verdicts -/

/-- A code, and the text in the error slot. -/
structure Verdict where
  code : Code
  text : CStr

/-- The body of a response. -/
def Answer.body (ans : Answer) : Bytes := ans.chunks.flatten

/-- The text for a response that is too long. -/
def overlongText : CStr := .lit "response body exceeds 268435456 bytes"

/-- The text for a transfer that has failed. -/
def networkText (strerror : CStr) : CStr where
  bytes := ascii "network error: " ++ strerror.bytes
  noNul := by simp +decide [strerror.noNul]

/-- The end of a request with this answer. -/
def Answer.verdict (ans : Answer) : Verdict :=
  if MONGRELDB_MAX_RESPONSE_BYTES < ans.body.length then ⟨.query, overlongText⟩
  else match ans.result with
    | .filesizeExceeded | .writeError => ⟨.query, overlongText⟩
    | .other strerror => ⟨.network, clipText (networkText strerror)⟩
    | .ok =>
      if ans.status < 200 ∨ ans.status ≥ 300 then
        ⟨classifyHttpError ans.status (envelope ans.body).1, errorMessage ans.status ans.body⟩
      else ⟨.ok, .lit ""⟩

variable {s : Session} {path : CStr}

/-- A request ends with this verdict: with the response, or with an error. -/
def Session.EndsWith (s : Session) (v : Verdict) (body : Bytes) (x : Api Unit) : Prop :=
  wp x (fun _ s' => v.code = .ok ∧ s'.c.lastCode = .ok ∧ s'.c.lastError = v.text ∧
      s'.c.recv.data = body)
    (fun rc s' => rc ≠ .ok ∧ rc = v.code ∧ s'.c.lastCode = rc ∧ s'.c.lastError = v.text) s

theorem overlong_text : ascii "response body exceeds " ++
    (intText MONGRELDB_MAX_RESPONSE_BYTES ++ ascii " bytes") = overlongText.bytes := by
  decide

theorem clipText_overlong : clipText overlongText = overlongText := CStr.ext (by decide)

/-- What has arrived of an answer: all of it, or less, behind a part that was rejected. -/
structure Answer.Arrives (ans : Answer) (rc : CurlCode) (recv : Sbuf) : Prop where
  short : ans.body.length ≤ MONGRELDB_MAX_RESPONSE_BYTES → rc = ans.result ∧ recv.data = ans.body
  long : MONGRELDB_MAX_RESPONSE_BYTES < ans.body.length → rc = .writeError
  bounded : recv.len ≤ MONGRELDB_MAX_RESPONSE_BYTES

theorem Answer.arrives {h : Heap} (hs : h.Succeeds) (ans : Answer) :
    ans.Arrives (perform ans ans.chunks Sbuf.empty h).1
      (perform ans ans.chunks Sbuf.empty h).2.1 := by
  have hempty : Sbuf.empty.len = 0 := rfl
  have hle : Sbuf.empty.len ≤ MONGRELDB_MAX_RESPONSE_BYTES := Nat.zero_le _
  obtain ⟨hshort, hlong⟩ := perform_chunks ans ans.chunks hs hle
  rw [hempty, Nat.zero_add] at hshort hlong
  refine ⟨hshort, fun h => (hlong h).1, ?_⟩
  rcases Nat.lt_or_ge MONGRELDB_MAX_RESPONSE_BYTES ans.chunks.flatten.length with hlen | hlen
  · exact (hlong hlen).2
  · have hdata : (perform ans ans.chunks Sbuf.empty h).2.1.data = ans.chunks.flatten :=
      (hshort hlen).2
    rw [Sbuf.len, hdata]
    exact hlen

namespace Answer.Arrives

variable {ans : Answer} {rc : CurlCode} {recv : Sbuf}

theorem verdict_of_overlong (h : ans.Arrives rc recv) (hover : Overlong rc recv) :
    ans.verdict = ⟨.query, overlongText⟩ := by
  rw [verdict]
  rcases Nat.lt_or_ge MONGRELDB_MAX_RESPONSE_BYTES ans.body.length with hlen | hlen
  · rw [if_pos hlen]
  · rw [if_neg (Nat.not_lt.2 hlen)]
    obtain ⟨hrc, -⟩ := h.short hlen
    rcases hover with rfl | rfl | hlong
    · rw [← hrc]
    · rw [← hrc]
    · exact absurd hlong (Nat.not_lt.2 h.bounded)

theorem verdict_of_other (h : ans.Arrives rc recv) {strerror : CStr} (hrc : rc = .other strerror) :
    ans.verdict = ⟨.network, clipText (networkText strerror)⟩ := by
  have hlen : ¬MONGRELDB_MAX_RESPONSE_BYTES < ans.body.length := fun hlong => by
    cases hrc.symm.trans (h.long hlong)
  rw [verdict, if_neg hlen, ← (h.short (Nat.le_of_not_lt hlen)).1, hrc]

theorem verdict_of_ok (h : ans.Arrives .ok recv) : recv.data = ans.body ∧ ans.verdict =
    if ans.status < 200 ∨ ans.status ≥ 300 then
      ⟨classifyHttpError ans.status (envelope ans.body).1, errorMessage ans.status ans.body⟩
    else ⟨.ok, .lit ""⟩ := by
  have hlen : ¬MONGRELDB_MAX_RESPONSE_BYTES < ans.body.length := fun hlong => by
    cases h.long hlong
  obtain ⟨hrc, hdata⟩ := h.short (Nat.le_of_not_lt hlen)
  exact ⟨hdata, by rw [verdict, if_neg hlen, ← hrc]⟩

end Answer.Arrives

/-- Behind a transfer, the answer decides. -/
theorem receive_verdict {ans : Answer} {rc : CurlCode} (harrives : ans.Arrives rc s.c.recv)
    (htransfer : s.heaps.transfer.Succeeds) (herror : s.heaps.error.Succeeds)
    (hcode : s.c.lastCode = .ok) (hmsg : s.c.errorMsg = Sbuf.empty) :
    s.EndsWith ans.verdict ans.body (receive rc ans.status) := by
  obtain ⟨hkept, hcode', hmsg', hdata', -⟩ := s.terminated_quiet
  refine wp_receive (fun hover => ?_) (fun strerror hrc => ?_) (fun hno => ?_)
    fun hover hother _ => ?_
  · have hv := harrives.verdict_of_overlong hover
    rw [overlong_text]
    refine wp_mono (setErrorFmt_text herror .query overlongText) (fun _ s' h => ?_) fun _ _ h => h
    rw [hv]
    exact ⟨by decide, rfl, h.2.1, h.2.2.trans clipText_overlong⟩
  · have hv := harrives.verdict_of_other hrc
    refine wp_mono (setErrorFmt_text herror .network (networkText strerror)) (fun _ s' h => ?_)
      fun _ _ h => h
    rw [hv]
    exact ⟨by decide, rfl, h.2.1, h.2.2⟩
  -- With every allocation granted there is room for the terminator.
  · have hroom : s.c.recv.len + 1 < SIZE_MAX := by
      have hmax : MONGRELDB_MAX_RESPONSE_BYTES + 1 < SIZE_MAX := by decide
      have := harrives.bounded
      omega
    obtain ⟨cap, h', he, -, -⟩ := s.c.recv.reserve_of_succeeds htransfer hroom
    rw [he] at hno
    cases hno
  · have hrc : rc = .ok := by
      cases rc with
      | ok => rfl
      | filesizeExceeded => exact absurd (.inl rfl) hover
      | writeError => exact absurd (.inr (.inl rfl)) hover
      | other strerror => exact absurd rfl (hother strerror)
    subst hrc
    obtain ⟨hdata, hv⟩ := harrives.verdict_of_ok
    rw [hv]
    split_ifs with hstatus
    · have hrecv : s.terminated.c.recv.data = ans.body := hdata'.trans hdata
      have hlen : ans.body.length < SIZE_MAX := by
        have hmax : MONGRELDB_MAX_RESPONSE_BYTES < SIZE_MAX := by decide
        have hbounded := harrives.bounded
        rw [Sbuf.len, hdata] at hbounded
        exact lt_of_le_of_lt hbounded hmax
      refine wp_mono (httpError_reports (fun n => (congrFun hkept.error n).trans (herror n)) hrecv
        hlen ans.status) (fun _ _ h => h.elim) fun rc s' h => ?_
      exact ⟨h.1 ▸ classifyHttpError_ne_ok _ _, h.1, h.2.1, h.2.2⟩
    · refine ⟨rfl, hcode'.trans hcode, ?_, hdata'.trans hdata⟩
      rw [Client.lastError, hmsg', hmsg]
      rfl

/-- If no allocation is refused, a request ends as the answer says, whatever it is. -/
theorem doRequest_verdict (hs : s.Ready path) (herror : s.heaps.error.Succeeds) (method : CStr)
    (body : Option CStr) :
    s.EndsWith s.answer.verdict s.answer.body (doRequest method (some path) body) := by
  refine wp_doRequest_ready hs fun headers userpwd s₂ h₂ => ?_
  have htransfer : s₂.heaps.transfer.Succeeds := fun n =>
    (congrFun h₂.transfer n).trans (hs.transfer n)
  refine wp_mono (wp_and (send_run _ s.answer) (send_spec _ s.answer)) (fun rc s₃ h₃ => ?_)
    fun _ _ h => h.1.elim
  obtain ⟨⟨hperform, -⟩, hkept, hcode, hmsg, -⟩ := h₃
  have harrives := Answer.arrives htransfer s.answer
  rw [← h₂.recv, hperform] at harrives
  exact receive_verdict harrives (fun n => (congrFun hkept.transfer n).trans (htransfer n))
    (fun n => ((congrFun hkept.error n).trans (congrFun h₂.error n)).trans (herror n))
    (hcode.trans h₂.lastCode) (hmsg.trans h₂.errorMsg)

/-- A request that the server does not allow. -/
theorem connected_verdict : Session.EndsWith (.connected fun _ => .of 401 [])
    (Session.connected fun _ => .of 401 []).answer.verdict
    (Session.connected fun _ => .of 401 []).answer.body
    (doRequest (.lit "GET") (some (.lit "/health")) none) :=
  doRequest_verdict (Session.connected_ready rfl (.lit "/health") (by decide))
    Heap.unlimited_succeeds (.lit "GET") none

end MongrelDB
