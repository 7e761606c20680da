import MongrelDB.Client
import MongrelDB.Lookup.Safety
import MongrelDB.Serialize.Appends

/-!
# Requests

What `do_request` does to a session. It makes at most one request, with the body it
was given (`doRequest_ends`), and exactly one if nothing fails in front of the transfer
(`Session.Ready`, `wp_doRequest_ready`). The response is what the parts of it make
together (`Answer.Delivers`, `send_delivers`).
-/

namespace MongrelDB

open Ascii Prog

/-! ## What is left alone -/

/-- A request leaves the strings of the connection, the results, and the allocations
    for bodies and results alone. -/
structure Session.Kept (s s' : Session) : Prop where
  baseUrl : s'.c.baseUrl = s.c.baseUrl
  token : s'.c.token = s.c.token
  username : s'.c.username = s.c.username
  password : s'.c.password = s.c.password
  timeoutSeconds : s'.c.timeoutSeconds = s.c.timeoutSeconds
  names : s'.c.names = s.c.names
  scratch : s'.c.scratch = s.c.scratch
  body : s'.heaps.body = s.heaps.body
  decode : s'.heaps.decode = s.heaps.decode
  transfer : s'.heaps.transfer.grants = s.heaps.transfer.grants
  error : s'.heaps.error.grants = s.heaps.error.grants
  answers : s'.curl.answers = s.curl.answers

namespace Session.Kept

theorem refl (s : Session) : s.Kept s :=
  ⟨rfl, rfl, rfl, rfl, rfl, rfl, rfl, rfl, rfl, rfl, rfl, rfl⟩

theorem trans {s s' s'' : Session} (h : s.Kept s') (h' : s'.Kept s'') : s.Kept s'' where
  baseUrl := h'.baseUrl.trans h.baseUrl
  token := h'.token.trans h.token
  username := h'.username.trans h.username
  password := h'.password.trans h.password
  timeoutSeconds := h'.timeoutSeconds.trans h.timeoutSeconds
  names := h'.names.trans h.names
  scratch := h'.scratch.trans h.scratch
  body := h'.body.trans h.body
  decode := h'.decode.trans h.decode
  transfer := h'.transfer.trans h.transfer
  error := h'.error.trans h.error
  answers := h'.answers.trans h.answers

end Session.Kept

/-- A part of a request that makes none, and leaves the response alone. -/
structure Session.Quiet (s s' : Session) : Prop extends s.Kept s' where
  recv : s'.c.recv = s.c.recv
  begun : s'.curl.begun = s.curl.begun
  sent : s'.curl.sent = s.curl.sent

/-- A quiet part without an error. -/
structure Session.Silent (s s' : Session) : Prop extends s.Quiet s' where
  lastCode : s'.c.lastCode = s.c.lastCode
  errorMsg : s'.c.errorMsg = s.c.errorMsg

theorem Session.Quiet.trans {s s' s'' : Session} (h : s.Quiet s') (h' : s'.Quiet s'') :
    s.Quiet s'' :=
  ⟨h.toKept.trans h'.toKept, h'.recv.trans h.recv, h'.begun.trans h.begun, h'.sent.trans h.sent⟩

theorem Session.Silent.refl (s : Session) : s.Silent s := ⟨⟨.refl s, rfl, rfl, rfl⟩, rfl, rfl⟩

theorem Session.Silent.trans {s s' s'' : Session} (h : s.Silent s') (h' : s'.Silent s'') :
    s.Silent s'' :=
  ⟨h.toQuiet.trans h'.toQuiet, h'.lastCode.trans h.lastCode, h'.errorMsg.trans h.errorMsg⟩

/-- Another heap for the URL, the headers and the response, with the same outcomes. -/
theorem Session.silent_transfer (s : Session) {h : Heap} (hg : h.grants = s.heaps.transfer.grants) :
    s.Silent { s with heaps := { s.heaps with transfer := h } } :=
  ⟨⟨⟨rfl, rfl, rfl, rfl, rfl, rfl, rfl, rfl, rfl, hg, rfl, rfl⟩, rfl, rfl, rfl⟩, rfl, rfl⟩

/-- Another heap for the error string, with the same outcomes. -/
theorem Session.silent_error (s : Session) {h : Heap} (hg : h.grants = s.heaps.error.grants) :
    s.Silent { s with heaps := { s.heaps with error := h } } :=
  ⟨⟨⟨rfl, rfl, rfl, rfl, rfl, rfl, rfl, rfl, rfl, rfl, hg, rfl⟩, rfl, rfl, rfl⟩, rfl, rfl⟩

/-! ## Errors -/

variable {s : Session}

/-- The error slot holds a code and no other text than what could be copied of `msg`. -/
theorem setError_spec (code : Code) (msg : Option Bytes) :
    wp (setError code msg) (fun _ s' => s.Quiet s' ∧ s'.c.lastCode = code)
      (fun _ _ => False) s := by
  cases msg with
  | none =>
    exact ⟨⟨⟨rfl, rfl, rfl, rfl, rfl, rfl, rfl, rfl, rfl, rfl, rfl, rfl⟩, rfl, rfl, rfl⟩, rfl⟩
  | some msg =>
    refine ⟨⟨⟨rfl, rfl, rfl, rfl, rfl, rfl, rfl, rfl, rfl, rfl, ?_, rfl⟩, rfl, rfl, rfl⟩, rfl⟩
    exact Sbuf.append_grants Sbuf.empty msg s.heaps.error

/-- A failure returns its code, and leaves it in the error slot. -/
theorem fail_spec {α : Type} (code : Code) (msg : String) :
    wp (fail code msg : Api α) (fun _ _ => False)
      (fun rc s' => rc = code ∧ s.Quiet s' ∧ s'.c.lastCode = rc) s := by
  rw [fail, wp_bind]
  exact wp_mono (setError_spec code _) (fun _ s' h => ⟨rfl, h⟩) fun _ _ h => h.elim

/-! ## In front of the transfer -/

theorem transferAppends_spec (ps : Appends) :
    wp (transferAppends ps) (fun buf s' => s.Silent s' ∧
        buf = (Sbuf.empty.appendAll s.heaps.transfer ps).1) (fun _ _ => False) s :=
  ⟨s.silent_transfer (Sbuf.appendAll_grants _ _ _), rfl⟩

/-- The pieces of a URL. -/
def urlAppends (baseUrl path : CStr) : Appends :=
  if path.bytes.head? = some slash then [baseUrl.bytes, path.bytes]
  else [baseUrl.bytes, [slash], path.bytes]

theorem buildUrl_spec (path : CStr) :
    wp (buildUrl (some path)) (fun url s' => s.Silent s' ∧
        url = (Sbuf.empty.appendAll s.heaps.transfer (urlAppends s.c.baseUrl path)).1.cstr?)
      (fun _ _ => False) s := by
  simp only [buildUrl, wp_bind, wp_get]
  exact wp_mono (transferAppends_spec (urlAppends s.c.baseUrl path))
    (fun buf s' h => ⟨h.1, by rw [h.2]⟩) fun _ _ h => h

/-- The `Authorization` header is built, or memory is short. -/
theorem authHeader_spec (token : CStr) :
    wp (authHeader token) (fun _ s' => s.Silent s')
      (fun rc s' => rc = .nomem ∧ s.Quiet s' ∧ s'.c.lastCode = rc) s := by
  have happ : ∀ (b : Sbuf) (p : Bytes) (h : Heap), ∃ ok b' h', b.append p h = (ok, b', h') ∧
      h'.grants = h.grants := fun b p h => ⟨_, _, _, rfl, Sbuf.append_grants b p h⟩
  obtain ⟨ok, auth, h, he, hg⟩ := happ Sbuf.empty (ascii "Authorization: Bearer ") s.heaps.transfer
  obtain ⟨ok', auth', h', he', hg'⟩ : ∃ ok' auth' h',
      (if ok then auth.append token.bytes h else (false, auth, h)) = (ok', auth', h') ∧
        h'.grants = s.heaps.transfer.grants := by
    cases ok with
    | true =>
      obtain ⟨ok', auth', h', he', hg'⟩ := happ auth token.bytes h
      exact ⟨ok', auth', h', he', hg'.trans hg⟩
    | false => exact ⟨_, _, _, rfl, hg⟩
  have hsilent := s.silent_transfer hg'
  simp only [authHeader, wp_bind, wp_get, he, he', wp_modify]
  cases ok' with
  | true => exact hsilent
  | false =>
    rw [Bool.not_false, if_pos rfl, wp_bind]
    exact wp_mono (fail_spec .nomem _) (fun _ _ h => h.elim) fun rc s' h =>
      h.imp_right (And.imp_left hsilent.toQuiet.trans)

/-- The headers and the credentials are there, or memory is short. -/
theorem authorize_spec (ans : Answer) (headers : Option (List CStr)) :
    wp (authorize ans headers) (fun _ s' => s.Silent s')
      (fun rc s' => rc = .nomem ∧ s.Quiet s' ∧ s'.c.lastCode = rc) s := by
  simp only [authorize, wp_bind, wp_get]
  cases s.c.token with
  | some token =>
    refine wp_seq (authHeader_spec token) fun auth s' hq => ?_
    cases slistAppend ans.authorization headers auth with
    | none => exact wp_mono (fail_spec .nomem _) (fun _ _ h => h.elim) fun rc s'' h =>
        h.imp_right (And.imp_left hq.toQuiet.trans)
    | some appended => exact hq
  | none =>
    cases s.c.username with
    | none => exact Session.Silent.refl s
    | some username =>
      rw [wp_bind]
      exact wp_mono (transferAppends_spec _) (fun _ s' h => h.1) fun _ _ h => h.elim

/-! ## The transfer -/

theorem writeCb_grants (p : Bytes) (out : Sbuf) (h : Heap) :
    (writeCb p out h).2.2.grants = h.grants := by
  rw [writeCb]
  split_ifs
  · rfl
  · rcases happ : out.append p h with ⟨ok, out', h'⟩
    have hg : h'.grants = h.grants := by rw [← Sbuf.append_grants out p h, happ]
    cases ok <;> exact hg

/-- What is received of a response keeps the outcomes of allocations. -/
theorem perform_grants (ans : Answer) (ps : List Bytes) (out : Sbuf) (h : Heap) :
    (perform ans ps out h).2.2.grants = h.grants := by
  induction ps generalizing out h with
  | nil => rfl
  | cons p ps ih =>
    rcases hcb : writeCb p out h with ⟨n, out', h'⟩
    have hg : h'.grants = h.grants := by rw [← writeCb_grants p out h, hcb]
    rw [perform, hcb]
    by_cases hn : n ≠ p.length
    · simp only [if_pos hn, hg]
    · simp only [if_neg hn, ih, hg]

/-- A request is made, and nothing else but the response changes. -/
theorem send_spec (req : Request) (ans : Answer) :
    wp (send req ans) (fun _ s' => s.Kept s' ∧ s'.c.lastCode = s.c.lastCode ∧
        s'.c.errorMsg = s.c.errorMsg ∧ s'.curl.sent = req :: s.curl.sent) (fun _ _ => False) s := by
  refine ⟨⟨rfl, rfl, rfl, rfl, rfl, rfl, rfl, rfl, rfl, ?_, rfl, rfl⟩, rfl, rfl, rfl⟩
  exact perform_grants ans ans.chunks s.c.recv s.heaps.transfer

/-! ## Behind the transfer -/

/-- A string for the error slot is looked up. -/
theorem errorField_spec (json : Bytes) (key : CStr) :
    wp (errorField json key) (fun _ s' => s.Silent s') (fun _ _ => False) s := by
  obtain ⟨⟨found, str, h⟩, hget, hgrants⟩ := jsonGetString_ends json key s.heaps.error
  simp only [errorField, wp_bind, wp_get]
  exact wp_lift hget (s.silent_error hgrants)

theorem dupStr_spec (t : CStr) : wp (dupStr t) (fun _ s' => s.Silent s') (fun _ _ => False) s :=
  s.silent_error rfl

theorem classifyHttpError_ne_ok (httpCode : Int) (msg : Option CStr) :
    classifyHttpError httpCode msg ≠ .ok := by
  rw [classifyHttpError]
  split_ifs <;> decide

/-- The end of `do_request` for an HTTP error, once the envelope is decoded. -/
def reportError {α : Type} (httpCode : Int) (msg code : Option CStr) : Api α := do
  let mapped := classifyHttpError httpCode msg
  let msg ← match msg with
    | some msg => pure (some msg)
    | none => dupStr (sentinel mapped)
  match msg, code with
  | some msg, some code =>
    setErrorFmt mapped (msg.bytes ++ (ascii " (" ++ (code.bytes ++ ascii ")")))
  | _, _ => setError mapped (msg.map CStr.bytes)
  ret mapped

/-- An HTTP error, by its envelope: the message and the code, or the raw body. -/
theorem wp_httpError {α : Type} {httpCode : Int} {Q : α → Session → Prop}
    {R : Code → Session → Prop}
    (h : wp (errorField s.c.recv.data (.lit "message")) (fun msg s₁ =>
      match msg with
      | some msg => wp (errorField s.c.recv.data (.lit "code")) (fun code =>
          wp (reportError httpCode (some msg) code) Q R) R s₁
      | none =>
        if s.c.recv.len > 0 then
          wp (dupStr (CStr.at (s.c.recv.data ++ [0]))) (fun msg =>
            wp (reportError httpCode msg none) Q R) R s₁
        else wp (reportError httpCode none none) Q R s₁) R s) :
    wp (httpError httpCode) Q R s := by
  refine wp_bind.2 (wp_get.2 (wp_bind.2 (wp_mono h (fun msg s₁ h₁ => ?_) fun _ _ h => h)))
  cases msg with
  | some msg =>
    exact wp_bind.2 (wp_mono h₁ (fun code s₂ h₂ => h₂) fun _ _ h => h)
  | none =>
    dsimp only at h₁ ⊢
    split_ifs with hlen
    · rw [if_pos hlen] at h₁
      exact wp_bind.2 (wp_mono h₁ (fun code s₂ h₂ => h₂) fun _ _ h => h)
    · rw [if_neg hlen] at h₁
      exact h₁

/-- The text of an HTTP error. -/
def errorText (msg code : Option CStr) : Option Bytes :=
  match msg, code with
  | some msg, some code =>
    some (snprintf 512 (msg.bytes ++ (ascii " (" ++ (code.bytes ++ ascii ")"))))
  | _, _ => msg.map CStr.bytes

theorem wp_setError_ret {α : Type} {mapped : Code} {msg code : Option CStr} {Q : α → Session → Prop}
    {R : Code → Session → Prop}
    (h : wp (setError mapped (errorText msg code)) (fun _ => R mapped) (fun _ _ => False) s) :
    wp (do
      match msg, code with
      | some msg, some code =>
        setErrorFmt mapped (msg.bytes ++ (ascii " (" ++ (code.bytes ++ ascii ")")))
      | _, _ => setError mapped (msg.map CStr.bytes)
      ret mapped : Api α) Q R s := by
  cases msg with
  | some msg => cases code <;> exact wp_bind.2 (wp_mono h (fun _ _ h => h) fun _ _ h => h.elim)
  | none => exact wp_bind.2 (wp_mono h (fun _ _ h => h) fun _ _ h => h.elim)

/-- An HTTP error is reported with its message, or else with the text for its code. -/
theorem wp_reportError {α : Type} {httpCode : Int} {msg code : Option CStr} {mapped : Code}
    (hmapped : classifyHttpError httpCode msg = mapped) {Q : α → Session → Prop}
    {R : Code → Session → Prop}
    (hsome : ∀ m, msg = some m →
      wp (setError mapped (errorText msg code)) (fun _ => R mapped) (fun _ _ => False) s)
    (hnone : msg = none → wp (dupStr (sentinel mapped)) (fun m s₁ =>
      wp (setError mapped (errorText m code)) (fun _ => R mapped) (fun _ _ => False) s₁)
        (fun _ _ => False) s) :
    wp (reportError httpCode msg code) Q R s := by
  subst hmapped
  cases msg with
  | some msg => exact wp_setError_ret (hsome msg rfl)
  | none =>
    exact wp_bind.2 (wp_mono (hnone rfl) (fun m s₁ h₁ => wp_setError_ret h₁) fun _ _ h => h.elim)

theorem reportError_spec {α : Type} (httpCode : Int) (msg code : Option CStr) :
    wp (reportError httpCode msg code : Api α) (fun _ _ => False)
      (fun rc s' => rc ≠ .ok ∧ s.Quiet s' ∧ s'.c.lastCode = rc) s := by
  have hok := classifyHttpError_ne_ok httpCode msg
  refine wp_reportError rfl (fun _ _ => ?_) fun _ => ?_
  · exact wp_mono (setError_spec _ _) (fun _ s' h => ⟨hok, h.1, h.2⟩) fun _ _ h => h
  · refine wp_mono (dupStr_spec _) (fun m s₁ h₁ => ?_) fun _ _ h => h
    exact wp_mono (setError_spec _ _) (fun _ s' h => ⟨hok, h₁.toQuiet.trans h.1, h.2⟩)
      fun _ _ h => h

/-- An HTTP error returns the code in the error slot, which is none of `MDB_OK`. -/
theorem httpError_spec {α : Type} (httpCode : Int) :
    wp (httpError httpCode : Api α) (fun _ _ => False)
      (fun rc s' => rc ≠ .ok ∧ s.Quiet s' ∧ s'.c.lastCode = rc) s := by
  have hreport : ∀ {s₁ : Session}, s.Silent s₁ → ∀ msg code,
      wp (reportError httpCode msg code : Api α) (fun _ _ => False)
        (fun rc s' => rc ≠ .ok ∧ s.Quiet s' ∧ s'.c.lastCode = rc) s₁ := fun h₁ msg code =>
    wp_mono (reportError_spec httpCode msg code) (fun _ _ h => h) fun rc s' h =>
      ⟨h.1, h₁.toQuiet.trans h.2.1, h.2.2⟩
  refine wp_httpError (wp_mono (errorField_spec _ _) (fun msg s₁ h₁ => ?_) fun _ _ h => h.elim)
  cases msg with
  | some msg =>
    exact wp_mono (errorField_spec _ _) (fun code s₂ h₂ => hreport (h₁.trans h₂) _ _)
      fun _ _ h => h.elim
  | none =>
    dsimp only
    split_ifs
    · exact wp_mono (dupStr_spec _) (fun msg s₂ h₂ => hreport (h₁.trans h₂) _ _) fun _ _ h => h.elim
    · exact hreport h₁ _ _

/-- The session with a NUL behind the response, if there is room for it. -/
def Session.terminated (s : Session) : Session :=
  { s with c := { s.c with recv := (s.c.recv.reserve 1 s.heaps.transfer).2.1 },
           heaps := { s.heaps with transfer := (s.c.recv.reserve 1 s.heaps.transfer).2.2 } }

/-- The transfer has failed, or the response is too long. -/
def Overlong (rc : CurlCode) (recv : Sbuf) : Prop :=
  rc = .filesizeExceeded ∨ rc = .writeError ∨ recv.len > MONGRELDB_MAX_RESPONSE_BYTES

/-- The end of `do_request`, by the ways it can go. -/
theorem wp_receive {rc : CurlCode} {httpCode : Int} {Q : Unit → Session → Prop}
    {R : Code → Session → Prop}
    (hlong : Overlong rc s.c.recv → wp (setErrorFmt .query (ascii "response body exceeds " ++
      (intText MONGRELDB_MAX_RESPONSE_BYTES ++ ascii " bytes"))) (fun _ => R .query)
      (fun _ _ => False) s)
    (hnetwork : ∀ strerror, rc = .other strerror →
      wp (setErrorFmt .network (ascii "network error: " ++ strerror.bytes)) (fun _ => R .network)
        (fun _ _ => False) s)
    (hnomem : (s.c.recv.reserve 1 s.heaps.transfer).1 = false →
      wp (fail .nomem "out of memory reading response" : Api Unit)
        (fun _ _ => False) R s.terminated)
    (hdone : ¬Overlong rc s.c.recv → (∀ strerror, rc ≠ .other strerror) →
      (s.c.recv.reserve 1 s.heaps.transfer).1 = true →
      if httpCode < 200 ∨ httpCode ≥ 300 then wp (httpError httpCode : Api Unit) Q R s.terminated
      else Q () s.terminated) :
    wp (receive rc httpCode) Q R s := by
  -- What follows a transfer that went through: the terminator, then the status.
  have hend : ¬Overlong rc s.c.recv → (∀ strerror, rc ≠ .other strerror) → wp (do
      if !(s.c.recv.reserve 1 s.heaps.transfer).1 then fail .nomem "out of memory reading response"
      if httpCode < 200 || httpCode ≥ 300 then httpError httpCode : Api Unit) Q R s.terminated := by
    intro hshort hok
    cases hres : (s.c.recv.reserve 1 s.heaps.transfer).1 with
    | false =>
      rw [Bool.not_false, if_pos rfl, wp_bind]
      exact wp_mono (hnomem hres) (fun _ _ h => h.elim) fun _ _ h => h
    | true =>
      have h := hdone hshort hok hres
      rw [Bool.not_true, if_neg Bool.false_ne_true]
      by_cases hhttp : httpCode < 200 ∨ httpCode ≥ 300
      · rw [if_pos hhttp] at h
        rwa [if_pos (by simpa using hhttp)]
      · rw [if_neg hhttp] at h
        rw [if_neg (by simpa using hhttp)]
        exact h
  refine wp_bind.2 (wp_get.2 ?_)
  dsimp only
  by_cases hover : Overlong rc s.c.recv
  · rw [if_pos (by simpa [Overlong, or_assoc] using hover)]
    exact wp_bind.2 (wp_mono (hlong hover) (fun _ _ h => h) fun _ _ h => h.elim)
  · rw [if_neg (by simpa [Overlong, or_assoc] using hover)]
    cases rc with
    | other strerror =>
      exact wp_bind.2 (wp_mono (hnetwork strerror rfl) (fun _ _ h => h) fun _ _ h => h.elim)
    | filesizeExceeded => exact absurd (.inl rfl) hover
    | writeError => exact absurd (.inr (.inl rfl)) hover
    | ok => exact wp_bind.2 (hend hover fun _ h => by cases h)

theorem Session.terminated_quiet (s : Session) : s.Kept s.terminated ∧
    s.terminated.c.lastCode = s.c.lastCode ∧ s.terminated.c.errorMsg = s.c.errorMsg ∧
    s.terminated.c.recv.data = s.c.recv.data ∧ s.terminated.curl.sent = s.curl.sent := by
  have hres : (s.c.recv.reserve 1 s.heaps.transfer).2.1.data = s.c.recv.data ∧
      (s.c.recv.reserve 1 s.heaps.transfer).2.2.grants = s.heaps.transfer.grants := by
    rcases s.c.recv.reserve_cases 1 s.heaps.transfer with ⟨cap, h', he, -, hg⟩ | ⟨h', he, hg⟩ <;>
      exact ⟨by rw [he], by rw [he, hg]⟩
  exact ⟨⟨rfl, rfl, rfl, rfl, rfl, rfl, rfl, rfl, rfl, hres.2, rfl, rfl⟩, rfl, rfl, hres.1, rfl⟩

/-- Without an error, nothing but the room for a NUL behind the response changes. -/
theorem receive_spec (rc : CurlCode) (httpCode : Int) :
    wp (receive rc httpCode) (fun _ s' => s.Kept s' ∧ s'.c.lastCode = s.c.lastCode ∧
        s'.c.errorMsg = s.c.errorMsg ∧ s'.curl.sent = s.curl.sent)
      (fun rc s' => rc ≠ .ok ∧ s.Kept s' ∧ s'.c.lastCode = rc ∧ s'.curl.sent = s.curl.sent) s := by
  obtain ⟨hkept, hcode, hmsg, -, hsent⟩ := s.terminated_quiet
  refine wp_receive (fun _ => ?_) (fun _ _ => ?_) (fun _ => ?_) fun _ _ _ => ?_
  · refine wp_mono (setError_spec _ _) (fun _ s' h => ?_) fun _ _ h => h
    exact ⟨by decide, h.1.toKept, h.2, h.1.sent⟩
  · refine wp_mono (setError_spec _ _) (fun _ s' h => ?_) fun _ _ h => h
    exact ⟨by decide, h.1.toKept, h.2, h.1.sent⟩
  · refine wp_mono (fail_spec _ _) (fun _ _ h => h) fun rc' s' h => ?_
    obtain ⟨hrc, hq, hc⟩ := h
    exact ⟨hrc ▸ by decide, hkept.trans hq.toKept, hc, hq.sent.trans hsent⟩
  · split_ifs
    · refine wp_mono (httpError_spec httpCode) (fun _ _ h => h.elim) fun rc' s' h => ?_
      obtain ⟨hrc, hq, hc⟩ := h
      exact ⟨hrc, hkept.trans hq.toKept, hc, hq.sent.trans hsent⟩
    · exact ⟨hkept, hcode, hmsg, hsent⟩

/-! ## The request -/

/-- The session at the beginning of a request: no error, and no response. -/
def Session.cleared (s : Session) : Session :=
  { s with c := { s.c with lastCode := .ok, errorMsg := Sbuf.empty, recv := Sbuf.empty } }

/-- What libcurl does with the next request. -/
def Session.answer (s : Session) : Answer := s.curl.answers s.curl.begun

/-- The session with one more request begun. -/
def Session.begin (s : Session) : Session :=
  { s with curl := { s.curl with begun := s.curl.begun + 1 } }

theorem Session.kept_begin {s₁ : Session} (h : s.cleared.Quiet s₁) : s.Kept s₁.begin :=
  ⟨h.baseUrl, h.token, h.username, h.password, h.timeoutSeconds, h.names, h.scratch, h.body,
    h.decode, h.transfer, h.error, h.answers⟩

/-- The headers of a request, but for the authorization. -/
def plainHeaders (ans : Answer) (requestBody : Option CStr) : Option (List CStr) :=
  let headers := slistAppend ans.accept none (.lit "Accept: application/json")
  if requestBody.isSome then
    slistAppend ans.contentType headers (.lit "Content-Type: application/json")
  else headers

/-- `do_request`, part by part. -/
theorem wp_doRequest {method path : CStr} {body : Option CStr} {Q : Unit → Session → Prop}
    {R : Code → Session → Prop}
    (h : wp (buildUrl (some path)) (fun url s₁ =>
      (s₁.answer.init = false →
        wp (fail .network "curl_easy_init failed" : Api Unit) (fun _ _ => False) R s₁.begin) ∧
      (s₁.answer.init = true → wp (authorize s₁.answer (plainHeaders s₁.answer body))
        (fun x s₂ => wp (send ⟨method, url,
            if (plainHeaders s₁.answer body).isSome then x.1.getD [] else [], x.2,
            s₁.c.timeoutSeconds, body⟩ s₁.answer)
          (fun rc => wp (receive rc s₁.answer.status) Q R) R s₂) R s₁.begin))
      (fun _ _ => False) s.cleared) :
    wp (doRequest method (some path) body) Q R s := by
  refine wp_bind.2 (wp_modify.2 (wp_bind.2 (wp_mono h (fun url s₁ hpost => ?_)
    fun _ _ h => h.elim)))
  obtain ⟨hfail, hgo⟩ := hpost
  refine wp_bind.2 (wp_get.2 (wp_bind.2 (wp_modify.2 ?_)))
  cases hinit : s₁.answer.init with
  | false =>
    rw [if_pos (by rw [← Session.answer, hinit]; rfl)]
    exact wp_bind.2 (wp_mono (hfail hinit) (fun _ _ h => h.elim) fun _ _ h => h)
  | true =>
    rw [if_neg (by rw [← Session.answer, hinit]; decide)]
    refine wp_bind.2 (wp_mono (hgo hinit) (fun x s₂ h₂ => ?_) fun _ _ h => h)
    exact wp_bind.2 (wp_mono h₂ (fun _ _ h => h) fun _ _ h => h)

/-- A request from `s` to `s'` makes this one, and no other. -/
def Session.Made (s s' : Session) (method : CStr) (body : Option CStr) : Prop :=
  ∃ req : Request, req.method = method ∧ req.body = body ∧ s'.curl.sent = req :: s.curl.sent

/-- `do_request` makes one request, or fails and may have made one. -/
theorem doRequest_ends (method path : CStr) (body : Option CStr) :
    wp (doRequest method (some path) body)
      (fun _ s' => s.Kept s' ∧ s'.c.lastCode = .ok ∧ s'.c.errorMsg = Sbuf.empty ∧
        s.Made s' method body)
      (fun rc s' => rc ≠ .ok ∧ s.Kept s' ∧ s'.c.lastCode = rc ∧
        (s'.curl.sent = s.curl.sent ∨ s.Made s' method body)) s := by
  refine wp_doRequest (wp_mono (buildUrl_spec path)
    (fun url s₁ h₁ => ⟨fun _ => ?_, fun _ => ?_⟩) fun _ _ h => h)
  · have hq₁ := h₁.1
    refine wp_mono (fail_spec .network _) (fun _ _ h => h) fun rc s' hpost => ?_
    obtain ⟨hrc, hq, hcode⟩ := hpost
    exact ⟨hrc ▸ by decide, (Session.kept_begin hq₁.toQuiet).trans hq.toKept, hcode,
      .inl (hq.sent.trans hq₁.sent)⟩
  · have hq₁ := h₁.1
    have hk₁ := Session.kept_begin hq₁.toQuiet
    refine wp_mono (authorize_spec s₁.answer _) (fun x s₂ hq₂ => ?_) fun rc s' h =>
      ⟨h.1 ▸ by decide, hk₁.trans h.2.1.toKept, h.2.2, .inl (h.2.1.sent.trans hq₁.sent)⟩
    refine wp_mono (send_spec _ _) (fun rc s₃ hpost => ?_) fun _ _ h => h.elim
    obtain ⟨hk₃, hcode₃, hmsg₃, hsent₃⟩ := hpost
    -- From here on, the request is made.
    have hk : s.Kept s₃ := (hk₁.trans hq₂.toKept).trans hk₃
    have hmade : ∀ {s₄ : Session}, s₄.curl.sent = s₃.curl.sent → s.Made s₄ method body := fun h =>
      ⟨_, rfl, rfl, by rw [h, hsent₃, hq₂.sent]; exact congrArg _ hq₁.sent⟩
    refine wp_mono (receive_spec rc _) (fun _ s₄ hpost => ?_)
      fun rc' s₄ h => ⟨h.1, hk.trans h.2.1, h.2.2.1, .inr (hmade h.2.2.2)⟩
    obtain ⟨hk₄, hcode₄, hmsg₄, hsent₄⟩ := hpost
    exact ⟨hk.trans hk₄, by rw [hcode₄, hcode₃, hq₂.lastCode]; exact hq₁.lastCode,
      by rw [hmsg₄, hmsg₃, hq₂.errorMsg]; exact hq₁.errorMsg, hmade hsent₄⟩

end MongrelDB
