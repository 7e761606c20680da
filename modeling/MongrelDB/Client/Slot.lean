import MongrelDB.Client.Errors

/-!
# What the error slot tells

Behind a call the error slot should tell of that call (`Client.Tells`): it holds the
code that was returned, and a text exactly if the call has failed. A request clears
the slot at its beginning, so what it tells is decided by the text of a failure,
which is missing if there is no memory for it, or if it is empty.

* `Session.response?`: the response that is received, as far as one is.
* `Told`: the text for an HTTP error with this response is there.
* `doRequest_tells`: a request that succeeds has received a response, and a request
  that fails tells of it exactly if its text is there (`Session.Explains`).
-/

namespace MongrelDB

open Ascii Prog

/-! ## The slot -/

/-- The error slot tells of a call that has returned `rc`: of the code, and, if it is a
    failure, with a text. -/
structure Client.Tells (c : Client) (rc : Code) : Prop where
  code : c.lastCode = rc
  text : rc ≠ .ok → c.lastError.bytes ≠ []
  clear : rc = .ok → c.lastError.bytes = []

theorem Client.tells_ok {c : Client} (hcode : c.lastCode = .ok) (hmsg : c.errorMsg = Sbuf.empty) :
    c.Tells .ok where
  code := hcode
  text h := absurd rfl h
  clear _ := by rw [lastError, hmsg]; rfl

/-- A failure is told of if there is a text. -/
theorem Client.tells_iff {c : Client} {rc : Code} (hcode : c.lastCode = rc) (hrc : rc ≠ .ok) :
    c.Tells rc ↔ c.lastError.bytes ≠ [] :=
  ⟨fun h => h.text hrc, fun h => ⟨hcode, fun _ => h, fun hok => absurd hok hrc⟩⟩

/-- A first append takes one allocation, and does not happen without it. -/
theorem Sbuf.append_first (p : Bytes) (h : Heap) (hlen : p.length < SIZE_MAX) :
    (Granted h 1 ∧ ∃ h', Sbuf.empty.append p h = (true, Sbuf.empty.push p, h')) ∨
      (¬Granted h 1 ∧ ∃ h', Sbuf.empty.append p h = (false, Sbuf.empty, h')) := by
  have hasks : 0 + Sbuf.empty.asks p.length = 1 :=
    (Nat.zero_add _).trans (if_neg (Nat.not_succ_le_zero _))
  rcases append_spec (After.zero h) p with ⟨h', he, hafter⟩ | ⟨h', he, hrefused⟩
  · exact .inl ⟨hasks ▸ hafter.granted, h', he⟩
  · refine .inr ⟨fun hg => ?_, h', he⟩
    rw [← Nat.zero_add p.length] at hlen
    exact hg.not_refused (hasks ▸ hrefused hlen)

variable {s : Session}

/-- A failure is told of if its text is not empty, and there is memory for it. -/
theorem setError_tells {code : Code} (hcode : code ≠ .ok) (text : CStr)
    (hlen : text.bytes.length < SIZE_MAX) :
    wp (setError code (some text.bytes))
      (fun _ s' => s'.c.Tells code ↔ text.bytes ≠ [] ∧ Granted s.heaps.error 1)
        (fun _ _ => False) s := by
  rw [setError, wp_modify]
  rcases Sbuf.append_first text.bytes s.heaps.error hlen with ⟨hg, h', he⟩ | ⟨hg, h', he⟩
  · have hcap : (Sbuf.empty.push text.bytes).cap ≠ 0 :=
      Nat.pos_iff_ne_zero.1 (lt_of_lt_of_le (Nat.succ_pos _) (Sbuf.push_cap _ _))
    have hdata : (Sbuf.empty.push text.bytes).data = text.bytes := rfl
    simp only [he]
    rw [Client.tells_iff rfl hcode, Client.lastError, Sbuf.cstr?, if_neg hcap,
      Option.getD_some, hdata,
      CStr.at_append_nul text.noNul []]
    exact ⟨fun h => ⟨h, hg⟩, fun h => h.1⟩
  · simp only [he]
    rw [Client.tells_iff rfl hcode]
    exact ⟨fun h => absurd rfl h, fun h => absurd h.2 hg⟩

/-- A failure without a text is not told of. -/
theorem setError_none {code : Code} (hcode : code ≠ .ok) :
    wp (setError code none) (fun _ s' => ¬s'.c.Tells code) (fun _ _ => False) s :=
  fun h => h.text hcode rfl

/-- A text that is a literal of the source. -/
theorem fail_tells {α : Type} {code : Code} (hcode : code ≠ .ok) (msg : String)
    (hnul : (0 : UInt8) ∉ ascii msg) (hne : ascii msg ≠ []) (hlen : (ascii msg).length < SIZE_MAX) :
    wp (fail code msg : Api α) (fun _ _ => False)
      (fun rc s' => rc = code ∧ (s'.c.Tells rc ↔ Granted s.heaps.error 1)) s := by
  rw [fail, wp_bind]
  refine wp_mono (setError_tells hcode ⟨ascii msg, hnul⟩ hlen) (fun _ s' h => ⟨rfl, ?_⟩)
    fun _ _ h => h.elim
  exact h.trans (and_iff_right hne)

/-- A text that is formatted. -/
theorem setErrorFmt_tells {code : Code} (hcode : code ≠ .ok) (text : CStr) (hne : text.bytes ≠ []) :
    wp (setErrorFmt code text.bytes) (fun _ s' => s'.c.Tells code ↔ Granted s.heaps.error 1)
      (fun _ _ => False) s := by
  have hle : (clipText text).bytes.length ≤ 511 := List.length_take_le _ _
  have hclip : (clipText text).bytes ≠ [] := by
    cases hbytes : text.bytes with
    | nil => exact absurd hbytes hne
    | cons b bs => simp [clipText, snprintf, hbytes]
  refine wp_mono (setError_tells hcode (clipText text) (lt_of_le_of_lt hle (by decide)))
    (fun _ s' h => ?_) fun _ _ h => h
  exact h.trans (and_iff_right hclip)

/-! ## HTTP errors -/

/-- The first of some allocations, and the others. -/
theorem granted_succ {h : Heap} {k : Nat} (n : Nat) :
    Granted h (k + 1) ↔ (h.request n).1 = true ∧ Granted (h.request n).2 k := by
  have hstep : ∀ i, h.asked.length + (i + 1) = (h.request n).2.asked.length + i := fun i => by
    simp only [Heap.request, List.length_cons]
    omega
  refine ⟨fun hg => ⟨hg 0 (Nat.succ_pos k), fun i hi => ?_⟩, fun hg i hi => ?_⟩
  · rw [← hstep]
    exact hg (i + 1) (Nat.succ_lt_succ hi)
  · cases i with
    | zero => exact hg.1
    | succ i =>
      rw [hstep]
      exact hg.2 i (Nat.lt_of_succ_lt_succ hi)

theorem errorField_run {json : Bytes} {key : CStr} {found : Bool} {str : Option CStr} {h : Heap}
    (hget : jsonGetString json key s.heaps.error = .ok (found, str, h)) :
    wp (errorField json key) (fun str' s' => str' = str ∧
      s' = { s with heaps := { s.heaps with error := h } }) (fun _ _ => False) s := by
  simp only [errorField, wp_bind, wp_get]
  exact wp_lift hget ⟨rfl, rfl⟩

theorem dupStr_run (t : CStr) :
    wp (dupStr t) (fun str s' => str =
      (if (s.heaps.error.request (t.bytes.length + 1)).1 then some t else none) ∧
      s' = { s with heaps := { s.heaps with error := (s.heaps.error.request (t.bytes.length + 1)).2 } })
      (fun _ _ => False) s := ⟨rfl, rfl⟩

/-- A message without a code may be empty. -/
theorem reportedText_ne_nil {msg : CStr} {code : Option CStr} :
    (reportedText msg code).bytes ≠ [] ↔ (msg.bytes = [] → code.isSome = true) := by
  cases code with
  | none =>
    rw [reportedText, Option.isSome_none]
    exact ⟨fun h hmsg => absurd hmsg h, fun h hmsg => Bool.false_ne_true (h hmsg)⟩
  | some code =>
    refine ⟨fun _ _ => rfl, fun _ h => ?_⟩
    have hnil : (detailText msg code).bytes = [] := by
      cases htext : (detailText msg code).bytes with
      | nil => rfl
      | cons b bs => simp [reportedText, clipText, snprintf, htext] at h
    exact absurd (List.append_eq_nil_iff.1 (List.append_eq_nil_iff.1 hnil).2).1 (by decide)

/-- The text made of a message and a code is there, with `h` for its strings: a message
    that is empty has a code, and the text for a status without one is copied twice. -/
def Reported (msg code : Option CStr) (h : Heap) : Prop :=
  match msg with
  | some msg => (msg.bytes = [] → code.isSome = true) ∧ Granted h 1
  | none => Granted h 2

theorem reportError_tells {α : Type} (httpCode : Int) (msg code : Option CStr)
    (hmsg : ∀ m ∈ msg, m.bytes.length < SIZE_MAX) :
    wp (reportError httpCode msg code : Api α) (fun _ _ => False)
      (fun rc s' => s'.c.Tells rc ↔ Reported msg code s.heaps.error) s := by
  have hok := classifyHttpError_ne_ok httpCode msg
  refine wp_reportError rfl (fun m hm => ?_) fun hnone => ?_
  · subst hm
    rw [errorText_some]
    refine wp_mono (setError_tells hok _ (reportedText_length (hmsg m rfl) code))
      (fun _ s' h => ?_) fun _ _ h => h
    rw [h, reportedText_ne_nil, Reported]
  · subst hnone
    refine wp_mono (dupStr_run _) (fun m s₁ hpost => ?_) fun _ _ h => h
    obtain ⟨hm, hs₁⟩ := hpost
    subst hs₁
    rw [Reported, granted_succ (k := 1)
      ((sentinel (classifyHttpError httpCode none)).bytes.length + 1)]
    cases hg : (s.heaps.error.request
      ((sentinel (classifyHttpError httpCode none)).bytes.length + 1)).1 with
    | false =>
      rw [hm, hg, if_neg Bool.false_ne_true]
      exact wp_mono (setError_none hok)
        (fun _ s' h => ⟨fun ht => absurd ht h, fun ht => absurd ht.1 Bool.false_ne_true⟩)
        fun _ _ h => h
    | true =>
      rw [hm, hg, if_pos rfl, errorText_some]
      refine wp_mono (setError_tells hok _ (reportedText_length (sentinel_length _) code))
        (fun _ s' h => ?_) fun _ _ h => h
      have hsentinel : ∀ code, (sentinel code).bytes ≠ [] := fun code => by cases code <;> decide
      rw [h, reportedText_ne_nil]
      exact ⟨fun h => ⟨rfl, h.2⟩, fun h => ⟨fun hnil => absurd hnil (hsentinel _), h.2⟩⟩

/-- The text for an HTTP error with this response is there, with `h` for its strings: it
    is made of a message and a code, or of the response itself. -/
def Told (recv : Bytes) (h : Heap) : Prop :=
  match jsonGetString recv (.lit "message") h with
  | .ok (_, some msg, h) =>
    match jsonGetString recv (.lit "code") h with
    | .ok (_, code, h) => Reported (some msg) code h
    | .error _ => True
  | .ok (_, none, h) =>
    if recv = [] then Reported none none h
    else
      let raw := CStr.at (recv ++ [0])
      let (copied, h) := h.request (raw.bytes.length + 1)
      Reported (if copied then some raw else none) none h
  | .error _ => True

/-- An HTTP error is told of exactly if its text is there. -/
theorem httpError_tells {α : Type} (httpCode : Int) {recv : Bytes} (hrecv : s.c.recv.data = recv)
    (hlen : recv.length < SIZE_MAX) :
    wp (httpError httpCode : Api α) (fun _ _ => False)
      (fun rc s' => s'.c.Tells rc ↔ Told recv s.heaps.error) s := by
  subst hrecv
  obtain ⟨found, msg, h₁, hget, hmsg⟩ :=
    jsonGetString_ok s.c.recv.data (.lit "message") s.heaps.error
  refine wp_httpError (wp_mono (errorField_run hget) (fun msg' s₁ hfield => ?_) fun _ _ h => h.elim)
  obtain ⟨rfl, rfl⟩ := hfield
  rw [Told, hget]
  cases msg' with
  | some msg =>
    obtain ⟨found', code, h₂, hget', -⟩ := jsonGetString_ok s.c.recv.data (.lit "code") h₁
    refine wp_mono (errorField_run hget') (fun code' s₂ hfield => ?_) fun _ _ h => h.elim
    obtain ⟨rfl, rfl⟩ := hfield
    simp only [hget']
    exact reportError_tells httpCode (some msg) code' fun m hm =>
      lt_of_le_of_lt (hmsg m hm) hlen
  | none =>
    dsimp only
    -- Without a message the body is copied, unless it is empty.
    by_cases hempty : s.c.recv.data = []
    · rw [if_neg (by rw [Sbuf.len, hempty]; decide), if_pos hempty]
      exact reportError_tells httpCode none none fun _ hm =>
        absurd hm (Option.some_ne_none _).symm
    · rw [if_pos (List.length_pos_iff.2 hempty), if_neg hempty]
      refine wp_mono (dupStr_run _) (fun raw s₂ hcopy => ?_) fun _ _ h => h.elim
      obtain ⟨rfl, rfl⟩ := hcopy
      refine reportError_tells httpCode _ none fun m hm => ?_
      split_ifs at hm with hcopied
      · obtain rfl := Option.some.inj hm
        exact lt_of_le_of_lt (CStr.at_terminated_prefix _).length_le hlen
      · exact absurd hm (Option.some_ne_none _).symm

/-! ## Responses -/

/-- Whether the `Authorization` header is built for a token, and the heap behind it. -/
def bearer (token : CStr) (h : Heap) : Bool × Heap :=
  let (ok, auth, h) := Sbuf.empty.append (ascii "Authorization: Bearer ") h
  if ok then
    let (ok, _, h) := auth.append token.bytes h
    (ok, h)
  else (false, h)

/-- The heap behind the headers and the credentials of a request, if they are there. -/
def Client.authorized (c : Client) (ans : Answer) (h : Heap) : Option Heap :=
  match c.token, c.username with
  | some token, _ =>
    let (ok, h) := bearer token h
    if ok && ans.authorization then some h else none
  | none, some username =>
    some (Sbuf.empty.appendAll h [username.bytes, [colon], (orEmpty c.password).bytes]).2
  | none, none => some h

/-- A response is received, with room for a NUL behind it. -/
def Taken (rc : CurlCode) (recv : Sbuf) (h : Heap) : Prop :=
  rc = .ok ∧ recv.len ≤ MONGRELDB_MAX_RESPONSE_BYTES ∧ (recv.reserve 1 h).1 = true

instance (rc : CurlCode) (recv : Sbuf) (h : Heap) : Decidable (Taken rc recv h) :=
  inferInstanceAs (Decidable (_ ∧ _ ∧ _))

/-- The response that libcurl hands over, if all of it is received. -/
def Answer.received (ans : Answer) (h : Heap) : Option Bytes :=
  let (rc, recv, h) := perform ans ans.chunks Sbuf.empty h
  if Taken rc recv h then some recv.data else none

/-- The response to the next request, to this path, if one is received. -/
def Session.response? (s : Session) (path : CStr) : Option Bytes :=
  if s.answer.init then
    (s.c.authorized s.answer
      (Sbuf.empty.appendAll s.heaps.transfer (urlAppends s.c.baseUrl path)).2).bind
      s.answer.received
  else none

/-- The text for a failure of the next request, to this path, is there: without a
    response, there is memory for it. -/
def Session.Explains (s : Session) (path : CStr) : Prop :=
  match s.response? path with
  | none => Granted s.heaps.error 1
  | some recv => Told recv s.heaps.error

/-- The status of the next request is one of success. -/
def Session.Successful (s : Session) : Prop := 200 ≤ s.answer.status ∧ s.answer.status < 300

/-- Another heap for the URL, the headers and the response. -/
def Session.withTransfer (s : Session) (h : Heap) : Session :=
  { s with heaps := { s.heaps with transfer := h } }

theorem authHeader_tells (token : CStr) :
    wp (authHeader token)
      (fun _ s' => (bearer token s.heaps.transfer).1 = true ∧
        s' = s.withTransfer (bearer token s.heaps.transfer).2)
      (fun rc s' => (bearer token s.heaps.transfer).1 = false ∧ rc ≠ .ok ∧
        (s'.c.Tells rc ↔ Granted s.heaps.error 1)) s := by
  rcases happ : Sbuf.empty.append
    (ascii "Authorization: Bearer ") s.heaps.transfer with ⟨ok, auth, h⟩
  simp only [authHeader, bearer, wp_bind, wp_get, happ, wp_modify]
  -- Both appends fail in the same way.
  have hfail : ∀ h, wp (fail .nomem "out of memory building auth header" : Api Unit)
    (fun _ _ => False)
      (fun rc s' => rc ≠ .ok ∧ (s'.c.Tells rc ↔ Granted s.heaps.error 1))
      (s.withTransfer h) := fun h =>
    wp_mono (fail_tells (by decide) _ (by decide) (by decide) (by decide)) (fun _ _ h => h)
      fun rc s' h => ⟨h.1 ▸ by decide, h.2⟩
  cases ok with
  | false =>
    rw [if_neg Bool.false_ne_true, if_neg Bool.false_ne_true, Bool.not_false, if_pos rfl, wp_bind]
    exact wp_mono (hfail h) (fun _ _ h => h.elim) fun rc s' h => ⟨rfl, h⟩
  | true =>
    rcases happ' : auth.append token.bytes h with ⟨ok', auth', h'⟩
    rw [if_pos rfl, if_pos rfl]
    cases ok' with
    | false =>
      rw [Bool.not_false, if_pos rfl, wp_bind]
      exact wp_mono (hfail h') (fun _ _ h => h.elim) fun rc s' h => ⟨rfl, h⟩
    | true => exact ⟨rfl, rfl⟩

theorem authorize_tells (ans : Answer) (headers : Option (List CStr)) :
    wp (authorize ans headers)
      (fun _ s' => ∃ h, s.c.authorized ans s.heaps.transfer = some h ∧ s' = s.withTransfer h)
      (fun rc s' => s.c.authorized ans s.heaps.transfer = none ∧ rc ≠ .ok ∧
        (s'.c.Tells rc ↔ Granted s.heaps.error 1)) s := by
  simp only [authorize, wp_bind, wp_get, Client.authorized]
  cases s.c.token with
  | some token =>
    dsimp only
    refine wp_bind.2 (wp_mono (authHeader_tells token) (fun auth s' hheader => ?_)
      fun rc s' h => ⟨by rw [h.1]; rfl, h.2⟩)
    obtain ⟨hok, rfl⟩ := hheader
    rw [hok, Bool.true_and]
    cases ans.authorization with
    | true => exact ⟨_, rfl, rfl⟩
    | false =>
      exact wp_mono (fail_tells (by decide) _ (by decide) (by decide) (by decide))
        (fun _ _ h => h.elim)
        fun rc s' h => ⟨rfl, h.1 ▸ by decide, h.2⟩
  | none =>
    cases s.c.username with
    | some username => exact ⟨_, rfl, rfl⟩
    | none => exact ⟨_, rfl, rfl⟩

/-- The end of a request, behind the transfer, tells of a failure exactly if the text for it is
    there. -/
theorem receive_tells (rc : CurlCode) (httpCode : Int) :
    wp (receive rc httpCode)
      (fun _ s' => Taken rc s.c.recv s.heaps.transfer ∧ (200 ≤ httpCode ∧ httpCode < 300) ∧
        s'.c.recv.data = s.c.recv.data)
      (fun rc' s' =>
        Taken rc s.c.recv s.heaps.transfer ∧ ¬(200 ≤ httpCode ∧ httpCode < 300) ∧
            (s'.c.Tells rc' ↔ Told s.c.recv.data s.heaps.error) ∨
          ¬Taken rc s.c.recv s.heaps.transfer ∧ (s'.c.Tells rc' ↔ Granted s.heaps.error 1)) s := by
  have hmax : MONGRELDB_MAX_RESPONSE_BYTES < SIZE_MAX := by decide
  obtain ⟨-, -, -, hdata, -⟩ := s.terminated_quiet
  refine wp_receive (fun hlong => ?_) (fun strerror hrc => ?_) (fun hnomem => ?_)
    fun hshort hok hres => ?_
  · have hno : ¬Taken rc s.c.recv s.heaps.transfer := fun htaken => by
      obtain ⟨hok, hle, -⟩ := htaken
      rcases hlong with hrc | hrc | hlt
      · cases hrc.symm.trans hok
      · cases hrc.symm.trans hok
      · exact absurd hle (not_le.2 hlt)
    exact wp_mono (setErrorFmt_tells (by decide) ⟨_, by decide⟩ (by decide))
      (fun _ s' h => .inr ⟨hno, h⟩) fun _ _ h => h
  · have hno : ¬Taken rc s.c.recv s.heaps.transfer := fun h => by cases hrc.symm.trans h.1
    have hnul : (0 : UInt8) ∉ ascii "network error: " ++ strerror.bytes := by
      simp +decide [strerror.noNul]
    exact wp_mono (setErrorFmt_tells (by decide) ⟨_, hnul⟩ (by simp +decide))
      (fun _ s' h => .inr ⟨hno, h⟩) fun _ _ h => h
  · have hno : ¬Taken rc s.c.recv s.heaps.transfer := fun h =>
      Bool.false_ne_true (hnomem.symm.trans h.2.2)
    exact wp_mono (fail_tells (by decide) _ (by decide) (by decide) (by decide)) (fun _ _ h => h)
      fun rc' s' h => .inr ⟨hno, h.2⟩
  · have htaken : Taken rc s.c.recv s.heaps.transfer := by
      refine ⟨?_, not_lt.1 fun hlt => hshort (.inr (.inr hlt)), hres⟩
      cases rc with
      | ok => rfl
      | filesizeExceeded => exact absurd (.inl rfl) hshort
      | writeError => exact absurd (.inr (.inl rfl)) hshort
      | other strerror => exact absurd rfl (hok strerror)
    split_ifs with hhttp
    · have hlen : s.terminated.c.recv.data.length < SIZE_MAX :=
        lt_of_le_of_lt (hdata ▸ htaken.2.1) hmax
      refine wp_mono (httpError_tells httpCode hdata (hdata ▸ hlen)) (fun _ _ h => h.elim)
        fun rc' s' h => .inl ⟨htaken, by omega, h⟩
    · exact ⟨htaken, by omega, hdata⟩

theorem send_run (req : Request) (ans : Answer) :
    wp (send req ans) (fun rc s' =>
      perform ans ans.chunks s.c.recv s.heaps.transfer = (rc, s'.c.recv, s'.heaps.transfer) ∧
        s'.heaps.error = s.heaps.error) (fun _ _ => False) s := ⟨rfl, rfl⟩

/-- A request that succeeds has received its response, and a request that fails tells of it
    exactly if the text is there. -/
theorem doRequest_tells (method path : CStr) (body : Option CStr) :
    wp (doRequest method (some path) body)
      (fun _ s' => s.response? path = some s'.c.recv.data ∧ s.Successful)
      (fun rc s' => ¬((s.response? path).isSome = true ∧ s.Successful) ∧
        (s'.c.Tells rc ↔ s.Explains path)) s := by
  have hurl : wp (buildUrl (some path)) (fun _ s₁ => s₁ = s.cleared.withTransfer
      (Sbuf.empty.appendAll s.heaps.transfer (urlAppends s.c.baseUrl path)).2) (fun _ _ => False)
      s.cleared := rfl
  refine wp_doRequest (wp_mono hurl (fun url s₁ hs₁ => ?_) fun _ _ h => h)
  subst hs₁
  -- Without a handle there is no response, and the failure sets the slot.
  refine ⟨fun hinit => ?_, fun hinit => ?_⟩
  · have hnone : s.response? path = none :=
      if_neg (by rw [Session.answer]; exact hinit ▸ Bool.false_ne_true)
    rw [hnone, Session.Explains, hnone]
    exact wp_mono (fail_tells (by decide) _ (by decide) (by decide) (by decide)) (fun _ _ h => h)
      fun rc s' h => ⟨fun h => Bool.false_ne_true h.1, h.2⟩
  · have hresp : s.response? path = (s.c.authorized s.answer
        (Sbuf.empty.appendAll s.heaps.transfer (urlAppends s.c.baseUrl path)).2).bind
        s.answer.received :=
      if_pos hinit
    refine wp_mono (authorize_tells _ _) (fun x s₂ hends => ?_) fun rc s' hends => ?_
    · obtain ⟨h, hauth, rfl⟩ := hends
      have hrecv : s.response? path = s.answer.received h :=
        hresp.trans (congrArg (Option.bind · _) hauth)
      refine wp_mono (send_run _ _) (fun rc s₃ hsent => ?_) fun _ _ h => h.elim
      obtain ⟨hperform, herror⟩ := hsent
      -- What is received is what the transfer left, if the terminator found room.
      have htaken : s.response? path =
          if Taken rc s₃.c.recv s₃.heaps.transfer then some s₃.c.recv.data else none := by
        have hperform : perform s.answer s.answer.chunks Sbuf.empty h = _ := hperform
        rw [hrecv, Answer.received, hperform]
      refine wp_mono (receive_tells rc _) (fun _ s' htaken' => ?_) fun rc' s' h => ?_
      · obtain ⟨hyes, hok, hdata⟩ := htaken'
        rw [htaken, if_pos hyes, hdata]
        exact ⟨rfl, hok⟩
      · rw [Session.Explains, htaken]
        rcases h with ⟨hyes, hno, h⟩ | ⟨hno, h⟩
        · rw [if_pos hyes]
          exact ⟨fun h => hno h.2, herror ▸ h⟩
        · rw [if_neg hno]
          exact ⟨fun h => Bool.false_ne_true h.1, herror ▸ h⟩
    · obtain ⟨hauth, -, h⟩ := hends
      have hnone : s.response? path = none := hresp.trans (congrArg (Option.bind · _) hauth)
      rw [Session.Explains, hnone]
      exact ⟨fun h => Bool.false_ne_true h.1, h⟩

end MongrelDB
