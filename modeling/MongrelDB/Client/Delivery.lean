import MongrelDB.Client.Request

/-!
# Delivered requests

If allocations succeed, and libcurl takes a request (`Session.Ready`), exactly one
request is made, to the URL of its path (`doRequest_ready`). If libcurl also hands
over a response (`Answer.Delivers`), it is what the client has received
(`wp_doRequest_delivers`).
-/

namespace MongrelDB

open Ascii Prog

/-! ## Strings in buffers -/

/-- All the pieces, as a string, if no append fails. -/
theorem Sbuf.cstr?_appendAll {h : Heap} {ps : Appends} (hfit : AppendsFit h ps) (hne : ps ≠ [])
    (hnul : (0 : UInt8) ∉ ps.flatten) :
    (Sbuf.empty.appendAll h ps).1.cstr? = some ⟨ps.flatten, hnul⟩ := by
  have hdata : (Sbuf.empty.pushAll ps).data = ps.flatten := Sbuf.pushAll_data _ ps
  rw [hfit.appendAll, Sbuf.cstr?, if_neg (Sbuf.pushAll_cap hne _), hdata]
  exact congrArg some (CStr.at_self ⟨_, hnul⟩ [])

/-- The string at a buffer is all of it, if there is no NUL inside. -/
theorem Sbuf.bytes_of_cstr? {s : Sbuf} (hnul : (0 : UInt8) ∉ s.data) {t : CStr}
    (ht : s.cstr? = some t) :
    t.bytes = s.data := by
  rw [cstr?] at ht
  split_ifs at ht with hcap
  rw [← Option.some.inj ht]
  exact CStr.at_append_nul hnul []

/-- If an append fails, the string is another one. -/
theorem Sbuf.cstr?_ne {h : Heap} {ps : Appends} (hfit : ¬AppendsFit h ps)
    (hfirst : ps.head? ≠ some [])
    (hnul : (0 : UInt8) ∉ ps.flatten) :
    (Sbuf.empty.appendAll h ps).1.cstr? ≠ some ⟨ps.flatten, hnul⟩ := fun hbody => by
  have hdata : (0 : UInt8) ∉ (Sbuf.empty.appendAll h ps).1.data :=
    fun hc => hnul (Sbuf.mem_appendAll hc)
  exact hfit (AppendsFit.of_complete hfirst (Sbuf.bytes_of_cstr? hdata hbody).symm)

/-! ## In front of the transfer -/

/-- The URL of a path. -/
def urlOf (baseUrl path : CStr) : CStr where
  bytes := (urlAppends baseUrl path).flatten
  noNul := by
    rw [urlAppends]
    split_ifs <;> simp +decide [baseUrl.noNul, path.noNul]

/-- Nothing fails in front of the transfer of a request to this path. -/
structure Session.Ready (s : Session) (path : CStr) : Prop where
  transfer : s.heaps.transfer.Succeeds
  init : s.answer.init = true
  authorization : s.c.token.isSome = true → s.answer.authorization = true
  path : (urlOf s.c.baseUrl path).bytes.length < SIZE_MAX
  token : ∀ token ∈ s.c.token, token.bytes.length + 22 < SIZE_MAX

/-- The allocations for bodies do not matter to a request. -/
theorem Session.Ready.withBody {s : Session} {path : CStr} (hs : s.Ready path) (H : Heap) :
    Session.Ready { s with heaps := { s.heaps with body := H } } path :=
  ⟨hs.transfer, hs.init, hs.authorization, hs.path, hs.token⟩

/-- A session right in front of the transfer. -/
structure Session.Prepared (s s' : Session) : Prop extends s.Kept s' where
  lastCode : s'.c.lastCode = .ok
  errorMsg : s'.c.errorMsg = Sbuf.empty
  recv : s'.c.recv = Sbuf.empty
  sent : s'.curl.sent = s.curl.sent

variable {s : Session} {path : CStr}

/-- The pieces of a body are appended, and nothing else happens. -/
theorem bodyAppends_spec (ps : Appends) :
    wp (bodyAppends ps) (fun text s' => text = (Sbuf.empty.appendAll s.heaps.body ps).1.cstr? ∧
      s' = { s with heaps := { s.heaps with body := (Sbuf.empty.appendAll s.heaps.body ps).2 } })
      (fun _ _ => False) s := ⟨rfl, rfl⟩

/-- The `Authorization` header is built. -/
theorem authHeader_ready {token : CStr} (hs : s.heaps.transfer.Succeeds)
    (hfit : token.bytes.length + 22 < SIZE_MAX) :
    wp (authHeader token) (fun _ s' => s.Silent s') (fun _ _ => False) s := by
  have hbearer : (ascii "Authorization: Bearer ").length = 22 := rfl
  obtain ⟨cap, h, he, hs₁⟩ := Sbuf.empty.append_of_succeeds hs (p := ascii "Authorization: Bearer ")
    (by simp only [Sbuf.empty, Sbuf.len, List.length_nil, hbearer]; omega)
  obtain ⟨cap', h', he', hs₂⟩ := Sbuf.append_of_succeeds
    ⟨Sbuf.empty.data ++ ascii "Authorization: Bearer ", cap⟩ hs₁ (p := token.bytes) (by
      simp only [Sbuf.empty, Sbuf.len, List.nil_append, hbearer]
      omega)
  have hgrants : h'.grants = s.heaps.transfer.grants := funext fun n => (hs₂ n).trans (hs n).symm
  simp only [authHeader, wp_bind, wp_get, he, if_true, he', wp_modify]
  exact s.silent_transfer hgrants

theorem authorize_ready (hs : s.heaps.transfer.Succeeds)
    (htoken : ∀ token ∈ s.c.token, token.bytes.length + 22 < SIZE_MAX) {ans : Answer}
    (hans : s.c.token.isSome = true → ans.authorization = true) (headers : Option (List CStr)) :
    wp (authorize ans headers) (fun _ s' => s.Silent s') (fun _ _ => False) s := by
  simp only [authorize, wp_bind, wp_get]
  cases ht : s.c.token with
  | some token =>
    refine wp_seq (authHeader_ready hs (htoken token ht)) fun auth s' hq => ?_
    rw [slistAppend, hans (by rw [ht]; rfl)]
    exact hq
  | none =>
    cases s.c.username with
    | none => exact Session.Silent.refl s
    | some username =>
      rw [wp_bind]
      exact wp_mono (transferAppends_spec _) (fun _ s' h => h.1) fun _ _ h => h

/-- What is in front of the transfer does not fail. -/
theorem wp_doRequest_ready (hs : s.Ready path) {method : CStr} {body : Option CStr}
    {Q : Unit → Session → Prop} {R : Code → Session → Prop}
    (h : ∀ headers userpwd s₂, s.Prepared s₂ →
      wp (send ⟨method, some (urlOf s.c.baseUrl path), headers, userpwd, s.c.timeoutSeconds, body⟩
        s.answer) (fun rc => wp (receive rc s.answer.status) Q R) R s₂) :
    wp (doRequest method (some path) body) Q R s := by
  refine wp_doRequest (wp_mono (buildUrl_spec path) (fun url s₁ hpost => ?_) fun _ _ h => h)
  obtain ⟨hq₁, hurl⟩ := hpost
  have hurl' : url = some (urlOf s.c.baseUrl path) := by
    rw [hurl]
    refine Sbuf.cstr?_appendAll ⟨hs.transfer.granted _, hs.path⟩ ?_ (urlOf s.c.baseUrl path).noNul
    rw [urlAppends]
    split_ifs <;> exact List.cons_ne_nil _ _
  have hanswer : s₁.answer = s.answer := by
    rw [Session.answer, Session.answer, hq₁.answers, hq₁.begun]
    rfl
  have htransfer : s₁.begin.heaps.transfer.Succeeds := fun n =>
    (congrFun hq₁.transfer n).trans (hs.transfer n)
  have htoken : s₁.begin.c.token = s.c.token := hq₁.token
  rw [hanswer, hs.init]
  refine ⟨fun h => absurd h.symm Bool.false_ne_true, fun _ => ?_⟩
  refine wp_mono (authorize_ready htransfer (fun token ht => hs.token token (htoken ▸ ht))
    (fun ht => hs.authorization (htoken ▸ ht)) _) (fun x s₂ hq₂ => ?_) fun _ _ h => h.elim
  have htimeout : s₁.c.timeoutSeconds = s.c.timeoutSeconds := hq₁.timeoutSeconds
  rw [hurl', htimeout]
  refine h _ _ s₂ ⟨(Session.kept_begin hq₁.toQuiet).trans hq₂.toKept, ?_, ?_, ?_, ?_⟩
  · exact hq₂.lastCode.trans hq₁.lastCode
  · exact hq₂.errorMsg.trans hq₁.errorMsg
  · exact hq₂.recv.trans hq₁.recv
  · exact hq₂.sent.trans hq₁.sent

/-- From `s` to `s'`, exactly this request is made. -/
def Session.Sends (s s' : Session) (method path : CStr) (body : Option CStr) : Prop :=
  ∃ headers userpwd, s'.curl.sent = ⟨method, some (urlOf s.c.baseUrl path), headers, userpwd,
    s.c.timeoutSeconds, body⟩ :: s.curl.sent

/-- This request is made, and what a request leaves alone is kept. -/
structure Session.Requested (s s' : Session) (method path : CStr) (requestBody : Option CStr) : Prop
    extends s.Kept s' where
  sent : s.Sends s' method path requestBody

/-- If nothing fails in front of the transfer, exactly one request is made. -/
theorem doRequest_ready (hs : s.Ready path) (method : CStr) (body : Option CStr) :
    wp (doRequest method (some path) body)
      (fun _ s' => s.Requested s' method path body)
      (fun rc s' => rc ≠ .ok ∧ s.Requested s' method path body) s := by
  refine wp_doRequest_ready hs fun headers userpwd s₂ h₂ => ?_
  refine wp_mono (send_spec _ _) (fun rc s₃ hpost => ?_) fun _ _ h => h.elim
  obtain ⟨hk₃, -, -, hsent₃⟩ := hpost
  have hmade : ∀ {s₄ : Session}, s₃.Kept s₄ → s₄.curl.sent = s₃.curl.sent →
      s.Requested s₄ method path body := fun hk₄ hsent₄ =>
    ⟨(h₂.toKept.trans hk₃).trans hk₄, headers, userpwd, by rw [hsent₄, hsent₃, h₂.sent]⟩
  exact wp_mono (receive_spec rc _) (fun _ s₄ h => hmade h.1 h.2.2.2)
    fun rc' s₄ h => ⟨h.1, hmade h.2.1 h.2.2.2⟩

/-! ## The response -/

/-- libcurl hands over this response, in any parts. -/
structure Answer.Delivers (ans : Answer) (recv : Bytes) : Prop where
  chunks : ans.chunks.flatten = recv
  result : ans.result = .ok
  short : recv.length ≤ MONGRELDB_MAX_RESPONSE_BYTES

theorem writeCb_succeeds (p : Bytes) (out : Sbuf) {h : Heap} (hs : h.Succeeds)
    (hshort : out.len + p.length ≤ MONGRELDB_MAX_RESPONSE_BYTES) :
    ∃ cap h', writeCb p out h = (p.length, ⟨out.data ++ p, cap⟩, h') ∧ h'.Succeeds := by
  have hmax : MONGRELDB_MAX_RESPONSE_BYTES < SIZE_MAX := by decide
  obtain ⟨cap, h', he, hs'⟩ := out.append_of_succeeds hs (p := p) (by omega)
  refine ⟨cap, h', ?_, hs'⟩
  have hfits : (out.len > MONGRELDB_MAX_RESPONSE_BYTES ||
      p.length > MONGRELDB_MAX_RESPONSE_BYTES - out.len : Bool) = false := by
    simp only [Bool.or_eq_false_iff, decide_eq_false_iff_not]
    omega
  rw [writeCb, hfits, he]
  rfl

/-- All the parts of a short response are taken. -/
theorem perform_delivers (ans : Answer) (ps : List Bytes) (out : Sbuf) {h : Heap} (hs : h.Succeeds)
    (hshort : out.len + ps.flatten.length ≤ MONGRELDB_MAX_RESPONSE_BYTES) :
    ∃ cap h', perform ans ps out h = (ans.result, ⟨out.data ++ ps.flatten, cap⟩, h') ∧
      h'.Succeeds := by
  induction ps generalizing out h with
  | nil => exact ⟨out.cap, h, by rw [perform, List.flatten_nil, List.append_nil], hs⟩
  | cons p ps ih =>
    rw [List.flatten_cons, List.length_append] at hshort
    obtain ⟨cap, h₁, hcb, hs₁⟩ := writeCb_succeeds p out hs (by omega)
    obtain ⟨cap', h', hrest, hs'⟩ := ih ⟨out.data ++ p, cap⟩ hs₁ (by
      simp only [Sbuf.len, List.length_append] at hshort ⊢
      omega)
    refine ⟨cap', h', ?_, hs'⟩
    rw [perform, hcb]
    simp only [ne_eq, not_true_eq_false, if_false, hrest, List.flatten_cons, List.append_assoc]

/-- A response that is handed over is received. -/
theorem send_delivers (hs : s.heaps.transfer.Succeeds) (hrecv : s.c.recv = Sbuf.empty)
    {ans : Answer}
    {recv : Bytes} (hd : ans.Delivers recv) (req : Request) :
    wp (send req ans) (fun rc s' => rc = .ok ∧ s.Kept s' ∧ s'.c.lastCode = s.c.lastCode ∧
      s'.c.errorMsg = s.c.errorMsg ∧ s'.c.recv.data = recv ∧ s'.curl.sent = req :: s.curl.sent)
      (fun _ _ => False) s := by
  have hempty : s.c.recv.len = 0 := by rw [hrecv]; rfl
  obtain ⟨cap, h', hperform, hs'⟩ := perform_delivers ans ans.chunks s.c.recv hs
    (by rw [hempty, hd.chunks]; simpa using hd.short)
  have hdata : s.c.recv.data ++ ans.chunks.flatten = recv := by rw [hrecv, hd.chunks]; rfl
  have hgrants : h'.grants = s.heaps.transfer.grants := funext fun n => (hs' n).trans (hs n).symm
  rw [hdata, hd.result] at hperform
  simp only [send, wp_bind, wp_get, hperform, wp_modify, wp_pure]
  exact ⟨trivial, ⟨rfl, rfl, rfl, rfl, rfl, rfl, rfl, rfl, rfl, hgrants, rfl, rfl⟩,
    trivial, trivial,
    trivial, trivial⟩

/-- A short response gets its NUL, and its status decides. -/
theorem receive_delivers (hs : s.heaps.transfer.Succeeds)
    (hshort : s.c.recv.len ≤ MONGRELDB_MAX_RESPONSE_BYTES) {httpCode : Int}
    {Q : Unit → Session → Prop} {R : Code → Session → Prop}
    (h : if httpCode < 200 ∨ httpCode ≥ 300 then wp (httpError httpCode : Api Unit) Q R s.terminated
      else Q () s.terminated) :
    wp (receive .ok httpCode) Q R s := by
  have hmax : MONGRELDB_MAX_RESPONSE_BYTES + 1 < SIZE_MAX := by decide
  have hroom : s.c.recv.len + 1 < SIZE_MAX := by omega
  obtain ⟨cap, h', he, -, -⟩ := s.c.recv.reserve_of_succeeds hs hroom
  refine wp_receive (fun hover => ?_) (fun _ h => by cases h) (fun hno => ?_) fun _ _ _ => h
  · rcases hover with hrc | hrc | hlong
    · cases hrc
    · cases hrc
    · exact absurd hlong (not_lt.2 hshort)
  · rw [he] at hno
    exact absurd hno.symm Bool.false_ne_true

/-- From `s` to `s'`, exactly this request is made, and this is its response. -/
structure Session.Received (s s' : Session) (method path : CStr) (requestBody : Option CStr)
    (response : Bytes) : Prop extends s.Requested s' method path requestBody where
  lastCode : s'.c.lastCode = .ok
  errorMsg : s'.c.errorMsg = Sbuf.empty
  recv : s'.c.recv.data = response

/-- A request with a response: its status decides how it ends. -/
theorem wp_doRequest_delivers (hs : s.Ready path) {recv : Bytes} (hd : s.answer.Delivers recv)
    {method : CStr} {body : Option CStr} {Q : Unit → Session → Prop} {R : Code → Session → Prop}
    (h : ∀ s', s.Received s' method path body recv →
      if s.answer.status < 200 ∨ s.answer.status ≥ 300 then
        wp (httpError s.answer.status : Api Unit) Q R s'
      else Q () s') :
    wp (doRequest method (some path) body) Q R s := by
  refine wp_doRequest_ready hs fun headers userpwd s₂ h₂ => ?_
  have hsucceeds : s₂.heaps.transfer.Succeeds := fun n =>
    (congrFun h₂.transfer n).trans (hs.transfer n)
  refine wp_mono (send_delivers hsucceeds h₂.recv hd _)
    (fun rc s₃ hpost => ?_) fun _ _ h => h.elim
  obtain ⟨hrc, hk₃, hcode₃, hmsg₃, hrecv₃, hsent₃⟩ := hpost
  subst hrc
  obtain ⟨hk₄, hcode₄, hmsg₄, hrecv₄, hsent₄⟩ := s₃.terminated_quiet
  refine receive_delivers (fun n => (congrFun hk₃.transfer n).trans (hsucceeds n))
    (by rw [Sbuf.len, hrecv₃]; exact hd.short)
    (h _ ⟨⟨(h₂.toKept.trans hk₃).trans hk₄, headers, userpwd,
      by rw [hsent₄, hsent₃, h₂.sent]⟩, ?_, ?_, hrecv₄.trans hrecv₃⟩)
  · rw [hcode₄, hcode₃, h₂.lastCode]
  · rw [hmsg₄, hmsg₃, h₂.errorMsg]

/-- The next request to this path is answered with success, and this response. -/
structure Session.Answered (s : Session) (path : CStr) (recv : Bytes) : Prop where
  ready : s.Ready path
  delivers : s.answer.Delivers recv
  success : 200 ≤ s.answer.status ∧ s.answer.status < 300

/-- A request that is answered with success ends normally. -/
theorem doRequest_answered {recv : Bytes} (h : s.Answered path recv) (method : CStr)
    (body : Option CStr) :
    wp (doRequest method (some path) body) (fun _ s' => s.Received s' method path body recv)
      (fun _ _ => False) s := by
  refine wp_doRequest_delivers h.ready h.delivers fun s' h' => ?_
  rw [if_neg (by have := h.success; omega)]
  exact h'

/-! ## Connections -/

/-- A client that has just connected, without credentials, and with memory for everything. -/
def Session.connected (answers : Nat → Answer) : Session where
  c := { baseUrl := .lit "http://127.0.0.1:8453", token := none, username := none, password := none,
         timeoutSeconds := 30, recv := Sbuf.empty, errorMsg := Sbuf.empty, names := .freed,
         scratch := .freed, lastCode := .ok }
  heaps := ⟨.unlimited, .unlimited, .unlimited, .unlimited⟩
  curl := ⟨answers, 0, []⟩

/-- An answer with this status and response. -/
def Answer.of (status : Int) (recv : Bytes) : Answer :=
  ⟨true, true, true, true, [recv], .ok, status⟩

theorem Session.connected_ready {answers : Nat → Answer} (hinit : (answers 0).init = true)
    (path : CStr) (hpath : path.bytes.length ≤ MONGRELDB_MAX_RESPONSE_BYTES) :
    (Session.connected answers).Ready path where
  transfer := Heap.unlimited_succeeds
  init := hinit
  authorization := fun h => absurd h Bool.false_ne_true
  path := by
    have hmax : MONGRELDB_MAX_RESPONSE_BYTES + 100 < SIZE_MAX := by decide
    have hbase : (ascii "http://127.0.0.1:8453").length = 21 := rfl
    simp only [urlOf, urlAppends, connected, CStr.lit]
    split_ifs <;> simp only [List.flatten_cons, List.flatten_nil, List.length_append,
      List.length_nil, List.length_cons, hbase] <;> omega
  token := fun _ h => by cases h

/-- A client that has just connected, and this heap for bodies. -/
def Session.refusing (H : Heap) : Session :=
  { Session.connected fun _ => .of 200 [] with heaps := ⟨H, .unlimited, .unlimited, .unlimited⟩ }

/-- A first request that is answered with success. -/
theorem Session.connected_answered (path : CStr) (recv : Bytes)
    (hpath : path.bytes.length ≤ MONGRELDB_MAX_RESPONSE_BYTES)
    (hrecv : recv.length ≤ MONGRELDB_MAX_RESPONSE_BYTES) :
    (Session.connected fun _ => .of 200 recv).Answered path recv where
  ready := Session.connected_ready rfl path hpath
  delivers := ⟨List.flatten_singleton, rfl, hrecv⟩
  success := by
    change (200 : Int) ≤ 200 ∧ (200 : Int) < 300
    decide

end MongrelDB
