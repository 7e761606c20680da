import MongrelDB.Client.Slot

/-!
# Intact requests

The request that is meant (`Client.request`), and the one that is made
(`Session.sends?`): no append to the URL or the credentials is looked at, and of the
appends to the list of headers only the one of the authorization. If memory is short,
a request may thus be made that is not the one meant:

* `made_eq_request_iff`: it is the one meant exactly if no append to the URL, to the
  credentials or to the headers fails (`Session.Intact`), for a base URL and a user name that
  are not empty;
* `made_authorized_iff`: with a token, it is authorized exactly if the last append to the
  headers in front of the authorization succeeds. libcurl is given the list as it is then,
  and an empty one is not the one the authorization is appended to.
-/

namespace MongrelDB

open Ascii Prog

/-! ## The request that is meant -/

/-- The header for a token. -/
def bearerHeader (token : CStr) : CStr where
  bytes := ascii "Authorization: Bearer " ++ token.bytes
  noNul h := (List.mem_append.1 h).elim (absurd · (by decide)) token.noNul

/-- The pieces of the credentials. -/
def userpwdAppends (username : CStr) (password : Option CStr) : Appends :=
  [username.bytes, [colon], (orEmpty password).bytes]

/-- The credentials of a user. -/
def userpwdOf (username : CStr) (password : Option CStr) : CStr where
  bytes := (userpwdAppends username password).flatten
  noNul := by simp +decide [userpwdAppends, username.noNul, (orEmpty password).noNul]

/-- The headers of a request. -/
def headersOf (token requestBody : Option CStr) : List CStr :=
  .lit "Accept: application/json" ::
    ((if requestBody.isSome then [.lit "Content-Type: application/json"] else []) ++
      (token.map bearerHeader).toList)

/-- The request that is meant. -/
def Client.request (c : Client) (method path : CStr) (requestBody : Option CStr) : Request where
  method := method
  url := some (urlOf c.baseUrl path)
  headers := headersOf c.token requestBody
  userpwd := if c.token.isSome then none else c.username.map (userpwdOf · c.password)
  timeout := c.timeoutSeconds
  body := requestBody

/-! ## The request that is made -/

/-- The URL as it is built, and the heap behind it. -/
def Session.buildsUrl (s : Session) (path : CStr) : Option CStr × Heap :=
  let (buf, transfer) := Sbuf.empty.appendAll s.heaps.transfer (urlAppends s.c.baseUrl path)
  (buf.cstr?, transfer)

/-- The credentials as they are built. -/
def Session.buildsUserpwd (s : Session) (path : CStr) : Option CStr :=
  if s.c.token.isSome then none else s.c.username.bind fun username =>
    (Sbuf.empty.appendAll (s.buildsUrl path).2 (userpwdAppends username s.c.password)).1.cstr?

/-- The request as it is built. -/
def Session.made (s : Session) (method path : CStr) (requestBody : Option CStr) : Request where
  method := method
  url := (s.buildsUrl path).1
  headers := (plainHeaders s.answer requestBody).elim [] (· ++ (s.c.token.map bearerHeader).toList)
  userpwd := s.buildsUserpwd path
  timeout := s.c.timeoutSeconds
  body := requestBody

/-- The request that is made, unless something fails in front of it that is looked at. -/
def Session.sends? (s : Session) (method path : CStr) (requestBody : Option CStr) :
    Option Request :=
  if s.answer.init && (s.c.authorized s.answer (s.buildsUrl path).2).isSome then
    some (s.made method path requestBody)
  else none

variable {s : Session}

/-- The header for a token is the one that is meant, or there is none. -/
theorem authHeader_value (token : CStr) :
    wp (authHeader token) (fun auth s' => auth = bearerHeader token ∧ s.Silent s')
      (fun rc s' => rc = .nomem ∧ s.Quiet s' ∧ s'.c.lastCode = rc) s := by
  have hvalue : wp (authHeader token) (fun auth _ => auth = bearerHeader token)
      (fun _ _ => True) s := by
    have hfail : ∀ {s₁ : Session}, wp (fail .nomem "out of memory building auth header" : Api Unit)
        (fun _ _ => False) (fun _ _ => True) s₁ := fun {s₁} =>
      wp_mono (fail_spec (s := s₁) .nomem _) (fun _ _ h => h) fun _ _ _ => trivial
    simp only [authHeader, wp_bind, wp_get]
    -- The prefix and the token are appended one after the other, and each may be refused.
    rcases Sbuf.empty.reserve_cases (ascii "Authorization: Bearer ").length s.heaps.transfer with
      ⟨cap, h₁, he₁, -, -⟩ | ⟨h₁, he₁, -⟩
    · simp only [Sbuf.append, he₁, if_true, wp_modify]
      generalize hauth : (⟨Sbuf.empty.data ++ ascii "Authorization: Bearer ", cap⟩ : Sbuf) = auth
      have hdata : auth.data = ascii "Authorization: Bearer " := by rw [← hauth]; rfl
      rcases auth.reserve_cases token.bytes.length h₁ with ⟨cap', h₂, he₂, -, -⟩ | ⟨h₂, he₂, -⟩
      · simp only [he₂, if_true, Bool.not_true, Bool.false_eq_true, if_false, wp_pure]
        rw [hdata]
        exact CStr.at_self (bearerHeader token) []
      · simp only [he₂, Bool.false_eq_true, if_false, Bool.not_false, if_true, wp_bind]
        exact wp_mono hfail (fun _ _ h => h.elim) fun _ _ _ => trivial
    · simp only [Sbuf.append, he₁, Bool.false_eq_true, if_false, wp_modify, Bool.not_false, if_true,
        wp_bind]
      exact wp_mono hfail (fun _ _ h => h.elim) fun _ _ _ => trivial
  exact wp_mono (wp_and hvalue (authHeader_spec token)) (fun _ _ h => h) fun _ _ h => h.2

/-- The headers and the credentials are those that are built. -/
theorem authorize_value (ans : Answer) (headers : Option (List CStr)) :
    wp (authorize ans headers)
      (fun x s' => s.Silent s' ∧
        (∀ token, s.c.token = some token →
          x = (some (headers.getD [] ++ [bearerHeader token]), none)) ∧
        (s.c.token = none → x = (headers, s.c.username.bind fun username =>
          (Sbuf.empty.appendAll s.heaps.transfer
            (userpwdAppends username s.c.password)).1.cstr?)))
      (fun rc s' => rc = .nomem ∧ s.Quiet s' ∧ s'.c.lastCode = rc) s := by
  simp only [authorize, wp_bind, wp_get]
  -- A token goes into the headers; a user name is handed over apart from them.
  cases htoken : s.c.token with
  | some token =>
    refine wp_bind.2 (wp_mono (authHeader_value token) (fun auth s₁ h₁ => ?_) fun rc s₁ h₁ => h₁)
    obtain ⟨rfl, hq⟩ := h₁
    rw [slistAppend]
    cases hans : ans.authorization with
    | true =>
      refine ⟨hq, fun token' ht => ?_, fun h => (by cases h)⟩
      obtain rfl := Option.some.inj ht
      rfl
    | false =>
      exact wp_mono (fail_spec .nomem _) (fun _ _ h => h.elim) fun rc s₂ h₂ =>
        ⟨h₂.1, hq.toQuiet.trans h₂.2.1, h₂.2.2⟩
  | none =>
    cases s.c.username with
    | none => exact ⟨Session.Silent.refl s, fun _ h => (by cases h), fun _ => rfl⟩
    | some username =>
      refine wp_bind.2 (wp_mono (transferAppends_spec _) (fun buf s₁ h₁ => ?_) fun _ _ h => h.elim)
      exact ⟨h₁.1, fun _ h => (by cases h), fun _ => by rw [h₁.2]; rfl⟩

/-- The URL is built, and nothing else happens. -/
theorem buildUrl_builds (path : CStr) :
    wp (buildUrl (some path)) (fun url s' => url = (s.buildsUrl path).1 ∧
      s' = { s with heaps := { s.heaps with transfer := (s.buildsUrl path).2 } })
      (fun _ _ => False) s := ⟨rfl, rfl⟩

/-- `do_request` makes the request that is built, unless something fails in front of it that
    is looked at. Without an error, it has made it. -/
theorem doRequest_sends (method path : CStr) (body : Option CStr) :
    wp (doRequest method (some path) body)
      (fun _ s' => (s.sends? method path body).isSome = true ∧
        s'.curl.sent = (s.sends? method path body).toList ++ s.curl.sent)
      (fun _ s' => s'.curl.sent = (s.sends? method path body).toList ++ s.curl.sent) s := by
  refine wp_doRequest (wp_mono (buildUrl_builds path) (fun url s₁ h₁ => ?_) fun _ _ h => h)
  obtain ⟨hurl, rfl⟩ := h₁
  have hanswer : Session.answer { s.cleared with heaps := { s.cleared.heaps with
      transfer := (s.cleared.buildsUrl path).2 } } = s.answer := rfl
  rw [hanswer]
  -- If `curl_easy_init` fails, the call ends before anything is sent.
  refine ⟨fun hinit => ?_, fun hinit => ?_⟩
  · have hsends : s.sends? method path body = none := by
      rw [Session.sends?, hinit]
      rfl
    refine wp_mono (fail_spec .network _) (fun _ _ h => h) fun rc s' hpost => ?_
    rw [hsends]
    exact hpost.2.1.sent
  refine wp_mono (wp_and (authorize_value _ _) (authorize_tells _ _)) (fun x s₂ h₂ => ?_)
    fun rc s₂ h₂ => ?_
  · obtain ⟨⟨hq₂, htoken, hplain⟩, h, hauth, -⟩ := h₂
    replace htoken : ∀ token, s.c.token = some token →
        x = (some ((plainHeaders s.answer body).getD [] ++ [bearerHeader token]), none) := htoken
    replace hplain : s.c.token = none → x = (plainHeaders s.answer body,
        s.c.username.bind fun username => (Sbuf.empty.appendAll (s.buildsUrl path).2
          (userpwdAppends username s.c.password)).1.cstr?) := hplain
    have hsends : s.sends? method path body = some (s.made method path body) := by
      have hsome : s.c.authorized s.answer (s.buildsUrl path).2 = some h := hauth
      rw [Session.sends?, hinit, hsome]
      rfl
    -- The request in terms of what `authorize` returned.
    have hmade : s.made method path body = ⟨method, url,
        if (plainHeaders s.answer body).isSome then x.1.getD [] else [], x.2,
        s.c.timeoutSeconds, body⟩ := by
      rw [Session.made, hurl, Session.buildsUserpwd]
      generalize plainHeaders s.answer body = headers at htoken hplain ⊢
      cases ht : s.c.token with
      | some token =>
        rw [htoken token ht]
        cases headers with
        | none => rfl
        | some headers => rfl
      | none =>
        rw [hplain ht]
        cases headers with
        | none => rfl
        | some headers => exact congrArg (Request.mk _ _ · _ _ _) (List.append_nil headers)
    rw [hsends]
    refine wp_mono (send_spec _ _) (fun rc s₃ h₃ => ?_) fun _ _ h => h.elim
    have hsent : s₃.curl.sent = s.made method path body :: s.curl.sent := by
      rw [h₃.2.2.2, hq₂.sent, hmade]
      rfl
    exact wp_mono (receive_spec rc _) (fun _ s₄ h₄ => ⟨rfl, h₄.2.2.2.trans hsent⟩)
      fun _ s₄ h₄ => h₄.2.2.2.trans hsent
  -- `authorize` gave up, and the request was never performed.
  · obtain ⟨⟨-, hq₂, -⟩, hauth, -, -⟩ := h₂
    have hsends : s.sends? method path body = none := by
      have hnone : s.c.authorized s.answer (s.buildsUrl path).2 = none := hauth
      rw [Session.sends?, hnone, Option.isSome_none, Bool.and_false]
      rfl
    rw [hsends]
    exact hq₂.sent

/-! ## When it is the one that is meant -/

/-- No append in front of the transfer fails. -/
structure Session.Intact (s : Session) (path : CStr) (requestBody : Option CStr) : Prop where
  url : AppendsFit s.heaps.transfer (urlAppends s.c.baseUrl path)
  accept : s.answer.accept = true
  contentType : requestBody.isSome = true → s.answer.contentType = true
  userpwd : s.c.token = none → ∀ username ∈ s.c.username,
    AppendsFit (s.buildsUrl path).2 (userpwdAppends username s.c.password)

theorem urlAppends_head? {baseUrl : CStr} (hbase : baseUrl.bytes ≠ []) (path : CStr) :
    (urlAppends baseUrl path).head? ≠ some [] := by
  rw [urlAppends]
  split_ifs <;> exact fun h => hbase (Option.some.inj h)

theorem urlAppends_ne_nil (baseUrl path : CStr) : urlAppends baseUrl path ≠ [] := by
  rw [urlAppends]
  split_ifs <;> exact List.cons_ne_nil _ _

theorem buildsUrl_of_fit {path : CStr}
    (hfit : AppendsFit s.heaps.transfer (urlAppends s.c.baseUrl path)) :
    (s.buildsUrl path).1 = some (urlOf s.c.baseUrl path) :=
  Sbuf.cstr?_appendAll hfit (urlAppends_ne_nil _ _) (urlOf s.c.baseUrl path).noNul

/-- The URL is complete exactly if no append to it fails. -/
theorem buildsUrl_eq_iff (hbase : s.c.baseUrl.bytes ≠ []) (path : CStr) :
    (s.buildsUrl path).1 = some (urlOf s.c.baseUrl path) ↔
      AppendsFit s.heaps.transfer (urlAppends s.c.baseUrl path) := by
  refine ⟨fun h => ?_, buildsUrl_of_fit⟩
  by_contra hfit
  exact Sbuf.cstr?_ne hfit (urlAppends_head? hbase path) (urlOf s.c.baseUrl path).noNul h

theorem buildsUserpwd_of_fit {path : CStr} (hfit : s.c.token = none → ∀ username ∈ s.c.username,
    AppendsFit (s.buildsUrl path).2 (userpwdAppends username s.c.password)) :
    s.buildsUserpwd path =
      if s.c.token.isSome then none else s.c.username.map (userpwdOf · s.c.password) := by
  rw [Session.buildsUserpwd]
  cases htoken : s.c.token with
  | some token => rfl
  | none =>
    cases hu : s.c.username with
    | none => rfl
    | some username =>
      exact Sbuf.cstr?_appendAll (hfit htoken username hu) (List.cons_ne_nil _ _)
        (userpwdOf username s.c.password).noNul

/-- The credentials are complete exactly if no append to them fails. -/
theorem buildsUserpwd_eq_iff (huser : ∀ username ∈ s.c.username, username.bytes ≠ [])
    (path : CStr) :
    s.buildsUserpwd path =
        (if s.c.token.isSome then none else s.c.username.map (userpwdOf · s.c.password)) ↔
      (s.c.token = none → ∀ username ∈ s.c.username,
        AppendsFit (s.buildsUrl path).2 (userpwdAppends username s.c.password)) := by
  refine ⟨fun h htoken username hu => ?_, buildsUserpwd_of_fit⟩
  rw [Session.buildsUserpwd, htoken, hu] at h
  by_contra hfit
  exact Sbuf.cstr?_ne hfit (fun hfirst => huser username hu (Option.some.inj hfirst))
    (userpwdOf username s.c.password).noNul h

/-- The headers of a request, but for the authorization, as they are meant. -/
def plainHeadersOf (requestBody : Option CStr) : List CStr :=
  .lit "Accept: application/json" ::
    if requestBody.isSome then [.lit "Content-Type: application/json"] else []

theorem plainHeaders_eq_iff (ans : Answer) (body : Option CStr) :
    plainHeaders ans body = some (plainHeadersOf body) ↔
      ans.accept = true ∧ (body.isSome = true → ans.contentType = true) := by
  rw [plainHeaders, plainHeadersOf, slistAppend, slistAppend]
  cases body with
  | none =>
    rw [Option.isSome_none, if_neg Bool.false_ne_true, if_neg Bool.false_ne_true]
    cases ans.accept with
    | false => exact iff_of_false (fun h => by cases h) fun h => absurd h.1 Bool.false_ne_true
    | true => exact iff_of_true rfl ⟨rfl, fun h => (by cases h)⟩
  | some body =>
    rw [Option.isSome_some, if_pos rfl, if_pos rfl]
    cases ans.contentType with
    | false =>
      exact iff_of_false (fun h => by cases h) fun h => absurd (h.2 rfl) Bool.false_ne_true
    | true =>
      cases ans.accept with
      | false =>
        refine iff_of_false (fun h => ?_) fun h => absurd h.1 Bool.false_ne_true
        exact absurd (congrArg List.length (Option.some.inj h)) (by decide)
      | true => exact iff_of_true rfl ⟨rfl, fun _ => rfl⟩

/-- The list of headers is complete exactly if no append to it fails. -/
theorem headers_eq_iff (ans : Answer) (token body : Option CStr) :
    (plainHeaders ans body).elim [] (· ++ (token.map bearerHeader).toList) = headersOf token body ↔
      ans.accept = true ∧ (body.isSome = true → ans.contentType = true) := by
  rw [← plainHeaders_eq_iff]
  have hheaders : headersOf token body =
    plainHeadersOf body ++ (token.map bearerHeader).toList := rfl
  cases plainHeaders ans body with
  | none => exact iff_of_false (fun h => List.cons_ne_nil _ _ h.symm) fun h => (by cases h)
  | some headers => rw [Option.elim_some, hheaders, List.append_left_inj, Option.some_inj]

/-- If no append in front of it fails, the request that is made is the one meant. -/
theorem made_of_intact {path : CStr} {body : Option CStr} (h : s.Intact path body) (method : CStr) :
    s.made method path body = s.c.request method path body := by
  rw [Session.made, Client.request, buildsUrl_of_fit h.url, buildsUserpwd_of_fit h.userpwd,
    (headers_eq_iff s.answer s.c.token body).2 ⟨h.accept, h.contentType⟩]

/-- The request that is made is the one meant exactly if no append in front of it fails. -/
theorem made_eq_request_iff (hbase : s.c.baseUrl.bytes ≠ [])
    (huser : ∀ username ∈ s.c.username, username.bytes ≠ []) (method path : CStr)
    (body : Option CStr) :
    s.made method path body = s.c.request method path body ↔ s.Intact path body := by
  have hparts : s.made method path body = s.c.request method path body ↔
      (s.buildsUrl path).1 = some (urlOf s.c.baseUrl path) ∧
        (plainHeaders s.answer body).elim [] (· ++ (s.c.token.map bearerHeader).toList) =
          headersOf s.c.token body ∧
        s.buildsUserpwd path =
          if s.c.token.isSome then none else s.c.username.map (userpwdOf · s.c.password) := by
    rw [Session.made, Client.request, Request.mk.injEq]
    exact ⟨fun h => ⟨h.2.1, h.2.2.1, h.2.2.2.1⟩, fun h => ⟨rfl, h.1, h.2.1, h.2.2, rfl, rfl⟩⟩
  rw [hparts, buildsUrl_eq_iff hbase, headers_eq_iff, buildsUserpwd_eq_iff huser]
  exact ⟨fun h => ⟨h.1, h.2.1.1, h.2.1.2, h.2.2⟩,
    fun h => ⟨h.url, ⟨h.accept, h.contentType⟩, h.userpwd⟩⟩

/-- The append to the headers that is the last one in front of the authorization succeeds. -/
def Answer.takesHeaders (ans : Answer) (requestBody : Option CStr) : Bool :=
  if requestBody.isSome then ans.contentType else ans.accept

theorem plainHeaders_isSome (ans : Answer) (body : Option CStr) :
    (plainHeaders ans body).isSome = ans.takesHeaders body := by
  rw [plainHeaders, Answer.takesHeaders, slistAppend, slistAppend]
  cases body <;> cases ans.contentType <;> cases ans.accept <;> rfl

theorem mem_of_slistAppend {ok : Bool} {list : Option (List CStr)} {t u : CStr} {l : List CStr}
    (h : slistAppend ok list t = some l) (hu : u ∈ l) : u ∈ list.getD [] ∨ u = t := by
  rw [slistAppend] at h
  split_ifs at h
  rw [← Option.some.inj h, List.mem_append, List.mem_singleton] at hu
  exact hu

/-- The header for a token is none of the others. -/
theorem bearerHeader_notMem_plainHeaders {ans : Answer} {body : Option CStr} {headers : List CStr}
    (h : plainHeaders ans body = some headers) (token : CStr) : bearerHeader token ∉ headers := by
  have hne : ∀ t : CStr, t.bytes.take 2 ≠ ascii "Au" → bearerHeader token ≠ t := fun t ht he =>
    ht (by rw [← he]; rfl)
  have haccept := hne (.lit "Accept: application/json") (by decide)
  have hcontent := hne (.lit "Content-Type: application/json") (by decide)
  have hfirst : ∀ l : List CStr,
    slistAppend ans.accept none (.lit "Accept: application/json") = some l →
      bearerHeader token ∉ l := fun l hl hin =>
    (mem_of_slistAppend hl hin).elim List.not_mem_nil haccept
  intro hin
  rw [plainHeaders] at h
  split_ifs at h
  · rcases mem_of_slistAppend h hin with hin | heq
    · cases hlist : slistAppend ans.accept none (.lit "Accept: application/json") with
      | none => rw [hlist] at hin; exact List.not_mem_nil hin
      | some l => rw [hlist] at hin; exact hfirst l hlist hin
    · exact hcontent heq
  · exact hfirst _ h hin

/-- With a token, the request that is made is authorized exactly if libcurl is given the
    list of headers that the authorization is appended to. -/
theorem made_authorized_iff {token : CStr} (htoken : s.c.token = some token) (method path : CStr)
    (body : Option CStr) :
    bearerHeader token ∈ (s.made method path body).headers ↔ s.answer.takesHeaders body = true := by
  rw [Session.made, ← plainHeaders_isSome, htoken]
  cases hplain : plainHeaders s.answer body with
  | none => exact iff_of_false List.not_mem_nil Bool.false_ne_true
  | some headers => exact iff_of_true (List.mem_append_right _ List.mem_cons_self) rfl

/-! ## From the outside -/

/-- If one request is made from `s` to `s'`, this holds of it. -/
def Session.Makes (s s' : Session) (P : Request → Prop) : Prop :=
  ∀ req, s'.curl.sent = req :: s.curl.sent → P req

/-- What holds of the request that is built holds of the one that is made. -/
theorem doRequest_makes {method path : CStr} {body : Option CStr} {P : Request → Prop}
    (h : P (s.made method path body)) :
    wp (doRequest method (some path) body) (fun _ s' => s.Makes s' P) (fun _ s' => s.Makes s' P)
      s := by
  have hmakes : ∀ s' : Session,
      s'.curl.sent = (s.sends? method path body).toList ++ s.curl.sent → s.Makes s' P := by
    intro s' hlog req hsent
    rw [hsent, Session.sends?] at hlog
    split_ifs at hlog
    · rw [(List.cons.inj hlog).1]
      exact h
    · exact absurd (congrArg List.length hlog) (by simp)
  exact wp_mono (doRequest_sends method path body) (fun _ s' h' => hmakes s' h'.2) fun _ => hmakes

/-- Whatever fails, a request that is made is the one meant exactly if no append in front of it
    has failed. An empty base URL, which is what is left of one of slashes only, and an empty
    user name are excluded: it does no harm if nothing is what fails to be appended. -/
theorem doRequest_intact_iff (hbase : s.c.baseUrl.bytes ≠ [])
    (huser : ∀ username ∈ s.c.username, username.bytes ≠ []) (method path : CStr)
    (body : Option CStr) :
    wp (doRequest method (some path) body)
      (fun _ s' => s.Makes s' fun req => req = s.c.request method path body ↔ s.Intact path body)
      (fun _ s' => s.Makes s' fun req => req = s.c.request method path body ↔
        s.Intact path body) s :=
  doRequest_makes (made_eq_request_iff hbase huser method path body)

/-- A heap that refuses the first request. -/
def firstRefused : Heap := ⟨fun n => n != 0, []⟩

/-- A client that has just connected, and this heap for transfers. -/
def Session.transferring (H : Heap) : Session :=
  { Session.connected fun _ => .of 200 [] with heaps := ⟨.unlimited, H, .unlimited, .unlimited⟩ }

/-- The base URL is not appended. -/
theorem transferring_not_intact (requestBody : Option CStr) :
    ¬(Session.transferring firstRefused).Intact (.lit "/health") requestBody := fun h =>
  absurd (h.url.1 0 (by decide)) (by decide)

/-- Without memory for the base URL, a request is made that is not the one meant. -/
theorem connected_intact_iff : ¬(Session.transferring firstRefused).Intact (.lit "/health") none ∧
    wp (doRequest (.lit "GET") (some (.lit "/health")) none)
      (fun _ s' => (Session.transferring firstRefused).Makes s' fun req =>
        req = (Session.transferring firstRefused).c.request (.lit "GET") (.lit "/health") none ↔
          (Session.transferring firstRefused).Intact (.lit "/health") none)
      (fun _ s' => (Session.transferring firstRefused).Makes s' fun req =>
        req = (Session.transferring firstRefused).c.request (.lit "GET") (.lit "/health") none ↔
          (Session.transferring firstRefused).Intact (.lit "/health") none)
      (.transferring firstRefused) :=
  ⟨transferring_not_intact none, doRequest_intact_iff (by decide) (fun _ h => by cases h) _ _ none⟩

/-- Whatever fails, a request of a client with a token is authorized exactly if the last
    append to the headers in front of the authorization has succeeded. -/
theorem doRequest_authorized_iff {token : CStr} (htoken : s.c.token = some token)
    (method path : CStr) (body : Option CStr) :
    wp (doRequest method (some path) body)
      (fun _ s' => s.Makes s' fun req =>
        bearerHeader token ∈ req.headers ↔ s.answer.takesHeaders body = true)
      (fun _ s' => s.Makes s' fun req =>
        bearerHeader token ∈ req.headers ↔ s.answer.takesHeaders body = true) s :=
  doRequest_makes (made_authorized_iff htoken method path body)

/-- A client with this token, that has just connected. -/
def Session.withToken (token : CStr) (s : Session) : Session :=
  { s with c := { s.c with token := some token } }

theorem connected_authorized_iff : wp (doRequest (.lit "GET") (some (.lit "/health")) none)
    (fun _ s' => ((Session.refusing .unlimited).withToken (.lit "t")).Makes s' fun req =>
      bearerHeader (.lit "t") ∈ req.headers ↔
        ((Session.refusing .unlimited).withToken (.lit "t")).answer.takesHeaders none = true)
    (fun _ s' => ((Session.refusing .unlimited).withToken (.lit "t")).Makes s' fun req =>
      bearerHeader (.lit "t") ∈ req.headers ↔
        ((Session.refusing .unlimited).withToken (.lit "t")).answer.takesHeaders none = true)
    ((Session.refusing .unlimited).withToken (.lit "t")) :=
  doRequest_authorized_iff rfl _ _ none

end MongrelDB
