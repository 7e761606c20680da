import MongrelDB.Client.Chunks
import MongrelDB.Lib.Pairs

/-!
# Requests that are alike

Two sessions are alike (`Session.Alike`) if they differ in nothing but what earlier calls
have left in the buffers of the client, and, if `split` is set, in the parts the responses
are handed over in: then the allocations of a transfer are granted in both, as their number
depends on the parts.

`do_request` goes alike on two such sessions (`doRequest_alike`): it makes one request, and
leaves one response, or one error. The buffer of the response may have grown in another way,
so it is its string that is one (`Session.Responded`).
-/

namespace MongrelDB

open Prog

variable {split : Bool}

/-! ## Heaps -/

/-- The heaps do the same: they are one, or both grant everything. -/
inductive Heap.Alike : Bool → Heap → Heap → Prop
  | same (h : Heap) : Heap.Alike false h h
  | granting {h h' : Heap} : h.Succeeds → h'.Succeeds → Heap.Alike true h h'

section

variable {H H' : Heap}

/-- Room is made in one way. -/
theorem Sbuf.reserve_alike (hH : H.Alike split H') (buf : Sbuf) (extra : Nat) :
    (buf.reserve extra H).1 = (buf.reserve extra H').1 ∧
      (buf.reserve extra H).2.1 = (buf.reserve extra H').2.1 ∧
      (buf.reserve extra H).2.2.Alike split (buf.reserve extra H').2.2 := by
  cases hH with
  | same => exact ⟨rfl, rfl, .same _⟩
  | granting hs hs' =>
    have hrequest := Heap.request_of_succeeds hs
    have hrequest' := Heap.request_of_succeeds hs'
    simp only [reserve, hrequest, hrequest', if_true]
    split_ifs <;> exact ⟨rfl, rfl, .granting hs hs'⟩

theorem Sbuf.append_alike (hH : H.Alike split H') (buf : Sbuf) (p : Bytes) :
    (buf.append p H).1 = (buf.append p H').1 ∧ (buf.append p H).2.1 = (buf.append p H').2.1 ∧
      (buf.append p H).2.2.Alike split (buf.append p H').2.2 := by
  obtain ⟨hok, hbuf, hH⟩ := buf.reserve_alike hH p.length
  rw [append, append]
  dsimp only
  rw [← hok, ← hbuf]
  split_ifs
  · exact ⟨rfl, rfl, hH⟩
  · exact ⟨rfl, rfl, hH⟩

theorem Sbuf.appendAll_alike (hH : H.Alike split H') (buf : Sbuf) (ps : Appends) :
    (buf.appendAll H ps).1 = (buf.appendAll H' ps).1 ∧
      (buf.appendAll H ps).2.Alike split (buf.appendAll H' ps).2 := by
  induction ps generalizing buf H H' with
  | nil => exact ⟨rfl, hH⟩
  | cons p ps ih =>
    obtain ⟨-, hbuf, hH⟩ := buf.append_alike hH p
    have hcons : ∀ H, buf.appendAll H (p :: ps) =
        (buf.append p H).2.1.appendAll (buf.append p H).2.2 ps := fun H => rfl
    rw [hcons, hcons, ← hbuf]
    exact ih hH _

end

/-! ## Responses -/

/-- The same answer, but for the parts of the response. -/
structure Answer.Alike (split : Bool) (a b : Answer) : Prop where
  rest : b = { a with chunks := b.chunks }
  body : b.chunks.flatten = a.chunks.flatten
  chunks : split = false → b.chunks = a.chunks

/-- A response arrives in one way, unless some part of it is rejected. -/
theorem perform_alike {a b : Answer} {H H' : Heap} (hans : a.Alike split b)
    (hH : H.Alike split H') :
    (perform a a.chunks Sbuf.empty H).1 = (perform b b.chunks Sbuf.empty H').1 ∧
      ((perform a a.chunks Sbuf.empty H).1 = .writeError ∨
        (perform a a.chunks Sbuf.empty H).2.1.data = (perform b b.chunks Sbuf.empty H').2.1.data ∧
          (split = false → (perform a a.chunks Sbuf.empty H).2.1 =
            (perform b b.chunks Sbuf.empty H').2.1)) ∧
      (perform a a.chunks Sbuf.empty H).2.2.Alike split
        (perform b b.chunks Sbuf.empty H').2.2 := by
  -- Chunks may differ only where every request for memory is granted.
  cases hH with
  | same =>
    have hb : b = a := by rw [hans.rest, hans.chunks rfl]
    rw [hb]
    exact ⟨rfl, .inr ⟨rfl, fun _ => rfl⟩, .same _⟩
  | granting hs hs' =>
    have hle : Sbuf.empty.len ≤ MONGRELDB_MAX_RESPONSE_BYTES := Nat.zero_le _
    have hresult : b.result = a.result := by rw [hans.rest]
    obtain ⟨hshort, hlong⟩ := perform_chunks a a.chunks hs hle
    obtain ⟨hshort', hlong'⟩ := perform_chunks b b.chunks hs' hle
    rw [hans.body] at hshort' hlong'
    refine ⟨?_, ?_, .granting (fun n => ?_) fun n => ?_⟩
    -- The cap looks at the length of the body, which no splitting changes.
    · by_cases hlen : Sbuf.empty.len + a.chunks.flatten.length ≤ MONGRELDB_MAX_RESPONSE_BYTES
      · rw [(hshort hlen).1, (hshort' hlen).1, hresult]
      · rw [(hlong (Nat.lt_of_not_le hlen)).1, (hlong' (Nat.lt_of_not_le hlen)).1]
    · by_cases hlen : Sbuf.empty.len + a.chunks.flatten.length ≤ MONGRELDB_MAX_RESPONSE_BYTES
      · exact .inr ⟨by rw [(hshort hlen).2, (hshort' hlen).2], fun h => by cases h⟩
      · exact .inl (hlong (Nat.lt_of_not_le hlen)).1
    · rw [perform_grants, hs]
    · rw [perform_grants, hs']

/-! ## Sessions -/

/-- What the calls before have left in a client, and what becomes of its transfers. -/
structure Remains where
  recv : Sbuf
  names : NamesScratch
  scratch : Scratch
  transfer : Heap
  answers : Nat → Answer

/-- A session amid other remains. -/
def Session.amid (s : Session) (r : Remains) : Session where
  c := { s.c with recv := r.recv, names := r.names, scratch := r.scratch }
  heaps := { s.heaps with transfer := r.transfer }
  curl := { s.curl with answers := r.answers }

/-- The transfers go alike amid these remains. -/
structure Session.Suits (split : Bool) (s : Session) (r : Remains) : Prop where
  transfer : s.heaps.transfer.Alike split r.transfer
  answers : ∀ n, (s.curl.answers n).Alike split (r.answers n)

/-- The sessions differ in nothing but what is left of earlier calls, and the parts of
    responses. -/
def Session.Alike (split : Bool) (s t : Session) : Prop := ∃ r, t = s.amid r ∧ s.Suits split r

/-- Moreover, the response is one. -/
def Session.Responded (split : Bool) (s t : Session) : Prop :=
  ∃ r, t = s.amid r ∧ s.Suits split r ∧ r.recv.data = s.c.recv.data ∧
    r.recv.cstr? = s.c.recv.cstr?

theorem Session.Responded.alike {s t : Session} (h : s.Responded split t) : s.Alike split t := by
  obtain ⟨r, ht, hr, -⟩ := h
  exact ⟨r, ht, hr⟩

variable {s t : Session} {α : Type}

/-! ## Errors -/

theorem setError_alike (h : s.Alike split t) (code : Code) (msg : Option Bytes) :
    pairs (setError code msg) (setError code msg) (fun _ s _ t => s.Alike split t)
      (Session.Alike split) s t := by
  obtain ⟨r, rfl, hr⟩ := h
  cases msg with
  | none => exact pairs_modify ⟨r, rfl, hr.transfer, hr.answers⟩
  | some msg => exact pairs_modify ⟨r, rfl, hr.transfer, hr.answers⟩

/-- An error, and its code. -/
theorem setError_ret_alike {Q : α → Session → α → Session → Prop} (h : s.Alike split t)
    (code : Code) (msg : Option Bytes) :
    pairs (setError code msg >>= fun _ => ret code) (setError code msg >>= fun _ => ret code) Q
      (Session.Alike split) s t :=
  pairs_bind (setError_alike h code msg) fun _ _ _ _ h => pairs_ret h

theorem fail_alike {Q : α → Session → α → Session → Prop} (h : s.Alike split t) (code : Code)
    (msg : String) : pairs (fail code msg) (fail code msg) Q (Session.Alike split) s t :=
  setError_ret_alike h code _

theorem dupStr_alike (h : s.Alike split t) (text : CStr) :
    pairs (dupStr text) (dupStr text) (fun a s b t => a = b ∧ s.Alike split t)
      (Session.Alike split) s t := by
  obtain ⟨r, rfl, hr⟩ := h
  exact pairs_get (pairs_bind (pairs_modify (Q := fun _ s _ t => s.Alike split t)
    ⟨r, rfl, hr.transfer, hr.answers⟩) fun _ _ _ _ h => pairs_pure ⟨rfl, h⟩)

theorem errorField_alike (h : s.Alike split t) (json : Bytes) (key : CStr) :
    pairs (errorField json key) (errorField json key) (fun a s b t => a = b ∧ s.Alike split t)
      (Session.Alike split) s t := by
  obtain ⟨r, rfl, hr⟩ := h
  refine pairs_get (pairs_bind (Q := fun a s' b t' => a = b ∧ s' = s ∧ t' = s.amid r)
    (pairs_lift fun _ _ => ⟨rfl, rfl, rfl⟩) ?_)
  rintro a s' b t' ⟨rfl, rfl, rfl⟩
  exact pairs_bind (pairs_modify (Q := fun _ s _ t => s.Alike split t)
    ⟨r, rfl, hr.transfer, hr.answers⟩) fun _ _ _ _ h => pairs_pure ⟨rfl, h⟩

theorem reportError_alike {Q : α → Session → α → Session → Prop} (h : s.Alike split t)
    (httpCode : Int) (msg code : Option CStr) :
    pairs (reportError httpCode msg code) (reportError httpCode msg code) Q (Session.Alike split)
      s t := by
  cases msg with
  | some msg =>
    cases code with
    | some code =>
      exact setError_ret_alike h (classifyHttpError httpCode (some msg)) (errorText msg code)
    | none =>
      exact setError_ret_alike h (classifyHttpError httpCode (some msg)) (errorText msg none)
  | none =>
    refine pairs_bind (dupStr_alike h _) ?_
    rintro msg s₁ _ t₁ ⟨rfl, h₁⟩
    have hreport := setError_ret_alike (Q := Q) h₁ (classifyHttpError httpCode none)
      (errorText msg code)
    cases msg <;> cases code <;> exact hreport

/-- One response is reported as one error. -/
theorem httpError_alike {Q : α → Session → α → Session → Prop} (h : s.Responded split t)
    (httpCode : Int) :
    pairs (httpError httpCode) (httpError httpCode) Q (Session.Alike split) s t := by
  have halike := h.alike
  obtain ⟨⟨⟨data, cap⟩, names, scratch, transfer, answers⟩, rfl, -, hdata, -⟩ := h
  obtain rfl : data = s.c.recv.data := hdata
  refine pairs_get (pairs_bind (errorField_alike halike _ _) ?_)
  rintro msg s₁ _ t₁ ⟨rfl, h₁⟩
  cases msg with
  | some msg =>
    refine pairs_bind (errorField_alike h₁ _ _) ?_
    rintro code s₂ _ t₂ ⟨rfl, h₂⟩
    exact reportError_alike h₂ httpCode (some msg) code
  | none =>
    dsimp only
    refine pairs_ite Iff.rfl (fun _ => ?_) fun _ => reportError_alike h₁ httpCode none none
    refine pairs_bind (dupStr_alike h₁ _) ?_
    rintro msg s₂ _ t₂ ⟨rfl, h₂⟩
    exact reportError_alike h₂ httpCode msg none

/-! ## Requests -/

theorem transferAppends_alike (h : s.Alike split t) (ps : Appends) :
    pairs (transferAppends ps) (transferAppends ps) (fun a s b t => a = b ∧ s.Alike split t)
      (Session.Alike split) s t := by
  obtain ⟨r, rfl, hr⟩ := h
  obtain ⟨hbuf, hH⟩ := Sbuf.appendAll_alike hr.transfer Sbuf.empty ps
  exact pairs_get (pairs_bind (pairs_modify (Q := fun _ s _ t => s.Alike split t)
    ⟨{ r with transfer := (Sbuf.empty.appendAll r.transfer ps).2 }, rfl, hH, hr.answers⟩)
    fun _ _ _ _ h => pairs_pure ⟨hbuf, h⟩)

theorem buildUrl_alike (h : s.Alike split t) (path : Option CStr) :
    pairs (buildUrl path) (buildUrl path) (fun a s b t => a = b ∧ s.Alike split t)
      (Session.Alike split) s t := by
  cases path with
  | none => exact pairs_fault
  | some path =>
    have halike := h
    obtain ⟨r, rfl, -⟩ := h
    refine pairs_get (pairs_bind (transferAppends_alike halike _) ?_)
    rintro buf s₁ _ t₁ ⟨rfl, h₁⟩
    exact pairs_pure ⟨rfl, h₁⟩

theorem authHeader_alike (h : s.Alike split t) (token : CStr) :
    pairs (authHeader token) (authHeader token) (fun a s b t => a = b ∧ s.Alike split t)
      (Session.Alike split) s t := by
  obtain ⟨r, rfl, hr⟩ := h
  have hset : ∀ {H H' : Heap}, H.Alike split H' → Session.Alike split
      { s with heaps := { s.heaps with transfer := H } }
      { s.amid r with heaps := { (s.amid r).heaps with transfer := H' } } := fun {H H'} hH =>
    ⟨{ r with transfer := H' }, rfl, hH, hr.answers⟩
  rcases happ : Sbuf.empty.append (ascii "Authorization: Bearer ") s.heaps.transfer with
    ⟨ok, auth, H⟩
  rcases happ' : Sbuf.empty.append (ascii "Authorization: Bearer ") r.transfer with
    ⟨ok', auth', H'⟩
  have hfirst := Sbuf.append_alike hr.transfer Sbuf.empty (ascii "Authorization: Bearer ")
  rw [happ, happ'] at hfirst
  obtain ⟨rfl, rfl, hH⟩ : ok = ok' ∧ auth = auth' ∧ H.Alike split H' := hfirst
  unfold authHeader
  refine pairs_get ?_
  simp only [happ, Session.amid, happ']
  cases ok with
  | false =>
    refine pairs_bind (pairs_modify (Q := fun _ s _ t => s.Alike split t) (hset hH)) ?_
    rintro _ s₁ _ t₁ h₁
    exact pairs_bind (fail_alike (Q := fun _ _ _ _ => False) h₁ _ _) fun _ _ _ _ h => h.elim
  | true =>
    rcases hsecond : auth.append token.bytes H with ⟨ok, buf, H₂⟩
    rcases hsecond' : auth.append token.bytes H' with ⟨ok', buf', H₂'⟩
    have hboth := Sbuf.append_alike hH auth token.bytes
    rw [hsecond, hsecond'] at hboth
    obtain ⟨rfl, rfl, hH₂⟩ : ok = ok' ∧ buf = buf' ∧ H₂.Alike split H₂' := hboth
    refine pairs_bind (pairs_modify (Q := fun _ s _ t => s.Alike split t) (hset hH₂)) ?_
    rintro _ s₁ _ t₁ h₁
    cases ok with
    | false =>
      exact pairs_bind (fail_alike (Q := fun _ _ _ _ => False) h₁ _ _) fun _ _ _ _ h => h.elim
    | true => exact pairs_pure ⟨rfl, h₁⟩

theorem authorize_alike {a b : Answer} (h : s.Alike split t) (hans : a.Alike split b)
    (headers : Option (List CStr)) :
    pairs (authorize a headers) (authorize b headers) (fun a s b t => a = b ∧ s.Alike split t)
      (Session.Alike split) s t := by
  have halike := h
  obtain ⟨r, rfl, -⟩ := h
  rcases s with ⟨⟨baseUrl, token, username, password, timeoutSeconds, recv, errorMsg,
    names, scratch,
    lastCode⟩, heaps, curl⟩
  refine pairs_get ?_
  cases token with
  | some token =>
    refine pairs_bind (authHeader_alike halike token) ?_
    rintro auth s₁ _ t₁ ⟨rfl, h₁⟩
    have haccepts : b.authorization = a.authorization := by rw [hans.rest]
    rw [haccepts]
    cases slistAppend a.authorization headers auth with
    | none => exact fail_alike h₁ _ _
    | some appended => exact pairs_pure ⟨rfl, h₁⟩
  | none =>
    cases username with
    | some username =>
      refine pairs_bind (transferAppends_alike halike _) ?_
      rintro creds s₁ _ t₁ ⟨rfl, h₁⟩
      exact pairs_pure ⟨rfl, h₁⟩
    | none => exact pairs_pure ⟨rfl, halike⟩

/-- A request is made, and its response arrives, unless some part of it is rejected. -/
theorem send_alike {a b : Answer} (h : s.Alike split t) (hans : a.Alike split b)
    (hs : s.c.recv = Sbuf.empty) (ht : t.c.recv = Sbuf.empty) (req : Request) :
    pairs (send req a) (send req b) (fun rc s rc' t => rc = rc' ∧ s.Alike split t ∧
        (rc = .writeError ∨ t.c.recv.data = s.c.recv.data ∧ (split = false → t.c.recv = s.c.recv)))
      (Session.Alike split) s t := by
  obtain ⟨r, rfl, hr⟩ := h
  have hrecv : r.recv = Sbuf.empty := ht
  obtain ⟨hrc, hdata, hH⟩ := perform_alike hans hr.transfer
  rw [send]
  refine pairs_get ?_
  dsimp only [Session.amid]
  rw [hs, hrecv]
  refine pairs_bind (pairs_modify (Q := fun _ s' _ t' => s'.Alike split t' ∧
    s'.c.recv = (perform a a.chunks Sbuf.empty s.heaps.transfer).2.1 ∧
      t'.c.recv = (perform b b.chunks Sbuf.empty r.transfer).2.1)
    ⟨⟨{ r with recv := (perform b b.chunks Sbuf.empty r.transfer).2.1,
               transfer := (perform b b.chunks Sbuf.empty r.transfer).2.2 }, rfl, hH, hr.answers⟩,
      rfl, rfl⟩) ?_
  rintro _ s₁ _ t₁ ⟨h₁, hs₁, ht₁⟩
  refine pairs_pure ⟨hrc, h₁, hdata.imp_right fun h => ?_⟩
  rw [hs₁, ht₁]
  exact ⟨h.1.symm, fun hsplit => (h.2 hsplit).symm⟩

/-- Room for a NUL is made in one way behind one response. -/
theorem Sbuf.reserve_responds {H H' : Heap} (hH : H.Alike split H') {buf buf' : Sbuf}
    (hdata : buf'.data = buf.data) (hbuf : split = false → buf' = buf) :
    (buf.reserve 1 H).1 = (buf'.reserve 1 H').1 ∧
      ((buf.reserve 1 H).1 = true →
        (buf'.reserve 1 H').2.1.data = (buf.reserve 1 H).2.1.data ∧
        (buf'.reserve 1 H').2.1.cstr? = (buf.reserve 1 H).2.1.cstr?) ∧
      (buf.reserve 1 H).2.2.Alike split (buf'.reserve 1 H').2.2 := by
  cases hH with
  | same =>
    obtain rfl := hbuf rfl
    exact ⟨rfl, fun _ => ⟨rfl, rfl⟩, .same _⟩
  | granting hs hs' =>
    have hlen : buf'.len = buf.len := congrArg List.length hdata
    by_cases hfit : buf.len + 1 < SIZE_MAX
    · obtain ⟨cap, h, he, hcap, hh⟩ := buf.reserve_of_succeeds hs hfit
      obtain ⟨cap', h', he', hcap', hh'⟩ := buf'.reserve_of_succeeds hs' (hlen ▸ hfit)
      rw [he, he']
      refine ⟨rfl, fun _ => ⟨hdata, ?_⟩, .granting hh hh'⟩
      have hcap : cap ≠ 0 := by omega
      have hcap' : cap' ≠ 0 := by omega
      rw [cstr?, cstr?, if_neg hcap, if_neg hcap', hdata]
    · have hwrap : 1 > SIZE_MAX - 1 - buf.len := by omega
      rw [reserve, reserve, hlen, if_pos hwrap, if_pos hwrap]
      exact ⟨rfl, fun h => (by cases h), .granting hs hs'⟩

/-- One response has one end. -/
theorem receive_alike (h : s.Alike split t) {rc : CurlCode} (hrecv : rc = .writeError ∨
      t.c.recv.data = s.c.recv.data ∧ (split = false → t.c.recv = s.c.recv)) (httpCode : Int) :
    pairs (receive rc httpCode) (receive rc httpCode) (fun _ s _ t => s.Responded split t)
      (Session.Alike split) s t := by
  have hlong : pairs (setError .query (some (snprintf 512 (ascii "response body exceeds " ++
        (intText MONGRELDB_MAX_RESPONSE_BYTES ++ ascii " bytes")))) >>= fun _ => ret .query)
      (setError .query (some (snprintf 512 (ascii "response body exceeds " ++
        (intText MONGRELDB_MAX_RESPONSE_BYTES ++ ascii " bytes")))) >>= fun _ => ret .query)
      (fun (_ : Unit) s (_ : Unit) t => s.Responded split t) (Session.Alike split) s t :=
    setError_ret_alike h _ _
  rw [receive]
  refine pairs_get ?_
  rcases hrecv with rfl | ⟨hdata, hbuf⟩
  · exact pairs_ite (by simp) (fun _ => hlong) fun hno => absurd hno (by simp)
  have hlen : t.c.recv.len = s.c.recv.len := congrArg List.length hdata
  refine pairs_ite (by rw [hlen]) (fun _ => hlong) fun hno => ?_
  cases rc with
  | other strerror => exact setError_ret_alike h _ _
  | filesizeExceeded => exact absurd (by simp) hno
  | writeError => exact absurd (by simp) hno
  | ok =>
    obtain ⟨r, rfl, hr⟩ := h
    have hdata' : r.recv.data = s.c.recv.data := hdata
    have hboth := Sbuf.reserve_responds hr.transfer hdata' hbuf
    rcases hres : s.c.recv.reserve 1 s.heaps.transfer with ⟨ok, recv, H⟩
    rcases hres' : r.recv.reserve 1 r.transfer with ⟨ok', recv', H'⟩
    rw [hres, hres'] at hboth
    obtain ⟨rfl, hone, hH⟩ : ok = ok' ∧ (ok = true → recv'.data = recv.data ∧
      recv'.cstr? = recv.cstr?) ∧ H.Alike split H' := hboth
    simp only [Session.amid, hres']
    refine pairs_bind (pairs_modify (Q := fun _ s' _ t' => s'.Alike split t' ∧
      (ok = true → s'.Responded split t')) ?_) ?_
    · exact ⟨⟨{ r with recv := recv', transfer := H' }, rfl, hH, hr.answers⟩, fun h =>
        ⟨{ r with recv := recv', transfer := H' }, rfl, ⟨hH, hr.answers⟩, hone h⟩⟩
    · rintro _ s₁ _ t₁ ⟨h₁, hresponded⟩
      cases ok with
      | false =>
        exact pairs_bind (fail_alike (Q := fun _ _ _ _ => False) h₁ _ _) fun _ _ _ _ h => h.elim
      | true =>
        have h₂ := hresponded rfl
        rw [Bool.not_true, if_neg Bool.false_ne_true]
        exact pairs_ite Iff.rfl (fun _ => httpError_alike h₂ httpCode) fun _ => pairs_pure h₂

/-- The headers, the transfer, and what comes behind it. -/
theorem answered_alike {a b : Answer} (h : s.Alike split t) (hans : a.Alike split b)
    (hs : s.c.recv = Sbuf.empty) (ht : t.c.recv = Sbuf.empty) (method : CStr) (url : Option CStr)
    (timeout : Int) (body : Option CStr) :
    pairs
      (authorize a (plainHeaders a body) >>= fun x => send ⟨method, url,
        if (plainHeaders a body).isSome then x.1.getD [] else [], x.2, timeout, body⟩ a >>=
          fun rc =>
          receive rc a.status)
      (authorize b (plainHeaders b body) >>= fun x => send ⟨method, url,
        if (plainHeaders b body).isSome then x.1.getD [] else [], x.2, timeout, body⟩ b >>=
        fun rc =>
          receive rc b.status)
      (fun _ s _ t => s.Responded split t) (Session.Alike split) s t := by
  have hheaders : plainHeaders b body = plainHeaders a body := by rw [hans.rest]; rfl
  have hstatus : b.status = a.status := by rw [hans.rest]
  rw [hheaders, hstatus]
  refine pairs_bind (pairs_and (authorize_alike h hans _) (authorize_spec a _)
    (authorize_spec b _)) ?_
  rintro x s₁ _ t₁ ⟨⟨rfl, h₁⟩, hs₁, ht₁⟩
  refine pairs_bind (send_alike h₁ hans (hs₁.recv.trans hs) (ht₁.recv.trans ht) _) ?_
  rintro rc s₂ _ t₂ ⟨rfl, h₂, hrecv⟩
  exact receive_alike h₂ hrecv a.status

/-- Requests of sessions that are alike are one request, and end with one response, or one
    error. -/
theorem doRequest_alike (h : s.Alike split t) (method : CStr) (path body : Option CStr) :
    pairs (doRequest method path body) (doRequest method path body)
      (fun _ s _ t => s.Responded split t) (Session.Alike split) s t := by
  obtain ⟨r, rfl, hr⟩ := h
  refine pairs_bind (pairs_modify (Q := fun _ s' _ t' => s'.Alike split t' ∧
    s'.c.recv = Sbuf.empty ∧ t'.c.recv = Sbuf.empty)
    ⟨⟨{ r with recv := Sbuf.empty }, rfl, hr.transfer, hr.answers⟩, rfl, rfl⟩) ?_
  rintro _ s₁ _ t₁ ⟨h₁, hs₁, ht₁⟩
  cases path with
  | none => exact pairs_bind (Q := fun _ _ _ _ => False) pairs_fault fun _ _ _ _ h => h.elim
  | some path =>
    refine pairs_bind (pairs_and (buildUrl_alike h₁ (some path)) (buildUrl_spec path)
      (buildUrl_spec path)) ?_
    rintro url s₂ _ t₂ ⟨⟨rfl, h₂⟩, ⟨hs₂, -⟩, ht₂, -⟩
    have hs₂' := hs₂.recv.trans hs₁
    have ht₂' := ht₂.recv.trans ht₁
    obtain ⟨r₂, rfl, hr₂⟩ := h₂
    have hans := hr₂.answers s₂.curl.begun
    refine pairs_get (pairs_bind (pairs_modify (Q := fun _ s' _ t' => s'.Alike split t' ∧
      s'.c.recv = Sbuf.empty ∧ t'.c.recv = Sbuf.empty)
      ⟨⟨r₂, rfl, hr₂.transfer, hr₂.answers⟩, hs₂', ht₂'⟩) ?_)
    rintro _ s₃ _ t₃ ⟨h₃, hs₃, ht₃⟩
    -- Both sides get a handle, or neither.
    have hinit : (r₂.answers s₂.curl.begun).init = (s₂.curl.answers s₂.curl.begun).init := by
      rw [hans.rest]
    refine pairs_ite (iff_of_eq (congrArg (fun i => (!i) = true) hinit.symm)) (fun _ => ?_) fun _ =>
      answered_alike h₃ hans hs₃ ht₃ method url _ body
    exact pairs_bind (fail_alike (Q := fun _ _ _ _ => False) h₃ _ _) fun _ _ _ _ h => h.elim

end MongrelDB
