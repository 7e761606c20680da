import MongrelDB.Api.Outline
import MongrelDB.Lib.Runs

/-!
# The requests of a program

What a call can do to a session (`Call.Effect`, `Call.effect`), whatever the server and
the allocator do: it makes the one request it asks for, or none, and leaves alone what is
not its own. So the requests of a program are those of its calls, one for each at most, in
their order (`run_log`).

* `Call.returns_none_iff`: a call faults exactly if its path is built, and there is no
  memory for any piece of it.

A fault is one of the model (`Fault`): that the stack overflows, as it may where a response is
nested deeply, is none of them.
-/

namespace MongrelDB

open Ascii Prog

variable {lib : Libc} {s s' : Session} {rc : Code}

/-! ## One request -/

/-- The request that is made for an outline, unless something fails in front of it. -/
def Outline.sends? (o : Outline) (s : Session) : Option Request :=
  (o.message s.heaps.body).1.bind fun message =>
    message.path.bind fun path => s.sends? o.method path message.body

/-- The request a call makes. -/
def Call.sends? (lib : Libc) (call : Call) (s : Session) : Option Request :=
  (call.outline lib).bind (·.sends? s)

/-- The connection is the same, and so are the outcomes of libcurl and of the allocations in
    front of a transfer. -/
structure Session.Linked (s s' : Session) : Prop where
  baseUrl : s'.c.baseUrl = s.c.baseUrl
  token : s'.c.token = s.c.token
  username : s'.c.username = s.c.username
  password : s'.c.password = s.c.password
  answers : s'.curl.answers = s.curl.answers
  body : s'.heaps.body.grants = s.heaps.body.grants
  transfer : s'.heaps.transfer.grants = s.heaps.transfer.grants

/-- Nothing that a call may still show is another one: the names, the rows, their strings. -/
structure Session.Spared (s s' : Session) : Prop where
  names : s'.c.names = s.c.names
  scratch : s'.c.scratch = s.c.scratch

theorem Text.written_grants (t : Text) (H : Heap) : (t.written H).2.grants = H.grants := by
  have hchecked : ∀ (parts : List (Appends × Bytes)) (buf : Sbuf) (H : Heap),
      (checkedAll buf parts H).2.grants = H.grants := by
    intro parts
    induction parts with
    | nil => exact fun _ _ => rfl
    | cons part parts ih =>
      intro buf H
      rw [checkedAll]
      dsimp only
      split_ifs
      · rw [ih, Sbuf.append_grants, Sbuf.appendAll_grants]
      · rw [Sbuf.append_grants, Sbuf.appendAll_grants]
  cases t with
  | whole t => rfl
  | built ps => exact Sbuf.appendAll_grants _ _ _
  | checked parts => exact hchecked parts Sbuf.empty H

theorem Outline.message_grants (o : Outline) (H : Heap) : (o.message H).2.grants = H.grants := by
  have hpath := o.path.written_grants H
  rw [message]
  rcases hwritten : o.path.written H with ⟨_ | path, H₁⟩ <;> rw [hwritten] at hpath
  · exact hpath
  · cases o.body with
    | none => exact hpath
    | some body =>
      have hbody := body.written_grants H₁
      rcases hwritten' : body.written H₁ with ⟨_ | text, H₂⟩ <;> rw [hwritten'] at hbody <;>
        simp only [hwritten'] <;> exact hbody.trans hpath

/-- What the request of an outline does. -/
structure Session.Requests (s s' : Session) (o : Outline) : Prop extends
    s.Linked s', s.Spared s' where
  timeoutSeconds : s'.c.timeoutSeconds = s.c.timeoutSeconds
  sent : s'.curl.sent = (o.sends? s).toList ++ s.curl.sent

theorem Session.Kept.requests {o : Outline} {H : Heap} (hH : H.grants = s.heaps.body.grants)
    (h : Session.Kept { s with heaps := { s.heaps with body := H } } s')
    (hsent : s'.curl.sent = (o.sends? s).toList ++ s.curl.sent) : s.Requests s' o where
  baseUrl := h.baseUrl
  token := h.token
  username := h.username
  password := h.password
  answers := h.answers
  body := (congrArg Heap.grants h.body).trans hH
  transfer := h.transfer
  names := h.names
  scratch := h.scratch
  timeoutSeconds := h.timeoutSeconds
  sent := hsent

/-- A request is made as far as memory allows, or a NULL path is read. -/
theorem Outline.request_post (o : Outline) :
    post o.request (fun _ s' => s.Requests s' o ∧ (o.sends? s).isSome = true)
      (fun rc s' => s.Requests s' o ∧ rc ≠ .ok) s := by
  have hgrants := o.message_grants s.heaps.body
  rcases hmessage : o.message s.heaps.body with ⟨_ | message, H⟩ <;> rw [hmessage] at hgrants
  · have hnone : o.sends? s = none := by rw [sends?, hmessage]; rfl
    refine (post_congr (o.request_of_none hmessage)).2
      (post_of_wp (wp_mono (fail_spec (α := Unit) .nomem "out of memory")
      (fun _ _ h => h.elim) fun rc s' h => ?_))
    exact ⟨h.2.1.toKept.requests hgrants (by rw [hnone]; exact h.2.1.sent), h.1 ▸ by decide⟩
  · refine (post_congr (o.request_of_some hmessage)).2 ?_
    rcases message with ⟨_ | path, body⟩
    · trivial
    · have hsends : o.sends? s = s.sends? o.method path body := by rw [sends?, hmessage]; rfl
      refine post_of_wp (wp_mono (wp_and (doRequest_ends o.method path body)
        (doRequest_sends o.method path body)) (fun _ s' h => ?_) fun rc s' h => ?_)
      · rw [hsends]
        exact ⟨h.1.1.requests hgrants (by rw [hsends]; exact h.2.2), h.2.1⟩
      · exact ⟨h.1.2.1.requests hgrants (by rw [hsends]; exact h.2), h.1.1⟩

/-! ## What is done with a response -/

/-- A call that decodes names. -/
def Call.showsNames : Call → Bool
  | .tableNames _ _ => true
  | _ => false

/-- A call that decodes rows. -/
def Call.showsRows : Call → Bool
  | .query .. => true
  | .queryPage .. => true
  | _ => false

/-- A call that decodes a status, whose strings are kept where those of the rows are. -/
def Call.showsStatus : Call → Bool
  | .queryStatusGet _ _ => true
  | _ => false

/-- What the decoding of a response changes: nothing but what is decoded. -/
structure Call.Decodes (call : Call) (s s' : Session) : Prop where
  decoded : s.Decoded s'
  names : call.showsNames = false → s'.c.names = s.c.names
  rows : call.showsRows = false →
    s'.c.scratch = { s.c.scratch with valuesBlob := s'.c.scratch.valuesBlob }
  strings : call.showsRows = false → call.showsStatus = false → s'.c.scratch = s.c.scratch

theorem Call.Decodes.refl (call : Call) (s : Session) : call.Decodes s s :=
  ⟨⟨s.c.names, s.c.scratch, s.heaps.decode, rfl⟩, fun _ => rfl, fun _ => rfl, fun _ _ => rfl⟩

theorem wp_void {φ σ ε α : Type} {x : Prog φ σ ε α} {Q : Unit → σ → Prop} {R : ε → σ → Prop}
    {t : σ} : wp x.void Q R t ↔ wp x (fun _ => Q ()) R t :=
  wp_bind

theorem takeNames_only : wp takeNames
    (fun _ s' => ∃ names decode, s' = { s with
      c := { s.c with names := names }, heaps := { s.heaps with decode := decode } })
    (fun rc s' => rc ≠ .ok ∧ ∃ names decode, s' = { s with
      c := { s.c with names := names }, heaps := { s.heaps with decode := decode } }) s := by
  obtain ⟨rc, t, hdec, -⟩ := decodeNames_ends s.c.recv.data s.c.names s.heaps.decode
  refine wp_bind.2 (wp_get.2 (wp_bind.2 (wp_lift hdec (wp_bind.2 (wp_modify.2 ?_)))))
  dsimp only
  split_ifs with hrc
  · exact ⟨hrc, t.c, t.heap, rfl⟩
  · exact ⟨t.c, t.heap, rfl⟩

theorem takePage_only (lib : Libc) : wp (takePage lib)
    (fun _ s' => ∃ scratch decode, s' = { s with
      c := { s.c with scratch := scratch }, heaps := { s.heaps with decode := decode } })
    (fun rc s' => rc ≠ .ok ∧ ∃ scratch decode, s' = { s with
      c := { s.c with scratch := scratch }, heaps := { s.heaps with decode := decode } }) s := by
  obtain ⟨rc, t, hdec, -⟩ := decodePage_ends lib s.c.recv.data s.c.scratch s.heaps.decode
  refine wp_bind.2 (wp_get.2 (wp_bind.2 (wp_lift hdec (wp_bind.2 (wp_modify.2 ?_)))))
  dsimp only
  split_ifs with hrc
  · exact ⟨hrc, t.c, t.heap, rfl⟩
  · exact ⟨t.c, t.heap, rfl⟩

theorem takeStatus_only (lib : Libc) : wp (takeStatus lib)
    (fun _ s' => ∃ blob decode, s' = { s with
      c := { s.c with scratch := { s.c.scratch with valuesBlob := blob } },
      heaps := { s.heaps with decode := decode } }) (fun _ _ => False) s := by
  obtain ⟨out, blob, decode, hdec⟩ :=
    queryStatusDecodeJson_ends lib s.c.recv.data s.c.scratch.valuesBlob s.heaps.decode
  refine wp_bind.2 (wp_get.2 (wp_bind.2 (wp_lift hdec (wp_bind.2 (wp_modify.2 ?_)))))
  exact ⟨blob, decode, rfl⟩

theorem takeRetention_only (lib : Libc) : wp (takeRetention lib) (fun _ s' => s' = s)
    (fun rc s' => rc ≠ .ok ∧ s' = s) s := by
  rcases historyRetentionDecodeJson_cases lib s.c.recv.data with ⟨out, -, hdec⟩ | ⟨-, hdec⟩
  · exact wp_mono (takeRetention_decoded hdec) (fun _ _ h => h.2) fun _ _ h => by cases h.1
  · exact wp_mono (takeRetention_decoded hdec) (fun _ _ h => by cases h.1) fun rc s' h =>
      ⟨h.2.1 ▸ by decide, h.2.2⟩

theorem takeNumber_only (lib : Libc) (key : CStr) :
    wp (takeNumber lib key) (fun _ s' => s' = s) (fun _ _ => False) s := by
  obtain ⟨r, hget, -⟩ := jsonGetNumber_ends lib s.c.recv.data key
  exact wp_bind.2 (wp_get.2 (wp_bind.2 (wp_lift hget rfl)))

/-- Behind its request, a call changes nothing but what it decodes. -/
theorem Call.finish_spec (lib : Libc) (call : Call) :
    wp (call.finish lib) (fun _ s' => call.Decodes s s') (fun rc s' => rc ≠ .ok ∧ call.Decodes s s')
      s := by
  have hsame : ∀ s', s' = s → call.Decodes s s' := by
    rintro s' rfl
    exact .refl call s'
  have hnumber : ∀ key, wp (takeNumber lib key).void (fun _ s' => call.Decodes s s')
      (fun rc s' => rc ≠ .ok ∧ call.Decodes s s') s := fun key =>
    wp_void.2 (wp_mono (takeNumber_only lib key) (fun _ => hsame) fun _ _ h => h.elim)
  have hretention : wp (takeRetention lib).void (fun _ s' => call.Decodes s s')
      (fun rc s' => rc ≠ .ok ∧ call.Decodes s s') s :=
    wp_void.2 (wp_mono (takeRetention_only lib) (fun _ => hsame) fun _ s' h => ⟨h.1, hsame s' h.2⟩)
  have hpage : call.showsRows = true → ∀ s', (∃ scratch decode, s' = { s with
      c := { s.c with scratch := scratch }, heaps := { s.heaps with decode := decode } }) →
      call.Decodes s s' := by
    rintro hrows s' ⟨scratch, decode, rfl⟩
    exact ⟨⟨s.c.names, scratch, decode, rfl⟩, fun _ => rfl,
      fun h => (by cases hrows.symm.trans h), fun h => (by cases hrows.symm.trans h)⟩
  -- The calls left for `_` decode nothing.
  cases call with
  | tableNames outNames outCount =>
    have hnames : ∀ s', (∃ names decode, s' = { s with
        c := { s.c with names := names }, heaps := { s.heaps with decode := decode } }) →
        (Call.tableNames outNames outCount).Decodes s s' := by
      rintro s' ⟨names, decode, rfl⟩
      exact ⟨⟨names, s.c.scratch, decode, rfl⟩, fun h => (by cases h), fun _ => rfl, fun _ _ => rfl⟩
    exact wp_void.2 (wp_mono takeNames_only (fun _ => hnames) fun _ s' h => ⟨h.1, hnames s' h.2⟩)
  | createTable name columns => exact hnumber _
  | createTableWithConstraintsJson name columns constraintsJson => exact hnumber _
  | createTableWithSchemaJson name columns constraintsJson indexes => exact hnumber _
  | historyRetentionGet => exact hretention
  | historyRetentionSet epochs => exact hretention
  | count table outCount => exact hnumber _
  | query table conditions projection limit outResult =>
    exact wp_void.2 (wp_mono (takePage_only lib) (fun _ => hpage rfl)
      fun _ s' h => ⟨h.1, hpage rfl s' h.2⟩)
  | queryPage table conditions projection limit offset outResult =>
    exact wp_void.2 (wp_mono (takePage_only lib) (fun _ => hpage rfl)
      fun _ s' h => ⟨h.1, hpage rfl s' h.2⟩)
  | queryStatusGet queryId out =>
    refine wp_void.2 (wp_mono (takeStatus_only lib) (fun _ s' h => ?_) fun _ _ h => h.elim)
    obtain ⟨blob, decode, rfl⟩ := h
    exact ⟨⟨s.c.names, _, decode, rfl⟩, fun _ => rfl, fun _ => rfl, fun _ h => (by cases h)⟩
  | _ => exact hsame s rfl

/-! ## Calls -/

/-- What a call can do, that returns `rc`. -/
structure Call.Effect (lib : Libc) (call : Call) (s : Session) (rc : Code) (s' : Session) : Prop
    extends s.Linked s' where
  timeoutSeconds : s'.c.timeoutSeconds = s.c.timeoutSeconds
  /-- It makes its request, and no other. -/
  sent : s'.curl.sent = (call.sends? lib s).toList ++ s.curl.sent
  /-- It does not succeed without it, unless it needs none. -/
  made : rc = .ok → (call.sends? lib s).isSome = true ∨ call.isIdle = true
  names : call.showsNames = false → s'.c.names = s.c.names
  rows : call.showsRows = false →
    s'.c.scratch = { s.c.scratch with valuesBlob := s'.c.scratch.valuesBlob }
  strings : call.showsRows = false → call.showsStatus = false → s'.c.scratch = s.c.scratch
  /-- Without a request, the last response is still there. -/
  recv : call.outline lib = none → s'.c.recv = s.c.recv

theorem Session.Requests.effect {call : Call} {o : Outline} {s₁ : Session}
    (ho : call.outline lib = some o) (h : s.Requests s₁ o) (hdec : call.Decodes s₁ s')
    (hmade : rc = .ok → (o.sends? s).isSome = true) : call.Effect lib s rc s' := by
  have hsends : call.sends? lib s = o.sends? s := by rw [Call.sends?, ho]; rfl
  obtain ⟨names, scratch, decode, rfl⟩ := hdec.decoded
  exact { h.toLinked with
    timeoutSeconds := h.timeoutSeconds
    sent := by rw [hsends]; exact h.sent
    made := fun hrc => .inl (by rw [hsends]; exact hmade hrc)
    names := fun hno => (hdec.names hno).trans h.names
    rows := fun hno => by rw [hdec.rows hno, h.scratch]
    strings := fun hno hno' => (hdec.strings hno hno').trans h.scratch
    recv := fun hno => by cases ho.symm.trans hno }

/-- Whatever the server and the allocator do, a call does what it can do. -/
theorem Call.effect {call : Call} (h : call.returns lib s = some (rc, s')) :
    call.Effect lib s rc s' := by
  cases ho : call.outline lib with
  | none =>
    obtain ⟨rc', s₁, hends, ⟨code, msg, body, error, rfl, hbody, -⟩, hidle⟩ :=
      call.returns_declined ho s
    obtain ⟨rfl, rfl⟩ := Prod.mk.inj (Option.some.inj (hends.symm.trans h))
    have hnone : call.sends? lib s = none := by rw [sends?, ho]; rfl
    exact ⟨⟨rfl, rfl, rfl, rfl, rfl, hbody, rfl⟩, rfl, by rw [hnone]; rfl,
      fun hrc => .inr (hidle hrc), fun _ => rfl, fun _ => rfl, fun _ _ => rfl, fun _ => rfl⟩
  | some o =>
    rw [call.returns_eq ho] at h
    have hpost : post (o.request >>= fun _ => call.finish lib)
        (fun _ s' => call.Effect lib s .ok s') (fun rc s' => call.Effect lib s rc s') s := by
      refine post_bind.2 (post_mono o.request_post (fun _ s₁ h₁ => ?_) fun rc s₁ h₁ => ?_)
      · obtain ⟨hreq, hmade⟩ := h₁
        exact post_of_wp (wp_mono (call.finish_spec lib) (fun _ s₂ h₂ =>
          hreq.effect ho h₂ fun _ => hmade) fun rc s₂ h₂ =>
            hreq.effect ho h₂.2 fun hrc => absurd hrc h₂.1)
      · exact h₁.1.effect ho (.refl call s₁) fun hrc => absurd hrc h₁.2
    exact post_ends.1 hpost rc s' h

/-! ## Faults -/

/-- The first `k` allocations from the heap `H` on are all refused. -/
def AllRefused (H : Heap) (k : Nat) : Prop := ∀ i < k, H.grants (H.asked.length + i) = false

theorem allRefused_succ {H : Heap} {k : Nat} (n : Nat) :
    AllRefused H (k + 1) ↔ H.grants H.asked.length = false ∧ AllRefused (H.request n).2 k := by
  have hshift : ∀ i, (H.request n).2.grants ((H.request n).2.asked.length + i) =
      H.grants (H.asked.length + (i + 1)) := fun i => by
    simp only [Heap.request, List.length_cons]
    congr 1
    omega
  refine ⟨fun h => ⟨h 0 (Nat.succ_pos k), fun i hi => ?_⟩, fun h i hi => ?_⟩
  · rw [hshift]
    exact h (i + 1) (Nat.succ_lt_succ hi)
  · cases i with
    | zero => exact h.1
    | succ i => exact hshift i ▸ h.2 i (Nat.lt_of_succ_lt_succ hi)

theorem Sbuf.append_cap_ne {s : Sbuf} (hs : s.cap ≠ 0) (p : Bytes) (H : Heap) :
    (s.append p H).2.1.cap ≠ 0 := by
  rcases s.reserve_cases p.length H with ⟨cap, H', he, hcap, -⟩ | ⟨H', he, -⟩
  · simp only [append, he, if_true]
    omega
  · simpa only [append, he, Bool.false_eq_true, if_false] using hs

theorem Sbuf.appendAll_cap_ne {s : Sbuf} (hs : s.cap ≠ 0) (ps : Appends) (H : Heap) :
    (s.appendAll H ps).1.cap ≠ 0 := by
  induction ps generalizing s H with
  | nil => exact hs
  | cons p ps ih => exact ih (append_cap_ne hs p H) _

/-- An empty buffer asks for memory with the first piece, and again with each of the others, as
    long as it has none. -/
theorem Sbuf.cstr?_eq_none_iff {ps : Appends} {H : Heap} (hshort : ∀ p ∈ ps, p.length < SIZE_MAX) :
    (Sbuf.empty.appendAll H ps).1.cstr? = none ↔ AllRefused H ps.length := by
  have hcap : ∀ s : Sbuf, s.cstr? = none ↔ s.cap = 0 := fun s => by
    rw [cstr?]
    split_ifs with h
    · exact iff_of_true rfl h
    · exact iff_of_false (fun h' => by cases h') h
  rw [hcap]
  induction ps generalizing H with
  | nil => exact iff_of_true rfl fun i hi => absurd hi (Nat.not_lt_zero i)
  | cons p ps ih =>
    have hlen : Sbuf.empty.len = 0 := rfl
    have hp : ¬p.length > SIZE_MAX - 1 - Sbuf.empty.len := by
      have := hshort p List.mem_cons_self
      omega
    have hroom : ¬Sbuf.empty.len + p.length + 1 ≤ Sbuf.empty.cap := Nat.not_succ_le_zero _
    rw [appendAll_cons, List.length_cons, allRefused_succ]
    cases hgrant : H.grants H.asked.length with
    | false =>
      -- The buffer is as empty as it was.
      simp only [append, reserve, if_neg hp, if_neg hroom, Heap.request, hgrant, Bool.false_eq_true,
        if_false, true_and]
      exact ih fun q hq => hshort q (List.mem_cons_of_mem p hq)
    | true =>
      refine iff_of_false (appendAll_cap_ne ?_ ps _) fun h => absurd h.1 (Bool.noConfusion)
      have hneed : (Sbuf.empty.push p).cap ≠ 0 := Nat.ne_of_gt (Nat.zero_lt_of_lt (push_cap _ p))
      rcases append_spec (After.zero H) p with ⟨H', he, -⟩ | ⟨H', -, href⟩
      · rw [he]
        exact hneed
      · obtain ⟨i, hi, hno⟩ := href (by
          rw [hlen, Nat.zero_add]
          exact hshort p List.mem_cons_self)
        obtain rfl : i = 0 := by
          rw [asks, if_neg hroom] at hi
          omega
        cases hgrant.symm.trans hno

theorem length_encodeChar_le (c : UInt8) : (encodeChar c).length ≤ 3 := by
  rw [encodeChar]
  split_ifs <;> simp

/-- The path of a request is a text of the source, or it is built of short pieces, and then the
    body is a text of the source. -/
structure Outline.Shaped (o : Outline) : Prop where
  path : (∃ p, o.path = .whole p) ∨ ∃ ps, o.path = .built ps ∧ ps ≠ [] ∧
    (∀ p ∈ ps, p.length < SIZE_MAX) ∧ (o.body = none ∨ ∃ t, o.body = some (.whole t))
  body : ∀ t ∈ o.body, t.pieces ≠ []

theorem Outline.shaped_ofPath (p : CStr) : (Outline.ofPath (.whole p)).Shaped :=
  ⟨.inl ⟨p, rfl⟩, fun _ h => by cases h⟩

theorem Outline.shaped_ofBody (p : CStr) {body : Text} (hbody : body.pieces ≠ []) :
    (Outline.ofBody p body).Shaped :=
  ⟨.inl ⟨p, rfl⟩, fun _ h => Option.some.inj h ▸ hbody⟩

theorem Outline.shaped_built {method : CStr} {ps : Appends} {body : Option Text} (hps : ps ≠ [])
    (hshort : ∀ p ∈ ps, p.length < SIZE_MAX) (hbody : body = none ∨ ∃ t, body = some (.whole t)) :
    (Outline.mk method (.built ps) body).Shaped := by
  refine ⟨.inr ⟨ps, rfl, hps, hshort, hbody⟩, fun t ht => ?_⟩
  rcases hbody with rfl | ⟨u, rfl⟩
  · cases ht
  · exact Option.some.inj ht ▸ List.cons_ne_nil _ _

theorem Call.outline_shaped {call : Call} {o : Outline} (ho : call.outline lib = some o) :
    o.Shaped := by
  have hshort : ∀ (before seg : Bytes) (name : CStr), before.length < 20 → seg.length < 20 →
      ∀ p ∈ [before] ++ urlPathEncode name ++ [seg], p.length < SIZE_MAX := by
    intro before seg name hbefore hseg p hp
    have hmax : 20 < SIZE_MAX := by decide
    rw [List.mem_append, List.mem_append, List.mem_singleton, List.mem_singleton, urlPathEncode,
      List.mem_map] at hp
    rcases hp with (rfl | ⟨c, -, rfl⟩) | rfl
    · omega
    · exact (length_encodeChar_le c).trans_lt (by omega)
    · omega
  -- A path in two parts is one in three whose end is empty.
  have hpath : ∀ (before : Bytes) (name : CStr), before.length < 20 →
      ∀ p ∈ [before] ++ urlPathEncode name, p.length < SIZE_MAX := fun before name hbefore p hp =>
    hshort before [] name hbefore (by decide) p (List.mem_append_left _ hp)
  have htxn : ∀ {ops : List Op} {key : Option CStr}, Outline.txn lib ops key = some o →
    o.Shaped := by
    intro ops key ho
    rw [Outline.txn] at ho
    split_ifs at ho
    exact Option.some.inj ho ▸ Outline.shaped_ofBody _ (List.cons_ne_nil _ _)
  have hcreate : ∀ {name : Option CStr} {columns : Option (List Column)}
      {constraintsJson : Option CStr} {indexes : Option (List Index)},
      Outline.create name columns constraintsJson indexes = some o → o.Shaped := by
    intro name columns constraintsJson indexes ho
    cases name <;> cases columns <;> cases ho
    exact Outline.shaped_ofBody _ (List.cons_ne_nil _ _)
  -- Most calls are one of the shapes above; the guards leave no outline.
  cases call with
  | lastErrorCode => cases ho
  | health => cases ho; exact Outline.shaped_ofPath _
  | tableNames outNames outCount =>
    cases outNames <;> cases outCount <;> cases ho
    exact Outline.shaped_ofPath _
  | createTable name columns => exact hcreate ho
  | createTableWithConstraintsJson name columns constraintsJson => exact hcreate ho
  | createTableWithSchemaJson name columns constraintsJson indexes => exact hcreate ho
  | historyRetentionGet => cases ho; exact Outline.shaped_ofPath _
  | historyRetentionSet epochs =>
    obtain ⟨body, -, rfl⟩ := Option.map_eq_some_iff.1 ho
    exact ⟨.inl ⟨_, rfl⟩, fun _ h => Option.some.inj h ▸ List.cons_ne_nil _ _⟩
  | dropTable name =>
    cases name <;> cases ho
    exact Outline.shaped_built (List.cons_ne_nil _ _) (hpath _ _ (by decide)) (.inl rfl)
  | count table outCount =>
    cases table <;> cases outCount <;> cases ho
    exact Outline.shaped_built (List.cons_ne_nil _ _) (hshort _ _ _ (by decide) (by decide))
      (.inl rfl)
  | put table cells idempotencyKey =>
    rcases table with _ | table
    · cases ho
    · rcases cells with _ | cells
      · cases ho
      · exact htxn ho
  | upsert table cells updateCells idempotencyKey =>
    rcases table with _ | table
    · cases ho
    · rcases cells with _ | cells
      · cases ho
      · exact htxn ho
  | delete table rowId =>
    rcases table with _ | table
    · cases ho
    · exact htxn ho
  | deleteByPk table pk =>
    rcases table with _ | table
    · cases ho
    · rcases pk with _ | pk
      · cases ho
      · exact htxn ho
  | commit ops idempotencyKey =>
    rcases ops with _ | _ | ⟨op, ops⟩
    · cases ho
    · cases ho
    · exact htxn ho
  | query table conditions projection limit outResult =>
    cases table <;> cases outResult <;> cases ho
    exact Outline.shaped_ofBody _ (List.cons_ne_nil _ _)
  | queryPage table conditions projection limit offset outResult =>
    cases table <;> cases outResult <;> cases ho
    exact Outline.shaped_ofBody _ (List.cons_ne_nil _ _)
  | sql text =>
    cases text <;> cases ho
    exact Outline.shaped_ofBody _ (List.cons_ne_nil _ _)
  | queryStatusGet queryId out =>
    rw [outline] at ho
    split_ifs at ho
    exact Option.some.inj ho ▸ Outline.shaped_built (List.cons_ne_nil _ _) (hpath _ _ (by decide))
      (.inl rfl)
  | cancelQuery queryId =>
    rw [outline] at ho
    split_ifs at ho
    exact Option.some.inj ho ▸
      Outline.shaped_built (List.cons_ne_nil _ _) (hshort _ _ _ (by decide) (by decide))
      (.inr ⟨_, rfl⟩)
  | retrieveText table embeddingColumn text k =>
    rw [outline] at ho
    split_ifs at ho
    exact Option.some.inj ho ▸ Outline.shaped_ofBody _ (List.cons_ne_nil _ _)
  | schema outBody =>
    cases outBody <;> cases ho
    exact Outline.shaped_ofPath _
  | schemaFor table outBody =>
    cases table <;> cases outBody <;> cases ho
    exact Outline.shaped_built (List.cons_ne_nil _ _) (hpath _ _ (by decide)) (.inl rfl)

/-- A path that is built is NULL exactly if there is no memory for any piece of it. -/
theorem Outline.path_none_iff {o : Outline} {H : Heap} (ho : o.Shaped) :
    (∃ m ∈ (o.message H).1, m.path = none) ↔ ∃ ps, o.path = .built ps ∧ AllRefused H ps.length := by
  obtain ⟨method, path, body⟩ := o
  rcases ho.path with ⟨p, rfl : path = _⟩ | ⟨ps, rfl : path = _, -, hshort, hbody⟩
  · refine iff_of_false ?_ ?_
    · rintro ⟨m, hm, hnone⟩
      have hpath : ∀ m ∈ (Outline.message ⟨method, .whole p, body⟩ H).1, m.path = some p := by
        intro m hm
        rw [message, Text.written] at hm
        rcases body with _ | body
        · exact Option.some.inj hm ▸ rfl
        · rcases hwritten : body.written H with ⟨_ | text, H'⟩ <;> simp only [hwritten] at hm
          · cases hm
          · exact Option.some.inj hm ▸ rfl
      cases (hpath m hm).symm.trans hnone
    · rintro ⟨ps, hps, -⟩
      cases hps
  · have hmessage : ∃ text, (Outline.message ⟨method, .built ps, body⟩ H).1 =
        some ⟨(Sbuf.empty.appendAll H ps).1.cstr?, text⟩ := by
      rcases hbody with rfl | ⟨t, rfl⟩
      · exact ⟨none, rfl⟩
      · exact ⟨some t, rfl⟩
    obtain ⟨text, hmessage⟩ := hmessage
    rw [hmessage]
    refine ⟨?_, ?_⟩
    · rintro ⟨m, hm, hnone⟩
      obtain rfl := Option.some.inj hm
      exact ⟨ps, rfl, (Sbuf.cstr?_eq_none_iff hshort).1 hnone⟩
    · rintro ⟨ps', hps, hno⟩
      obtain rfl := Text.built.inj hps
      exact ⟨_, rfl, (Sbuf.cstr?_eq_none_iff hshort).2 hno⟩

theorem ends_of_fault {φ σ ε α β : Type} {x : Prog φ σ ε α} {k : α → Prog φ σ ε β} {ok : ε}
    {f : φ} {t : σ} (h : x t = .fault f) : ends ok (x >>= k) t = none := by
  change ends ok (Prog.bind x k) t = _
  rw [ends, Prog.bind, h]

/-- Whatever the server does, a call faults exactly if the path of its request is built, and each
    of the allocations for the pieces of the path is refused. -/
theorem Call.returns_none_iff (call : Call) :
    call.returns lib s = none ↔
      ∃ o ps, call.outline lib = some o ∧ o.path = .built ps ∧
        AllRefused s.heaps.body ps.length := by
  cases ho : call.outline lib with
  | none =>
    obtain ⟨rc, s', hends, -⟩ := call.returns_declined ho s
    refine iff_of_false (hends ▸ Option.some_ne_none _) ?_
    rintro ⟨o, ps, h, -⟩
    cases h
  | some o =>
    have hpath := Outline.path_none_iff (H := s.heaps.body) (Call.outline_shaped ho)
    have hends : ∀ {α : Type} {x : Api α} {s : Session},
        wp x (fun _ _ => True) (fun _ _ => True) s → ends .ok x s ≠ none := by
      intro α x s h hnone
      obtain ⟨rc, s', h', -⟩ := ends_of_wp (P := fun _ _ => True) h
      cases h'.symm.trans hnone
    have hfinish : ∀ s', wp (call.finish lib) (fun _ _ => True) (fun _ _ => True) s' := fun s' =>
      wp_mono (call.finish_spec lib) (fun _ _ _ => trivial) fun _ _ _ => trivial
    rw [call.returns_eq ho]
    have hiff : ends .ok (o.request >>= fun _ => call.finish lib) s = none ↔
        ∃ m ∈ (o.message s.heaps.body).1, m.path = none := by
      rcases hmessage : o.message s.heaps.body with ⟨_ | ⟨_ | path, body⟩, H⟩
      · refine iff_of_false (hends ?_) ?_
        · rw [wp_bind, wp, o.request_of_none hmessage]
          exact trivial
        · rintro ⟨m, hm, -⟩
          cases hm
      · -- The path is read, and it is NULL.
        refine iff_of_true ?_ ⟨_, rfl, rfl⟩
        exact ends_of_fault (o.request_of_some hmessage)
      · refine iff_of_false (hends ?_) ?_
        · rw [wp_bind, wp, o.request_of_some hmessage]
          exact wp_mono (doRequest_ends o.method path body) (fun _ s' _ => hfinish s')
            fun _ _ _ => trivial
        · rintro ⟨m, hm, hnone⟩
          obtain rfl := Option.some.inj hm
          cases hnone
    rw [hiff, hpath]
    refine ⟨?_, ?_⟩
    · rintro ⟨ps, hps, hno⟩
      exact ⟨o, ps, rfl, hps, hno⟩
    · rintro ⟨o', ps, h, hps, hno⟩
      obtain rfl := Option.some.inj h
      exact ⟨ps, hps, hno⟩

/-! ## Partial texts -/

/-- The string is made of some of these pieces, in their order. -/
def PartOf (ps : Appends) (t : CStr) : Prop :=
  ∃ qs : Appends, qs.Sublist ps ∧ t = CStr.at (qs.flatten ++ [0])

theorem Sbuf.eq_of_cstr? {buf : Sbuf} {t : CStr} (h : buf.cstr? = some t) :
    t = CStr.at (buf.data ++ [0]) := by
  rw [cstr?] at h
  split_ifs at h
  exact (Option.some.inj h).symm

theorem partOf_appendAll {ps : Appends} {H : Heap} {t : CStr}
    (h : (Sbuf.empty.appendAll H ps).1.cstr? = some t) : PartOf ps t := by
  obtain ⟨qs, hqs, hdata⟩ := Sbuf.exists_sublist_appendAll Sbuf.empty H ps
  exact ⟨qs, hqs, by rw [Sbuf.eq_of_cstr? h, hdata]; rfl⟩

/-- What is behind the parts of a body are some of their pieces. -/
theorem exists_sublist_checkedAll {parts : List (Appends × Bytes)} {buf buf' : Sbuf} {H H' : Heap}
    (h : checkedAll buf parts H = (some buf', H')) :
    ∃ qs : Appends, qs.Sublist (parts.flatMap fun part => part.1 ++ [part.2]) ∧
      buf'.data = buf.data ++ qs.flatten := by
  induction parts generalizing buf H with
  | nil =>
    obtain rfl := Option.some.inj (congrArg Prod.fst h)
    exact ⟨[], List.Sublist.refl _, (List.append_nil _).symm⟩
  | cons part parts ih =>
    obtain ⟨qs₁, hqs₁, hdata₁⟩ := Sbuf.exists_sublist_appendAll buf H part.1
    obtain ⟨qs₂, hqs₂, hdata₂⟩ := Sbuf.exists_sublist_appendAll
      (buf.appendAll H part.1).1 (buf.appendAll H part.1).2 [part.2]
    rw [checkedAll] at h
    dsimp only at h
    split_ifs at h
    · obtain ⟨qs₃, hqs₃, hdata₃⟩ := ih h
      refine ⟨qs₁ ++ qs₂ ++ qs₃, (hqs₁.append hqs₂).append hqs₃, ?_⟩
      have happend : ((buf.appendAll H part.1).1.append part.2
          (buf.appendAll H part.1).2).2.1.data = buf.data ++ qs₁.flatten ++ qs₂.flatten :=
        hdata₁ ▸ hdata₂
      rw [hdata₃, happend, List.flatten_append, List.flatten_append]
      simp only [List.append_assoc]
    · cases congrArg Prod.fst h

/-- What is written of a text are some of its pieces. -/
theorem Text.partOf_written {x : Text} {H H' : Heap} {t : CStr}
    (h : x.written H = (some (some t), H')) : PartOf x.pieces t := by
  cases x with
  | whole u =>
    obtain rfl := Option.some.inj (Option.some.inj (congrArg Prod.fst h))
    refine ⟨[u.bytes], List.Sublist.refl _, ?_⟩
    rw [List.flatten_singleton]
    exact (CStr.at_self u []).symm
  | built ps => exact partOf_appendAll (Option.some.inj (congrArg Prod.fst h))
  | checked parts =>
    rcases hparts : checkedAll Sbuf.empty parts H with ⟨_ | buf, H''⟩ <;>
      rw [written, hparts] at h
    · cases congrArg Prod.fst h
    · obtain ⟨qs, hqs, hdata⟩ := exists_sublist_checkedAll hparts
      exact ⟨qs, hqs, by
        rw [Sbuf.eq_of_cstr? (Option.some.inj (congrArg Prod.fst h)), hdata]; rfl⟩

/-! ## Requests of a call -/

/-- What the requests of a client depend on, besides the call. -/
structure Settings where
  baseUrl : CStr
  token : Option CStr
  username : Option CStr
  password : Option CStr
  timeoutSeconds : Int

/-- The settings of a client. -/
def Client.settings (c : Client) : Settings :=
  ⟨c.baseUrl, c.token, c.username, c.password, c.timeoutSeconds⟩

/-- A request for this outline. Parts of its texts may be missing, and headers, but there is
    nothing else in it. -/
structure Settings.Asks (settings : Settings) (o : Outline) (req : Request) : Prop where
  method : req.method = o.method
  timeout : req.timeout = settings.timeoutSeconds
  url : ∀ url ∈ req.url, ∃ path, PartOf o.path.pieces path ∧
    PartOf (urlAppends settings.baseUrl path) url
  headers : req.headers.Sublist (headersOf settings.token req.body)
  userpwd : ∀ userpwd ∈ req.userpwd, settings.token = none ∧
    ∃ username ∈ settings.username, PartOf (userpwdAppends username settings.password) userpwd
  body : ∀ body ∈ req.body, ∃ text ∈ o.body, PartOf text.pieces body

theorem sublist_headersOf (ans : Answer) (token body : Option CStr) :
    ((plainHeaders ans body).elim [] (· ++ (token.map bearerHeader).toList)).Sublist
      (headersOf token body) := by
  rw [plainHeaders, headersOf, slistAppend, slistAppend]
  cases body <;> cases ans.accept <;> cases ans.contentType <;> simp

/-- The body of a request is what is written of the one in the outline. -/
theorem Outline.partOf_body {o : Outline} {m : Message} {H H' : Heap} {body : CStr}
    (h : o.message H = (some m, H')) (hbody : m.body = some body) :
    ∃ text ∈ o.body, PartOf text.pieces body := by
  rw [message] at h
  rcases hpath : o.path.written H with ⟨_ | path, H₁⟩ <;> simp only [hpath] at h
  · cases congrArg Prod.fst h
  · cases ho : o.body with
    | none =>
      rw [ho] at h
      obtain rfl := Option.some.inj (congrArg Prod.fst h)
      cases hbody
    | some text =>
      rcases hwritten : text.written H₁ with ⟨_ | written, H₂⟩ <;>
        simp only [ho, hwritten] at h
      · cases congrArg Prod.fst h
      · obtain rfl := Option.some.inj (congrArg Prod.fst h)
        obtain rfl : written = some body := hbody
        exact ⟨text, rfl, Text.partOf_written hwritten⟩

theorem Outline.partOf_path {o : Outline} {m : Message} {H H' : Heap} {path : CStr}
    (h : o.message H = (some m, H')) (hpath : m.path = some path) : PartOf o.path.pieces path := by
  rw [message] at h
  rcases hwritten : o.path.written H with ⟨_ | written, H₁⟩ <;> simp only [hwritten] at h
  · cases congrArg Prod.fst h
  · have hm : m.path = written := by
      cases ho : o.body with
      | none =>
        rw [ho] at h
        exact (Option.some.inj (congrArg Prod.fst h)) ▸ rfl
      | some text =>
        rcases hbody : text.written H₁ with ⟨_ | body, H₂⟩ <;> simp only [ho, hbody] at h
        · cases congrArg Prod.fst h
        · exact (Option.some.inj (congrArg Prod.fst h)) ▸ rfl
    exact Text.partOf_written (hwritten.trans (by rw [← hm, hpath]))

/-- The request that is made for an outline is one for it. -/
theorem Outline.asks_of_sends? {o : Outline} {req : Request} (h : o.sends? s = some req) :
    s.c.settings.Asks o req := by
  obtain ⟨m, hm, h⟩ := Option.bind_eq_some_iff.1 h
  obtain ⟨path, hpath, h⟩ := Option.bind_eq_some_iff.1 h
  have hmessage : o.message s.heaps.body = (some m, (o.message s.heaps.body).2) := Prod.ext hm rfl
  rw [Session.sends?] at h
  split_ifs at h
  obtain rfl := Option.some.inj h
  refine ⟨rfl, rfl, fun url hurl => ?_, sublist_headersOf _ _ _, fun userpwd huserpwd => ?_,
    fun body hbody => Outline.partOf_body hmessage hbody⟩
  · exact ⟨path, Outline.partOf_path hmessage hpath, partOf_appendAll hurl⟩
  · rw [Option.mem_def, Session.made, Session.buildsUserpwd] at huserpwd
    split_ifs at huserpwd with htoken
    obtain ⟨username, husername, hbuilt⟩ := Option.bind_eq_some_iff.1 huserpwd
    exact ⟨Option.not_isSome_iff_eq_none.1 htoken, username, husername, partOf_appendAll hbuilt⟩

/-! ## Programs -/

/-- A step of a program, unless it faults. -/
def Session.next (lib : Libc) : Step → Session → Option Session
  | .setTimeout timeoutSeconds, s => some (s.setTimeout timeoutSeconds)
  | .call call, s => (call.returns lib s).map Prod.snd

/-- `mongreldb_set_timeout`, on the settings. -/
def Settings.setTimeout (settings : Settings) (timeoutSeconds : Int) : Settings :=
  { settings with timeoutSeconds := if 0 < timeoutSeconds then timeoutSeconds else 30 }

/-- The request of a call that returns `rc`, if there is one. -/
structure Settings.Allows (settings : Settings) (lib : Libc) (call : Call) (rc : Code)
    (req? : Option Request) : Prop where
  asks : ∀ req ∈ req?, ∃ o, call.outline lib = some o ∧ settings.Asks o req
  made : rc = .ok → req?.isSome = true ∨ call.isIdle = true

/-- These requests, the first one first, are those of a program whose calls return these codes. -/
def Settings.Log (lib : Libc) : Settings → List Step → List Code → List Request → Prop
  | _, [], codes, reqs => codes = [] ∧ reqs = []
  | settings, .setTimeout timeoutSeconds :: steps, codes, reqs =>
    (settings.setTimeout timeoutSeconds).Log lib steps codes reqs
  | settings, .call call :: steps, codes, reqs => ∃ rc req? codes' reqs', codes = rc :: codes' ∧
    reqs = req?.toList ++ reqs' ∧ settings.Allows lib call rc req? ∧
      settings.Log lib steps codes' reqs'

theorem Call.effect_settings {call : Call} (h : call.Effect lib s rc s') :
    s'.c.settings = s.c.settings := by
  rw [Client.settings, h.baseUrl, h.token, h.username, h.password, h.timeoutSeconds]
  rfl

theorem Call.effect_allows {call : Call} (h : call.Effect lib s rc s') :
    s.c.settings.Allows lib call rc (call.sends? lib s) where
  asks req hreq := by
    obtain ⟨o, ho, hsends⟩ := Option.bind_eq_some_iff.1 hreq
    exact ⟨o, ho, Outline.asks_of_sends? hsends⟩
  made := h.made

/-- Whatever the server and the allocator do, the requests of a program are those of its calls,
    in their order: one for each call that succeeds, and at most one for each that fails. -/
theorem run_log {steps : List Step} (h : run (Session.next lib) steps s = some s') :
    ∃ reqs, s.c.settings.Log lib steps ((results lib steps s).map Prod.fst) reqs ∧
      s'.curl.sent = reqs.reverse ++ s.curl.sent := by
  induction steps generalizing s with
  | nil =>
    obtain rfl := Option.some.inj h
    exact ⟨[], ⟨rfl, rfl⟩, rfl⟩
  | cons step steps ih =>
    obtain ⟨s₁, hstep, hrest⟩ := run_cons h
    -- Setting the timeout sends nothing.
    cases step with
    | setTimeout timeoutSeconds =>
      obtain rfl := Option.some.inj hstep
      exact ih hrest
    | call call =>
      obtain ⟨r, hreturns, rfl⟩ := Option.map_eq_some_iff.1 hstep
      have heffect : call.Effect lib s r.1 r.2 := Call.effect hreturns
      obtain ⟨reqs, hlog, hsent⟩ := ih hrest
      rw [Call.effect_settings heffect] at hlog
      refine ⟨(call.sends? lib s).toList ++ reqs, ⟨r.1, call.sends? lib s, _, reqs, ?_, rfl,
        Call.effect_allows heffect, hlog⟩, ?_⟩
      · rw [results, hreturns]
        rfl
      · rw [hsent, heffect.sent, List.reverse_append, List.append_assoc]
        cases call.sends? lib s <;> rfl

/-- A program of one request. -/
theorem run_health_log : ∃ (s' : Session) (reqs : List Request),
    (Session.connected fun _ => .of 200 []).c.settings.Log Libc.zero
      [.setTimeout 5, .call .health] ((results Libc.zero [.setTimeout 5, .call .health]
        (.connected fun _ => .of 200 [])).map Prod.fst) reqs ∧
      s'.curl.sent = reqs.reverse ++ (Session.connected fun _ => .of 200 []).curl.sent := by
  have hrun : (run (Session.next Libc.zero) [.setTimeout 5, .call .health]
      (.connected fun _ => .of 200 [])).isSome = true := by decide
  obtain ⟨s', hs'⟩ := Option.isSome_iff_exists.1 hrun
  obtain ⟨reqs, hreqs⟩ := run_log hs'
  exact ⟨s', reqs, hreqs⟩

end MongrelDB
