import MongrelDB.Api.Log

/-!
# The wire

What a program is for, as seen from the server: a machine that sends, for each call, the
request that is meant (`Wire.step`), and knows nothing of memory, of libcurl and of
responses. If no allocation for a request is refused, and libcurl takes every request
(`Session.Steady`), the client refines it: every program goes through, and what is sent is
what the machine sends (`run_sends`). So what a program sends does not depend on what the
server answers (`run_sends_alike`).
-/

namespace MongrelDB

open Ascii Prog

variable {lib : Libc} {s s' : Session}

/-! ## Texts -/

section

variable {H : Heap}

/-- All the pieces are appended, if allocation succeeds. -/
theorem Sbuf.appendAll_of_succeeds (buf : Sbuf) (ps : Appends) (hs : H.Succeeds)
    (hfit : buf.len + ps.flatten.length < SIZE_MAX) :
    ∃ H', buf.appendAll H ps = (buf.pushAll ps, H') ∧ H'.Succeeds := by
  obtain ⟨H', happ, hafter⟩ := appendAll_granted (s := buf) (After.zero H) (hs.granted _) hfit
  exact ⟨H', happ, fun n => hafter.grants ▸ hs n⟩

/-- A piece is appended, if allocation succeeds. -/
theorem Sbuf.append_push (buf : Sbuf) (p : Bytes) (hs : H.Succeeds)
    (hfit : buf.len + p.length < SIZE_MAX) :
    ∃ H', buf.append p H = (true, buf.push p, H') ∧ H'.Succeeds := by
  rcases append_spec (s := buf) (After.zero H) p with ⟨H', he, hafter⟩ | ⟨H', -, href⟩
  · exact ⟨H', he, fun n => hafter.grants ▸ hs n⟩
  · exact absurd hs (href hfit).not_succeeds

theorem Sbuf.pushAll_append (buf : Sbuf) (ps qs : Appends) :
    buf.pushAll (ps ++ qs) = (buf.pushAll ps).pushAll qs := by
  induction ps generalizing buf with
  | nil => rfl
  | cons p ps ih => exact ih (buf.push p)

theorem Sbuf.asksAll_append (buf : Sbuf) (ps qs : Appends) :
    buf.asksAll (ps ++ qs) = buf.asksAll ps + (buf.pushAll ps).asksAll qs := by
  induction ps generalizing buf with
  | nil => exact (Nat.zero_add _).symm
  | cons p ps ih =>
    rw [List.cons_append, asksAll, ih, asksAll, Nat.add_assoc]
    rfl

/-- All the parts of a body are there, if no request for them is refused. -/
theorem checkedAll_granted {h : Heap} {k : Nat} (buf : Sbuf) {parts : List (Appends × Bytes)}
    (ha : After H k h)
    (hg : Granted H (k + buf.asksAll (parts.flatMap fun part => part.1 ++ [part.2])))
    (hfit : buf.len + (parts.flatMap fun part => part.1 ++ [part.2]).flatten.length < SIZE_MAX) :
    ∃ h', checkedAll buf parts h =
        (some (buf.pushAll (parts.flatMap fun part => part.1 ++ [part.2])), h') ∧
      After H (k + buf.asksAll (parts.flatMap fun part => part.1 ++ [part.2])) h' := by
  induction parts generalizing buf h k with
  | nil => exact ⟨h, rfl, ha⟩
  | cons part parts ih =>
    rw [List.flatMap_cons, List.append_assoc, List.singleton_append, Sbuf.asksAll_append,
      Sbuf.asksAll, ← Nat.add_assoc, ← Nat.add_assoc] at hg ⊢
    rw [List.flatMap_cons, List.flatten_append, List.flatten_append, List.flatten_singleton,
      List.length_append, List.length_append] at hfit
    have hlen : (buf.pushAll part.1).len = buf.len + part.1.flatten.length := by
      rw [Sbuf.len, Sbuf.pushAll_data, List.length_append]
    have hlen' : ((buf.pushAll part.1).push part.2).len =
        buf.len + part.1.flatten.length + part.2.length := by
      rw [← hlen, Sbuf.push, Sbuf.len, List.length_append]
    obtain ⟨h₁, happ, ha₁⟩ := Sbuf.appendAll_granted (s := buf) ha (hg.mono (by omega))
      (show buf.len + part.1.flatten.length < SIZE_MAX by omega)
    rcases Sbuf.append_spec (s := buf.pushAll part.1) ha₁ part.2 with
      ⟨h₂, happ', ha₂⟩ | ⟨h₂, -, href⟩
    · obtain ⟨h', hrest, ha'⟩ := ih ((buf.pushAll part.1).push part.2) ha₂ hg (by omega)
      refine ⟨h', ?_, ha'⟩
      have hpush : (buf.pushAll part.1).pushAll [part.2] = (buf.pushAll part.1).push part.2 := rfl
      rw [checkedAll, ← List.singleton_append, Sbuf.pushAll_append, Sbuf.pushAll_append, hpush,
        ← hrest]
      simp only [happ, happ', if_true]
    · exact absurd (href (by omega)) (hg.mono (Nat.le_add_right _ _)).not_refused

/-- A text is written as it is meant, if allocation succeeds. -/
theorem Text.written_of_succeeds {t : Text} (hs : H.Succeeds) (hne : t.pieces ≠ [])
    (hfit : t.pieces.flatten.length < SIZE_MAX) :
    ∃ H', t.written H = (some (some t.text), H') ∧ H'.Succeeds := by
  have hcstr : ∀ {ps : Appends}, ps ≠ [] →
      (Sbuf.empty.pushAll ps).cstr? = some (CStr.at (ps.flatten ++ [0])) := by
    intro ps hps
    rw [Sbuf.cstr?, if_neg (Sbuf.pushAll_cap hps _), Sbuf.pushAll_data]
    rfl
  rw [← Nat.zero_add t.pieces.flatten.length] at hfit
  cases t with
  | whole u =>
    refine ⟨H, ?_, hs⟩
    rw [written, text, pieces, List.flatten_singleton]
    exact congrArg (fun u => (some (some u), H)) (CStr.at_self u []).symm
  | built ps =>
    obtain ⟨H', happ, hs'⟩ := Sbuf.empty.appendAll_of_succeeds ps hs hfit
    refine ⟨H', ?_, hs'⟩
    have hmeant : some (built ps).text = (Sbuf.empty.pushAll ps).cstr? := (hcstr hne).symm
    rw [written, hmeant]
    simp only [happ]
  | checked parts =>
    obtain ⟨H', happ, hafter⟩ := checkedAll_granted Sbuf.empty (After.zero H) (hs.granted _) hfit
    refine ⟨H', ?_, fun n => hafter.grants ▸ hs n⟩
    rw [written, text, ← hcstr hne]
    simp only [happ]
    rfl

end

/-! ## Requests -/

/-- The request of an outline. -/
def Settings.request (settings : Settings) (o : Outline) : Request where
  method := o.method
  url := some (urlOf settings.baseUrl o.path.text)
  headers := headersOf settings.token (o.body.map Text.text)
  userpwd := if settings.token.isSome then none
    else settings.username.map (userpwdOf · settings.password)
  timeout := settings.timeoutSeconds
  body := o.body.map Text.text

/-- What is sent for an outline fits in `size_t`. -/
structure Settings.Fits (settings : Settings) (o : Outline) : Prop where
  path : o.path.pieces.flatten.length < SIZE_MAX
  body : ∀ t ∈ o.body, t.pieces.flatten.length < SIZE_MAX
  url : (urlOf settings.baseUrl o.path.text).bytes.length < SIZE_MAX
  token : ∀ token ∈ settings.token, token.bytes.length + 22 < SIZE_MAX
  userpwd : ∀ username ∈ settings.username,
    (userpwdOf username settings.password).bytes.length < SIZE_MAX

/-- No allocation for a request is refused, and libcurl takes every request. -/
structure Session.Steady (s : Session) : Prop where
  body : s.heaps.body.Succeeds
  transfer : s.heaps.transfer.Succeeds
  init : ∀ n, (s.curl.answers n).init = true
  accept : ∀ n, (s.curl.answers n).accept = true
  contentType : ∀ n, (s.curl.answers n).contentType = true
  authorization : ∀ n, (s.curl.answers n).authorization = true

theorem Session.Linked.steady (h : s.Linked s') (hs : s.Steady) : s'.Steady where
  body n := (congrFun h.body n).trans (hs.body n)
  transfer n := (congrFun h.transfer n).trans (hs.transfer n)
  init n := (congrArg (fun answers => (answers n).init) h.answers).trans (hs.init n)
  accept n := (congrArg (fun answers => (answers n).accept) h.answers).trans (hs.accept n)
  contentType n :=
    (congrArg (fun answers => (answers n).contentType) h.answers).trans (hs.contentType n)
  authorization n :=
    (congrArg (fun answers => (answers n).authorization) h.answers).trans (hs.authorization n)

/-- What memory allows of an outline is all of it. -/
theorem Outline.message_of_succeeds {o : Outline} {settings : Settings} {H : Heap}
    (hs : H.Succeeds) (hshaped : o.Shaped) (hfit : settings.Fits o) :
    (o.message H).1 = some ⟨some o.path.text, o.body.map Text.text⟩ := by
  have hpath : o.path.pieces ≠ [] := by
    rcases hshaped.path with ⟨p, hp⟩ | ⟨ps, hps, hne, -⟩
    · rw [hp]
      exact List.cons_ne_nil _ _
    · rw [hps]
      exact hne
  obtain ⟨H₁, hwritten, hs₁⟩ := Text.written_of_succeeds hs hpath hfit.path
  rw [message, hwritten]
  cases ho : o.body with
  | none => rfl
  | some body =>
    obtain ⟨H₂, hwritten', -⟩ :=
      Text.written_of_succeeds hs₁ (hshaped.body body ho) (hfit.body body ho)
    simp only [hwritten', Option.map_some]

/-- The header for a token is there, if allocation succeeds. -/
theorem bearer_of_succeeds {token : CStr} {H : Heap} (hs : H.Succeeds)
    (hfit : token.bytes.length + 22 < SIZE_MAX) : (bearer token H).1 = true := by
  have hlen : (ascii "Authorization: Bearer ").length = 22 := rfl
  have hlen' : (Sbuf.empty.push (ascii "Authorization: Bearer ")).len = 22 := rfl
  have hempty : Sbuf.empty.len = 0 := rfl
  obtain ⟨H₁, he, hs₁⟩ := Sbuf.empty.append_push
    (ascii "Authorization: Bearer ") hs (by omega)
  obtain ⟨H₂, he', -⟩ := (Sbuf.empty.push (ascii "Authorization: Bearer ")).append_push
    token.bytes hs₁ (by omega)
  simp only [bearer, he, he', if_true]

/-- The request that is made for an outline is the one meant. -/
theorem Outline.sends?_of_steady {o : Outline} (hs : s.Steady) (hshaped : o.Shaped)
    (hfit : s.c.settings.Fits o) : o.sends? s = some (s.c.settings.request o) := by
  have hurl : (s.buildsUrl o.path.text).2.Succeeds := fun n =>
    (congrFun (Sbuf.appendAll_grants _ _ _) n).trans (hs.transfer n)
  have hintact : s.Intact o.path.text (o.body.map Text.text) := by
    refine ⟨⟨hs.transfer.granted _, hfit.url⟩, hs.accept _, fun _ => hs.contentType _,
      fun _ username husername => ⟨?_, hfit.userpwd username husername⟩⟩
    exact hurl.granted _
  have hauthorized : (s.c.authorized s.answer (s.buildsUrl o.path.text).2).isSome = true := by
    have hauthorization : s.answer.authorization = true := hs.authorization _
    rw [Client.authorized]
    cases htoken : s.c.token with
    | some token =>
      simp only [bearer_of_succeeds hurl (hfit.token token htoken), hauthorization, Bool.and_self,
        if_true, Option.isSome_some]
    | none => cases s.c.username <;> rfl
  have hmessage := Outline.message_of_succeeds hs.body hshaped hfit
  have hinit : s.answer.init = true := hs.init _
  rw [sends?, hmessage, Option.bind_some, Option.bind_some, Session.sends?, hinit, hauthorized,
    Bool.true_and, if_pos rfl, made_of_intact hintact]
  rfl

/-! ## The machine -/

/-- What the server sees: the settings, and the requests, the last one first. -/
structure Wire where
  settings : Settings
  sent : List Request

/-- A step of a program, as the server sees it. -/
def Wire.step (lib : Libc) : Step → Wire → Wire
  | .setTimeout timeoutSeconds, w => { w with settings := w.settings.setTimeout timeoutSeconds }
  | .call call, w => { w with sent := ((call.outline lib).map w.settings.request).toList ++ w.sent }

/-- What the server sees of a session. -/
def Session.wire (s : Session) : Wire := ⟨s.c.settings, s.curl.sent⟩

/-- The settings differ by the timeout only. -/
def Settings.Matches (settings settings' : Settings) : Prop :=
  ∃ timeoutSeconds, settings' = { settings with timeoutSeconds := timeoutSeconds }

theorem Settings.Matches.fits {settings settings' : Settings} {o : Outline}
    (h : settings.Matches settings') (hfit : settings.Fits o) : settings'.Fits o := by
  obtain ⟨timeoutSeconds, rfl⟩ := h
  exact ⟨hfit.path, hfit.body, hfit.url, hfit.token, hfit.userpwd⟩

/-- What a program sends fits in `size_t`. -/
def Settings.FitsAll (settings : Settings) (lib : Libc) (steps : List Step) : Prop :=
  ∀ call, .call call ∈ steps → ∀ o ∈ call.outline lib, settings.Fits o

/-- A call is a step of the machine. -/
theorem Call.refines {call : Call} (hs : s.Steady)
    (hfit : ∀ o ∈ call.outline lib, s.c.settings.Fits o) :
    ∃ s', Session.next lib (.call call) s = some s' ∧ s'.Steady ∧
      s'.wire = s.wire.step lib (.call call) := by
  have hsends : call.sends? lib s = (call.outline lib).map s.c.settings.request := by
    rw [sends?]
    cases ho : call.outline lib with
    | none => rfl
    | some o => exact Outline.sends?_of_steady hs (Call.outline_shaped ho) (hfit o ho)
  cases hreturns : call.returns lib s with
  | none =>
    -- There is memory for the path.
    obtain ⟨o, ps, ho, hps, hno⟩ := (Call.returns_none_iff call).1 hreturns
    rcases (Call.outline_shaped ho).path with ⟨p, hp⟩ | ⟨ps', hps', hne, -⟩
    · cases hps.symm.trans hp
    · obtain rfl := Text.built.inj (hps.symm.trans hps')
      cases (hno 0 (List.length_pos_iff.2 hne)).symm.trans (hs.body _)
  | some r =>
    have heffect : call.Effect lib s r.1 r.2 := Call.effect hreturns
    refine ⟨r.2, by rw [Session.next, hreturns]; rfl, heffect.toLinked.steady hs, ?_⟩
    rw [Session.wire, Call.effect_settings heffect, heffect.sent, hsends]
    rfl

/-- Every program goes through, and what is sent is what the machine sends. -/
theorem run_sends {steps : List Step} (hs : s.Steady) (hfit : s.c.settings.FitsAll lib steps) :
    ∃ s', run (Session.next lib) steps s = some s' ∧
      s'.wire = runAll (Wire.step lib) steps s.wire := by
  have hstep : ∀ step ∈ steps, ∀ (s₁ : Session) (w : Wire),
      (s₁.Steady ∧ s.c.settings.Matches s₁.c.settings ∧ s₁.wire = w) →
      ∃ s₂, Session.next lib step s₁ = some s₂ ∧ s₂.Steady ∧
        s.c.settings.Matches s₂.c.settings ∧ s₂.wire = w.step lib step := by
    rintro step hmem s₁ _ ⟨hs₁, hmatches, rfl⟩
    -- A new timeout leaves the session steady and is a setting of the next request.
    cases step with
    | setTimeout timeoutSeconds =>
      obtain ⟨t, hmatches⟩ := hmatches
      exact ⟨s₁.setTimeout timeoutSeconds, rfl, ⟨hs₁.body, hs₁.transfer, hs₁.init, hs₁.accept,
        hs₁.contentType, hs₁.authorization⟩, ⟨_, congrArg (·.setTimeout timeoutSeconds) hmatches⟩,
        rfl⟩
    | call call =>
      obtain ⟨s₂, hnext, hs₂, hwire⟩ := Call.refines hs₁ fun o ho =>
        hmatches.fits (hfit call hmem o ho)
      exact ⟨s₂, hnext, hs₂,
        (congrArg s.c.settings.Matches (congrArg Wire.settings hwire)).mpr hmatches,
        hwire⟩
  obtain ⟨s', hrun, -, -, hwire⟩ := run_refines hstep ⟨hs, ⟨_, rfl⟩, rfl⟩
  exact ⟨s', hrun, hwire⟩

/-- A client that has just connected takes every request. -/
theorem Session.connected_steady (status : Int) (recv : Bytes) :
    (Session.connected fun _ => .of status recv).Steady :=
  ⟨Heap.unlimited_succeeds, Heap.unlimited_succeeds, fun _ => rfl, fun _ => rfl, fun _ => rfl,
    fun _ => rfl⟩

theorem connected_fits_health (answers : Nat → Answer) :
    (Session.connected answers).c.settings.FitsAll Libc.zero [.setTimeout 5, .call .health] := by
  intro call hmem o ho
  obtain rfl : call = .health := by
    rcases List.mem_cons.1 hmem with h | h
    · cases h
    · exact Step.call.inj (List.mem_singleton.1 h)
  obtain rfl := Option.some.inj ho
  have hurl : (urlOf (.lit "http://127.0.0.1:8453")
    (Text.whole (.lit "/health")).text).bytes.length <
      SIZE_MAX := by decide
  exact ⟨by decide, fun _ h => (by cases h), hurl, fun _ h => (by cases h),
    fun _ h => (by cases h)⟩

/-- A program of one request. -/
theorem run_health_sends : ∃ s', run (Session.next Libc.zero) [.setTimeout 5, .call .health]
      (.connected fun _ => .of 404 []) = some s' ∧
    s'.wire = runAll (Wire.step Libc.zero) [.setTimeout 5, .call .health]
      (Session.connected fun _ => .of 404 []).wire :=
  run_sends (Session.connected_steady 404 []) (connected_fits_health _)

/-- What a program sends does not depend on what the server answers, nor on memory for
    results. -/
theorem run_sends_alike {steps : List Step} {t : Session} (hs : s.Steady) (ht : t.Steady)
    (hwire : s.wire = t.wire) (hfit : s.c.settings.FitsAll lib steps) :
    ∃ s' t', run (Session.next lib) steps s = some s' ∧ run (Session.next lib) steps t = some t' ∧
      s'.wire = t'.wire := by
  have hsettings : t.c.settings = s.c.settings := congrArg Wire.settings hwire.symm
  obtain ⟨s', hrun, hsent⟩ := run_sends hs hfit
  obtain ⟨t', hrun', hsent'⟩ := @run_sends lib t steps ht (hsettings ▸ hfit)
  exact ⟨s', t', hrun, hrun', by rw [hsent, hsent', hwire]⟩

/-- Two servers. -/
theorem run_health_sends_alike : ∃ s' t',
    run (Session.next Libc.zero) [.setTimeout 5, .call .health]
      (.connected fun _ => .of 404 []) = some s' ∧
    run (Session.next Libc.zero) [.setTimeout 5, .call .health]
      (.connected fun _ => .of 200 [lbrace]) = some t' ∧ s'.wire = t'.wire :=
  run_sends_alike (Session.connected_steady 404 []) (Session.connected_steady 200 [lbrace]) rfl
    (connected_fits_health _)

end MongrelDB
