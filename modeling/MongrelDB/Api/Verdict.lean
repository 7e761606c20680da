import MongrelDB.Api.Wire
import MongrelDB.Client.Verdict

/-!
# Answers and calls

If no allocation is refused (`Session.Calm`), what a call returns follows from its answer: the
code and the text of a request that fails are those of its verdict, and what is decoded
otherwise is the body of that answer (`Call.Heeds`).

The answers are used up in their order. A call takes the next one exactly if it asks for
something, so none is skipped and none is used twice: in a program, a call heeds the answer
behind those of the calls in front of it (`run_heeds`).
-/

namespace MongrelDB

open Prog

variable {lib : Libc} {s s' : Session} {path : CStr}

/-! ## Requests are counted -/

/-- Behind the transfer, no request is begun. -/
theorem receive_begun (rc : CurlCode) (httpCode : Int) :
    wp (receive rc httpCode) (fun _ s' => s'.curl.begun = s.curl.begun)
      (fun _ s' => s'.curl.begun = s.curl.begun) s := by
  refine wp_receive (fun _ => ?_) (fun _ _ => ?_) (fun _ => ?_) fun _ _ _ => ?_
  · exact wp_mono (setError_spec _ _) (fun _ s' h => h.1.begun) fun _ _ h => h
  · exact wp_mono (setError_spec _ _) (fun _ s' h => h.1.begun) fun _ _ h => h
  · exact wp_mono (fail_spec _ _) (fun _ _ h => h.elim) fun rc' s' h => h.2.1.begun
  · split_ifs
    · exact wp_mono (httpError_spec httpCode) (fun _ _ h => h.elim) fun rc' s' h => h.2.1.begun
    · rfl

/-- A request to a path that is there takes one answer. -/
theorem doRequest_begun (method path : CStr) (body : Option CStr) :
    wp (doRequest method (some path) body) (fun _ s' => s'.curl.begun = s.curl.begun + 1)
      (fun _ s' => s'.curl.begun = s.curl.begun + 1) s := by
  refine wp_doRequest (wp_mono (buildUrl_spec path) (fun url s₁ h₁ => ?_) fun _ _ h => h)
  have hbegun : s₁.begin.curl.begun = s.curl.begun + 1 := congrArg (· + 1) h₁.1.begun
  refine ⟨fun _ => ?_, fun _ => ?_⟩
  · exact wp_mono (fail_spec .network _) (fun _ _ h => h.elim) fun rc s' h =>
      h.2.1.begun.trans hbegun
  · refine wp_mono (authorize_spec _ _) (fun x s₂ h₂ => ?_) fun rc s' h => h.2.1.begun.trans hbegun
    have hsend : ∀ req ans, wp (send req ans) (fun _ s₃ => s₃.curl.begun = s₂.curl.begun)
      (fun _ _ => False) s₂ := fun _ _ => rfl
    refine wp_mono (hsend _ _) (fun rc s₃ h₃ => ?_) fun _ _ h => h.elim
    have hall := h₃.trans (h₂.begun.trans hbegun)
    exact wp_mono (receive_begun rc _) (fun _ _ h => h.trans hall) fun _ _ h => h.trans hall

/-! ## Calls -/

/-- A session in which no allocation is refused but perhaps for results, and libcurl takes
    every request. -/
structure Session.Calm (s : Session) : Prop extends s.Steady where
  error : s.heaps.error.Succeeds

/-- A call returns what follows from this answer. -/
structure Call.Heeds (lib : Libc) (call : Call) (s : Session) (ans : Answer) (rc : Code)
    (s' : Session) : Prop where
  /-- A request that fails: its code and its text. -/
  failed : ans.verdict.code ≠ .ok →
    rc = ans.verdict.code ∧ s'.c.lastCode = rc ∧ s'.c.lastError = ans.verdict.text
  /-- A request that succeeds: the body of the answer is what is decoded. -/
  succeeded : ans.verdict.code = .ok → s'.c.lastCode = .ok ∧ s'.c.lastError = ans.verdict.text ∧
    ∃ s₁, s₁.c.recv.data = ans.body ∧ s₁.heaps.decode = s.heaps.decode ∧
      ends .ok (call.finish lib) s₁ = some (rc, s')

/-- A call takes the next answer. -/
structure Session.Takes (s s' : Session) : Prop where
  calm : s'.Calm
  settings : s'.c.settings = s.c.settings
  answers : s'.curl.answers = s.curl.answers
  begun : s'.curl.begun = s.curl.begun + 1

theorem Outline.ready_of_calm {o : Outline} (hs : s.Calm) (hfit : s.c.settings.Fits o) :
    s.Ready o.path.text where
  transfer := hs.transfer
  init := hs.init _
  authorization := fun _ => hs.authorization _
  path := hfit.url
  token := hfit.token

/-- What a request leaves is calm again. -/
theorem Session.Kept.calm (h : s.Kept s') (hs : s.Calm) : s'.Calm where
  body := h.body ▸ hs.body
  transfer n := (congrFun h.transfer n).trans (hs.transfer n)
  init n := (congrArg (fun answers => (answers n).init) h.answers).trans (hs.init n)
  accept n := (congrArg (fun answers => (answers n).accept) h.answers).trans (hs.accept n)
  contentType n :=
    (congrArg (fun answers => (answers n).contentType) h.answers).trans (hs.contentType n)
  authorization n :=
    (congrArg (fun answers => (answers n).authorization) h.answers).trans (hs.authorization n)
  error n := (congrFun h.error n).trans (hs.error n)

theorem Session.Kept.settings (h : s.Kept s') : s'.c.settings = s.c.settings := by
  rw [Client.settings, h.baseUrl, h.token, h.username, h.password, h.timeoutSeconds]
  rfl

/-- A call that asks for something takes the next answer, and heeds it. -/
theorem Call.heeds {call : Call} {o : Outline} (hs : s.Calm) (hfit : s.c.settings.Fits o)
    (ho : call.outline lib = some o) :
    ∃ rc s', call.returns lib s = some (rc, s') ∧ s.Takes s' ∧
      call.Heeds lib s s.answer rc s' := by
  have hmessage := Outline.message_of_succeeds hs.body (Call.outline_shaped ho) hfit
  have hgrants := o.message_grants s.heaps.body
  rcases hm : o.message s.heaps.body with ⟨message, H⟩
  rw [hm] at hmessage hgrants
  obtain rfl : message = some ⟨some o.path.text, o.body.map Text.text⟩ := hmessage
  -- The session in front of the request, where the texts are written.
  have hs₀ : Session.Calm { s with heaps := { s.heaps with body := H } } :=
    ⟨⟨fun n => (congrFun hgrants n).trans (hs.body n), hs.transfer, hs.init, hs.accept,
      hs.contentType, hs.authorization⟩, hs.error⟩
  have hready := Outline.ready_of_calm (o := o) hs₀ hfit
  have hrequest := wp_and (wp_and (doRequest_verdict hready hs₀.error o.method
    (o.body.map Text.text)) (doRequest_ready hready o.method (o.body.map Text.text)))
    (doRequest_begun o.method o.path.text (o.body.map Text.text))
  have hrun := Outline.request_of_some hm
  rw [call.returns_eq ho]
  unfold wp at hrequest
  cases hdo : doRequest o.method (some o.path.text) (o.body.map Text.text)
      { s with heaps := { s.heaps with body := H } } with
  | val _ s₁ =>
    rw [hdo] at hrequest
    obtain ⟨⟨⟨hok, hcode, htext, hrecv⟩, hreq⟩, hbegun⟩ := hrequest
    have hends : ends .ok (o.request >>= fun _ => call.finish lib) s =
        ends .ok (call.finish lib) s₁ := by
      rw [ends, bind_of_val (hrun.trans hdo), ← ends]
    obtain ⟨rc, s₂, hfinish, hdec⟩ := ends_of_wp (P := fun _ s' => s₁.Decoded s')
      (wp_mono (call.finish_spec lib) (fun _ _ h => h.decoded) fun _ _ h => h.2.decoded)
    have hcalm := hreq.toKept.calm hs₀
    obtain ⟨names, scratch, decode, rfl⟩ := hdec
    refine ⟨rc, _, hends.trans hfinish, ⟨⟨⟨hcalm.body, hcalm.transfer, hcalm.init, hcalm.accept,
      hcalm.contentType, hcalm.authorization⟩, hcalm.error⟩, hreq.toKept.settings, hreq.answers,
      hbegun⟩, fun hne => absurd hok hne, fun _ => ?_⟩
    exact ⟨hcode, htext, s₁, hrecv, hreq.decode, hfinish⟩
  | ret rc s₁ =>
    rw [hdo] at hrequest
    obtain ⟨⟨⟨hrc, hverdict, hcode, htext⟩, -, hreq⟩, hbegun⟩ := hrequest
    have hends : ends .ok (o.request >>= fun _ => call.finish lib) s = some (rc, s₁) := by
      change ends .ok (Prog.bind o.request fun _ => call.finish lib) s = _
      rw [ends, Prog.bind, hrun.trans hdo]
    exact ⟨rc, s₁, hends, ⟨hreq.toKept.calm hs₀, hreq.toKept.settings, hreq.answers, hbegun⟩,
      fun _ => ⟨hverdict, hcode, htext⟩, fun hok => absurd (hverdict.trans hok) hrc⟩
  | fault f =>
    rw [hdo] at hrequest
    exact hrequest.elim

/-! ## Programs -/

/-- Whether a step takes an answer. -/
def Step.asks (lib : Libc) : Step → Bool
  | .setTimeout _ => false
  | .call c => (c.outline lib).isSome

/-- Calm sessions of one client, in which this many requests are begun. -/
structure Session.Reaches (s s' : Session) (begun : Nat) : Prop where
  calm : s'.Calm
  settings : s.c.settings.Matches s'.c.settings
  answers : s'.curl.answers = s.curl.answers
  begun : s'.curl.begun = begun

/-- A step takes the next answer, or none. -/
theorem Session.Reaches.step {s₁ : Session} {n : Nat} (h : s.Reaches s₁ n) {step : Step}
    (hfit : ∀ call, step = .call call → ∀ o ∈ call.outline lib, s.c.settings.Fits o) :
    ∃ s₂, Session.next lib step s₁ = some s₂ ∧
      s.Reaches s₂ (if step.asks lib then n + 1 else n) := by
  cases step with
  | setTimeout timeoutSeconds =>
    obtain ⟨t, hmatches⟩ := h.settings
    exact ⟨s₁.setTimeout timeoutSeconds, rfl, ⟨⟨h.calm.body, h.calm.transfer, h.calm.init,
      h.calm.accept, h.calm.contentType, h.calm.authorization⟩, h.calm.error⟩,
      ⟨_, congrArg (·.setTimeout timeoutSeconds) hmatches⟩, h.answers, h.begun⟩
  | call call =>
    cases ho : call.outline lib with
    | some o =>
      obtain ⟨rc, s₂, hreturns, htakes, -⟩ := Call.heeds h.calm
        (h.settings.fits (hfit call rfl o ho)) ho
      have hasks : (Step.call call).asks lib = true := by rw [Step.asks, ho]; rfl
      rw [hasks, if_pos rfl]
      refine ⟨s₂, by rw [Session.next, hreturns]; rfl, htakes.calm, ?_,
        htakes.answers.trans h.answers, htakes.begun.trans (congrArg (· + 1) h.begun)⟩
      rw [htakes.settings]
      exact h.settings
    | none =>
      obtain ⟨rc, s₂, hreturns, hdeclined, -⟩ := call.returns_declined ho s₁
      have hasks : ¬(Step.call call).asks lib = true := by rw [Step.asks, ho]; decide
      rw [if_neg hasks]
      refine ⟨s₂, by rw [Session.next, hreturns]; rfl, ?_⟩
      -- Nothing changes but the error slot.
      obtain ⟨code, msg, body, error, rfl, hbody, herror⟩ := hdeclined
      exact ⟨⟨⟨fun n => (congrFun hbody n).trans (h.calm.body n), h.calm.transfer, h.calm.init,
          h.calm.accept, h.calm.contentType, h.calm.authorization⟩,
          fun n => (congrFun herror n).trans (h.calm.error n)⟩, h.settings, h.answers, h.begun⟩

theorem runAll_asks (steps : List Step) (n : Nat) :
    runAll (fun step n => if Step.asks lib step then n + 1 else n) steps n =
      n + steps.countP (Step.asks lib) := by
  induction steps generalizing n with
  | nil => rfl
  | cons step steps ih =>
    rw [runAll, ih, List.countP_cons]
    split_ifs <;> omega

/-- In a program, a call heeds the answer behind those of the calls in front of it: no answer is
    skipped, and none is used twice. -/
theorem run_heeds {steps : List Step} {call : Call} {o : Outline} (hs : s.Calm)
    (hfit : s.c.settings.FitsAll lib (steps ++ [.call call])) (ho : call.outline lib = some o) :
    ∃ s₁ rc s₂, run (Session.next lib) steps s = some s₁ ∧
      call.returns lib s₁ = some (rc, s₂) ∧ call.Heeds lib s₁
        (s.curl.answers (s.curl.begun + steps.countP (Step.asks lib))) rc s₂ := by
  have hstep : ∀ step ∈ steps, ∀ (s₁ : Session) (n : Nat), s.Reaches s₁ n →
      ∃ s₂, Session.next lib step s₁ = some s₂ ∧
        s.Reaches s₂ (if step.asks lib then n + 1 else n) := by
    intro step hmem s₁ n h
    refine h.step fun c hc o ho => hfit c (List.mem_append_left _ ?_) o ho
    exact hc ▸ hmem
  obtain ⟨s₁, hrun, h₁⟩ := run_refines hstep ⟨hs, ⟨_, rfl⟩, rfl, rfl⟩
  rw [runAll_asks] at h₁
  have hfits : s.c.settings.Fits o := hfit call
    (List.mem_append_right _ (List.mem_singleton.2 rfl)) o ho
  obtain ⟨rc, s₂, hreturns, -, hheeds⟩ := Call.heeds h₁.calm (h₁.settings.fits hfits) ho
  have hanswer : s₁.answer =
      s.curl.answers (s.curl.begun + steps.countP (Step.asks lib)) := by
    rw [Session.answer, h₁.answers, h₁.begun]
  exact ⟨s₁, rc, s₂, hrun, hreturns, hanswer ▸ hheeds⟩

/-- The second of two requests, which the server does not allow. -/
theorem run_health_heeds : ∃ s₁ rc s₂,
    run (Session.next Libc.zero) [.setTimeout 5, .call .health]
      (.connected fun _ => .of 401 []) = some s₁ ∧
    Call.returns Libc.zero .health s₁ = some (rc, s₂) ∧
    Call.Heeds Libc.zero .health s₁ (.of 401 []) rc s₂ := by
  have hcalm : (Session.connected fun _ => .of 401 []).Calm :=
    ⟨Session.connected_steady 401 [], Heap.unlimited_succeeds⟩
  have hfit : (Session.connected fun _ => .of 401 []).c.settings.FitsAll Libc.zero
      ([.setTimeout 5, .call .health] ++ [.call .health]) := by
    intro call hmem
    refine connected_fits_health (fun _ => .of 401 []) call ?_
    rcases List.mem_append.1 hmem with h | h
    · exact h
    · exact List.mem_cons_of_mem _ h
  exact run_heeds hcalm hfit rfl

end MongrelDB
