import MongrelDB.Api.Calls
import MongrelDB.Client.Alike

/-!
# What a program sees

A program sees of a call the code it returns, what it hands over, the text in the error slot,
and, at the server, the requests (`Observed`). All of it is the same in two sessions that are
alike (`observed_alike`): what a program sees depends neither on what earlier calls have left in
the buffers of the client, nor on the parts in which libcurl hands over the responses.

What a call hands over is looked at only if it returns `MDB_OK`. What `table_names` or a query
leaves in its out-parameters when it fails is not part of what is seen.

Each function is a request and then a decoding of the response: requests go alike
(`doRequest_alike`), and a decoding begins with the buffers freed, so that nothing of an
earlier result is in a later one (`takePage_alike`).
-/

namespace MongrelDB

open Prog

/-! ## What is seen -/

/-- What a call hands over, with the buffers it points into. -/
inductive Shown where
  | nothing
  | number (n : Int64)
  | names (out : NamesResult) (names : NamesScratch)
  | page (out : PageResult) (scratch : Scratch)
  | status (out : QueryStatus)
  | retention (out : HistoryRetention)
  | text (t : CStr)

/-- The names are shown with the buffers they are in. -/
def namesShown (out : NamesResult) : Api Shown := do
  return .names out (← get).c.names

/-- The rows are shown with the buffers they are in. -/
def pageShown (out : PageResult) : Api Shown := do
  return .page out (← get).c.scratch

/-- A call, with what it hands over. -/
def Call.shown (lib : Libc) : Call → Api Shown
  | .lastErrorCode => mongreldbLastErrorCode >>= fun _ => pure .nothing
  | .health => mongreldbHealth >>= fun _ => pure .nothing
  | .tableNames outNames outCount => mongreldbTableNames outNames outCount >>= namesShown
  | .createTable name columns => mongreldbCreateTable lib name columns >>= fun n => pure (.number n)
  | .createTableWithConstraintsJson name columns constraintsJson =>
    mongreldbCreateTableWithConstraintsJson lib name columns constraintsJson >>= fun n =>
      pure (.number n)
  | .createTableWithSchemaJson name columns constraintsJson indexes =>
    mongreldbCreateTableWithSchemaJson lib name columns constraintsJson indexes >>= fun n =>
      pure (.number n)
  | .historyRetentionGet => mongreldbHistoryRetentionGet lib >>= fun r => pure (.retention r)
  | .historyRetentionSet epochs =>
    mongreldbHistoryRetentionSet lib epochs >>= fun r => pure (.retention r)
  | .dropTable name => mongreldbDropTable name >>= fun _ => pure .nothing
  | .count table outCount => mongreldbCount lib table outCount >>= fun n => pure (.number n)
  | .put table cells idempotencyKey =>
    mongreldbPut lib table cells idempotencyKey >>= fun _ => pure .nothing
  | .upsert table cells updateCells idempotencyKey =>
    mongreldbUpsert lib table cells updateCells idempotencyKey >>= fun _ => pure .nothing
  | .delete table rowId => mongreldbDelete lib table rowId >>= fun _ => pure .nothing
  | .deleteByPk table pk => mongreldbDeleteByPk lib table pk >>= fun _ => pure .nothing
  | .commit ops idempotencyKey => mongreldbCommit lib ops idempotencyKey >>= fun _ => pure .nothing
  | .query table conditions projection limit outResult =>
    mongreldbQuery lib table conditions projection limit outResult >>= pageShown
  | .queryPage table conditions projection limit offset outResult =>
    mongreldbQueryPage lib table conditions projection limit offset outResult >>= pageShown
  | .sql text => mongreldbSql text >>= fun t => pure (.text t)
  | .queryStatusGet queryId out =>
    mongreldbQueryStatusGet lib queryId out >>= fun status => pure (.status status)
  | .cancelQuery queryId => mongreldbCancelQuery queryId >>= fun t => pure (.text t)
  | .retrieveText table embeddingColumn text k =>
    mongreldbRetrieveText table embeddingColumn text k >>= fun t => pure (.text t)
  | .schema outBody => mongreldbSchema outBody >>= fun t => pure (.text t)
  | .schemaFor table outBody => mongreldbSchemaFor table outBody >>= fun t => pure (.text t)

/-- What a program sees of a call, with what it hands over if it has not failed, and the requests
    made so far. -/
structure Observed where
  code : Code
  shown : Option Shown
  error : CStr
  sent : List Request

/-- What is seen of a call, and the session it leaves, unless it faults. -/
def Call.observed (lib : Libc) (call : Call) (s : Session) : Option (Observed × Session) :=
  match call.shown lib s with
  | .val a s' => some (⟨.ok, some a, s'.c.lastError, s'.curl.sent⟩, s')
  | .ret e s' => some (⟨e, none, s'.c.lastError, s'.curl.sent⟩, s')
  | .fault _ => none

/-- What is seen of the calls of a program, up to the first one that faults. -/
def observed (lib : Libc) : List Step → Session → List Observed
  | [], _ => []
  | .setTimeout timeoutSeconds :: steps, s => observed lib steps (s.setTimeout timeoutSeconds)
  | .call call :: steps, s =>
    match call.observed lib s with
    | none => []
    | some (x, s') => x :: observed lib steps s'

section

variable {lib : Libc} {s : Session}

/-- How a program ends is how it ends with a value of its own. -/
theorem ends_then {α β : Type} (x : Api α) {f : α → Api β} (hf : ∀ a s, ∃ b, f a s = .val b s) :
    ends .ok (x >>= f) s = ends .ok x s := by
  change ends .ok (Prog.bind x f) s = _
  rw [ends, ends, Prog.bind]
  cases x s with
  | val a s' =>
    obtain ⟨b, hb⟩ := hf a s'
    simp only [hb]
  | ret e s' => rfl
  | fault f => rfl

theorem Call.ends_shown (lib : Libc) (call : Call) (s : Session) :
    ends .ok (call.shown lib) s = call.returns lib s := by
  cases call <;> exact ends_then _ fun _ _ => ⟨_, rfl⟩

/-- The codes that are seen are those the calls return. -/
theorem observed_codes (steps : List Step) :
    (observed lib steps s).map Observed.code = (results lib steps s).map Prod.fst := by
  induction steps generalizing s with
  | nil => rfl
  | cons step steps ih =>
    cases step with
    | setTimeout timeoutSeconds => exact ih
    | call call =>
      have hends := call.ends_shown lib s
      rw [ends] at hends
      rw [observed, results, Call.observed, ← hends]
      cases call.shown lib s with
      | val a s' => exact congrArg (Code.ok :: ·) ih
      | ret e s' => exact congrArg (e :: ·) ih
      | fault f => rfl

end

/-! ## Parts of a call -/

variable {split : Bool} {s t : Session} {lib : Libc} {α : Type}

/-- From both sessions, a program ends alike, with one value. -/
def Session.Does (split : Bool) (x : Api α) (s t : Session) : Prop :=
  pairs x x (fun a s b t => a = b ∧ s.Alike split t) (Session.Alike split) s t

namespace Session.Does

variable {β : Type} {x : Api α} {f : α → Api β}

theorem pure {a : α} (h : s.Alike split t) : Does split (Pure.pure a) s t := pairs_pure ⟨rfl, h⟩

theorem ret {rc : Code} (h : s.Alike split t) : Does split (Prog.ret rc : Api α) s t := pairs_ret h

theorem fail (h : s.Alike split t) (code : Code) (msg : String) :
    Does split (MongrelDB.fail code msg : Api α) s t :=
  fail_alike h code msg

theorem lift {z : Run α} (h : s.Alike split t) : Does split (Prog.lift z : Api α) s t :=
  pairs_lift fun _ _ => ⟨rfl, h⟩

theorem bind (hx : Does split x s t)
    (hf : ∀ a s t, s.Alike split t → Does split (f a) s t) : Does split (x >>= f) s t := by
  refine pairs_bind hx ?_
  rintro a s₁ _ t₁ ⟨rfl, h₁⟩
  exact hf a s₁ t₁ h₁

/-- A value is handed over in another form. -/
theorem map {f : α → β} (hx : Does split x s t) :
    Does split (x >>= fun a => Pure.pure (f a)) s t :=
  hx.bind fun _ _ _ h => Does.pure h

/-- A call that refuses its arguments, or goes on. -/
theorem orRefuse {c : Prop} [Decidable c] {rc : Code} {y : Api β} (h : s.Alike split t)
    (hy : Does split y s t) : Does split (if c then Prog.ret rc >>= f else y) s t :=
  pairs_ite Iff.rfl (fun _ => pairs_bind (Q := fun _ _ _ _ => False) (pairs_ret h)
    fun _ _ _ _ h => h.elim) fun _ => hy

theorem orFail {c : Prop} [Decidable c] {code : Code} {msg : String} {y : Api β}
    (h : s.Alike split t) (hy : Does split y s t) :
    Does split (if c then MongrelDB.fail code msg >>= f else y) s t :=
  pairs_ite Iff.rfl (fun _ => pairs_bind (Q := fun _ _ _ _ => False) (fail_alike h code msg)
    fun _ _ _ _ h => h.elim) fun _ => hy

/-- A request, and what is done with the response. -/
theorem request {f : Unit → Api β} (h : s.Alike split t) (method : CStr)
    (path body : Option CStr) (hf : ∀ s t, s.Responded split t → Does split (f ()) s t) :
    Does split (doRequest method path body >>= f) s t :=
  pairs_bind (doRequest_alike h method path body) fun _ s _ t h => hf s t h

/-- A request, and nothing else. -/
theorem requestOnly (h : s.Alike split t) (method : CStr) (path body : Option CStr) :
    Does split (doRequest method path body) s t :=
  pairs_mono (doRequest_alike h method path body) (fun _ _ _ _ h => ⟨rfl, h.alike⟩) fun _ _ h => h

end Session.Does

open Session

theorem bodyAppends_does (h : s.Alike split t) (ps : Appends) :
    Does split (bodyAppends ps) s t := by
  obtain ⟨r, rfl, hr⟩ := h
  exact pairs_get (pairs_bind (pairs_modify (Q := fun _ s _ t => s.Alike split t)
    ⟨r, rfl, hr.transfer, hr.answers⟩) fun _ _ _ _ h => pairs_pure ⟨rfl, h⟩)

theorem checkedAppends_does (h : s.Alike split t) (buf : Sbuf) (ps : Appends) (p : Bytes) :
    Does split (checkedAppends buf ps p) s t := by
  obtain ⟨r, rfl, hr⟩ := h
  exact pairs_get (pairs_bind (pairs_modify (Q := fun _ s _ t => s.Alike split t)
    ⟨r, rfl, hr.transfer, hr.answers⟩) fun _ _ _ _ h => pairs_pure ⟨rfl, h⟩)

/-! ## Responses -/

theorem takeNumber_does (h : s.Responded split t) (key : CStr) :
    Does split (takeNumber lib key) s t := by
  have halike := h.alike
  obtain ⟨⟨⟨data, cap⟩, names, scratch, transfer, answers⟩, rfl, -, hdata, -⟩ := h
  obtain rfl : data = s.c.recv.data := hdata
  exact pairs_get (Does.bind (Does.lift halike) fun _ _ _ h => Does.pure h)

theorem takeResponse_does (h : s.Responded split t) : Does split takeResponse s t := by
  have halike := h.alike
  obtain ⟨r, rfl, -, -, hcstr⟩ := h
  have hresponse : s.c.response = (s.amid r).c.response := by
    rw [Client.response, ← hcstr]
    rfl
  exact pairs_get (pairs_pure ⟨hresponse, halike⟩)

theorem takeRetention_does (h : s.Responded split t) : Does split (takeRetention lib) s t := by
  have halike := h.alike
  obtain ⟨⟨⟨data, cap⟩, names, scratch, transfer, answers⟩, rfl, -, hdata, -⟩ := h
  obtain rfl : data = s.c.recv.data := hdata
  refine pairs_get (Does.bind (Does.lift halike) ?_)
  rintro ⟨rc, out⟩ s₁ t₁ h₁
  cases out with
  | some out => exact Does.pure h₁
  | none => exact Does.ret h₁

/-- A value is handed over, unless its decoding has failed. -/
def handOver (rc : Code) (a : α) : Api α := do
  if rc ≠ .ok then ret rc
  return a

theorem handOver_alike {Q : α → Session → α → Session → Prop} {a : α} (h : s.Alike split t)
    (hQ : Q a s a t) (rc : Code) :
    pairs (handOver rc a) (handOver rc a) Q (Session.Alike split) s t :=
  pairs_ite Iff.rfl (fun _ => pairs_bind (Q := fun _ _ _ _ => False) (pairs_ret h)
    fun _ _ _ _ h => h.elim) fun _ => pairs_pure hQ

/-- A status is decoded into a buffer that is freed first. -/
theorem queryStatusDecodeJson_freed (json : Bytes) (blob blob' : Sbuf) (H : Heap) :
    queryStatusDecodeJson lib (some json) blob H = queryStatusDecodeJson lib (some json) blob' H :=
  rfl

theorem takeStatus_does (h : s.Responded split t) : Does split (takeStatus lib) s t := by
  have halike := h.alike
  obtain ⟨⟨⟨data, cap⟩, names, scratch, transfer, answers⟩, rfl, -, hdata, -⟩ := h
  obtain rfl : data = s.c.recv.data := hdata
  refine pairs_get ?_
  dsimp only [amid]
  rw [queryStatusDecodeJson_freed s.c.recv.data scratch.valuesBlob s.c.scratch.valuesBlob]
  refine Does.bind (Does.lift halike) ?_
  rintro ⟨rc, out, blob, decode⟩ s₁ t₁ ⟨r₁, rfl, hr₁⟩
  refine pairs_bind (pairs_modify (Q := fun _ s _ t => s.Alike split t)
    ⟨{ r₁ with scratch := { r₁.scratch with valuesBlob := blob } }, rfl, hr₁.transfer,
      hr₁.answers⟩) ?_
  rintro _ s₂ _ t₂ h₂
  exact handOver_alike h₂ ⟨rfl, h₂⟩ rc

/-- The names are decoded into buffers that are freed first. -/
theorem decodeNames_freed (recv : Bytes) (c c' : NamesScratch) (H : Heap) :
    decodeNames recv c H = decodeNames recv c' H :=
  rfl

/-- The names are those of one response: none of them is left of an earlier call. -/
theorem takeNames_alike (h : s.Responded split t) :
    pairs takeNames takeNames (fun a s b t => a = b ∧ s.Alike split t ∧ t.c.names = s.c.names)
      (Session.Alike split) s t := by
  have halike := h.alike
  obtain ⟨⟨⟨data, cap⟩, names, scratch, transfer, answers⟩, rfl, -, hdata, -⟩ := h
  obtain rfl : data = s.c.recv.data := hdata
  refine pairs_get ?_
  dsimp only [amid]
  rw [decodeNames_freed s.c.recv.data names s.c.names]
  refine pairs_bind (Does.lift halike) ?_
  rintro ⟨rc, out, names₁, decode⟩ s₁ _ t₁ ⟨rfl, r₁, rfl, hr₁⟩
  refine pairs_bind (pairs_modify (Q := fun _ s _ t => s.Alike split t ∧ t.c.names = s.c.names)
    ⟨⟨{ r₁ with names := names₁ }, rfl, hr₁.transfer, hr₁.answers⟩, rfl⟩) ?_
  rintro _ s₂ _ t₂ ⟨h₂, hnames⟩
  exact handOver_alike h₂ ⟨rfl, h₂, hnames⟩ rc

/-- The rows are decoded into buffers that are freed first. -/
theorem decodePage_freed (recv : Bytes) (c c' : Scratch) (H : Heap) :
    decodePage lib recv c H = decodePage lib recv c' H :=
  rfl

/-- The rows are those of one response: nothing in them is left of an earlier call. -/
theorem takePage_alike (h : s.Responded split t) :
    pairs (takePage lib) (takePage lib)
      (fun a s b t => a = b ∧ s.Alike split t ∧ t.c.scratch = s.c.scratch)
      (Session.Alike split) s t := by
  have halike := h.alike
  obtain ⟨⟨⟨data, cap⟩, names, scratch, transfer, answers⟩, rfl, -, hdata, -⟩ := h
  obtain rfl : data = s.c.recv.data := hdata
  refine pairs_get ?_
  dsimp only [amid]
  rw [decodePage_freed s.c.recv.data scratch s.c.scratch]
  refine pairs_bind (Does.lift halike) ?_
  rintro ⟨rc, out, scratch₁, decode⟩ s₁ _ t₁ ⟨rfl, r₁, rfl, hr₁⟩
  refine pairs_bind (pairs_modify (Q := fun _ s _ t => s.Alike split t ∧ t.c.scratch = s.c.scratch)
    ⟨⟨{ r₁ with scratch := scratch₁ }, rfl, hr₁.transfer, hr₁.answers⟩, rfl⟩) ?_
  rintro _ s₂ _ t₂ ⟨h₂, hscratch⟩
  exact handOver_alike h₂ ⟨rfl, h₂, hscratch⟩ rc

/-! ## Calls -/

theorem mongreldbCreateTableWithSchemaJson_does (h : s.Alike split t) (name : Option CStr)
    (columns : Option (List Column)) (constraintsJson : Option CStr)
    (indexes : Option (List Index)) :
    Does split (mongreldbCreateTableWithSchemaJson lib name columns constraintsJson indexes)
      s t := by
  cases name with
  | none => exact Does.ret h
  | some name =>
    cases columns with
    | none => exact Does.ret h
    | some columns =>
      exact (bodyAppends_does h _).bind fun _ _ _ h =>
        Does.request h _ _ _ fun _ _ h => takeNumber_does h (.lit "table_id")

theorem mongreldbCommit_does (h : s.Alike split t) (ops : Option (List Op))
    (idempotencyKey : Option CStr) : Does split (mongreldbCommit lib ops idempotencyKey) s t := by
  cases ops with
  | none => exact Does.ret h
  | some ops =>
    refine pairs_ite Iff.rfl (fun _ => ?_) fun _ => Does.pure h
    refine pairs_ite Iff.rfl (fun _ => ?_) fun _ => ?_
    · exact (bodyAppends_does h _).bind fun _ _ _ h => Does.requestOnly h _ _ _
    · exact (bodyAppends_does h _).bind fun _ _ _ h => Does.fail h _ _

theorem commitOne_does (h : s.Alike split t) (op : Op) (idempotencyKey : Option CStr) :
    Does split (commitOne lib op idempotencyKey >>= fun _ => pure Shown.nothing) s t :=
  (mongreldbCommit_does h _ idempotencyKey).map

theorem mongreldbQueryPage_does (h : s.Alike split t) (table : Option CStr)
    (conditions : List Condition) (projection : List Int64) (limit offset : Int64)
    (outResult : Bool) :
    Does split (mongreldbQueryPage lib table conditions projection limit offset outResult >>=
      pageShown) s t := by
  refine pairs_bind (Q := fun a s b t => a = b ∧ s.Alike split t ∧ t.c.scratch = s.c.scratch) ?_ ?_
  · cases table with
    | none => exact pairs_ret h
    | some table =>
      refine pairs_ite Iff.rfl (fun _ => ?_) fun _ => ?_
      · exact pairs_bind (Q := fun _ _ _ _ => False) (pairs_ret h) fun _ _ _ _ h => h.elim
      · refine pairs_bind (bodyAppends_does h _) ?_
        rintro body s₁ _ t₁ ⟨rfl, h₁⟩
        exact pairs_bind (doRequest_alike h₁ _ _ body) fun _ _ _ _ h => takePage_alike h
  · rintro out s₁ _ t₁ ⟨rfl, h₁, hscratch⟩
    exact pairs_get (pairs_pure ⟨by rw [hscratch], h₁⟩)

theorem mongreldbTableNames_does (h : s.Alike split t) (outNames outCount : Bool) :
    Does split (mongreldbTableNames outNames outCount >>= namesShown) s t := by
  refine pairs_bind (Q := fun a s b t => a = b ∧ s.Alike split t ∧ t.c.names = s.c.names) ?_ ?_
  · refine pairs_ite Iff.rfl (fun _ => ?_) fun _ => ?_
    · exact pairs_bind (Q := fun _ _ _ _ => False) (pairs_ret h) fun _ _ _ _ h => h.elim
    · exact pairs_bind (doRequest_alike h _ _ none) fun _ _ _ _ h => takeNames_alike h
  · rintro out s₁ _ t₁ ⟨rfl, h₁, hnames⟩
    exact pairs_get (pairs_pure ⟨by rw [hnames], h₁⟩)

/-- A path or a body is built, and the response is handed over as it is. -/
theorem respond_does (h : s.Alike split t) (method : CStr) (path body : Option CStr) :
    Does split (doRequest method path body >>= fun _ => takeResponse) s t :=
  Does.request h method path body fun _ _ h => takeResponse_does h

theorem retrieveTextBuildBody_does (h : s.Alike split t) (table : CStr) (embeddingColumn : Int64)
    (text : CStr) (k : Int64) :
    Does split (retrieveTextBuildBody table embeddingColumn text k) s t := by
  have hnext : ∀ {f : Option Sbuf → Api (Option Sbuf)}, f none = pure none →
      (∀ buf s t, s.Alike split t → Does split (f (some buf)) s t) →
      ∀ buf s t, s.Alike split t → Does split (f buf) s t := by
    intro f hnone hsome buf s t h
    cases buf with
    | none => rw [hnone]; exact Does.pure h
    | some buf => exact hsome buf s t h
  refine (checkedAppends_does h _ _ _).bind (hnext rfl fun buf s t h => ?_)
  refine (checkedAppends_does h _ _ _).bind (hnext rfl fun buf s t h => ?_)
  refine pairs_ite Iff.rfl (fun _ => ?_) fun _ => checkedAppends_does h _ _ _
  exact (checkedAppends_does h _ _ _).bind (hnext rfl fun buf s t h => checkedAppends_does h _ _ _)

/-- A call does one thing in sessions that are alike. -/
theorem Call.shown_does (h : s.Alike split t) (call : Call) :
    Does split (call.shown lib) s t := by
  -- Each call is its guards around one request and one decoder.
  cases call with
  | lastErrorCode =>
    have halike := h
    obtain ⟨r, rfl, -⟩ := h
    exact pairs_bind (Q := fun _ _ _ _ => False) (pairs_get (pairs_ret halike)) fun _ _ _ _ h =>
      h.elim
  | health => exact (Does.requestOnly h _ _ none).map
  | tableNames outNames outCount => exact mongreldbTableNames_does h outNames outCount
  | createTable name columns =>
    exact (mongreldbCreateTableWithSchemaJson_does h name columns none none).map
  | createTableWithConstraintsJson name columns constraintsJson =>
    exact (mongreldbCreateTableWithSchemaJson_does h name columns constraintsJson none).map
  | createTableWithSchemaJson name columns constraintsJson indexes =>
    exact (mongreldbCreateTableWithSchemaJson_does h name columns constraintsJson indexes).map
  | historyRetentionGet => exact (Does.request h _ _ none fun _ _ h => takeRetention_does h).map
  | historyRetentionSet epochs =>
    refine Does.map ?_
    rw [mongreldbHistoryRetentionSet]
    cases historyRetentionSetBody epochs 96 with
    | none => exact Does.ret h
    | some body => exact Does.request h _ _ _ fun _ _ h => takeRetention_does h
  | dropTable name =>
    refine Does.map ?_
    cases name with
    | none => exact Does.ret h
    | some name => exact (bodyAppends_does h _).bind fun _ _ _ h => Does.requestOnly h _ _ _
  | count table outCount =>
    refine Does.map ?_
    cases table with
    | none => exact Does.ret h
    | some table =>
      exact Does.orRefuse h ((bodyAppends_does h _).bind fun _ _ _ h =>
        Does.request h _ _ none fun _ _ h => takeNumber_does h (.lit "count"))
  | put table cells idempotencyKey =>
    cases table with
    | none => exact Does.map (Does.ret h)
    | some table =>
      cases cells with
      | none => exact Does.map (Does.ret h)
      | some cells => exact commitOne_does h _ idempotencyKey
  | upsert table cells updateCells idempotencyKey =>
    cases table with
    | none => exact Does.map (Does.ret h)
    | some table =>
      cases cells with
      | none => exact Does.map (Does.ret h)
      | some cells => exact commitOne_does h _ idempotencyKey
  | delete table rowId =>
    cases table with
    | none => exact Does.map (Does.ret h)
    | some table => exact commitOne_does h _ none
  | deleteByPk table pk =>
    cases table with
    | none => exact Does.map (Does.ret h)
    | some table =>
      cases pk with
      | none => exact Does.map (Does.ret h)
      | some pk => exact commitOne_does h _ none
  | commit ops idempotencyKey => exact (mongreldbCommit_does h ops idempotencyKey).map
  | query table conditions projection limit outResult =>
    exact mongreldbQueryPage_does h table conditions projection limit 0 outResult
  | queryPage table conditions projection limit offset outResult =>
    exact mongreldbQueryPage_does h table conditions projection limit offset outResult
  | sql text =>
    refine Does.map ?_
    cases text with
    | none => exact Does.ret h
    | some text => exact (bodyAppends_does h _).bind fun _ _ _ h => respond_does h _ _ _
  | queryStatusGet queryId out =>
    refine Does.map (Does.orFail h (Does.orRefuse h ?_))
    exact (bodyAppends_does h _).bind fun _ _ _ h =>
      Does.request h _ _ none fun _ _ h => takeStatus_does h
  | cancelQuery queryId =>
    refine Does.map (Does.orFail h ?_)
    exact (bodyAppends_does h _).bind fun _ _ _ h => respond_does h _ _ _
  | retrieveText table embeddingColumn text k =>
    refine Does.map (Does.orFail h ?_)
    refine (retrieveTextBuildBody_does h _ embeddingColumn _ k).bind fun buf s t h => ?_
    cases buf with
    | none => exact Does.fail h _ _
    | some buf => exact respond_does h _ _ buf.cstr?
  | schema outBody => exact Does.map (Does.orRefuse h (respond_does h _ _ none))
  | schemaFor table outBody =>
    refine Does.map ?_
    cases table with
    | none => exact Does.ret h
    | some table =>
      exact Does.orRefuse h ((bodyAppends_does h _).bind fun _ _ _ h => respond_does h _ _ none)

/-! ## Programs -/

/-- What is seen of a call is the same, and the sessions behind it are alike. -/
theorem Call.observed_same (lib : Libc) (h : s.Alike split t) (call : Call) :
    (∃ x s' t', call.observed lib s = some (x, s') ∧ call.observed lib t = some (x, t') ∧
        s'.Alike split t') ∨
      call.observed lib s = none ∧ call.observed lib t = none := by
  have hdoes : EndAlike (fun a s b t => a = b ∧ s.Alike split t) (Session.Alike split)
    (call.shown lib s) (call.shown lib t) := Call.shown_does h call
  rw [Call.observed, Call.observed]
  generalize call.shown lib s = o, call.shown lib t = o' at hdoes ⊢
  cases hdoes with
  | val h =>
    obtain ⟨rfl, h⟩ := h
    have halike := h
    obtain ⟨r, rfl, -⟩ := h
    exact .inl ⟨_, _, _, rfl, rfl, halike⟩
  | ret h =>
    have halike := h
    obtain ⟨r, rfl, -⟩ := h
    exact .inl ⟨_, _, _, rfl, rfl, halike⟩
  | fault => exact .inr ⟨rfl, rfl⟩

/-- What a program sees depends neither on what is left of earlier calls, nor on the parts in
    which the responses are handed over. -/
theorem observed_alike (h : s.Alike split t) (steps : List Step) :
    observed lib steps s = observed lib steps t := by
  induction steps generalizing s t with
  | nil => rfl
  | cons step steps ih =>
    cases step with
    | setTimeout timeoutSeconds =>
      obtain ⟨r, rfl, hr⟩ := h
      exact ih ⟨r, rfl, hr.transfer, hr.answers⟩
    | call call =>
      rw [observed, observed]
      rcases call.observed_same lib h with ⟨x, s', t', hs, ht, h'⟩ | ⟨hs, ht⟩
      · rw [hs, ht]
        exact congrArg (x :: ·) (ih h')
      · rw [hs, ht]

/-- A response in two parts, behind the rest of an earlier one. -/
def Remains.twoParts : Remains where
  recv := ⟨ascii "an earlier response", 64⟩
  names := NamesScratch.freed
  scratch := Scratch.freed
  transfer := Heap.unlimited
  answers := fun _ => { Answer.of 200 (ascii "[]") with chunks := [ascii "[", ascii "]"] }

/-- The tables of a server without one. -/
theorem observed_alike_twoParts :
    observed Libc.zero [.call (.tableNames true true)] (.connected fun _ => .of 200 (ascii "[]")) =
      observed Libc.zero [.call (.tableNames true true)]
        (Session.amid (.connected fun _ => .of 200 (ascii "[]")) .twoParts) := by
  have hparts : [ascii "[", ascii "]"].flatten = [ascii "[]"].flatten := by decide
  have halike : Session.Alike true (.connected fun _ => .of 200 (ascii "[]"))
      (Session.amid (.connected fun _ => .of 200 (ascii "[]")) .twoParts) :=
    ⟨.twoParts, rfl, .granting Heap.unlimited_succeeds Heap.unlimited_succeeds,
      fun _ => ⟨rfl, hparts, fun h => by cases h⟩⟩
  exact observed_alike halike _

end MongrelDB
