import MongrelDB.Api.Results
import MongrelDB.Client.Slot
import MongrelDB.Lib.Points

/-!
# Calls in sequence

A program that uses a client makes one call after the other (`Step`, `results`). The
error slot tells of every call that returns exactly if every call meets its condition
(`results_tell_iff`): its arguments are looked at without a word, so they must be there,
the text for a failed request must be there (`Session.Explains`), and the response of a
request that succeeds must be one that can be decoded (`Call.Meets`).
-/

namespace MongrelDB

open Prog

/-! ## Calls -/

/-- The functions of the public interface that return a code, with their arguments. -/
inductive Call where
  | lastErrorCode
  | health
  | tableNames (outNames outCount : Bool)
  | createTable (name : Option CStr) (columns : Option (List Column))
  | createTableWithConstraintsJson (name : Option CStr) (columns : Option (List Column))
      (constraintsJson : Option CStr)
  | createTableWithSchemaJson (name : Option CStr) (columns : Option (List Column))
      (constraintsJson : Option CStr) (indexes : Option (List Index))
  | historyRetentionGet
  | historyRetentionSet (epochs : UInt64)
  | dropTable (name : Option CStr)
  | count (table : Option CStr) (outCount : Bool)
  | put (table : Option CStr) (cells : Option (List InputCell)) (idempotencyKey : Option CStr)
  | upsert (table : Option CStr) (cells updateCells : Option (List InputCell))
      (idempotencyKey : Option CStr)
  | delete (table : Option CStr) (rowId : Int64)
  | deleteByPk (table : Option CStr) (pk : Option InputValue)
  | commit (ops : Option (List Op)) (idempotencyKey : Option CStr)
  | query (table : Option CStr) (conditions : List Condition) (projection : List Int64)
      (limit : Int64) (outResult : Bool)
  | queryPage (table : Option CStr) (conditions : List Condition) (projection : List Int64)
      (limit offset : Int64) (outResult : Bool)
  | sql (text : Option CStr)
  | queryStatusGet (queryId : Option CStr) (out : Bool)
  | cancelQuery (queryId : Option CStr)
  | retrieveText (table : Option CStr) (embeddingColumn : Int64) (text : Option CStr) (k : Int64)
  | schema (outBody : Bool)
  | schemaFor (table : Option CStr) (outBody : Bool)

/-- `mongreldb_last_error_code` -/
def mongreldbLastErrorCode : Api Unit := do ret (← get).c.lastCode

/-- What a call returns, and the session it leaves, unless it faults. -/
def Call.returns (lib : Libc) : Call → Session → Option (Code × Session)
  | .lastErrorCode => ends .ok mongreldbLastErrorCode
  | .health => ends .ok mongreldbHealth
  | .tableNames outNames outCount => ends .ok (mongreldbTableNames outNames outCount)
  | .createTable name columns => ends .ok (mongreldbCreateTable lib name columns)
  | .createTableWithConstraintsJson name columns constraintsJson =>
    ends .ok (mongreldbCreateTableWithConstraintsJson lib name columns constraintsJson)
  | .createTableWithSchemaJson name columns constraintsJson indexes =>
    ends .ok (mongreldbCreateTableWithSchemaJson lib name columns constraintsJson indexes)
  | .historyRetentionGet => ends .ok (mongreldbHistoryRetentionGet lib)
  | .historyRetentionSet epochs => ends .ok (mongreldbHistoryRetentionSet lib epochs)
  | .dropTable name => ends .ok (mongreldbDropTable name)
  | .count table outCount => ends .ok (mongreldbCount lib table outCount)
  | .put table cells idempotencyKey => ends .ok (mongreldbPut lib table cells idempotencyKey)
  | .upsert table cells updateCells idempotencyKey =>
    ends .ok (mongreldbUpsert lib table cells updateCells idempotencyKey)
  | .delete table rowId => ends .ok (mongreldbDelete lib table rowId)
  | .deleteByPk table pk => ends .ok (mongreldbDeleteByPk lib table pk)
  | .commit ops idempotencyKey => ends .ok (mongreldbCommit lib ops idempotencyKey)
  | .query table conditions projection limit outResult =>
    ends .ok (mongreldbQuery lib table conditions projection limit outResult)
  | .queryPage table conditions projection limit offset outResult =>
    ends .ok (mongreldbQueryPage lib table conditions projection limit offset outResult)
  | .sql text => ends .ok (mongreldbSql text)
  | .queryStatusGet queryId out => ends .ok (mongreldbQueryStatusGet lib queryId out)
  | .cancelQuery queryId => ends .ok (mongreldbCancelQuery queryId)
  | .retrieveText table embeddingColumn text k =>
    ends .ok (mongreldbRetrieveText table embeddingColumn text k)
  | .schema outBody => ends .ok (mongreldbSchema outBody)
  | .schemaFor table outBody => ends .ok (mongreldbSchemaFor table outBody)

/-- `mongreldb_set_timeout` -/
def Session.setTimeout (s : Session) (timeoutSeconds : Int) : Session :=
  { s with c := { s.c with timeoutSeconds := if 0 < timeoutSeconds then timeoutSeconds else 30 } }

/-- What a program does with a client. -/
inductive Step where
  | call (call : Call)
  | setTimeout (timeoutSeconds : Int)

/-- What the calls of a program return, and the sessions they leave, up to the first one
    that faults. -/
def results (lib : Libc) : List Step → Session → List (Code × Session)
  | [], _ => []
  | .setTimeout timeoutSeconds :: steps, s => results lib steps (s.setTimeout timeoutSeconds)
  | .call call :: steps, s =>
    match call.returns lib s with
    | none => []
    | some (rc, s') => (rc, s') :: results lib steps s'

/-! ## Conditions -/

/-- The next request, to this path, is told of: it succeeds, with a response that can be
    decoded, or its failure has a text. -/
def Session.TellsRequest (s : Session) (path : Option CStr) (Decodes : Bytes → Prop) : Prop :=
  ∀ p ∈ path, (∀ recv ∈ s.response? p, s.Successful → Decodes recv) ∧
    (¬((s.response? p).isSome = true ∧ s.Successful) → s.Explains p)

/-- The path that is built of these pieces, unless there is no memory for any. -/
def Session.path (s : Session) (ps : Appends) : Option CStr :=
  (Sbuf.empty.appendAll s.heaps.body ps).1.cstr?

/-- These names are decoded. -/
def Session.DecodesNames (s : Session) (recv : Bytes) : Prop :=
  ∀ r, decodeNames recv s.c.names s.heaps.decode = .ok r → r.1 = .ok

/-- This result is decoded. -/
def Session.DecodesPage (lib : Libc) (s : Session) (recv : Bytes) : Prop :=
  ∀ r, decodePage lib recv s.c.scratch s.heaps.decode = .ok r → r.1 = .ok

/-- This number is reported, as it also is for a member that is missing from an object with other
    ones. -/
def HasNumber (lib : Libc) (key : CStr) (recv : Bytes) : Prop :=
  ∀ r, jsonGetNumber lib recv key = .ok r → r.1 = true

/-- Both numbers of the retention are reported. -/
def HasRetention (lib : Libc) (recv : Bytes) : Prop :=
  HasNumber lib (.lit "history_retention_epochs") recv ∧
    HasNumber lib (.lit "earliest_retained_epoch") recv

/-- A pointer that is NULL is refused without a word: the slot is to hold this code already. -/
def Session.Refuses (s : Session) : Prop := s.c.Tells .invalidArg

/-- A commit is told of: without operations it is a success without a word, and an operation of an
    unknown type is refused with a text. -/
def Session.Commits (lib : Libc) (s : Session) : Option (List Op) → Prop
  | none => s.Refuses
  | some [] => s.c.Tells .ok
  | some (op :: ops) =>
    if (opsAppends lib [] (op :: ops)).2 then s.TellsRequest (some (.lit "/kit/txn")) fun _ => True
    else Granted s.heaps.error 1

/-- The table is there, and so are the columns. -/
def Session.Creates {α β : Type} (s : Session) : Option α → Option β → Prop
  | some _, some _ => s.TellsRequest (some (.lit "/kit/create_table")) fun _ => True
  | _, _ => s.Refuses

/-- The table is there, and there is a place for the result. -/
def Session.Queries (lib : Libc) (s : Session) : Option CStr → Bool → Prop
  | some _, true => s.TellsRequest (some (.lit "/kit/query")) (s.DecodesPage lib)
  | _, _ => s.Refuses

/-- The body of a retrieval is built. -/
def Session.buildsText (s : Session) (table : CStr) (embeddingColumn : Int64) (text : CStr)
    (k : Int64) :
    Bool :=
  match retrieveTextBuildBody table embeddingColumn text k s with
  | .val (some _) _ => true
  | _ => false

/-- The condition under which the error slot tells of a call. -/
def Call.Meets (lib : Libc) : Call → Session → Prop
  | .lastErrorCode, s => s.c.Tells s.c.lastCode
  | .health, s => s.TellsRequest (some (.lit "/health")) fun _ => True
  | .tableNames outNames outCount, s =>
    if outNames && outCount then
      s.TellsRequest (some (.lit "/tables")) s.DecodesNames
    else s.Refuses
  | .createTable name columns, s => s.Creates name columns
  | .createTableWithConstraintsJson name columns _, s => s.Creates name columns
  | .createTableWithSchemaJson name columns _ _, s => s.Creates name columns
  | .historyRetentionGet, s => s.TellsRequest (some (.lit "/history/retention")) (HasRetention lib)
  | .historyRetentionSet _, s =>
    s.TellsRequest (some (.lit "/history/retention")) (HasRetention lib)
  | .dropTable (some name), s => s.TellsRequest (s.path (dropTablePath name)) fun _ => True
  | .dropTable none, s => s.Refuses
  | .count (some table) true, s => s.TellsRequest (s.path (countPath table)) fun _ => True
  | .count _ _, s => s.Refuses
  | .put (some _) (some _) _, s => s.TellsRequest (some (.lit "/kit/txn")) fun _ => True
  | .put _ _ _, s => s.Refuses
  | .upsert (some _) (some _) _ _, s => s.TellsRequest (some (.lit "/kit/txn")) fun _ => True
  | .upsert _ _ _ _, s => s.Refuses
  | .delete (some _) _, s => s.TellsRequest (some (.lit "/kit/txn")) fun _ => True
  | .delete none _, s => s.Refuses
  | .deleteByPk (some _) (some _), s => s.TellsRequest (some (.lit "/kit/txn")) fun _ => True
  | .deleteByPk _ _, s => s.Refuses
  | .commit ops _, s => s.Commits lib ops
  | .query table _ _ _ outResult, s => s.Queries lib table outResult
  | .queryPage table _ _ _ _ outResult, s => s.Queries lib table outResult
  | .sql (some _), s => s.TellsRequest (some (.lit "/sql")) fun _ => True
  | .sql none, s => s.Refuses
  | .queryStatusGet queryId out, s =>
    if !isGiven queryId then Granted s.heaps.error 1
    else if out then s.TellsRequest (s.path (queryStatusPath (orEmpty queryId))) fun _ => True
    else s.Refuses
  | .cancelQuery queryId, s =>
    if !isGiven queryId then Granted s.heaps.error 1
    else s.TellsRequest (s.path (cancelQueryPath (orEmpty queryId))) fun _ => True
  | .retrieveText table embeddingColumn text k, s =>
    if !isGiven table || !isGiven text then Granted s.heaps.error 1
    else if s.buildsText (orEmpty table) embeddingColumn (orEmpty text) k then
      s.TellsRequest (some (.lit "/kit/retrieve_text")) fun _ => True
    else Granted s.heaps.error 1
  | .schema outBody, s =>
    if outBody then s.TellsRequest (some (.lit "/kit/schema")) fun _ => True else s.Refuses
  | .schemaFor (some table) true, s => s.TellsRequest (s.path (schemaForPath table)) fun _ => True
  | .schemaFor _ _, s => s.Refuses

/-- Every call of a program, up to the first one that faults, meets its condition. -/
def AllMeet (lib : Libc) : List Step → Session → Prop
  | [], _ => True
  | .setTimeout timeoutSeconds :: steps, s => AllMeet lib steps (s.setTimeout timeoutSeconds)
  | .call call :: steps, s =>
    call.Meets lib s ∧ ∀ r ∈ call.returns lib s, AllMeet lib steps r.2

/-! ## Requests -/

/-- If the program returns, the error slot tells of it. -/
def TellsOf {α : Type} (x : Api α) (s : Session) : Prop :=
  post x (fun _ s' => s'.c.Tells .ok) (fun rc s' => s'.c.Tells rc) s

variable {s : Session}

theorem tellsRequest_of_success {p : CStr} {recv : Bytes} {Decodes : Bytes → Prop}
    (hrecv : s.response? p = some recv) (hok : s.Successful) :
    s.TellsRequest (some p) Decodes ↔ Decodes recv := by
  refine ⟨fun h => (h p rfl).1 recv hrecv hok, fun h q hq => ?_⟩
  obtain rfl := Option.some.inj hq
  refine ⟨fun r hr _ => ?_, fun hno => absurd ⟨by rw [hrecv]; rfl, hok⟩ hno⟩
  obtain rfl := Option.some.inj (hrecv.symm.trans hr)
  exact h

theorem tellsRequest_of_failure {p : CStr} {Decodes : Bytes → Prop}
    (hno : ¬((s.response? p).isSome = true ∧ s.Successful)) :
    s.TellsRequest (some p) Decodes ↔ s.Explains p := by
  refine ⟨fun h => (h p rfl).2 hno, fun h q hq => ?_⟩
  obtain rfl := Option.some.inj hq
  exact ⟨fun r hr hok => absurd ⟨Option.isSome_of_mem hr, hok⟩ hno, fun _ => h⟩

/-- A request, and what is done behind it. -/
theorem tellsOf_request {α : Type} (method : CStr) (path body : Option CStr) {k : Unit → Api α}
    {Decodes : Bytes → Prop} (hk : ∀ s', s.Kept s' → s'.c.Tells .ok →
      (TellsOf (k ()) s' ↔ Decodes s'.c.recv.data)) :
    TellsOf (doRequest method path body >>= k) s ↔ s.TellsRequest path Decodes := by
  cases path with
  | none => exact ⟨fun _ p hp => (by cases hp), fun _ => trivial⟩
  | some path =>
    rw [TellsOf, post_bind]
    refine post_iff_of_wp
      (wp_mono (wp_and (doRequest_ends method path body) (doRequest_tells method path body))
      (fun _ s' hpost => ?_) fun rc s' hpost => ?_)
    · obtain ⟨⟨hkept, hcode, hmsg, -⟩, hrecv, hok⟩ := hpost
      rw [tellsRequest_of_success hrecv hok]
      exact hk s' hkept (Client.tells_ok hcode hmsg)
    · obtain ⟨-, hno, htells⟩ := hpost
      rw [tellsRequest_of_failure hno]
      exact htells

/-- The slot is as it is in another session. -/
theorem Client.Tells.congr {c c' : Client} {rc : Code} (h : c.Tells rc)
    (hcode : c'.lastCode = c.lastCode)
    (hmsg : c'.errorMsg = c.errorMsg) : c'.Tells rc := by
  have htext : c'.lastError = c.lastError := by rw [lastError, hmsg, lastError]
  exact ⟨hcode.trans h.code, fun hrc => htext ▸ h.text hrc, fun hrc => htext ▸ h.clear hrc⟩

/-- The slot is as it was. -/
def Session.Same (s s' : Session) : Prop :=
  s'.c.lastCode = s.c.lastCode ∧ s'.c.errorMsg = s.c.errorMsg

/-- A request with nothing behind it that could fail. -/
theorem tellsOf_simple {α : Type} (method : CStr) (path body : Option CStr) {k : Unit → Api α}
    (hk : ∀ s', wp (k ()) (fun _ s'' => s'.Same s'') (fun _ _ => False) s') :
    TellsOf (doRequest method path body >>= k) s ↔ s.TellsRequest path fun _ => True := by
  refine tellsOf_request method path body fun s' _ htells => post_iff_of_wp ?_
  exact wp_mono (hk s') (fun _ s'' h => iff_of_true (htells.congr h.1 h.2) trivial)
    fun _ _ h => h.elim

/-! ## Results -/

/-- Behind a request that has succeeded, a code is told of if it is none of a failure. -/
theorem tellsOf_checked {α : Type} (htells : s.c.Tells .ok) (rc : Code) (out : α) :
    TellsOf (if rc ≠ .ok then (ret rc : Api Unit) >>= fun _ => pure out else pure out) s ↔
      rc = .ok := by
  by_cases hrc : rc = .ok
  · rw [if_neg (not_not.2 hrc)]
    exact iff_of_true htells hrc
  · rw [if_pos hrc]
    exact iff_of_false (fun h => hrc (h.code.symm.trans htells.code)) hrc

theorem tellsOf_takeNames (htells : s.c.Tells .ok) :
    TellsOf takeNames s ↔ s.DecodesNames s.c.recv.data := by
  simp only [TellsOf, takeNames, post_bind, post_get, post_lift, post_modify]
  refine forall₂_congr fun r _ => tellsOf_checked ?_ r.1 r.2.1
  exact htells.congr rfl rfl

theorem tellsOf_takePage (lib : Libc) (htells : s.c.Tells .ok) :
    TellsOf (takePage lib) s ↔ s.DecodesPage lib s.c.recv.data := by
  simp only [TellsOf, takePage, post_bind, post_get, post_lift, post_modify]
  refine forall₂_congr fun r _ => tellsOf_checked ?_ r.1 r.2.1
  exact htells.congr rfl rfl

theorem hasNumber_iff {lib : Libc} {key : CStr} {recv : Bytes} {r : Bool × F64 × Int64}
    (hget : jsonGetNumber lib recv key = .ok r) : HasNumber lib key recv ↔ r.1 = true :=
  ⟨fun h => h r hget, fun h _ hget' => Except.ok.inj (hget.symm.trans hget') ▸ h⟩

/-- The retention is decoded exactly if both numbers are reported. -/
theorem historyRetentionDecodeJson_cases (lib : Libc) (recv : Bytes) :
    (∃ out, HasRetention lib recv ∧ historyRetentionDecodeJson lib recv = .ok (.ok, some out)) ∨
      ¬HasRetention lib recv ∧ historyRetentionDecodeJson lib recv = .ok (.query, none) := by
  obtain ⟨⟨found, x, epochs⟩, hget, -⟩ :=
    jsonGetNumber_ends lib recv (.lit "history_retention_epochs")
  obtain ⟨⟨found', x', earliest⟩, hget', -⟩ :=
    jsonGetNumber_ends lib recv (.lit "earliest_retained_epoch")
  rw [HasRetention, hasNumber_iff hget, hasNumber_iff hget']
  simp only [historyRetentionDecodeJson, hget, hget', Run.ok_bind]
  cases found with
  | false => exact .inr ⟨fun h => Bool.false_ne_true h.1, rfl⟩
  | true =>
    cases found' with
    | false => exact .inr ⟨fun h => Bool.false_ne_true h.2, rfl⟩
    | true => exact .inl ⟨_, ⟨rfl, rfl⟩, rfl⟩

theorem tellsOf_takeRetention (lib : Libc) (htells : s.c.Tells .ok) :
    TellsOf (takeRetention lib) s ↔ HasRetention lib s.c.recv.data := by
  rcases historyRetentionDecodeJson_cases lib s.c.recv.data with ⟨out, hhas, hdec⟩ | ⟨hno, hdec⟩
  · refine post_iff_of_wp (wp_mono (takeRetention_decoded hdec) (fun _ s' hpost => ?_)
      fun _ _ h => by cases h.1)
    obtain ⟨-, hs'⟩ := hpost
    exact iff_of_true (hs' ▸ htells) hhas
  · refine post_iff_of_wp
      (wp_mono (takeRetention_decoded hdec) (fun _ _ h => by cases h.1)
      fun rc s' hpost => iff_of_false (fun h => ?_) hno)
    obtain ⟨-, hrc, hs'⟩ := hpost
    subst hrc hs'
    cases h.code.symm.trans htells.code

/-- A number of the response. -/
def takeNumber (lib : Libc) (key : CStr) : Api Int64 := do
  let (_, _, n) ← lift (jsonGetNumber lib (← get).c.recv.data key)
  return n

theorem takeNumber_same (lib : Libc) (key : CStr) :
    wp (takeNumber lib key) (fun _ s' => s.Same s') (fun _ _ => False) s := by
  obtain ⟨r, hget, -⟩ := jsonGetNumber_ends lib s.c.recv.data key
  refine wp_bind.2 (wp_get.2 (wp_bind.2 (wp_lift hget ?_)))
  exact ⟨rfl, rfl⟩

theorem Session.Decoded.same {s s' : Session} (h : s.Decoded s') : s.Same s' := by
  obtain ⟨names, scratch, decode, rfl⟩ := h
  exact ⟨rfl, rfl⟩

theorem takeStatus_same (lib : Libc) :
    wp (takeStatus lib) (fun _ s' => s.Same s') (fun _ _ => False) s :=
  wp_mono (takeStatus_decoded lib) (fun _ _ h => h.same) fun _ _ h => h

/-! ## The calls -/

/-- The session behind the pieces of a path or a body. -/
def Session.built (s : Session) (ps : Appends) : Session :=
  { s with heaps := { s.heaps with body := (Sbuf.empty.appendAll s.heaps.body ps).2 } }

theorem tellsOf_body {α : Type} (ps : Appends) (k : Option CStr → Api α) :
    TellsOf (bodyAppends ps >>= k) s ↔ TellsOf (k (s.path ps)) (s.built ps) := Iff.rfl

/-- A path or a body is built, and a request made to this path, with nothing behind it that
    could fail. -/
theorem tellsOf_built {α : Type} (ps : Appends) (method : CStr) (path body : Option CStr)
    {k : Unit → Api α} (hk : ∀ s', wp (k ()) (fun _ s'' => s'.Same s'') (fun _ _ => False) s') :
    TellsOf (doRequest method path body >>= k) (s.built ps) ↔ s.TellsRequest path fun _ => True :=
  tellsOf_simple method path body hk

theorem tellsOf_lastErrorCode : TellsOf mongreldbLastErrorCode s ↔ s.c.Tells s.c.lastCode := Iff.rfl

theorem tellsOf_health : TellsOf mongreldbHealth s ↔
    s.TellsRequest (some (.lit "/health")) fun _ => True := by
  have h := tellsOf_simple (s := s) (.lit "GET") (some (.lit "/health")) none (k := pure) fun _ =>
    ⟨rfl, rfl⟩
  rwa [then_pure] at h

/-- A path or a body is built, and a request made to this path. -/
theorem tellsOf_last (ps : Appends) (method : CStr) (path body : Option CStr) :
    TellsOf (doRequest method path body) (s.built ps) ↔ s.TellsRequest path fun _ => True := by
  have h := tellsOf_built (s := s) ps method path body (k := pure) fun _ => ⟨rfl, rfl⟩
  rwa [then_pure] at h

theorem takeResponse_same : wp takeResponse (fun _ s' => s.Same s') (fun _ _ => False) s :=
  ⟨rfl, rfl⟩

variable (lib : Libc)

theorem tellsOf_createTable (name : Option CStr) (columns : Option (List Column))
    (constraintsJson : Option CStr) (indexes : Option (List Index)) :
    TellsOf (mongreldbCreateTableWithSchemaJson lib name columns constraintsJson indexes) s ↔
      s.Creates name columns := by
  cases name with
  | none => cases columns <;> exact Iff.rfl
  | some name =>
    cases columns with
    | none => exact Iff.rfl
    | some columns =>
      refine (tellsOf_body _ _).trans ?_
      exact tellsOf_built _ (.lit "POST") (some (.lit "/kit/create_table")) _
        fun _ => takeNumber_same lib (.lit "table_id")

theorem tellsOf_dropTable (name : Option CStr) :
    TellsOf (mongreldbDropTable name) s ↔ Call.Meets lib (.dropTable name) s := by
  cases name with
  | none => exact Iff.rfl
  | some name =>
    refine (tellsOf_body _ _).trans ?_
    exact tellsOf_last _ (.lit "DELETE") _ none

theorem tellsOf_count (table : Option CStr) (outCount : Bool) :
    TellsOf (mongreldbCount lib table outCount) s ↔ Call.Meets lib (.count table outCount) s := by
  cases table with
  | none => cases outCount <;> exact Iff.rfl
  | some table =>
    cases outCount with
    | false => exact Iff.rfl
    | true =>
      refine (tellsOf_body _ _).trans ?_
      exact tellsOf_built _ (.lit "GET") _ none fun _ => takeNumber_same lib (.lit "count")

/-- A text that is a literal of the source, for an argument that is refused. -/
theorem tellsOf_fail {α : Type} {code : Code} (hcode : code ≠ .ok) (msg : String)
    (hnul : (0 : UInt8) ∉ ascii msg) (hne : ascii msg ≠ []) (hlen : (ascii msg).length < SIZE_MAX)
    {β : Type} {k : β → Api α} : TellsOf (fail code msg >>= k) s ↔ Granted s.heaps.error 1 :=
  post_bind.trans (post_iff_of_wp
    (wp_mono (fail_tells hcode msg hnul hne hlen) (fun _ _ h => h.elim)
    fun _ _ h => h.2))

theorem tellsOf_commit (ops : Option (List Op)) (idempotencyKey : Option CStr) :
    TellsOf (mongreldbCommit lib ops idempotencyKey) s ↔ s.Commits lib ops := by
  rcases ops with _ | _ | ⟨op, ops⟩
  · exact Iff.rfl
  · exact Iff.rfl
  · simp only [mongreldbCommit, Session.Commits]
    rw [List.isEmpty_cons, Bool.not_false, if_pos rfl]
    split_ifs with hknown
    · refine (tellsOf_body _ _).trans ?_
      exact tellsOf_last _ (.lit "POST") (some (.lit "/kit/txn")) _
    · refine (tellsOf_body _ _).trans ?_
      exact post_iff_of_wp (wp_mono (fail_tells (by decide) _ (by decide) (by decide) (by decide))
        (fun _ _ h => h.elim) fun _ _ h => h.2)

/-- A single operation is of a known type. -/
theorem tellsOf_commitOne {op : Op} (htype : op.type ≠ .other) (idempotencyKey : Option CStr) :
    TellsOf (commitOne lib op idempotencyKey) s ↔
      s.TellsRequest (some (.lit "/kit/txn")) fun _ => True := by
  have hknown : (opsAppends lib [] [op]).2 = true := by
    simp only [opsAppends, opAppends]
    cases h : op.type <;> first | rfl | exact absurd h htype
  rw [commitOne, tellsOf_commit, Session.Commits, if_pos hknown]

theorem tellsOf_put (table : Option CStr) (cells : Option (List InputCell))
    (idempotencyKey : Option CStr) :
    TellsOf (mongreldbPut lib table cells idempotencyKey) s ↔
      Call.Meets lib (.put table cells idempotencyKey) s := by
  cases table with
  | none => exact Iff.rfl
  | some table =>
    cases cells with
    | none => exact Iff.rfl
    | some cells => exact tellsOf_commitOne lib (by decide : OpType.put ≠ .other) idempotencyKey

theorem tellsOf_upsert (table : Option CStr) (cells updateCells : Option (List InputCell))
    (idempotencyKey : Option CStr) :
    TellsOf (mongreldbUpsert lib table cells updateCells idempotencyKey) s ↔
      Call.Meets lib (.upsert table cells updateCells idempotencyKey) s := by
  cases table with
  | none => exact Iff.rfl
  | some table =>
    cases cells with
    | none => exact Iff.rfl
    | some cells => exact tellsOf_commitOne lib (by decide : OpType.upsert ≠ .other) idempotencyKey

theorem tellsOf_delete (table : Option CStr) (rowId : Int64) :
    TellsOf (mongreldbDelete lib table rowId) s ↔ Call.Meets lib (.delete table rowId) s := by
  cases table with
  | none => exact Iff.rfl
  | some table => exact tellsOf_commitOne lib (by decide : OpType.delete ≠ .other) none

theorem tellsOf_deleteByPk (table : Option CStr) (pk : Option InputValue) :
    TellsOf (mongreldbDeleteByPk lib table pk) s ↔ Call.Meets lib (.deleteByPk table pk) s := by
  cases table with
  | none => exact Iff.rfl
  | some table =>
    cases pk with
    | none => exact Iff.rfl
    | some pk => exact tellsOf_commitOne lib (by decide : OpType.deleteByPk ≠ .other) none

theorem tellsOf_query (table : Option CStr) (conditions : List Condition) (projection : List Int64)
    (limit offset : Int64) (outResult : Bool) :
    TellsOf (mongreldbQueryPage lib table conditions projection limit offset outResult) s ↔
      s.Queries lib table outResult := by
  cases table with
  | none => exact Iff.rfl
  | some table =>
    cases outResult with
    | false => exact Iff.rfl
    | true =>
      refine (tellsOf_body _ _).trans ?_
      refine tellsOf_request (.lit "POST") (some (.lit "/kit/query")) _ fun s' hkept htells => ?_
      rw [tellsOf_takePage lib htells, Session.DecodesPage, Session.DecodesPage, hkept.scratch,
        hkept.decode]
      exact Iff.rfl

theorem tellsOf_tableNames (outNames outCount : Bool) :
    TellsOf (mongreldbTableNames outNames outCount) s ↔
      Call.Meets lib (.tableNames outNames outCount) s := by
  cases outNames with
  | false => exact Iff.rfl
  | true =>
    cases outCount with
    | false => exact Iff.rfl
    | true =>
      refine tellsOf_request (.lit "GET") (some (.lit "/tables")) none fun s' hkept htells => ?_
      rw [tellsOf_takeNames htells, Session.DecodesNames, Session.DecodesNames, hkept.names,
        hkept.decode]

/-- The body for a retention fits in its buffer. -/
theorem historyRetentionSetBody_isSome (epochs : UInt64) :
    ∃ body, historyRetentionSetBody epochs 96 = some body := by
  have hlit : (ascii "\x7b\"history_retention_epochs\":").length = 28 := rfl
  have hdigits : (natText epochs.toNat).length ≤ 19 + 1 :=
    length_natText_le (lt_trans epochs.toNat_lt (by decide))
  refine ⟨_, if_neg ?_⟩
  simp only [List.length_append, List.length_cons, List.length_nil, hlit]
  omega

theorem tellsOf_historyRetentionSet (epochs : UInt64) :
    TellsOf (mongreldbHistoryRetentionSet lib epochs) s ↔
      s.TellsRequest (some (.lit "/history/retention")) (HasRetention lib) := by
  obtain ⟨body, hbody⟩ := historyRetentionSetBody_isSome epochs
  rw [mongreldbHistoryRetentionSet, hbody]
  exact tellsOf_request (.lit "PUT") (some (.lit "/history/retention")) _ fun s' _ htells =>
    tellsOf_takeRetention lib htells

theorem tellsOf_queryStatusGet (queryId : Option CStr) (out : Bool) :
    TellsOf (mongreldbQueryStatusGet lib queryId out) s ↔
      Call.Meets lib (.queryStatusGet queryId out) s := by
  rw [mongreldbQueryStatusGet, Call.Meets]
  by_cases hgiven : (!isGiven queryId) = true
  · rw [if_pos hgiven, if_pos hgiven]
    exact tellsOf_fail (by decide) _ (by decide) (by decide) (by decide)
  · rw [if_neg hgiven, if_neg hgiven]
    cases out with
    | false => exact Iff.rfl
    | true =>
      refine (tellsOf_body _ _).trans ?_
      exact tellsOf_built _ (.lit "GET") _ none fun _ => takeStatus_same lib

theorem tellsOf_cancelQuery (queryId : Option CStr) :
    TellsOf (mongreldbCancelQuery queryId) s ↔ Call.Meets lib (.cancelQuery queryId) s := by
  rw [mongreldbCancelQuery, Call.Meets]
  by_cases hgiven : (!isGiven queryId) = true
  · rw [if_pos hgiven, if_pos hgiven]
    exact tellsOf_fail (by decide) _ (by decide) (by decide) (by decide)
  · rw [if_neg hgiven, if_neg hgiven]
    refine (tellsOf_body _ _).trans ?_
    exact tellsOf_built _ (.lit "POST") _ _ fun _ => takeResponse_same

theorem tellsOf_sql (text : Option CStr) :
    TellsOf (mongreldbSql text) s ↔ Call.Meets lib (.sql text) s := by
  cases text with
  | none => exact Iff.rfl
  | some text =>
    refine (tellsOf_body _ _).trans ?_
    exact tellsOf_built _ (.lit "POST") _ _ fun _ => takeResponse_same

theorem tellsOf_schema (outBody : Bool) :
    TellsOf (mongreldbSchema outBody) s ↔ Call.Meets lib (.schema outBody) s := by
  cases outBody with
  | false => exact Iff.rfl
  | true =>
    exact tellsOf_simple (.lit "GET") (some (.lit "/kit/schema")) none fun _ => takeResponse_same

theorem tellsOf_schemaFor (table : Option CStr) (outBody : Bool) :
    TellsOf (mongreldbSchemaFor table outBody) s ↔ Call.Meets lib (.schemaFor table outBody) s := by
  cases table with
  | none => exact Iff.rfl
  | some table =>
    cases outBody with
    | false => exact Iff.rfl
    | true =>
      refine (tellsOf_body _ _).trans ?_
      exact tellsOf_built _ (.lit "GET") _ none fun _ => takeResponse_same

/-- Nothing but the heap for bodies is another one. -/
def Session.BuiltOnly (s s' : Session) : Prop :=
  ∃ body, s' = { s with heaps := { s.heaps with body := body } }

theorem Session.BuiltOnly.trans {s s₁ s₂ : Session} (h : s.BuiltOnly s₁) (h' : s₁.BuiltOnly s₂) :
    s.BuiltOnly s₂ := by
  obtain ⟨body, rfl⟩ := h
  obtain ⟨body', rfl⟩ := h'
  exact ⟨body', rfl⟩

theorem checkedAppends_built (buf : Sbuf) (ps : Appends) (p : Bytes) :
    wp (checkedAppends buf ps p) (fun _ s' => s.BuiltOnly s') (fun _ _ => False) s := ⟨_, rfl⟩

/-- The body is built in front of the request, and nothing else happens. -/
theorem retrieveTextBuildBody_built (table : CStr) (embeddingColumn : Int64) (text : CStr)
    (k : Int64) :
    wp (retrieveTextBuildBody table embeddingColumn text k) (fun _ s' => s.BuiltOnly s')
      (fun _ _ => False) s := by
  have hstep : ∀ {s₁ : Session}, s.BuiltOnly s₁ → ∀ buf ps p,
      wp (checkedAppends buf ps p) (fun _ s' => s.BuiltOnly s') (fun _ _ => False) s₁ :=
      fun h buf ps p =>
    wp_mono (checkedAppends_built buf ps p) (fun _ _ h' => h.trans h') fun _ _ h => h
  rw [retrieveTextBuildBody]
  refine wp_step (checkedAppends_built _ _ _) fun buf s₁ h₁ => ?_
  cases buf with
  | none => exact h₁
  | some buf =>
    refine wp_step (hstep h₁ _ _ _) fun buf₂ s₂ h₂ => ?_
    cases buf₂ with
    | none => exact h₂
    | some buf₂ =>
      dsimp only
      split_ifs
      · refine wp_step (hstep h₂ _ _ _) fun buf₃ s₃ h₃ => ?_
        cases buf₃ with
        | none => exact h₃
        | some buf₃ => exact hstep h₃ _ _ _
      · exact hstep h₂ _ _ _

theorem tellsOf_retrieveText (table : Option CStr) (embeddingColumn : Int64) (text : Option CStr)
    (k : Int64) :
    TellsOf (mongreldbRetrieveText table embeddingColumn text k) s ↔
      Call.Meets lib (.retrieveText table embeddingColumn text k) s := by
  rw [mongreldbRetrieveText, Call.Meets]
  by_cases hgiven : (!isGiven table || !isGiven text) = true
  · rw [if_pos hgiven, if_pos hgiven]
    exact tellsOf_fail (by decide) _ (by decide) (by decide) (by decide)
  -- The body is built before the request, and its failure has a text of its own.
  · rw [if_neg hgiven, if_neg hgiven]
    obtain ⟨body, s', hrun, H, hs'⟩ := exists_val_of_wp
      (retrieveTextBuildBody_built (orEmpty table) embeddingColumn (orEmpty text) k (s := s))
    subst hs'
    rw [Session.buildsText, hrun, TellsOf, post_bind, post, hrun]
    cases body with
    | none =>
      rw [if_neg Bool.false_ne_true]
      exact post_iff_of_wp (wp_mono (fail_tells (by decide) _ (by decide) (by decide) (by decide))
        (fun _ _ h => h.elim) fun _ _ h => h.2)
    | some body =>
      rw [if_pos rfl]
      exact tellsOf_simple (.lit "POST") (some (.lit "/kit/retrieve_text")) _ fun _ =>
        takeResponse_same

/-! ## Programs -/

/-- The error slot tells of a call exactly if the call meets its condition. -/
theorem Call.tells_iff (call : Call) (s : Session) :
    (∀ rc s', call.returns lib s = some (rc, s') → s'.c.Tells rc) ↔ call.Meets lib s := by
  have hends : ∀ {α : Type} {x : Api α} {p : Prop}, (TellsOf x s ↔ p) →
      ((∀ rc s', ends .ok x s = some (rc, s') → s'.c.Tells rc) ↔ p) :=
      fun h => post_ends.symm.trans h
  cases call with
  | lastErrorCode => exact hends tellsOf_lastErrorCode
  | health => exact hends tellsOf_health
  | tableNames outNames outCount => exact hends (tellsOf_tableNames lib outNames outCount)
  | createTable name columns => exact hends (tellsOf_createTable lib name columns none none)
  | createTableWithConstraintsJson name columns constraintsJson =>
    exact hends (tellsOf_createTable lib name columns constraintsJson none)
  | createTableWithSchemaJson name columns constraintsJson indexes =>
    exact hends (tellsOf_createTable lib name columns constraintsJson indexes)
  | historyRetentionGet =>
    exact hends (tellsOf_request (.lit "GET") (some (.lit "/history/retention")) none
      fun _ _ htells =>
      tellsOf_takeRetention lib htells)
  | historyRetentionSet epochs => exact hends (tellsOf_historyRetentionSet lib epochs)
  | dropTable name => exact hends (tellsOf_dropTable lib name)
  | count table outCount => exact hends (tellsOf_count lib table outCount)
  | put table cells idempotencyKey => exact hends (tellsOf_put lib table cells idempotencyKey)
  | upsert table cells updateCells idempotencyKey =>
    exact hends (tellsOf_upsert lib table cells updateCells idempotencyKey)
  | delete table rowId => exact hends (tellsOf_delete lib table rowId)
  | deleteByPk table pk => exact hends (tellsOf_deleteByPk lib table pk)
  | commit ops idempotencyKey => exact hends (tellsOf_commit lib ops idempotencyKey)
  | query table conditions projection limit outResult =>
    exact hends (tellsOf_query lib table conditions projection limit 0 outResult)
  | queryPage table conditions projection limit offset outResult =>
    exact hends (tellsOf_query lib table conditions projection limit offset outResult)
  | sql text => exact hends (tellsOf_sql lib text)
  | queryStatusGet queryId out => exact hends (tellsOf_queryStatusGet lib queryId out)
  | cancelQuery queryId => exact hends (tellsOf_cancelQuery lib queryId)
  | retrieveText table embeddingColumn text k =>
    exact hends (tellsOf_retrieveText lib table embeddingColumn text k)
  | schema outBody => exact hends (tellsOf_schema lib outBody)
  | schemaFor table outBody => exact hends (tellsOf_schemaFor lib table outBody)

/-- The error slot tells of every call that returns, exactly if every call meets its
    condition. -/
theorem results_tell_iff (steps : List Step) (s : Session) :
    (∀ r ∈ results lib steps s, r.2.c.Tells r.1) ↔ AllMeet lib steps s := by
  induction steps generalizing s with
  | nil => exact iff_of_true (fun _ h => absurd h List.not_mem_nil) trivial
  | cons step steps ih =>
    cases step with
    | setTimeout timeoutSeconds => exact ih _
    | call call =>
      rw [AllMeet, results, ← call.tells_iff lib s]
      cases hreturns : call.returns lib s with
      | none =>
        exact iff_of_true (fun _ h => absurd h List.not_mem_nil)
          ⟨fun _ _ h => (by cases h), fun _ h => (by cases h)⟩
      | some r =>
        obtain ⟨rc, s'⟩ := r
        rw [List.forall_mem_cons, ih]
        refine and_congr ⟨fun h rc' s'' hr => ?_, fun h => h rc s' rfl⟩
          ⟨fun h r hr => ?_, fun h => h _ rfl⟩
        · obtain ⟨rfl, rfl⟩ := Prod.mk.inj (Option.some.inj hr)
          exact h
        · obtain rfl := Option.some.inj hr
          exact h

/-- The retention is not in a response of success: the call fails, and the slot does not
    tell of it. -/
theorem historyRetentionGet_untold : ¬∀ r ∈ results Libc.zero [.call .historyRetentionGet]
    (Session.connected fun _ => .of 200 (ascii "\x7b\x7d")), r.2.c.Tells r.1 := by
  have hcodes : (results Libc.zero [.call .historyRetentionGet]
      (Session.connected fun _ => .of 200 (ascii "\x7b\x7d"))).map
      (fun r => (r.1, r.2.c.lastCode)) =
      [(.query, .ok)] := by decide
  intro h
  have hmem : (Code.query, Code.ok) ∈ (results Libc.zero [.call .historyRetentionGet]
      (Session.connected fun _ => .of 200 (ascii "\x7b\x7d"))).map
      (fun r => (r.1, r.2.c.lastCode)) :=
    hcodes ▸ List.mem_singleton_self _
  obtain ⟨r, hr, he⟩ := List.mem_map.1 hmem
  obtain ⟨hrc, hcode⟩ := Prod.mk.inj he
  cases hcode.symm.trans ((h r hr).code.trans hrc)

end MongrelDB
