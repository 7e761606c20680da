import MongrelDB.Api.Calls
import MongrelDB.Client.Intact

/-!
# What a call asks for

A call is refused, or it is one request and the decoding of its response. What it asks
for is its outline (`Call.outline`): a method, a path and a body, each a text of the
source or one that is built of pieces. What is handed to `do_request` is what memory
allows of it (`Outline.message`).

* `Call.returns_eq`: a call with an outline is the request of it, and then what the call
  does with the response (`Call.finish`);
* `Call.returns_declined`: a call without one changes nothing but the error slot.
-/

namespace MongrelDB

open Ascii Prog

/-! ## Texts -/

/-- A text that is written for a request. -/
inductive Text where
  /-- A text that takes no allocation. -/
  | whole (t : CStr)
  /-- Pieces, no append of which is looked at. -/
  | built (ps : Appends)
  /-- Pieces, and a piece whose append is looked at, several times. -/
  | checked (parts : List (Appends × Bytes))

/-- The buffer behind these parts, unless one that is looked at is not appended. -/
def checkedAll (buf : Sbuf) : List (Appends × Bytes) → Heap → Option Sbuf × Heap
  | [], H => (some buf, H)
  | (ps, p) :: parts, H =>
    let (buf, H) := buf.appendAll H ps
    let (ok, buf, H) := buf.append p H
    if ok then checkedAll buf parts H else (none, H)

namespace Text

/-- The pieces of a text. -/
def pieces : Text → Appends
  | whole t => [t.bytes]
  | built ps => ps
  | checked parts => parts.flatMap fun part => part.1 ++ [part.2]

/-- The text that is meant. -/
def text (t : Text) : CStr := CStr.at (t.pieces.flatten ++ [0])

/-- What is written from this heap on, which may be NULL; nothing, if an append that is
    looked at fails. -/
def written : Text → Heap → Option (Option CStr) × Heap
  | whole t, H => (some (some t), H)
  | built ps, H =>
    let (buf, H) := Sbuf.empty.appendAll H ps
    (some buf.cstr?, H)
  | checked parts, H =>
    let (buf, H) := checkedAll Sbuf.empty parts H
    (buf.map Sbuf.cstr?, H)

end Text

/-! ## Outlines -/

/-- What a call asks the server for. -/
structure Outline where
  method : CStr
  path : Text
  body : Option Text

/-- What is handed to `do_request` for the path and the body. -/
structure Message where
  path : Option CStr
  body : Option CStr

namespace Outline

/-- What memory allows of an outline, and the heap behind it. -/
def message (o : Outline) (H : Heap) : Option Message × Heap :=
  match o.path.written H with
  | (none, H) => (none, H)
  | (some path, H) =>
    match o.body with
    | none => (some ⟨path, none⟩, H)
    | some body =>
      match body.written H with
      | (none, H) => (none, H)
      | (some text, H) => (some ⟨path, text⟩, H)

/-- The texts are written, and the request is made. -/
def request (o : Outline) : Api Unit := do
  let (message, body) := o.message (← get).heaps.body
  modify fun s => { s with heaps := { s.heaps with body := body } }
  match message with
  | none => fail .nomem "out of memory"
  | some message => doRequest o.method message.path message.body

/-- A request without a body. -/
def ofPath (path : Text) : Outline := ⟨.lit "GET", path, none⟩

/-- A request with this body. -/
def ofBody (path : CStr) (body : Text) : Outline := ⟨.lit "POST", .whole path, some body⟩

/-- A transaction, if the types of its operations are known. -/
def txn (lib : Libc) (ops : List Op) (idempotencyKey : Option CStr) : Option Outline :=
  if (opsAppends lib [] ops).2 then
    some (.ofBody (.lit "/kit/txn") (.built (commitAppends lib ops idempotencyKey)))
  else none

/-- The creation of a table. -/
def create (name : Option CStr) (columns : Option (List Column)) (constraintsJson : Option CStr)
    (indexes : Option (List Index)) : Option Outline := do
  return .ofBody (.lit "/kit/create_table")
    (.built (jsonSerializeCreateTableWithIndexes (← name) (← columns) constraintsJson indexes))

end Outline

/-- The parts of the body of `mongreldb_retrieve_text`. -/
def retrieveTextParts (table : CStr) (embeddingColumn : Int64) (text : CStr) (k : Int64) :
    List (Appends × Bytes) :=
  [([], ascii "\x7b\"table\":"), (jsonEscape table, snprintf 64 (ascii ",\"embedding_column\":" ++
    (intText embeddingColumn.toInt ++ ascii ",\"text\":")))] ++
  if 0 < k then [(jsonEscape text, snprintf 64 (ascii ",\"k\":" ++ intText k.toInt)),
    ([], [rbrace])]
  else [(jsonEscape text, [rbrace])]

/-- What a call asks for, unless it is refused, or asks for nothing. -/
def Call.outline (lib : Libc) : Call → Option Outline
  | .lastErrorCode => none
  | .health => some (.ofPath (.whole (.lit "/health")))
  | .tableNames outNames outCount =>
    if outNames && outCount then some (.ofPath (.whole (.lit "/tables"))) else none
  | .createTable name columns => Outline.create name columns none none
  | .createTableWithConstraintsJson name columns constraintsJson =>
    Outline.create name columns constraintsJson none
  | .createTableWithSchemaJson name columns constraintsJson indexes =>
    Outline.create name columns constraintsJson indexes
  | .historyRetentionGet => some (.ofPath (.whole (.lit "/history/retention")))
  | .historyRetentionSet epochs => (historyRetentionSetBody epochs 96).map fun body =>
      ⟨.lit "PUT", .whole (.lit "/history/retention"), some (.whole (CStr.at (body ++ [0])))⟩
  | .dropTable name => name.map fun name => ⟨.lit "DELETE", .built (dropTablePath name), none⟩
  | .count table outCount =>
    if outCount then table.map fun table => .ofPath (.built (countPath table)) else none
  | .put (some table) (some cells) idempotencyKey =>
    Outline.txn lib [{ Op.on .put table with cells := cells }] idempotencyKey
  | .put _ _ _ => none
  | .upsert (some table) (some cells) updateCells idempotencyKey =>
    Outline.txn lib [{ Op.on .upsert table with cells := cells, updateCells := updateCells }]
      idempotencyKey
  | .upsert _ _ _ _ => none
  | .delete (some table) rowId => Outline.txn lib [{ Op.on .delete table with rowId := rowId }] none
  | .delete none _ => none
  | .deleteByPk (some table) (some pk) =>
    Outline.txn lib [{ Op.on .deleteByPk table with pkValue := pk }] none
  | .deleteByPk _ _ => none
  | .commit (some (op :: ops)) idempotencyKey => Outline.txn lib (op :: ops) idempotencyKey
  | .commit _ _ => none
  | .query table conditions projection limit outResult =>
    if outResult then table.map fun table => .ofBody (.lit "/kit/query")
      (.built (queryAppends lib table conditions projection limit 0)) else none
  | .queryPage table conditions projection limit offset outResult =>
    if outResult then table.map fun table => .ofBody (.lit "/kit/query")
      (.built (queryAppends lib table conditions projection limit offset)) else none
  | .sql text => text.map fun text => .ofBody (.lit "/sql") (.built (sqlAppends text))
  | .queryStatusGet queryId out =>
    if isGiven queryId && out then some
      (.ofPath (.built (queryStatusPath (orEmpty queryId)))) else none
  | .cancelQuery queryId =>
    if isGiven queryId then some ⟨.lit "POST", .built (cancelQueryPath (orEmpty queryId)),
      some (.whole (.lit "\x7b\x7d"))⟩ else none
  | .retrieveText table embeddingColumn text k =>
    if isGiven table && isGiven text then some (.ofBody (.lit "/kit/retrieve_text")
      (.checked (retrieveTextParts (orEmpty table) embeddingColumn (orEmpty text) k))) else none
  | .schema outBody => if outBody then some (.ofPath (.whole (.lit "/kit/schema"))) else none
  | .schemaFor table outBody =>
    if outBody then table.map fun table => .ofPath (.built (schemaForPath table)) else none

/-! ## Responses -/

/-- A program, without its value. -/
def Prog.void {φ σ ε α : Type} (x : Prog φ σ ε α) : Prog φ σ ε Unit := x >>= fun _ => pure ()

/-- What a call does with the response. -/
def Call.finish (lib : Libc) : Call → Api Unit
  | .tableNames _ _ => takeNames.void
  | .createTable _ _ => (takeNumber lib (.lit "table_id")).void
  | .createTableWithConstraintsJson _ _ _ => (takeNumber lib (.lit "table_id")).void
  | .createTableWithSchemaJson _ _ _ _ => (takeNumber lib (.lit "table_id")).void
  | .historyRetentionGet => (takeRetention lib).void
  | .historyRetentionSet _ => (takeRetention lib).void
  | .count _ _ => (takeNumber lib (.lit "count")).void
  | .query _ _ _ _ _ => (takePage lib).void
  | .queryPage _ _ _ _ _ _ => (takePage lib).void
  | .queryStatusGet _ _ => (takeStatus lib).void
  | _ => pure ()

/-! ## How a call is made of them -/

section

variable {φ σ ε α β γ : Type} {ok : ε} {s : σ}

theorem ends_void (x : Prog φ σ ε α) : ends ok x.void s = ends ok x s := by
  change ends ok (Prog.bind x fun _ => pure ()) s = _
  rw [ends, ends, Prog.bind]
  cases x s <;> rfl

/-- How two programs end that begin in the same way. -/
theorem ends_bind_congr {x : Prog φ σ ε α} {f : α → Prog φ σ ε β} {g : α → Prog φ σ ε γ}
    (h : ∀ a s, ends ok (f a) s = ends ok (g a) s) :
    ends ok (x >>= f) s = ends ok (x >>= g) s := by
  change ends ok (Prog.bind x f) s = ends ok (Prog.bind x g) s
  rw [ends, ends, Prog.bind, Prog.bind]
  cases x s with
  | val a s' => exact h a s'
  | ret e s' => rfl
  | fault f => rfl

end

variable {s : Session} {lib : Libc}

/-- The session behind these parts of a body. -/
def Session.checking (s : Session) (buf : Sbuf) (parts : List (Appends × Bytes)) : Session :=
  { s with heaps := { s.heaps with body := (checkedAll buf parts s.heaps.body).2 } }

/-- A part of a body, and the ones behind it. -/
theorem checkedAppends_then {buf : Sbuf} {ps : Appends} {p : Bytes} {parts : List (Appends × Bytes)}
    {f : Option Sbuf → Api (Option Sbuf)} (hnone : f none = pure none)
    (hsome : ∀ b s, f (some b) s = .val (checkedAll b parts s.heaps.body).1 (s.checking b parts)) :
    (checkedAppends buf ps p >>= f) s =
      .val (checkedAll buf ((ps, p) :: parts) s.heaps.body).1
        (s.checking buf ((ps, p) :: parts)) := by
  change f (if ((buf.appendAll s.heaps.body ps).1.append p (buf.appendAll s.heaps.body ps).2).1 then
      some ((buf.appendAll s.heaps.body ps).1.append p (buf.appendAll s.heaps.body ps).2).2.1
      else none) { s with heaps := { s.heaps with
        body := ((buf.appendAll s.heaps.body ps).1.append p (buf.appendAll s.heaps.body ps).2).2.2 }
        }
      = _
  rw [Session.checking, checkedAll]
  dsimp only
  split_ifs
  · exact hsome _ _
  · rw [hnone]
    rfl

theorem checkedAll_nil (b : Sbuf) (s : Session) :
    (pure (some b) : Api (Option Sbuf)) s = .val (checkedAll b [] s.heaps.body).1
    (s.checking b []) :=
  rfl

/-- The parts of a body are written as `mongreldb_retrieve_text` writes them. -/
theorem retrieveTextBuildBody_eq (table : CStr) (embeddingColumn : Int64) (text : CStr)
    (k : Int64) :
    retrieveTextBuildBody table embeddingColumn text k s =
      .val (checkedAll Sbuf.empty (retrieveTextParts table embeddingColumn text k) s.heaps.body).1
        (s.checking Sbuf.empty (retrieveTextParts table embeddingColumn text k)) := by
  have hlast : ∀ (b : Sbuf) (ps : Appends) (p : Bytes) (s : Session), checkedAppends b ps p s =
      .val (checkedAll b [(ps, p)] s.heaps.body).1 (s.checking b [(ps, p)]) := fun b ps p s => by
    rw [← checkedAppends_then (f := pure) rfl fun b s => checkedAll_nil b s]
    exact congrFun (then_pure (checkedAppends b ps p)).symm s
  rw [retrieveTextBuildBody, retrieveTextParts, List.cons_append, List.cons_append, List.nil_append]
  refine checkedAppends_then rfl fun b s => checkedAppends_then rfl fun b s => ?_
  split_ifs
  · exact checkedAppends_then rfl fun b s => hlast b [] [rbrace] s
  · exact hlast b _ _ s

/-- What memory allows of parts of a body. -/
theorem Outline.message_checked {p : CStr} {parts : List (Appends × Bytes)} {H H' : Heap}
    {buf : Option Sbuf} (h : checkedAll Sbuf.empty parts H = (buf, H')) :
    (Outline.ofBody p (.checked parts)).message H =
      (buf.map fun buf => ⟨some p, buf.cstr?⟩, H') := by
  simp only [Outline.message, Outline.ofBody, Text.written, h]
  cases buf <;> rfl

theorem Outline.request_of_some {o : Outline} {m : Message} {H : Heap}
    (h : o.message s.heaps.body = (some m, H)) : o.request s =
      doRequest o.method m.path m.body { s with heaps := { s.heaps with body := H } } := by
  refine (bind_of_val (f := _) (rfl : (get : Api Session) s = .val s s)).trans ?_
  rw [h]
  rfl

theorem Outline.request_of_none {o : Outline} {H : Heap}
    (h : o.message s.heaps.body = (none, H)) : o.request s =
      fail .nomem "out of memory" { s with heaps := { s.heaps with body := H } } := by
  refine (bind_of_val (f := _) (rfl : (get : Api Session) s = .val s s)).trans ?_
  rw [h]
  rfl

/-- A call that is a request, and then something with the response. -/
theorem ends_request {α : Type} {o : Outline} {x : Api α} {k : Unit → Api α} {f : Api Unit}
    (hx : x s = (o.request >>= k) s) (hk : ∀ a s', ends .ok (k a) s' = ends .ok f s') :
    ends .ok x s = ends .ok (o.request >>= fun _ => f) s := by
  rw [ends, hx, ← ends]
  exact ends_bind_congr hk

/-- A call that is a request, and nothing else. -/
theorem ends_request_only {o : Outline} {x : Api Unit} (hx : x s = o.request s) :
    ends .ok x s = ends .ok (o.request >>= fun _ => pure ()) s := by
  rw [ends, hx, ← ends]
  exact (ends_void o.request).symm

theorem ends_txn {ops : List Op} {idempotencyKey : Option CStr} {o : Outline}
    (ho : Outline.txn lib ops idempotencyKey = some o) (hne : ops.isEmpty = false) :
    ends .ok (mongreldbCommit lib (some ops) idempotencyKey) s =
      ends .ok (o.request >>= fun _ => pure ()) s := by
  rw [Outline.txn] at ho
  split_ifs at ho with hknown
  obtain rfl := Option.some.inj ho
  refine ends_request_only ?_
  rw [mongreldbCommit, hne, Bool.not_false, if_pos rfl, if_pos hknown]
  rfl

/-- A call with an outline is the request of it, and then what it does with the response. -/
theorem Call.returns_eq {call : Call} {o : Outline} (ho : call.outline lib = some o) :
    call.returns lib s = ends .ok (o.request >>= fun _ => call.finish lib) s := by
  have hcreate : ∀ {name : Option CStr} {columns : Option (List Column)}
      {constraintsJson : Option CStr} {indexes : Option (List Index)},
      Outline.create name columns constraintsJson indexes = some o →
      ends .ok (mongreldbCreateTableWithSchemaJson lib name columns constraintsJson indexes) s =
        ends .ok (o.request >>= fun _ => (takeNumber lib (.lit "table_id")).void) s := by
    intro name columns constraintsJson indexes ho
    cases name <;> cases columns <;> cases ho
    exact ends_request rfl fun _ _ => (ends_void (takeNumber lib _)).symm
  have hquery : ∀ {table : Option CStr} {conditions : List Condition} {projection : List Int64}
      {limit offset : Int64} {outResult : Bool},
      (if outResult then table.map fun table => Outline.ofBody (.lit "/kit/query")
        (.built (queryAppends lib table conditions projection limit offset)) else none) = some o →
      ends .ok (mongreldbQueryPage lib table conditions projection limit offset outResult) s =
        ends .ok (o.request >>= fun _ => (takePage lib).void) s := by
    intro table conditions projection limit offset outResult ho
    cases table <;> cases outResult <;> cases ho
    exact ends_request rfl fun _ _ => (ends_void (takePage lib)).symm
  cases call with
  | lastErrorCode => cases ho
  | health =>
    obtain rfl := Option.some.inj ho
    exact ends_request_only rfl
  | tableNames outNames outCount =>
    cases outNames <;> cases outCount <;> cases ho
    exact ends_request rfl fun _ _ => (ends_void takeNames).symm
  | createTable name columns => exact hcreate ho
  | createTableWithConstraintsJson name columns constraintsJson => exact hcreate ho
  | createTableWithSchemaJson name columns constraintsJson indexes => exact hcreate ho
  | historyRetentionGet =>
    obtain rfl := Option.some.inj ho
    exact ends_request rfl fun _ _ => (ends_void (takeRetention lib)).symm
  | historyRetentionSet epochs =>
    rw [outline, Option.map_eq_some_iff] at ho
    obtain ⟨body, hbody, rfl⟩ := ho
    rw [returns, mongreldbHistoryRetentionSet, hbody]
    exact ends_request rfl fun _ _ => (ends_void (takeRetention lib)).symm
  | dropTable name =>
    cases name <;> cases ho
    exact ends_request_only rfl
  | count table outCount =>
    cases table <;> cases outCount <;> cases ho
    exact ends_request rfl fun _ _ => (ends_void (takeNumber lib _)).symm
  | put table cells idempotencyKey =>
    cases table with
    | none => cases ho
    | some table => cases cells with
      | none => cases ho
      | some cells =>
        rw [outline] at ho
        rw [returns, mongreldbPut, commitOne, ends_txn ho rfl]
        rfl
  | upsert table cells updateCells idempotencyKey =>
    cases table with
    | none => cases ho
    | some table => cases cells with
      | none => cases ho
      | some cells =>
        rw [outline] at ho
        rw [returns, mongreldbUpsert, commitOne, ends_txn ho rfl]
        rfl
  | delete table rowId =>
    cases table with
    | none => cases ho
    | some table =>
      rw [outline] at ho
      rw [returns, mongreldbDelete, commitOne, ends_txn ho rfl]
      rfl
  | deleteByPk table pk =>
    cases table with
    | none => cases ho
    | some table => cases pk with
      | none => cases ho
      | some pk =>
        rw [outline] at ho
        rw [returns, mongreldbDeleteByPk, commitOne, ends_txn ho rfl]
        rfl
  | commit ops idempotencyKey =>
    rcases ops with _ | _ | ⟨op, ops⟩
    · cases ho
    · cases ho
    · rw [outline] at ho
      rw [returns, ends_txn ho rfl]
      rfl
  | query table conditions projection limit outResult => exact hquery ho
  | queryPage table conditions projection limit offset outResult => exact hquery ho
  | sql text =>
    cases text <;> cases ho
    exact ends_request rfl fun _ _ => rfl
  | queryStatusGet queryId out =>
    rw [outline] at ho
    split_ifs at ho with hgiven
    obtain rfl := Option.some.inj ho
    obtain ⟨hid, rfl⟩ := Bool.and_eq_true_iff.1 hgiven
    rw [returns, mongreldbQueryStatusGet, hid]
    exact ends_request rfl fun _ _ => (ends_void (takeStatus lib)).symm
  | cancelQuery queryId =>
    rw [outline] at ho
    split_ifs at ho with hgiven
    obtain rfl := Option.some.inj ho
    rw [returns, mongreldbCancelQuery, hgiven]
    exact ends_request rfl fun _ _ => rfl
  | retrieveText table embeddingColumn text k =>
    rw [outline] at ho
    split_ifs at ho with hgiven
    obtain rfl := Option.some.inj ho
    obtain ⟨htable, htext⟩ := Bool.and_eq_true_iff.1 hgiven
    rw [returns, mongreldbRetrieveText, htable, htext]
    refine ends_request (k := fun _ => takeResponse) ?_ fun _ _ => rfl
    refine (bind_of_val (retrieveTextBuildBody_eq _ embeddingColumn _ k)).trans ?_
    rw [Session.checking]
    generalize hparts : checkedAll Sbuf.empty
      (retrieveTextParts (orEmpty table) embeddingColumn (orEmpty text) k) s.heaps.body = r
    obtain ⟨buf, H⟩ := r
    -- The parts are those of the outline.
    have hmessage := Outline.message_checked (p := .lit "/kit/retrieve_text") hparts
    cases buf with
    | none =>
      change _ = Prog.bind _ _ s
      rw [Prog.bind, Outline.request_of_none hmessage]
      rfl
    | some buf =>
      change _ = Prog.bind _ _ s
      rw [Prog.bind, Outline.request_of_some hmessage]
      rfl
  | schema outBody =>
    cases outBody <;> cases ho
    exact ends_request rfl fun _ _ => rfl
  | schemaFor table outBody =>
    cases table <;> cases outBody <;> cases ho
    exact ends_request rfl fun _ _ => rfl

/-! ## Calls that ask for nothing -/

/-- Nothing has changed but the error slot, and the heaps for it and for bodies. -/
def Session.Declined (s s' : Session) : Prop :=
  ∃ code msg body error, s' = { s with
    c := { s.c with lastCode := code, errorMsg := msg },
    heaps := { s.heaps with body := body, error := error } } ∧
    body.grants = s.heaps.body.grants ∧ error.grants = s.heaps.error.grants

theorem Session.Declined.refl (s : Session) : s.Declined s :=
  ⟨s.c.lastCode, s.c.errorMsg, s.heaps.body, s.heaps.error, rfl, rfl, rfl⟩

/-- A call that succeeds without a request. -/
def Call.isIdle : Call → Bool
  | .lastErrorCode => true
  | .commit (some []) _ => true
  | _ => false

/-- A call ends without a request: with an error, or as one that needs none. -/
def Call.Declines (lib : Libc) (call : Call) (s : Session) : Prop :=
  ∃ rc s', call.returns lib s = some (rc, s') ∧ s.Declined s' ∧ (rc = .ok → call.isIdle = true)

theorem Call.declines_of_refused {call : Call} (h : call.returns lib s = some (.invalidArg, s)) :
    call.Declines lib s :=
  ⟨.invalidArg, s, h, .refl s, fun h => by cases h⟩

theorem fail_declined {α : Type} (code : Code) (msg : String) (H : Heap)
    (hH : H.grants = s.heaps.body.grants) :
    ∃ s', ends .ok (fail code msg : Api α) { s with heaps := { s.heaps with body := H } } =
      some (code, s') ∧ s.Declined s' := by
  refine ⟨_, rfl, _, _, _, _, rfl, hH, ?_⟩
  exact Sbuf.append_grants _ _ _

theorem Call.declines_of_fail {call : Call} {α : Type} (msg : String) {H : Heap}
    (hH : H.grants = s.heaps.body.grants)
    (h : call.returns lib s =
      ends .ok (fail .invalidArg msg : Api α) { s with heaps := { s.heaps with body := H } }) :
    call.Declines lib s := by
  obtain ⟨s', hends, hs'⟩ := fail_declined (α := α) .invalidArg msg H hH
  exact ⟨.invalidArg, s', h.trans hends, hs', fun h => by cases h⟩

theorem Outline.txn_ne_none {op : Op} (hop : op.type ≠ .other) (idempotencyKey : Option CStr) :
    Outline.txn lib [op] idempotencyKey ≠ none := by
  have hknown : (opsAppends lib [] [op]).2 = true := by
    rw [opsAppends, opAppends]
    cases htype : op.type <;> first | rfl | exact absurd htype hop
  rw [Outline.txn, if_pos hknown]
  exact Option.some_ne_none _

/-- A call without an outline makes no request. -/
theorem Call.returns_declined {call : Call} (ho : call.outline lib = none) (s : Session) :
    call.Declines lib s := by
  have hcreate : ∀ {call : Call} {name : Option CStr} {columns : Option (List Column)}
      {constraintsJson : Option CStr} {indexes : Option (List Index)},
      Outline.create name columns constraintsJson indexes = none →
      call.returns lib s = ends .ok
        (mongreldbCreateTableWithSchemaJson lib name columns constraintsJson indexes) s →
      call.Declines lib s := by
    intro call name columns constraintsJson indexes ho h
    cases name with
    | none => exact declines_of_refused h
    | some name =>
      cases columns with
      | none => exact declines_of_refused h
      | some columns => exact absurd ho (Option.some_ne_none _)
  have hnamed : ∀ {call : Call} {name : Option CStr} {out : Bool} {f : CStr → Outline},
      (if out then name.map f else none) = none →
      (name = none ∨ out = false → call.returns lib s = some (.invalidArg, s)) →
      call.Declines lib s := by
    intro call name out f ho h
    cases name with
    | none => exact declines_of_refused (h (.inl rfl))
    | some name =>
      cases out with
      | false => exact declines_of_refused (h (.inr rfl))
      | true => exact absurd ho (Option.some_ne_none _)
  cases call with
  | lastErrorCode => exact ⟨s.c.lastCode, s, rfl, .refl s, fun _ => rfl⟩
  | health => cases ho
  | tableNames outNames outCount =>
    cases outNames with
    | false => exact declines_of_refused rfl
    | true =>
      cases outCount with
      | false => exact declines_of_refused rfl
      | true => exact absurd ho (Option.some_ne_none _)
  | createTable name columns => exact hcreate ho rfl
  | createTableWithConstraintsJson name columns constraintsJson => exact hcreate ho rfl
  | createTableWithSchemaJson name columns constraintsJson indexes => exact hcreate ho rfl
  | historyRetentionGet => cases ho
  | historyRetentionSet epochs =>
    obtain ⟨body, hbody⟩ := historyRetentionSetBody_isSome epochs
    rw [outline, hbody] at ho
    exact absurd ho (Option.some_ne_none _)
  | dropTable name =>
    cases name with
    | none => exact declines_of_refused rfl
    | some name => exact absurd ho (Option.some_ne_none _)
  | count table outCount =>
    refine hnamed ho fun h => ?_
    rcases h with rfl | rfl
    · rfl
    · cases table <;> rfl
  | put table cells idempotencyKey =>
    cases table with
    | none => exact declines_of_refused rfl
    | some table =>
      cases cells with
      | none => exact declines_of_refused rfl
      | some cells => exact absurd ho (Outline.txn_ne_none (fun h => by cases h) _)
  | upsert table cells updateCells idempotencyKey =>
    cases table with
    | none => exact declines_of_refused rfl
    | some table =>
      cases cells with
      | none => exact declines_of_refused rfl
      | some cells => exact absurd ho (Outline.txn_ne_none (fun h => by cases h) _)
  | delete table rowId =>
    cases table with
    | none => exact declines_of_refused rfl
    | some table => exact absurd ho (Outline.txn_ne_none (fun h => by cases h) _)
  | deleteByPk table pk =>
    cases table with
    | none => exact declines_of_refused rfl
    | some table =>
      cases pk with
      | none => exact declines_of_refused rfl
      | some pk => exact absurd ho (Outline.txn_ne_none (fun h => by cases h) _)
  | commit ops idempotencyKey =>
    rcases ops with _ | _ | ⟨op, ops⟩
    · exact declines_of_refused rfl
    · exact ⟨.ok, s, rfl, .refl s, fun _ => rfl⟩
    · -- The pieces up to the unknown type are built, and freed.
      have hunknown : ¬(opsAppends lib [] (op :: ops)).2 = true := fun h =>
        absurd ho (by rw [outline, Outline.txn, if_pos h]; exact Option.some_ne_none _)
      refine declines_of_fail (α := Unit) "unknown op type"
        (Sbuf.appendAll_grants Sbuf.empty s.heaps.body
        ([ascii "\x7b\"ops\":["] ++ (opsAppends lib [] (op :: ops)).1)) ?_
      rw [returns, mongreldbCommit, List.isEmpty_cons, Bool.not_false, if_pos rfl, if_neg hunknown]
      rfl
  | query table conditions projection limit outResult =>
    refine hnamed ho fun h => ?_
    rcases h with rfl | rfl
    · rfl
    · cases table <;> rfl
  | queryPage table conditions projection limit offset outResult =>
    refine hnamed ho fun h => ?_
    rcases h with rfl | rfl
    · rfl
    · cases table <;> rfl
  | sql text =>
    cases text with
    | none => exact declines_of_refused rfl
    | some text => exact absurd ho (Option.some_ne_none _)
  | queryStatusGet queryId out =>
    by_cases hgiven : isGiven queryId = true
    · cases out with
      | true =>
        rw [outline, hgiven] at ho
        exact absurd ho (Option.some_ne_none _)
      | false =>
        refine declines_of_refused ?_
        rw [returns, mongreldbQueryStatusGet, hgiven]
        rfl
    · refine declines_of_fail (α := QueryStatus) "mongreldb: query_id is required" rfl ?_
      rw [returns, mongreldbQueryStatusGet, Bool.eq_false_iff.2 hgiven]
      rfl
  | cancelQuery queryId =>
    by_cases hgiven : isGiven queryId = true
    · rw [outline, if_pos hgiven] at ho
      exact absurd ho (Option.some_ne_none _)
    · refine declines_of_fail (α := CStr) "mongreldb: query_id is required" rfl ?_
      rw [returns, mongreldbCancelQuery, Bool.eq_false_iff.2 hgiven]
      rfl
  | retrieveText table embeddingColumn text k =>
    by_cases hgiven : (isGiven table && isGiven text) = true
    · rw [outline, if_pos hgiven] at ho
      exact absurd ho (Option.some_ne_none _)
    · refine declines_of_fail (α := CStr) "mongreldb: table and text are required" rfl ?_
      have hno : (!isGiven table || !isGiven text) = true := by
        rw [← Bool.not_and, Bool.eq_false_iff.2 hgiven]
        rfl
      rw [returns, mongreldbRetrieveText, hno]
      rfl
  | schema outBody =>
    cases outBody with
    | false => exact declines_of_refused rfl
    | true => exact absurd ho (Option.some_ne_none _)
  | schemaFor table outBody =>
    refine hnamed ho fun h => ?_
    rcases h with rfl | rfl
    · rfl
    · cases table <;> rfl

end MongrelDB
