import MongrelDB.Api.Wire
import MongrelDB.Commit.Body
import MongrelDB.Query.Says
import MongrelDB.Schema.Indexed
import MongrelDB.Unsigned

/-!
# What requests say

The body of a request is an object that says what is written of the call, and nothing else,
no key twice (`Call.said`, `Call.body_says`), if what the call was given as JSON is
well-formed, and its bounds and numbers can be printed (`Call.WellFormed`). In a program of
such calls, the requests are those of the calls that ask for something, in their order, each
with the settings of the client at that time, and with such a body (`run_says`).

Not everything a call is given is written: of a range, it is not said whether its bounds are
inclusive, of an index not `pq_num_subvectors` and `pq_bits`, and a string that is NULL is
written as an empty one.
-/

namespace MongrelDB

open Ascii

variable {lib : Libc}

/-! ## Bodies -/

/-- What the body of a transaction says. -/
def commitSaid (lib : Libc) (ops : List Op) (idempotencyKey : Option CStr) :
    List (CStr × Option Said) :=
  [(.lit "ops", some (.list (fun op => [lbrace] :: ((opAppends lib op).getD [] ++ [[rbrace]]))
    (OpObject lib) ops)),
    (.lit "idempotency_key",
      if isGiven idempotencyKey then some (.str (orEmpty idempotencyKey)) else none)]

/-- What the body of `mongreldb_sql` says. -/
def sqlSaid (sql : CStr) : List (CStr × Option Said) :=
  [(.lit "sql", some (.str sql)), (.lit "format", some (.str (.lit "json")))]

/-- What the body of `mongreldb_retrieve_text` says. -/
def retrieveTextSaid (table : CStr) (embeddingColumn : Int64) (text : CStr) (k : Int64) :
    List (CStr × Option Said) :=
  [(.lit "table", some (.str table)), (.lit "embedding_column", some (.int embeddingColumn)),
    (.lit "text", some (.str text)), (.lit "k", if 0 < k then some (.int k) else none)]

/-- A number that is not negative. -/
def Said.nat (n : Nat) : Said := ⟨natText n, fun e => e.val.datum? = some (.int n)⟩

/-- What the body of `mongreldb_history_retention_set` says. -/
def retentionSaid (epochs : UInt64) : List (CStr × Option Said) :=
  [(.lit "history_retention_epochs", some (.nat epochs.toNat))]

theorem Said.nat_written (n : Nat) : (Said.nat n).Written :=
  ⟨plainItem (.ofNat n), (itemText_plainItem (.ofNat n)).symm, Json.ofNat_valid n,
    Json.ofNat_datum n⟩

/-- The body of a transaction says its operations. -/
theorem commitAppends_says {ops : List Op} (hops : ∀ op ∈ ops, op.type ≠ .other ∧ op.WellFormed lib)
    (idempotencyKey : Option CStr) :
    ∃ ms w, TextOf (.obj ms w) (commitAppends lib ops idempotencyKey).flatten ∧
      Says (commitSaid lib ops idempotencyKey) ms := by
  obtain ⟨ms, w, htext, hread⟩ := commitAppends_read hops idempotencyKey
  obtain ⟨e, es, w', hitem, harr, hobjects⟩ := hread.ops
  have hkeys := hread.keys
  have hops' : Option.Rel Said.Is (some (.list (fun op => [lbrace] ::
      ((opAppends lib op).getD [] ++ [[rbrace]])) (OpObject lib) ops)) (itemAt (.lit "ops") ms) := by
    rw [hitem]
    exact .some ⟨es, w', harr, hobjects⟩
  refine ⟨ms, w, htext, ?_⟩
  rw [commitSaid]
  split_ifs at hkeys ⊢ with hgiven
  · obtain ⟨key, rfl, hne⟩ : ∃ key, idempotencyKey = some key ∧ key.bytes ≠ [] := by
      cases idempotencyKey with
      | none => exact absurd hgiven Bool.false_ne_true
      | some key => exact ⟨key, rfl, by simpa [isGiven] using hgiven⟩
    obtain ⟨e', hitem', hstr⟩ := hread.idempotencyKey key rfl hne
    refine ⟨hkeys, hkeys ▸ by decide, ?_⟩
    simp only [List.forall_mem_cons]
    exact ⟨hops', hitem' ▸ .some hstr, fun _ h => absurd h List.not_mem_nil⟩
  · refine ⟨hkeys, hkeys ▸ by decide, ?_⟩
    simp only [List.forall_mem_cons]
    refine ⟨hops', ?_, fun _ h => absurd h List.not_mem_nil⟩
    -- There is no such key.
    have hnone : itemAt (.lit "idempotency_key") ms = none := by
      rw [itemAt, Option.map_eq_none_iff, List.find?_eq_none]
      intro m hm heq
      have hmem : strVal? m.key.raw ∈ keysOf ms := List.mem_map_of_mem hm
      rw [hkeys, beq_iff_eq.1 heq] at hmem
      exact absurd (List.mem_singleton.1 hmem) (by decide)
    rw [hnone]
    exact .none

theorem sqlAppends_says (sql : CStr) :
    ∃ ms w, TextOf (.obj ms w) (sqlAppends sql).flatten ∧ Says (sqlSaid sql) ms := by
  have hsql : ascii "\x7b\"sql\":" = lbrace :: keyText (.lit "sql") := by decide
  have hformat : ascii ",\"format\":\"json\"\x7d" = comma :: (keyText (.lit "format") ++
      ((Said.str (.lit "json")).text ++ [rbrace])) := by decide
  refine Said.obj_says [(.lit "format", some (.str (.lit "json")))] ?_ (Said.str_written sql)
    (fun x hx s hs => ?_) (by decide)
  · simp [sqlAppends, hsql, hformat, Said.obj, Said.str]
  · obtain rfl := List.mem_singleton.1 hx
    exact Option.some.inj hs ▸ Said.str_written _

/-- The pieces around a number are not shortened. -/
theorem snprintf_int {front back : Bytes} (i : Int64) (h : front.length + back.length ≤ 43) :
    snprintf 64 (front ++ (intText i.toInt ++ back)) = front ++ (intText i.toInt ++ back) := by
  have hlen : (intText i.toInt).length ≤ 20 := length_le_of_intVal? (intVal?_intText _)
    (Int64.le_toInt i) (Int64.toInt_lt i)
  refine List.take_of_length_le ?_
  rw [List.length_append, List.length_append]
  omega

theorem retrieveTextParts_says (table : CStr) (embeddingColumn : Int64) (text : CStr) (k : Int64) :
    ∃ ms w, TextOf (.obj ms w)
        (Text.checked (retrieveTextParts table embeddingColumn text k)).pieces.flatten ∧
      Says (retrieveTextSaid table embeddingColumn text k) ms := by
  have htable : ascii "\x7b\"table\":" = lbrace :: keyText (.lit "table") := by decide
  have hcolumn : ascii ",\"embedding_column\":" = comma :: keyText (.lit "embedding_column") := by
    decide
  have htext : ascii ",\"text\":" = comma :: keyText (.lit "text") := by decide
  have hk : ascii ",\"k\":" = comma :: keyText (.lit "k") := by decide
  have hlast : snprintf 64 (ascii ",\"k\":" ++ intText k.toInt) =
      comma :: (keyText (.lit "k") ++ intText k.toInt) := by
    rw [← List.cons_append, ← hk, ← List.append_nil (intText k.toInt)]
    exact snprintf_int k (by decide)
  refine Said.obj_says [(.lit "embedding_column", some (.int embeddingColumn)),
    (.lit "text", some (.str text)), (.lit "k", if 0 < k then some (.int k) else none)] ?_
    (Said.str_written table) ?_ (by simp only [List.map_cons, List.map_nil]; decide)
  · rw [Text.pieces, retrieveTextParts, snprintf_int embeddingColumn (by decide), hlast]
    have hint : ∀ i : Int64, int64Text i = intText i.toInt := fun i => (Json.ofInt64_text i).symm
    split_ifs <;> simp [htable, hcolumn, htext, Said.obj, Said.str, Said.int, hint]
  · simp only [List.forall_mem_cons]
    refine ⟨fun s hs => ?_, fun s hs => ?_, Said.int_written_ite _ k, Said.written_nil⟩
    · exact Option.some.inj hs ▸ Said.int_written embeddingColumn
    · exact Option.some.inj hs ▸ Said.str_written text

theorem historyRetentionSetBody_says {epochs : UInt64} {size : Nat} {text : Bytes}
    (h : historyRetentionSetBody epochs size = some text) :
    ∃ ms w, TextOf (.obj ms w) text ∧ Says (retentionSaid epochs) ms := by
  have hkey : ascii "\x7b\"history_retention_epochs\":" =
      lbrace :: keyText (.lit "history_retention_epochs") := by decide
  rw [historyRetentionSetBody] at h
  split_ifs at h
  obtain rfl := Option.some.inj h
  exact Said.obj_says [] (by simp [hkey, Said.obj, Said.nat]) (Said.nat_written epochs.toNat)
    Said.written_nil (List.nodup_singleton _)

/-- The empty object says nothing. -/
theorem emptyObject_says :
    ∃ ms w, TextOf (.obj ms w) (Text.whole (.lit "\x7b\x7d")).pieces.flatten ∧ Says [] ms := by
  refine ⟨[], Ws.none, ⟨.obj (fun _ h => absurd h List.not_mem_nil)
    (fun _ h => absurd h List.not_mem_nil), Ws.none, Ws.none, by decide⟩, rfl, List.nodup_nil,
    fun _ h => absurd h List.not_mem_nil⟩

/-! ## Calls -/

/-- What the body of the request for a call says, if it has one: what is written of the call. -/
def Call.said (lib : Libc) : Call → List (CStr × Option Said)
  | .createTable name columns => schemaSaid (orEmpty name) (columns.getD []) none none
  | .createTableWithConstraintsJson name columns constraintsJson =>
    schemaSaid (orEmpty name) (columns.getD []) constraintsJson none
  | .createTableWithSchemaJson name columns constraintsJson indexes =>
    schemaSaid (orEmpty name) (columns.getD []) constraintsJson indexes
  | .historyRetentionSet epochs => retentionSaid epochs
  | .put table cells idempotencyKey =>
    commitSaid lib [{ Op.on .put (orEmpty table) with cells := cells.getD [] }] idempotencyKey
  | .upsert table cells updateCells idempotencyKey => commitSaid lib
      [{ Op.on .upsert (orEmpty table) with cells := cells.getD [], updateCells := updateCells }]
      idempotencyKey
  | .delete table rowId =>
    commitSaid lib [{ Op.on .delete (orEmpty table) with rowId := rowId }] none
  | .deleteByPk table pk =>
    commitSaid lib [{ Op.on .deleteByPk (orEmpty table) with pkValue := pk.getD .null }] none
  | .commit ops idempotencyKey => commitSaid lib (ops.getD []) idempotencyKey
  | .query table conditions projection limit _ =>
    querySaid lib (orEmpty table) conditions projection limit 0
  | .queryPage table conditions projection limit offset _ =>
    querySaid lib (orEmpty table) conditions projection limit offset
  | .sql text => sqlSaid (orEmpty text)
  | .retrieveText table embeddingColumn text k =>
    retrieveTextSaid (orEmpty table) embeddingColumn (orEmpty text) k
  | _ => []

/-- A table can be described: raw texts are those of JSON, and numbers fit in their buffers. -/
structure DescribesTable (columns : Option (List Column)) (constraintsJson : Option CStr)
    (indexes : Option (List Index)) : Prop where
  columns : ∀ col ∈ columns.getD [], col.WellFormed
  constraints : isGiven constraintsJson = true → IsJsonText (orEmpty constraintsJson).bytes
  indexes : ∀ index ∈ indexes.getD [], index.Fits

/-- What a call is given as JSON is well-formed, and its bounds and numbers can be printed. -/
def Call.WellFormed (lib : Libc) : Call → Prop
  | .createTable _ columns => DescribesTable columns none none
  | .createTableWithConstraintsJson _ columns constraintsJson =>
    DescribesTable columns constraintsJson none
  | .createTableWithSchemaJson _ columns constraintsJson indexes =>
    DescribesTable columns constraintsJson indexes
  | .put _ cells _ => ∀ cell ∈ cells.getD [], cell.value.WellFormed lib
  | .upsert _ cells updateCells _ => (∀ cell ∈ cells.getD [], cell.value.WellFormed lib) ∧
      ∀ cells ∈ updateCells, ∀ cell ∈ cells, cell.value.WellFormed lib
  | .deleteByPk _ pk => ∀ value ∈ pk, value.WellFormed lib
  | .commit ops _ => ∀ op ∈ ops.getD [], op.WellFormed lib
  | .query _ conditions _ _ _ => ∀ cond ∈ conditions, cond.RawWellFormed ∧ cond.BoundsFinite
  | .queryPage _ conditions _ _ _ _ => ∀ cond ∈ conditions, cond.RawWellFormed ∧ cond.BoundsFinite
  | _ => True

/-- The body of a transaction of well-formed operations says them. -/
theorem Outline.txn_says {ops : List Op} {idempotencyKey : Option CStr} {o : Outline}
    (hops : ∀ op ∈ ops, op.WellFormed lib) (ho : Outline.txn lib ops idempotencyKey = some o) :
    ∀ t ∈ o.body, ∃ ms w, TextOf (.obj ms w) t.pieces.flatten ∧
      Says (commitSaid lib ops idempotencyKey) ms := by
  rw [Outline.txn] at ho
  split_ifs at ho with hknown
  obtain rfl := Option.some.inj ho
  intro t ht
  obtain rfl := Option.some.inj ht
  exact commitAppends_says (fun op hop => ⟨(opsAppends_known []).1 hknown op hop, hops op hop⟩)
    idempotencyKey

/-- The body for a table that can be described says what is written of it. -/
theorem Outline.create_says {name : Option CStr} {columns : Option (List Column)}
    {constraintsJson : Option CStr} {indexes : Option (List Index)} {o : Outline}
    (h : DescribesTable columns constraintsJson indexes)
    (ho : Outline.create name columns constraintsJson indexes = some o) :
    ∀ t ∈ o.body, ∃ ms w, TextOf (.obj ms w) t.pieces.flatten ∧
      Says (schemaSaid (orEmpty name) (columns.getD []) constraintsJson indexes) ms := by
  cases name <;> cases columns <;> cases ho
  intro t ht
  obtain rfl := Option.some.inj ht
  exact jsonSerializeCreateTableWithIndexes_says _ h.columns h.constraints h.indexes

/-- The body of a query says what is written of it. -/
theorem Outline.query_says (hlib : lib.PrintsDoubles) {table : Option CStr}
    {conditions : List Condition} {projection : List Int64} {limit offset : Int64}
    {outResult : Bool} {o : Outline}
    (h : ∀ cond ∈ conditions, cond.RawWellFormed ∧ cond.BoundsFinite)
    (ho : (if outResult then table.map fun table => Outline.ofBody (.lit "/kit/query")
      (.built (queryAppends lib table conditions projection limit offset)) else none) = some o) :
    ∀ t ∈ o.body, ∃ ms w, TextOf (.obj ms w) t.pieces.flatten ∧
      Says (querySaid lib (orEmpty table) conditions projection limit offset) ms := by
  cases outResult <;> cases table <;> cases ho
  intro t ht
  obtain rfl := Option.some.inj ht
  exact queryAppends_says hlib _ (fun cond hc => (h cond hc).1) (fun cond hc => (h cond hc).2)
    projection limit offset

/-- The body of a request says what is written of its call. -/
theorem Call.body_says (hlib : lib.PrintsDoubles) {call : Call} {o : Outline}
    (hcall : call.WellFormed lib) (ho : call.outline lib = some o) :
    ∀ t ∈ o.body, ∃ ms w, TextOf (.obj ms w) t.pieces.flatten ∧ Says (call.said lib) ms := by
  have hone : ∀ {op : Op}, op.WellFormed lib → ∀ op' ∈ [op], op'.WellFormed lib := by
    intro op hop op' hmem
    rwa [List.mem_singleton.1 hmem]
  have hnone : ∀ cells, (none : Option (List InputCell)) = some cells →
      ∀ cell ∈ cells, cell.value.WellFormed lib := fun _ h => by cases h
  cases call with
  | lastErrorCode => cases ho
  | health => cases ho; exact fun _ h => by cases h
  | tableNames outNames outCount =>
    cases outNames <;> cases outCount <;> cases ho
    exact fun _ h => by cases h
  | createTable name columns => exact Outline.create_says hcall ho
  | createTableWithConstraintsJson name columns constraintsJson =>
    exact Outline.create_says hcall ho
  | createTableWithSchemaJson name columns constraintsJson indexes =>
    exact Outline.create_says hcall ho
  | historyRetentionGet => cases ho; exact fun _ h => by cases h
  | historyRetentionSet epochs =>
    obtain ⟨body, hbody, rfl⟩ := Option.map_eq_some_iff.1 ho
    obtain ⟨ms, w, htext, hsays⟩ := historyRetentionSetBody_says hbody
    intro t ht
    obtain rfl := Option.some.inj ht
    refine ⟨ms, w, ?_, hsays⟩
    rwa [Text.pieces, List.flatten_singleton, CStr.at_append_nul htext.zero_notMem]
  | dropTable name => cases name <;> cases ho; exact fun _ h => by cases h
  | count table outCount => cases table <;> cases outCount <;> cases ho; exact fun _ h => by cases h
  | put table cells idempotencyKey =>
    rcases table with _ | table
    · cases ho
    rcases cells with _ | cells
    · cases ho
    exact Outline.txn_says (hone ⟨hcall, hnone, trivial⟩) ho
  | upsert table cells updateCells idempotencyKey =>
    rcases table with _ | table
    · cases ho
    rcases cells with _ | cells
    · cases ho
    exact Outline.txn_says (hone ⟨hcall.1, hcall.2, trivial⟩) ho
  | delete table rowId =>
    rcases table with _ | table
    · cases ho
    exact Outline.txn_says (hone ⟨fun _ h => absurd h List.not_mem_nil, hnone, trivial⟩) ho
  | deleteByPk table pk =>
    rcases table with _ | table
    · cases ho
    rcases pk with _ | pk
    · cases ho
    exact Outline.txn_says (hone ⟨fun _ h => absurd h List.not_mem_nil, hnone, hcall _ rfl⟩) ho
  | commit ops idempotencyKey =>
    rcases ops with _ | _ | ⟨op, ops⟩ <;> try cases ho
    exact Outline.txn_says hcall ho
  | query table conditions projection limit outResult => exact Outline.query_says hlib hcall ho
  | queryPage table conditions projection limit offset outResult =>
    exact Outline.query_says hlib hcall ho
  | sql text =>
    cases text <;> cases ho
    intro t ht
    obtain rfl := Option.some.inj ht
    exact sqlAppends_says _
  | queryStatusGet queryId out =>
    rw [outline] at ho
    split_ifs at ho
    cases ho
    exact fun _ h => by cases h
  | cancelQuery queryId =>
    rw [outline] at ho
    split_ifs at ho
    cases ho
    intro t ht
    obtain rfl := Option.some.inj ht
    exact emptyObject_says
  | retrieveText table embeddingColumn text k =>
    rw [outline] at ho
    split_ifs at ho
    cases ho
    intro t ht
    obtain rfl := Option.some.inj ht
    exact retrieveTextParts_says _ _ _ _
  | schema outBody => cases outBody <;> cases ho; exact fun _ h => by cases h
  | schemaFor table outBody => cases table <;> cases outBody <;> cases ho; exact fun _ h => by cases h

/-! ## Programs -/

/-- The calls of a program that ask for something, in their order, each with the settings it is
    made with. -/
def Settings.asking (lib : Libc) : Settings → List Step → List (Settings × Call)
  | _, [] => []
  | settings, .setTimeout timeoutSeconds :: steps =>
    (settings.setTimeout timeoutSeconds).asking lib steps
  | settings, .call call :: steps =>
    if (call.outline lib).isSome then (settings, call) :: settings.asking lib steps
    else settings.asking lib steps

/-- A request is the one for this call with these settings, and its body says what is written of
    the call. -/
structure Settings.Conveys (lib : Libc) (asked : Settings × Call) (req : Request) : Prop where
  request : ∃ o, asked.2.outline lib = some o ∧ req = asked.1.request o
  body : ∀ text ∈ req.body, ∃ ms w, TextOf (.obj ms w) text.bytes ∧ Says (asked.2.said lib) ms

/-- The request of the outline of a call conveys it. -/
theorem Settings.conveys (hlib : lib.PrintsDoubles) (settings : Settings) {call : Call}
    {o : Outline} (hcall : call.WellFormed lib) (ho : call.outline lib = some o) :
    Settings.Conveys lib (settings, call) (settings.request o) where
  request := ⟨o, ho, rfl⟩
  body := by
    intro text htext
    obtain ⟨t, ht, rfl⟩ := Option.map_eq_some_iff.1 htext
    obtain ⟨ms, w, hobj, hsays⟩ := Call.body_says hlib hcall ho t ht
    refine ⟨ms, w, ?_, hsays⟩
    -- An object has no NUL, so the text is all of it.
    rwa [Text.text, CStr.at_append_nul hobj.zero_notMem]

/-- What the server sees of a program conveys its calls, in their order. -/
theorem Wire.conveys (hlib : lib.PrintsDoubles) {steps : List Step} (w : Wire)
    (hcalls : ∀ call, .call call ∈ steps → call.WellFormed lib) :
    ∃ reqs, (runAll (Wire.step lib) steps w).sent = reqs.reverse ++ w.sent ∧
      List.Forall₂ (Settings.Conveys lib) (w.settings.asking lib steps) reqs := by
  induction steps generalizing w with
  | nil => exact ⟨[], rfl, .nil⟩
  | cons step steps ih =>
    obtain ⟨reqs, hsent, hreqs⟩ := ih (w.step lib step)
      fun call hmem => hcalls call (List.mem_cons_of_mem _ hmem)
    cases step with
    | setTimeout timeoutSeconds => exact ⟨reqs, hsent, hreqs⟩
    | call call =>
      rw [runAll, hsent, Settings.asking, Wire.step]
      cases ho : call.outline lib with
      | none => exact ⟨reqs, rfl, hreqs⟩
      | some o =>
        refine ⟨w.settings.request o :: reqs, by simp, .cons ?_ hreqs⟩
        exact w.settings.conveys hlib (hcalls call List.mem_cons_self) ho

variable {s : Session}

/-- If no allocation for a request is refused, and libcurl takes every request, a program of
    well-formed calls makes one request for each call that asks for something, in their order,
    with the settings there are then, and a body that says what is written of the call. -/
theorem run_says (hlib : lib.PrintsDoubles) {steps : List Step} (hs : s.Steady)
    (hfit : s.c.settings.FitsAll lib steps)
    (hcalls : ∀ call, .call call ∈ steps → call.WellFormed lib) :
    ∃ s' reqs, run (Session.next lib) steps s = some s' ∧
      s'.curl.sent = reqs.reverse ++ s.curl.sent ∧
      List.Forall₂ (Settings.Conveys lib) (s.c.settings.asking lib steps) reqs := by
  obtain ⟨s', hrun, hwire⟩ := run_sends hs hfit
  obtain ⟨reqs, hsent, hreqs⟩ := Wire.conveys hlib s.wire hcalls
  exact ⟨s', reqs, hrun, (congrArg Wire.sent hwire).trans hsent, hreqs⟩

/-- A program of one transaction. -/
theorem run_delete_says : ∃ s' reqs,
    run (Session.next .plain) [.setTimeout 5, .call (.delete (some (.lit "t")) 7)]
      (.connected fun _ => .of 200 []) = some s' ∧
    s'.curl.sent = reqs.reverse ++ (Session.connected fun _ => .of 200 []).curl.sent ∧
    List.Forall₂ (Settings.Conveys .plain)
      ((Session.connected fun _ => .of 200 []).c.settings.asking .plain
        [.setTimeout 5, .call (.delete (some (.lit "t")) 7)]) reqs := by
  refine run_says Libc.plain_printsDoubles (Session.connected_steady 200 []) ?_ ?_
  all_goals
    intro call hmem
    obtain rfl : call = .delete (some (.lit "t")) 7 := by
      rcases List.mem_cons.1 hmem with h | h
      · cases h
      · exact Step.call.inj (List.mem_singleton.1 h)
  · intro o ho
    obtain rfl := Option.some.inj ho
    have hurl : (urlOf (.lit "http://127.0.0.1:8453") (Text.whole (.lit "/kit/txn")).text).bytes.length <
        SIZE_MAX := by decide
    refine ⟨by decide, fun t ht => ?_, hurl, fun _ h => (by cases h), fun _ h => (by cases h)⟩
    obtain rfl := Option.some.inj ht
    decide
  · trivial

end MongrelDB
