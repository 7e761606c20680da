import MongrelDB.Commit
import MongrelDB.Query
import MongrelDB.Schema
import MongrelDB.Status

/-!
# The public functions

The functions of the public interface that talk to the server, on a client that is
not NULL. Each of them looks at its arguments, makes one request, and decodes the
response; what it writes through its pointers is its value, and where a pointer may
not be NULL, a flag says whether there is one.

The names of tables and the ids of queries are a part of the path of a request
(`urlPathEncode`).
-/

namespace MongrelDB

open Ascii Prog

/-! ## Paths -/

/-- The digits of `%X`. -/
def upperHexDigit (d : Nat) : UInt8 := UInt8.ofNat (if d < 10 then 48 + d else 55 + d)

/-- A character that is kept in a path. -/
def isPathChar (c : UInt8) : Bool :=
  c == slash || (65 ≤ c && c ≤ 90) || (97 ≤ c && c ≤ 122) || isDigit c || c == minus || c == 95 ||
    c == dot || c == 126

/-- A character in a path. -/
def encodeChar (c : UInt8) : Bytes :=
  -- `%%%02X`
  if isPathChar c then [c] else [37, upperHexDigit (c.toNat / 16), upperHexDigit (c.toNat % 16)]

/-- `url_path_encode` -/
def urlPathEncode (seg : CStr) : Appends := seg.bytes.map encodeChar

/-- The path of `mongreldb_drop_table`. -/
def dropTablePath (name : CStr) : Appends := [ascii "/tables/"] ++ urlPathEncode name

/-- The path of `mongreldb_count`. -/
def countPath (table : CStr) : Appends :=
  [ascii "/tables/"] ++ urlPathEncode table ++ [ascii "/count"]

/-- The path of `mongreldb_schema_for`. -/
def schemaForPath (table : CStr) : Appends := [ascii "/kit/schema/"] ++ urlPathEncode table

/-- The path of `mongreldb_query_status_get`. -/
def queryStatusPath (queryId : CStr) : Appends := [ascii "/queries/"] ++ urlPathEncode queryId

/-- The path of `mongreldb_cancel_query`. -/
def cancelQueryPath (queryId : CStr) : Appends :=
  [ascii "/queries/"] ++ urlPathEncode queryId ++ [ascii "/cancel"]

/-! ## Health and tables -/

/-- `mongreldb_health` -/
def mongreldbHealth : Api Unit := cGet (some (.lit "/health"))

/-- The names of the tables are decoded, and handed over. -/
def takeNames : Api NamesResult := do
  let s ← get
  let (rc, out, names, decode) ← lift (decodeNames s.c.recv.data s.c.names s.heaps.decode)
  modify fun s => { s with c := { s.c with names := names },
                           heaps := { s.heaps with decode := decode } }
  if rc ≠ .ok then ret rc
  return out

/-- `mongreldb_table_names` -/
def mongreldbTableNames (outNames outCount : Bool) : Api NamesResult := do
  if !outNames || !outCount then ret .invalidArg
  cGet (some (.lit "/tables"))
  takeNames

/-- `mongreldb_create_table_with_schema_json`: what is written to `*out_table_id`, if
    that is not NULL. -/
def mongreldbCreateTableWithSchemaJson (lib : Libc) (name : Option CStr)
    (columns : Option (List Column))
    (constraintsJson : Option CStr) (indexes : Option (List Index)) : Api Int64 := do
  let some name := name | ret .invalidArg
  let some columns := columns | ret .invalidArg
  let body ← bodyAppends (jsonSerializeCreateTableWithIndexes name columns constraintsJson indexes)
  cPost (some (.lit "/kit/create_table")) body
  let (_, _, tableId) ← lift (jsonGetNumber lib (← get).c.recv.data (.lit "table_id"))
  return tableId

/-- `mongreldb_create_table_with_constraints_json` -/
def mongreldbCreateTableWithConstraintsJson (lib : Libc) (name : Option CStr)
    (columns : Option (List Column)) (constraintsJson : Option CStr) : Api Int64 :=
  mongreldbCreateTableWithSchemaJson lib name columns constraintsJson none

/-- `mongreldb_create_table` -/
def mongreldbCreateTable (lib : Libc) (name : Option CStr) (columns : Option (List Column)) :
    Api Int64 :=
  mongreldbCreateTableWithConstraintsJson lib name columns none

/-- `mongreldb_drop_table` -/
def mongreldbDropTable (name : Option CStr) : Api Unit := do
  let some name := name | ret .invalidArg
  let path ← bodyAppends (dropTablePath name)
  cDelete path

/-- `mongreldb_count`: what is written to `*out_count`. -/
def mongreldbCount (lib : Libc) (table : Option CStr) (outCount : Bool) : Api Int64 := do
  let some table := table | ret .invalidArg
  if !outCount then ret .invalidArg
  let path ← bodyAppends (countPath table)
  cGet path
  let (_, _, n) ← lift (jsonGetNumber lib (← get).c.recv.data (.lit "count"))
  return n

/-! ## History retention -/

/-- `decode_history_retention`: what is written to `*out`, if that is not NULL. -/
def takeRetention (lib : Libc) : Api HistoryRetention := do
  let (rc, out) ← lift (historyRetentionDecodeJson lib (← get).c.recv.data)
  match out with
  | some out => return out
  | none => ret rc

/-- `mongreldb_history_retention_get` -/
def mongreldbHistoryRetentionGet (lib : Libc) : Api HistoryRetention := do
  cGet (some (.lit "/history/retention"))
  takeRetention lib

/-- `mongreldb_history_retention_set` -/
def mongreldbHistoryRetentionSet (lib : Libc) (epochs : UInt64) : Api HistoryRetention := do
  let some body := historyRetentionSetBody epochs 96 | ret .nomem
  cPut (some (.lit "/history/retention")) (some (CStr.at (body ++ [0])))
  takeRetention lib

/-! ## SQL and schema -/

/-- The response, as a string. -/
def Client.response (c : Client) : CStr := c.recv.cstr?.getD (.lit "")

/-- The response is handed over as it is. -/
def takeResponse : Api CStr := do
  return (← get).c.response

/-- The body of `mongreldb_sql`. -/
def sqlAppends (sql : CStr) : Appends :=
  [ascii "\x7b\"sql\":"] ++ jsonEscape sql ++ [ascii ",\"format\":\"json\"\x7d"]

/-- `mongreldb_sql`: what is written to `*out_body`, if that is not NULL. -/
def mongreldbSql (sql : Option CStr) : Api CStr := do
  let some sql := sql | ret .invalidArg
  let body ← bodyAppends (sqlAppends sql)
  cPost (some (.lit "/sql")) body
  takeResponse

/-- `mongreldb_schema` -/
def mongreldbSchema (outBody : Bool) : Api CStr := do
  if !outBody then ret .invalidArg
  cGet (some (.lit "/kit/schema"))
  takeResponse

/-- `mongreldb_schema_for` -/
def mongreldbSchemaFor (table : Option CStr) (outBody : Bool) : Api CStr := do
  let some table := table | ret .invalidArg
  if !outBody then ret .invalidArg
  let path ← bodyAppends (schemaForPath table)
  cGet path
  takeResponse

/-! ## Queries -/

/-- A status is decoded, and handed over. -/
def takeStatus (lib : Libc) : Api QueryStatus := do
  let s ← get
  let (rc, out, blob, decode) ←
    lift (queryStatusDecodeJson lib (some s.c.recv.data) s.c.scratch.valuesBlob s.heaps.decode)
  modify fun s => { s with c := { s.c with scratch := { s.c.scratch with valuesBlob := blob } },
                           heaps := { s.heaps with decode := decode } }
  if rc ≠ .ok then ret rc
  return out

/-- `mongreldb_query_status_get` -/
def mongreldbQueryStatusGet (lib : Libc) (queryId : Option CStr) (out : Bool) :
    Api QueryStatus := do
  if !isGiven queryId then fail .invalidArg "mongreldb: query_id is required"
  if !out then ret .invalidArg
  let path ← bodyAppends (queryStatusPath (orEmpty queryId))
  cGet path
  takeStatus lib

/-- `mongreldb_cancel_query`: what is written to `*out_body`, if that is not NULL. -/
def mongreldbCancelQuery (queryId : Option CStr) : Api CStr := do
  if !isGiven queryId then fail .invalidArg "mongreldb: query_id is required"
  let path ← bodyAppends (cancelQueryPath (orEmpty queryId))
  cPost path (some (.lit "\x7b\x7d"))
  takeResponse

/-! ## Retrieval -/

/-- Pieces appended to the body of a request, where the last one is looked at: the
    body, if that one is there. -/
def checkedAppends (buf : Sbuf) (ps : Appends) (p : Bytes) : Api (Option Sbuf) := do
  let (buf, body) := buf.appendAll (← get).heaps.body ps
  let (ok, buf, body) := buf.append p body
  modify fun s => { s with heaps := { s.heaps with body := body } }
  return if ok then some buf else none

/-- `retrieve_text_build_body`: the body, if no append that is looked at fails. -/
def retrieveTextBuildBody (table : CStr) (embeddingColumn : Int64) (text : CStr) (k : Int64) :
    Api (Option Sbuf) := do
  let some buf ← checkedAppends Sbuf.empty [] (ascii "\x7b\"table\":") | return none
  let some buf ← checkedAppends buf (jsonEscape table)
    (snprintf 64 (ascii ",\"embedding_column\":" ++
    (intText embeddingColumn.toInt ++ ascii ",\"text\":"))) | return none
  let number := snprintf 64 (ascii ",\"k\":" ++ intText k.toInt)
  if 0 < k then
    let some buf ← checkedAppends buf (jsonEscape text) number | return none
    checkedAppends buf [] [rbrace]
  else
    checkedAppends buf (jsonEscape text) [rbrace]

/-- `mongreldb_retrieve_text`: what is written to `*out_body`, if that is not NULL. -/
def mongreldbRetrieveText (table : Option CStr) (embeddingColumn : Int64) (text : Option CStr)
    (k : Int64) : Api CStr := do
  if !isGiven table || !isGiven text then fail .invalidArg "mongreldb: table and text are required"
  let some body ← retrieveTextBuildBody (orEmpty table) embeddingColumn (orEmpty text) k
    | fail .nomem "out of memory"
  cPost (some (.lit "/kit/retrieve_text")) body.cstr?
  takeResponse

end MongrelDB
