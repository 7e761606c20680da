import MongrelDB.Client

/-!
# Queries

`mongreldb_query_page` sends conditions on the rows of a table, and decodes the rows
of the response into the buffers of the client (`decodePage`). A condition is typed,
or given as JSON, which is then sent as it is.
-/

namespace MongrelDB

open Ascii Prog

/-- `mongreldb_condition_kind` -/
inductive CondKind where
  | pk
  | bitmapEq
  | range
  | fmContains
  | isNull
  | isNotNull
  /-- None of these kinds. -/
  | other
  deriving DecidableEq

/-- `mongreldb_condition` -/
structure Condition where
  kind : CondKind
  columnId : Int64
  lo : F64
  hi : F64
  loSet : Int32
  hiSet : Int32
  loInclusive : Int32
  hiInclusive : Int32
  strValue : Option CStr
  intValue : Int64
  conditionJson : Option CStr

/-! ## The body -/

/-- The beginning of a condition on a column. -/
def columnAppends (name : String) (columnId : Int64) : Appends :=
  [ascii name, ascii "\"column_id\":", int64Text columnId]

/-- A bound of a range, if it is set. -/
def boundAppends (lib : Libc) (name : String) (set : Int32) (x : F64) : Appends :=
  if set ≠ 0 then [snprintf 64 (ascii name ++ (lib.printG x).bytes)] else []

/-- `serialize_condition` -/
def serializeCondition (lib : Libc) (cond : Condition) : Appends :=
  if isGiven cond.conditionJson then [(orEmpty cond.conditionJson).bytes]
  else [lbrace] :: (match cond.kind with
    | .pk => [ascii "\"pk\":\x7b", ascii "\"value\":"] ++ (match cond.strValue with
      | some s => jsonEscape s
      | none => [int64Text cond.intValue]) ++ [[rbrace]]
    | .bitmapEq => columnAppends "\"bitmap_eq\":\x7b" cond.columnId ++ [ascii ",\"value\":"] ++
        jsonEscape (orEmpty cond.strValue) ++ [[rbrace]]
    | .range => columnAppends "\"range\":\x7b" cond.columnId ++
        boundAppends lib ",\"lo\":" cond.loSet cond.lo ++
        boundAppends lib ",\"hi\":" cond.hiSet cond.hi ++ [[rbrace]]
    | .fmContains =>
      columnAppends "\"fm_contains\":\x7b" cond.columnId ++ [ascii ",\"pattern\":"] ++
        jsonEscape (orEmpty cond.strValue) ++ [[rbrace]]
    | .isNull => columnAppends "\"is_null\":\x7b" cond.columnId ++ [[rbrace]]
    | .isNotNull => columnAppends "\"is_not_null\":\x7b" cond.columnId ++ [[rbrace]]
    | .other => [ascii "\"pk\":\x7b\"value\":null\x7d"]) ++ [[rbrace]]

/-- An array behind a key, if it is not empty. -/
def arrayAppends {α : Type} (name : String) (f : α → Appends) (xs : List α) : Appends :=
  if xs.isEmpty then [] else [ascii name] ++ separated f xs ++ [[rbrack]]

/-- The body of a query. -/
def queryAppends (lib : Libc) (table : CStr) (conditions : List Condition) (projection : List Int64)
    (limit offset : Int64) : Appends :=
  [ascii "\x7b\"table\":"] ++ jsonEscape table ++
    arrayAppends ",\"conditions\":[" (serializeCondition lib) conditions ++
    arrayAppends ",\"projection\":[" (fun i => [int64Text i]) projection ++
    (if 0 < limit then [ascii ",\"limit\":", int64Text limit] else []) ++
    (if offset ≠ 0 then [ascii ",\"offset\":", int64Text offset] else []) ++ [[rbrace]]

/-! ## The query -/

/-- The response of a query is decoded, and the result handed over. -/
def takePage (lib : Libc) : Api PageResult := do
  let s ← get
  let (rc, out, scratch, decode) ← lift (decodePage lib s.c.recv.data s.c.scratch s.heaps.decode)
  modify fun s => { s with c := { s.c with scratch := scratch },
                           heaps := { s.heaps with decode := decode } }
  if rc ≠ .ok then ret rc
  return out

/-- `mongreldb_query_page`: an array that is NULL is empty, and there is a place for
    the result, or it is NULL. -/
def mongreldbQueryPage (lib : Libc) (table : Option CStr) (conditions : List Condition)
    (projection : List Int64) (limit offset : Int64) (outResult : Bool) : Api PageResult := do
  let some table := table | ret .invalidArg
  if !outResult then ret .invalidArg
  let body ← bodyAppends (queryAppends lib table conditions projection limit offset)
  cPost (some (.lit "/kit/query")) body
  takePage lib

/-- `mongreldb_query` -/
def mongreldbQuery (lib : Libc) (table : Option CStr) (conditions : List Condition)
    (projection : List Int64) (limit : Int64) (outResult : Bool) : Api PageResult :=
  mongreldbQueryPage lib table conditions projection limit 0 outResult

end MongrelDB
