import MongrelDB.Client

/-!
# Commits

`mongreldb_commit` sends a list of operations as one transaction, and the functions
for single operations send a list of one. The body is built piece by piece, so that
the pieces are there when an operation of an unknown type is met.
-/

namespace MongrelDB

open Ascii Prog

/-- The beginning of an operation: its name, and its table. -/
def opHead (name : String) (op : Op) : Appends :=
  [ascii name, ascii "\"table\":"] ++ jsonEscape (orEmpty op.table)

/-- The values applied on a conflict, if there are any. -/
def updateCellsAppends (lib : Libc) : Option (List InputCell) → Appends
  | none | some [] => []
  | some (cell :: cells) => [ascii ",\"update_cells\":"] ++ jsonSerializeCells lib (cell :: cells)

/-- The pieces of an operation, between its braces; nothing, for an unknown type. -/
def opAppends (lib : Libc) (op : Op) : Option Appends :=
  match op.type with
  | .put =>
    some (opHead "\"put\":\x7b" op ++ [ascii ",\"cells\":"] ++ jsonSerializeCells lib op.cells ++
      [ascii ",\"returning\":false\x7d"])
  | .upsert => some (opHead "\"upsert\":\x7b" op ++ [ascii ",\"cells\":"] ++
      jsonSerializeCells lib op.cells ++ updateCellsAppends lib op.updateCells ++
      [ascii ",\"returning\":false\x7d"])
  | .delete =>
    some (opHead "\"delete\":\x7b" op ++ [ascii ",\"row_id\":", int64Text op.rowId, [rbrace]])
  | .deleteByPk => some (opHead "\"delete_by_pk\":\x7b" op ++ [ascii ",\"pk\":"] ++
      jsonSerializeValue lib op.pkValue ++ [[rbrace]])
  | .other => none

/-- The loop over the operations, behind the pieces `sep`: what is appended up to the
    first one of an unknown type, and whether there is none. -/
def opsAppends (lib : Libc) : Appends → List Op → Appends × Bool
  | _, [] => ([], true)
  | sep, op :: ops =>
    match opAppends lib op with
    | none => (sep ++ [[lbrace]], false)
    | some ps =>
      let (rest, known) := opsAppends lib [[comma]] ops
      (sep ++ [[lbrace]] ++ ps ++ [[rbrace]] ++ rest, known)

/-- The idempotency key, if there is one. -/
def idempotencyAppends : Option CStr → Appends
  | none => []
  | some key => if key.bytes.isEmpty then [] else [ascii ",\"idempotency_key\":"] ++ jsonEscape key

/-- The body of a commit. -/
def commitAppends (lib : Libc) (ops : List Op) (idempotencyKey : Option CStr) : Appends :=
  [ascii "\x7b\"ops\":["] ++ (opsAppends lib [] ops).1 ++ [[rbrack]] ++
    idempotencyAppends idempotencyKey ++ [[rbrace]]

/-- `mongreldb_commit`: the operations are NULL only with a positive count. -/
def mongreldbCommit (lib : Libc) (ops : Option (List Op)) (idempotencyKey : Option CStr) :
    Api Unit := do
  let some ops := ops | ret .invalidArg
  if !ops.isEmpty then
    if (opsAppends lib [] ops).2 then
      let body ← bodyAppends (commitAppends lib ops idempotencyKey)
      cPost (some (.lit "/kit/txn")) body
    else
      -- What is appended so far is freed.
      let _ ← bodyAppends ([ascii "\x7b\"ops\":["] ++ (opsAppends lib [] ops).1)
      fail .invalidArg "unknown op type"

/-! ## Single operations -/

/-- `commit_one` -/
def commitOne (lib : Libc) (op : Op) (idempotencyKey : Option CStr) : Api Unit :=
  mongreldbCommit lib (some [op]) idempotencyKey

/-- An operation on a table, with nothing else. -/
def Op.on (type : OpType) (table : CStr) : Op where
  type := type
  table := some table
  cells := []
  updateCells := none
  rowId := 0
  pkValue := .null

/-- `mongreldb_put`: the cells are NULL only with a positive count. -/
def mongreldbPut (lib : Libc) (table : Option CStr) (cells : Option (List InputCell))
    (idempotencyKey : Option CStr) : Api Unit :=
  match table, cells with
  | some table, some cells => commitOne lib { Op.on .put table with cells := cells } idempotencyKey
  | _, _ => ret .invalidArg

/-- `mongreldb_upsert` -/
def mongreldbUpsert (lib : Libc) (table : Option CStr) (cells : Option (List InputCell))
    (updateCells : Option (List InputCell)) (idempotencyKey : Option CStr) : Api Unit :=
  match table, cells with
  | some table, some cells =>
    commitOne lib { Op.on .upsert table with cells := cells, updateCells := updateCells }
      idempotencyKey
  | _, _ => ret .invalidArg

/-- `mongreldb_delete` -/
def mongreldbDelete (lib : Libc) (table : Option CStr) (rowId : Int64) : Api Unit :=
  match table with
  | some table => commitOne lib { Op.on .delete table with rowId := rowId } none
  | none => ret .invalidArg

/-- `mongreldb_delete_by_pk` -/
def mongreldbDeleteByPk (lib : Libc) (table : Option CStr) (pk : Option InputValue) : Api Unit :=
  match table, pk with
  | some table, some pk => commitOne lib { Op.on .deleteByPk table with pkValue := pk } none
  | _, _ => ret .invalidArg

end MongrelDB
