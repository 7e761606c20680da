import MongrelDB.Lib.Bytes

/-!
# The data of the client

The types of the public interface: the codes its functions return, the values
it sends and receives, and the result of a query.

A pointer is told by what it points into. The strings of a result are kept in a
buffer that is moved as it grows, so a pointer taken early (`BlobPtr.early`)
dangles later on, and only one taken after the last growth (`BlobPtr.final`) may
be handed out. Likewise the rows of a result are an array that is moved as it
grows (`RowsPtr`), and the cells of a row are a part of one (`CellsPtr`).
-/

namespace MongrelDB

/-- The codes a function returns, `MDB_OK` and `MDB_ERR_*`. -/
inductive Code where
  | ok
  | auth
  | notFound
  | conflict
  | query
  | network
  | json
  | nomem
  | invalidArg
  | txnCommitted
  deriving DecidableEq, Repr

/-- `MONGRELDB_MAX_RESPONSE_BYTES`: a longer response is not decoded. -/
def MONGRELDB_MAX_RESPONSE_BYTES : Nat := 268435456

/-! ## Doubles -/

/-- A double, by its bits. -/
structure F64 where
  bits : UInt64
  deriving DecidableEq

/-- The conversions of the C library between doubles and text, in the C locale. -/
structure Libc where
  /-- `strtod(s, NULL)` -/
  strtod : Bytes → F64
  /-- `printf`'s `%.17g` -/
  printG : F64 → CStr

/-- Conversions that know no double but zero. -/
def Libc.zero : Libc := ⟨fun _ => ⟨0⟩, fun _ => .lit "0"⟩

/-- Neither an infinity nor a NaN: the exponent is not the largest one. -/
def F64.isFinite (d : F64) : Bool := (d.bits >>> 52) &&& 0x7ff != 0x7ff

/-! ## Arguments -/

/-- `mongreldb_value`, in an argument. A pointer may be NULL. -/
inductive InputValue where
  | null
  | bool (b : Int32)
  | int64 (i : Int64)
  | double (d : F64)
  | str (s : Option CStr)
  | json (s : Option CStr)
  /-- Of none of these tags. -/
  | other

/-- `mongreldb_input_cell` -/
structure InputCell where
  columnId : Int64
  value : InputValue

/-- `mongreldb_op_type` -/
inductive OpType where
  | put
  | upsert
  | delete
  | deleteByPk
  /-- None of these types. -/
  | other
  deriving DecidableEq

/-- `mongreldb_op`: the arrays of cells have the lengths of their counts, and
    `updateCells` may be NULL. -/
structure Op where
  type : OpType
  table : Option CStr
  cells : List InputCell
  updateCells : Option (List InputCell)
  rowId : Int64
  pkValue : InputValue

/-! ## Results -/

/-- A pointer into the buffer of the strings of a result. -/
inductive BlobPtr where
  /-- Taken while the buffer may still be moved. -/
  | early (off : Nat)
  /-- Taken after the last growth. -/
  | final (off : Nat)
  deriving DecidableEq

/-- `mongreldb_value`, in a result. -/
inductive Value where
  | null
  | bool (b : Bool)
  | int64 (i : Int64)
  | double (d : F64)
  | str (p : BlobPtr)
  | json (p : BlobPtr)
  deriving DecidableEq

/-- `mongreldb_cell` -/
structure Cell where
  columnId : Int64
  value : Value
  deriving DecidableEq

/-- A pointer to the cells of a row. -/
inductive CellsPtr where
  /-- Not assigned yet. -/
  | unset
  | null
  /-- To a slot of the array of cells. -/
  | «at» (i : Nat)
  deriving DecidableEq

/-- `mongreldb_row` -/
structure Row where
  cells : CellsPtr
  count : Nat
  deriving DecidableEq

/-- A pointer to the array of rows. -/
inductive RowsPtr where
  | null
  /-- To the allocation with room for `cap` rows. -/
  | array (cap : Nat)
  deriving DecidableEq

/-- `mongreldb_result` -/
structure PageResult where
  rows : RowsPtr
  count : Nat
  truncated : Bool
  deriving DecidableEq

end MongrelDB
