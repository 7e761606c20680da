import MongrelDB.Lib.Prog
import MongrelDB.Lookup
import MongrelDB.Serialize

/-!
# The status of a query, and the retention of the history

`query_status_decode_json`: the response to `GET /queries/{id}` is read field by
field, each with a lookup of its own. A field that may be missing comes with a
flag that says whether it was there (`Flagged`). The strings are kept in a
buffer, by their offsets while it is filled, and by pointers once it is stable.

The same fields tell what a query has committed (`CommitFields`) at the top level
and in the nested objects `outcome` and `durable` (`DurableOutcome`).

`history_retention_decode_json`: the response of `/history/retention`, the number of epochs
kept, and the earliest one, is read in the same way.
-/

namespace MongrelDB

/-! ## Data -/

/-- A field and its `*_set` flag. -/
structure Flagged (α : Type) where
  value : α
  set : Bool
  deriving DecidableEq

/-- `mongreldb_commit_hlc` -/
structure CommitHlc where
  physicalMicros : UInt64
  logical : UInt32
  nodeTiebreaker : UInt32
  present : Bool
  deriving DecidableEq

/-- A zeroed clock. -/
def CommitHlc.zero : CommitHlc := ⟨0, 0, 0, false⟩

/-- The fields that tell what was committed, with strings `σ`. -/
structure CommitFields (σ : Type) where
  committed : Flagged Bool
  committedStatements : Flagged Int64
  lastCommitEpoch : Flagged UInt64
  lastCommitEpochText : σ
  lastCommitHlc : CommitHlc
  firstCommitStatementIndex : Flagged Int64
  lastCommitStatementIndex : Flagged Int64
  completedStatements : Flagged Int64
  statementIndex : Flagged Int64

/-- `mongreldb_durable_outcome`, and `durable_outcome_offs` where the strings are
    offsets. -/
structure DurableOutcome (σ : Type) extends CommitFields σ where
  serialization : σ
  serializationState : σ
  terminalState : σ

/-- `mongreldb_query_status` -/
structure QueryStatus extends CommitFields (Option CStr) where
  queryId : Option CStr
  status : Option CStr
  state : Option CStr
  serverState : Option CStr
  terminalState : Option CStr
  cancelOutcome : Option CStr
  cancellationReason : Option CStr
  retryable : Flagged Bool
  outcome : DurableOutcome (Option CStr)
  durable : DurableOutcome (Option CStr)
  durableSet : Bool

/-- Zeroed fields, without strings. -/
def CommitFields.zero {σ : Type} : CommitFields (Option σ) where
  committed := ⟨false, false⟩
  committedStatements := ⟨0, false⟩
  lastCommitEpoch := ⟨0, false⟩
  lastCommitEpochText := none
  lastCommitHlc := .zero
  firstCommitStatementIndex := ⟨0, false⟩
  lastCommitStatementIndex := ⟨0, false⟩
  completedStatements := ⟨0, false⟩
  statementIndex := ⟨0, false⟩

/-- A zeroed outcome, without strings. -/
def DurableOutcome.zero {σ : Type} : DurableOutcome (Option σ) where
  toCommitFields := .zero
  serialization := none
  serializationState := none
  terminalState := none

/-- A zeroed status. -/
def QueryStatus.zero : QueryStatus where
  toCommitFields := .zero
  queryId := none
  status := none
  state := none
  serverState := none
  terminalState := none
  cancelOutcome := none
  cancellationReason := none
  retryable := ⟨false, false⟩
  outcome := .zero
  durable := .zero
  durableSet := false

/-! ## Strings -/

/-- The buffer of the strings, and the heap. -/
structure BlobState where
  blob : Sbuf
  heap : Heap

/-- A part of the decoding. -/
abbrev DecodeStatus := Prog Fault BlobState Code

open Prog

/-- `sbuf_append` to the buffer of the strings. -/
def appendBlob (p : Bytes) : DecodeStatus Bool := do
  let s ← get
  let (ok, blob, heap) := s.blob.append p s.heap
  modify fun _ => ⟨blob, heap⟩
  return ok

/-- `json_copy_string_field_off`: the offset, if it is not `SIZE_MAX`. -/
def jsonCopyStringFieldOff (json : Bytes) (key : CStr) : DecodeStatus (Option Nat) := do
  let s ← get
  let (found, tmp, heap) ← lift (jsonGetString json key s.heap)
  modify ({ · with heap := heap })
  match found, tmp with
  | true, some tmp =>
    let off := s.blob.len
    if !(← appendBlob tmp.bytes) then return none
    if !(← appendBlob [0]) then return none
    return some off
  | _, _ => return none

/-- `blob_str_at` -/
def blobStrAt (blob : Sbuf) (off : Option Nat) : Option CStr :=
  match off with
  | none => none
  | some off =>
    if blob.cap = 0 || off ≥ blob.len then none else some (CStr.at (blob.data.drop off))

/-! ## Fields -/

/-- A boolean, and whether `json_get_bool` has found it. -/
def flagBool (json : Bytes) (key : CStr) : DecodeStatus (Flagged Bool) := do
  let (found, b) ← lift (jsonGetBool json key)
  return if found then ⟨b, true⟩ else ⟨false, false⟩

/-- A number, converted by `conv`, and whether `json_get_number` has found it. -/
def flagNumber {α : Type} [OfNat α 0] (lib : Libc) (conv : Int64 → α) (json : Bytes) (key : CStr) :
    DecodeStatus (Flagged α) := do
  let (found, _, n) ← lift (jsonGetNumber lib json key)
  return if found then ⟨conv n, true⟩ else ⟨0, false⟩

/-- `parse_commit_hlc` -/
def parseCommitHlc (lib : Libc) (json : Bytes) : DecodeStatus CommitHlc := do
  let (found, _, phys) ← lift (jsonGetNumber lib json (.lit "physical_micros"))
  if !found then return .zero
  let (_, _, logical) ← lift (jsonGetNumber lib json (.lit "logical"))
  let (_, _, tie) ← lift (jsonGetNumber lib json (.lit "node_tiebreaker"))
  return ⟨phys.toUInt64, logical.toUInt64.toUInt32, tie.toUInt64.toUInt32, true⟩

/-- The clock in the object `last_commit_hlc`. -/
def parseLastCommitHlc (lib : Libc) (json : Bytes) : DecodeStatus CommitHlc := do
  let (found, hlcRaw) ← lift (jsonGetObjectRaw json (.lit "last_commit_hlc"))
  -- Without an object, the span found is NULL, of length zero.
  if found then parseCommitHlc lib (hlcRaw.getD []) else return .zero

/-- The part of `parse_durable_outcome_offs` and of `query_status_decode_json` that
    reads the fields both have. -/
def parseCommitFields (lib : Libc) (json : Bytes) : DecodeStatus (CommitFields (Option Nat)) := do
  let committed ← flagBool json (.lit "committed")
  let committedStatements ← flagNumber lib id json (.lit "committed_statements")
  let lastCommitEpoch ← flagNumber lib Int64.toUInt64 json (.lit "last_commit_epoch")
  let lastCommitEpochText ← jsonCopyStringFieldOff json (.lit "last_commit_epoch_text")
  let lastCommitHlc ← parseLastCommitHlc lib json
  let firstCommitStatementIndex ← flagNumber lib id json (.lit "first_commit_statement_index")
  let lastCommitStatementIndex ← flagNumber lib id json (.lit "last_commit_statement_index")
  let completedStatements ← flagNumber lib id json (.lit "completed_statements")
  let statementIndex ← flagNumber lib id json (.lit "statement_index")
  return { committed, committedStatements, lastCommitEpoch, lastCommitEpochText, lastCommitHlc,
           firstCommitStatementIndex, lastCommitStatementIndex, completedStatements,
           statementIndex }

/-- `parse_durable_outcome_offs` -/
def parseDurableOutcomeOffs (lib : Libc) (json : Option Bytes) :
    DecodeStatus (DurableOutcome (Option Nat)) :=
  match json with
  | none | some [] => return .zero
  | some json => do
    let fields ← parseCommitFields lib json
    let serialization ← jsonCopyStringFieldOff json (.lit "serialization")
    let serializationState ← jsonCopyStringFieldOff json (.lit "serialization_state")
    let terminalState ← jsonCopyStringFieldOff json (.lit "terminal_state")
    return { toCommitFields := fields, serialization, serializationState, terminalState }

/-- The outcome in the object `key`, and whether `json_get_object_raw` has found it. -/
def parseNested (lib : Libc) (json : Bytes) (key : CStr) :
    DecodeStatus (Flagged (DurableOutcome (Option Nat))) := do
  let (found, obj) ← lift (jsonGetObjectRaw json key)
  if found then
    return ⟨← parseDurableOutcomeOffs lib obj, true⟩
  else
    return ⟨.zero, false⟩

/-- The strings of the fields, where they are. -/
def CommitFields.resolve (blob : Sbuf) (f : CommitFields (Option Nat)) :
    CommitFields (Option CStr) :=
  { f with lastCommitEpochText := blobStrAt blob f.lastCommitEpochText }

/-- `durable_outcome_resolve` -/
def durableOutcomeResolve (blob : Sbuf) (tmp : DurableOutcome (Option Nat)) :
    DurableOutcome (Option CStr) where
  toCommitFields := tmp.toCommitFields.resolve blob
  serialization := blobStrAt blob tmp.serialization
  serializationState := blobStrAt blob tmp.serializationState
  terminalState := blobStrAt blob tmp.terminalState

/-! ## The status -/

/-- The body of `query_status_decode_json`, behind the check of its arguments. -/
def queryStatusBody (lib : Libc) (json : Bytes) : DecodeStatus QueryStatus := do
  modify ({ · with blob := Sbuf.empty })
  let queryId ← jsonCopyStringFieldOff json (.lit "query_id")
  let status ← jsonCopyStringFieldOff json (.lit "status")
  let state ← jsonCopyStringFieldOff json (.lit "state")
  let serverState ← jsonCopyStringFieldOff json (.lit "server_state")
  let terminalState ← jsonCopyStringFieldOff json (.lit "terminal_state")
  let fields ← parseCommitFields lib json
  let cancelOutcome ← jsonCopyStringFieldOff json (.lit "cancel_outcome")
  let cancellationReason ← jsonCopyStringFieldOff json (.lit "cancellation_reason")
  let retryable ← flagBool json (.lit "retryable")
  let outcome ← parseNested lib json (.lit "outcome")
  let durable ← parseNested lib json (.lit "durable")
  -- The buffer is stable from here on.
  let { blob, .. } ← get
  return {
    toCommitFields := fields.resolve blob
    queryId := blobStrAt blob queryId
    status := blobStrAt blob status
    state := blobStrAt blob state
    serverState := (blobStrAt blob serverState).or (blobStrAt blob state)
    terminalState := blobStrAt blob terminalState
    cancelOutcome := blobStrAt blob cancelOutcome
    cancellationReason := blobStrAt blob cancellationReason
    retryable
    outcome := durableOutcomeResolve blob outcome.value
    durable := durableOutcomeResolve blob durable.value
    durableSet := durable.set }

/-- `query_status_decode_json` of a body that may be NULL: what it returns, the
    status, and what it leaves in the buffer of the strings. -/
def queryStatusDecodeJson (lib : Libc) (json : Option Bytes) (blob : Sbuf) (h : Heap) :
    Run (Code × QueryStatus × Sbuf × Heap) :=
  match json with
  | none => .ok (.invalidArg, .zero, blob, h)
  | some json =>
    match queryStatusBody lib json ⟨blob, h⟩ with
    | .val out s => .ok (.ok, out, s.blob, s.heap)
    | .ret e s => .ok (e, .zero, s.blob, s.heap)
    | .fault f => .error f

/-! ## The clock -/

/-- Where a clock of a status is: the pointers `mongreldb_query_status_commit_hlc` returns. -/
inductive HlcPlace where
  | durable
  | outcome
  | top
  deriving DecidableEq

/-- The clock at this place. -/
def QueryStatus.hlcAt (status : QueryStatus) : HlcPlace → CommitHlc
  | .durable => status.durable.lastCommitHlc
  | .outcome => status.outcome.lastCommitHlc
  | .top => status.lastCommitHlc

/-- `mongreldb_query_status_commit_hlc` -/
def queryStatusCommitHlc (status : Option QueryStatus) : Option HlcPlace :=
  match status with
  | none => none
  | some status =>
    if status.durableSet && status.durable.lastCommitHlc.present then some .durable
    else if status.outcome.lastCommitHlc.present then some .outcome
    else if status.lastCommitHlc.present then some .top
    else none

/-! ## The serialization state -/

/-- `mongreldb_query_status_serialization_state` -/
def queryStatusSerializationState (status : Option QueryStatus) : CStr :=
  match status with
  | none => .lit ""
  | some status =>
    if status.durableSet && isGiven status.durable.serializationState then
      orEmpty status.durable.serializationState
    else if status.durableSet && isGiven status.durable.serialization then
      orEmpty status.durable.serialization
    else if isGiven status.outcome.serializationState then orEmpty status.outcome.serializationState
    else if isGiven status.outcome.serialization then orEmpty status.outcome.serialization
    else .lit ""

/-! ## History retention -/

/-- `mongreldb_history_retention` -/
structure HistoryRetention where
  historyRetentionEpochs : UInt64
  earliestRetainedEpoch : UInt64
  deriving DecidableEq

/-- `history_retention_set_body`, into a buffer of `outSize` bytes: nothing if it is too small. -/
def historyRetentionSetBody (epochs : UInt64) (outSize : Nat) : Option Bytes :=
  let text := ascii "\x7b\"history_retention_epochs\":" ++ (natText epochs.toNat ++ [Ascii.rbrace])
  if text.length ≥ outSize then none else some text

/-- `history_retention_decode_json`: what it returns, and what it writes. -/
def historyRetentionDecodeJson (lib : Libc) (json : Bytes) :
    Run (Code × Option HistoryRetention) := do
  let (found, _, epochs) ← jsonGetNumber lib json (.lit "history_retention_epochs")
  if !found then return (.query, none)
  let (found, _, earliest) ← jsonGetNumber lib json (.lit "earliest_retained_epoch")
  if !found then return (.query, none)
  return (.ok, some ⟨epochs.toUInt64, earliest.toUInt64⟩)

end MongrelDB
