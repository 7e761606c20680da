import MongrelDB.Alloc
import MongrelDB.Lib.Prog

/-!
# Decoding the names of the tables

The second half of `mongreldb_table_names`: the response, an array of strings, is
walked over, and each string is appended to a buffer. As that buffer moves while
it grows, the array of names holds offsets into it at first, and pointers only
after the last name.

The function is a program on the client's buffers, the caller's result and the
heap; its cursor is a local variable.
-/

namespace MongrelDB

open Ascii Prog

/-! ## The state -/

/-- A slot of the array of names. -/
inductive NameSlot where
  /-- An offset, kept in the place of a pointer. -/
  | offset (off : Nat)
  /-- A pointer to the name at an offset, taken after the last growth. -/
  | ptr (off : Nat)
  | null
  deriving DecidableEq

/-- The buffers of the client for the names of the tables. -/
structure NamesScratch where
  namesArr : Block NameSlot
  namesCap : Nat
  namesBlob : Sbuf

/-- The buffers after everything in them is freed. -/
def NamesScratch.freed : NamesScratch where
  namesArr := []
  namesCap := 0
  namesBlob := Sbuf.empty

/-- A pointer to the array of names. -/
inductive NamesPtr where
  | null
  | array
  deriving DecidableEq

/-- The caller's result: `*out_names` and `*out_count`. -/
structure NamesResult where
  names : NamesPtr
  count : Nat
  deriving DecidableEq

/-- The state of the decoding. -/
structure NamesState where
  c : NamesScratch
  out : NamesResult
  heap : Heap

/-- A part of `mongreldb_table_names`, which may return a code. -/
abbrev Naming := Prog Fault NamesState Code

/-! ## Names -/

/-- `sbuf_append` of `bytes` to the buffer of names. -/
def appendName (bytes : Bytes) : Naming Unit := do
  let s ← get
  let (appended, blob, h) := s.c.namesBlob.append bytes s.heap
  modify fun s => { s with c := { s.c with namesBlob := blob }, heap := h }
  if !appended then ret .nomem

/-- A `malloc` or `realloc` of the array of names, to `ncap` slots. -/
def reallocNames (ncap : Nat) : Naming Unit := do
  modify fun s => { s with c := { s.c with namesCap := ncap } }
  let (granted, h) := (← get).heap.request (ncap * 8)
  modify fun s => { s with heap := h }
  if !granted then ret .nomem
  modify fun s => { s with c := { s.c with namesArr := s.c.namesArr.realloc ncap } }

/-- The array of names grows for one more. -/
def growNames : Naming Unit := do
  let s ← get
  if s.c.namesCap = 0 then
    reallocNames 8
  else if s.out.count = s.c.namesCap then
    reallocNames (s.c.namesCap * 2)

/-- `c->names_arr[i] = slot` -/
def storeName (i : Nat) (slot : NameSlot) : Naming Unit := do
  let b ← lift (store (← get).c.namesArr i slot)
  modify fun s => { s with c := { s.c with namesArr := b } }

/-- A name is appended to the buffer, and its offset stored. -/
def recordName (name : Bytes) : Naming Unit := do
  let base := (← get).c.namesBlob.len
  appendName name
  appendName [0]
  growNames
  let count := (← get).out.count
  storeName count (.offset base)
  modify fun s => { s with out := { s.out with count := count + 1 } }

/-- A string of the array, recorded as it is written: the cursor behind it. -/
def readName (j : JsonParser) : Naming JsonParser := do
  let (ch, j) := jpPeek j
  if ch ≠ some quote then ret .json
  let start ← lift (ptrSucc j.p)
  let j ← lift (jpString j)
  if !j.ok then ret .json
  let len ← lift (toSize (ptrDiff j.p start - 1))
  recordName (← lift (slice start len))
  return j

/-- The loop over the names, up to the closing bracket: the cursor behind it. -/
def namesLoop : Nat → JsonParser → Naming JsonParser
  | 0, _ => fault .fuel
  | n + 1, j => do
    let j ← readName j
    let (ch, j) := jpPeek j
    if ch = some comma then
      namesLoop n (← lift j.bump)
    else if ch = some rbrack then
      lift j.bump
    else
      ret .json

/-! ## Pointers -/

/-- The loop that resolves the pointers of the first `n` names. -/
def resolveNames : Nat → Block NameSlot → Run (Block NameSlot)
  | 0, names => .ok names
  | n + 1, names => do
    let names ← resolveNames n names
    match ← load names n with
    | .offset off => store names n (.ptr off)
    | _ => .error .index

/-- The array gets a slot with `NULL` behind the names, its pointers are resolved,
    and it is shown to the caller. -/
def finishNames : Naming Unit := do
  let s ← get
  if s.out.count = s.c.namesCap then reallocNames (s.out.count + 1)
  storeName s.out.count .null
  let names ← lift (resolveNames s.out.count (← get).c.namesArr)
  modify fun s => { s with c := { s.c with namesArr := names },
                           out := { s.out with names := .array } }

/-! ## The names -/

/-- The decoding of the response `recv`. -/
def namesBody (recv : Bytes) : Naming Unit := do
  modify fun s => { s with c := NamesScratch.freed }
  let (ch, j) := jpPeek (jpParseValue recv)
  -- A response that is no array has no names.
  if ch ≠ some lbrack then ret .ok
  let j := jpSkipWs (← lift j.bump)
  let (ch, j) := jpPeek j
  if ch = some rbrack then
    let _ ← lift j.bump
    ret .ok
  let _ ← namesLoop (fuelFor recv) j
  finishNames

/-- What `mongreldb_table_names` returns after a successful request, and leaves in
    the buffers and in the caller's result, which is zero at entry. -/
def decodeNames (recv : Bytes) (c : NamesScratch) (h : Heap) :
    Run (Code × NamesResult × NamesScratch × Heap) :=
  match namesBody recv ⟨c, ⟨.null, 0⟩, h⟩ with
  | .val _ s => .ok (.ok, s.out, s.c, s.heap)
  | .ret e s => .ok (e, s.out, s.c, s.heap)
  | .fault f => .error f

end MongrelDB
