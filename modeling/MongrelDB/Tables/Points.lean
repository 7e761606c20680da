import MongrelDB.Lib.Points
import MongrelDB.Tables.Body

/-!
# The points of the loop over the names

The loop over the names, and what follows it, cut where the loop begins an
iteration and in front of each write to the array of names (`NamePoint`), as the
walk over the rows is. What is left at each point follows from a step
(`follows_leftNames`).
-/

namespace MongrelDB

open Ascii Prog

/-! ## Parts -/

/-- The offset of a name is stored behind the others. -/
def storeBase (base : Nat) : Naming Unit := do
  let count := (← get).out.count
  storeName count (.offset base)
  modify fun s => { s with out := { s.out with count := count + 1 } }

/-- What the loop over the names does behind a name. -/
def namesRest (n : Nat) (j : JsonParser) : Naming JsonParser := do
  let (ch, j) := jpPeek j
  if ch = some comma then
    namesLoop n (← lift j.bump)
  else if ch = some rbrack then
    lift j.bump
  else
    ret .json

/-- `NULL` is stored behind the names, their pointers are resolved, and they are shown. -/
def showNames (count : Nat) : Naming Unit := do
  storeName count .null
  let names ← lift (resolveNames count (← get).c.namesArr)
  modify fun s => { s with c := { s.c with namesArr := names },
                           out := { s.out with names := .array } }

/-- The response up to the loop over the names, behind the bracket of its array. -/
def openNames (recv : Bytes) : Naming JsonParser := do
  modify fun s => { s with c := NamesScratch.freed }
  let (ch, j) := jpPeek (jpParseValue recv)
  if ch ≠ some lbrack then ret .ok
  let j := jpSkipWs (← lift j.bump)
  let (ch, j) := jpPeek j
  if ch = some rbrack then
    let _ ← lift j.bump
    ret .ok
  return j

/-! ## Points -/

/-- A point of the loop, with its fuel `n` and its cursor `j`. -/
inductive NamePoint where
  /-- The loop begins an iteration. -/
  | name (n : Nat) (j : JsonParser)
  /-- `names_arr[*out_count]` is about to be written, the offset of a name. -/
  | store (n : Nat) (j : JsonParser) (base : Nat)
  /-- The loop has ended. -/
  | behind
  /-- `names_arr[count]` is about to be written, the terminating `NULL`. -/
  | slot (count : Nat)

namespace NamePoint

/-- From a point to the next one, or to the end. -/
def step : NamePoint → Naming (NamePoint ⊕ Unit)
  | name 0 _ => fault .fuel
  | name (n + 1) j => do
    let (ch, j) := jpPeek j
    if ch ≠ some quote then ret .json
    let start ← lift (ptrSucc j.p)
    let j ← lift (jpString j)
    if !j.ok then ret .json
    let len ← lift (toSize (ptrDiff j.p start - 1))
    let raw ← lift (slice start len)
    let base := (← get).c.namesBlob.len
    appendName raw
    appendName [0]
    growNames
    return .inl (store n j base)
  | store n j base => do
    storeBase base
    let (ch, j) := jpPeek j
    if ch = some comma then
      return .inl (name n (← lift j.bump))
    else if ch = some rbrack then
      let _ ← lift j.bump
      return .inl behind
    else
      ret .json
  | behind => do
    let s ← get
    if s.out.count = s.c.namesCap then reallocNames (s.out.count + 1)
    return .inl (slot s.out.count)
  | slot count => do
    showNames count
    return .inr ()

/-- What is left of the decoding at a point. -/
def left : NamePoint → Naming Unit
  | name n j => namesLoop n j >>= fun _ => finishNames
  | store n j base => do
    storeBase base
    let _ ← namesRest n j
    finishNames
  | behind => finishNames
  | slot count => showNames count

end NamePoint

open NamePoint in
/-- At each point, what is left of the decoding is a step, and what is left behind it. -/
theorem follows_leftNames : Follows step left := fun p => by
  cases p with
  | name n j =>
    cases n with
    | zero => rfl
    | succ n =>
      simp only [left, step, namesLoop, readName, recordName, storeBase, namesRest, then_assoc,
        ite_then, pure_then, ret_then, Sum.elim_inl]
  | store n j base =>
    simp only [left, step, namesRest, then_assoc, ite_then, pure_then, ret_then, Sum.elim_inl]
  | behind =>
    simp only [left, step, finishNames, showNames, then_assoc, ite_then, pure_then, Sum.elim_inl]
  | slot count =>
    simp only [left, step, then_assoc, pure_then, Sum.elim_inr]
    exact (then_pure _).symm

/-- The decoding of a response reaches the loop over its names. -/
theorem namesBody_eq (recv : Bytes) :
    namesBody recv = openNames recv >>= fun j => (NamePoint.name (fuelFor recv) j).left := by
  simp only [namesBody, openNames, NamePoint.left, then_assoc, ite_then, pure_then, ret_then]

/-- The decoding of the response `recv` passes the point `p`, in the state `s`. -/
def NamesPasses (recv : Bytes) (c : NamesScratch) (h : Heap) (p : NamePoint) (s : NamesState) :
    Prop :=
  ∃ j s₀, openNames recv ⟨c, ⟨.null, 0⟩, h⟩ = .val j s₀ ∧
    Reaches NamePoint.step (.name (fuelFor recv) j) s₀ p s

/-- The decoding goes on from there. -/
theorem NamesPasses.left_eq {recv : Bytes} {c : NamesScratch} {h : Heap} {p : NamePoint}
    {s : NamesState} (hp : NamesPasses recv c h p s) :
    namesBody recv ⟨c, ⟨.null, 0⟩, h⟩ = p.left s := by
  obtain ⟨j, s₀, hopen, hreach⟩ := hp
  rw [namesBody_eq, bind_of_val hopen, hreach.left_eq follows_leftNames]

end MongrelDB
