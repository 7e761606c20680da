import MongrelDB.Lib.Points
import MongrelDB.Page.Steps

/-!
# The points of the walk over the rows

The loop over the rows, cut where it or a loop inside it begins an iteration, and
in front of each write to an array of the client (`Point`). From each point the
walk takes a step (`Point.step`), and what is left of it at each is a program
(`Point.left`), for the loop over the rows the loop itself. That the one follows
the other (`follows_left`) is the unfolding of the loops.
-/

namespace MongrelDB

open Ascii Prog

/-! ## Parts -/

/-- What a loop does behind a step, up to its next iteration or its end. -/
def commaNext {β : Type} (close : UInt8) (behind : Bool) (again done : β) : Decode β := do
  let ch ← peek
  if ch = some comma then
    advance
    return again
  else if ch = some close then
    if behind then advance
    return done
  else
    ret .json

/-- The column id of a pair, and the comma behind it. -/
def readId : Decode Int64 := do
  let ch0 ← peek
  if !ch0.any startsNumber then ret .json
  let nstart := (← get).w.p
  parse fun j => .ok (jpNumber j)
  let nlen ← lift (toSize (ptrDiff (← get).w.p nstart))
  let idbuf ← lift (slice nstart (clip 32 nlen))
  if (← peek) = some comma then advance
  return strtoll idbuf

/-- The row `count` and its start are written. -/
def storeRow (count start inRow : Nat) : Decode Unit := do
  let starts ← lift (store (← get).c.rowCellStarts count start)
  let rows ← lift (store (← get).c.rowsArr count ⟨.unset, inRow⟩)
  modify fun s => { s with
    c := { s.c with rowCellStarts := starts, rowsArr := rows }
    out := { s.out with count := count + 1, rows := .array s.c.rowsCap } }

/-- The counters behind one more pair. -/
def Counters.next (k : Counters) : Counters := ⟨k.total + 1, k.inRow + 1, k.total + 1⟩

/-- The response up to the loop over the rows, behind the bracket of its array. -/
def openRows (recv : Bytes) : Decode Unit := do
  modify fun s => { s with c := Scratch.freed }
  let (_, trunc) ← lift (jsonGetBool recv (.lit "truncated"))
  modify fun s => { s with out := { s.out with truncated := trunc }, w := jpParseValue recv }
  if (← peek) ≠ some lbrace then ret .ok
  advance
  skipWs
  if (← peek) = some rbrace then ret .ok
  if !(← keyLoop (fuelFor recv)) then ret .ok
  advance
  modify fun s => { s with w := { s.w with ok := true } }
  skipWs
  if (← peek) = some rbrack then ret .ok

/-! ## Points -/

/-- A point of the walk, with the fuel of each loop it is in: `n` for the rows, `m`
    for the members of a row, `l` for the pairs of an array. The row it is in
    begins with the cell `start`. -/
inductive Point where
  /-- The loop over the rows begins an iteration. -/
  | row (n global : Nat)
  /-- The loop over the members of a row begins an iteration. -/
  | member (n start m : Nat) (k : Counters)
  /-- The loop over the pairs of a `cells` array begins an iteration. -/
  | pair (n start m l : Nat) (k : Counters)
  /-- `cells_arr[total]` is about to be written, a null value. -/
  | cell (n start m l : Nat) (k : Counters) (colid : Int64)
  /-- A value is about to be read, and written to `cells_arr[total]`, with the
      offset of its string to `cell_str_offs[total]`. -/
  | value (n start m l : Nat) (k : Counters) (colid : Int64)
  /-- A member of a row was read. -/
  | behind (n start m : Nat) (k : Counters)
  /-- A row was read. -/
  | record (n start : Nat) (k : Counters)
  /-- `row_cell_starts[count]` and `rows_arr[count]` are about to be written. -/
  | store (n start : Nat) (k : Counters) (count : Nat)
  deriving DecidableEq

namespace Point

/-- From a point to the next one, or to the end of the loop over the rows, with
    the number of cells it has decoded. -/
def step (lib : Libc) : Point → Decode (Point ⊕ Nat)
  | row 0 _ => fault .fuel
  | row (n + 1) global => do
    if (← peek) ≠ some lbrace then ret .json
    advance
    skipWs
    let s ← get
    let start ← lift (sumCounts s.c.rowsArr s.out.count)
    if (← peek) ≠ some rbrace then
      return .inl (member n start n ⟨start, 0, global⟩)
    else
      advance
      return .inl (record n start ⟨start, 0, global⟩)
  | member _ _ 0 _ => fault .fuel
  | member n start (m + 1) k => do
    let (kstart, klen) ← readKey
    if ← isArrayOf (ascii "cells") kstart klen then
      advance
      skipWs
      if (← peek) = some rbrack then
        advance
        return .inl (behind n start m k)
      else
        return .inl (pair n start m m k)
    else
      parse (jpValue m)
      return .inl (behind n start m k)
  | pair _ _ _ 0 _ => fault .fuel
  | pair n start m (l + 1) k => do
    let colid ← readId
    growCells k.total
    return .inl (cell n start m l k colid)
  | cell n start m l k colid => do
    storeCell k.total ⟨colid, .null⟩
    growStrOffs k.total
    return .inl (value n start m l k colid)
  | value n start m l k colid => do
    readValue lib l k.total colid
    commaNext rbrack true (.inl (pair n start m l k.next)) (.inl (behind n start m k.next))
  | behind n start m k =>
    commaNext rbrace true (.inl (member n start m k)) (.inl (record n start k))
  | record n start k => do
    let count := (← get).out.count
    growRows count
    growStarts count
    return .inl (store n start k count)
  | store n start k count => do
    storeRow count start k.inRow
    commaNext rbrack false (.inl (row n k.global)) (.inr k.global)

/-- What is left behind the members of a row. -/
def leftRow (lib : Libc) (n start : Nat) (k : Counters) : Decode Nat := do
  recordRow start k.inRow
  commaRest (readRow lib) rbrack false n k.global

/-- What is left behind a member of a row. -/
def leftMember (lib : Libc) (n start m : Nat) (k : Counters) : Decode Nat :=
  commaRest (readMember lib) rbrace true m k >>= leftRow lib n start

/-- What is left behind a pair of a `cells` array. -/
def leftPair (lib : Libc) (n start m l : Nat) (k : Counters) : Decode Nat :=
  commaRest (countPair lib) rbrack true l k >>= leftMember lib n start m

/-- What is left of the loop over the rows at a point. -/
def left (lib : Libc) : Point → Decode Nat
  | row n global => rowsLoop lib n global
  | member n start m k => rowLoop lib m k >>= leftRow lib n start
  | pair n start m l k => cellsLoop lib l k >>= leftMember lib n start m
  | cell n start m l k colid => do
    storeCell k.total ⟨colid, .null⟩
    growStrOffs k.total
    readValue lib l k.total colid
    leftPair lib n start m l k.next
  | value n start m l k colid => do
    readValue lib l k.total colid
    leftPair lib n start m l k.next
  | behind n start m k => leftMember lib n start m k
  | record n start k => leftRow lib n start k
  | store n start k count => do
    storeRow count start k.inRow
    commaRest (readRow lib) rbrack false n k.global

end Point

/-! ## The loops -/

theorem readPair_eq (lib : Libc) (n total : Nat) :
    readPair lib n total = readId >>= readCell lib n total := by
  simp only [readPair, readId, then_assoc, ite_then, pure_then]

/-- Behind a step, a loop goes on to its next iteration or to what is left behind it. -/
theorem commaRest_then {α β γ : Type} {step : Nat → α → Decode α} {close : UInt8} {behind : Bool}
    {n : Nat} {a : α} {f : α → Decode γ} {again done : β} {g : β → Decode γ}
    (hagain : commaLoop step close behind n a >>= f = g again) (hdone : f a = g done) :
    commaRest step close behind n a >>= f = commaNext close behind again done >>= g := by
  simp only [commaRest, commaNext, then_assoc, ite_then, pure_then, ret_then, hagain, hdone]

theorem commaLoop_succ {α : Type} (step : Nat → α → Decode α) (close : UInt8) (behind : Bool)
    (n : Nat) (a : α) :
    commaLoop step close behind (n + 1) a = step n a >>= commaRest step close behind n := rfl

open Point in
/-- At each point, what is left of the loop over the rows is a step, and what is left
    behind it. -/
theorem follows_left (lib : Libc) : Follows (step lib) (left lib) := fun p => by
  -- At each point one step and what it leaves are what the loop does next.
  cases p with
  | row n global =>
    cases n with
    | zero => rfl
    | succ n =>
      simp only [left, step, rowsLoop, commaLoop_succ, readRow, then_assoc, ite_then, pure_then,
        ret_then, Sum.elim_inl, leftRow]
      rfl
  | member n start m k =>
    cases m with
    | zero => rfl
    | succ m =>
      simp only [left, step, rowLoop, commaLoop_succ, readMember, readCells, then_assoc, ite_then,
        pure_then, Sum.elim_inl, leftMember]
      rfl
  | pair n start m l k =>
    cases l with
    | zero => rfl
    | succ l =>
      simp only [left, step, cellsLoop, commaLoop_succ, countPair, readPair_eq, readCell,
        then_assoc,
        pure_then, Sum.elim_inl, leftPair, Counters.next]
  | cell n start m l k colid => simp only [left, step, then_assoc, pure_then, Sum.elim_inl]
  | value n start m l k colid =>
    simp only [left, step, then_assoc]
    congr 1
    funext _
    exact commaRest_then rfl rfl
  | behind n start m k => exact commaRest_then rfl rfl
  | record n start k =>
    simp only [left, step, leftRow, recordRow, storeRow, then_assoc, pure_then, Sum.elim_inl]
  | store n start k count =>
    simp only [left, step, then_assoc]
    congr 1
    funext _
    rw [← then_pure (commaRest _ _ _ _ _)]
    exact commaRest_then (then_pure _) rfl

/-- The decoding of a response reaches the loop over its rows, runs it, and resolves
    the pointers. -/
theorem pageBody_eq (lib : Libc) (recv : Bytes) :
    pageBody lib recv =
      openRows recv >>= fun _ => rowsLoop lib (fuelFor recv) 0 >>= resolve := by
  simp only [pageBody, decodeObject, decodeRows, openRows, then_assoc, ite_then, pure_then,
    ret_then]

/-- The decoding of the response `recv` passes the point `p`, in the state `s`. -/
def PagePasses (lib : Libc) (recv : Bytes) (c : Scratch) (h : Heap) (p : Point) (s : PageState) :
    Prop :=
  ∃ s₀, openRows recv ⟨jpParseValue recv, c, ⟨.null, 0, false⟩, h⟩ = .val () s₀ ∧
    Reaches (Point.step lib) (.row (fuelFor recv) 0) s₀ p s

/-- The decoding goes on from there. -/
theorem PagePasses.left_eq {lib : Libc} {recv : Bytes} {c : Scratch} {h : Heap} {p : Point}
    {s : PageState} (hp : PagePasses lib recv c h p s) :
    pageBody lib recv ⟨jpParseValue recv, c, ⟨.null, 0, false⟩, h⟩ =
      (p.left lib >>= resolve) s := by
  obtain ⟨s₀, hopen, hreach⟩ := hp
  rw [pageBody_eq, bind_of_val hopen]
  change Prog.bind _ _ s₀ = Prog.bind _ _ s
  unfold Prog.bind
  rw [← hreach.left_eq (follows_left lib)]
  rfl

/-- The point the decoding of a response passes `k` steps into the loop over the rows. -/
def pagePoint (lib : Libc) (recv : Bytes) (c : Scratch) (h : Heap) (k : Nat) : Option Point :=
  match openRows recv ⟨jpParseValue recv, c, ⟨.null, 0, false⟩, h⟩ with
  | .val _ s => (passes (Point.step lib) k (.row (fuelFor recv) 0) s).map Prod.fst
  | _ => none

theorem exists_pagePasses {lib : Libc} {recv : Bytes} {c : Scratch} {h : Heap} {k : Nat} {p : Point}
    (hp : pagePoint lib recv c h k = some p) : ∃ s, PagePasses lib recv c h p s := by
  rw [pagePoint] at hp
  split at hp
  · rename_i s₀ hopen
    obtain ⟨⟨q, s⟩, hq, rfl⟩ := Option.map_eq_some_iff.1 hp
    exact ⟨s, s₀, hopen, reaches_of_passes hq⟩
  · cases hp

end MongrelDB
