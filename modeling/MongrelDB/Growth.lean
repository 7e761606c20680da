import MongrelDB.Page.Invariant
import MongrelDB.Tables.Points

/-!
# The growth of the arrays

The capacities the arrays of the decoders grow to, computed in a `size_t` of as
many bits as the target has (`Target`). A number that `size_t` does not hold is
nothing here.

* `growCells_eq` and the others: the decoders, which count without bounds, grow
  their arrays by these capacities;
* `Fits.growPair` and the others: the target computes the same, and the bytes of
  as many elements, as long as twice the elements so far fit (`Target.Fits`).
-/

namespace MongrelDB

open Prog

/-! ## Without bounds -/

/-- The capacity of the array of cells, and of that of the offsets, if it grows for one
    more than `total`. -/
def pairGrowth (total cap : Nat) : Option Nat :=
  if total + 1 > cap then some (growTo 16 (total + 1) cap) else none

/-- The capacity of the array of rows, if it grows for one more than `count`. -/
def rowsGrowth (count cap : Nat) : Option Nat :=
  if count = cap then some (if cap ≠ 0 then cap * 2 else 8) else none

/-- The capacity of the array of the starts of rows, if it grows for one more than
    `count`. -/
def startsGrowth (count cap : Nat) : Option Nat :=
  if count = cap then some (growTo 8 (count + 1) cap) else none

/-- The capacity of the array of names, if it grows for one more than `count`. -/
def namesGrowth (count cap : Nat) : Option Nat :=
  if cap = 0 then some 8 else if count = cap then some (cap * 2) else none

/-- The capacity of the array of names, if it grows for the `NULL` behind `count` of them. -/
def lastGrowth (count cap : Nat) : Option Nat :=
  if count = cap then some (count + 1) else none

/-- An array of the client grows to a capacity, if there is one: it is moved to as many
    elements of `size` bytes. -/
def growing (growth : Scratch → Option Nat) (size : Nat) (move : Nat → Scratch → Scratch) :
    Decode Unit := do
  match growth (← get).c with
  | some ncap =>
    reallocate ncap size
    modify fun s => { s with c := move ncap s.c }
  | none => return

theorem growing_ite (b : Scratch → Prop) [∀ c, Decidable (b c)] (ncap : Scratch → Nat) (size : Nat)
    (move : Nat → Scratch → Scratch) :
    growing (fun c => if b c then some (ncap c) else none) size move = (do
      let c := (← get).c
      if b c then
        reallocate (ncap c) size
        modify fun s => { s with c := move (ncap c) s.c }) := by
  rw [growing]
  congr 1
  funext s
  dsimp only
  by_cases h : b s.c
  · rw [if_pos h, if_pos h]
  · rw [if_neg h, if_neg h]

theorem growCells_eq (total : Nat) :
    growCells total = growing (fun c => pairGrowth total c.cellsCap) 24 fun ncap c =>
      { c with cellsArr := c.cellsArr.realloc ncap, cellsCap := ncap } := by
  simp only [pairGrowth, growing_ite]
  rfl

theorem growStrOffs_eq (total : Nat) :
    growStrOffs total = growing (fun c => pairGrowth total c.cellStrOffsCap) 8 fun ncap c =>
      { c with cellStrOffs := c.cellStrOffs.realloc ncap, cellStrOffsCap := ncap } := by
  simp only [pairGrowth, growing_ite]
  rfl

theorem growRows_eq (count : Nat) :
    growRows count = growing (fun c => rowsGrowth count c.rowsCap) 16 fun ncap c =>
      { c with rowsArr := c.rowsArr.realloc ncap, rowsCap := ncap } := by
  simp only [rowsGrowth, growing_ite]
  rfl

theorem growStarts_eq (count : Nat) :
    growStarts count = growing (fun c => startsGrowth count c.rowCellStartsCap) 8 fun ncap c =>
      { c with rowCellStarts := c.rowCellStarts.realloc ncap, rowCellStartsCap := ncap } := by
  simp only [startsGrowth, growing_ite]
  rfl

/-- The array of names grows to a capacity, if there is one. -/
def growingNames (growth : NamesState → Option Nat) : Naming Unit := do
  match growth (← get) with
  | some ncap => reallocNames ncap
  | none => return

theorem growNames_eq : growNames = growingNames fun s => namesGrowth s.out.count s.c.namesCap := by
  funext s
  change (if s.c.namesCap = 0 then reallocNames 8
    else if s.out.count = s.c.namesCap then reallocNames (s.c.namesCap * 2)
    else pure () : Naming Unit) s =
      (match namesGrowth s.out.count s.c.namesCap with
        | some ncap => reallocNames ncap
        | none => pure () : Naming Unit) s
  rw [namesGrowth]
  split_ifs <;> rfl

theorem finishNames_eq : finishNames = (do
    let s ← get
    growingNames fun s => lastGrowth s.out.count s.c.namesCap
    showNames s.out.count) := by
  funext s
  change (if s.out.count = s.c.namesCap then
      reallocNames (s.out.count + 1) >>= fun _ => showNames s.out.count
    else showNames s.out.count : Naming Unit) s =
    Prog.bind (growingNames fun s => lastGrowth s.out.count s.c.namesCap)
      (fun _ => showNames s.out.count) s
  change _ = Prog.bind (match lastGrowth s.out.count s.c.namesCap with
    | some ncap => reallocNames ncap
    | none => pure ()) (fun _ => showNames s.out.count) s
  rw [lastGrowth]
  split_ifs <;> rfl

/-- An array is doubled no further than to twice what it was too small for. -/
theorem doubleTo_le {need : Nat} :
    ∀ {n c : Nat}, doubleTo need n c ≤ max c (2 * (need - 1))
  | 0, c => Nat.le_max_left _ _
  | n + 1, c => by
    rw [doubleTo]
    split_ifs with hc
    · have hle : doubleTo need n (c * 2) ≤ max (c * 2) (2 * (need - 1)) := doubleTo_le
      omega
    · exact Nat.le_max_left _ _

theorem growTo_le {start need cap : Nat} (hcap : cap < need) :
    growTo start need cap ≤ max start (2 * (need - 1)) := by
  have hle : growTo start need cap ≤ max (if cap ≠ 0 then cap * 2 else start) (2 * (need - 1)) :=
    doubleTo_le
  split_ifs at hle <;> omega

/-! ## On a target -/

/-- A target: the bits of its `size_t`, and the sizes of a cell, a row, and a `size_t` or
    a pointer. -/
structure Target where
  bits : Nat
  cell : Nat
  row : Nat
  word : Nat
  admitted : bits = 64 ∧ cell ≤ 24 ∧ row ≤ 16 ∧ word ≤ 8 ∨
    bits = 32 ∧ cell ≤ 24 ∧ row ≤ 8 ∧ word ≤ 4

namespace Target

/-- A target with pointers of 32 bits. -/
def ilp32 : Target := ⟨32, 24, 8, 4, .inr (by decide)⟩

/-- A target with pointers of 64 bits, whose sizes are those of the decoders. -/
def lp64 : Target := ⟨64, 24, 16, 8, .inl (by decide)⟩

variable (T : Target)

/-- A number, if `size_t` holds it. -/
def size (n : Nat) : Option Nat := if n < 2 ^ T.bits then some n else none

/-- The loop `while (need > ncap) ncap *= 2`, with fuel. -/
def doubleTo (need : Nat) : Nat → Nat → Option Nat
  | 0, ncap => some ncap
  | n + 1, ncap => if need > ncap then do doubleTo need n (← T.size (ncap * 2)) else some ncap

/-- The capacity of an array that is doubled, from `start` at first, until it is enough. -/
def growTo (start need cap : Nat) : Option Nat := do
  let ncap ← if cap ≠ 0 then T.size (cap * 2) else some start
  T.doubleTo need need ncap

/-- A capacity, and the bytes of as many elements of `elem` bytes. -/
def bytes (elem ncap : Nat) : Option (Nat × Nat) := do return (ncap, ← T.size (ncap * elem))

/-- The growth of the array of cells, and of that of the offsets, for one more than
    `total`: none, or the capacity and its bytes. -/
def growPair (elem total cap : Nat) : Option (Option (Nat × Nat)) := do
  let need ← T.size (total + 1)
  if need > cap then return some (← T.bytes elem (← T.growTo 16 need cap)) else return none

/-- The growth of the array of rows, for one more than `count`. -/
def growRows (count cap : Nat) : Option (Option (Nat × Nat)) := do
  if count = cap then
    return some (← T.bytes T.row (← if cap ≠ 0 then T.size (cap * 2) else some 8))
  else
    return none

/-- The growth of the array of the starts of rows, for one more than `count`. -/
def growStarts (count cap : Nat) : Option (Option (Nat × Nat)) := do
  if count = cap then
    -- `while (count >= ncap)`
    return some (← T.bytes T.word (← T.growTo 8 (count + 1) cap))
  else
    return none

/-- The growth of the array of names, for one more than `count`. -/
def growNames (count cap : Nat) : Option (Option (Nat × Nat)) := do
  if cap = 0 then return some (← T.bytes T.word 8)
  else if count = cap then return some (← T.bytes T.word (← T.size (cap * 2)))
  else return none

/-- The growth of the array of names, for the `NULL` behind `count` of them. -/
def growLast (count cap : Nat) : Option (Option (Nat × Nat)) := do
  if count = cap then return some (← T.bytes T.word (← T.size (count + 1))) else return none

/-- What the target computes is the capacity `growth`, if any, and the bytes of as many
    elements of `elem` bytes. Behind the growth, there is room for one more than `count`. -/
structure Exact (computed : Option (Option (Nat × Nat))) (growth : Option Nat)
    (elem count cap : Nat) : Prop where
  computed : computed = some (growth.map fun ncap => (ncap, ncap * elem))
  room : count < growth.getD cap

/-- Capacities of up to twice `count` fit, and so do the bytes of as many elements. -/
structure Fits (elem count : Nat) : Prop where
  capacity : max 16 (2 * count) < 2 ^ T.bits
  bytes : max 16 (2 * count) * elem < 2 ^ T.bits

variable {T} {elem count cap : Nat}

theorem size_of_lt {n : Nat} (h : n < 2 ^ T.bits) : T.size n = some n := if_pos h

theorem Fits.size_eq (h : T.Fits elem count) {n : Nat} (hn : n ≤ max 16 (2 * count)) :
    T.size n = some n :=
  size_of_lt (Nat.lt_of_le_of_lt hn h.capacity)

theorem Fits.bytes_eq (h : T.Fits elem count) {ncap : Nat} (hn : ncap ≤ max 16 (2 * count)) :
    T.bytes elem ncap = some (ncap, ncap * elem) := by
  rw [Target.bytes, size_of_lt (Nat.lt_of_le_of_lt (Nat.mul_le_mul_right elem hn) h.bytes)]
  rfl

theorem doubleTo_eq {need : Nat} (hneed : 2 * (need - 1) < 2 ^ T.bits) :
    ∀ {n c : Nat}, c < 2 ^ T.bits → T.doubleTo need n c = some (MongrelDB.doubleTo need n c)
  | 0, _, _ => rfl
  | n + 1, c, hc => by
    rw [Target.doubleTo, MongrelDB.doubleTo]
    split_ifs with hlt
    · -- `c` is below `need`, so that twice as much fits.
      have hc' : c * 2 < 2 ^ T.bits := by omega
      rw [size_of_lt hc']
      exact doubleTo_eq hneed hc'
    · rfl

/-- An array of less than what is needed grows as without bounds. -/
theorem Fits.growTo_eq (h : T.Fits elem count) {start : Nat} (hs : start ≤ 16)
    (hcap : cap ≤ count) :
    T.growTo start (count + 1) cap = some (MongrelDB.growTo start (count + 1) cap) := by
  have hfits := h.capacity
  have hdouble : ∀ {c}, c < 2 ^ T.bits → T.doubleTo (count + 1) (count + 1) c =
      some (MongrelDB.doubleTo (count + 1) (count + 1) c) := doubleTo_eq (by omega)
  rw [Target.growTo, MongrelDB.growTo]
  split_ifs with hpos
  · rw [size_of_lt (by omega)]
    exact hdouble (by omega)
  · exact hdouble (by omega)

/-- A capacity that is computed without overflow, and its bytes. -/
theorem Fits.then_bytes (h : T.Fits elem count) {x : Option Nat} {ncap : Nat} (hx : x = some ncap)
    (hn : ncap ≤ max 16 (2 * count)) :
    (do return some (← T.bytes elem (← x))) = some (some (ncap, ncap * elem)) := by
  rw [hx, Option.bind_eq_bind, Option.bind_some, h.bytes_eq hn]
  rfl

theorem Fits.growPair (h : T.Fits elem count) :
    Exact (T.growPair elem count cap) (pairGrowth count cap) elem count cap := by
  have hfits := h.capacity
  rw [Target.growPair, pairGrowth, size_of_lt (by omega), Option.bind_eq_bind, Option.bind_some]
  split_ifs with hfull
  · exact ⟨h.then_bytes (h.growTo_eq (Nat.le_refl _) (by omega)) (growTo_le hfull),
      need_le_growTo (by decide)⟩
  · exact ⟨rfl, by simpa using hfull⟩

theorem Fits.growRows (h : T.Fits T.row count) (hle : count ≤ cap) :
    Exact (T.growRows count cap) (rowsGrowth count cap) T.row count cap := by
  rw [Target.growRows, rowsGrowth]
  split_ifs with hfull hpos
  · subst hfull
    exact ⟨h.then_bytes (h.size_eq (by omega)) (by omega), by simp only [Option.getD_some]; omega⟩
  · exact ⟨h.then_bytes rfl (by omega), by simp only [Option.getD_some]; omega⟩
  · exact ⟨rfl, Nat.lt_of_le_of_ne hle hfull⟩

theorem Fits.growStarts (h : T.Fits T.word count) (hle : count ≤ cap) :
    Exact (T.growStarts count cap) (startsGrowth count cap) T.word count cap := by
  rw [Target.growStarts, startsGrowth]
  split_ifs with hfull
  · have hgrow : MongrelDB.growTo 8 (count + 1) cap ≤ max 8 (2 * count) := growTo_le (by omega)
    exact ⟨h.then_bytes (h.growTo_eq (by decide) (by omega)) (by omega), need_le_growTo (by decide)⟩
  · exact ⟨rfl, Nat.lt_of_le_of_ne hle hfull⟩

theorem Fits.growNames (h : T.Fits T.word count) (hle : count ≤ cap) :
    Exact (T.growNames count cap) (namesGrowth count cap) T.word count cap := by
  rw [Target.growNames, namesGrowth]
  split_ifs with hzero hfull
  · exact ⟨h.then_bytes rfl (by omega), by simp only [Option.getD_some]; omega⟩
  · exact ⟨h.then_bytes (h.size_eq (by omega)) (by omega), by simp only [Option.getD_some]; omega⟩
  · exact ⟨rfl, Nat.lt_of_le_of_ne hle hfull⟩

theorem Fits.growLast (h : T.Fits T.word count) (hle : count ≤ cap) :
    Exact (T.growLast count cap) (lastGrowth count cap) T.word count cap := by
  rw [Target.growLast, lastGrowth]
  split_ifs with hfull
  · exact ⟨h.then_bytes (h.size_eq (by omega)) (by omega), Nat.lt_succ_self _⟩
  · exact ⟨rfl, Nat.lt_of_le_of_ne hle hfull⟩

/-! ## What fits -/

theorem Fits.of_le {most : Nat} (helem : elem ≤ most) (hcapacity : max 16 (2 * count) < 2 ^ T.bits)
    (hbytes : max 16 (2 * count) * most < 2 ^ T.bits) : T.Fits elem count :=
  ⟨hcapacity, Nat.lt_of_le_of_lt (Nat.mul_le_mul_left _ helem) hbytes⟩

variable (T)

/-- Twice as many cells as a response of three bytes for each holds. -/
theorem fits_cell (h : 3 * count < MONGRELDB_MAX_RESPONSE_BYTES) : T.Fits T.cell count := by
  rw [MONGRELDB_MAX_RESPONSE_BYTES] at h
  -- On 32 bits, 24 bytes for each of twice as many are 16 times the bytes of the response.
  rcases T.admitted with ⟨hbits, hcell, -, -⟩ | ⟨hbits, hcell, -, -⟩ <;>
    exact .of_le hcell (by rw [hbits]; omega) (by rw [hbits]; omega)

/-- Twice as many rows as a response of a byte for each holds. -/
theorem fits_row (h : count < MONGRELDB_MAX_RESPONSE_BYTES) : T.Fits T.row count := by
  rw [MONGRELDB_MAX_RESPONSE_BYTES] at h
  rcases T.admitted with ⟨hbits, -, hrow, -⟩ | ⟨hbits, -, hrow, -⟩ <;>
    exact .of_le hrow (by rw [hbits]; omega) (by rw [hbits]; omega)

theorem fits_word (h : count ≤ MONGRELDB_MAX_RESPONSE_BYTES) : T.Fits T.word count := by
  rw [MONGRELDB_MAX_RESPONSE_BYTES] at h
  rcases T.admitted with ⟨hbits, -, -, hword⟩ | ⟨hbits, -, -, hword⟩ <;>
    exact .of_le hword (by rw [hbits]; omega) (by rw [hbits]; omega)

end Target

end MongrelDB
