import MongrelDB.Loops
import MongrelDB.Tables.Counts

/-!
# Capacities

The capacities the arrays of the decoders grow to, while a response is decoded that
is no longer than a download may be: on a target with a `size_t` of 32 bits as well as
on one of 64 bits, none of them overflows, and neither do the bytes that are allocated
(`capacities_fit`). On 32 bits, this rests on the bytes the cells have taken.
-/

namespace MongrelDB

open Prog

namespace Target

/-- The growth of the arrays in the step from a point is computed without overflow. -/
def GrowsAt (T : Target) : Point → PageState → Prop
  | .pair _ _ _ _ k, s => Exact (T.growPair T.cell k.total s.c.cellsCap)
      (pairGrowth k.total s.c.cellsCap) T.cell k.total s.c.cellsCap
  | .cell _ _ _ _ k _, s => Exact (T.growPair T.word k.total s.c.cellStrOffsCap)
      (pairGrowth k.total s.c.cellStrOffsCap) T.word k.total s.c.cellStrOffsCap
  | .record _ _ _, s =>
    Exact (T.growRows s.out.count s.c.rowsCap) (rowsGrowth s.out.count s.c.rowsCap) T.row
        s.out.count s.c.rowsCap ∧
      Exact (T.growStarts s.out.count s.c.rowCellStartsCap)
        (startsGrowth s.out.count s.c.rowCellStartsCap) T.word s.out.count s.c.rowCellStartsCap
  | _, _ => True

/-- The growth of the array of names in the step from a point is computed without
    overflow. -/
def NamesGrowAt (T : Target) : NamePoint → NamesState → Prop
  | .name _ _, s => Exact (T.growNames s.out.count s.c.namesCap)
      (namesGrowth s.out.count s.c.namesCap) T.word s.out.count s.c.namesCap
  | .behind, s => Exact (T.growLast s.out.count s.c.namesCap)
      (lastGrowth s.out.count s.c.namesCap) T.word s.out.count s.c.namesCap
  | _, _ => True

variable (T : Target)

/-- With the cells counted, and three bytes for each, the arrays of the rows grow. -/
theorem growsAt {N : Nat} {p : Point} {s : PageState} (hN : N ≤ MONGRELDB_MAX_RESPONSE_BYTES)
    (hs : p.Sound s) (h : p.Counted N s) : T.GrowsAt p s := by
  cases p with
  | pair n start m l k =>
    have hcells := h.cells
    simp only [Point.cells, Point.bracket, Point.ahead] at hcells
    have hglobal : k.global = k.total := InRowAt.global hs
    exact (T.fits_cell (by omega)).growPair
  | cell n start m l k colid =>
    have hcells := h.cells
    simp only [Point.cells, Point.bracket, Point.ahead] at hcells
    have hglobal : k.global = k.total := hs.1.global
    exact (T.fits_word (by omega)).growPair
  | record n start k =>
    have hrows := h.rows
    simp only [Point.bracket] at hrows
    obtain ⟨cells, offs, rows, starts, hold, -⟩ := InRowAt.laid hs
    have hstarts : starts.length = s.out.count := by
      rw [hold.slices.length, List.length_map, hold.count]
    exact ⟨(T.fits_row (by omega)).growRows (hold.count ▸ hold.rowsArr.length_le),
      (T.fits_word (by omega)).growStarts (hstarts ▸ hold.rowStarts.length_le)⟩
  | row | member | value | behind | store => trivial

theorem namesGrowAt {N : Nat} {p : NamePoint} {s : NamesState}
    (hN : N ≤ MONGRELDB_MAX_RESPONSE_BYTES) (hs : p.Sound s) (h : p.Counted N s) :
    T.NamesGrowAt p s := by
  have hcap : ∀ {offs}, NamesHolding s offs → s.out.count ≤ s.c.namesCap := fun hold => by
    have hle := hold.arr.length_le
    rwa [List.length_map, ← hold.count] at hle
  cases p with
  | name n j =>
    obtain ⟨offs, hold⟩ := hs
    exact (T.fits_word (by have := Nat.le_of_add_right_le h; omega)).growNames (hcap hold)
  | behind =>
    obtain ⟨offs, hold⟩ := hs
    exact (T.fits_word (Nat.le_trans h hN)).growLast (hcap hold)
  | store | slot => trivial

end Target

/-- At every point the decoding of a response passes that is no longer than a download
    may be, whatever the response is: the capacity an array grows to, and the bytes of as
    many elements, are numbers a `size_t` of the target holds, of 32 bits or of 64, and
    the array has room for one more element than it holds. -/
theorem capacities_fit (recv : Bytes) (hsize : recv.length ≤ MONGRELDB_MAX_RESPONSE_BYTES)
    (T : Target) :
    (∀ (lib : Libc) (c : Scratch) (h : Heap) (p : Point) (s : PageState),
      PagePasses lib recv c h p s → T.GrowsAt p s) ∧
      ∀ (c : NamesScratch) (h : Heap) (p : NamePoint) (s : NamesState),
        NamesPasses recv c h p s → T.NamesGrowAt p s := by
  have hmax : recv.length < SIZE_MAX := Nat.lt_of_le_of_lt hsize (by decide)
  exact ⟨fun _ _ _ _ _ hp => T.growsAt hsize (hp.sound hmax).1 (hp.counted hmax),
    fun _ _ _ _ hp => T.namesGrowAt hsize hp.sound.1 hp.counted⟩

/-- On targets of 32 and of 64 bits, at the first cell of a response. -/
theorem oneRow_capacity : ∃ s,
    PagePasses Libc.zero oneRow Scratch.freed Heap.unlimited (.pair 86 0 85 85 ⟨0, 0, 0⟩) s ∧
      Target.ilp32.GrowsAt (.pair 86 0 85 85 ⟨0, 0, 0⟩) s ∧
      Target.lp64.GrowsAt (.pair 86 0 85 85 ⟨0, 0, 0⟩) s := by
  obtain ⟨s, hs⟩ := exists_pagePasses oneRow_points.1
  exact ⟨s, hs, (capacities_fit oneRow (by decide) .ilp32).1 _ _ _ _ _ hs,
    (capacities_fit oneRow (by decide) .lp64).1 _ _ _ _ _ hs⟩

end MongrelDB
