import MongrelDB.Tables.Slots

/-!
# The loops of the decoders

What the arrays of the client hold while a response is decoded: at every iteration
of the loop over the rows and of the loop over the names, and in front of every
write inside them.
-/

namespace MongrelDB

open Ascii Prog

/-- A response is as long as a `size_t` counts. At every point its decoding passes, every
    index about to be written is below the capacity of its array. The rows are slices of
    the cells, disjoint and in order, each starting behind the cells of those before it.
    The offsets of cells that are strings or texts of JSON, and the offsets of names, are
    those of strings that end inside their buffer and do not overlap. So it is at the next
    point, or where the decoding returns, and behind the last name there is room for
    `NULL`. -/
theorem decoders_fit (recv : Bytes) (hsize : recv.length < SIZE_MAX) :
    (∀ (lib : Libc) (c : Scratch) (h : Heap) (p : Point) (s : PageState),
      PagePasses lib recv c h p s → p.Sound s ∧
        wp (p.step lib) (Sum.elim Point.Sound fun global s' => Laid global global s')
          (fun _ => LeftLaid) s) ∧
      ∀ (c : NamesScratch) (h : Heap) (p : NamePoint) (s : NamesState),
        NamesPasses recv c h p s → p.Sound s ∧
          wp p.step (Sum.elim NamePoint.Sound fun _ => NamesShownIn) (fun _ => NamesLeft) s :=
  ⟨fun _ _ _ _ _ hp => hp.sound hsize, fun _ _ _ _ hp => hp.sound⟩

/-- A response with one row of one cell. -/
def oneRow : Bytes := ascii "\x7b\"rows\":[\x7b\"cells\":[7,\"a\"]\x7d]\x7d"

/-- Two of the points its decoding passes: the cells are about to be read, and the row
    is about to be written. -/
theorem oneRow_points :
    pagePoint Libc.zero oneRow Scratch.freed Heap.unlimited 2 =
        some (.pair 86 0 85 85 ⟨0, 0, 0⟩) ∧
      pagePoint Libc.zero oneRow Scratch.freed Heap.unlimited 7 =
        some (.store 86 0 ⟨1, 1, 1⟩ 0) := by
  decide +kernel

theorem oneRow_fits : ∃ s,
    PagePasses Libc.zero oneRow Scratch.freed Heap.unlimited (.store 86 0 ⟨1, 1, 1⟩ 0) s ∧
      Point.Sound (.store 86 0 ⟨1, 1, 1⟩ 0) s := by
  obtain ⟨s, hs⟩ := exists_pagePasses oneRow_points.2
  exact ⟨s, hs, ((decoders_fit oneRow (by decide)).1 _ _ _ _ _ hs).1⟩

end MongrelDB
