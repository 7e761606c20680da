import MongrelDB.Page.Rows

/-!
# Resolving the pointers

After the last row, each row is pointed to its cells, and each cell with a string
or a raw text to its bytes. In front of this pass, no pointer of the result may
be used.
-/

namespace MongrelDB

open Ascii Prog

/-! ## Passes over an array -/

section Pass

variable {α β : Type} (f : α → β → α) (xs : List α) (ys : List β)

/-- What an array holds when a pass with a second array has reached the slot `n`. -/
def passed (n : Nat) : List α := List.zipWith f (xs.take n) (ys.take n) ++ xs.drop n

variable {f xs ys} {n : Nat}

theorem length_passed (hlen : ys.length = xs.length) (hn : n ≤ xs.length) :
    (passed f xs ys n).length = xs.length := by
  simp only [passed, List.length_append, List.length_zipWith, List.length_take, List.length_drop]
  omega

theorem passed_zero : passed f xs ys 0 = xs := by simp [passed]

theorem passed_length (hlen : ys.length = xs.length) :
    passed f xs ys xs.length = List.zipWith f xs ys := by
  rw [passed, List.take_length, List.drop_length, List.append_nil, ← hlen, List.take_length]

/-- The slot the pass has reached is as it was. -/
theorem getElem_passed (hlen : ys.length = xs.length) (hn : n < xs.length)
    (hn' : n < (passed f xs ys n).length) : (passed f xs ys n)[n] = xs[n] := by
  have hzip : (List.zipWith f (xs.take n) (ys.take n)).length = n := by
    simp only [List.length_zipWith, List.length_take]
    omega
  simp only [passed]
  rw [List.getElem_append_right (by omega)]
  simp [hzip]

/-- One more slot. -/
theorem set_passed (hlen : ys.length = xs.length) (hn : n < xs.length) (hy : n < ys.length) :
    (passed f xs ys n).set n (f xs[n] ys[n]) = passed f xs ys (n + 1) := by
  have hzip : (List.zipWith f (xs.take n) (ys.take n)).length = n := by
    simp only [List.length_zipWith, List.length_take]
    omega
  rw [passed, passed, List.set_append_right _ _ (by omega), hzip, Nat.sub_self,
    List.drop_eq_getElem_cons hn, List.set_cons_zero, List.take_succ_eq_append_getElem hn,
    List.take_succ_eq_append_getElem hy, List.zipWith_append (by simp; omega)]
  simp

end Pass

/-! ## Rows and cells -/

/-- A row that is pointed to its cells, from the cell `start` on. -/
def Row.resolve (row : Row) (start : Nat) : Row :=
  if row.count > 0 then ⟨.at start, row.count⟩ else ⟨.null, row.count⟩

/-- A value that is pointed to its text, at the offset `off`. -/
def Value.resolve (off : Nat) : Value → Value
  | .str _ => .str (.final off)
  | .json _ => .json (.final off)
  | v => v

/-- A cell that is pointed to its text, if there is one. -/
def Cell.resolve (cell : Cell) (off : Nat) : Cell :=
  if off ≠ NO_OFFSET then ⟨cell.columnId, cell.value.resolve off⟩ else cell

/-- The pass over the rows. -/
theorem resolveRows_spec {b : Block Row} {st : Block Nat} {rows : List Row} {starts : List Nat}
    {cap cap' : Nat} (h : IsArray b rows cap) (hst : IsArray st starts cap')
    (hlen : starts.length = rows.length) :
    ∃ b', resolveRows st rows.length b = .ok b' ∧
      IsArray b' (List.zipWith Row.resolve rows starts) cap := by
  have hpass : ∀ n ≤ rows.length, ∃ b', resolveRows st n b = .ok b' ∧
      IsArray b' (passed Row.resolve rows starts n) cap := by
    intro n
    induction n with
    | zero => exact fun _ => ⟨b, rfl, passed_zero (f := Row.resolve) ▸ h⟩
    | succ n ih =>
      intro hn
      have hy : n < starts.length := by omega
      obtain ⟨b₁, hb₁, h₁⟩ := ih (by omega)
      have hn' : n < (passed Row.resolve rows starts n).length := by
        rw [length_passed hlen (by omega)]
        omega
      have hrow := h₁.load hn'
      rw [getElem_passed hlen (by omega)] at hrow
      obtain ⟨b₂, hb₂, h₂⟩ := h₁.set hn' (Row.resolve rows[n] starts[n])
      rw [set_passed hlen (by omega) hy] at h₂
      refine ⟨b₂, ?_, h₂⟩
      rw [resolveRows, hb₁, Run.ok_bind, hrow, Run.ok_bind, hst.load hy, ← hb₂, Row.resolve]
      split_ifs <;> rfl
  obtain ⟨b', hb', h'⟩ := hpass rows.length (Nat.le_refl _)
  exact ⟨b', hb', passed_length (f := Row.resolve) hlen ▸ h'⟩

/-- The pass over the cells. -/
theorem resolveCells_spec {b : Block Cell} {st : Block Nat} {cells : List Cell} {offs : List Nat}
    {cap cap' : Nat} (h : IsArray b cells cap) (hst : IsArray st offs cap')
    (hlen : offs.length = cells.length) :
    ∃ b', resolveCells st cells.length b = .ok b' ∧
      IsArray b' (List.zipWith Cell.resolve cells offs) cap := by
  have hpass : ∀ n ≤ cells.length, ∃ b', resolveCells st n b = .ok b' ∧
      IsArray b' (passed Cell.resolve cells offs n) cap := by
    intro n
    induction n with
    | zero => exact fun _ => ⟨b, rfl, passed_zero (f := Cell.resolve) ▸ h⟩
    | succ n ih =>
      intro hn
      have hy : n < offs.length := by omega
      obtain ⟨b₁, hb₁, h₁⟩ := ih (by omega)
      have hn' : n < (passed Cell.resolve cells offs n).length := by
        rw [length_passed hlen (by omega)]
        omega
      have hcell := h₁.load hn'
      have hget := getElem_passed (f := Cell.resolve) hlen (by omega : n < cells.length) hn'
      have hset := set_passed (f := Cell.resolve) hlen (by omega : n < cells.length) hy
      rw [hget] at hcell
      -- A cell without a text is left as it is.
      have hsame : Cell.resolve cells[n] offs[n] = cells[n] →
          IsArray b₁ (passed Cell.resolve cells offs (n + 1)) cap := fun he => by
        rwa [← hset, he, ← hget, List.set_getElem_self]
      rw [resolveCells, hb₁, Run.ok_bind, hst.load hy, Run.ok_bind]
      by_cases hoff : offs[n] = NO_OFFSET
      · exact ⟨b₁, by rw [if_neg (by simpa using hoff)]; rfl,
          hsame (by rw [Cell.resolve, if_neg (by simpa using hoff)])⟩
      obtain ⟨b₂, hb₂, h₂⟩ := h₁.set hn' (Cell.resolve cells[n] offs[n])
      rw [hset] at h₂
      rw [Cell.resolve, if_pos hoff] at hb₂ hsame
      rw [if_pos hoff, hcell, Run.ok_bind]
      cases hv : cells[n].value <;> rw [hv] at hb₂ hsame <;>
        first
        | exact ⟨b₂, hb₂, h₂⟩
        | exact ⟨b₁, rfl, hsame (by simp only [Value.resolve]; rw [← hv])⟩
  obtain ⟨b', hb', h'⟩ := hpass cells.length (Nat.le_refl _)
  exact ⟨b', hb', passed_length (f := Cell.resolve) hlen ▸ h'⟩

variable {H : Heap} {K : Contents} {s : PageState} {trunc : Bool} {g : Nat}

/-- What the pass leaves: the contents, with their pointers, in an allocation
    the caller's result points to. -/
structure Resolved (K : Contents) (trunc : Bool) (s : PageState) : Prop where
  rows : IsArray s.c.rowsArr (List.zipWith Row.resolve K.rows K.starts) K.rowsCap
  rowsCap : s.c.rowsCap = K.rowsCap
  cells : IsArray s.c.cellsArr (List.zipWith Cell.resolve K.cells K.offs) K.cellsCap
  blob : s.c.valuesBlob = K.blob
  out : s.out = K.shown trunc

/-- The pointers are resolved. -/
theorem resolve_spec (h : Between H trunc K g s) {R : Code → PageState → Prop} :
    wp (resolve g) (fun _ s' => Resolved K trunc s') R s := by
  obtain ⟨b₁, hb₁, h₁⟩ := resolveRows_spec h.inv.rows h.inv.starts h.whole.starts
  obtain ⟨b₂, hb₂, h₂⟩ := resolveCells_spec h.inv.cells h.inv.offs h.whole.offs
  have hcount : s.out.count = K.rows.length := by rw [h.out, Contents.shown]
  simp only [resolve, wp_bind, wp_get, hcount, hb₁, h.global, hb₂, wp_lift_ok, wp_modify]
  exact ⟨h₁, h.inv.rowsCap, h₂, h.inv.blob, h.out⟩

end MongrelDB
