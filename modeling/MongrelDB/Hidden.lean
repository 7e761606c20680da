import MongrelDB.Page.Response
import MongrelDB.Tables.Body

/-!
# What a failed call shows

A call that returns another code than `MDB_OK` should leave the caller's result as
it was at entry. Both walks count what they have decoded in that result, and
take nothing back when they return early: they show nothing exactly if the first
row, or name, is not done by then (`decode_hides_iff`).
-/

namespace MongrelDB

variable {lib : Libc} {recv : Bytes} {h : Heap}

/-- Nothing is shown with another code than `MDB_OK`, and no row without its cells. -/
def PageHides (lib : Libc) (recv : Bytes) (h : Heap) : Prop :=
  ∀ c e out c' h', decodePage lib recv c h = .ok (e, out, c', h') →
    (e ≠ .ok → out.Hidden) ∧ CellsResolved out c'

/-- No names are shown with another code than `MDB_OK`. -/
def NamesHide (recv : Bytes) (h : Heap) : Prop :=
  ∀ c e out c' h', decodeNames recv c h = .ok (e, out, c', h') → e ≠ .ok → out.Hidden

theorem pageHides_iff (hsize : recv.length < SIZE_MAX) :
    PageHides lib recv h ↔ (FirstRowDone lib h recv → FullPage lib h recv) := by
  constructor
  · intro hhides hfirst
    obtain ⟨e, s, hs, ⟨_, hfull⟩ | ⟨he, hcount⟩⟩ :=
      decodePage_later (c := Scratch.freed) hsize hfirst
    · exact hfull
    · exact absurd ((hhides _ _ _ _ _ hs).1 he).2 hcount
  · intro hfull c e out c' h' hrun
    obtain ⟨e₁, s, hs, hends⟩ := decodePage_ends lib recv c h
    rw [hs] at hrun
    obtain ⟨rfl, rfl, rfl, rfl⟩ := Prod.mk.injEq .. ▸ Except.ok.inj hrun
    rcases hends with ⟨rfl, -, hres⟩ | ⟨hfail, hout | hfirst⟩
    · exact ⟨fun he => absurd rfl he, hres⟩
    · exact ⟨fun _ => hout, cellsResolved_of_none hout.2⟩
    · -- The array is complete: the call has succeeded.
      obtain ⟨l, t, hrecv, rs, w, rest, rfl, hg⟩ := hfull hfirst
      obtain ⟨⟨found, trunc⟩, htrunc, -⟩ := jsonGetBool_ends recv (.lit "truncated")
      obtain ⟨e₂, s₂, hs₂, ⟨rfl, -⟩ | ⟨-, href⟩⟩ :=
        decodePage_rows lib c h htrunc hrecv hsize
      · rw [hs] at hs₂
        exact absurd (Prod.mk.inj (Except.ok.inj hs₂)).1 hfail.ne_ok
      · exact absurd href hg.not_refused

theorem namesHide_iff (hsize : recv.length < SIZE_MAX) :
    NamesHide recv h ↔ (FirstNameDone h recv → AllNames h recv) := by
  constructor
  · intro hhides hfirst
    obtain ⟨e, s, hs, ⟨_, hall⟩ | ⟨he, hcount⟩⟩ :=
      decodeNames_later (c := NamesScratch.freed) hsize hfirst
    · exact hall
    · exact absurd (hhides _ _ _ _ _ hs he).2 hcount
  · intro hall c e out c' h' hrun he
    obtain ⟨e₁, s, hs, hends⟩ := decodeNames_ends recv c h
    rw [hs] at hrun
    obtain ⟨rfl, rfl, rfl, rfl⟩ := Prod.mk.injEq .. ▸ Except.ok.inj hrun
    rcases hends with rfl | hout | hfirst
    · exact absurd rfl he
    · exact hout
    · -- The array is complete: the call has succeeded.
      obtain ⟨t, xs, w, r, hopen, ht, hg⟩ := hall hfirst
      obtain ⟨e₂, s₂, hs₂, ⟨rfl, -⟩ | href⟩ :=
        decodeNames_text (c := c) (h := h) hopen ht hsize
      · rw [hs] at hs₂
        exact absurd (Prod.mk.inj (Except.ok.inj hs₂)).1 he
      · exact absurd href hg.not_refused

/-- The two calls leave no half-decoded result exactly if the array is complete,
    and the requests for it granted, once its first row, or name, is done. -/
theorem decode_hides_iff (lib : Libc) {recv : Bytes} (h : Heap)
    (hsize : recv.length ≤ MONGRELDB_MAX_RESPONSE_BYTES) :
    (PageHides lib recv h ↔ ¬FirstRowDone lib h recv ∨ FullPage lib h recv) ∧
      (NamesHide recv h ↔ ¬FirstNameDone h recv ∨ AllNames h recv) := by
  have hlt : recv.length < SIZE_MAX := lt_of_le_of_lt hsize (by decide)
  exact ⟨(pageHides_iff hlt).trans imp_iff_not_or, (namesHide_iff hlt).trans imp_iff_not_or⟩

/-- A response that ends behind the first row. -/
def halfRow : Bytes := ascii "\x7b\"rows\":[\x7b\x7d"

/-- A response that ends behind the first name. -/
def halfName : Bytes := ascii "[\"a\""

/-- What the two calls show, for the first of these responses. -/
theorem decode_hides_halfRow :
    (PageHides Libc.zero halfRow Heap.unlimited ↔
        ¬FirstRowDone Libc.zero Heap.unlimited halfRow ∨
          FullPage Libc.zero Heap.unlimited halfRow) ∧
      (NamesHide halfRow Heap.unlimited ↔
        ¬FirstNameDone Heap.unlimited halfRow ∨ AllNames Heap.unlimited halfRow) :=
  decode_hides_iff Libc.zero Heap.unlimited (by decide)

/-- The row, and the name, are shown with `MDB_ERR_JSON`. -/
theorem halfRow_shown :
    ¬PageHides Libc.zero halfRow Heap.unlimited ∧ ¬NamesHide halfName Heap.unlimited := by
  have hrow : (decodePage Libc.zero halfRow Scratch.freed Heap.unlimited).map
      (fun x => (x.1, x.2.1)) = .ok (.json, ⟨.array 8, 1, false⟩) := by decide +kernel
  have hname : (decodeNames halfName NamesScratch.freed Heap.unlimited).map
      (fun x => (x.1, x.2.1)) = .ok (.json, ⟨.null, 1⟩) := by decide +kernel
  constructor
  -- The run is known, and what it leaves behind contradicts `hhides`.
  · intro hhides
    cases hrun : decodePage Libc.zero halfRow Scratch.freed Heap.unlimited with
    | error f => rw [hrun] at hrow; cases hrow
    | ok x =>
      obtain ⟨e, out, c, h⟩ := x
      rw [hrun] at hrow
      obtain ⟨rfl, rfl⟩ := Prod.mk.inj (Except.ok.inj hrow)
      exact absurd ((hhides _ _ _ _ _ hrun).1 (by decide)).2 (by decide)
  · intro hhides
    cases hrun : decodeNames halfName NamesScratch.freed Heap.unlimited with
    | error f => rw [hrun] at hname; cases hname
    | ok x =>
      obtain ⟨e, out, c, h⟩ := x
      rw [hrun] at hname
      obtain ⟨rfl, rfl⟩ := Prod.mk.inj (Except.ok.inj hname)
      exact absurd (hhides _ _ _ _ _ hrun (by decide)).2 (by decide)

end MongrelDB
