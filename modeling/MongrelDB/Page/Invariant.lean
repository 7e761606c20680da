import MongrelDB.Page.Layout
import MongrelDB.Parser.Sound

/-!
# The invariant of the decoding

While a page is decoded, the five arrays hold the contents the layout read so far
asks for, and every allocation made so far was granted (`Inv`). The steps that
do not move the cursor keep it: each either makes room and writes, as the
contents say, or returns because an allocation was refused.
-/

namespace MongrelDB

open Ascii Prog

/-- The codes the walk returns: out of memory only if the heap refuses something. -/
def FailCode (H : Heap) (e : Code) : Prop := e = .json ∨ e = .nomem ∧ ¬H.Succeeds

theorem FailCode.json {H : Heap} : FailCode H .json := .inl rfl

theorem FailCode.ne_ok {H : Heap} {e : Code} (h : FailCode H e) : e ≠ .ok := by
  rcases h with rfl | ⟨rfl, -⟩ <;> decide

theorem Refused.failCode {H : Heap} {k : Nat} (h : Refused H k) : FailCode H .nomem :=
  .inr ⟨rfl, h.not_succeeds⟩

/-- The state holds the contents `K`, which took allocations from the heap `H`. -/
structure Inv (H : Heap) (K : Contents) (s : PageState) : Prop where
  cells : IsArray s.c.cellsArr K.cells K.cellsCap
  cellsCap : s.c.cellsCap = K.cellsCap
  offs : IsArray s.c.cellStrOffs K.offs K.offsCap
  offsCap : s.c.cellStrOffsCap = K.offsCap
  blob : s.c.valuesBlob = K.blob
  rows : IsArray s.c.rowsArr K.rows K.rowsCap
  rowsCap : s.c.rowsCap = K.rowsCap
  starts : IsArray s.c.rowCellStarts K.starts K.startsCap
  startsCap : s.c.rowCellStartsCap = K.startsCap
  heap : After H K.asks s.heap

/-- Only the buffers and the heap have changed. -/
structure SameCursor (s s' : PageState) : Prop where
  w : s'.w = s.w
  out : s'.out = s.out

variable {H : Heap} {K : Contents} {s : PageState}

/-! ## Growing -/

theorem le_doubleTo {need : Nat} : ∀ {n c : Nat}, need ≤ c * 2 ^ n → need ≤ doubleTo need n c
  | 0, c, h => by simpa [doubleTo] using h
  | n + 1, c, h => by
    rw [doubleTo]
    split_ifs with hc
    · exact le_doubleTo (by rw [pow_succ] at h; linarith)
    · exact Nat.le_of_not_lt hc

/-- An array grows to what is needed. -/
theorem need_le_growTo {start need cap : Nat} (hs : start ≠ 0) : need ≤ growTo start need cap := by
  have hpos : (if cap ≠ 0 then cap * 2 else start) ≠ 0 := by split_ifs <;> omega
  exact le_doubleTo <| calc
    need ≤ 2 ^ need := Nat.lt_two_pow_self.le
    _ ≤ _ := Nat.le_mul_of_pos_left _ (Nat.pos_of_ne_zero hpos)

/-- A `realloc` is granted, or the function returns. -/
theorem reallocate_spec (h : Inv H K s) (ncap size : Nat) {Q : Unit → PageState → Prop}
    {R : Code → PageState → Prop}
    (hQ : ∀ h', After H (K.asks + 1) h' → Q () { s with heap := h' })
    (hR : ∀ h', Refused H (K.asks + 1) → R .nomem { s with heap := h' }) :
    wp (reallocate ncap size) Q R s := by
  simp only [reallocate, wp_bind, wp_get, wp_modify, wp_ite, wp_ret, wp_pure]
  rcases h.heap.request (ncap * size) with ⟨hg, ha⟩ | ⟨hg, hr⟩
  · exact ⟨fun hn => absurd hg (by simpa using hn), fun _ => hQ _ ha⟩
  · exact ⟨fun _ => hR _ hr, fun hn => absurd hg (by simpa using hn)⟩

/-- What a step that makes room does: it grows one array, or returns because the
    allocation was refused. -/
def Grows (H : Heap) (x : Decode Unit) (s : PageState) (K' : Contents) : Prop :=
  wp x (fun _ s' => Inv H K' s' ∧ SameCursor s s')
    (fun e s' => e = .nomem ∧ s'.out = s.out ∧ Refused H K'.asks) s

theorem growCells_spec (h : Inv H K s) :
    Grows H (growCells K.cells.length) s K.growCells := by
  simp only [Grows, growCells, wp_bind, wp_get, wp_ite, wp_pure, h.cellsCap, Contents.growCells]
  refine ⟨fun hlt => ?_, fun hge => ?_⟩
  · rw [if_pos hlt]
    refine reallocate_spec h _ _ (fun h' ha => ?_) fun h' hr => ⟨rfl, rfl, hr⟩
    refine ⟨{ h with heap := ha, cellsCap := rfl, cells := h.cells.realloc ?_ }, rfl, rfl⟩
    have hle : K.cells.length + 1 ≤ growTo 16 (K.cells.length + 1) K.cellsCap :=
      need_le_growTo (by decide)
    omega
  · rw [if_neg hge]
    exact ⟨h, rfl, rfl⟩

theorem growStrOffs_spec (h : Inv H K s) :
    Grows H (growStrOffs K.offs.length) s K.growOffs := by
  simp only [Grows, growStrOffs, wp_bind, wp_get, wp_ite, wp_pure, h.offsCap, Contents.growOffs]
  refine ⟨fun hlt => ?_, fun hge => ?_⟩
  · rw [if_pos hlt]
    refine reallocate_spec h _ _ (fun h' ha => ?_) fun h' hr => ⟨rfl, rfl, hr⟩
    refine ⟨{ h with heap := ha, offsCap := rfl, offs := h.offs.realloc ?_ }, rfl, rfl⟩
    have hle : K.offs.length + 1 ≤ growTo 16 (K.offs.length + 1) K.offsCap :=
      need_le_growTo (by decide)
    omega
  · rw [if_neg hge]
    exact ⟨h, rfl, rfl⟩

theorem growRows_spec (h : Inv H K s) : Grows H (growRows K.rows.length) s K.growRows := by
  simp only [Grows, growRows, wp_bind, wp_get, wp_ite, wp_pure, h.rowsCap, Contents.growRows]
  refine ⟨fun heq => ?_, fun hne => ?_⟩
  · rw [if_pos heq]
    refine reallocate_spec h _ _ (fun h' ha => ?_) fun h' hr => ⟨rfl, rfl, hr⟩
    refine ⟨{ h with heap := ha, rowsCap := rfl, rows := h.rows.realloc ?_ }, rfl, rfl⟩
    split_ifs <;> omega
  · rw [if_neg hne]
    exact ⟨h, rfl, rfl⟩

theorem growStarts_spec (h : Inv H K s) : Grows H (growStarts K.starts.length) s K.growStarts := by
  simp only [Grows, growStarts, wp_bind, wp_get, wp_ite, wp_pure, h.startsCap, Contents.growStarts]
  refine ⟨fun heq => ?_, fun hne => ?_⟩
  · rw [if_pos heq]
    refine reallocate_spec h _ _ (fun h' ha => ?_) fun h' hr => ⟨rfl, rfl, hr⟩
    refine ⟨{ h with heap := ha, startsCap := rfl, starts := h.starts.realloc ?_ }, rfl, rfl⟩
    have hle : K.starts.length + 1 ≤ growTo 8 (K.starts.length + 1) K.startsCap :=
      need_le_growTo (by decide)
    omega
  · rw [if_neg hne]
    exact ⟨h, rfl, rfl⟩

end MongrelDB
