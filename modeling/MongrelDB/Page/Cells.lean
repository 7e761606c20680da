import MongrelDB.Page.Steps

/-!
# Decoding the cells of a row

The pairs of a `cells` array, on the text of pairs and on an arbitrary buffer.
On the text of pairs they are added to the contents, if the allocations for
them are granted.
-/

namespace MongrelDB

open Ascii Prog

variable {H : Heap} {K : Contents} {s : PageState} {lib : Libc}
  {Q : Unit → PageState → Prop} {R : Code → PageState → Prop}

/-! ## One cell -/

/-- The arrays of cells and of offsets are filled together, and so are those of
    rows and of their starts. -/
structure Contents.Aligned (K : Contents) : Prop where
  offs : K.offs.length = K.cells.length
  starts : K.starts.length = K.rows.length

namespace Contents

@[simp] theorem growCells_cells : K.growCells.cells = K.cells := by
  rw [growCells]
  split_ifs <;> rfl

@[simp] theorem growCells_offs : K.growCells.offs = K.offs := by
  rw [growCells]
  split_ifs <;> rfl

@[simp] theorem growOffs_offs : K.growOffs.offs = K.offs := by
  rw [growOffs]
  split_ifs <;> rfl

@[simp] theorem growOffs_cells : K.growOffs.cells = K.cells := by
  rw [growOffs]
  split_ifs <;> rfl

/-- There is room for one more cell. -/
theorem growCells_lt : K.cells.length < K.growCells.cellsCap := by
  rw [growCells]
  split_ifs with h
  · exact need_le_growTo (by decide)
  · omega

/-- There is room for one more offset. -/
theorem growOffs_lt : K.offs.length < K.growOffs.offsCap := by
  rw [growOffs]
  split_ifs with h
  · exact need_le_growTo (by decide)
  · omega

@[simp] theorem growCells_blob : K.growCells.blob = K.blob := by
  rw [growCells]
  split_ifs <;> rfl

@[simp] theorem growOffs_blob : K.growOffs.blob = K.blob := by
  rw [growOffs]
  split_ifs <;> rfl

/-- The contents, but for the cells. -/
def withCells (K : Contents) (cs : List Cell) : Contents := { K with cells := cs }

/-- Making room for an offset does not depend on the cells. -/
theorem growOffs_withCells (cs : List Cell) :
    (K.withCells cs).growOffs = K.growOffs.withCells cs := by
  unfold growOffs withCells
  simp only
  split_ifs <;> rfl

/-- Nor does keeping the text of a value. -/
theorem keep_withCells (cs : List Cell) (v : Json) :
    (K.withCells cs).keep v = (K.keep v).withCells cs := by
  unfold keep withCells reserve
  split
  · rfl
  · simp only
    split_ifs <;> rfl

theorem asks_le_growCells : K.asks ≤ K.growCells.asks := by
  rw [growCells]
  split_ifs <;> simp

theorem asks_le_growOffs : K.asks ≤ K.growOffs.asks := by
  rw [growOffs]
  split_ifs <;> simp

theorem asks_le_keep (v : Json) : K.asks ≤ (K.keep v).asks := by
  unfold keep reserve
  split
  · exact Nat.le_refl _
  · simp only
    split_ifs <;> simp

/-- Keeping the text of a value only changes the buffer of strings. -/
theorem keep_eq (v : Json) :
    K.keep v = { K with blob := (K.keep v).blob, asks := (K.keep v).asks } := by
  unfold keep reserve
  split
  · rfl
  · simp only
    split_ifs <;> rfl

end Contents

section Value

variable {cs : List Cell} {x : Cell} (h : Inv H K s) (hcells : K.cells = cs ++ [x])
  (hlen : K.offs.length = cs.length) (hlt : K.offs.length < K.offsCap) (colid : Int64)
include h hcells hlen hlt

/-- The contents after the value of the cell stored last is read. -/
def Contents.setValue (lib : Libc) (cs : List Cell) (colid : Int64) (v : Json) (K : Contents) :
    Contents :=
  { K.keep v with
    cells := cs ++ [⟨colid, v.stored lib K.blob.len⟩]
    offs := K.offs ++ [v.strOff K.blob.len] }

/-- The value of the cell stored last is read. -/
theorem readValue_text {v : Json} {w : Ws} {r : Bytes}
    (hw : s.w = ⟨w.bytes ++ (v.text ++ r), true⟩) (hr : v.Stops r) {n : Nat}
    (hn : 3 * (v.text ++ r).length + 1 ≤ n) :
    wp (readValue lib n cs.length colid)
      (fun _ s' => Inv H (K.setValue lib cs colid v) s' ∧ s'.w = ⟨r, true⟩ ∧ s'.out = s.out)
      (fun e s' => e = .json ∧ s'.out = s.out ∧ (Refused H (K.keep v).asks ∨ TooLong K v)) s := by
  have hstore := (hcells ▸ h.cells : IsArray _ (cs ++ [x]) _).overwrite
  have hpush := h.offs.push hlt
  rw [hlen] at hpush
  simp only [readValue, storeCell, storeStrOff, wp_bind, wp_get, wp_modify, h.blob, hw]
  rcases parseScalar_text lib h.heap v w hr hn with ⟨h', he, hbad⟩ | ⟨h', he, ha⟩
  · obtain ⟨b₁, hb₁, -⟩ := hstore ⟨colid, .null⟩
    obtain ⟨b₂, hb₂, -⟩ := hpush NO_OFFSET
    simp only [he, hb₁, hb₂, wp_lift_ok, Bool.not_false, if_true, wp_ret]
    exact ⟨trivial, trivial, hbad⟩
  · obtain ⟨b₁, hb₁, h₁⟩ := hstore ⟨colid, v.stored lib K.blob.len⟩
    obtain ⟨b₂, hb₂, h₂⟩ := hpush (v.strOff K.blob.len)
    simp only [he, hb₁, hb₂, wp_lift_ok, Bool.not_true, Bool.false_eq_true, if_false, wp_pure]
    rw [Contents.setValue, Contents.keep_eq]
    exact ⟨{ h with cells := h₁, offs := h₂, blob := rfl, heap := ha }, trivial, trivial⟩

/-- Without the text of a value, reading one fails. -/
theorem readValue_ends (hok : s.w.ok = true) {n : Nat} (hn : 3 * s.w.p.length + 1 ≤ n) :
    wp (readValue lib n cs.length colid)
      (fun _ s' => (∃ (w : Ws) (v : Json), s.w.p = w.bytes ++ (v.text ++ s'.w.p) ∧
          v.Stops s'.w.p ∧ Inv H (K.setValue lib cs colid v) s') ∧
        s'.w.ok = true ∧ s'.out = s.out)
      (fun e s' => e = .json ∧ s'.out = s.out) s := by
  by_cases hval : ∃ r, IsValue s.w.p r
  · obtain ⟨r, w, v, hv, hr⟩ := hval
    have hw : s.w = ⟨w.bytes ++ (v.text ++ r), true⟩ := by rw [← hv, ← hok]
    refine wp_mono (readValue_text h hcells hlen hlt colid hw hr ?_)
      (fun _ s' hpost => ?_) fun e s' ⟨he, hout, _⟩ => ⟨he, hout⟩
    · rw [hv, List.length_append] at hn
      omega
    · obtain ⟨h', hw', hout⟩ := hpost
      rw [hw']
      exact ⟨⟨w, v, hv, hr, h'⟩, rfl, hout⟩
  · -- Whatever it leaves is stored before the return.
    obtain ⟨a, ha, hparse⟩ := parseScalar_ends lib hok hn K.blob s.heap
    have hfail : a.j.ok = false := by
      rw [← Bool.not_eq_true]
      exact fun h' => hval ⟨_, (hparse.sound h').2⟩
    obtain ⟨b₁, hb₁, -⟩ := (hcells ▸ h.cells : IsArray _ (cs ++ [x]) _).overwrite ⟨colid, a.v⟩
    obtain ⟨b₂, hb₂, -⟩ := h.offs.push hlt a.strOff
    rw [hlen] at hb₂
    simp only [readValue, storeCell, storeStrOff, wp_bind, wp_get, wp_modify, h.blob, ha, hb₁, hb₂,
      wp_lift_ok, hfail, Bool.not_false, if_true, wp_ret]
    exact ⟨trivial, trivial⟩

end Value

/-- A cell is read: there is room for it, or the allocation is refused. -/
theorem readCell_grow (h : Inv H K s) (hK : K.Aligned) (colid : Int64) {n : Nat}
    (hQ : ∀ s', Inv H (K.growCells.growOffs.withCells (K.cells ++ [⟨colid, .null⟩])) s' →
      SameCursor s s' → wp (readValue lib n K.cells.length colid) Q R s')
    (hR : ∀ s', s'.out = s.out → Refused H K.growCells.growOffs.asks → R .nomem s') :
    wp (readCell lib n K.cells.length colid) Q R s := by
  have hasks : K.growCells.asks ≤ K.growCells.growOffs.asks := Contents.asks_le_growOffs
  simp only [readCell, wp_bind]
  -- Room for the cell, which is null at first.
  refine wp_mono (growCells_spec h) (fun _ s₁ hgrown => ?_) fun e s' href =>
    href.1 ▸ hR s' href.2.1 (href.2.2.mono hasks)
  obtain ⟨h₁, hs₁⟩ := hgrown
  obtain ⟨b, hb, hcells⟩ := h₁.cells.push
    (by rw [Contents.growCells_cells]; exact Contents.growCells_lt) ⟨colid, .null⟩
  rw [Contents.growCells_cells] at hb hcells
  simp only [storeCell, wp_bind, wp_get, hb, wp_lift_ok, wp_modify]
  have h₂ : Inv H (K.growCells.withCells (K.cells ++ [⟨colid, .null⟩]))
      { s₁ with c := { s₁.c with cellsArr := b } } := { h₁ with cells := hcells }
  -- Room for its offset.
  have hlen : (K.growCells.withCells (K.cells ++ [⟨colid, .null⟩])).offs.length =
    K.cells.length := by
    rw [Contents.withCells, Contents.growCells_offs, hK.offs]
  have hgrow := growStrOffs_spec h₂
  rw [hlen, Contents.growOffs_withCells] at hgrow
  exact wp_mono hgrow
    (fun _ s₃ h₃ => hQ s₃ h₃.1 ⟨h₃.2.w.trans hs₁.w, h₃.2.out.trans hs₁.out⟩)
    fun e s' href => href.1 ▸ hR s' (href.2.1.trans hs₁.out) href.2.2

theorem Contents.growOffs_full (hK : K.Aligned) (x : Cell) :
    (K.growCells.growOffs.withCells (K.cells ++ [x])).offs.length = K.cells.length ∧
      K.growCells.growOffs.offs.length < K.growCells.growOffs.offsCap := by
  rw [withCells, growOffs_offs]
  exact ⟨by rw [growCells_offs, hK.offs], growOffs_lt⟩

theorem Contents.addCell_eq (colid : Int64) (v : Json) :
    K.addCell lib colid v =
      (K.growCells.growOffs.withCells (K.cells ++ [⟨colid, .null⟩])).setValue lib K.cells
        colid v := by
  have hcells : (K.growCells.growOffs.keep v).cells = K.cells := by
    rw [keep_eq, growOffs_cells, growCells_cells]
  have hoffs : (K.growCells.growOffs.keep v).offs = K.growCells.growOffs.offs := by
    rw [keep_eq]
  rw [addCell, setValue, keep_withCells, hcells, hoffs]
  rfl

/-- A cell is read from the text of its value. -/
theorem readCell_text (h : Inv H K s) (hK : K.Aligned) (colid : Int64) {v : Json} {w : Ws}
    {r : Bytes} (hw : s.w = ⟨w.bytes ++ (v.text ++ r), true⟩) (hr : v.Stops r) {n : Nat}
    (hn : 3 * (v.text ++ r).length + 1 ≤ n) :
    wp (readCell lib n K.cells.length colid)
      (fun _ s' => Inv H (K.addCell lib colid v) s' ∧ s'.w = ⟨r, true⟩ ∧ s'.out = s.out)
      (fun e s' => FailCode H e ∧ s'.out = s.out ∧
        (Refused H (K.addCell lib colid v).asks ∨ TooLong K v)) s := by
  obtain ⟨hlen, hlt⟩ := Contents.growOffs_full hK ⟨colid, .null⟩
  have hasks : K.growCells.growOffs.asks ≤ (K.addCell lib colid v).asks :=
    K.growCells.growOffs.asks_le_keep v
  refine readCell_grow h hK colid (fun s₁ h₁ hs₁ => ?_) fun s' hout href =>
    ⟨href.failCode, hout, .inl (href.mono hasks)⟩
  refine wp_mono (readValue_text h₁ rfl hlen hlt colid (hs₁.w.trans hw) hr hn)
    (fun _ s' ⟨h', hw', hout⟩ => ⟨?_, hw', hout.trans hs₁.out⟩) fun e s' ⟨he, hout, hbad⟩ =>
    ⟨.inl he, hout.trans hs₁.out, ?_⟩
  · rw [Contents.addCell_eq]
    exact h'
  · rw [Contents.keep_withCells] at hbad
    exact hbad.imp id fun hl => by simpa [TooLong, Contents.withCells] using hl

/-- A cell is read only if the text of a value stands there. -/
theorem readCell_ends (h : Inv H K s) (hK : K.Aligned) (colid : Int64) (hok : s.w.ok = true)
    {n : Nat} (hn : 3 * s.w.p.length + 1 ≤ n) :
    wp (readCell lib n K.cells.length colid)
      (fun _ s' => (∃ (w : Ws) (v : Json), s.w.p = w.bytes ++ (v.text ++ s'.w.p) ∧
          v.Stops s'.w.p ∧ Inv H (K.addCell lib colid v) s') ∧
        s'.w.ok = true ∧ s'.out = s.out)
      (fun e s' => FailCode H e ∧ s'.out = s.out) s := by
  obtain ⟨hlen, hlt⟩ := Contents.growOffs_full hK ⟨colid, .null⟩
  refine readCell_grow h hK colid (fun s₁ h₁ hs₁ => ?_) fun s' hout href => ⟨href.failCode, hout⟩
  refine wp_mono (readValue_ends h₁ rfl hlen hlt colid (hs₁.w ▸ hok) (hs₁.w ▸ hn))
    (fun _ s' hpost => ?_) fun e s' ⟨he, hout⟩ =>
    ⟨.inl he, hout.trans hs₁.out⟩
  obtain ⟨⟨w, v, hv, hr, h'⟩, hok', hout⟩ := hpost
  refine ⟨⟨w, v, hs₁.w ▸ hv, hr, ?_⟩, hok', hout.trans hs₁.out⟩
  rw [Contents.addCell_eq]
  exact h'

/-! ## One pair -/

theorem not_isNumberChar_of_startsValue : ∀ c, startsValue c = true → startsNumber c = false →
    isNumberChar c = false :=
  forall_byte (by decide)

theorem startsValue_ne_comma : ∀ c, startsValue c = true → c ≠ comma := forall_byte (by decide)

/-- What follows the id of a pair is no part of it. -/
theorem Pair.stops (p : Pair) (r : Bytes) :
    StopsAt isNumberChar (p.mid.bytes ++ (sepText p.sep ++ (p.val.text ++ r))) := by
  obtain ⟨pre, id, ⟨mid, hmid⟩, sep, val, wf⟩ := p
  cases mid with
  | cons c m =>
    rw [List.all_cons, Bool.and_eq_true] at hmid
    have hdelim := isDelim_of_isWs c hmid.1
    rw [isDelim, Bool.and_eq_true, Bool.not_eq_true'] at hdelim
    exact stopsAt_cons hdelim.1 _
  | nil =>
  cases sep with
  | some w => exact stopsAt_cons (by decide) _
  | none =>
  obtain ⟨c, t, ht, hc⟩ := val.text_starts
  have hnum := val.isNum_iff_head
  rw [ht, wf rfl rfl, List.head?_cons, Option.any_some] at hnum
  simp only [sepText, List.nil_append, ht, List.cons_append]
  exact stopsAt_cons (not_isNumberChar_of_startsValue c hc hnum) _

/-- A pair is read from its text, up to what follows its value. -/
theorem readPair_text (h : Inv H K s) (hK : K.Aligned) (p : Pair) {r : Bytes}
    (hw : s.w = ⟨p.text ++ r, true⟩) (hr : p.val.Stops r) {n : Nat}
    (hn : 3 * (p.text ++ r).length + 1 ≤ n) :
    wp (readPair lib n K.cells.length)
      (fun _ s' => Inv H (K.addPair lib p) s' ∧ s'.w = ⟨r, true⟩ ∧ s'.out = s.out)
      (fun e s' => FailCode H e ∧ s'.out = s.out ∧
        (Refused H (K.addPair lib p).asks ∨ TooLong K p.val)) s := by
  obtain ⟨c, t, ht, hc⟩ := Json.num_head p.id
  have hws := not_isWs_of_startsNumber c hc
  have htext : p.text ++ r = p.pre.bytes ++ (p.id.text ++ (p.mid.bytes ++
      (sepText p.sep ++ (p.val.text ++ r)))) := by
    simp [Pair.text]
  have hpeek : jpPeek s.w = (some c, ⟨p.id.text ++ (p.mid.bytes ++
      (sepText p.sep ++ (p.val.text ++ r))), true⟩) := by
    rw [hw, htext, ht, List.cons_append, jpPeek_ws p.pre hws]
  simp only [readPair, wp_bind, wp_peek, hpeek, Option.any_some, hc, Bool.not_true,
    Bool.false_eq_true, if_false, wp_get]
  refine wp_parse (P := fun j => j = ⟨p.mid.bytes ++ (sepText p.sep ++ (p.val.text ++ r)), true⟩)
    (Ends.ok (jpNumber_tok p.id (p.stops r) true)) (fun j hj _ => ?_) fun j hj hok => ?_
  · subst hj
    simp only [toSize_span, wp_lift_ok, slice_clip]
    have hlen : 3 * (p.val.text ++ r).length + 1 ≤ n := by
      rw [htext] at hn
      simp only [List.length_append] at hn ⊢
      omega
    -- The comma between the column id and the value is optional.
    cases hsep : p.sep with
    | some w =>
      simp only [sepText, List.cons_append,
        jpPeek_ws p.mid (show isWs comma = false by rfl), if_true,
        wp_bind]
      refine wp_advance rfl ?_
      exact readCell_text (h.move _) hK _ rfl hr hlen
    | none =>
      obtain ⟨d, u, -, hd, hpeek'⟩ := jpPeek_value p.mid p.val r true
      simp only [sepText, List.nil_append, hpeek', Option.some.injEq, startsValue_ne_comma d hd,
        if_false]
      exact readCell_text (h.move _) hK _ (w := Ws.none) rfl hr hlen
  · subst hj
    exact absurd hok Bool.true_eq_false.mp

/-- A pair is read only if the text of one stands there. -/
theorem readPair_ends (h : Inv H K s) (hK : K.Aligned) {n : Nat}
    (hn : 3 * s.w.p.length + 1 ≤ n) :
    wp (readPair lib n K.cells.length)
      (fun _ s' => (∃ p : Pair, s.w.p = p.text ++ s'.w.p ∧ p.val.Stops s'.w.p ∧
          Inv H (K.addPair lib p) s') ∧ s'.w.ok = true ∧ s'.out = s.out)
      (fun e s' => FailCode H e ∧ s'.out = s.out) s := by
  obtain ⟨pre, r, hs, hpeek⟩ := jpPeek_spec s.w
  simp only [readPair, wp_bind, wp_peek, hpeek, wp_ite, wp_ret, wp_get]
  refine ⟨fun _ => ⟨FailCode.json, trivial⟩, fun hnum => ?_⟩
  obtain ⟨c, r, rfl⟩ : ∃ c t, r = c :: t := by
    cases r with
    | nil => simp at hnum
    | cons c t => exact ⟨c, t, rfl⟩
  have hc : startsNumber c = true := by simpa using hnum
  refine wp_parse (Ends.ok (jpNumber_spec hc r s.w.ok)) (fun j hj hokj => ?_) fun j _ _ =>
    ⟨FailCode.json, rfl⟩
  obtain ⟨-, id, hid, hstop⟩ := hj.sound hokj
  change c :: r = _ at hid
  obtain ⟨mid, t, hmid, hpeek₂⟩ := jpPeek_spec j
  have hlen : 3 * t.length + 1 ≤ n := by
    rw [hs, hid, hmid] at hn
    simp only [List.length_append] at hn
    omega
  rw [hid]
  simp only [toSize_span, wp_lift_ok, slice_clip, hpeek₂]
  refine ⟨fun hcomma => ?_, fun _ => ?_⟩
  · obtain ⟨u, rfl⟩ : ∃ u, t = comma :: u := by
      cases t with
      | nil => simp at hcomma
      | cons d u => exact ⟨u, by rw [Option.some.inj hcomma]⟩
    refine wp_advance rfl (wp_mono (readCell_ends (h.move ⟨u, j.ok⟩) hK _ hokj ?_)
      (fun _ s' hends => ?_) fun e s' h' => h')
    · rw [List.length_cons] at hlen
      simp only
      omega
    · obtain ⟨⟨w, v, hv, hr, h'⟩, hok', hout⟩ := hends
      change u = _ at hv
      refine ⟨⟨⟨pre, id, mid, some w, v, fun h => by simp at h⟩, ?_, hr, h'⟩, hok', hout⟩
      simp [Pair.text, sepText, hs, hid, hmid, hv]
  · refine wp_mono (readCell_ends (h.move ⟨t, j.ok⟩) hK _ hokj hlen)
      (fun _ s' hends => ?_) fun e s' h' => h'
    obtain ⟨⟨w, v, hv, hr, h'⟩, hok', hout⟩ := hends
    change t = _ at hv
    refine ⟨⟨⟨pre, id, mid.append w, none, v, fun _ hnil => ?_⟩, ?_, hr, h'⟩, hok', hout⟩
    · -- Right behind the id, a number would be a part of it.
      obtain ⟨hm, hw⟩ := List.append_eq_nil_iff.1 hnil
      cases v with
      | num t =>
        obtain ⟨d, u, ht, hd⟩ := Json.num_head t
        rw [hmid, hm, hv, hw, Json.text, ht] at hstop
        have := hstop d (by simp)
        rw [isNumberChar_of_startsNumber d hd] at this
        exact absurd this (by decide)
      | _ => rfl
    · simp [Pair.text, sepText, Ws.append, hs, hid, hmid, hv]

/-! ## The pairs of an array -/

namespace Contents

variable (lib K)

theorem addCell_cells (colid : Int64) (v : Json) :
    (K.addCell lib colid v).cells = K.cells ++ [⟨colid, v.stored lib K.blob.len⟩] := by
  rw [addCell, keep_eq]
  simp

theorem addCell_offs (colid : Int64) (v : Json) :
    (K.addCell lib colid v).offs = K.offs ++ [v.strOff K.blob.len] := by
  rw [addCell, keep_eq]
  simp

theorem addCell_rows (colid : Int64) (v : Json) : (K.addCell lib colid v).rows = K.rows := by
  rw [addCell, keep_eq]
  rw [growOffs, growCells]
  split_ifs <;> rfl

theorem addCell_rowsCap (colid : Int64) (v : Json) :
    (K.addCell lib colid v).rowsCap = K.rowsCap := by
  rw [addCell, keep_eq]
  rw [growOffs, growCells]
  split_ifs <;> rfl

theorem addCell_starts (colid : Int64) (v : Json) : (K.addCell lib colid v).starts = K.starts := by
  rw [addCell, keep_eq]
  rw [growOffs, growCells]
  split_ifs <;> rfl

theorem asks_le_addCell (colid : Int64) (v : Json) : K.asks ≤ (K.addCell lib colid v).asks :=
  asks_le_growCells.trans (asks_le_growOffs.trans (asks_le_keep v))

/-- The buffer of strings grows by no more than the text of a value and a NUL. -/
theorem keep_blob_le (v : Json) : (K.keep v).blob.len ≤ K.blob.len + v.text.length + 1 := by
  rw [keep]
  split
  · omega
  · rename_i len bytes hk
    have := Json.kept?_le hk
    have hdata : (K.reserve len).blob.data = K.blob.data := by
      rw [reserve]
      simp only
      split_ifs <;> rfl
    simp only [Sbuf.len, List.length_append, hdata, List.length_singleton]
    omega

variable {lib K}

theorem Aligned.addCell (h : K.Aligned) (colid : Int64) (v : Json) :
    (K.addCell lib colid v).Aligned := by
  constructor
  · rw [addCell_offs, addCell_cells, List.length_append, List.length_append, h.offs]
    rfl
  · rw [addCell_starts, addCell_rows, h.starts]

end Contents

/-- What the pairs `ps` leave in the contents. -/
abbrev Contents.addPairs (lib : Libc) (K : Contents) (ps : List Pair) : Contents :=
  ps.foldl (Contents.addPair lib) K

namespace Contents

theorem asks_le_addPairs (ps : List Pair) : K.asks ≤ (K.addPairs lib ps).asks := by
  induction ps generalizing K with
  | nil => exact Nat.le_refl _
  | cons p ps ih => exact (asks_le_addCell K lib _ p.val).trans ih

theorem Aligned.addPairs (h : K.Aligned) (ps : List Pair) : (K.addPairs lib ps).Aligned := by
  induction ps generalizing K with
  | nil => exact h
  | cons p ps ih => exact ih (h.addCell _ p.val)

theorem length_addPairs (ps : List Pair) :
    (K.addPairs lib ps).cells.length = K.cells.length + ps.length := by
  induction ps generalizing K with
  | nil => rfl
  | cons p ps ih =>
    rw [addPairs, List.foldl_cons, ← addPairs, ih, addPair, addCell_cells, List.length_append,
      List.length_singleton, List.length_cons]
    omega

theorem addPairs_rows (ps : List Pair) : (K.addPairs lib ps).rows = K.rows := by
  induction ps generalizing K with
  | nil => rfl
  | cons p ps ih => rw [addPairs, List.foldl_cons, ← addPairs, ih, addPair, addCell_rows]

theorem addPairs_starts (ps : List Pair) : (K.addPairs lib ps).starts = K.starts := by
  induction ps generalizing K with
  | nil => rfl
  | cons p ps ih => rw [addPairs, List.foldl_cons, ← addPairs, ih, addPair, addCell_starts]

theorem addPairs_rowsCap (ps : List Pair) : (K.addPairs lib ps).rowsCap = K.rowsCap := by
  induction ps generalizing K with
  | nil => rfl
  | cons p ps ih => rw [addPairs, List.foldl_cons, ← addPairs, ih, addPair, addCell_rowsCap]

/-- The buffer of strings grows by no more than the text of a pair. -/
theorem addPair_blob_le (p : Pair) : (K.addPair lib p).blob.len ≤ K.blob.len + p.text.length := by
  have hle := keep_blob_le K.growCells.growOffs p.val
  obtain ⟨c, t, ht, -⟩ := Json.num_head p.id
  rw [growOffs_blob, growCells_blob] at hle
  simp only [Pair.text, ht, List.length_append, List.length_cons]
  refine hle.trans ?_
  omega

end Contents

/-- The counters of the loops, in a row whose cells begin with the cell `start`. -/
structure Counts (start : Nat) (K : Contents) (k : Counters) : Prop where
  total : k.total = K.cells.length
  inRow : start + k.inRow = K.cells.length
  global : k.global = K.cells.length

/-- The state in a row whose cells begin with the cell `start`: nothing of it is
    shown to the caller. -/
structure InRow (H : Heap) (start : Nat) (out : PageResult) (K : Contents) (k : Counters)
    (s : PageState) : Prop where
  inv : Inv H K s
  aligned : K.Aligned
  counts : Counts start K k
  out : s.out = out

/-- The buffer of strings has room for whatever the rest of the response holds. -/
def Roomy (K : Contents) (s : PageState) : Prop := K.blob.len + s.w.p.length + 1 < SIZE_MAX

theorem Roomy.move {w : JsonParser} (h : Roomy K s) (hle : w.p.length ≤ s.w.p.length) :
    Roomy K { s with w := w } := by
  rw [Roomy] at h ⊢
  simp only
  omega

theorem InRow.move {start : Nat} {out : PageResult} {k : Counters} (h : InRow H start out K k s)
    (w : JsonParser) : InRow H start out K k { s with w := w } :=
  ⟨h.inv.move w, h.aligned, h.counts, h.out⟩

/-- How a part of the walk may return on a text it accepts: an allocation was refused. -/
def OnlyRefused (H : Heap) (out : PageResult) (K : Contents) (e : Code) (s : PageState) : Prop :=
  FailCode H e ∧ s.out = out ∧ Refused H K.asks

/-- How a part of the walk may return: with nothing more shown to the caller. -/
def Fails (H : Heap) (out : PageResult) (e : Code) (s : PageState) : Prop :=
  FailCode H e ∧ s.out = out

variable {start : Nat} {out : PageResult} {k : Counters}

/-- A pair is added to the counters. -/
theorem Counts.addPair (h : Counts start K k) (p : Pair) :
    Counts start (K.addPair lib p) ⟨K.cells.length + 1, k.inRow + 1, K.cells.length + 1⟩ := by
  have hlen : (K.addPair lib p).cells.length = K.cells.length + 1 := by
    rw [Contents.addPair, Contents.addCell_cells, List.length_append, List.length_singleton]
  exact ⟨hlen.symm, by have := h.inRow; rw [hlen]; simp only; omega, hlen.symm⟩

/-- A pair is counted, on its text. -/
theorem countPair_text (h : InRow H start out K k s ∧ Roomy K s) (p : Pair) {r : Bytes}
    (hw : s.w = ⟨p.text ++ r, true⟩) (hr : p.val.Stops r) {n : Nat}
    (hn : 3 * s.w.p.length + 1 ≤ n) :
    wp (countPair lib n k)
      (fun k' s' => (InRow H start out (K.addPair lib p) k' s' ∧ Roomy (K.addPair lib p) s') ∧
        s'.w = ⟨r, true⟩)
      (OnlyRefused H out (K.addPair lib p)) s := by
  obtain ⟨h, hroom⟩ := h
  rw [Roomy, hw, List.length_append] at hroom
  rw [hw] at hn
  have hblob : (K.addPair lib p).blob.len ≤ _ := Contents.addPair_blob_le p
  simp only [countPair, wp_bind, wp_pure, h.counts.total]
  refine wp_mono (readPair_text h.inv h.aligned p hw hr hn)
    (fun _ s' hends => ?_) fun e s' hends => ?_
  · obtain ⟨h', hw', hout⟩ := hends
    refine ⟨⟨⟨h', h.aligned.addCell _ _, h.counts.addPair p, hout.trans h.out⟩, ?_⟩, hw'⟩
    rw [Roomy, hw']
    simp only
    omega
  · obtain ⟨he, hout, hbad⟩ := hends
    refine ⟨he, hout.trans h.out, hbad.resolve_right fun hlong => ?_⟩
    have hval : p.val.text.length ≤ p.text.length := by
      simp only [Pair.text, List.length_append]
      omega
    rw [TooLong] at hlong
    omega

/-- A pair is counted, on an arbitrary buffer. -/
theorem countPair_ends (h : InRow H start out K k s) {n : Nat} (hn : 3 * s.w.p.length + 1 ≤ n) :
    wp (countPair lib n k)
      (fun k' s' => (∃ p : Pair, s.w.p = p.text ++ s'.w.p ∧
        InRow H start out (K.addPair lib p) k' s') ∧ s'.w.ok = true) (Fails H out) s := by
  simp only [countPair, wp_bind, wp_pure, h.counts.total]
  refine wp_mono (readPair_ends h.inv h.aligned hn) (fun _ s' hends => ?_)
    fun e s' hends => hends.imp_right (Eq.trans · h.out)
  obtain ⟨⟨p, hp, -, h'⟩, hok, hout⟩ := hends
  exact ⟨⟨p, hp, h', h.aligned.addCell _ _, h.counts.addPair p, hout.trans h.out⟩, hok⟩

theorem OnlyRefused.addPair {e : Code} (h : OnlyRefused H out K e s) (p : Pair) :
    OnlyRefused H out (K.addPair lib p) e s :=
  ⟨h.1, h.2.1, h.2.2.mono (K.asks_le_addCell lib _ p.val)⟩

/-- The loop over pairs, on the text of pairs. -/
theorem cellsLoop_text {ps : List (Pair × Ws)} (hne : ps ≠ []) (h : InRow H start out K k s)
    (hroom : Roomy K s) {w : Ws} {r : Bytes}
    (hw : s.w = ⟨spacedText Pair.text ps ++ (w.bytes ++ rbrack :: r), true⟩) {n : Nat}
    (hn : 3 * s.w.p.length + 2 ≤ n) :
    wp (cellsLoop lib n k)
      (fun k' s' => (InRow H start out (K.addPairs lib (ps.map Prod.fst)) k' s' ∧
        Roomy (K.addPairs lib (ps.map Prod.fst)) s') ∧ s'.w = ⟨r, true⟩)
      (OnlyRefused H out (K.addPairs lib (ps.map Prod.fst))) s :=
  commaLoop_text (fun p r => p.val.Stops r) (P := fun K k s => InRow H start out K k s ∧ Roomy K s)
    ⟨by decide, by decide, by decide⟩
    (fun p w _ r hc => p.val.stops_ws w hc r)
    (fun _ _ _ w h hle => ⟨h.1.move w, h.2.move hle⟩) (fun _ p _ _ h => h.addPair p)
    (fun p _ _ _ _ _ h hw hr hn => countPair_text h p hw hr hn) hne ⟨h, hroom⟩ hw hn

/-- The loop over pairs, on an arbitrary buffer. -/
theorem cellsLoop_ends (h : InRow H start out K k s) (hok : s.w.ok = true) {n : Nat}
    (hn : 3 * s.w.p.length + 2 ≤ n) :
    wp (cellsLoop lib n k)
      (fun k' s' => (∃ (p : Pair × Ws) (ps : List (Pair × Ws)) (r : Bytes),
          s.w.p = spacedText Pair.text (p :: ps) ++ rbrack :: r ∧
          InRow H start out (K.addPairs lib ((p :: ps).map Prod.fst)) k' s' ∧ s'.w.p = r) ∧
        s'.w.ok = true)
      (Fails H out) s :=
  commaLoop_ends (P := InRow H start out) (fun _ _ _ w h _ => h.move w)
    (fun _ _ _ _ h => ⟨FailCode.json, h.out⟩) (fun _ _ _ _ h _ hn => countPair_ends h hn) h hok hn

end MongrelDB
