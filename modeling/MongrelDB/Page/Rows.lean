import MongrelDB.Page.Members

/-!
# Decoding the rows

The rows of the array, on their text and on an arbitrary buffer: each is read
and recorded, and is shown to the caller from then on.
-/

namespace MongrelDB

open Ascii Prog

variable {H : Heap} {K : Contents} {s : PageState} {lib : Libc} {trunc : Bool} {g : Nat}

/-! ## Between rows -/

/-- What the caller's result shows: the rows recorded so far. -/
def Contents.shown (trunc : Bool) (K : Contents) : PageResult :=
  ⟨if K.rows = [] then .null else .array K.rowsCap, K.rows.length, trunc⟩

/-- The contents between two rows: every cell is one of a recorded row. -/
structure Contents.Whole (K : Contents) : Prop extends K.Aligned where
  sum : (K.rows.map Row.count).sum = K.cells.length

/-- The state between two rows. -/
structure Between (H : Heap) (trunc : Bool) (K : Contents) (g : Nat) (s : PageState) : Prop where
  inv : Inv H K s
  whole : K.Whole
  global : g = K.cells.length
  out : s.out = K.shown trunc

theorem Between.move (h : Between H trunc K g s) (w : JsonParser) :
    Between H trunc K g { s with w := w } :=
  ⟨h.inv.move w, h.whole, h.global, h.out⟩

/-- The sum of the counts of the rows recorded so far. -/
theorem sumCounts_rows {b : Block Row} {cap : Nat} {rows : List Row} (h : IsArray b rows cap) :
    sumCounts b rows.length = .ok (rows.map Row.count).sum := by
  have hpart : ∀ n ≤ rows.length, sumCounts b n = .ok ((rows.take n).map Row.count).sum := by
    intro n
    induction n with
    | zero => exact fun _ => rfl
    | succ n ih =>
      intro hn
      rw [sumCounts, ih (by omega), Run.ok_bind, h.load (by omega), Run.ok_bind, Run.pure_eq,
        ← List.take_append_getElem (by omega : n < rows.length), List.map_append, List.sum_append,
        List.map_singleton, List.sum_singleton]
  rw [hpart _ (Nat.le_refl _), List.take_length]

/-! ## Recording -/

namespace Contents

theorem growRows_asks : K.asks ≤ K.growRows.asks := by
  rw [growRows]
  split_ifs <;> simp

theorem growStarts_asks : K.asks ≤ K.growStarts.asks := by
  rw [growStarts]
  split_ifs <;> simp

@[simp] theorem growRows_rows : K.growRows.rows = K.rows := by
  rw [growRows]
  split_ifs <;> rfl

@[simp] theorem growRows_starts : K.growRows.starts = K.starts := by
  rw [growRows]
  split_ifs <;> rfl

@[simp] theorem growStarts_rows : K.growStarts.rows = K.rows := by
  rw [growStarts]
  split_ifs <;> rfl

@[simp] theorem growStarts_rowsCap : K.growStarts.rowsCap = K.rowsCap := by
  rw [growStarts]
  split_ifs <;> rfl

@[simp] theorem growStarts_starts : K.growStarts.starts = K.starts := by
  rw [growStarts]
  split_ifs <;> rfl

@[simp] theorem growRows_cells : K.growRows.cells = K.cells := by
  rw [growRows]
  split_ifs <;> rfl

@[simp] theorem growRows_offs : K.growRows.offs = K.offs := by
  rw [growRows]
  split_ifs <;> rfl

@[simp] theorem growRows_blob : K.growRows.blob = K.blob := by
  rw [growRows]
  split_ifs <;> rfl

@[simp] theorem growStarts_cells : K.growStarts.cells = K.cells := by
  rw [growStarts]
  split_ifs <;> rfl

@[simp] theorem growStarts_offs : K.growStarts.offs = K.offs := by
  rw [growStarts]
  split_ifs <;> rfl

@[simp] theorem growStarts_blob : K.growStarts.blob = K.blob := by
  rw [growStarts]
  split_ifs <;> rfl

/-- There is room for one more row. -/
theorem growRows_lt (h : K.rows.length ≤ K.rowsCap) : K.rows.length < K.growRows.rowsCap := by
  rw [growRows]
  split_ifs with heq hcap
  · simp only
    omega
  · simp only
    omega
  · omega

/-- There is room for one more start. -/
theorem growStarts_lt (h : K.starts.length ≤ K.startsCap) :
    K.starts.length < K.growStarts.startsCap := by
  rw [growStarts]
  split_ifs with heq
  · exact need_le_growTo (by decide)
  · omega

@[simp] theorem record_cells (start inRow : Nat) : (K.record start inRow).cells = K.cells := by
  rw [record, growStarts_cells, growRows_cells]

@[simp] theorem record_offs (start inRow : Nat) : (K.record start inRow).offs = K.offs := by
  rw [record, growStarts_offs, growRows_offs]

@[simp] theorem record_blob (start inRow : Nat) : (K.record start inRow).blob = K.blob := by
  rw [record, growStarts_blob, growRows_blob]

theorem record_rows (start inRow : Nat) :
    (K.record start inRow).rows = K.rows ++ [⟨.unset, inRow⟩] := by
  rw [record, growStarts_rows, growRows_rows]

theorem record_starts (start inRow : Nat) :
    (K.record start inRow).starts = K.starts ++ [start] := by
  rw [record, growStarts_starts, growRows_starts]

/-- A row keeps the contents whole. -/
theorem Whole.addRow (h : K.Whole) (r : RowText) : (K.addRow lib r).Whole := by
  have hpairs : (K.addPairs lib r.pairs).Aligned := h.toAligned.addPairs r.pairs
  refine ⟨⟨?_, ?_⟩, ?_⟩
  · rw [Contents.addRow, record_offs, record_cells, hpairs.offs]
  · rw [Contents.addRow, record_starts, record_rows, List.length_append, List.length_append,
      hpairs.starts]
    rfl
  · rw [Contents.addRow, record_rows, record_cells, addPairs_rows, length_addPairs, List.map_append,
      List.sum_append, h.sum]
    rfl

theorem asks_le_record (start inRow : Nat) : K.asks ≤ (K.record start inRow).asks :=
  growRows_asks.trans growStarts_asks

end Contents

/-- A row is recorded, or an allocation for it is refused. -/
theorem recordRow_spec (h : Inv H K s) (hK : K.Aligned) (hout : s.out = K.shown trunc)
    (start inRow : Nat) :
    wp (recordRow start inRow)
      (fun _ s' => Inv H (K.record start inRow) s' ∧ s'.w = s.w ∧
        s'.out = (K.record start inRow).shown trunc)
      (fun e s' => e = .nomem ∧ s'.out = s.out ∧ Refused H (K.record start inRow).asks) s := by
  have hcount : s.out.count = K.rows.length := by rw [hout, Contents.shown]
  simp only [recordRow, wp_bind, wp_get, hcount]
  refine wp_mono (growRows_spec h) (fun _ s₁ hgrown => ?_) fun e s' h' =>
    ⟨h'.1, h'.2.1, h'.2.2.mono Contents.growStarts_asks⟩
  obtain ⟨h₁, hs₁⟩ := hgrown
  have hgrow := growStarts_spec h₁
  rw [Contents.growRows_starts, hK.starts] at hgrow
  refine wp_mono hgrow (fun _ s₂ hgrown => ?_) fun e s' h' =>
    ⟨h'.1, h'.2.1.trans hs₁.out, h'.2.2⟩
  obtain ⟨h₂, hs₂⟩ := hgrown
  obtain ⟨b₁, hb₁, hstarts⟩ := h₂.starts.push (by
    rw [Contents.growStarts_starts]
    exact Contents.growStarts_lt h₁.starts.length_le) start
  obtain ⟨b₂, hb₂, hrows⟩ := h₂.rows.push (by
    rw [Contents.growStarts_rows, Contents.growStarts_rowsCap, Contents.growRows_rows]
    exact Contents.growRows_lt h.rows.length_le) ⟨.unset, inRow⟩
  rw [Contents.growStarts_starts, Contents.growRows_starts, hK.starts] at hb₁
  rw [Contents.growStarts_rows, Contents.growRows_rows] at hb₂
  simp only [hb₁, hb₂, wp_lift_ok, wp_modify]
  refine ⟨{ h₂ with starts := ?_, rows := ?_ }, hs₂.w.trans hs₁.w, ?_⟩
  · rwa [Contents.growStarts_starts, Contents.growRows_starts] at hstarts
  · rwa [Contents.growStarts_rows, Contents.growRows_rows] at hrows
  · rw [hs₂.out, hs₁.out, hout]
    simp [Contents.shown, Contents.record, h₂.rowsCap]

/-! ## One row -/

/-- A row that was read is recorded. -/
theorem Between.record {r : RowText} {k : Counters}
    (h : InRow H K.cells.length (K.shown trunc) (K.addPairs lib r.pairs) k s) (hK : K.Whole) :
    wp (recordRow K.cells.length k.inRow)
      (fun _ s' => Between H trunc (K.addRow lib r) k.global s' ∧ s'.w = s.w)
      (fun e s' => e = .nomem ∧ s'.out = s.out ∧ Refused H (K.addRow lib r).asks) s := by
  have hlen : (K.addPairs lib r.pairs).cells.length = _ := Contents.length_addPairs r.pairs
  have hin : k.inRow = r.pairs.length := by have := h.counts.inRow; omega
  have hout : s.out = (K.addPairs lib r.pairs).shown trunc := by
    rw [h.out, Contents.shown, Contents.shown, Contents.addPairs_rows, Contents.addPairs_rowsCap]
  rw [hin, Contents.addRow]
  refine wp_mono (recordRow_spec h.inv h.aligned hout _ _)
    (fun _ s' ⟨h', hw, ho⟩ => ⟨⟨h', hK.addRow r, ?_, ho⟩, hw⟩) fun e s' h' => h'
  rw [h.counts.global, Contents.record_cells]

theorem skipsWs_rowLoop (lib : Libc) (n : Nat) (k : Counters) : SkipsWs (rowLoop lib n k) :=
  skipsWs_commaLoop (fun _ _ => (skipsWs_peek.bind _).bind _) _ _ n k

/-- The first character of a member is not the end of the row. -/
theorem peek_members (m : RowMember × Ws) (ms : List (RowMember × Ws)) (r : Bytes) :
    (jpPeek ⟨spacedText RowMember.text (m :: ms) ++ r, true⟩).1 ≠ some rbrace := by
  obtain ⟨m, w⟩ := m
  simp only [spacedText_cons, RowMember.text, List.append_assoc, List.cons_append,
    jpPeek_ws m.pre not_isWs_quote]
  decide

/-- What the rows read so far are in the buffers, and room for the strings of those to come. -/
theorem Between.starts (h : Between H trunc K g s) :
    sumCounts s.c.rowsArr s.out.count = .ok K.cells.length := by
  rw [h.out, ← h.whole.sum]
  exact sumCounts_rows h.inv.rows

theorem Contents.addRow_blob (r : RowText) :
    (K.addRow lib r).blob = (K.addPairs lib r.pairs).blob := by
  rw [addRow, record_blob]

theorem Contents.asks_le_addRow (r : RowText) : K.asks ≤ (K.addRow lib r).asks :=
  (asks_le_addPairs r.pairs).trans (asks_le_record _ _)

/-- A row, on its text. -/
theorem readRow_text (h : Between H trunc K g s ∧ Roomy K s) (r : RowText) {rest : Bytes}
    (hw : s.w = ⟨r.text ++ rest, true⟩) {n : Nat} (hn : 3 * s.w.p.length + 1 ≤ n) :
    wp (readRow lib n g)
      (fun g' s' => (Between H trunc (K.addRow lib r) g' s' ∧ Roomy (K.addRow lib r) s') ∧
        s'.w = ⟨rest, true⟩)
      (fun _ _ => Refused H (K.addRow lib r).asks) s := by
  obtain ⟨h, hroom⟩ := h
  have htext : s.w = ⟨r.pre.bytes ++ lbrace :: (spacedText RowMember.text r.members ++
      (r.w.bytes ++ rbrace :: rest)), true⟩ := by
    simp [hw, RowText.text]
  have hlen : (spacedText RowMember.text r.members ++ (r.w.bytes ++ rbrace :: rest)).length + 1 ≤
      s.w.p.length := by
    rw [htext]
    simp only [List.length_append, List.length_cons]
    omega
  have hin : ∀ w, InRow H K.cells.length (K.shown trunc) K ⟨K.cells.length, 0, g⟩
      { s with w := w } := fun w => ⟨h.inv.move w, h.whole.toAligned, ⟨rfl, rfl, h.global⟩, h.out⟩
  -- What the members leave is recorded.
  have hrecord : ∀ (k : Counters) (s' : PageState),
      (InRow H K.cells.length (K.shown trunc) (K.addPairs lib r.pairs) k s' ∧
        Roomy (K.addPairs lib r.pairs) s') ∧ s'.w = ⟨rest, true⟩ →
      wp (recordRow K.cells.length k.inRow)
        (fun _ s' => (Between H trunc (K.addRow lib r) k.global s' ∧ Roomy (K.addRow lib r) s') ∧
          s'.w = ⟨rest, true⟩)
        (fun _ _ => Refused H (K.addRow lib r).asks) s' := fun k s' ⟨⟨h', hroom'⟩, hw'⟩ => by
    refine wp_mono (Between.record h' h.whole) (fun _ s'' hpost => ?_) fun _ _ h' => h'.2.2
    obtain ⟨h'', hs''⟩ := hpost
    refine ⟨⟨h'', ?_⟩, hs''.trans hw'⟩
    rwa [Roomy, Contents.addRow_blob, hs'']
  simp only [readRow, wp_bind, wp_peek, htext, jpPeek_ws r.pre (show isWs lbrace = false by rfl),
    ne_eq, not_true_eq_false, if_false]
  refine wp_advance rfl ?_
  simp only [wp_skipWs, wp_get]
  rw [h.starts, wp_lift_ok]
  simp only [jpPeek_skipWs]
  cases hms : r.members with
  | nil =>
    have hpairs : K.addPairs lib r.pairs = K := by rw [RowText.pairs, hms]; rfl
    rw [hpairs] at hrecord
    simp only [spacedText, List.map_nil, commaSep, List.nil_append,
      jpPeek_ws r.w (show isWs rbrace = false by rfl), not_true_eq_false, if_false,
      wp_bind, wp_pure]
    refine wp_advance rfl (hrecord ⟨_, 0, g⟩ _ ⟨⟨hin _, hroom.move ?_⟩, rfl⟩)
    simp only [List.length_append, List.length_cons] at hlen ⊢
    omega
  | cons m ms =>
    rw [hms] at hlen
    rw [if_pos (peek_members m ms _)]
    simp only [wp_bind, wp_pure]
    refine wp_mono ((skipsWs_rowLoop lib n _).wp (rowLoop_text (List.cons_ne_nil m ms) (hin _)
      (hroom.move (by simp only; omega)) rfl (by simp only; omega))) (fun k s' h' => ?_)
      fun e s' h' => h'.2.2.mono ?_
    · refine hrecord k s' ?_
      rwa [RowText.pairs, hms]
    · rw [← hms]
      exact Contents.asks_le_record _ _

/-- A row, on an arbitrary buffer. -/
theorem readRow_ends (h : Between H trunc K g s) (hok : s.w.ok = true) {n : Nat}
    (hn : 3 * s.w.p.length + 1 ≤ n) :
    wp (readRow lib n g)
      (fun g' s' => (∃ r : RowText, s.w.p = r.text ++ s'.w.p ∧
          Between H trunc (K.addRow lib r) g' s') ∧ s'.w.ok = true)
      (Fails H (K.shown trunc)) s := by
  obtain ⟨pre, t, ht, hpeek⟩ := jpPeek_spec s.w
  simp only [readRow, wp_bind, wp_peek, hpeek, wp_ite, wp_ret]
  refine ⟨fun _ => ⟨FailCode.json, h.out⟩, fun hb => ?_⟩
  obtain ⟨t, rfl⟩ := List.head?_eq_some_iff.1 (not_not.1 hb)
  have hin : ∀ w, InRow H K.cells.length (K.shown trunc) K ⟨K.cells.length, 0, g⟩
      { s with w := w } := fun w => ⟨h.inv.move w, h.whole.toAligned, ⟨rfl, rfl, h.global⟩, h.out⟩
  have hlen : t.length + 1 ≤ s.w.p.length := by
    rw [ht, List.length_append, List.length_cons]
    omega
  -- What the members leave is recorded.
  have hrecord : ∀ (k : Counters) (s' : PageState) (r : RowText),
      s.w.p = r.text ++ s'.w.p → s'.w.ok = true →
      InRow H K.cells.length (K.shown trunc) (K.addPairs lib r.pairs) k s' →
      wp (recordRow K.cells.length k.inRow)
        (fun _ s' => (∃ r : RowText, s.w.p = r.text ++ s'.w.p ∧
            Between H trunc (K.addRow lib r) k.global s') ∧ s'.w.ok = true)
        (Fails H (K.shown trunc)) s' := fun k s' r hr hok' h' => by
    refine wp_mono (Between.record h' h.whole) (fun _ s'' hrecorded => ?_)
      fun e s'' hfail => ⟨hfail.1 ▸ hfail.2.2.failCode, hfail.2.1.trans h'.out⟩
    rw [hrecorded.2]
    exact ⟨⟨r, hr, hrecorded.1⟩, hok'⟩
  rw [hok]
  refine wp_advance rfl ?_
  simp only [wp_skipWs, wp_get, wp_lift_ok, h.starts, jpPeek_skipWs, wp_pure]
  refine ⟨fun _ => ?_, fun hnot => ?_⟩
  · refine (skipsWs_rowLoop lib n _).wp (wp_mono (rowLoop_ends (hin ⟨t, true⟩) rfl
      (by simp only; omega)) (fun k s' hends => ?_) fun e s' h' => h')
    obtain ⟨⟨m, ms, r, hr, h', hs'⟩, hok'⟩ := hends
    change t = _ at hr
    refine hrecord k s' ⟨pre, m :: ms, Ws.none⟩ ?_ hok' h'
    rw [ht, hr, hs']
    simp [RowText.text, Ws.none]
  · obtain ⟨w, r, hr, hj⟩ := jpPeek_fst (not_not.1 hnot)
    change t = _ at hr
    rw [hj]
    refine wp_advance rfl (hrecord ⟨_, 0, g⟩ _ ⟨pre, [], w⟩ ?_ rfl (hin ⟨r, true⟩))
    simp [ht, hr, RowText.text, spacedText, commaSep]

/-! ## The loop -/

/-- What the rows `rs` leave in the contents. -/
abbrev Contents.addRows (lib : Libc) (K : Contents) (rs : List (RowText × Ws)) : Contents :=
  (rs.map Prod.fst).foldl (Contents.addRow lib) K

/-- The rows, on their text. -/
theorem rowsLoop_text {rs : List (RowText × Ws)} (hne : rs ≠ []) (h : Between H trunc K g s)
    (hroom : Roomy K s) {w : Ws} {rest : Bytes}
    (hw : s.w = ⟨spacedText RowText.text rs ++ (w.bytes ++ rbrack :: rest), true⟩) {n : Nat}
    (hn : 3 * s.w.p.length + 2 ≤ n) :
    wp (rowsLoop lib n g)
      (fun g' s' => Between H trunc (K.addRows lib rs) g' s' ∧ Roomy (K.addRows lib rs) s')
      (fun _ _ => Refused H (K.addRows lib rs).asks) s :=
  wp_mono (commaLoop_text (fun _ _ => True) (P := fun K g s => Between H trunc K g s ∧ Roomy K s)
    (R := fun K _ _ => Refused H K.asks)
    ⟨by decide, by decide, by decide⟩ (fun _ _ _ _ _ => trivial)
    (fun _ _ _ w h hle => ⟨h.1.move w, h.2.move hle⟩)
    (fun _ r _ _ h => h.mono (Contents.asks_le_addRow r))
    (fun r _ _ _ _ _ h hw _ hn => readRow_text h r hw hn) hne ⟨h, hroom⟩ hw hn)
    (fun _ _ h => h.1) fun _ _ h => h

/-- The rows, on an arbitrary buffer. -/
theorem rowsLoop_ends (h : Between H trunc K g s) (hok : s.w.ok = true) {n : Nat}
    (hn : 3 * s.w.p.length + 2 ≤ n) :
    wp (rowsLoop lib n g)
      (fun g' s' => ∃ (r : RowText × Ws) (rs : List (RowText × Ws)) (rest : Bytes),
          s.w.p = spacedText RowText.text (r :: rs) ++ rbrack :: rest ∧
          Between H trunc (K.addRows lib (r :: rs)) g' s')
      (fun e _ => FailCode H e) s :=
  wp_mono (commaLoop_ends (P := Between H trunc) (R := fun e _ => FailCode H e)
    (fun _ _ _ w h _ => h.move w) (fun _ _ _ _ _ => FailCode.json)
    (fun _ _ _ _ h hok hn => wp_mono (readRow_ends h hok hn) (fun _ _ h => h) fun _ _ h => h.1)
    h hok hn) (fun _ _ ⟨⟨r, rs, rest, hr, h', _⟩, _⟩ => ⟨r, rs, rest, hr, h'⟩) fun _ _ h => h

/-- A return before the first row is recorded: nothing is shown. -/
theorem rowsLoop_first (h : Between H trunc K g s) (hok : s.w.ok = true) {n : Nat}
    (hn : 3 * s.w.p.length + 2 ≤ n) :
    wp (rowsLoop lib n g) (fun _ _ => True)
      (fun _ s' => s'.out = K.shown trunc ∨
        ∃ (r : RowText) (rest : Bytes), s.w.p = r.text ++ rest ∧ Granted H (K.addRow lib r).asks)
      s := by
  have hends : wp (rowsLoop lib n g) _ _ s := rowsLoop_ends h hok hn
  obtain ⟨n, rfl⟩ : ∃ m, n = m + 1 := ⟨n - 1, by omega⟩
  refine wp_mono (wp_bind_ret (readRow_ends h hok (by omega)) hends) (fun _ _ _ => trivial)
    fun e s' h' => ?_
  rcases h' with h' | ⟨g', s₁, ⟨r, hr, h₁⟩, -⟩
  · exact .inl h'.2
  · exact .inr ⟨r, s₁.w.p, hr, h₁.inv.heap.granted⟩

/-- A return after the first row is recorded: it is shown. -/
theorem rowsLoop_later (h : Between H trunc K g s) (hroom : Roomy K s) (r : RowText) {rest : Bytes}
    (hw : s.w = ⟨r.text ++ rest, true⟩) (hr : Granted H (K.addRow lib r).asks) {n : Nat}
    (hn : 3 * s.w.p.length + 2 ≤ n) :
    wp (rowsLoop lib n g) (fun _ _ => True) (fun _ s' => s'.out.count ≠ 0) s := by
  obtain ⟨n, rfl⟩ : ∃ m, n = m + 1 := ⟨n - 1, by omega⟩
  refine wp_bind.2 (wp_mono (readRow_text ⟨h, hroom⟩ r hw (by omega))
    (fun g₁ s₁ hpost => ?_)
    fun _ _ h' => absurd h' hr.not_refused)
  obtain ⟨⟨h₁, -⟩, hw₁⟩ := hpost
  have hlen : s₁.w.p.length ≤ s.w.p.length := by
    rw [hw, hw₁]
    simp only [List.length_append]
    omega
  have hrows : (K.addRow lib r).rows ≠ [] := by
    rw [Contents.addRow, Contents.record_rows]
    exact List.append_ne_nil_of_right_ne_nil _ (List.cons_ne_nil _ _)
  have hcount : ∀ {K' g' s'}, Between H trunc K' g' s' ∧ K'.rows ≠ [] → s'.out.count ≠ 0 :=
    fun ⟨h', hne⟩ => by
      rw [h'.out]
      exact fun h0 => hne (List.length_eq_zero_iff.1 h0)
  -- What follows begins with a row shown.
  have hstep : ∀ K g s n, (Between H trunc K g s ∧ K.rows ≠ []) → s.w.ok = true →
      3 * s.w.p.length + 1 ≤ n →
      wp (readRow lib n g) (fun g' s' => (∃ r, s.w.p = RowText.text r ++ s'.w.p ∧
        Between H trunc (K.addRow lib r) g' s' ∧ (K.addRow lib r).rows ≠ []) ∧ s'.w.ok = true)
        (fun _ s' => s'.out.count ≠ 0) s := fun K g s n h hok hn => by
    refine wp_mono (readRow_ends h.1 hok hn) (fun g' s' hpost => ?_)
      fun e s' h' => ?_
    · obtain ⟨⟨r', hr', h'⟩, hok'⟩ := hpost
      refine ⟨⟨r', hr', h', ?_⟩, hok'⟩
      rw [Contents.addRow, Contents.record_rows]
      exact List.append_ne_nil_of_right_ne_nil _ (List.cons_ne_nil _ _)
    · rw [h'.2]
      exact fun h0 => h.2 (List.length_eq_zero_iff.1 h0)
  change wp (commaRest (readRow lib) rbrack false n g₁) _ _ s₁
  exact wp_mono (commaRest_ends (P := fun K g s => Between H trunc K g s ∧ K.rows ≠ [])
    (fun _ _ _ w h _ => ⟨h.1.move w, h.2⟩) (fun K' g' s' _ h => hcount h) hstep ⟨h₁, hrows⟩
    (hw₁ ▸ rfl) (by omega)) (fun _ _ _ => trivial) fun _ _ h => h

end MongrelDB
