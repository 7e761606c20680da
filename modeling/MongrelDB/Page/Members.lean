import MongrelDB.Page.Cells

/-!
# Decoding the members of a row

The members of a row object, on their text and on an arbitrary buffer: the
`cells` arrays among them are decoded, and the others skipped.
-/

namespace MongrelDB

open Ascii Prog

variable {H : Heap} {K : Contents} {s : PageState} {lib : Libc} {start : Nat} {out : PageResult}
  {k : Counters}

/-! ## The cells -/

theorem skipsWs_cellsLoop (lib : Libc) (n : Nat) (k : Counters) : SkipsWs (cellsLoop lib n k) :=
  skipsWs_commaLoop (fun _ _ => (skipsWs_peek.bind _).bind _) _ _ n k

/-- The first character of a pair is not the end of the array. -/
theorem peek_pairs (p : Pair × Ws) (ps : List (Pair × Ws)) (r : Bytes) :
    (jpPeek ⟨spacedText Pair.text (p :: ps) ++ r, true⟩).1 ≠ some rbrack := by
  obtain ⟨p, w⟩ := p
  obtain ⟨c, t, ht, hc⟩ := Json.num_head p.id
  obtain ⟨t, ht⟩ : ∃ t, spacedText Pair.text ((p, w) :: ps) ++ r = p.pre.bytes ++ c :: t := by
    cases ps <;> exact ⟨_, by simp only [spacedText, List.map_cons, List.map_nil, commaSep,
      Pair.text, ht, List.append_assoc, List.cons_append]; rfl⟩
  rw [ht, jpPeek_ws p.pre (not_isWs_of_startsNumber c hc)]
  intro heq
  rw [Option.some.inj heq] at hc
  exact absurd hc (by decide)

/-- A `cells` array of a row, on its text. -/
theorem readCells_text {ps : List (Pair × Ws)} {w : Ws} (h : InRow H start out K k s)
    (hroom : Roomy K s) {r : Bytes} (hw : s.w = ⟨(RowField.cells ps w).text ++ r, true⟩) {n : Nat}
    (hn : 3 * s.w.p.length ≤ n) :
    wp (readCells lib n k)
      (fun k' s' => (InRow H start out (K.addPairs lib (ps.map Prod.fst)) k' s' ∧
        Roomy (K.addPairs lib (ps.map Prod.fst)) s') ∧ s'.w = ⟨r, true⟩)
      (OnlyRefused H out (K.addPairs lib (ps.map Prod.fst))) s := by
  have htext : (RowField.cells ps w).text ++ r =
      lbrack :: (spacedText Pair.text ps ++ (w.bytes ++ rbrack :: r)) := by
    simp [RowField.text]
  rw [htext] at hw
  rw [hw, List.length_cons] at hn
  have hmove : ∀ {w' : JsonParser}, w'.p.length ≤ s.w.p.length → Roomy K { s with w := w' } :=
    fun hle => hroom.move hle
  rw [hw, List.length_cons] at hmove
  simp only [readCells, wp_bind, wp_skipWs, wp_peek]
  refine wp_advance hw ?_
  simp only [jpPeek_skipWs]
  cases ps with
  | nil =>
    simp only [spacedText, List.map_nil, commaSep, List.nil_append,
      jpPeek_ws w (show isWs rbrack = false by rfl), if_true, wp_bind, wp_pure]
    refine wp_advance rfl ⟨⟨h.move _, hmove ?_⟩, rfl⟩
    simp only [spacedText, List.map_nil, commaSep, List.nil_append, List.length_append,
      List.length_cons]
    omega
  | cons p ps =>
    rw [if_neg (peek_pairs p ps _)]
    refine (skipsWs_cellsLoop lib n k).wp (cellsLoop_text (List.cons_ne_nil _ _) (h.move _)
      (hmove ?_) rfl (by simp only; omega))
    simp only
    omega

/-- A `cells` array of a row, on an arbitrary buffer. -/
theorem readCells_ends (h : InRow H start out K k s) {t : Bytes} (hw : s.w = ⟨lbrack :: t, true⟩)
    {n : Nat} (hn : 3 * s.w.p.length ≤ n) :
    wp (readCells lib n k)
      (fun k' s' => (∃ ps w, s.w.p = (RowField.cells ps w).text ++ s'.w.p ∧
          InRow H start out (K.addPairs lib (ps.map Prod.fst)) k' s') ∧ s'.w.ok = true)
      (Fails H out) s := by
  rw [hw, List.length_cons] at hn
  simp only [readCells, wp_bind, wp_skipWs, wp_peek]
  refine wp_advance hw ?_
  simp only [jpPeek_skipWs, wp_ite, wp_bind, wp_pure]
  -- The array is empty, or a pair begins behind the bracket.
  refine ⟨fun hb => ?_, fun _ => ?_⟩
  · obtain ⟨w, r, hr, hj⟩ := jpPeek_fst hb
    change t = _ at hr
    rw [hj]
    refine wp_advance rfl ⟨⟨[], w, ?_, h.move ⟨r, true⟩⟩, rfl⟩
    simp [hw, hr, RowField.text, spacedText, commaSep]
  · refine (skipsWs_cellsLoop lib n k).wp (wp_mono (cellsLoop_ends (h.move ⟨t, true⟩) rfl
      (by simp only; omega)) (fun k' s' hends => ?_) fun e s' h' => h')
    obtain ⟨⟨p, ps, r, hp, h', hr⟩, hok⟩ := hends
    refine ⟨⟨p :: ps, Ws.none, ?_, h'⟩, hok⟩
    change t = _ at hp
    rw [hw, hp, hr]
    simp [RowField.text, Ws.none]

/-! ## Members -/

theorem startsLiteral_ne_lbrack : ∀ c, startsLiteral c = true → c ≠ lbrack :=
  forall_byte (by decide)

theorem startsNumber_ne_lbrack : ∀ c, startsNumber c = true → c ≠ lbrack := forall_byte (by decide)

/-- An array is told by its first character. -/
theorem Json.isArr_iff_head (v : Json) : v.text.head? = some lbrack ↔ v.isArr = true := by
  cases v with
  | lit t =>
    obtain ⟨c, r, ht, hc⟩ := Json.lit_head t
    simp [Json.text, Json.isArr, ht, startsLiteral_ne_lbrack c hc]
  | num t =>
    obtain ⟨c, r, ht, hc⟩ := Json.num_head t
    simp [Json.text, Json.isArr, ht, startsNumber_ne_lbrack c hc]
  | _ => simp +decide [Json.text, Json.isArr]

/-- Whether a value behind whitespace is an array is seen by peeking. -/
theorem peek_isArr (w : Ws) (v : Json) (r : Bytes) (ok : Bool) :
    (jpPeek ⟨w.bytes ++ (v.text ++ r), ok⟩).1 = some lbrack ↔ v.isArr = true := by
  obtain ⟨c, t, ht, -, hpeek⟩ := jpPeek_value w v r ok
  rw [hpeek, ← Json.isArr_iff_head, ht]
  rfl

/-- A value that is not the array of this name, on its text: it is left to be skipped,
    from the cursor before or after its whitespace. -/
theorem wp_isArrayOf_other {Q : Bool → PageState → Prop} {R : Code → PageState → Prop}
    {s : PageState} {key raw x : Bytes} (pre : Ws) {v : Json} {r : Bytes}
    (hnot : raw = key → v.isArr = false)
    (hskip : ∀ u : Ws, Q false { s with w := ⟨u.bytes ++ (v.text ++ r), true⟩ }) :
    wp (isArrayOf key (raw ++ x) raw.length) Q R
      { s with w := ⟨pre.bytes ++ (v.text ++ r), true⟩ } := by
  refine wp_isArrayOf (fun heq => ?_) fun _ => hskip pre
  obtain ⟨c, t, -, -, hpeek⟩ := jpPeek_value pre v r true
  have harr : (jpPeek ⟨pre.bytes ++ (v.text ++ r), true⟩).1 ≠ some lbrack := by
    rw [Ne, peek_isArr, hnot heq]
    exact Bool.false_ne_true
  rw [decide_eq_false harr, hpeek]
  exact hskip Ws.none

/-- The value of a member, on an arbitrary buffer: the array of this name, or else left to
    be skipped. -/
theorem wp_isArrayOf_ends {Q : Bool → PageState → Prop} {R : Code → PageState → Prop}
    {s : PageState} {key raw x r : Bytes}
    (harr : raw = key → ∀ (inner : Ws) (t : Bytes), r = inner.bytes ++ lbrack :: t →
      Q true { s with w := ⟨lbrack :: t, true⟩ })
    (hskip : ∀ (u : Ws) (t : Bytes), r = u.bytes ++ t →
      (raw = key → (jpPeek ⟨r, true⟩).1 ≠ some lbrack) → Q false { s with w := ⟨t, true⟩ }) :
    wp (isArrayOf key (raw ++ x) raw.length) Q R { s with w := ⟨r, true⟩ } := by
  obtain ⟨inner, t, ht, hpeek⟩ := jpPeek_spec ⟨r, true⟩
  refine wp_isArrayOf (fun heq => ?_) fun hne => hskip Ws.none r rfl fun heq => absurd heq hne
  by_cases hb : t.head? = some lbrack
  · obtain ⟨t, rfl⟩ := List.head?_eq_some_iff.1 hb
    rw [hpeek]
    exact harr heq inner t ht
  · rw [hpeek, decide_eq_false hb]
    exact hskip inner t ht fun _ => by rw [hpeek]; exact hb

/-- What follows a member does not run on its value. -/
def RowField.Stops : RowField → Bytes → Prop
  | .cells _ _, _ => True
  | .other v, r => v.Stops r

/-- A member of a row, on its text. -/
theorem readMember_text (h : InRow H start out K k s ∧ Roomy K s) (m : RowMember) {r : Bytes}
    (hw : s.w = ⟨m.text ++ r, true⟩) (hr : m.val.Stops r) {n : Nat} (hn : 3 * s.w.p.length ≤ n) :
    wp (readMember lib n k)
      (fun k' s' => (InRow H start out (K.addPairs lib m.val.pairs) k' s' ∧
        Roomy (K.addPairs lib m.val.pairs) s') ∧ s'.w = ⟨r, true⟩)
      (OnlyRefused H out (K.addPairs lib m.val.pairs)) s := by
  obtain ⟨pre, key, mid, inner, val, wf⟩ := m
  obtain ⟨h, hroom⟩ := h
  have htext : s.w = ⟨pre.bytes ++ quote :: (key.raw ++ quote :: (mid.bytes ++
      colon :: (inner.bytes ++ (val.text ++ r)))), true⟩ := by
    simp [hw, RowMember.text]
  have hlen : (val.text ++ r).length + 3 ≤ s.w.p.length := by
    simp only [htext, List.length_append, List.length_cons]
    omega
  simp only [readMember, wp_bind]
  refine readKey_text htext ?_
  -- Only an array under the key `cells` is read; any other value is skipped.
  cases val with
  | cells ps w =>
    refine wp_isArrayOf (fun _ => ?_) fun hne => absurd wf hne
    have hpeek : jpPeek ⟨inner.bytes ++ ((RowField.cells ps w).text ++ r), true⟩ =
        (some lbrack, ⟨(RowField.cells ps w).text ++ r, true⟩) := by
      rw [RowField.text, List.cons_append, jpPeek_ws inner (by decide)]
    simp only [hpeek, decide_true, if_true]
    exact readCells_text (h.move _) (hroom.move (by simp only; omega)) rfl (by simp only; omega)
  | other v =>
    change v.Stops r at hr
    simp only [RowField.text] at hlen
    refine wp_isArrayOf_other inner wf fun w' => ?_
    simp only [Bool.false_eq_true, if_false, wp_bind, wp_pure]
    refine wp_parse (P := fun j => j = ⟨r, true⟩) ⟨_, jpValue_text v w' r n hr (by omega), rfl⟩
      (fun j hj _ => ?_) fun j hj hok => ?_
    · subst hj
      rw [List.length_append] at hlen
      exact ⟨⟨h.move _, hroom.move (by simp only; omega)⟩, rfl⟩
    · rw [hj] at hok
      exact absurd hok Bool.true_eq_false.mp

/-- A member of a row, on an arbitrary buffer. -/
theorem readMember_ends (h : InRow H start out K k s) {n : Nat} (hn : 3 * s.w.p.length ≤ n) :
    wp (readMember lib n k)
      (fun k' s' => (∃ m : RowMember, s.w.p = m.text ++ s'.w.p ∧
          InRow H start out (K.addPairs lib m.val.pairs) k' s') ∧ s'.w.ok = true)
      (Fails H out) s := by
  simp only [readMember, wp_bind]
  refine readKey_ends (fun pre mid key r hs => ?_) fun w => ⟨FailCode.json, h.out⟩
  have hlen : r.length + 3 ≤ s.w.p.length := by
    simp only [hs, List.length_append, List.length_cons]
    omega
  -- Only an array under the key `cells` is read; any other value is skipped.
  refine wp_isArrayOf_ends (fun heq inner t ht => ?_) fun w' u hu hnot => ?_
  · simp only [if_true]
    refine wp_mono (readCells_ends (h.move _) rfl ?_) (fun k' s' h' => ?_) fun e s' h' => h'
    · rw [ht, List.length_append] at hlen
      simp only
      omega
    · obtain ⟨⟨ps, w, hp, h'⟩, hok⟩ := h'
      change lbrack :: t = _ at hp
      refine ⟨⟨⟨pre, key, mid, inner, .cells ps w, heq⟩, ?_, h'⟩, hok⟩
      simp [hs, ht, hp, RowMember.text]
  · have hule : u.length ≤ r.length := by simp [hu]
    simp only [Bool.false_eq_true, if_false, wp_bind, wp_pure]
    refine wp_parse (jpValue_spec (by simp only; omega)) (fun j hj hok => ?_) fun j _ _ =>
      ⟨FailCode.json, h.out⟩
    obtain ⟨-, w₂, v, hv, -⟩ := hj.sound hok
    change u = _ at hv
    have htext : r = (w'.append w₂).bytes ++ (v.text ++ j.p) := by
      rw [hu, hv]
      simp [Ws.append]
    refine ⟨⟨⟨pre, key, mid, w'.append w₂, .other v, fun heq => ?_⟩, ?_, h.move _⟩, hok⟩
    · have := hnot heq
      rw [htext, Ne, peek_isArr] at this
      simpa using this
    · simp [hs, htext, RowMember.text, RowField.text]

/-! ## The loop -/

/-- What the members of a row leave in the contents. -/
def Contents.addMember (lib : Libc) (K : Contents) (m : RowMember) : Contents :=
  K.addPairs lib m.val.pairs

theorem Contents.foldl_addMember (ms : List RowMember) :
    ms.foldl (Contents.addMember lib) K = K.addPairs lib (ms.flatMap fun m => m.val.pairs) := by
  induction ms generalizing K with
  | nil => rfl
  | cons m ms ih =>
    rw [List.foldl_cons, ih, List.flatMap_cons, addPairs, addPairs, List.foldl_append]; rfl

theorem RowField.stops_ws (f : RowField) (w : Ws) {c : UInt8} (hc : isDelim c = true) (r : Bytes) :
    f.Stops (w.bytes ++ c :: r) := by
  cases f with
  | cells ps w' => trivial
  | other v => exact v.stops_ws w hc r

/-- The members of a row, without the whitespace behind each. -/
theorem RowText.pairs_eq (ms : List (RowMember × Ws)) :
    (ms.map Prod.fst).foldl (Contents.addMember lib) K =
      K.addPairs lib (ms.flatMap fun m => m.1.val.pairs) := by
  rw [Contents.foldl_addMember, List.flatMap_map]

/-- The loop over the members of a row, on their text. -/
theorem rowLoop_text {ms : List (RowMember × Ws)} (hne : ms ≠ []) (h : InRow H start out K k s)
    (hroom : Roomy K s) {w : Ws} {r : Bytes}
    (hw : s.w = ⟨spacedText RowMember.text ms ++ (w.bytes ++ rbrace :: r), true⟩) {n : Nat}
    (hn : 3 * s.w.p.length + 2 ≤ n) :
    wp (rowLoop lib n k)
      (fun k' s' => (InRow H start out (K.addPairs lib (ms.flatMap fun m => m.1.val.pairs)) k' s' ∧
        Roomy (K.addPairs lib (ms.flatMap fun m => m.1.val.pairs)) s') ∧ s'.w = ⟨r, true⟩)
      (OnlyRefused H out (K.addPairs lib (ms.flatMap fun m => m.1.val.pairs))) s := by
  rw [← RowText.pairs_eq]
  exact commaLoop_text (fun m r => m.val.Stops r)
    (P := fun K k s => InRow H start out K k s ∧ Roomy K s) ⟨by decide, by decide, by decide⟩
    (fun m w _ r hc => m.val.stops_ws w hc r)
    (fun _ _ _ w h hle => ⟨h.1.move w, h.2.move hle⟩)
    (fun _ m _ _ h => ⟨h.1, h.2.1, h.2.2.mono (Contents.asks_le_addPairs _)⟩)
    (fun m _ _ _ _ _ h hw hr hn => readMember_text h m hw hr (by omega)) hne ⟨h, hroom⟩ hw hn

/-- The loop over the members of a row, on an arbitrary buffer. -/
theorem rowLoop_ends (h : InRow H start out K k s) (hok : s.w.ok = true) {n : Nat}
    (hn : 3 * s.w.p.length + 2 ≤ n) :
    wp (rowLoop lib n k)
      (fun k' s' => (∃ (m : RowMember × Ws) (ms : List (RowMember × Ws)) (r : Bytes),
          s.w.p = spacedText RowMember.text (m :: ms) ++ rbrace :: r ∧
          InRow H start out (K.addPairs lib ((m :: ms).flatMap fun m => m.1.val.pairs)) k' s' ∧
          s'.w.p = r) ∧ s'.w.ok = true)
      (Fails H out) s := by
  simp only [← RowText.pairs_eq]
  exact commaLoop_ends (P := InRow H start out) (fun _ _ _ w h _ => h.move w)
    (fun _ _ _ _ h => ⟨FailCode.json, h.out⟩) (fun _ _ _ _ h _ hn => readMember_ends h (by omega)) h
    hok hn

end MongrelDB
