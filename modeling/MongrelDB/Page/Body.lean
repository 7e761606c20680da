import MongrelDB.Page.Result
import MongrelDB.Page.Scan

/-!
# Decoding a response

The decoding as a whole, on the layouts of a response and on an arbitrary buffer.
It never faults. On the text of a layout it returns `MDB_OK` with the rows of
the layout, if the allocations for them are granted (`decodePage_rows`), and it
returns `MDB_OK` on no other text (`decodePage_ends`). It returns another code
with rows shown exactly if it has recorded a first row by then
(`decodePage_later`).
-/

namespace MongrelDB

open Ascii Prog

variable {H : Heap} {s : PageState} {lib : Libc} {trunc : Bool} {recv : Bytes}

/-! ## The array of rows -/

/-- The rows of a layout, as their caller finds them. -/
abbrev seenRows (lib : Libc) (rs : List (RowText × Ws)) : List (List (Int64 × Seen)) :=
  rs.map fun r => r.1.pairs.map (Pair.seen lib)

/-- The allocations a layout takes. -/
abbrev asksOf (lib : Libc) (rs : List (RowText × Ws)) : Nat := (Contents.empty.addRows lib rs).asks

/-- The state when the walk begins. -/
structure Opened (H : Heap) (trunc : Bool) (s : PageState) : Prop where
  c : s.c = Scratch.freed
  out : s.out = ⟨.null, 0, trunc⟩
  heap : s.heap = H

theorem Opened.move (h : Opened H trunc s) (r : Bytes) : Opened H trunc { s with w := ⟨r, true⟩ } :=
  ⟨h.c, h.out, h.heap⟩

/-- Nothing is decoded at first. -/
theorem Opened.between (h : Opened H trunc s) : Between H trunc Contents.empty 0 s where
  inv := by
    obtain ⟨w, c, out, heap⟩ := s
    obtain rfl : c = Scratch.freed := h.c
    obtain rfl : heap = H := h.heap
    exact ⟨isArray_nil, rfl, isArray_nil, rfl, rfl, isArray_nil, rfl, isArray_nil, rfl,
      After.zero _⟩
  whole := ⟨⟨rfl, rfl⟩, rfl⟩
  global := rfl
  out := h.out

theorem whole_addRows {K : Contents} (h : K.Whole) (rs : List (RowText × Ws)) :
    (K.addRows lib rs).Whole := by
  induction rs generalizing K with
  | nil => exact h
  | cons r rs ih => exact ih (h.addRow r.1)

/-- The caller finds the rows of the layout. -/
def Delivers (lib : Libc) (trunc : Bool) (rs : List (RowText × Ws)) (s : PageState) : Prop :=
  s.out.truncated = trunc ∧ s.out.seen? s.c = some (seenRows lib rs)

theorem skipsWs_rowsLoop (lib : Libc) (n g : Nat) : SkipsWs (rowsLoop lib n g) :=
  skipsWs_commaLoop (fun _ _ => skipsWs_peek.bind _) _ _ n g

/-- The first character of a row is not the end of the array. -/
theorem peek_rows (r : RowText × Ws) (rs : List (RowText × Ws)) (x : Bytes) :
    (jpPeek ⟨spacedText RowText.text (r :: rs) ++ x, true⟩).1 ≠ some rbrack := by
  obtain ⟨r, w⟩ := r
  simp only [spacedText_cons, RowText.text, List.append_assoc, List.cons_append,
    jpPeek_ws r.pre (show isWs lbrace = false by rfl)]
  decide

/-- The array of rows, on its text. -/
theorem decodeRows_text (h : Opened H trunc s) {rs : List (RowText × Ws)} {w : Ws} {rest : Bytes}
    (hw : s.w = ⟨rowsText rs w ++ rest, true⟩) (hfuel : 3 * s.w.p.length ≤ fuelFor recv)
    (hsize : s.w.p.length < SIZE_MAX) :
    wp (decodeRows lib recv) (fun _ s' => Delivers lib trunc rs s')
      (fun e s' => e = .ok ∧ Delivers lib trunc rs s' ∨ e ≠ .ok ∧ Refused H (asksOf lib rs)) s := by
  have htext : s.w = ⟨lbrack :: (spacedText RowText.text rs ++ (w.bytes ++ rbrack :: rest)),
    true⟩ := by
    simp [hw, rowsText]
  rw [htext] at hfuel hsize
  simp only [List.length_cons] at hfuel hsize
  simp only [decodeRows, wp_bind, wp_modify, wp_skipWs, wp_peek]
  refine wp_advance htext ?_
  simp only [jpPeek_skipWs]
  -- An empty array is answered at once, with no rows.
  cases rs with
  | nil =>
    simp only [spacedText, List.map_nil, commaSep, List.nil_append,
      jpPeek_ws w (show isWs rbrack = false by rfl), if_true]
    refine .inl ⟨rfl, ?_⟩
    simp [Delivers, h.out, PageResult.seen?]
  | cons r rs =>
    rw [if_neg (peek_rows r rs _)]
    simp only [wp_bind]
    have hstart := (h.move
      (spacedText RowText.text (r :: rs) ++ (w.bytes ++ rbrack :: rest))).between
    refine (skipsWs_rowsLoop lib _ 0).wp (wp_mono (wp_and (rowsLoop_text (List.cons_ne_nil r rs)
      hstart ?_ rfl (by simp only; omega)) (rowsLoop_ends hstart rfl (by simp only; omega)))
      (fun g s' hends => ?_) fun _ _ hends => .inr ⟨hends.2.ne_ok, hends.1⟩)
    · simp only [Roomy, Contents.empty, Sbuf.empty, Sbuf.len, List.length_nil]
      omega
    · obtain ⟨⟨h', hroom⟩, -⟩ := hends
      refine wp_mono (resolve_spec h') (fun _ s'' hres => ⟨?_, ?_⟩) fun _ _ h => h
      · rw [hres.out, Contents.shown]
      · obtain ⟨l, hl, hL⟩ := Contents.addRows_shows (K := Contents.empty) (l := [])
          (L := []) lib .nil .nil ⟨⟨rfl, rfl⟩, rfl⟩ (r :: rs)
          (by rw [NO_OFFSET]; unfold Roomy at hroom; omega)
        rw [hres.seen? hl hL (whole_addRows ⟨⟨rfl, rfl⟩, rfl⟩ _), List.nil_append]

/-- The first row of an array stands at `t`, and the allocations for it are granted. -/
def FirstRow (lib : Libc) (H : Heap) (t : Bytes) : Prop :=
  ∃ (r : RowText) (rest : Bytes), t = lbrack :: (r.text ++ rest) ∧
    Granted H (Contents.empty.addRow lib r).asks

/-- An array of rows stands at `t`, and the allocations for it are granted. -/
def FullRows (lib : Libc) (H : Heap) (t : Bytes) : Prop :=
  ∃ (rs : List (RowText × Ws)) (w : Ws) (rest : Bytes), t = rowsText rs w ++ rest ∧
    Granted H (asksOf lib rs)

/-- No row is shown whose cells are not resolved. -/
def CellsResolved (out : PageResult) (c : Scratch) : Prop :=
  ∀ i < out.count, ∃ row, c.rowsArr.get? i = some row ∧ row.cells ≠ .unset

theorem cellsResolved_of_none {out : PageResult} {c : Scratch} (h : out.count = 0) :
    CellsResolved out c := fun i hi => by
  rw [h] at hi
  exact absurd hi (Nat.not_lt_zero i)

/-- The array of rows, on an arbitrary buffer. -/
theorem decodeRows_ends (h : Opened H trunc s) {t : Bytes} (hw : s.w.p = lbrack :: t)
    (hfuel : 3 * s.w.p.length ≤ fuelFor recv) :
    wp (decodeRows lib recv) (fun _ s' => FullRows lib H (lbrack :: t) ∧ CellsResolved s'.out s'.c)
      (fun e s' => (e = .ok ∧ s'.out = ⟨.null, 0, trunc⟩ ∧ FullRows lib H (lbrack :: t)) ∨
        FailCode H e ∧ (s'.out = ⟨.null, 0, trunc⟩ ∨ FirstRow lib H (lbrack :: t))) s := by
  rw [hw, List.length_cons] at hfuel
  simp only [decodeRows, wp_bind, wp_modify, wp_skipWs, wp_peek]
  refine wp_advance (show s.w = ⟨lbrack :: t, s.w.ok⟩ by rw [← hw]) ?_
  simp only [jpPeek_skipWs, wp_ite, wp_ret, wp_bind]
  -- The array is empty, or a row begins behind the bracket.
  refine ⟨fun hb => .inl ⟨trivial, h.out, ?_⟩, fun hb => ?_⟩
  · obtain ⟨w, rest, hr, -⟩ := jpPeek_fst hb
    change t = _ at hr
    exact ⟨[], w, rest, by simp [hr, rowsText, spacedText, commaSep],
      fun i hi => absurd hi (Nat.not_lt_zero i)⟩
  · have hstart : Between H trunc Contents.empty 0 { s with w := ⟨t, true⟩ } := (h.move t).between
    refine (skipsWs_rowsLoop lib _ 0).wp (wp_mono (wp_and (rowsLoop_ends hstart rfl
      (by simp only; omega)) (rowsLoop_first hstart rfl (by simp only; omega)))
      (fun g s' hpost => ?_) fun e s' ⟨he, hout⟩ => .inr ⟨he, ?_⟩)
    · obtain ⟨⟨r, rs, rest, hr, h'⟩, -⟩ := hpost
      change t = _ at hr
      refine wp_mono (resolve_spec h') (fun _ s'' hres => ⟨⟨r :: rs, Ws.none, rest, ?_,
        h'.inv.heap.granted⟩, hres.cells_ne h'.whole⟩) fun _ _ h => h
      simp [hr, rowsText, Ws.none]
    · refine hout.imp id ?_
      rintro ⟨r, rest, hr, hg⟩
      change t = _ at hr
      exact ⟨r, rest, by rw [hr], hg⟩

/-- The array of rows, if the first one is complete: another code than `MDB_OK`
    comes with rows shown. -/
theorem decodeRows_later (h : Opened H trunc s) {t : Bytes} (hw : s.w.p = lbrack :: t)
    (hfuel : 3 * s.w.p.length ≤ fuelFor recv) (hsize : s.w.p.length < SIZE_MAX)
    (hfirst : FirstRow lib H (lbrack :: t)) :
    wp (decodeRows lib recv) (fun _ _ => FullRows lib H (lbrack :: t))
      (fun e s' => e ≠ .ok ∧ s'.out.count ≠ 0) s := by
  obtain ⟨r, rest, ht, hg⟩ := hfirst
  obtain rfl : t = r.text ++ rest := (List.cons.inj ht).2
  rw [hw, List.length_cons] at hfuel hsize
  simp only [decodeRows, wp_bind, wp_modify, wp_skipWs, wp_peek]
  refine wp_advance (show s.w = ⟨lbrack :: (r.text ++ rest), s.w.ok⟩ by rw [← hw]) ?_
  have hpeek : (jpPeek ⟨r.text ++ rest, true⟩).1 ≠ some rbrack := by
    rw [RowText.text, List.append_assoc, List.cons_append,
      jpPeek_ws r.pre (show isWs lbrace = false by rfl)]
    exact fun h => absurd (Option.some.inj h) (by decide)
  simp only [jpPeek_skipWs, hpeek, if_false, wp_bind]
  have hstart := (h.move (r.text ++ rest)).between
  refine (skipsWs_rowsLoop lib _ 0).wp (wp_mono (wp_and (rowsLoop_ends hstart rfl
    (by simp only; omega)) (rowsLoop_later hstart ?_ r rfl hg (by simp only; omega)))
    (fun g s' hends => ?_) fun e s' h' => ⟨h'.1.ne_ok, h'.2⟩)
  · simp only [Roomy, Contents.empty, Sbuf.empty, Sbuf.len, List.length_nil]
    omega
  · obtain ⟨⟨r', rs, rest', hr, h'⟩, -⟩ := hends
    change r.text ++ rest = _ at hr
    refine wp_mono (resolve_spec h') (fun _ s'' hres => ⟨r' :: rs, Ws.none, rest', ?_,
        h'.inv.heap.granted⟩) fun _ _ h => h
    simp [hr, rowsText, Ws.none]

/-! ## The members of the response -/

variable {Q : Unit → PageState → Prop} {R : Code → PageState → Prop}

/-- No member is an array of rows. -/
def NoRows (ms : List (Member Json)) : Prop := ∀ m ∈ ms, isRowsMember m = false

theorem peek_keys {ms : List (Member Json)} {pre mid post : Ws} {x : Bytes} :
    (jpPeek ⟨skippedText ms ++ (rowsKeyText pre mid post ++ x), true⟩).1 ≠ some rbrace := by
  cases ms with
  | nil =>
    simp only [skippedText, rowsKeyText, List.flatMap_nil, List.nil_append, List.append_assoc,
      List.cons_append, jpPeek_ws pre not_isWs_quote]
    decide
  | cons m ms =>
    obtain ⟨pre, k, mid, it⟩ := m
    simp only [skippedText, List.flatMap_cons, memberText, List.append_assoc, List.cons_append,
      jpPeek_ws pre not_isWs_quote]
    decide

/-- The members in front of the array of rows are skipped. -/
theorem decodeObject_lead (l : Lead) {x : Bytes} (hx : x.head? = some lbrack)
    (hw : s.w = ⟨skippedText l.skipped ++ (rowsKeyText l.keyPre l.mid l.post ++ x), true⟩)
    (hfuel : 3 * s.w.p.length + 2 ≤ fuelFor recv)
    (h : wp (decodeRows lib recv) Q R { s with w := ⟨x, true⟩ }) :
    wp (decodeObject lib recv) Q R s := by
  obtain ⟨x, rfl⟩ := List.head?_eq_some_iff.1 hx
  rw [hw] at hfuel
  simp only [decodeObject, wp_bind, wp_skipWs, wp_peek, jpPeek_skipWs]
  rw [hw, if_neg peek_keys]
  simp only [wp_bind]
  refine (skipsWs_keyLoop _).wp (keyLoop_lead (s := { s with w := ⟨_, true⟩ }) l.wf rfl hfuel ?_)
  simpa using h

/-- A response without an array of rows has none. -/
theorem decodeObject_members {ms : List (Member Json)} (hms : NoRows ms) {w : Ws} {x : Bytes}
    (hw : s.w = ⟨membersText ms ++ (w.bytes ++ rbrace :: x), true⟩)
    (hfuel : 3 * s.w.p.length + 2 ≤ fuelFor recv) (h : ∀ w, R .ok { s with w := w }) :
    wp (decodeObject lib recv) Q R s := by
  rw [hw] at hfuel
  simp only [decodeObject, wp_bind, wp_skipWs, wp_peek, jpPeek_skipWs]
  rw [hw]
  cases ms with
  | nil =>
    simp only [membersText, List.nil_append, jpPeek_ws w (show isWs rbrace = false by rfl), if_true]
    exact h _
  | cons m ms =>
    have hpeek : (jpPeek ⟨membersText (m :: ms) ++ (w.bytes ++ rbrace :: x), true⟩).1 ≠
        some rbrace := by
      obtain ⟨pre, k, mid, it⟩ := m
      cases ms <;>
        simp only [membersText, memberText, List.append_assoc, List.cons_append,
          jpPeek_ws pre not_isWs_quote] <;> decide
    rw [if_neg hpeek]
    simp only [wp_bind]
    refine (skipsWs_keyLoop _).wp (keyLoop_members (s := { s with w := ⟨_, true⟩ })
      (List.cons_ne_nil _ _) hms rfl hfuel ?_)
    exact h _

/-- The members of the response, on an arbitrary buffer. -/
theorem decodeObject_ends (hfuel : 3 * s.w.p.length + 2 ≤ fuelFor recv)
    (hmembers : ∀ ms (w : Ws) r, NoRows ms → s.w.p = membersText ms ++ (w.bytes ++ rbrace :: r) →
      ∀ w, R .ok { s with w := w })
    (hrows : ∀ ms pre mid post x ok, NoRows ms →
      s.w.p = skippedText ms ++ (rowsKeyText pre mid post ++ lbrack :: x) →
      wp (decodeRows lib recv) Q R { s with w := ⟨lbrack :: x, ok⟩ })
    (hjson : ∀ s', s'.out = s.out → R .json s') : wp (decodeObject lib recv) Q R s := by
  simp only [decodeObject, wp_bind, wp_skipWs, wp_peek, jpPeek_skipWs, wp_ite, wp_ret]
  refine ⟨fun hb => ?_, fun _ => ?_⟩
  · obtain ⟨w, r, hr, hj⟩ := jpPeek_fst hb
    rw [hj]
    exact hmembers [] w r (by simp [NoRows]) (by simpa [membersText] using hr) _
  refine (skipsWs_keyLoop _).wp (wp_mono (keyLoop_ends hfuel)
    (fun found s' hpost => ?_) fun e s' ⟨he, hout⟩ => he ▸ hjson s' hout)
  obtain ⟨r, ok, hr, hs'⟩ := hpost
  rw [hs']
  cases found with
  | false =>
    obtain ⟨ms, -, hms, ht, hhead⟩ := hr
    obtain ⟨x, rfl⟩ := List.head?_eq_some_iff.1 hhead
    exact ⟨fun _ => hmembers ms Ws.none x hms ht _, fun h => absurd rfl h⟩
  | true =>
    obtain ⟨ms, pre, mid, post, hms, ht, hhead⟩ := hr
    obtain ⟨x, rfl⟩ := List.head?_eq_some_iff.1 hhead
    exact ⟨fun h => absurd h (by decide), fun _ => hrows ms pre mid post x ok hms ht⟩

/-! ## The response -/

/-- The state at the call. -/
abbrev atCall (recv : Bytes) (c : Scratch) (h : Heap) : PageState :=
  ⟨jpParseValue recv, c, ⟨.null, 0, false⟩, h⟩

/-- The state behind the bracket of a response. -/
abbrev inObject (t : Bytes) (trunc : Bool) (h : Heap) : PageState :=
  ⟨⟨t, true⟩, Scratch.freed, ⟨.null, 0, trunc⟩, h⟩

theorem opened_inObject (t : Bytes) (trunc : Bool) (h : Heap) :
    Opened h trunc (inObject t trunc h) :=
  ⟨rfl, rfl, rfl⟩

variable {c : Scratch} {h : Heap} {found : Bool}
  (htrunc : jsonGetBool recv (.lit "truncated") = .ok (found, trunc))
include htrunc

/-- A response that begins with a bracket. -/
theorem pageBody_object {pre : Ws} {t : Bytes} (hrecv : recv = pre.bytes ++ lbrace :: t)
    (hbody : wp (decodeObject lib recv) Q R (inObject t trunc h)) :
    wp (pageBody lib recv) Q R (atCall recv c h) := by
  have hpeek : jpPeek (jpParseValue recv) = (some lbrace, ⟨lbrace :: t, true⟩) := by
    rw [hrecv, jpParseValue, jpPeek_ws pre (show isWs lbrace = false by rfl)]
  simp only [pageBody, wp_bind, wp_modify, htrunc, wp_lift_ok, wp_peek, hpeek, ne_eq,
    not_true_eq_false, if_false]
  exact wp_advance rfl hbody

/-- A response that does not is taken for one without rows. -/
theorem pageBody_other (hrecv : (jpPeek (jpParseValue recv)).1 ≠ some lbrace)
    (hret : ∀ w, R .ok ⟨w, Scratch.freed, ⟨.null, 0, trunc⟩, h⟩) :
    wp (pageBody lib recv) Q R (atCall recv c h) := by
  simp only [pageBody, wp_bind, wp_modify, htrunc, wp_lift_ok, wp_peek, hrecv, ne_eq,
    not_false_eq_true, if_true, wp_ret]
  exact hret _

omit htrunc

/-- The code that is returned, and the state that is left, by a fact about the body. -/
theorem decodePage_of_wp (lib : Libc) {P : Code → PageState → Prop}
    (hbody : wp (pageBody lib recv) (fun _ s => P .ok s) P (atCall recv c h)) :
    ∃ (e : Code) (s : PageState), decodePage lib recv c h = .ok (e, s.out, s.c, s.heap) ∧
      P e s := by
  rw [wp] at hbody
  rw [decodePage]
  cases hrun : pageBody lib recv (atCall recv c h) with
  | val a s => rw [hrun] at hbody; exact ⟨.ok, s, rfl, hbody⟩
  | ret e s => rw [hrun] at hbody; exact ⟨e, s, rfl, hbody⟩
  | fault f => rw [hrun] at hbody; exact hbody.elim

/-- The first character of the response is a bracket, behind whitespace. -/
def OpensObject (recv : Bytes) : Prop := (recv.dropWhile isWs).head? = some lbrace

theorem opensObject_iff : OpensObject recv ↔
    ∃ (pre : Ws) (t : Bytes), recv = pre.bytes ++ lbrace :: t := by
  constructor
  · intro h
    obtain ⟨pre, t, ht, -⟩ := jpPeek_fst (j := jpParseValue recv) h
    exact ⟨pre, t, ht⟩
  · rintro ⟨pre, t, rfl⟩
    exact congrArg Prod.fst (jpPeek_ws pre (show isWs lbrace = false by rfl) t true)

/-- The responses the decoding takes for complete. -/
inductive Accepted (recv : Bytes) : Prop where
  /-- It does not begin with a bracket: it is taken for one without rows. -/
  | other : ¬OpensObject recv → Accepted recv
  /-- An object without an array of rows, and anything behind it. -/
  | members (pre : Ws) (ms : List (Member Json)) (w : Ws) (r : Bytes) : NoRows ms →
      recv = objText pre ms w r → Accepted recv
  /-- The members up to the array of rows, and anything behind it. -/
  | rows (l : Lead) (rs : List (RowText × Ws)) (w : Ws) (r : Bytes) :
      recv = l.text ++ (rowsText rs w ++ r) → Accepted recv

/-- In the response stands an array of rows, and the allocations for it are granted. -/
def FullPage (lib : Libc) (h : Heap) (recv : Bytes) : Prop :=
  ∃ (l : Lead) (t : Bytes), recv = l.text ++ t ∧ FullRows lib h t

/-- In the response stands the first row of an array of rows, and the allocations
    for it are granted. -/
def FirstRowDone (lib : Libc) (h : Heap) (recv : Bytes) : Prop :=
  ∃ (l : Lead) (t : Bytes), recv = l.text ++ t ∧ FirstRow lib h t

/-- Nothing is shown to the caller. -/
def PageResult.Hidden (out : PageResult) : Prop := out.rows = .null ∧ out.count = 0

theorem Lead.text_append (l : Lead) (t : Bytes) :
    l.text ++ t = l.pre.bytes ++ lbrace ::
      (skippedText l.skipped ++ (rowsKeyText l.keyPre l.mid l.post ++ t)) := by
  simp [Lead.text]

variable (lib c h) in
/-- On the text of an array of rows, the rows are delivered, or an allocation is refused. -/
theorem decodePage_rows (htrunc : jsonGetBool recv (.lit "truncated") = .ok (found, trunc))
    {l : Lead} {rs : List (RowText × Ws)} {w : Ws} {r : Bytes}
    (hrecv : recv = l.text ++ (rowsText rs w ++ r)) (hsize : recv.length < SIZE_MAX) :
    ∃ (e : Code) (s : PageState), decodePage lib recv c h = .ok (e, s.out, s.c, s.heap) ∧
      (e = .ok ∧ Delivers lib trunc rs s ∨ e ≠ .ok ∧ Refused h (asksOf lib rs)) := by
  refine decodePage_of_wp lib (pageBody_object htrunc (hrecv.trans (l.text_append _)) ?_)
  have hlen : recv.length = (l.text ++ (rowsText rs w ++ r)).length := congrArg _ hrecv
  rw [l.text_append, List.length_append, List.length_cons] at hlen
  refine decodeObject_lead l rfl rfl (by simp only [fuelFor]; omega) ?_
  simp only [List.length_append] at hlen
  exact wp_mono (decodeRows_text ((opened_inObject _ trunc h).move _) rfl
    (by simp only [fuelFor, List.length_append]; omega)
    (by simp only [List.length_append]; omega)) (fun _ s' hd => .inl ⟨rfl, hd⟩) fun e s' he => he

variable (lib c h) in
/-- On an object without an array of rows, no rows are delivered. -/
theorem decodePage_members (htrunc : jsonGetBool recv (.lit "truncated") = .ok (found, trunc))
    {pre : Ws} {ms : List (Member Json)} {w : Ws} {r : Bytes} (hms : NoRows ms)
    (hrecv : recv = objText pre ms w r) :
    ∃ s : PageState, decodePage lib recv c h = .ok (.ok, s.out, s.c, s.heap) ∧
      s.out = ⟨.null, 0, trunc⟩ := by
  have htext : recv = pre.bytes ++ lbrace :: (membersText ms ++ (w.bytes ++ rbrace :: r)) := by
    simp [hrecv, Json.text]
  have hlen := congrArg List.length htext
  rw [List.length_append, List.length_cons] at hlen
  obtain ⟨e, s, hd, rfl, hout⟩ := decodePage_of_wp lib (c := c)
    (P := fun e s => e = .ok ∧ s.out = ⟨.null, 0, trunc⟩)
    (pageBody_object (h := h) htrunc htext (decodeObject_members hms rfl
      (by simp only [fuelFor]; omega) fun _ => ⟨rfl, rfl⟩))
  exact ⟨s, hd, hout⟩

variable (lib c h) in
/-- What is no object is taken for a response without rows. -/
theorem decodePage_other (htrunc : jsonGetBool recv (.lit "truncated") = .ok (found, trunc))
    (hrecv : ¬OpensObject recv) :
    ∃ s : PageState, decodePage lib recv c h = .ok (.ok, s.out, s.c, s.heap) ∧
      s.out = ⟨.null, 0, trunc⟩ := by
  obtain ⟨e, s, hd, rfl, hout⟩ := decodePage_of_wp lib (c := c) (h := h)
    (P := fun e s => e = .ok ∧ s.out = ⟨.null, 0, trunc⟩)
    (pageBody_other htrunc hrecv fun _ => ⟨rfl, rfl⟩)
  exact ⟨s, hd, hout⟩

/-- On an arbitrary buffer, the decoding does not fault. It returns `MDB_OK` only
    on a response it takes for complete, and another code without rows shown, but
    for a first row that is done. -/
theorem decodePage_ends (lib : Libc) (recv : Bytes) (c : Scratch) (h : Heap) :
    ∃ (e : Code) (s : PageState), decodePage lib recv c h = .ok (e, s.out, s.c, s.heap) ∧
      (e = .ok ∧ Accepted recv ∧ CellsResolved s.out s.c ∨
        FailCode h e ∧ (s.out.Hidden ∨ FirstRowDone lib h recv)) := by
  obtain ⟨⟨found, trunc⟩, htrunc, -⟩ := jsonGetBool_ends recv (.lit "truncated")
  refine decodePage_of_wp lib ?_
  by_cases hopen : OpensObject recv
  · obtain ⟨pre, t, ht⟩ := opensObject_iff.1 hopen
    have hlen := congrArg List.length ht
    rw [List.length_append, List.length_cons] at hlen
    refine pageBody_object htrunc ht (decodeObject_ends (by simp only [fuelFor]; omega)
      (fun ms w r hms hr u => .inl ⟨rfl, ?_, cellsResolved_of_none rfl⟩)
      (fun kms kpre mid post x ok hms hx => ?_)
      fun s' hs' => .inr ⟨FailCode.json, .inl (hs' ▸ ⟨rfl, rfl⟩)⟩)
    · change t = _ at hr
      exact .members pre ms w r hms (by simp [ht, hr, Json.text])
    · change t = _ at hx
      have hl : recv = (Lead.mk pre kms kpre mid post hms).text ++ lbrack :: x := by
        rw [Lead.text_append, ht, hx]
      have hxlen := congrArg List.length hx
      rw [List.length_append, List.length_append] at hxlen
      refine wp_mono (decodeRows_ends (t := x) ⟨rfl, rfl, rfl⟩ rfl
        (by simp only [fuelFor]; omega)) (fun _ s' hends => ?_) fun e s' he => ?_
      · obtain ⟨⟨rs, w, rest, hrs, -⟩, hres⟩ := hends
        exact .inl ⟨rfl, .rows _ rs w rest (by rw [hl, hrs]), hres⟩
      · rcases he with ⟨rfl, hout, rs, w, rest, hrs, -⟩ | ⟨he, hout⟩
        · exact .inl ⟨rfl, .rows _ rs w rest (by rw [hl, hrs]), cellsResolved_of_none (hout ▸ rfl)⟩
        · refine .inr ⟨he, hout.imp (fun ho => ?_) fun hf => ⟨_, _, hl, hf⟩⟩
          rw [ho]
          exact ⟨rfl, rfl⟩
  · exact pageBody_other htrunc hopen fun u => .inl ⟨rfl, .other hopen, cellsResolved_of_none rfl⟩

/-- Once the first row is done, the decoding ends with `MDB_OK` at the end of the
    array, or with another code and rows shown. -/
theorem decodePage_later (hsize : recv.length < SIZE_MAX) (hfirst : FirstRowDone lib h recv) :
    ∃ (e : Code) (s : PageState), decodePage lib recv c h = .ok (e, s.out, s.c, s.heap) ∧
      (e = .ok ∧ FullPage lib h recv ∨ e ≠ .ok ∧ s.out.count ≠ 0) := by
  obtain ⟨l, t, hrecv, hfirst⟩ := hfirst
  obtain ⟨⟨found, trunc⟩, htrunc, -⟩ := jsonGetBool_ends recv (.lit "truncated")
  have hlen : recv.length = (l.text ++ t).length := congrArg _ hrecv
  rw [l.text_append, List.length_append, List.length_cons] at hlen
  refine decodePage_of_wp lib (pageBody_object htrunc (hrecv.trans (l.text_append _)) ?_)
  obtain ⟨x, rfl⟩ : ∃ x, t = lbrack :: x := by
    obtain ⟨r, rest, ht, -⟩ := hfirst
    exact ⟨_, ht⟩
  refine decodeObject_lead l rfl rfl (by simp only [fuelFor]; omega) ?_
  simp only [List.length_append] at hlen
  exact wp_mono (decodeRows_later ((opened_inObject _ trunc h).move _) rfl
    (by simp only [fuelFor]; omega) (by simp only; omega) hfirst)
    (fun _ _ hfull => .inl ⟨rfl, l, _, hrecv, hfull⟩) fun _ _ hcount => .inr hcount

end MongrelDB
