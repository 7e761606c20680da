import MongrelDB.Parser.Walk

/-!
# Soundness of the parser

What the parser does on an arbitrary buffer, whatever the server has sent: it
ends, and without a fault, its cursor further in the buffer; and if it ends
without an error, it has walked over whitespace and the text of a value
(`jpValue_spec`). The value is one of the lenient layouts of `Json`: the parser
does not look into the tokens.
-/

namespace MongrelDB

open Ascii

/-! ## Runs without a fault -/

/-- The run ends without a fault, with a result that satisfies `Q`. -/
def Ends {α : Type} (x : Run α) (Q : α → Prop) : Prop := ∃ a, x = .ok a ∧ Q a

namespace Ends

variable {α β : Type} {x : Run α} {Q : α → Prop}

theorem ok {a : α} (h : Q a) : Ends (.ok a) Q := ⟨a, rfl, h⟩

theorem bind {f : α → Run β} {R : β → Prop} (hx : Ends x Q) (hf : ∀ a, Q a → Ends (f a) R) :
    Ends (x >>= f) R := by
  obtain ⟨a, rfl, ha⟩ := hx
  exact hf a ha

theorem mono {R : α → Prop} (hx : Ends x Q) (h : ∀ a, Q a → R a) : Ends x R := by
  obtain ⟨a, rfl, ha⟩ := hx
  exact ⟨a, rfl, h a ha⟩

theorem ite {c : Prop} [Decidable c] {y : Run α} (hx : c → Ends x Q) (hy : ¬c → Ends y Q) :
    Ends (if c then x else y) Q := by
  split_ifs with h
  · exact hx h
  · exact hy h

end Ends

/-! ## Tokens -/

/-- A call that starts at `j` may end at `j'`: the cursor has not moved back, and
    without an error it has moved over what `P` says. -/
structure Parses (P : Bytes → Bytes → Prop) (j j' : JsonParser) : Prop where
  suffix : j'.p <:+ j.p
  sound : j'.ok = true → j.ok = true ∧ P j.p j'.p

/-- A call that ends with an error. -/
theorem Parses.error {P : Bytes → Bytes → Prop} {j : JsonParser} {r : Bytes} (h : r <:+ j.p) :
    Parses P j ⟨r, false⟩ :=
  ⟨h, fun h => absurd h Bool.false_ne_true⟩

/-- What peeking does: it skips whitespace. -/
theorem jpPeek_spec (j : JsonParser) :
    ∃ (w : Ws) (r : Bytes), j.p = w.bytes ++ r ∧ jpPeek j = (r.head?, ⟨r, j.ok⟩) :=
  ⟨⟨j.p.takeWhile isWs, List.all_takeWhile⟩, j.p.dropWhile isWs,
    List.takeWhile_append_dropWhile.symm, rfl⟩

theorem jpStringLoop_spec (ok : Bool) (s : Bytes) :
    Parses (fun s r => ∃ raw, isClosed raw = true ∧ s = raw ++ quote :: r) ⟨s, ok⟩
      (jpStringLoop ok s) := by
  -- One case for each way the loop of `jp_string` goes on or stops.
  induction s using jpStringLoop.induct with
  | case1 => exact .error (List.suffix_refl _)
  | case2 =>
    rw [jpStringLoop, if_pos rfl]
    exact ⟨List.suffix_cons _ _, fun h => ⟨h, [], rfl, rfl⟩⟩
  | case3 c hc =>
    rw [jpStringLoop, if_neg hc]
    exact .error (List.suffix_cons _ _)
  | case4 d r ih =>
    rw [jpStringLoop, if_pos rfl]
    refine ⟨ih.suffix.trans ((List.suffix_cons _ _).trans (List.suffix_cons _ _)), fun h => ?_⟩
    obtain ⟨hok, raw, hraw, hs⟩ := ih.sound h
    exact ⟨hok, backslash :: d :: raw, by rw [isClosed, if_pos rfl, hraw], by
      rw [List.cons_append, List.cons_append, ← hs]⟩
  | case5 d r hne =>
    rw [jpStringLoop, if_neg hne, if_pos rfl]
    exact ⟨List.suffix_cons _ _, fun h => ⟨h, [], rfl, rfl⟩⟩
  | case6 c d r hb hq ih =>
    rw [jpStringLoop, if_neg hb, if_neg hq]
    refine ⟨ih.suffix.trans (List.suffix_cons _ _), fun h => ?_⟩
    obtain ⟨hok, raw, hraw, hs⟩ := ih.sound h
    refine ⟨hok, c :: raw, ?_, by rw [List.cons_append, ← hs]⟩
    cases raw with
    | nil => simp [isClosed, hb, hq]
    | cons e raw => rw [isClosed, if_neg hb, hraw]; simp [hq]

/-- `jp_string` walks over a string token, or ends with an error. -/
theorem jpString_spec (r : Bytes) (ok : Bool) :
    Ends (jpString ⟨quote :: r, ok⟩)
      (Parses (fun s r => ∃ t : StrTok, s = quote :: (t.raw ++ quote :: r)) ⟨quote :: r, ok⟩) := by
  have hloop := jpStringLoop_spec ok r
  refine ⟨jpStringLoop ok r, rfl, hloop.suffix.trans (List.suffix_cons _ _), fun h => ?_⟩
  obtain ⟨hok, raw, hraw, hs⟩ := hloop.sound h
  exact ⟨hok, ⟨raw, hraw⟩, by rw [← hs]⟩

theorem jpNumber_spec {c : UInt8} (hc : startsNumber c = true) (r : Bytes) (ok : Bool) :
    Parses (fun s r => ∃ t : NumTok, s = t.text ++ r ∧ StopsAt isNumberChar r) ⟨c :: r, ok⟩
      (jpNumber ⟨c :: r, ok⟩) := by
  refine ⟨List.dropWhile_suffix _, fun h => ⟨h, ?_⟩⟩
  refine ⟨⟨(c :: r).takeWhile isNumberChar, ?_⟩, List.takeWhile_append_dropWhile.symm,
    stopsAt_dropWhile _ _⟩
  rw [List.takeWhile_cons_of_pos (isNumberChar_of_startsNumber c hc), isNumTok, hc, Bool.true_and]
  exact List.all_takeWhile

theorem jpLiteral_spec {c : UInt8} (hc : startsLiteral c = true) (r : Bytes) (ok : Bool) :
    Parses (fun s r => ∃ t : LitTok, s = t.text ++ r ∧ StopsAt isLiteralChar r) ⟨c :: r, ok⟩
      (jpLiteral ⟨c :: r, ok⟩) := by
  refine ⟨List.dropWhile_suffix _, fun h => ⟨h, ?_⟩⟩
  refine ⟨⟨(c :: r).takeWhile isLiteralChar, ?_⟩, List.takeWhile_append_dropWhile.symm,
    stopsAt_dropWhile _ _⟩
  rw [List.takeWhile_cons_of_pos (isLiteralChar_of_startsLiteral c hc), isLitTok, hc,
    Bool.true_and]
  exact List.all_takeWhile

/-! ## Values -/

/-- Whitespace and a value stand between `s` and `r`. -/
def IsValue (s r : Bytes) : Prop := ∃ (w : Ws) (v : Json), s = w.bytes ++ (v.text ++ r) ∧ v.Stops r

/-- Elements and the end of an array stand between `s` and `r`. -/
def IsItems (s r : Bytes) : Prop :=
  ∃ (e : Item Json) (es : List (Item Json)) (w : Ws),
    s = itemsText (e :: es) ++ (w.bytes ++ rbrack :: r)

/-- Members and the end of an object stand between `s` and `r`. -/
def IsMembers (s r : Bytes) : Prop :=
  ∃ (m : Member Json) (ms : List (Member Json)) (w : Ws),
    s = membersText (m :: ms) ++ (w.bytes ++ rbrace :: r)

theorem IsValue.length_lt {s r : Bytes} (h : IsValue s r) : r.length < s.length := by
  obtain ⟨w, v, rfl, -⟩ := h
  obtain ⟨c, t, ht, -⟩ := v.text_starts
  simp only [ht, List.length_append, List.length_cons]
  omega

/-- What `jp_value` does with the fuel `n`, on every buffer short enough. -/
def ValueSpec (n : Nat) : Prop :=
  ∀ j : JsonParser, 3 * j.p.length + 1 ≤ n → Ends (jpValue n j) (Parses IsValue j)

/-- What the loop of `jp_array` does with the fuel `n`. -/
def ArrayLoopSpec (n : Nat) : Prop :=
  ∀ j : JsonParser, 3 * j.p.length + 2 ≤ n → Ends (jpArrayLoop n j) (Parses IsItems j)

/-- What the loop of `jp_object` does with the fuel `n`. -/
def ObjectLoopSpec (n : Nat) : Prop :=
  ∀ j : JsonParser, 3 * j.p.length + 2 ≤ n → Ends (jpObjectLoop n j) (Parses IsMembers j)

/-- A character that is peeked at is there. -/
theorem jpPeek_some {j j' : JsonParser} {c : UInt8} (h : jpPeek j = (some c, j')) :
    ∃ (w : Ws) (r : Bytes), j.p = w.bytes ++ c :: r ∧ j' = ⟨c :: r, j.ok⟩ := by
  obtain ⟨w, r, hs, hp⟩ := jpPeek_spec j
  rw [hp, Prod.mk.injEq] at h
  obtain ⟨hc, rfl⟩ := h
  cases r with
  | nil => exact absurd hc (by simp)
  | cons d r => exact ⟨w, r, by rw [hs, Option.some.inj hc], by rw [Option.some.inj hc]⟩

theorem jpPeek_fst {j : JsonParser} {c : UInt8} (h : (jpPeek j).1 = some c) :
    ∃ (w : Ws) (r : Bytes), j.p = w.bytes ++ c :: r ∧ (jpPeek j).2 = ⟨c :: r, j.ok⟩ :=
  jpPeek_some (Prod.ext h rfl)

theorem jpPeek_suffix (j : JsonParser) : (jpPeek j).2.p <:+ j.p := List.dropWhile_suffix _

theorem jpPeek_ok (j : JsonParser) : (jpPeek j).2.ok = j.ok := rfl

/-- What both loops do behind a value: go on behind a comma, or end behind a
    closing bracket `b`. -/
theorem afterValue_spec {P : Bytes → Bytes → Prop} {j j₁ : JsonParser} {b : UInt8}
    {loop : JsonParser → Run JsonParser} (hsuf : j₁.p <:+ j.p) (hok : j.ok = true)
    (hend : ∀ (w : Ws) r, j₁.p = w.bytes ++ b :: r → P j.p r)
    (hloop : ∀ (w : Ws) r, j₁.p = w.bytes ++ comma :: r →
      Ends (loop ⟨r, j₁.ok⟩) (Parses P j)) :
    Ends (do
      let (ch, j) := jpPeek j₁
      if ch = some comma then loop (← j.bump)
      else if ch = some b then j.bump
      else return { j with ok := false }) (Parses P j) := by
  generalize hp : jpPeek j₁ = q
  obtain ⟨ch, j₂⟩ := q
  refine Ends.ite (fun hc => ?_) fun _ => Ends.ite (fun hb => ?_) fun _ => ?_
  · obtain ⟨w, r, hs, rfl⟩ := jpPeek_some (hc ▸ hp)
    exact hloop w r hs
  · obtain ⟨w, r, hs, rfl⟩ := jpPeek_some (hb ▸ hp)
    refine Ends.ok ⟨?_, fun _ => ⟨hok, hend w r hs⟩⟩
    exact ((List.suffix_cons _ _).trans (hs ▸ List.suffix_append _ _)).trans hsuf
  · refine Ends.ok (.error ?_)
    have := jpPeek_suffix j₁
    rw [hp] at this
    exact this.trans hsuf

theorem arrayLoop_step {n : Nat} (hv : ValueSpec n) (hl : ArrayLoopSpec n) :
    ArrayLoopSpec (n + 1) := by
  intro j hn
  rw [jpArrayLoop]
  refine Ends.bind (hv j (by omega)) fun j₁ h₁ => ?_
  cases hok : j₁.ok with
  | false => exact Ends.ok ⟨h₁.suffix, fun h => absurd (hok.symm.trans h) (by decide)⟩
  | true =>
    obtain ⟨hjok, hval⟩ := h₁.sound hok
    have hlt := hval.length_lt
    obtain ⟨pre, v, hs, -⟩ := hval
    refine afterValue_spec h₁.suffix hjok (fun w r hr => ?_) fun w r hr => ?_
    · exact ⟨⟨pre, v, w⟩, [], Ws.none, by simp [itemsText, itemText, hs, hr, Ws.none]⟩
    · rw [hr, List.length_append, List.length_cons] at hlt
      refine (hl ⟨r, j₁.ok⟩ (by simp only; omega)).mono fun j₂ h₂ => ⟨?_, fun h => ?_⟩
      · exact h₂.suffix.trans (((List.suffix_cons _ _).trans
          (hr ▸ List.suffix_append _ _)).trans h₁.suffix)
      · obtain ⟨-, e, es, w', he⟩ := h₂.sound h
        exact ⟨hjok, ⟨pre, v, w⟩, e :: es, w', by simpa [itemsText, itemText, hs, hr] using he⟩

theorem objectLoop_step {n : Nat} (hv : ValueSpec n) (hl : ObjectLoopSpec n) :
    ObjectLoopSpec (n + 1) := by
  intro j hn
  rw [jpObjectLoop, jpPeek_skipWs]
  generalize hp : jpPeek j = q
  obtain ⟨ch, j₁⟩ := q
  refine Ends.ite (fun _ => Ends.ok (.error ?_)) fun hq => ?_
  · simpa [hp] using jpPeek_suffix j
  -- The key, the colon and the value are read in turn, and each may stop the parser.
  obtain ⟨wk, rk, hs, rfl⟩ := jpPeek_some (not_not.1 hq ▸ hp)
  have hsuf : quote :: rk <:+ j.p := hs ▸ List.suffix_append _ _
  refine Ends.bind (jpString_spec rk j.ok) fun j₂ h₂ => ?_
  cases hok₂ : j₂.ok with
  | false => exact Ends.ok ⟨h₂.suffix.trans hsuf, fun h => absurd (hok₂.symm.trans h) (by decide)⟩
  | true =>
  rw [if_neg (by decide)]
  obtain ⟨hjok, k, hk⟩ := h₂.sound hok₂
  change quote :: rk = _ at hk
  generalize hp₂ : jpPeek j₂ = q
  obtain ⟨ch₂, j₃⟩ := q
  refine Ends.ite (fun _ => Ends.ok (.error ?_)) fun hc => ?_
  · exact (by simpa [hp₂] using jpPeek_suffix j₂ : j₃.p <:+ j₂.p).trans (h₂.suffix.trans hsuf)
  obtain ⟨mid, rc, hs₂, rfl⟩ := jpPeek_some (not_not.1 hc ▸ hp₂)
  have hsuf₂ : rc <:+ j.p := ((List.suffix_cons _ _).trans (hs₂ ▸ List.suffix_append _ _)).trans
    (h₂.suffix.trans hsuf)
  have hlen : rc.length + 3 ≤ j.p.length := by
    simp only [hs, hk, hs₂, List.length_append, List.length_cons]
    omega
  rw [bump_cons, Run.ok_bind]
  refine Ends.bind (hv ⟨rc, j₂.ok⟩ (by simp only; omega)) fun j₄ h₄ => ?_
  cases hok₄ : j₄.ok with
  | false => exact Ends.ok ⟨h₄.suffix.trans hsuf₂, fun h => absurd (hok₄.symm.trans h) (by decide)⟩
  | true =>
  obtain ⟨-, hval⟩ := h₄.sound hok₄
  have hlt := hval.length_lt
  obtain ⟨pre, v, hs₄, -⟩ := hval
  change rc = _ at hs₄
  change _ < rc.length at hlt
  have htext : j.p = wk.bytes ++ quote :: (k.raw ++ quote :: (mid.bytes ++
      colon :: (pre.bytes ++ (v.text ++ j₄.p)))) := by
    rw [hs, hk, hs₂, hs₄]
  -- Behind the value the object is closed, or the loop goes on.
  refine afterValue_spec (h₄.suffix.trans hsuf₂) hjok (fun w r hr => ?_) fun w r hr => ?_
  · exact ⟨⟨wk, k, mid, pre, v, w⟩, [], Ws.none,
      by simp [membersText, memberText, itemText, htext, hr, Ws.none]⟩
  · rw [hr, List.length_append, List.length_cons] at hlt
    refine (hl ⟨r, j₄.ok⟩ (by simp only; omega)).mono fun j₅ h₅ => ⟨?_, fun h => ?_⟩
    · exact h₅.suffix.trans (((List.suffix_cons _ _).trans
        (hr ▸ List.suffix_append _ _)).trans (h₄.suffix.trans hsuf₂))
    · obtain ⟨-, m, ms, w', he⟩ := h₅.sound h
      exact ⟨hjok, ⟨wk, k, mid, pre, v, w⟩, m :: ms, w',
        by simpa [membersText, memberText, itemText, htext, hr] using he⟩

/-- `jp_array` walks over an array, or ends with an error. -/
theorem array_step {n : Nat} (hl : ArrayLoopSpec n) (r : Bytes) (ok : Bool)
    (hn : 3 * r.length + 2 ≤ n) :
    Ends (jpArray (n + 1) ⟨lbrack :: r, ok⟩) (Parses IsValue ⟨lbrack :: r, ok⟩) := by
  rw [jpArray_cons]
  refine Ends.ite (fun hb => ?_) fun _ => ?_
  · obtain ⟨w, r', hs, hj⟩ := jpPeek_fst hb
    change r = _ at hs
    rw [hj, bump_cons]
    refine Ends.ok ⟨?_, fun h => ⟨h, Ws.none, .arr [] w, ?_, trivial⟩⟩
    · exact (List.suffix_cons _ _).trans
        ((hs ▸ List.suffix_append _ _ : rbrack :: r' <:+ r).trans (List.suffix_cons _ _))
    · simp [Json.text, itemsText, Ws.none, hs]
  · refine (hl ⟨r, ok⟩ hn).mono fun j h => ⟨h.suffix.trans (List.suffix_cons _ _), fun hok => ?_⟩
    obtain ⟨hok', e, es, w, he⟩ := h.sound hok
    exact ⟨hok', Ws.none, .arr (e :: es) w, by simpa [Json.text, Ws.none] using he, trivial⟩

/-- `jp_object` walks over an object, or ends with an error. -/
theorem object_step {n : Nat} (hl : ObjectLoopSpec n) (r : Bytes) (ok : Bool)
    (hn : 3 * r.length + 2 ≤ n) :
    Ends (jpObject (n + 1) ⟨lbrace :: r, ok⟩) (Parses IsValue ⟨lbrace :: r, ok⟩) := by
  rw [jpObject_cons]
  refine Ends.ite (fun hb => ?_) fun _ => ?_
  · obtain ⟨w, r', hs, hj⟩ := jpPeek_fst hb
    change r = _ at hs
    rw [hj, bump_cons]
    refine Ends.ok ⟨?_, fun h => ⟨h, Ws.none, .obj [] w, ?_, trivial⟩⟩
    · exact (List.suffix_cons _ _).trans
        ((hs ▸ List.suffix_append _ _ : rbrace :: r' <:+ r).trans (List.suffix_cons _ _))
    · simp [Json.text, membersText, Ws.none, hs]
  · refine (hl ⟨r, ok⟩ hn).mono fun j h => ⟨h.suffix.trans (List.suffix_cons _ _), fun hok => ?_⟩
    obtain ⟨hok', m, ms, w, he⟩ := h.sound hok
    exact ⟨hok', Ws.none, .obj (m :: ms) w, by simpa [Json.text, Ws.none] using he, trivial⟩

/-- Whitespace in front of a value. -/
theorem IsValue.ws {s r : Bytes} (w : Ws) (h : IsValue s r) : IsValue (w.bytes ++ s) r := by
  obtain ⟨w', v, rfl, hr⟩ := h
  exact ⟨w.append w', v, by simp [Ws.append], hr⟩

theorem value_step {n : Nat} (ha : ∀ m, m + 1 = n → ArrayLoopSpec m)
    (ho : ∀ m, m + 1 = n → ObjectLoopSpec m) : ValueSpec (n + 1) := by
  intro j hn
  obtain ⟨w, r, hs, hp⟩ := jpPeek_spec j
  have hsuf : r <:+ j.p := hs ▸ List.suffix_append _ _
  have hlen : r.length ≤ j.p.length := hsuf.length_le
  -- The whitespace belongs to the value.
  have hws : ∀ {j'}, Parses IsValue ⟨r, j.ok⟩ j' → Parses IsValue j j' := fun h =>
    ⟨h.suffix.trans hsuf, fun hok => ⟨(h.sound hok).1, hs ▸ (h.sound hok).2.ws w⟩⟩
  rw [jpValue, hp]
  cases r with
  | nil => exact Ends.ok (.error hsuf)
  | cons c r =>
  rw [List.length_cons] at hlen
  simp only [List.head?_cons]
  refine Ends.ite (fun hc => ?_) fun _ => Ends.ite (fun hc => ?_) fun _ =>
    Ends.ite (fun hc => ?_) fun _ => Ends.ite (fun hc => ?_) fun _ => Ends.ite (fun hc => ?_)
      fun _ => Ends.ok (hws (.error (List.suffix_refl _)))
  · subst hc
    refine (jpString_spec r j.ok).mono fun j' h => hws ⟨h.suffix, fun hok => ⟨(h.sound hok).1, ?_⟩⟩
    obtain ⟨-, t, ht⟩ := h.sound hok
    exact ⟨Ws.none, .str t, by simpa [Json.text, Ws.none] using ht, trivial⟩
  · subst hc
    obtain ⟨m, rfl⟩ : ∃ m, n = m + 1 := ⟨n - 1, by omega⟩
    exact (object_step (ho m rfl) r j.ok (by omega)).mono fun j' => hws
  · subst hc
    obtain ⟨m, rfl⟩ : ∃ m, n = m + 1 := ⟨n - 1, by omega⟩
    exact (array_step (ha m rfl) r j.ok (by omega)).mono fun j' => hws
  · refine Ends.ok (hws ?_)
    have h := jpLiteral_spec hc r j.ok
    refine ⟨h.suffix, fun hok => ⟨(h.sound hok).1, ?_⟩⟩
    obtain ⟨-, t, ht, hstop⟩ := h.sound hok
    exact ⟨Ws.none, .lit t, by simpa [Json.text, Ws.none] using ht, hstop⟩
  · refine Ends.ok (hws ?_)
    have h := jpNumber_spec hc r j.ok
    refine ⟨h.suffix, fun hok => ⟨(h.sound hok).1, ?_⟩⟩
    obtain ⟨-, t, ht, hstop⟩ := h.sound hok
    exact ⟨Ws.none, .num t, by simpa [Json.text, Ws.none] using ht, hstop⟩

theorem parser_spec (n : Nat) : ValueSpec n ∧ ArrayLoopSpec n ∧ ObjectLoopSpec n := by
  induction n using Nat.strong_induction_on with
  | _ n ih =>
  cases n with
  | zero => exact ⟨fun j h => by omega, fun j h => by omega, fun j h => by omega⟩
  | succ n =>
    obtain ⟨hv, ha, ho⟩ := ih n (Nat.lt_succ_self n)
    refine ⟨value_step (fun m hm => ?_) (fun m hm => ?_), arrayLoop_step hv ha,
      objectLoop_step hv ho⟩
    · exact (ih m (by omega)).2.1
    · exact (ih m (by omega)).2.2

/-- On every buffer, `jp_value` ends without a fault; if it ends without an
    error, it has walked over a value. -/
theorem jpValue_spec {n : Nat} {j : JsonParser} (hn : 3 * j.p.length + 1 ≤ n) :
    Ends (jpValue n j) (Parses IsValue j) :=
  (parser_spec n).1 j hn

/-! ## Exactness -/

/-- What ends a value of JSON in a text: whitespace, a comma, a closing bracket, or
    the end of the text. -/
def EndsValue (r : Bytes) : Prop := ∀ c ∈ r.head?, isWs c = true ∨ c = comma ∨ c = rbrack ∨
    c = rbrace

theorem Json.stops_of_endsValue (v : Json) {r : Bytes} (hr : EndsValue r) : v.Stops r := by
  cases r with
  | nil => cases v <;> first | trivial | exact fun c hc => absurd hc (by simp)
  | cons c r =>
    rcases hr c rfl with hc | rfl | rfl | rfl
    · exact v.stops_of_isDelim (isDelim_of_isWs c hc) r
    · exact v.stops_of_isDelim (by decide) r
    · exact v.stops_of_isDelim (by decide) r
    · exact v.stops_of_isDelim (by decide) r

/-- From any position of a buffer, `jp_value` succeeds and stops at `r` if and only
    if whitespace and a value stand in between, the tokens of which are as long
    as they can be. In particular it stops right behind every valid value. -/
theorem jpValue_exact {src s : Bytes} (hs : s <:+ src) :
    (∀ r, jpValue (fuelFor src) ⟨s, true⟩ = .ok ⟨r, true⟩ ↔ IsValue s r) ∧
      ∀ (w : Ws) (v : Json) (r : Bytes), v.Valid → EndsValue r → s = w.bytes ++ (v.text ++ r) →
        jpValue (fuelFor src) ⟨s, true⟩ = .ok ⟨r, true⟩ := by
  have hlen := hs.length_le
  have hwalks : ∀ (w : Ws) (v : Json) (r : Bytes), v.Stops r → s = w.bytes ++ (v.text ++ r) →
      jpValue (fuelFor src) ⟨s, true⟩ = .ok ⟨r, true⟩ := by
    rintro w v r hstop rfl
    rw [List.length_append] at hlen
    exact jpValue_text v w r _ hstop (by rw [fuelFor]; omega)
  refine ⟨fun r => ⟨fun hrun => ?_, ?_⟩, fun w v r _ hr => hwalks w v r (v.stops_of_endsValue hr)⟩
  · obtain ⟨j, hj, hparses⟩ := jpValue_spec (n := fuelFor src) (j := ⟨s, true⟩)
      (by simp only [fuelFor]; omega)
    obtain rfl := Except.ok.inj (hj.symm.trans hrun)
    exact (hparses.sound rfl).2
  · rintro ⟨w, v, hsrc, hstop⟩
    exact hwalks w v r hstop hsrc

end MongrelDB
