import Mathlib.Data.List.DropRight
import MongrelDB.Parser

/-!
# Walking over a value

On the text of a value, `jp_value` stops exactly behind it (`jpValue_text`):
whatever the layout, at every depth, and whatever follows, as long as it does
not run on a last number or literal (`Json.Stops`). Inside an array or an
object that is no condition, since a comma or a bracket follows.
-/

namespace MongrelDB

open Ascii

@[simp] theorem Run.ok_bind {α β : Type} (a : α) (f : α → Run β) :
    ((Except.ok a : Run α) >>= f) = f a := rfl

@[simp] theorem Run.error_bind {α β : Type} (e : Fault) (f : α → Run β) :
    ((Except.error e : Run α) >>= f) = .error e := rfl

@[simp] theorem Run.pure_eq {α : Type} (a : α) : (pure a : Run α) = .ok a := rfl

/-! ## Where a run of characters stops -/

/-- A text does not begin with a character of the class `p`. -/
def StopsAt (p : UInt8 → Bool) (r : Bytes) : Prop := ∀ c ∈ r.head?, p c = false

theorem stopsAt_cons {p : UInt8 → Bool} {c : UInt8} (h : p c = false) (r : Bytes) :
    StopsAt p (c :: r) := by
  simpa [StopsAt] using h

theorem stopsAt_dropWhile (p : UInt8 → Bool) (r : Bytes) : StopsAt p (r.dropWhile p) := by
  intro c hc
  have := List.head?_dropWhile_not p r
  rw [Option.mem_def.1 hc] at this
  simpa using this

/-- A run of characters of a class is dropped, up to where the class stops. -/
theorem dropWhile_append {p : UInt8 → Bool} {w r : Bytes} (hw : w.all p = true)
    (hr : StopsAt p r) : (w ++ r).dropWhile p = r := by
  rw [List.dropWhile_append_of_pos fun c hc => List.all_eq_true.1 hw c hc]
  cases r with
  | nil => rfl
  | cons c r => exact List.dropWhile_cons_of_neg (by simpa [StopsAt] using hr)

/-- A character that ends every number and every literal. -/
def isDelim (c : UInt8) : Bool := !isNumberChar c && !isLiteralChar c

theorem isDelim_of_isWs : ∀ c, isWs c = true → isDelim c = true := forall_byte (by decide)

/-- A first character of a value. -/
def startsValue (c : UInt8) : Bool :=
  c == quote || c == lbrace || c == lbrack || startsLiteral c || startsNumber c

theorem not_isWs_of_startsValue : ∀ c, startsValue c = true → isWs c = false :=
  forall_byte (by decide)

theorem startsValue_ne_rbrack : ∀ c, startsValue c = true → c ≠ rbrack := forall_byte (by decide)

theorem not_isWs_quote : isWs quote = false := rfl

/-- The first character of a value. -/
theorem Json.text_starts (j : Json) : ∃ c t, j.text = c :: t ∧ startsValue c = true := by
  cases j with
  | lit t =>
    obtain ⟨text, wf⟩ := t
    cases text with
    | nil => exact absurd wf (by decide)
    | cons c r =>
      rw [isLitTok, Bool.and_eq_true] at wf
      exact ⟨c, r, by simp [Json.text], by simp [startsValue, wf.1]⟩
  | num t =>
    obtain ⟨text, wf⟩ := t
    cases text with
    | nil => exact absurd wf (by decide)
    | cons c r =>
      rw [isNumTok, Bool.and_eq_true] at wf
      exact ⟨c, r, by simp [Json.text], by simp [startsValue, wf.1]⟩
  | str t => exact ⟨_, _, by rw [Json.text], by decide⟩
  | arr es w => exact ⟨_, _, by rw [Json.text], by decide⟩
  | obj ms w => exact ⟨_, _, by rw [Json.text], by decide⟩

/-- What follows a value does not run on its last token. -/
def Json.Stops : Json → Bytes → Prop
  | .lit _, r => StopsAt isLiteralChar r
  | .num _, r => StopsAt isNumberChar r
  | _, _ => True

theorem Json.stops_of_isDelim (j : Json) {c : UInt8} (hc : isDelim c = true) (r : Bytes) :
    j.Stops (c :: r) := by
  simp only [isDelim, Bool.and_eq_true, Bool.not_eq_true'] at hc
  cases j <;> first | trivial | exact stopsAt_cons hc.1 r | exact stopsAt_cons hc.2 r

/-- Whitespace and a delimiter end every value. -/
theorem Json.stops_ws (j : Json) (w : Ws) {c : UInt8} (hc : isDelim c = true) (r : Bytes) :
    j.Stops (w.bytes ++ c :: r) := by
  obtain ⟨w, hw⟩ := w
  cases w with
  | nil => exact j.stops_of_isDelim hc r
  | cons d w =>
    rw [List.all_cons, Bool.and_eq_true] at hw
    exact j.stops_of_isDelim (isDelim_of_isWs d hw.1) _

theorem Json.stops_ws₂ (j : Json) (v w : Ws) {c : UInt8} (hc : isDelim c = true) (r : Bytes) :
    j.Stops (v.bytes ++ (w.bytes ++ c :: r)) := by
  rw [← List.append_assoc]
  exact j.stops_ws (v.append w) hc r

/-! ## Tokens -/

@[simp] theorem bump_cons (c : UInt8) (r : Bytes) (ok : Bool) :
    JsonParser.bump ⟨c :: r, ok⟩ = .ok ⟨r, ok⟩ := rfl

@[simp] theorem ptrSucc_cons (c : UInt8) (r : Bytes) : ptrSucc (c :: r) = .ok r := rfl

theorem jpSkipWs_idem (j : JsonParser) : jpSkipWs (jpSkipWs j) = jpSkipWs j := by
  simp only [jpSkipWs, List.dropWhile_idempotent isWs j.p]

theorem jpPeek_skipWs (j : JsonParser) : jpPeek (jpSkipWs j) = jpPeek j := by
  simp only [jpPeek, jpSkipWs_idem]

theorem jpSkipWs_ws (w : Ws) {r : Bytes} (hr : StopsAt isWs r) (ok : Bool) :
    jpSkipWs ⟨w.bytes ++ r, ok⟩ = ⟨r, ok⟩ := by
  simp [jpSkipWs, dropWhile_append w.wf hr]

/-- The next token after whitespace is peeked at. -/
theorem jpPeek_ws (w : Ws) {c : UInt8} (hc : isWs c = false) (r : Bytes) (ok : Bool) :
    jpPeek ⟨w.bytes ++ c :: r, ok⟩ = (some c, ⟨c :: r, ok⟩) := by
  simp [jpPeek, jpSkipWs_ws w (stopsAt_cons hc r)]

theorem jpPeek_ws₂ (v w : Ws) {c : UInt8} (hc : isWs c = false) (r : Bytes) (ok : Bool) :
    jpPeek ⟨v.bytes ++ (w.bytes ++ c :: r), ok⟩ = (some c, ⟨c :: r, ok⟩) := by
  rw [← List.append_assoc]
  exact jpPeek_ws (v.append w) hc r ok

theorem jpPeek_cons {c : UInt8} (hc : isWs c = false) (r : Bytes) (ok : Bool) :
    jpPeek ⟨c :: r, ok⟩ = (some c, ⟨c :: r, ok⟩) :=
  jpPeek_ws Ws.none hc r ok

/-- The value after whitespace is peeked at. -/
theorem jpPeek_value (w : Ws) (j : Json) (r : Bytes) (ok : Bool) :
    ∃ c t, j.text = c :: t ∧ startsValue c = true ∧
      jpPeek ⟨w.bytes ++ (j.text ++ r), ok⟩ = (some c, ⟨j.text ++ r, ok⟩) := by
  obtain ⟨c, t, ht, hc⟩ := j.text_starts
  refine ⟨c, t, ht, hc, ?_⟩
  rw [ht, List.cons_append, jpPeek_ws w (not_isWs_of_startsValue c hc)]

theorem jpStringLoop_closed {raw : Bytes} (h : isClosed raw = true) (r : Bytes) (ok : Bool) :
    jpStringLoop ok (raw ++ quote :: r) = ⟨r, ok⟩ := by
  have hend : ∀ r, jpStringLoop ok (quote :: r) = ⟨r, ok⟩ := fun r => by
    cases r <;> simp +decide [jpStringLoop]
  induction raw using isClosed.induct with
  | case1 => exact hend r
  | case2 c =>
    simp only [isClosed, Bool.and_eq_true, bne_iff_ne, ne_eq] at h
    simpa [jpStringLoop, h] using hend r
  | case3 d raw ih =>
    rw [isClosed, if_pos rfl] at h
    simpa [jpStringLoop] using ih h
  | case4 c d raw hc ih =>
    rw [isClosed, if_neg hc, Bool.and_eq_true, bne_iff_ne] at h
    simpa [jpStringLoop, hc, h.1] using ih h.2

/-- `jp_string` walks over a string token. -/
theorem jpString_closed (t : StrTok) (r : Bytes) (ok : Bool) :
    jpString ⟨quote :: (t.raw ++ quote :: r), ok⟩ = .ok ⟨r, ok⟩ := by
  simp [jpString, jpStringLoop_closed t.wf]

theorem jpNumber_tok (t : NumTok) {r : Bytes} (hr : StopsAt isNumberChar r) (ok : Bool) :
    jpNumber ⟨t.text ++ r, ok⟩ = ⟨r, ok⟩ := by
  obtain ⟨text, wf⟩ := t
  cases text with
  | nil => exact absurd wf (by decide)
  | cons c s =>
    rw [isNumTok, Bool.and_eq_true] at wf
    simp [jpNumber, isNumberChar_of_startsNumber c wf.1, dropWhile_append wf.2 hr]

theorem jpLiteral_tok (t : LitTok) {r : Bytes} (hr : StopsAt isLiteralChar r) (ok : Bool) :
    jpLiteral ⟨t.text ++ r, ok⟩ = ⟨r, ok⟩ := by
  obtain ⟨text, wf⟩ := t
  cases text with
  | nil => exact absurd wf (by decide)
  | cons c s =>
    rw [isLitTok, Bool.and_eq_true] at wf
    simp [jpLiteral, isLiteralChar_of_startsLiteral c wf.1, dropWhile_append wf.2 hr]

/-! ## Values -/

theorem jpValue_skipWs (n : Nat) (j : JsonParser) : jpValue n (jpSkipWs j) = jpValue n j := by
  cases n <;> simp only [jpValue, jpPeek_skipWs]

theorem jpArrayLoop_skipWs (n : Nat) (j : JsonParser) :
    jpArrayLoop n (jpSkipWs j) = jpArrayLoop n j := by
  cases n <;> simp only [jpArrayLoop, jpValue_skipWs]

theorem jpObjectLoop_skipWs (n : Nat) (j : JsonParser) :
    jpObjectLoop n (jpSkipWs j) = jpObjectLoop n j := by
  cases n <;> simp only [jpObjectLoop, jpSkipWs_idem]

theorem jpArray_cons (n : Nat) (c : UInt8) (r : Bytes) (ok : Bool) :
    jpArray (n + 1) ⟨c :: r, ok⟩ =
      if (jpPeek ⟨r, ok⟩).1 = some rbrack then (jpPeek ⟨r, ok⟩).2.bump
      else jpArrayLoop n ⟨r, ok⟩ := by
  rw [← jpArrayLoop_skipWs]
  simp only [jpArray, bump_cons, Run.ok_bind, jpPeek_skipWs]
  rfl

theorem jpObject_cons (n : Nat) (c : UInt8) (r : Bytes) (ok : Bool) :
    jpObject (n + 1) ⟨c :: r, ok⟩ =
      if (jpPeek ⟨r, ok⟩).1 = some rbrace then (jpPeek ⟨r, ok⟩).2.bump
      else jpObjectLoop n ⟨r, ok⟩ := by
  rw [← jpObjectLoop_skipWs]
  simp only [jpObject, bump_cons, Run.ok_bind, jpPeek_skipWs]
  rfl

/-- `jp_value` walks over the value `j`, given enough fuel. -/
def Walks (j : Json) : Prop :=
  ∀ (w : Ws) (r : Bytes) (n : Nat), j.Stops r → 3 * (j.text ++ r).length + 1 ≤ n →
    jpValue n ⟨w.bytes ++ (j.text ++ r), true⟩ = .ok ⟨r, true⟩

/-- An element, in the loop of `jp_array`: how it goes on is told by what stands behind it. -/
theorem jpArrayLoop_item {e : Item Json} (he : Walks e.val) (u : Ws) {c : UInt8}
    (hc : isWs c = false) (hd : isDelim c = true) (x : Bytes) {n : Nat}
    (hn : 3 * (itemText e ++ (u.bytes ++ c :: x)).length + 1 ≤ n) :
    jpArrayLoop (n + 1) ⟨itemText e ++ (u.bytes ++ c :: x), true⟩ =
      if c = comma then jpArrayLoop n ⟨x, true⟩
      else .ok (if c = rbrack then ⟨x, true⟩ else ⟨c :: x, false⟩) := by
  obtain ⟨pre, v, post⟩ := e
  simp only [itemText, List.append_assoc, List.length_append, List.length_cons] at hn ⊢
  rw [jpArrayLoop, he pre _ n (v.stops_ws₂ post u hd x)
    (by simp only [List.length_append, List.length_cons]; omega), Run.ok_bind, jpPeek_ws₂ post u hc]
  simp only [Bool.not_true, Bool.false_eq_true, if_false, Option.some.injEq, bump_cons, Run.ok_bind]
  split_ifs <;> rfl

/-- The loop of `jp_array` walks over the elements, if `jp_value` does over each. -/
theorem jpArrayLoop_items {es : List (Item Json)} (hne : es ≠ []) (hes : ∀ e ∈ es, Walks e.val)
    (w : Ws) (r : Bytes) {n : Nat}
    (hn : 3 * (itemsText es ++ (w.bytes ++ rbrack :: r)).length + 2 ≤ n) :
    jpArrayLoop n ⟨itemsText es ++ (w.bytes ++ rbrack :: r), true⟩ = .ok ⟨r, true⟩ := by
  induction es generalizing n with
  | nil => exact absurd rfl hne
  | cons e es ih =>
    obtain ⟨n, rfl⟩ : ∃ m, n = m + 1 := ⟨n - 1, by omega⟩
    have he : Walks e.val := hes _ List.mem_cons_self
    -- The last item is followed by the bracket, any other by a comma.
    cases es with
    | nil =>
      rw [itemsText] at hn ⊢
      rw [jpArrayLoop_item he w (by decide) (by decide) r (by omega), if_neg (by decide),
        if_pos rfl]
    | cons e' es =>
      have htext : itemsText (e :: e' :: es) ++ (w.bytes ++ rbrack :: r) = itemText e ++
          (Ws.none.bytes ++ comma :: (itemsText (e' :: es) ++ (w.bytes ++ rbrack :: r))) := by
        simp [itemsText, Ws.none]
      rw [htext] at hn ⊢
      rw [jpArrayLoop_item he Ws.none (by decide) (by decide) _ (by omega), if_pos rfl]
      refine ih (List.cons_ne_nil _ _) (fun e he => hes e (List.mem_cons_of_mem _ he)) ?_
      rw [List.length_append, List.length_append, List.length_cons] at hn
      omega

/-- A member, in the loop of `jp_object`: how it goes on is told by what stands behind it. -/
theorem jpObjectLoop_member {m : Member Json} (hm : Walks m.val) (u : Ws) {c : UInt8}
    (hc : isWs c = false) (hd : isDelim c = true) (x : Bytes) {n : Nat}
    (hn : 3 * (memberText m ++ (u.bytes ++ c :: x)).length + 1 ≤ n) :
    jpObjectLoop (n + 1) ⟨memberText m ++ (u.bytes ++ c :: x), true⟩ =
      if c = comma then jpObjectLoop n ⟨x, true⟩
      else .ok (if c = rbrace then ⟨x, true⟩ else ⟨c :: x, false⟩) := by
  obtain ⟨prek, k, mid, pre, v, post⟩ := m
  change Walks v at hm
  simp only [memberText, itemText, List.append_assoc, List.cons_append, List.length_append,
    List.length_cons] at hn ⊢
  rw [jpObjectLoop, jpPeek_skipWs, jpPeek_ws prek not_isWs_quote]
  simp only [ne_eq, not_true_eq_false, if_false, jpString_closed, Run.ok_bind,
    jpPeek_ws mid (show isWs colon = false by decide), bump_cons, Bool.not_true,
    Bool.false_eq_true]
  rw [hm pre _ n (v.stops_ws₂ post u hd x)
    (by simp only [List.length_append, List.length_cons]; omega), Run.ok_bind, jpPeek_ws₂ post u hc]
  simp only [Bool.not_true, Bool.false_eq_true, if_false, Option.some.injEq, bump_cons, Run.ok_bind]
  split_ifs <;> rfl

/-- The loop of `jp_object` walks over the members, if `jp_value` does over each value. -/
theorem jpObjectLoop_members {ms : List (Member Json)} (hne : ms ≠ [])
    (hms : ∀ m ∈ ms, Walks m.val) (w : Ws) (r : Bytes) {n : Nat}
    (hn : 3 * (membersText ms ++ (w.bytes ++ rbrace :: r)).length + 2 ≤ n) :
    jpObjectLoop n ⟨membersText ms ++ (w.bytes ++ rbrace :: r), true⟩ = .ok ⟨r, true⟩ := by
  induction ms generalizing n with
  | nil => exact absurd rfl hne
  | cons m ms ih =>
    obtain ⟨n, rfl⟩ : ∃ m, n = m + 1 := ⟨n - 1, by omega⟩
    have hm : Walks m.val := hms _ List.mem_cons_self
    -- The last member is followed by the brace, any other by a comma.
    cases ms with
    | nil =>
      rw [membersText] at hn ⊢
      rw [jpObjectLoop_member hm w (by decide) (by decide) r (by omega), if_neg (by decide),
        if_pos rfl]
    | cons m' ms =>
      have htext : membersText (m :: m' :: ms) ++ (w.bytes ++ rbrace :: r) = memberText m ++
          (Ws.none.bytes ++ comma :: (membersText (m' :: ms) ++ (w.bytes ++ rbrace :: r))) := by
        simp [membersText, Ws.none]
      rw [htext] at hn ⊢
      rw [jpObjectLoop_member hm Ws.none (by decide) (by decide) _ (by omega), if_pos rfl]
      refine ih (List.cons_ne_nil _ _) (fun m hm => hms m (List.mem_cons_of_mem _ hm)) ?_
      rw [List.length_append, List.length_append, List.length_cons] at hn
      omega

theorem startsLiteral_ne : ∀ c, startsLiteral c = true → c ≠ quote ∧ c ≠ lbrace ∧ c ≠ lbrack :=
  forall_byte (by decide)

theorem startsNumber_ne : ∀ c, startsNumber c = true →
    c ≠ quote ∧ c ≠ lbrace ∧ c ≠ lbrack ∧ startsLiteral c = false :=
  forall_byte (by decide)

/-- On the text of a value, `jp_value` stops exactly behind it. -/
theorem jpValue_text (j : Json) : Walks j := by
  induction j using Json.induct with
  | lit t =>
    intro w r n hr hn
    obtain ⟨n, rfl⟩ : ∃ m, n = m + 1 := ⟨n - 1, by omega⟩
    obtain ⟨c, s, hs, _, hpeek⟩ := jpPeek_value w (.lit t) r true
    have hc : startsLiteral c = true := by
      have := t.wf
      rw [Json.text] at hs
      rw [hs, isLitTok, Bool.and_eq_true] at this
      exact this.1
    obtain ⟨h₁, h₂, h₃⟩ := startsLiteral_ne c hc
    rw [jpValue, hpeek]
    simp only [h₁, h₂, h₃, hc, if_false, if_true, Run.pure_eq, Json.text, jpLiteral_tok t hr]
  | num t =>
    intro w r n hr hn
    obtain ⟨n, rfl⟩ : ∃ m, n = m + 1 := ⟨n - 1, by omega⟩
    obtain ⟨c, s, hs, _, hpeek⟩ := jpPeek_value w (.num t) r true
    have hc : startsNumber c = true := by
      have := t.wf
      rw [Json.text] at hs
      rw [hs, isNumTok, Bool.and_eq_true] at this
      exact this.1
    obtain ⟨h₁, h₂, h₃, h₄⟩ := startsNumber_ne c hc
    rw [jpValue, hpeek]
    simp only [h₁, h₂, h₃, h₄, hc, Bool.false_eq_true, if_false, if_true, Run.pure_eq, Json.text,
      jpNumber_tok t hr]
  | str t =>
    intro w r n _ hn
    obtain ⟨n, rfl⟩ : ∃ m, n = m + 1 := ⟨n - 1, by omega⟩
    rw [Json.text, List.cons_append, jpValue, jpPeek_ws w not_isWs_quote]
    simp only [if_true, List.append_assoc, List.singleton_append, jpString_closed]
  | arr es w' ih =>
    intro w r n _ hn
    simp only [Json.text, List.append_assoc, List.cons_append, List.nil_append,
      List.length_append, List.length_cons] at hn ⊢
    obtain ⟨n, rfl⟩ : ∃ m, n = m + 2 := ⟨n - 2, by omega⟩
    rw [jpValue, jpPeek_ws w (by decide)]
    simp only [show lbrack ≠ quote by decide, show lbrack ≠ lbrace by decide, if_false, if_true]
    rw [jpArray_cons]
    cases es with
    | nil =>
      rw [itemsText, List.nil_append, jpPeek_ws w' (by decide)]
      simp only [if_true, bump_cons]
    | cons e es =>
      -- A first element: its first character is no bracket.
      have hpeek : (jpPeek ⟨itemsText (e :: es) ++ (w'.bytes ++ rbrack :: r), true⟩).1 ≠
          some rbrack := by
        obtain ⟨pre, v, post⟩ := e
        have hcons : ∃ s, itemsText (⟨pre, v, post⟩ :: es) ++ (w'.bytes ++ rbrack :: r) =
            pre.bytes ++ (v.text ++ s) := by
          cases es <;> simp [itemsText, itemText]
        obtain ⟨s, hs⟩ := hcons
        obtain ⟨c, t, _, hc, hp⟩ := jpPeek_value pre v s true
        rw [hs, hp]
        simpa using startsValue_ne_rbrack c hc
      rw [if_neg hpeek]
      exact jpArrayLoop_items (List.cons_ne_nil _ _) ih w' r
        (by simp only [List.length_append, List.length_cons]; omega)
  | obj ms w' ih =>
    intro w r n _ hn
    simp only [Json.text, List.append_assoc, List.cons_append, List.nil_append,
      List.length_append, List.length_cons] at hn ⊢
    obtain ⟨n, rfl⟩ : ∃ m, n = m + 2 := ⟨n - 2, by omega⟩
    rw [jpValue, jpPeek_ws w (by decide)]
    simp only [show lbrace ≠ quote by decide, if_false, if_true]
    rw [jpObject_cons]
    cases ms with
    | nil =>
      rw [membersText, List.nil_append, jpPeek_ws w' (by decide)]
      simp only [if_true, bump_cons]
    | cons m ms =>
      -- A first member: it begins with a quote.
      have hpeek : (jpPeek ⟨membersText (m :: ms) ++ (w'.bytes ++ rbrace :: r), true⟩).1 =
          some quote := by
        obtain ⟨prek, k, mid, it⟩ := m
        cases ms <;> simp [membersText, memberText, jpPeek_ws prek not_isWs_quote]
      rw [hpeek, if_neg (by decide)]
      exact jpObjectLoop_members (List.cons_ne_nil _ _) ih w' r
        (by simp only [List.length_append, List.length_cons]; omega)

end MongrelDB
