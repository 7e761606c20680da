import MongrelDB.Lib.Json

/-!
# Matching brackets

Where the bracket is that matches the first one of a text: the brackets opened
behind it are closed in order, and those inside strings do not count
(`behindClosing`). The text of a value is balanced (`Json.balanced`), and that of
an object ends with the bracket that matches its first one
(`behindClosing_obj`), whatever follows it.
-/

namespace MongrelDB

open Ascii

/-- Where in a text a character stands: between the tokens or in one without
    quotes, inside a string, or behind a `\` of a string. -/
inductive Place where
  | plain
  | string
  | escape
  deriving DecidableEq

/-- What stands behind the bracket that closes the last of the brackets `opened`,
    of each of which the closing one is given, the innermost first. -/
def behindClosing : Place → List UInt8 → Bytes → Option Bytes
  | _, _, [] => none
  | .plain, opened, c :: r =>
    if c = quote then behindClosing .string opened r
    else if c = lbrace then behindClosing .plain (rbrace :: opened) r
    else if c = lbrack then behindClosing .plain (rbrack :: opened) r
    else if c = rbrace ∨ c = rbrack then
      if opened.head? ≠ some c then none
      else if opened.tail = [] then some r
      else behindClosing .plain opened.tail r
    else behindClosing .plain opened r
  | .string, opened, c :: r =>
    if c = backslash then behindClosing .escape opened r
    else if c = quote then behindClosing .plain opened r
    else behindClosing .string opened r
  | .escape, opened, _ :: r => behindClosing .string opened r

/-- A character that is neither a quote nor a bracket. -/
def isFlat (c : UInt8) : Bool :=
  c != quote && c != lbrace && c != lbrack && c != rbrace && c != rbrack

variable {opened : List UInt8} (r : Bytes)

theorem behindClosing_flat {s : Bytes} (h : s.all isFlat = true) :
    behindClosing .plain opened (s ++ r) = behindClosing .plain opened r := by
  induction s with
  | nil => rfl
  | cons c s ih =>
    rw [List.all_cons, Bool.and_eq_true] at h
    simp only [isFlat, Bool.and_eq_true, bne_iff_ne] at h
    obtain ⟨⟨⟨⟨⟨hq, hb⟩, hk⟩, hb'⟩, hk'⟩, hs⟩ := h
    rw [List.cons_append, behindClosing, if_neg hq, if_neg hb, if_neg hk,
      if_neg (not_or.2 ⟨hb', hk'⟩)]
    exact ih hs

theorem behindClosing_ws (w : Ws) :
    behindClosing .plain opened (w.bytes ++ r) = behindClosing .plain opened r := by
  have hflat : ∀ c, isWs c = true → isFlat c = true := forall_byte (by decide)
  exact behindClosing_flat r (List.all_eq_true.2 fun c hc => hflat c (List.all_eq_true.1 w.wf c hc))

theorem behindClosing_num (t : NumTok) :
    behindClosing .plain opened (t.text ++ r) = behindClosing .plain opened r := by
  have hflat : ∀ c, isNumberChar c = true → isFlat c = true := forall_byte (by decide)
  exact behindClosing_flat r (List.all_eq_true.2 fun c hc =>
    hflat c (List.all_eq_true.1 (all_isNumberChar_of_isNumTok t.wf) c hc))

theorem behindClosing_lit (t : LitTok) :
    behindClosing .plain opened (t.text ++ r) = behindClosing .plain opened r := by
  have hflat : ∀ c, isLiteralChar c = true → isFlat c = true := forall_byte (by decide)
  refine behindClosing_flat r (List.all_eq_true.2 fun c hc => hflat c ?_)
  obtain ⟨_ | ⟨d, s⟩, wf⟩ := t
  · exact absurd hc List.not_mem_nil
  · rw [isLitTok, Bool.and_eq_true] at wf
    rcases List.mem_cons.1 hc with rfl | hs
    · exact isLiteralChar_of_startsLiteral c wf.1
    · exact List.all_eq_true.1 wf.2 c hs

/-- A closed run of bytes does not leave the string it is in. -/
theorem behindClosing_closed {raw : Bytes} (h : isClosed raw = true) :
    behindClosing .string opened (raw ++ quote :: r) = behindClosing .plain opened r := by
  have hend : behindClosing .string opened (quote :: r) = behindClosing .plain opened r := by
    rw [behindClosing, if_neg (by decide), if_pos rfl]
  induction raw using isClosed.induct with
  | case1 => exact hend
  | case2 c =>
    rw [isClosed, Bool.and_eq_true, bne_iff_ne, bne_iff_ne] at h
    rw [List.singleton_append, behindClosing, if_neg h.2, if_neg h.1, hend]
  | case3 d raw ih =>
    rw [isClosed, if_pos rfl] at h
    rw [List.cons_append, List.cons_append, behindClosing, if_pos rfl, behindClosing, ih h]
  | case4 c d raw hc ih =>
    rw [isClosed, if_neg hc, Bool.and_eq_true, bne_iff_ne] at h
    rw [List.cons_append, behindClosing, if_neg hc, if_neg h.1, ih h.2]

theorem behindClosing_str (t : StrTok) :
    behindClosing .plain opened (quote :: (t.raw ++ quote :: r)) =
      behindClosing .plain opened r := by
  rw [behindClosing, if_pos rfl, behindClosing_closed r t.wf]

/-- Behind a bracket that closes one of several. -/
theorem behindClosing_close {c : UInt8} (hc : c = rbrace ∨ c = rbrack) (hne : opened ≠ []) :
    behindClosing .plain (c :: opened) (c :: r) = behindClosing .plain opened r := by
  have hopen : c ≠ quote ∧ c ≠ lbrace ∧ c ≠ lbrack := by
    rcases hc with rfl | rfl <;> decide
  rw [behindClosing, if_neg hopen.1, if_neg hopen.2.1, if_neg hopen.2.2, if_pos hc,
    List.head?_cons, if_neg (not_not.2 rfl), List.tail_cons, if_neg hne]

/-- Behind the bracket that closes the last one. -/
theorem behindClosing_last {c : UInt8} (hc : c = rbrace ∨ c = rbrack) :
    behindClosing .plain [c] (c :: r) = some r := by
  have hopen : c ≠ quote ∧ c ≠ lbrace ∧ c ≠ lbrack := by
    rcases hc with rfl | rfl <;> decide
  rw [behindClosing, if_neg hopen.1, if_neg hopen.2.1, if_neg hopen.2.2, if_pos hc,
    List.head?_cons, if_neg (not_not.2 rfl), List.tail_cons, if_pos rfl]

/-- A text closes every bracket it opens, and no other. -/
def Balanced (s : Bytes) : Prop :=
  ∀ opened r, opened ≠ [] → behindClosing .plain opened (s ++ r) = behindClosing .plain opened r

theorem Balanced.append {s t : Bytes} (hs : Balanced s) (ht : Balanced t) : Balanced (s ++ t) :=
  fun opened r hne => by rw [List.append_assoc, hs opened _ hne, ht opened r hne]

theorem Balanced.ws (w : Ws) : Balanced w.bytes := fun _ r _ => behindClosing_ws r w

theorem Balanced.flat {c : UInt8} (h : isFlat c = true) : Balanced [c] :=
  fun _ r _ => behindClosing_flat r (by rw [List.all_cons, h]; rfl)

/-- Balanced texts stay so with commas between them. -/
theorem Balanced.commaSep {xs : List Bytes} (h : ∀ x ∈ xs, Balanced x) :
    Balanced (commaSep xs) := by
  induction xs with
  | nil => exact fun _ _ _ => rfl
  | cons x xs ih =>
    cases xs with
    | nil => exact h x List.mem_cons_self
    | cons y ys =>
      have hrest := ih fun z hz => h z (List.mem_cons_of_mem _ hz)
      exact (h x List.mem_cons_self).append ((Balanced.flat (c := comma) (by decide)).append hrest)

theorem Balanced.item {e : Item Json} (h : Balanced e.val.text) : Balanced (itemText e) := by
  obtain ⟨pre, v, post⟩ := e
  rw [itemText]
  exact (Balanced.ws pre).append (h.append (.ws post))

theorem Balanced.member {m : Member Json} (h : Balanced m.val.text) : Balanced (memberText m) := by
  obtain ⟨pre, k, mid, it⟩ := m
  have hitem := Balanced.item h
  intro opened r hne
  simp only [memberText, List.append_assoc, List.cons_append]
  rw [behindClosing_ws, behindClosing_str, behindClosing_ws]
  exact ((Balanced.flat (c := colon) (by decide)).append hitem) opened r hne

/-- The text of every value is balanced. -/
theorem Json.balanced (j : Json) : Balanced j.text := by
  induction j using Json.induct with
  | lit t =>
    rw [Json.text]
    exact fun _ r _ => behindClosing_lit r t
  | num t =>
    rw [Json.text]
    exact fun _ r _ => behindClosing_num r t
  | str t =>
    intro opened r _
    simpa [Json.text] using behindClosing_str r t
  | arr es w ih =>
    intro opened r hne
    have hes : Balanced (itemsText es) := by
      rw [itemsText_eq]
      exact .commaSep (List.forall_mem_map.2 fun e he => .item (ih e he))
    simp only [Json.text, List.cons_append, List.append_assoc, List.nil_append]
    rw [behindClosing, if_neg (by decide), if_neg (by decide), if_pos rfl,
      hes _ _ (List.cons_ne_nil _ _), behindClosing_ws, behindClosing_close r (.inr rfl) hne]
  | obj ms w ih =>
    intro opened r hne
    have hms : Balanced (membersText ms) := by
      rw [membersText_eq]
      exact .commaSep (List.forall_mem_map.2 fun m hm => .member (ih m hm))
    simp only [Json.text, List.cons_append, List.append_assoc, List.nil_append]
    rw [behindClosing, if_neg (by decide), if_pos rfl, hms _ _ (List.cons_ne_nil _ _),
      behindClosing_ws, behindClosing_close r (.inl rfl) hne]

/-- The bracket that matches the first one of an object is its last character. -/
theorem behindClosing_obj (ms : List (Member Json)) (w : Ws) :
    behindClosing .plain [] ((Json.obj ms w).text ++ r) = some r := by
  have hms : Balanced (membersText ms) := by
    rw [membersText_eq]
    exact .commaSep (List.forall_mem_map.2 fun m _ => .member m.val.balanced)
  simp only [Json.text, List.cons_append, List.append_assoc, List.nil_append]
  rw [behindClosing, if_neg (by decide), if_pos rfl, hms _ _ (List.cons_ne_nil _ _),
    behindClosing_ws, behindClosing_last r (.inl rfl)]

end MongrelDB
