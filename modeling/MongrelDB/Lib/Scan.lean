import MongrelDB.Lib.Json

/-!
# Scanning JSON

A pushdown automaton over the bytes of a text (`scanStep`): it keeps the brackets
that are open, and what it expects next. It accepts every text of JSON
(`IsJsonText.scans`), so a text it rejects is none. It is lenient inside of numbers
and strings, and strict about everything between them.

A text is taken apart as it is put together: a scan of one text and then another
is a scan of both (`scan_append`).
-/

namespace MongrelDB

open Ascii

/-! ## The automaton -/

/-- What a scan expects, or is inside of. -/
inductive ScanMode where
  /-- A value. -/
  | value
  /-- The first element of an array, or its end. -/
  | firstItem
  /-- The first key of an object, or its end. -/
  | firstKey
  /-- A key. -/
  | key
  /-- Inside of a string, which may be a key. -/
  | str (isKey : Bool)
  /-- Behind a backslash in a string. -/
  | esc (isKey : Bool)
  /-- The colon behind a key. -/
  | colon
  /-- Inside of a number. -/
  | num
  /-- Inside of a literal, up to these characters. -/
  | lit (rest : Bytes)
  /-- A comma, or a closing bracket. -/
  | done
  deriving DecidableEq

/-- A value is complete. -/
def ScanMode.isDone : ScanMode → Bool
  | .num | .lit [] | .done => true
  | _ => false

/-- A scan: its mode, and the brackets that are open, a `{` as `true`. -/
structure ScanState where
  mode : ScanMode
  opened : List Bool
  deriving DecidableEq

/-- The first character of a value. -/
def scanBegin (st : List Bool) (c : UInt8) : Option ScanState :=
  if c = quote then some ⟨.str false, st⟩
  else if c = lbrace then some ⟨.firstKey, true :: st⟩
  else if c = lbrack then some ⟨.firstItem, false :: st⟩
  else if startsNumber c then some ⟨.num, st⟩
  else if c = lowerT then some ⟨.lit (ascii "rue"), st⟩
  else if c = lowerF then some ⟨.lit (ascii "alse"), st⟩
  else if c = lowerN then some ⟨.lit (ascii "ull"), st⟩
  else none

/-- A character behind a value. -/
def scanClose (st : List Bool) (c : UInt8) : Option ScanState :=
  if isWs c then some ⟨.done, st⟩
  else match st with
    | true :: st' =>
      if c = comma then some ⟨.key, st⟩ else if c = rbrace then some ⟨.done, st'⟩ else none
    | false :: st' =>
      if c = comma then some ⟨.value, st⟩ else if c = rbrack then some ⟨.done, st'⟩ else none
    | [] => none

/-- One character. -/
def scanStep : ScanState → UInt8 → Option ScanState
  | ⟨.value, st⟩, c => if isWs c then some ⟨.value, st⟩ else scanBegin st c
  | ⟨.firstItem, st⟩, c =>
    if isWs c then some ⟨.firstItem, st⟩
    else if c = rbrack then some ⟨.done, st.tail⟩
    else scanBegin st c
  | ⟨.firstKey, st⟩, c =>
    if isWs c then some ⟨.firstKey, st⟩
    else if c = rbrace then some ⟨.done, st.tail⟩
    else if c = quote then some ⟨.str true, st⟩
    else none
  | ⟨.key, st⟩, c =>
    if isWs c then some ⟨.key, st⟩ else if c = quote then some ⟨.str true, st⟩ else none
  | ⟨.str isKey, st⟩, c =>
    if c = backslash then some ⟨.esc isKey, st⟩
    else if c = quote then some ⟨if isKey then .colon else .done, st⟩
    else some ⟨.str isKey, st⟩
  | ⟨.esc isKey, st⟩, _ => some ⟨.str isKey, st⟩
  | ⟨.colon, st⟩, c =>
    if isWs c then some ⟨.colon, st⟩ else if c = colon then some ⟨.value, st⟩ else none
  | ⟨.num, st⟩, c => if isNumberChar c then some ⟨.num, st⟩ else scanClose st c
  | ⟨.lit (d :: r), st⟩, c => if c = d then some ⟨.lit r, st⟩ else none
  | ⟨.lit [], st⟩, c => scanClose st c
  | ⟨.done, st⟩, c => scanClose st c

/-- A scan over a text. -/
def scan : ScanState → Bytes → Option ScanState
  | s, [] => some s
  | s, c :: r => (scanStep s c).bind fun s => scan s r

/-- A value is complete, and no bracket is open. -/
def ScanState.isComplete (s : ScanState) : Bool := s.mode.isDone && s.opened.isEmpty

/-- The scan of a text ends with a complete value. -/
def scans (s : ScanState) (text : Bytes) : Bool := (scan s text).any ScanState.isComplete

theorem scan_append (s : ScanState) (t u : Bytes) :
    scan s (t ++ u) = (scan s t).bind fun s => scan s u := by
  induction t generalizing s with
  | nil => rfl
  | cons c t ih =>
    rw [List.cons_append, scan, scan]
    cases scanStep s c with
    | none => rfl
    | some s' => exact ih s'

theorem scan_append_of {s s' : ScanState} {t : Bytes} (h : scan s t = some s') (u : Bytes) :
    scan s (t ++ u) = scan s' u := by
  rw [scan_append, h, Option.bind_some]

theorem scans_append_of {s s' : ScanState} {t : Bytes} (h : scan s t = some s') (u : Bytes) :
    scans s (t ++ u) = scans s' u := by
  rw [scans, scan_append_of h, scans]

/-- What is rejected stays rejected. -/
theorem scans_append_none {s : ScanState} {t : Bytes} (h : scan s t = none) (u : Bytes) :
    scans s (t ++ u) = false := by
  rw [scans, scan_append, h, Option.bind_none, Option.any_none]

/-! ## Whitespace -/

/-- The modes that skip whitespace and stay. -/
def ScanMode.skipsWs : ScanMode → Bool
  | .value | .firstItem | .firstKey | .key | .colon | .done => true
  | _ => false

theorem scanStep_ws {m : ScanMode} (hm : m.skipsWs = true) (st : List Bool) {c : UInt8}
    (hc : isWs c = true) : scanStep ⟨m, st⟩ c = some ⟨m, st⟩ := by
  cases m with
  | str | esc | num | lit => exact absurd hm Bool.false_ne_true
  | _ => simp [scanStep, scanClose, hc]

theorem scan_ws {m : ScanMode} (hm : m.skipsWs = true) (st : List Bool) (w : Ws) :
    scan ⟨m, st⟩ w.bytes = some ⟨m, st⟩ := by
  obtain ⟨b, hb⟩ := w
  induction b with
  | nil => rfl
  | cons c b ih =>
    rw [List.all_cons, Bool.and_eq_true] at hb
    rw [scan, scanStep_ws hm st hb.1, Option.bind_some]
    exact ih hb.2

/-- Behind a value, every character but those of a number is taken for what follows it. -/
theorem scanStep_done {m : ScanMode} (hm : m.isDone = true) (st : List Bool) {c : UInt8}
    (hc : isNumberChar c = false) : scanStep ⟨m, st⟩ c = scanClose st c := by
  cases m with
  | num => simp [scanStep, hc]
  | lit r =>
    cases r with
    | nil => rfl
    | cons d r => exact absurd hm Bool.false_ne_true
  | done => rfl
  | _ => exact absurd hm Bool.false_ne_true

theorem scan_done_ws {m : ScanMode} (hm : m.isDone = true) (st : List Bool) (w : Ws) :
    ∃ m', m'.isDone = true ∧ scan ⟨m, st⟩ w.bytes = some ⟨m', st⟩ := by
  have hnum : ∀ c, isWs c = true → isNumberChar c = false := forall_byte (by decide)
  obtain ⟨_ | ⟨c, b⟩, hb⟩ := w
  · exact ⟨m, hm, rfl⟩
  · rw [List.all_cons, Bool.and_eq_true] at hb
    refine ⟨.done, rfl, ?_⟩
    rw [scan, scanStep_done hm st (hnum c hb.1), scanClose.eq_def, if_pos hb.1, Option.bind_some]
    exact scan_ws rfl st ⟨b, hb.2⟩

/-! ## Tokens -/

theorem scan_numberChars (st : List Bool) {t : Bytes} (h : t.all isNumberChar = true) :
    scan ⟨.num, st⟩ t = some ⟨.num, st⟩ := by
  induction t with
  | nil => rfl
  | cons c t ih =>
    rw [List.all_cons, Bool.and_eq_true] at h
    rw [scan, scanStep, if_pos h.1, Option.bind_some]
    exact ih h.2

theorem scanBegin_number (st : List Bool) : ∀ c, startsNumber c = true →
    scanBegin st c = some ⟨.num, st⟩ := by
  intro c hc
  have hne : ∀ c, startsNumber c = true → c ≠ quote ∧ c ≠ lbrace ∧ c ≠ lbrack :=
    forall_byte (by decide)
  obtain ⟨h₁, h₂, h₃⟩ := hne c hc
  rw [scanBegin, if_neg h₁, if_neg h₂, if_neg h₃, if_pos hc]

/-- A number, or any part of one. -/
theorem scan_number (st : List Bool) {t : Bytes} (h : isNumTok t = true) :
    scan ⟨.value, st⟩ t = some ⟨.num, st⟩ := by
  cases t with
  | nil => exact absurd h Bool.false_ne_true
  | cons c t =>
    rw [isNumTok, Bool.and_eq_true] at h
    rw [scan, scanStep, not_isWs_of_startsNumber c h.1, if_neg Bool.false_ne_true,
      scanBegin_number st c h.1, Option.bind_some]
    exact scan_numberChars st h.2

/-- The inside of a string and the quote behind it. -/
theorem scan_closed (isKey : Bool) (st : List Bool) {raw : Bytes} (h : isClosed raw = true) :
    scan ⟨.str isKey, st⟩ (raw ++ [quote]) = some ⟨if isKey then .colon else .done, st⟩ := by
  have hquote : scanStep ⟨.str isKey, st⟩ quote = some ⟨if isKey then .colon else .done, st⟩ := by
    rw [scanStep, if_neg (by decide), if_pos rfl]
  induction raw using isClosed.induct with
  | case1 => rw [List.nil_append, scan, hquote]; rfl
  | case2 c =>
    simp only [isClosed, Bool.and_eq_true, bne_iff_ne] at h
    rw [List.singleton_append, scan, scanStep, if_neg h.2, if_neg h.1, Option.bind_some,
      scan, hquote]
    rfl
  | case3 d r ih =>
    rw [isClosed, if_pos rfl] at h
    rw [List.cons_append, scan, scanStep, if_pos rfl, Option.bind_some, List.cons_append, scan,
      scanStep, Option.bind_some]
    exact ih h
  | case4 c d r hc ih =>
    rw [isClosed, if_neg hc, Bool.and_eq_true, bne_iff_ne] at h
    rw [List.cons_append, scan, scanStep, if_neg hc, if_neg h.1, Option.bind_some]
    exact ih h.2

/-- A string token. -/
theorem scan_str (st : List Bool) {raw : Bytes} (h : isClosed raw = true) :
    scan ⟨.value, st⟩ (quote :: (raw ++ [quote])) = some ⟨.done, st⟩ := by
  have hquote : scanStep ⟨.value, st⟩ quote = some ⟨.str false, st⟩ := by
    rw [scanStep, if_neg (by decide), scanBegin, if_pos rfl]
  rw [scan, hquote, Option.bind_some, scan_closed false st h]
  rfl

/-- A key. -/
theorem scan_key {m : ScanMode} (hm : m = .firstKey ∨ m = .key) (st : List Bool) {raw : Bytes}
    (h : isClosed raw = true) :
    scan ⟨m, st⟩ (quote :: (raw ++ [quote])) = some ⟨.colon, st⟩ := by
  have hquote : scanStep ⟨m, st⟩ quote = some ⟨.str true, st⟩ := by
    rcases hm with rfl | rfl <;> simp +decide [scanStep]
  rw [scan, hquote, Option.bind_some, scan_closed true st h]
  rfl

/-! ## Values -/

/-- What is a value elsewhere is one as the first element of an array. -/
theorem scan_firstItem {st : List Bool} {t : Bytes} {m : ScanMode} {st' : List Bool}
    (hm : m.isDone = true) (h : scan ⟨.value, st⟩ t = some ⟨m, st'⟩) :
    scan ⟨.firstItem, st⟩ t = some ⟨m, st'⟩ := by
  induction t with
  | nil =>
    obtain rfl : ScanMode.value = m := congrArg ScanState.mode (Option.some.inj h)
    exact absurd hm Bool.false_ne_true
  | cons c t ih =>
    simp only [scan, scanStep] at h ⊢
    by_cases hws : isWs c = true
    · rw [if_pos hws] at h ⊢
      exact ih h
    · rw [if_neg hws] at h ⊢
      have hc : c ≠ rbrack := by
        rintro rfl
        rw [show scanBegin st rbrack = none from rfl, Option.bind_none] at h
        exact absurd h (Option.some_ne_none _).symm
      rwa [if_neg hc]

/-- The scan of a value ends behind it. -/
def ScansValue (v : Json) : Prop :=
  ∀ st, ∃ m, m.isDone = true ∧ scan ⟨.value, st⟩ v.text = some ⟨m, st⟩

theorem scan_itemText {e : Item Json} (he : ScansValue e.val) (st : List Bool) :
    ∃ m, m.isDone = true ∧ scan ⟨.value, st⟩ (itemText e) = some ⟨m, st⟩ := by
  obtain ⟨pre, v, post⟩ := e
  obtain ⟨m, hm, hv⟩ := he st
  obtain ⟨m', hm', hpost⟩ := scan_done_ws hm st post
  refine ⟨m', hm', ?_⟩
  rw [itemText, scan_append_of (scan_ws rfl st pre), scan_append_of hv, hpost]

/-- The comma behind a value. -/
theorem scan_comma {m : ScanMode} (hm : m.isDone = true) (isObj : Bool) (st : List Bool)
    (r : Bytes) :
    scan ⟨m, isObj :: st⟩ (comma :: r) =
      scan ⟨if isObj then .key else .value, isObj :: st⟩ r := by
  rw [scan, scanStep_done hm _ (by decide)]
  cases isObj <;> simp +decide [scanClose]

/-- The closing bracket behind a value. -/
theorem scan_bracket {m : ScanMode} (hm : m.isDone = true) (isObj : Bool) (st : List Bool) :
    scan ⟨m, isObj :: st⟩ [if isObj then rbrace else rbrack] = some ⟨.done, st⟩ := by
  have hnum : isNumberChar (if isObj then rbrace else rbrack) = false := by cases isObj <;> decide
  rw [scan, scanStep_done hm _ hnum]
  cases isObj <;> simp +decide [scanClose, scan]

/-- The elements of an array, from the first one on. -/
theorem scan_itemsText {es : List (Item Json)} (hne : es ≠ []) (hes : ∀ e ∈ es, ScansValue e.val)
    (st : List Bool) :
    ∃ m, m.isDone = true ∧
      scan ⟨.value, false :: st⟩ (itemsText es) = some ⟨m, false :: st⟩ := by
  induction es with
  | nil => exact absurd rfl hne
  | cons e es ih =>
    obtain ⟨m, hm, he⟩ := scan_itemText (hes e List.mem_cons_self) (false :: st)
    cases es with
    | nil => exact ⟨m, hm, he⟩
    | cons e' es =>
      obtain ⟨m', hm', hrest⟩ :=
        ih (List.cons_ne_nil _ _) fun e he => hes e (List.mem_cons_of_mem _ he)
      refine ⟨m', hm', ?_⟩
      rw [itemsText, scan_append_of he, scan_comma hm]
      exact hrest

theorem scan_memberText {m : ScanMode} (hm : m = .firstKey ∨ m = .key) {x : Member Json}
    (hx : ScansValue x.val) (st : List Bool) :
    ∃ m', m'.isDone = true ∧ scan ⟨m, st⟩ (memberText x) = some ⟨m', st⟩ := by
  obtain ⟨pre, k, mid, e⟩ := x
  obtain ⟨m', hm', he⟩ := scan_itemText hx st
  have hskip : m.skipsWs = true := by rcases hm with rfl | rfl <;> rfl
  have htext : memberText ⟨pre, k, mid, e⟩ = pre.bytes ++ ((quote :: (k.raw ++ [quote])) ++
      (mid.bytes ++ colon :: itemText e)) := by
    simp [memberText]
  have hcolon : scanStep ⟨.colon, st⟩ colon = some ⟨.value, st⟩ := by
    rw [scanStep, if_neg (by decide), if_pos rfl]
  refine ⟨m', hm', ?_⟩
  rw [htext, scan_append_of (scan_ws hskip st pre), scan_append_of (scan_key hm st k.wf),
    scan_append_of (scan_ws rfl st mid), scan, hcolon, Option.bind_some, he]

/-- The members of an object, from the first one on. -/
theorem scan_membersText {m : ScanMode} (hm : m = .firstKey ∨ m = .key) {ms : List (Member Json)}
    (hne : ms ≠ []) (hms : ∀ x ∈ ms, ScansValue x.val) (st : List Bool) :
    ∃ m', m'.isDone = true ∧
      scan ⟨m, true :: st⟩ (membersText ms) = some ⟨m', true :: st⟩ := by
  induction ms generalizing m with
  | nil => exact absurd rfl hne
  | cons x ms ih =>
    obtain ⟨m₁, hm₁, hx⟩ := scan_memberText hm (hms x List.mem_cons_self) (true :: st)
    cases ms with
    | nil => exact ⟨m₁, hm₁, hx⟩
    | cons x' ms =>
      obtain ⟨m', hm', hrest⟩ := ih (.inr rfl) (List.cons_ne_nil _ _) fun x hx =>
        hms x (List.mem_cons_of_mem _ hx)
      refine ⟨m', hm', ?_⟩
      rw [membersText, scan_append_of hx, scan_comma hm₁]
      exact hrest

/-- A valid value is scanned. -/
theorem scansValue_of_valid {v : Json} (hv : v.Valid) : ScansValue v := by
  have hlit : ∀ {t : LitTok} {s : Bytes}, t.text = s →
      (∀ st, scan ⟨.value, st⟩ s = some ⟨.lit [], st⟩) → ScansValue (.lit t) :=
    fun ht hs st => ⟨.lit [], rfl, by rw [Json.text, ht, hs]⟩
  induction hv with
  | true h => exact hlit h fun st => by rfl
  | false h => exact hlit h fun st => by rfl
  | null h => exact hlit h fun st => by rfl
  | @num t _ => exact fun st => ⟨.num, rfl, scan_number st t.wf⟩
  | @str t _ => exact fun st => ⟨.done, rfl, scan_str st t.wf⟩
  | @arr es w _ ih =>
    intro st
    have hopen : scanStep ⟨.value, st⟩ lbrack = some ⟨.firstItem, false :: st⟩ := rfl
    refine ⟨.done, rfl, ?_⟩
    rw [Json.text, scan, hopen, Option.bind_some]
    -- An empty array has no first item to scan.
    by_cases hne : es = []
    · subst hne
      rw [itemsText, List.nil_append, scan_append_of (scan_ws rfl _ w)]
      rfl
    · obtain ⟨m, hm, hitems⟩ := scan_itemsText hne ih st
      obtain ⟨m', hm', hw⟩ := scan_done_ws hm (false :: st) w
      rw [scan_append_of (scan_firstItem hm hitems), scan_append_of hw]
      exact scan_bracket hm' false st
  | @obj ms w _ _ ih =>
    intro st
    have hopen : scanStep ⟨.value, st⟩ lbrace = some ⟨.firstKey, true :: st⟩ := rfl
    refine ⟨.done, rfl, ?_⟩
    rw [Json.text, scan, hopen, Option.bind_some]
    -- An empty object has no first key to scan.
    by_cases hne : ms = []
    · subst hne
      rw [membersText, List.nil_append, scan_append_of (scan_ws rfl _ w)]
      rfl
    · obtain ⟨m, hm, hmembers⟩ := scan_membersText (.inl rfl) hne ih st
      obtain ⟨m', hm', hw⟩ := scan_done_ws hm (true :: st) w
      rw [scan_append_of hmembers, scan_append_of hw]
      exact scan_bracket hm' true st

/-- A text of JSON is scanned. -/
theorem IsJsonText.scans {s : Bytes} (h : IsJsonText s) : scans ⟨.value, []⟩ s = true := by
  obtain ⟨e, he, rfl⟩ := h
  obtain ⟨m, hm, hscan⟩ := scan_itemText (scansValue_of_valid he) []
  rw [MongrelDB.scans, hscan, Option.any_some, ScanState.isComplete, hm]
  rfl

end MongrelDB
