import MongrelDB.Page.Invariant
import MongrelDB.Lookup.Safety
import MongrelDB.Lookup.Strings

/-!
# Decoding a value

`parse_scalar_into` on the text of a value (`parseScalar_text`), where it keeps
the text of strings, arrays and objects, and on an arbitrary buffer
(`parseScalar_ends`), where it fails unless a value stands there.
-/

namespace MongrelDB

open Ascii Prog

variable {H h : Heap} {K : Contents}

/-! ## Text that is kept -/

/-- What is reserved for a value is enough, and no more than its text. -/
theorem Json.kept?_le {v : Json} {len : Nat} {bytes : Bytes} (h : v.kept? = some (len, bytes)) :
    bytes.length ≤ len ∧ len ≤ v.text.length := by
  cases v <;> simp only [Json.kept?, Option.some.injEq, Prod.mk.injEq, reduceCtorEq] at h
  case str t =>
    obtain ⟨rfl, rfl⟩ := h
    exact ⟨unescape_length_le _, by simp [Json.text]; omega⟩
  all_goals
    obtain ⟨rfl, rfl⟩ := h
    exact ⟨Nat.le_refl _, Nat.le_refl _⟩

/-- The value a buffer of strings of this length has no room for. -/
def TooLong (K : Contents) (v : Json) : Prop := SIZE_MAX ≤ K.blob.len + v.text.length + 1

/-- How the text of the value `v` is kept: the contents grow by it, or the
    reservation fails. -/
theorem keepText_spec (ha : After H K.asks h) {v : Json} {len : Nat} {bytes : Bytes}
    (hk : v.kept? = some (len, bytes)) (j : JsonParser) (tag : BlobPtr → Value) :
    (∃ h', keepText j tag len bytes K.blob h =
        .ok ⟨{ j with ok := false }, .null, K.blob, NO_OFFSET, h'⟩ ∧
        (Refused H (K.keep v).asks ∨ TooLong K v)) ∨
      ∃ h', keepText j tag len bytes K.blob h =
        .ok ⟨j, tag (.early K.blob.len), (K.keep v).blob, K.blob.len, h'⟩ ∧
        After H (K.keep v).asks h' := by
  obtain ⟨hbytes, hlen⟩ := Json.kept?_le hk
  have hkeep : K.keep v = { K.reserve len with blob :=
      { (K.reserve len).blob with data := K.blob.data ++ (bytes ++ [0]) } } := by
    simp only [Contents.keep, hk, Contents.reserve]
    split_ifs <;> rfl
  rw [hkeep]
  -- The sum would wrap, the text fits already, or the blob grows.
  by_cases hwrap : len > SIZE_MAX - 1 - K.blob.len
  · refine .inl ⟨h, ?_, .inr (by unfold TooLong; omega)⟩
    simp only [keepText, Sbuf.reserve, if_pos hwrap, Bool.not_false, if_true, Run.pure_eq]
  by_cases hfits : K.blob.len + len + 1 ≤ K.blob.cap
  · refine .inr ⟨h, ?_, by simpa only [Contents.reserve, if_pos hfits] using ha⟩
    simp only [keepText, Sbuf.reserve, if_neg hwrap, if_pos hfits, Bool.not_true,
      Bool.false_eq_true, if_false, Contents.reserve]
    rw [Sbuf.fill_text hbytes hfits]
    rfl
  have hstart : (if K.blob.cap ≠ 0 then K.blob.cap else 64) ≠ 0 := by
    split_ifs with hc
    · exact hc
    · decide
  have hcap : K.blob.len + len + 1 ≤ _ := Sbuf.need_le_growCap hstart
  generalize hnew : Sbuf.growCap (K.blob.len + len + 1) (K.blob.len + len + 1)
    (if K.blob.cap ≠ 0 then K.blob.cap else 64) = ncap at hcap
  rcases ha.request ncap with ⟨hg, ha'⟩ | ⟨hg, hr⟩
  · refine .inr ⟨(h.request ncap).2, ?_, by simpa only [Contents.reserve, if_neg hfits] using ha'⟩
    simp only [keepText, Sbuf.reserve, if_neg hwrap, if_neg hfits, hnew, hg, Bool.not_true,
      Bool.false_eq_true, if_false, if_true, Contents.reserve]
    rw [Sbuf.fill_text hbytes hcap]
    rfl
  · refine .inl ⟨(h.request ncap).2, ?_,
      .inl (by simpa only [Contents.reserve, if_neg hfits] using hr)⟩
    simp only [keepText, Sbuf.reserve, if_neg hwrap, if_neg hfits, hnew, hg, Bool.not_false,
      Bool.false_eq_true, if_false, if_true, Run.pure_eq]

/-! ## On the text of a value -/

/-- How a value that is kept as text is tagged. -/
def Json.tag : Json → BlobPtr → Value
  | .str _ => .str
  | _ => .json

theorem startsLiteral_cases : ∀ c, startsLiteral c = true →
    c = lowerT ∨ c = lowerF ∨ c = lowerN :=
  forall_byte (by decide)

theorem startsNumber_cases : ∀ c, startsNumber c = true →
    c ≠ quote ∧ c ≠ lowerT ∧ c ≠ lowerF ∧ c ≠ lowerN :=
  forall_byte (by decide)

variable (lib : Libc)

/-- On the text of a value that is not kept, `parse_scalar_into` decodes it. -/
theorem parseScalar_plain {v : Json} (hk : v.kept? = none) (w : Ws) {r : Bytes} (hr : v.Stops r)
    (n off : Nat) (blob : Sbuf) (h : Heap) :
    parseScalarInto lib n ⟨w.bytes ++ (v.text ++ r), true⟩ blob h =
      .ok ⟨⟨r, true⟩, v.stored lib off, blob, NO_OFFSET, h⟩ := by
  obtain ⟨c, s, hs, hc, hpeek⟩ := jpPeek_value w v r true
  rw [parseScalarInto, hpeek]
  -- Nothing is kept of a literal or a number.
  cases v with
  | lit t =>
    rw [Json.text] at hs
    have hhead : t.text.head? = some c := by rw [hs, List.head?_cons]
    have hc : startsLiteral c = true := by
      have := t.wf
      rw [hs, isLitTok, Bool.and_eq_true] at this
      exact this.1
    rcases startsLiteral_cases c hc with rfl | rfl | rfl
    · simp +decide [Json.text, jpLiteral_tok t hr, toSize_span, spanEq_append, Json.stored, hhead]
    · simp +decide [Json.text, jpLiteral_tok t hr, toSize_span, spanEq_append, Json.stored, hhead]
    · simp +decide [Json.text, jpLiteral_tok t hr, Json.stored, hhead]
  | num t =>
    rw [Json.text] at hs
    have hc : startsNumber c = true := by
      have := t.wf
      rw [hs, isNumTok, Bool.and_eq_true] at this
      exact this.1
    obtain ⟨h₁, h₂, h₃, -⟩ := startsNumber_cases c hc
    simp only [Json.text, h₁, h₂, h₃, or_self, if_false, hc, if_true, jpNumber_tok t hr,
      toSize_span, Run.ok_bind, slice_clip, Json.stored]
    split_ifs <;> rfl
  | str t => simp [Json.kept?] at hk
  | arr es w => simp [Json.kept?] at hk
  | obj ms w => simp [Json.kept?] at hk

/-- On the text of a value that is kept, `parse_scalar_into` keeps it. -/
theorem parseScalar_kept {v : Json} {len : Nat} {bytes : Bytes} (hk : v.kept? = some (len, bytes))
    (w : Ws) {r : Bytes} (hr : v.Stops r) {n : Nat} (hn : 3 * (v.text ++ r).length + 1 ≤ n)
    (blob : Sbuf) (h : Heap) :
    parseScalarInto lib n ⟨w.bytes ++ (v.text ++ r), true⟩ blob h =
      keepText ⟨r, true⟩ v.tag len bytes blob h := by
  obtain ⟨c, s, hs, hc, hpeek⟩ := jpPeek_value w v r true
  have hwalk := jpValue_text v Ws.none r n hr hn
  rw [show Ws.none.bytes = [] from rfl, List.nil_append] at hwalk
  rw [parseScalarInto, hpeek]
  -- Only texts and the source of arrays and objects are kept in the blob.
  cases v with
  | lit t => simp [Json.kept?] at hk
  | num t => simp [Json.kept?] at hk
  | str t =>
    simp only [Json.kept?, Option.some.injEq, Prod.mk.injEq] at hk
    obtain ⟨rfl, rfl⟩ := hk
    obtain rfl : c = quote := (List.cons.inj (hs.symm.trans (by rw [Json.text]))).1
    simp only [if_true, Json.text, List.cons_append, List.append_assoc, List.nil_append,
      ptrSucc_cons, Run.ok_bind, jpString_closed, Bool.not_true, Bool.false_eq_true, if_false,
      toSize_closed, slice_append, Json.tag]
  | arr es w =>
    simp only [Json.kept?, Option.some.injEq, Prod.mk.injEq] at hk
    obtain ⟨rfl, rfl⟩ := hk
    obtain rfl : c = lbrack := (List.cons.inj (hs.symm.trans (by rw [Json.text]))).1
    simp +decide only [if_false, if_true, hwalk, Run.ok_bind, Bool.not_true, toSize_span,
      slice_append, Json.tag]
  | obj ms w =>
    simp only [Json.kept?, Option.some.injEq, Prod.mk.injEq] at hk
    obtain ⟨rfl, rfl⟩ := hk
    obtain rfl : c = lbrace := (List.cons.inj (hs.symm.trans (by rw [Json.text]))).1
    simp +decide only [if_false, if_true, hwalk, Run.ok_bind, Bool.not_true, toSize_span,
      slice_append, Json.tag]

/-- On the text of a value, `parse_scalar_into` decodes it, and the contents grow
    by what is kept; or the reservation fails. -/
theorem parseScalar_text (ha : After H K.asks h) (v : Json) (w : Ws) {r : Bytes}
    (hr : v.Stops r) {n : Nat} (hn : 3 * (v.text ++ r).length + 1 ≤ n) :
    (∃ h', parseScalarInto lib n ⟨w.bytes ++ (v.text ++ r), true⟩ K.blob h =
        .ok ⟨⟨r, false⟩, .null, K.blob, NO_OFFSET, h'⟩ ∧
        (Refused H (K.keep v).asks ∨ TooLong K v)) ∨
      ∃ h', parseScalarInto lib n ⟨w.bytes ++ (v.text ++ r), true⟩ K.blob h =
        .ok ⟨⟨r, true⟩, v.stored lib K.blob.len, (K.keep v).blob, v.strOff K.blob.len, h'⟩ ∧
        After H (K.keep v).asks h' := by
  cases hk : v.kept? with
  | none =>
    refine .inr ⟨h, ?_, by simpa only [Contents.keep, hk] using ha⟩
    rw [parseScalar_plain lib hk w hr n K.blob.len]
    simp [Contents.keep, hk, Json.strOff]
  | some lb =>
    obtain ⟨len, bytes⟩ := lb
    have hstored : v.stored lib K.blob.len = v.tag (.early K.blob.len) := by
      cases v <;> first | rfl | exact absurd hk (by simp [Json.kept?])
    have hoff : v.strOff K.blob.len = K.blob.len := by simp [Json.strOff, hk]
    rw [parseScalar_kept lib hk w hr hn, hstored, hoff]
    exact keepText_spec ha hk ⟨r, true⟩ v.tag

/-! ## On an arbitrary buffer -/

/-- Keeping the text of a value may fail, but not fault. -/
theorem keepText_ends {v : Json} {len : Nat} {bytes : Bytes} (hk : v.kept? = some (len, bytes))
    (j : JsonParser) (tag : BlobPtr → Value) (blob : Sbuf) (h : Heap) :
    Ends (keepText j tag len bytes blob h) fun r => r.j = j ∨ r.j = { j with ok := false } := by
  rcases keepText_spec (K := { Contents.empty with blob := blob }) (After.zero h) hk j tag with
    ⟨h', he, -⟩ | ⟨h', he, -⟩
  · exact ⟨_, he, .inr rfl⟩
  · exact ⟨_, he, .inl rfl⟩

/-- A value that begins where one looks for it. -/
theorem IsValue.of_cons {c : UInt8} {s r : Bytes} (hc : isWs c = false) (h : IsValue (c :: s) r) :
    ∃ v : Json, c :: s = v.text ++ r ∧ v.Stops r := by
  obtain ⟨⟨w, hw⟩, v, hv, hstop⟩ := h
  cases w with
  | nil => exact ⟨v, hv, hstop⟩
  | cons d w =>
    obtain rfl : c = d := (List.cons.inj hv).1
    rw [List.all_cons, hc, Bool.false_and] at hw
    exact absurd hw (by decide)

/-- A value that begins with a bracket is kept as it is. -/
theorem Json.kept?_of_bracket {v : Json} {c : UInt8} {s r : Bytes} (hs : c :: s = v.text ++ r)
    (hc : c = lbrace ∨ c = lbrack) : v.kept? = some (v.text.length, v.text) := by
  cases v with
  | lit t =>
    obtain ⟨d, u, ht, hd⟩ := Json.lit_head t
    rw [Json.text, ht] at hs
    obtain rfl : c = d := (List.cons.inj hs).1
    rcases hc with rfl | rfl <;> exact absurd hd (by decide)
  | num t =>
    obtain ⟨d, u, ht, hd⟩ := Json.num_head t
    rw [Json.text, ht] at hs
    obtain rfl : c = d := (List.cons.inj hs).1
    rcases hc with rfl | rfl <;> exact absurd hd (by decide)
  | str t =>
    rw [Json.text] at hs
    obtain rfl : c = quote := (List.cons.inj hs).1
    exact absurd hc (by decide)
  | arr es w => rfl
  | obj ms w => rfl

/-- On an arbitrary buffer, `parse_scalar_into` ends without a fault, and
    without an error only if it has walked over a value. -/
theorem parseScalar_ends {n : Nat} {j : JsonParser} (hok : j.ok = true)
    (hn : 3 * j.p.length + 1 ≤ n) (blob : Sbuf) (h : Heap) :
    Ends (parseScalarInto lib n j blob h) fun r => Parses IsValue j r.j := by
  obtain ⟨w, r, hs, hp⟩ := jpPeek_spec j
  have hsuf : r <:+ j.p := hs ▸ List.suffix_append _ _
  rw [parseScalarInto, hp, hok]
  -- The whitespace belongs to the value.
  have hval : ∀ {v : Json} {r'}, r = v.text ++ r' → v.Stops r' → Parses IsValue j ⟨r', true⟩ :=
    fun {v r'} hr hstop => ⟨hs ▸ hr ▸ (List.suffix_append _ _).trans (List.suffix_append _ _),
      fun _ => ⟨hok, w, v, by rw [hs, hr], hstop⟩⟩
  have hkeep : ∀ {v : Json} {r' len bytes tag}, r = v.text ++ r' → v.Stops r' →
      v.kept? = some (len, bytes) →
      Ends (keepText ⟨r', true⟩ tag len bytes blob h) fun r => Parses IsValue j r.j :=
    fun {v r' len bytes tag} hr hstop hk => (keepText_ends hk ⟨r', true⟩ tag blob h).mono
      fun a ha => by
        rcases ha with ha | ha <;> rw [ha]
        · exact hval hr hstop
        · exact .error (hval hr hstop).suffix
  cases r with
  | nil => exact Ends.ok (.error hsuf)
  | cons c r =>
  simp only [List.head?_cons]
  refine Ends.ite (fun hc => ?_) fun _ => Ends.ite (fun hc => ?_) fun hnl =>
    Ends.ite (fun hc => ?_) fun _ => Ends.ite (fun hc => ?_) fun _ => Ends.ite (fun hc => ?_)
      fun _ => Ends.ok (.error hsuf)
  · subst hc
    rw [ptrSucc_cons, Run.ok_bind]
    refine Ends.bind (jpString_spec r true) fun j₂ h₂ => ?_
    refine Ends.ite (fun hn => Ends.ok ?_) fun hn => ?_
    · exact ⟨h₂.suffix.trans hsuf, fun hok₂ => absurd hok₂ (by simpa using hn)⟩
    · have hok₂ : j₂.ok = true := by simpa using hn
      obtain ⟨-, t, ht⟩ := h₂.sound hok₂
      obtain rfl : r = t.raw ++ quote :: j₂.p := (List.cons.inj ht).2
      rw [toSize_closed, Run.ok_bind, slice_append, Run.ok_bind, show j₂ = ⟨j₂.p, true⟩ from
        hok₂ ▸ rfl]
      exact hkeep (v := .str t) (by simp [Json.text]) trivial rfl
  · have hlit : startsLiteral c = true := by rcases hc with rfl | rfl <;> decide
    obtain ⟨-, t, ht, hstop⟩ := (jpLiteral_spec hlit r true).sound rfl
    change c :: r = t.text ++ _ at ht
    obtain ⟨b, hb⟩ := spanEq_ends (p := c :: r) (n := t.text.length)
      (by rw [ht, List.length_append]; omega) (ascii "true")
    have hlen := toSize_span t.text (jpLiteral ⟨c :: r, true⟩).p
    rw [← ht] at hlen
    rw [hlen, Run.ok_bind, hb, Run.ok_bind]
    exact Ends.ok (hval (v := .lit t) (by rw [Json.text]; exact ht) hstop)
  · obtain ⟨-, t, ht, hstop⟩ := (jpNumber_spec hc r true).sound rfl
    change c :: r = t.text ++ _ at ht
    have hlen := toSize_span t.text (jpNumber ⟨c :: r, true⟩).p
    have hclip := slice_clip 64 t.text (jpNumber ⟨c :: r, true⟩).p
    rw [← ht] at hlen hclip
    rw [hlen, Run.ok_bind, hclip, Run.ok_bind]
    have := hval (v := .num t) (by rw [Json.text]; exact ht) hstop
    exact Ends.ite (fun _ => Ends.ok this) fun _ => Ends.ok this
  · have hlen := hsuf.length_le
    refine Ends.bind (jpValue_spec (by simp only; omega)) fun j₂ h₂ => ?_
    refine Ends.ite (fun hn => Ends.ok ?_) fun hn => ?_
    · exact ⟨h₂.suffix.trans hsuf, fun hok₂ => absurd hok₂ (by simpa using hn)⟩
    · have hok₂ : j₂.ok = true := by simpa using hn
      have hws : isWs c = false := by rcases hc with rfl | rfl <;> decide
      obtain ⟨v, hv, hstop⟩ := (h₂.sound hok₂).2.of_cons hws
      have hspan := toSize_span v.text j₂.p
      have hslice := slice_append v.text j₂.p
      rw [← hv] at hspan hslice
      rw [hspan, Run.ok_bind, hslice, Run.ok_bind, show j₂ = ⟨j₂.p, true⟩ from hok₂ ▸ rfl]
      exact hkeep hv hstop (Json.kept?_of_bracket hv hc)
  · have hlit : startsLiteral c = true := by subst hc; decide
    obtain ⟨-, t, ht, hstop⟩ := (jpLiteral_spec hlit r true).sound rfl
    exact Ends.ok (hval (v := .lit t) (by rw [Json.text]; exact ht) hstop)

/-! ## The same extent -/

/-- With room for the text, `parse_scalar_into` stops where the value does. -/
theorem parseScalar_stops {src s r : Bytes} (hs : s <:+ src) (hvalue : IsValue s r) {blob : Sbuf}
    (hheap : h.Succeeds) (hfit : blob.len + s.length + 1 < SIZE_MAX) :
    ∃ a, parseScalarInto lib (fuelFor src) ⟨s, true⟩ blob h = .ok a ∧ a.j = ⟨r, true⟩ := by
  obtain ⟨w, v, rfl, hstop⟩ := hvalue
  have hlen := hs.length_le
  simp only [List.length_append] at hlen hfit
  rcases parseScalar_text (K := { Contents.empty with blob := blob }) lib (After.zero h) v w hstop
    (n := fuelFor src) (by rw [fuelFor, List.length_append]; omega) with
    ⟨h', -, href | hlong⟩ | ⟨h', he, -⟩
  · exact absurd hheap href.not_succeeds
  · simp only [TooLong] at hlong
    omega
  · exact ⟨_, he, rfl⟩

/-- From any position of a buffer, `jp_value` and `parse_scalar_into` succeed and
    stop at `r` if and only if whitespace and a value stand in between, the tokens
    of which are as long as they can be. In particular both stop right behind
    every valid value. -/
theorem walks_exact {src s : Bytes} (hs : s <:+ src) {blob : Sbuf} (hheap : h.Succeeds)
    (hfit : blob.len + s.length + 1 < SIZE_MAX) :
    (∀ r, jpValue (fuelFor src) ⟨s, true⟩ = .ok ⟨r, true⟩ ↔ IsValue s r) ∧
      (∀ r, (∃ a, parseScalarInto lib (fuelFor src) ⟨s, true⟩ blob h = .ok a ∧ a.j = ⟨r, true⟩) ↔
        IsValue s r) ∧
      ∀ (w : Ws) (v : Json) (r : Bytes), v.Valid → EndsValue r → s = w.bytes ++ (v.text ++ r) →
        jpValue (fuelFor src) ⟨s, true⟩ = .ok ⟨r, true⟩ ∧
          ∃ a, parseScalarInto lib (fuelFor src) ⟨s, true⟩ blob h = .ok a ∧ a.j = ⟨r, true⟩ := by
  obtain ⟨hiff, hvalid⟩ := jpValue_exact hs
  refine ⟨hiff, fun r => ⟨?_, fun h => parseScalar_stops lib hs h hheap hfit⟩,
    fun w v r hv hr htext => ?_⟩
  · rintro ⟨a, ha, hj⟩
    have hlen := hs.length_le
    obtain ⟨a', ha', hparses⟩ := parseScalar_ends lib (n := fuelFor src) (j := ⟨s, true⟩) rfl
      (by simp only [fuelFor]; omega) blob h
    obtain rfl := Except.ok.inj (ha.symm.trans ha')
    rw [hj] at hparses
    exact (hparses.sound rfl).2
  · have hwalk := hvalid w v r hv hr htext
    exact ⟨hwalk, parseScalar_stops lib hs ((hiff r).1 hwalk) hheap hfit⟩

/-- The walks over a nested array, from behind the first bracket. -/
theorem walks_exact_array : (∀ r, jpValue (fuelFor (ascii "[[1]]")) ⟨ascii "[1]]", true⟩ =
      .ok ⟨r, true⟩ ↔ IsValue (ascii "[1]]") r) ∧
    (∀ r, (∃ a, parseScalarInto Libc.zero (fuelFor (ascii "[[1]]")) ⟨ascii "[1]]", true⟩ Sbuf.empty
      Heap.unlimited = .ok a ∧ a.j = ⟨r, true⟩) ↔ IsValue (ascii "[1]]") r) ∧
    ∀ (w : Ws) (v : Json) (r : Bytes), v.Valid → EndsValue r →
      ascii "[1]]" = w.bytes ++ (v.text ++ r) →
        jpValue (fuelFor (ascii "[[1]]")) ⟨ascii "[1]]", true⟩ = .ok ⟨r, true⟩ ∧
          ∃ a, parseScalarInto Libc.zero (fuelFor (ascii "[[1]]")) ⟨ascii "[1]]", true⟩ Sbuf.empty
            Heap.unlimited = .ok a ∧ a.j = ⟨r, true⟩ :=
  walks_exact Libc.zero ⟨[lbrack], by decide⟩ Heap.unlimited_succeeds (by decide)

end MongrelDB
