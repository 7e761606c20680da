import MongrelDB.Page.Value

/-!
# Steps of the walk

What the steps that move the cursor do, on texts and on an arbitrary buffer: a
peek, a call of the parser, the key of a member, and the loops over what stands
between commas (`commaLoop_text`, `commaLoop_ends`).
-/

namespace MongrelDB

open Ascii Prog

variable {H : Heap} {K : Contents} {s : PageState} {lib : Libc}

/-! ## Steps of the cursor -/

variable {Q : Unit → PageState → Prop} {R : Code → PageState → Prop}

@[simp] theorem wp_peek {Q : Option UInt8 → PageState → Prop} :
    wp peek Q R s ↔ Q (jpPeek s.w).1 { s with w := (jpPeek s.w).2 } := Iff.rfl

@[simp] theorem wp_skipWs : wp skipWs Q R s ↔ Q () { s with w := jpSkipWs s.w } := Iff.rfl

theorem wp_advance {c : UInt8} {r : Bytes} {ok : Bool} (hw : s.w = ⟨c :: r, ok⟩)
    (h : Q () { s with w := ⟨r, ok⟩ }) : wp advance Q R s := by
  simp only [advance, wp_bind, wp_get, hw, bump_cons, wp_lift_ok, wp_modify]
  exact h

/-- A call of the parser, by what it does. -/
theorem wp_parse {f : JsonParser → Run JsonParser} {P : JsonParser → Prop} (hf : Ends (f s.w) P)
    (hQ : ∀ j, P j → j.ok = true → Q () { s with w := j })
    (hR : ∀ j, P j → j.ok = false → R .json { s with w := j }) : wp (parse f) Q R s := by
  obtain ⟨j, hj, hP⟩ := hf
  simp only [parse, wp_bind, wp_get, hj, wp_lift_ok, wp_modify, wp_ite, wp_ret, wp_pure]
  cases hok : j.ok with
  | true => exact ⟨fun h => absurd h (by decide), fun _ => hQ j hP hok⟩
  | false => exact ⟨fun _ => hR j hP hok, fun h => absurd h (by decide)⟩

/-- Moving the cursor keeps the invariant. -/
theorem Inv.move (h : Inv H K s) (w : JsonParser) : Inv H K { s with w := w } where
  cells := h.cells
  cellsCap := h.cellsCap
  offs := h.offs
  offsCap := h.offsCap
  blob := h.blob
  rows := h.rows
  rowsCap := h.rowsCap
  starts := h.starts
  startsCap := h.startsCap
  heap := h.heap

/-! ## Keys -/

section

variable {α : Type} {Q : α → PageState → Prop} {R : Code → PageState → Prop}

/-- The key of a member is read from its text. -/
theorem readKey_text {Q : Bytes × Nat → PageState → Prop} {pre mid : Ws} {k : StrTok} {r : Bytes}
    (hw : s.w = ⟨pre.bytes ++ quote :: (k.raw ++ quote :: (mid.bytes ++ colon :: r)), true⟩)
    (h : Q (k.raw ++ quote :: (mid.bytes ++ colon :: r), k.raw.length) { s with w := ⟨r, true⟩ }) :
    wp readKey Q R s := by
  simp only [readKey, wp_bind, wp_peek, hw, jpPeek_ws pre not_isWs_quote, ne_eq, not_true_eq_false,
    if_false, wp_get, ptrSucc_cons, wp_lift_ok]
  refine wp_parse (P := fun j => j = ⟨mid.bytes ++ colon :: r, true⟩)
    ⟨_, jpString_closed k _ _, rfl⟩
    (fun j hj _ => ?_) fun j hj hok => ?_
  · subst hj
    simp only [toSize_closed, wp_lift_ok, jpPeek_ws mid (show isWs colon = false by rfl),
      not_true_eq_false, if_false, wp_bind, wp_pure]
    exact wp_advance rfl h
  · rw [hj] at hok
    exact absurd hok Bool.true_eq_false.mp

/-- The key of a member is read only if one stands there. -/
theorem readKey_ends {Q : Bytes × Nat → PageState → Prop}
    (hQ : ∀ (pre mid : Ws) (k : StrTok) (r : Bytes),
      s.w.p = pre.bytes ++ quote :: (k.raw ++ quote :: (mid.bytes ++ colon :: r)) →
      Q (k.raw ++ quote :: (mid.bytes ++ colon :: r), k.raw.length) { s with w := ⟨r, true⟩ })
    (hR : ∀ w, R .json { s with w := w }) : wp readKey Q R s := by
  obtain ⟨pre, r, hs, hpeek⟩ := jpPeek_spec s.w
  simp only [readKey, wp_bind, wp_peek, hpeek, wp_ite, wp_ret, wp_get]
  refine ⟨fun _ => hR _, fun hq => ?_⟩
  obtain ⟨r, rfl⟩ := List.head?_eq_some_iff.1 (not_not.1 hq)
  rw [ptrSucc_cons, wp_lift_ok]
  refine wp_parse (jpString_spec r s.w.ok) (fun j hj hok => ?_) fun j _ _ => hR j
  obtain ⟨-, k, hk⟩ := hj.sound hok
  obtain rfl : r = k.raw ++ quote :: j.p := (List.cons.inj hk).2
  rw [toSize_closed, wp_lift_ok]
  obtain ⟨mid, t, hmid, hpeek₂⟩ := jpPeek_spec j
  simp only [hpeek₂]
  refine ⟨fun _ => hR _, fun hc => ?_⟩
  obtain ⟨t, rfl⟩ := List.head?_eq_some_iff.1 (not_not.1 hc)
  have := hQ pre mid k t (by rw [hs, hmid])
  rw [hmid, hok]
  exact wp_advance rfl this

/-- Whether a member is an array of a name, by its key and its first character. -/
theorem wp_isArrayOf {Q : Bool → PageState → Prop} {key raw x : Bytes}
    (hQ : raw = key → Q (decide ((jpPeek s.w).1 = some lbrack)) { s with w := (jpPeek s.w).2 })
    (hne : raw ≠ key → Q false s) : wp (isArrayOf key (raw ++ x) raw.length) Q R s := by
  simp only [isArrayOf, wp_bind, spanEq_append, wp_lift_ok, wp_ite, wp_peek, wp_pure, beq_iff_eq]
  exact ⟨hQ, hne⟩

end

/-! ## Whitespace in front -/

/-- Whitespace in front of what a part of the walk reads does not matter. -/
def SkipsWs {α : Type} (x : Decode α) : Prop := ∀ s, x { s with w := (jpPeek s.w).2 } = x s

theorem skipsWs_peek : SkipsWs peek := fun s => by
  have hidem : jpPeek (jpPeek s.w).2 = jpPeek s.w := jpPeek_skipWs s.w
  simp only [peek, hidem]

theorem SkipsWs.bind {α β : Type} {x : Decode α} (hx : SkipsWs x) (f : α → Decode β) :
    SkipsWs (x >>= f) := fun s => by
  change Prog.bind x f _ = Prog.bind x f _
  unfold Prog.bind
  rw [hx s]

theorem SkipsWs.wp {α : Type} {x : Decode α} (hx : SkipsWs x) {Q : α → PageState → Prop}
    {R : Code → PageState → Prop} (h : wp x Q R s) : wp x Q R { s with w := (jpPeek s.w).2 } := by
  unfold Prog.wp at h ⊢
  rwa [hx s]

theorem skipsWs_commaLoop {α : Type} {step : Nat → α → Decode α}
    (hstep : ∀ n a, SkipsWs (step n a)) (close : UInt8) (behind : Bool) (n : Nat) (a : α) :
    SkipsWs (commaLoop step close behind n a) := by
  cases n with
  | zero => exact fun _ => rfl
  | succ n => exact (hstep n a).bind _

/-! ## Loops -/

section Loop

variable {α X C : Type} {step : Nat → α → Decode α} {close : UInt8} {behind : Bool}
  {text : X → Bytes} {add : C → X → C}
  {P : C → α → PageState → Prop}

/-- A loop over texts: each step adds what it has read, and so does the loop. -/
theorem commaLoop_text (Stops : X → Bytes → Prop) {R : C → Code → PageState → Prop}
    (hclose : isDelim close = true ∧ isWs close = false ∧ close ≠ comma)
    (hstops : ∀ x (w : Ws) c r, isDelim c = true → Stops x (w.bytes ++ c :: r))
    (hmove : ∀ K a s w, P K a s → w.p.length ≤ s.w.p.length → P K a { s with w := w })
    (hmono : ∀ K x e s, R K e s → R (add K x) e s)
    (hstep : ∀ x K a s r n, P K a s → s.w = ⟨text x ++ r, true⟩ → Stops x r →
      3 * s.w.p.length + 1 ≤ n →
      wp (step n a) (fun a' s' => P (add K x) a' s' ∧ s'.w = ⟨r, true⟩) (R (add K x)) s)
    {xs : List (X × Ws)} (hne : xs ≠ []) {w : Ws} {r : Bytes} {K : C} {a : α} {s : PageState}
    (hP : P K a s) (hw : s.w = ⟨spacedText text xs ++ (w.bytes ++ close :: r), true⟩) {n : Nat}
    (hn : 3 * s.w.p.length + 2 ≤ n) :
    wp (commaLoop step close behind n a)
      (fun a' s' => P ((xs.map Prod.fst).foldl add K) a' s' ∧
        s'.w = ⟨if behind then r else close :: r, true⟩)
      (R ((xs.map Prod.fst).foldl add K)) s := by
  obtain ⟨hdelim, hws, hcomma⟩ := hclose
  -- A failure at one element stays one, however many elements follow it.
  have hmono' : ∀ (xs : List X) K e s, R K e s → R (xs.foldl add K) e s := fun xs => by
    induction xs with
    | nil => exact fun _ _ _ h => h
    | cons x xs ih => exact fun K e s h => ih _ e s (hmono K x e s h)
  induction xs generalizing K a s n with
  | nil => exact absurd rfl hne
  | cons x xs ih =>
    obtain ⟨x, v⟩ := x
    obtain ⟨n, rfl⟩ : ∃ m, n = m + 1 := ⟨n - 1, by omega⟩
    simp only [commaLoop, wp_bind, List.map_cons, List.foldl_cons]
    -- The last element is followed by the closing byte, any other by a comma.
    cases xs with
    | nil =>
      have hw' : s.w = ⟨text x ++ (v.append w).bytes ++ close :: r, true⟩ := by
        simp [hw, spacedText, commaSep, Ws.append]
      rw [List.append_assoc] at hw'
      refine wp_mono (hstep x K a s _ n hP hw' (hstops x _ _ _ hdelim) (by omega))
        (fun a' s' hends => ?_) fun e s' h' => hmono' [] _ e s' h'
      obtain ⟨hP', hs'⟩ := hends
      rw [wp_peek, hs', jpPeek_ws _ hws]
      simp only [Option.some.injEq, hcomma, if_false, if_true]
      have hmoved := fun w' => hmove _ _ _ w' hP'
      rw [hs'] at hmoved
      cases behind with
      | true =>
        simp only [if_true, wp_bind, wp_pure]
        exact wp_advance rfl ⟨hmoved ⟨r, true⟩
          (by simp only [List.length_append, List.length_cons]; omega), rfl⟩
      | false => exact ⟨hmoved ⟨close :: r, true⟩ (by simp only [List.length_append]; omega), rfl⟩
    | cons y ys =>
      have hw' : s.w = ⟨text x ++ (v.bytes ++ comma :: (spacedText text (y :: ys) ++
          (w.bytes ++ close :: r))), true⟩ := by
        simp [hw, spacedText, commaSep]
      refine wp_mono (hstep x K a s _ n hP hw' (hstops x _ _ _ (by decide)) (by omega))
        (fun a' s' hends => ?_) fun e s' h' => hmono' _ _ e s' h'
      obtain ⟨hP', hs'⟩ := hends
      rw [wp_peek, hs', jpPeek_ws _ (by decide)]
      simp only [if_true, wp_bind]
      refine wp_advance rfl (ih (List.cons_ne_nil _ _) (hmove _ _ _ _ hP' ?_) rfl ?_)
      · simp only [hs', List.length_append, List.length_cons]
        omega
      · simp only [hw', List.length_append, List.length_cons] at hn ⊢
        omega

/-- What a loop does behind a step. -/
def commaRest (step : Nat → α → Decode α) (close : UInt8) (behind : Bool) (n : Nat) (a : α) :
    Decode α := do
  let ch ← peek
  if ch = some comma then
    advance
    commaLoop step close behind n a
  else if ch = some close then
    if behind then advance
    return a
  else
    ret .json

/-- A loop on an arbitrary buffer, behind a step: it ends normally only on the
    text of what its steps read. -/
theorem commaRest_ends {R : Code → PageState → Prop}
    (hmove : ∀ K a s w, P K a s → w.p.length ≤ s.w.p.length → P K a { s with w := w })
    (hR : ∀ K a s w, P K a s → R .json { s with w := w })
    (hstep : ∀ K a s n, P K a s → s.w.ok = true → 3 * s.w.p.length + 1 ≤ n →
      wp (step n a) (fun a' s' => (∃ x, s.w.p = text x ++ s'.w.p ∧ P (add K x) a' s') ∧
        s'.w.ok = true) R s)
    {K : C} {a : α} {s : PageState} (hP : P K a s) (hok : s.w.ok = true) {n : Nat}
    (hn : 3 * s.w.p.length + 1 ≤ n) :
    wp (commaRest step close behind n a)
      (fun a' s' => (∃ (v : Ws) (xs : List (X × Ws)) (r : Bytes),
          s.w.p = restText text v xs ++ close :: r ∧
          P ((xs.map Prod.fst).foldl add K) a' s' ∧
          s'.w.p = if behind then r else close :: r) ∧ s'.w.ok = true)
      R s := by
  induction n generalizing K a s with
  | zero => omega
  | succ n ih =>
  obtain ⟨v, r, hr, hpeek⟩ := jpPeek_spec s.w
  have hmoved := fun w' => hmove _ _ _ w' hP
  simp only [commaRest, wp_bind, wp_peek, hpeek, wp_ite, wp_ret, wp_pure]
  refine ⟨fun hc => ?_, fun _ => ⟨fun hc => ?_, fun _ => hR _ _ _ _ hP⟩⟩
  · obtain ⟨u, rfl⟩ := List.head?_eq_some_iff.1 hc
    have hu : u.length + 1 ≤ s.w.p.length := by
      rw [hr, List.length_append, List.length_cons]
      omega
    -- One more step, and what the loop does behind it.
    refine wp_advance rfl
      (wp_bind.2 (wp_mono (hstep _ _ _ n (hmoved ⟨u, s.w.ok⟩ (by simp only; omega))
      hok (by simp only; omega)) (fun a' s₁ hends => ?_) fun e s' h' => h'))
    obtain ⟨⟨x, hx, hP₁⟩, hok₁⟩ := hends
    change u = _ at hx
    have hle : s₁.w.p.length ≤ u.length := by
      rw [hx, List.length_append]
      omega
    refine wp_mono (ih hP₁ hok₁ (by omega)) (fun a'' s' hends => ?_) fun e s' h' => h'
    obtain ⟨⟨v', xs, t, ht, hP', hs'⟩, hok'⟩ := hends
    refine ⟨⟨v, (x, v') :: xs, t, ?_, hP', hs'⟩, hok'⟩
    rw [hr, hx, ht, restText, spacedText_cons]
    simp
  · obtain ⟨u, rfl⟩ := List.head?_eq_some_iff.1 hc
    have hu : u.length ≤ s.w.p.length := by
      rw [hr, List.length_append, List.length_cons]
      omega
    cases behind with
    | true => exact ⟨fun _ => wp_advance rfl ⟨⟨v, [], u, hr, hmoved ⟨u, s.w.ok⟩ hu, rfl⟩, hok⟩,
        fun h => absurd rfl h⟩
    | false =>
      refine ⟨fun h => absurd h (by decide), fun _ => ⟨⟨v, [], u, hr, ?_, rfl⟩, hok⟩⟩
      exact hmoved ⟨close :: u, s.w.ok⟩ (by simp only [hr, List.length_append]; omega)

/-- A loop on an arbitrary buffer: it ends normally only on the text of what its
    steps read. -/
theorem commaLoop_ends {R : Code → PageState → Prop}
    (hmove : ∀ K a s w, P K a s → w.p.length ≤ s.w.p.length → P K a { s with w := w })
    (hR : ∀ K a s w, P K a s → R .json { s with w := w })
    (hstep : ∀ K a s n, P K a s → s.w.ok = true → 3 * s.w.p.length + 1 ≤ n →
      wp (step n a) (fun a' s' => (∃ x, s.w.p = text x ++ s'.w.p ∧ P (add K x) a' s') ∧
        s'.w.ok = true) R s)
    {K : C} {a : α} {s : PageState} (hP : P K a s) (hok : s.w.ok = true) {n : Nat}
    (hn : 3 * s.w.p.length + 2 ≤ n) :
    wp (commaLoop step close behind n a)
      (fun a' s' => (∃ (x : X × Ws) (xs : List (X × Ws)) (r : Bytes),
          s.w.p = spacedText text (x :: xs) ++ close :: r ∧
          P (((x :: xs).map Prod.fst).foldl add K) a' s' ∧
          s'.w.p = if behind then r else close :: r) ∧ s'.w.ok = true)
      R s := by
  -- The first element; the others are read by `commaRest`.
  obtain ⟨n, rfl⟩ : ∃ m, n = m + 1 := ⟨n - 1, by omega⟩
  refine wp_bind.2 (wp_mono (hstep K a s n hP hok (by omega)) (fun a' s₁ hpost => ?_)
    fun e s' h' => h')
  obtain ⟨⟨x, hx, hP₁⟩, hok₁⟩ := hpost
  have hle : s₁.w.p.length ≤ s.w.p.length := by
    rw [hx, List.length_append]
    omega
  change wp (commaRest step close behind n a') _ _ s₁
  refine wp_mono (commaRest_ends hmove hR hstep hP₁ hok₁
    (by omega)) (fun a'' s' hpost => ?_) fun e s' h' => h'
  obtain ⟨⟨v, xs, r, hr, hP', hs'⟩, hok'⟩ := hpost
  refine ⟨⟨(x, v), xs, r, ?_, hP', hs'⟩, hok'⟩
  rw [hx, hr, spacedText_cons, List.append_assoc]

end Loop

end MongrelDB
