import MongrelDB.Tables.Names

/-!
# Decoding the names

The decoding as a whole, on the text of an array of names and on an arbitrary
buffer. It never faults. On the text of an array, all the names are delivered, if
the requests for them are granted (`decodeNames_text`). Another code than `MDB_OK`
comes with a count of zero exactly if the first name is not recorded
(`decodeNames_ends`, `decodeNames_later`).
-/

namespace MongrelDB

open Ascii Prog

variable {H : Heap} {L : NameList} {s : NamesState}

/-! ## The loop -/

/-- The names of an array, on their text. -/
theorem namesLoop_text {xs : List (NameText × Ws)} (hne : xs ≠ []) (h : Named H L s) {w : Ws}
    {r : Bytes} (hroom : RoomFor L (spacedText NameText.text xs ++ (w.bytes ++ rbrack :: r)))
    {n : Nat} (hn : (spacedText NameText.text xs).length ≤ n) :
    wp (namesLoop n ⟨spacedText NameText.text xs ++ (w.bytes ++ rbrack :: r), true⟩)
      (fun _ s' => Named H (L.addNames xs) s') (fun _ _ => Refused H (L.addNames xs).asks) s := by
  induction xs generalizing L s n with
  | nil => exact absurd rfl hne
  | cons x xs ih =>
    obtain ⟨x, v⟩ := x
    have hlen : x.text.length ≠ 0 := by simp [NameText.text]
    rw [spacedText_cons, List.length_append] at hn
    obtain ⟨n, rfl⟩ : ∃ m, n = m + 1 := ⟨n - 1, by omega⟩
    rw [spacedText_cons, List.append_assoc] at hroom ⊢
    simp only [namesLoop, wp_bind]
    -- A refused request of the first name is one of all names.
    refine wp_mono (readName_text h x hroom) (fun j s' hpost => ?_)
      fun e s' h => h.2.2.mono (NameList.asks_le_addNames (L := L.addName x) xs)
    obtain ⟨hj, h', hroom'⟩ := hpost
    subst hj
    cases xs with
    | nil =>
      simp only [restText, jpPeek_ws₂ v w (show isWs rbrack = false by rfl), bump_cons]
      exact h'
    | cons y ys =>
      simp only [restText, List.append_assoc, List.cons_append,
        jpPeek_ws v (show isWs comma = false by rfl),
        if_true, bump_cons, wp_bind, wp_lift_ok]
      refine ih (List.cons_ne_nil _ _) h' ?_ ?_
      · rw [RoomFor] at hroom' ⊢
        simp only [restText, List.length_append, List.length_cons] at hroom' ⊢
        omega
      · simp only [restText, List.length_append, List.length_cons] at hn ⊢
        omega

/-- The names of an array, on an arbitrary buffer: the loop ends normally only on
    their text, and returns early without a name only if the first one is not
    recorded. -/
theorem namesLoop_ends (h : Named H L s) {j : JsonParser} (hok : j.ok = true) {n : Nat}
    (hn : j.p.length < n) :
    wp (namesLoop n j)
      (fun j' s' => ∃ (x : NameText × Ws) (xs : List (NameText × Ws)),
        j.p = spacedText NameText.text (x :: xs) ++ rbrack :: j'.p ∧
          Named H (L.addNames (x :: xs)) s')
      (fun e s' => e ≠ .ok ∧ s'.out.names = .null ∧ (s'.out.count = L.offs.length ∨
        L.offs.length < s'.out.count ∧
          ∃ (x : NameText) (r : Bytes), j.p = x.text ++ r ∧ Granted H (L.addName x).asks)) s := by
  induction n generalizing L s j with
  | zero => omega
  | succ n ih =>
  simp only [namesLoop, wp_bind]
  refine wp_mono (readName_ends h j) (fun j₁ s₁ hends => ?_)
    fun e s' hends => ⟨hends.1, by rw [hends.2, h.out], .inl (by rw [hends.2, h.out])⟩
  obtain ⟨hok₁, x, hx, h₁⟩ := hends
  have hfirst : ∃ (x : NameText) (r : Bytes), j.p = x.text ++ r ∧ Granted H (L.addName x).asks :=
    ⟨x, _, hx, h₁.heap.granted⟩
  have hcount : L.offs.length < (L.addName x).offs.length := by
    rw [NameList.length_addName]
    omega
  have hlen := congrArg List.length hx
  rw [List.length_append] at hlen
  obtain ⟨v, t, ht, hpeek⟩ := jpPeek_spec j₁
  have htlen := congrArg List.length ht
  rw [List.length_append] at htlen
  simp only [hpeek, wp_ite, wp_ret, wp_bind]
  refine ⟨fun hc => ?_, fun _ => ⟨fun hb => ?_, fun _ => ?_⟩⟩
  · obtain ⟨u, rfl⟩ := List.head?_eq_some_iff.1 hc
    rw [List.length_cons] at htlen
    rw [bump_cons, wp_lift_ok]
    -- The other names.
    refine wp_mono (ih h₁ hok₁ (by simp only; omega)) (fun _ s' hends => ?_) fun e s' hends => ?_
    · obtain ⟨y, xs, hr, h'⟩ := hends
      change u = _ at hr
      refine ⟨(x, v), y :: xs, ?_, h'⟩
      rw [hx, ht, hr, spacedText_cons NameText.text x v (y :: xs), restText]
      simp
    · obtain ⟨he, hnames, hout⟩ := hends
      refine ⟨he, hnames, .inr ⟨?_, hfirst⟩⟩
      rcases hout with hout | ⟨hout, -⟩
      · omega
      · omega
  · obtain ⟨u, rfl⟩ := List.head?_eq_some_iff.1 hb
    rw [bump_cons, wp_lift_ok]
    exact ⟨(x, v), [], by rw [hx, ht, spacedText_cons, restText, List.append_assoc], h₁⟩
  · refine ⟨by decide, by rw [h₁.out], .inr ⟨?_, hfirst⟩⟩
    rw [h₁.out]
    exact hcount

/-- Once the first name is recorded, the names are counted. -/
theorem namesLoop_later (h : Named H L s) {t r : Bytes} {x : NameText} (ht : t = x.text ++ r)
    (hroom : RoomFor L t) (hg : Granted H (L.addName x).asks) {n : Nat} (hn : t.length < n) :
    wp (namesLoop n ⟨t, true⟩) (fun _ _ => True) (fun _ s' => s'.out.count ≠ 0) s := by
  obtain ⟨n, rfl⟩ : ∃ m, n = m + 1 := ⟨n - 1, by omega⟩
  subst ht
  simp only [namesLoop, wp_bind]
  refine wp_mono (readName_text h x hroom) (fun j s₁ hread => ?_)
    fun e s' hends => absurd hends.2.2 hg.not_refused
  obtain ⟨rfl, h₁, -⟩ := hread
  have hcount : s₁.out.count ≠ 0 := by simp [h₁.out]
  have hlen : x.text.length ≠ 0 := by simp [NameText.text]
  rw [List.length_append] at hn
  obtain ⟨v, u, hu, hpeek⟩ := jpPeek_spec ⟨r, true⟩
  have hulen := congrArg List.length hu
  rw [List.length_append] at hulen
  simp only [hpeek, wp_ite, wp_ret, wp_bind]
  refine ⟨fun hc => ?_, fun _ => ⟨fun hb => ?_, fun _ => hcount⟩⟩
  · obtain ⟨u, rfl⟩ := List.head?_eq_some_iff.1 hc
    simp only [List.length_cons] at hulen
    rw [bump_cons, wp_lift_ok]
    -- No name is taken back.
    refine wp_mono (namesLoop_ends h₁ rfl (by simp only; omega)) (fun _ _ _ => trivial)
      fun e s' hends => ?_
    have hout := hends.2.2
    rw [NameList.length_addName] at hout
    rcases hout with hout | ⟨hout, -⟩ <;> omega
  · obtain ⟨u, rfl⟩ := List.head?_eq_some_iff.1 hb
    rw [bump_cons, wp_lift_ok]
    trivial

theorem namesLoop_skipWs (n : Nat) (j : JsonParser) :
    namesLoop n (jpSkipWs j) = namesLoop n j := by
  cases n <;> simp only [namesLoop, readName, jpPeek_skipWs]

/-! ## The pointers -/

/-- The pass over the names. -/
theorem resolveNames_spec {b : Block NameSlot} {offs : List Nat} {tail : List NameSlot} {cap : Nat}
    (h : IsArray b (offs.map .offset ++ tail) cap) :
    ∃ b', resolveNames offs.length b = .ok b' ∧ IsArray b' (offs.map .ptr ++ tail) cap := by
  induction offs using List.reverseRecOn generalizing tail with
  | nil => exact ⟨b, rfl, h⟩
  | append_singleton offs off ih =>
    -- The last name is resolved behind the others.
    have hall : IsArray b (offs.map .offset ++ .offset off :: tail) cap := by simpa using h
    obtain ⟨b₁, hb₁, h₁⟩ := ih hall
    have hload := h₁.load (i := offs.length) (by simp)
    obtain ⟨b₂, hb₂, h₂⟩ := h₁.set (i := offs.length) (by simp) (.ptr off)
    refine ⟨b₂, ?_, ?_⟩
    · rw [List.length_append, List.length_singleton, resolveNames, hb₁, Run.ok_bind, hload]
      simpa using hb₂
    · simpa using h₂

/-- The buffers hold the names `L`, and they are shown. -/
structure Delivered (L : NameList) (s : NamesState) : Prop where
  arr : s.c.namesArr.Holds (L.offs.map .ptr ++ [.null])
  blob : s.c.namesBlob = L.blob
  out : s.out = ⟨.array, L.offs.length⟩

theorem finishNames_spec (h : Named H L s) :
    wp finishNames (fun _ s' => Delivered L s' ∧ Granted H L.finish.asks)
      (fun e s' => e ≠ .ok ∧ s'.out = s.out ∧ Refused H L.finish.asks) s := by
  have hcount : s.out.count = L.offs.length := by rw [h.out]
  -- The slot behind the names, with the array as it is or moved.
  have htail : ∀ {L' : NameList} {s' : NamesState}, Named H L' s' → L'.offs = L.offs →
      L'.blob = L.blob → L'.asks = L.finish.asks → L.offs.length < L'.cap →
      wp (do
        storeName L.offs.length .null
        let names ← lift (resolveNames L.offs.length (← get).c.namesArr)
        modify fun s => { s with
          c := { s.c with namesArr := names }, out :=
          { s.out with names := .array } } : Naming Unit)
        (fun _ s' => Delivered L s' ∧ Granted H L.finish.asks)
        (fun e s' => e ≠ .ok ∧ s'.out = s.out ∧ Refused H L.finish.asks) s' :=
    fun {L' s'} h' hoffs hblob hasks hlt => by
      have harr := h'.arr
      rw [hoffs] at harr
      obtain ⟨b, hb, hpush⟩ := harr.push (by simpa using hlt) .null
      obtain ⟨b', hb', hres⟩ := resolveNames_spec hpush
      rw [List.length_map] at hb
      simp only [storeName, wp_bind, wp_get, hb, wp_lift_ok, wp_modify, hb']
      exact ⟨⟨hres.holds, h'.blob.trans hblob, by rw [h'.out, hoffs]⟩, hasks ▸ h'.heap.granted⟩
  simp only [finishNames, wp_bind, wp_get, wp_ite, h.cap, hcount]
  refine ⟨fun hfull => ?_, fun hfree => ?_⟩
  · have hasks : L.asks + 1 = L.finish.asks := by rw [NameList.finish, if_pos hfull]
    refine wp_mono (reallocNames_spec h (by omega)) (fun _ s' h' => ?_) fun e s' hends =>
      ⟨hends.1 ▸ by decide, hends.2.1, hasks ▸ hends.2.2⟩
    have := htail h' rfl rfl hasks (Nat.lt_succ_self _)
    simpa only [wp_bind, wp_get] using this
  · have hasks : L.asks = L.finish.asks := by rw [NameList.finish, if_neg hfree]
    have hle := h.arr.length_le
    rw [List.length_map] at hle
    have := htail h rfl rfl hasks (by omega)
    simpa only [wp_bind, wp_get] using this

/-! ## The response -/

/-- The response opens an array. -/
def OpensArray (recv : Bytes) (t : Bytes) : Prop := ∃ pre : Ws, recv = pre.bytes ++ lbrack :: t

/-- The requests it takes to deliver these names. -/
def namesAsks : List (NameText × Ws) → Nat
  | [] => 0
  | x :: xs => (NameList.empty.addNames (x :: xs)).finish.asks

/-- The response is an array of names, and anything behind it, and the requests
    for them are granted. -/
def AllNames (h : Heap) (recv : Bytes) : Prop :=
  ∃ (t : Bytes) (xs : List (NameText × Ws)) (w : Ws) (r : Bytes), OpensArray recv t ∧
    t = spacedText NameText.text xs ++ (w.bytes ++ rbrack :: r) ∧ Granted h (namesAsks xs)

/-- The response opens an array with a first name, and the requests for it are granted. -/
def FirstNameDone (h : Heap) (recv : Bytes) : Prop :=
  ∃ (t : Bytes) (x : NameText) (r : Bytes), OpensArray recv t ∧ t = x.text ++ r ∧
    Granted h (NameList.empty.addName x).asks

/-- Nothing is shown to the caller. -/
def NamesResult.Hidden (out : NamesResult) : Prop := out.names = .null ∧ out.count = 0

/-- The code that is returned, and the state that is left, by a fact about the body. -/
theorem decodeNames_of_wp {recv : Bytes} {c : NamesScratch} {h : Heap}
    {P : Code → NamesState → Prop}
    (hbody : wp (namesBody recv) (fun _ s => P .ok s) P ⟨c, ⟨.null, 0⟩, h⟩) :
    ∃ (e : Code) (s : NamesState), decodeNames recv c h = .ok (e, s.out, s.c, s.heap) ∧ P e s := by
  rw [wp] at hbody
  rw [decodeNames]
  cases hrun : namesBody recv ⟨c, ⟨.null, 0⟩, h⟩ with
  | val a s => rw [hrun] at hbody; exact ⟨.ok, s, rfl, hbody⟩
  | ret e s => rw [hrun] at hbody; exact ⟨e, s, rfl, hbody⟩
  | fault f => rw [hrun] at hbody; exact hbody.elim

variable {recv : Bytes} {c : NamesScratch} {h : Heap}

/-- The names are not shown yet. -/
theorem named_empty (h : Heap) : Named h NameList.empty ⟨.freed, ⟨.null, 0⟩, h⟩ :=
  ⟨isArray_nil, rfl, rfl, After.zero h, rfl⟩

/-- The body, by what its loop does behind the opening bracket. -/
theorem namesBody_spec {Q : Unit → NamesState → Prop} {R : Code → NamesState → Prop}
    (hother : (¬∃ t, OpensArray recv t) → R .ok ⟨.freed, ⟨.null, 0⟩, h⟩)
    (hempty : ∀ (t r : Bytes) (w : Ws), OpensArray recv t → t = w.bytes ++ rbrack :: r →
      R .ok ⟨.freed, ⟨.null, 0⟩, h⟩)
    (hloop : ∀ t : Bytes, OpensArray recv t → (jpPeek ⟨t, true⟩).1 ≠ some rbrack →
      wp (namesLoop (fuelFor recv) ⟨t, true⟩ >>= fun _ => finishNames) Q R
        ⟨.freed, ⟨.null, 0⟩, h⟩) :
    wp (namesBody recv) Q R ⟨c, ⟨.null, 0⟩, h⟩ := by
  obtain ⟨pre, t, ht, hpeek⟩ := jpPeek_spec (jpParseValue recv)
  change recv = _ at ht
  simp only [namesBody, wp_bind, wp_modify, hpeek, wp_ite, wp_ret]
  refine ⟨fun hne => hother ?_, fun hopen => ?_⟩
  · rintro ⟨t', pre', ht'⟩
    have := jpPeek_ws pre' (show isWs lbrack = false by rfl) t' true
    rw [← ht'] at this
    exact hne (congrArg Prod.fst (hpeek.symm.trans this))
  obtain ⟨t, rfl⟩ := List.head?_eq_some_iff.1 (not_not.1 hopen)
  have hopens : OpensArray recv t := ⟨pre, ht⟩
  rw [bump_cons, wp_lift_ok, jpPeek_skipWs]
  refine ⟨fun hb => ?_, fun hb => ?_⟩
  · obtain ⟨w, r, hr, hj⟩ := jpPeek_fst hb
    rw [hj, bump_cons, wp_lift_ok]
    exact hempty t r w hopens hr
  · have := hloop t hopens hb
    rwa [wp_bind, ← namesLoop_skipWs] at this

/-- The opening bracket is the first one. -/
theorem OpensArray.unique {t t' : Bytes} (ht : OpensArray recv t) (ht' : OpensArray recv t') :
    t = t' := by
  obtain ⟨pre, ht⟩ := ht
  obtain ⟨pre', ht'⟩ := ht'
  have hpeek := jpPeek_ws pre (show isWs lbrack = false by rfl) t true
  rw [← ht, ht', jpPeek_ws pre' (show isWs lbrack = false by rfl)] at hpeek
  simpa using hpeek.symm

theorem OpensArray.length_lt {t : Bytes} (ht : OpensArray recv t) : t.length < recv.length := by
  obtain ⟨pre, rfl⟩ := ht
  simp only [List.length_append, List.length_cons]
  omega

/-- The first character of a name is not the end of the array. -/
theorem peek_names (x : NameText) (r : Bytes) :
    (jpPeek ⟨x.text ++ r, true⟩).1 ≠ some rbrack := by
  rw [NameText.text, List.append_assoc, List.cons_append, jpPeek_ws x.pre not_isWs_quote]
  exact fun h => absurd (Option.some.inj h) (by decide)

theorem roomFor_empty {t : Bytes} (hsize : recv.length < SIZE_MAX) (ht : OpensArray recv t) :
    RoomFor NameList.empty t := by
  have := ht.length_lt
  simp only [RoomFor, NameList.empty, Sbuf.empty, Sbuf.len, List.length_nil]
  omega

/-- On the text of an array, its names are delivered, or a request is refused. -/
theorem decodeNames_text {t : Bytes} {xs : List (NameText × Ws)} {w : Ws} {r : Bytes}
    (hopen : OpensArray recv t) (ht : t = spacedText NameText.text xs ++ (w.bytes ++ rbrack :: r))
    (hsize : recv.length < SIZE_MAX) :
    ∃ (e : Code) (s : NamesState), decodeNames recv c h = .ok (e, s.out, s.c, s.heap) ∧
      (e = .ok ∧ (xs = [] ∧ s.out = ⟨.null, 0⟩ ∨
          xs ≠ [] ∧ Delivered (NameList.empty.addNames xs) s) ∨ Refused h (namesAsks xs)) := by
  refine decodeNames_of_wp (namesBody_spec (fun hne => absurd ⟨t, hopen⟩ hne)
    (fun t' r' w' hopen' ht' => ?_) fun t' hopen' hb => ?_)
  · obtain rfl := hopen.unique hopen'
    cases xs with
    | nil => exact .inl ⟨rfl, .inl ⟨rfl, rfl⟩⟩
    | cons x xs =>
      -- A name does not begin with the end of the array.
      rw [ht, spacedText_cons, List.append_assoc] at ht'
      have hpeek := peek_names x.1 (restText NameText.text x.2 xs ++ (w.bytes ++ rbrack :: r))
      rw [ht', jpPeek_ws w' (show isWs rbrack = false by rfl)] at hpeek
      exact absurd rfl hpeek
  · obtain rfl := hopen.unique hopen'
    cases xs with
    | nil =>
      refine absurd ?_ hb
      simp [ht, spacedText, commaSep, jpPeek_ws w (show isWs rbrack = false by rfl)]
    | cons x xs =>
      have hlen := hopen.length_lt
      have htlen := congrArg List.length ht
      rw [List.length_append] at htlen
      have hroom := roomFor_empty hsize hopen
      rw [ht] at hroom ⊢
      refine wp_bind.2 (wp_mono (namesLoop_text (List.cons_ne_nil x xs) (named_empty h) hroom
        (by simp only [fuelFor]; omega)) (fun _ s' h' => ?_) fun e s' href => .inr (href.mono ?_))
      · exact wp_mono (finishNames_spec h')
          (fun _ s'' hd => .inl ⟨rfl, .inr ⟨List.cons_ne_nil _ _, hd.1⟩⟩)
          fun e s'' hends => .inr hends.2.2
      · exact NameList.asks_le_finish

/-- On an arbitrary buffer, the decoding does not fault. Another code than `MDB_OK`
    comes without names shown, but for a first name that is done. -/
theorem decodeNames_ends (recv : Bytes) (c : NamesScratch) (h : Heap) :
    ∃ (e : Code) (s : NamesState), decodeNames recv c h = .ok (e, s.out, s.c, s.heap) ∧
      (e = .ok ∨ s.out.Hidden ∨ FirstNameDone h recv) := by
  refine decodeNames_of_wp (namesBody_spec (fun _ => .inl rfl) (fun _ _ _ _ _ => .inl rfl)
    fun t hopen _ => ?_)
  have hlen := hopen.length_lt
  refine wp_bind.2 (wp_mono (namesLoop_ends (named_empty h) rfl (by simp only [fuelFor]; omega))
    (fun j s' hpost => ?_) fun e s' hpost => .inr ?_)
  · obtain ⟨x, xs, hr, h'⟩ := hpost
    refine wp_mono (finishNames_spec h') (fun _ _ _ => .inl rfl) fun _ _ _ => .inr (.inr ?_)
    change t = _ at hr
    rw [spacedText_cons, List.append_assoc] at hr
    exact ⟨t, x.1, _, hopen, hr, h'.heap.granted.mono (NameList.asks_le_addNames xs)⟩
  · obtain ⟨-, hnames, hcount⟩ := hpost
    rcases hcount with hcount | ⟨-, x, r, hr, hg⟩
    · exact .inl ⟨hnames, hcount⟩
    · exact .inr ⟨t, x, r, hopen, hr, hg⟩

/-- Once the first name is done, the decoding ends with `MDB_OK` at the end of the
    array, or with another code and a count that is not zero. -/
theorem decodeNames_later (hsize : recv.length < SIZE_MAX) (hfirst : FirstNameDone h recv) :
    ∃ (e : Code) (s : NamesState), decodeNames recv c h = .ok (e, s.out, s.c, s.heap) ∧
      (e = .ok ∧ AllNames h recv ∨ e ≠ .ok ∧ s.out.count ≠ 0) := by
  obtain ⟨t, x, r, hopen, ht, hg⟩ := hfirst
  refine decodeNames_of_wp (namesBody_spec (fun hne => absurd ⟨t, hopen⟩ hne)
    (fun t' r' w' hopen' ht' => ?_) fun t' hopen' hb => ?_)
  · obtain rfl := hopen.unique hopen'
    refine absurd ?_ (peek_names x r)
    rw [← ht, ht', jpPeek_ws w' (show isWs rbrack = false by rfl)]
  · obtain rfl := hopen.unique hopen'
    have hlen := hopen.length_lt
    refine wp_bind.2 (wp_mono (wp_and (namesLoop_ends (named_empty h) rfl
      (by simp only [fuelFor]; omega))
      (namesLoop_later (named_empty h) ht (roomFor_empty hsize hopen)
      hg (n := fuelFor recv) (by simp only [fuelFor]; omega))) (fun j s' hends => ?_)
      fun e s' hends => .inr ⟨hends.1.1, hends.2⟩)
    obtain ⟨⟨y, ys, hr, h'⟩, -⟩ := hends
    refine wp_mono (finishNames_spec h')
      (fun _ s'' hd => .inl ⟨rfl, t, y :: ys, Ws.none, j.p, hopen,
      ?_, hd.2⟩) fun e s'' hends => .inr ⟨hends.1, ?_⟩
    · simpa [Ws.none] using hr
    · rw [hends.2.1, h'.out]
      exact (NameList.length_addNames_pos y ys).ne'

end MongrelDB
