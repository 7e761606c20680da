import MongrelDB.Page.Members

/-!
# The scan of the top-level keys

The members of the response are walked over up to the first array named `rows`,
or up to the end of the object.
-/

namespace MongrelDB

open Ascii Prog

variable {s : PageState} {Q : Bool → PageState → Prop} {R : Code → PageState → Prop}

theorem skipsWs_keyLoop (n : Nat) : SkipsWs (keyLoop n) := by
  cases n with
  | zero => exact fun _ => rfl
  | succ n =>
    refine SkipsWs.bind (fun s => ?_) _
    have hidem : jpSkipWs (jpSkipWs s.w) = jpSkipWs s.w := jpSkipWs_idem s.w
    exact congrArg (fun w => Outcome.val () { s with w := w }) hidem

/-! ## On a text -/

/-- A member to skip, and what follows it. -/
theorem keyLoop_skip {m : Member Json} (hm : isRowsMember m = false) (w : Ws) {c : UInt8}
    (hc : isWs c = false) (hd : isDelim c = true) {x : Bytes} {n : Nat}
    (hs : s.w = ⟨memberText m ++ (w.bytes ++ c :: x), true⟩)
    (hn : 3 * s.w.p.length + 2 ≤ n + 1)
    (hcomma : c = comma → wp (keyLoop n) Q R { s with w := ⟨x, true⟩ })
    (hend : c = rbrace → Q false { s with w := ⟨c :: x, true⟩ })
    (hother : c = comma ∨ c = rbrace) :
    wp (keyLoop (n + 1)) Q R s := by
  obtain ⟨pre, k, mid, ipre, v, post⟩ := m
  have htext : s.w = ⟨pre.bytes ++ quote :: (k.raw ++ quote :: (mid.bytes ++ colon ::
      (ipre.bytes ++ (v.text ++ (post.bytes ++ (w.bytes ++ c :: x)))))), true⟩ := by
    simp [hs, memberText, itemText]
  have hlen : 3 * (v.text ++ (post.bytes ++ (w.bytes ++ c :: x))).length + 1 ≤ n := by
    rw [htext] at hn
    simp only [List.length_append, List.length_cons] at hn ⊢
    omega
  rw [keyLoop, wp_bind, wp_skipWs, wp_bind]
  refine (show SkipsWs readKey from skipsWs_peek.bind _).wp (readKey_text htext ?_)
  simp only [wp_bind]
  refine wp_isArrayOf_other ipre (fun heq => by simpa [isRowsMember, heq] using hm) fun u => ?_
  simp only [Bool.false_eq_true, if_false, wp_bind, wp_peek]
  refine wp_parse (P := fun j => j = ⟨post.bytes ++ (w.bytes ++ c :: x), true⟩)
    ⟨_, jpValue_text v u _ n (v.stops_ws₂ post w hd x) hlen, rfl⟩ (fun j hj _ => ?_)
    fun j hj hok => ?_
  · subst hj
    simp only [jpPeek_ws₂ post w hc, Option.some.injEq]
    rcases hother with rfl | rfl
    · rw [if_pos rfl, wp_bind]
      exact wp_advance rfl (hcomma rfl)
    · rw [if_neg (by decide), if_pos rfl]
      exact hend rfl
  · rw [hj] at hok
    exact absurd hok Bool.true_eq_false.mp

/-- The scan ends at the array of rows. -/
theorem keyLoop_lead {ms : List (Member Json)} (hms : ∀ m ∈ ms, isRowsMember m = false)
    {pre mid post : Ws} {r : Bytes} {n : Nat}
    (hs : s.w = ⟨skippedText ms ++ (rowsKeyText pre mid post ++ lbrack :: r), true⟩)
    (hn : 3 * s.w.p.length + 2 ≤ n) (hQ : Q true { s with w := ⟨lbrack :: r, true⟩ }) :
    wp (keyLoop n) Q R s := by
  induction ms generalizing s n with
  | nil =>
    obtain ⟨n, rfl⟩ : ∃ m, n = m + 1 := ⟨n - 1, by omega⟩
    have htext : s.w = ⟨pre.bytes ++ quote :: (ascii "rows" ++ quote :: (mid.bytes ++ colon ::
        (post.bytes ++ lbrack :: r))), true⟩ := by
      simp [hs, skippedText, rowsKeyText]
    rw [keyLoop, wp_bind, wp_skipWs, wp_bind]
    refine (show SkipsWs readKey from skipsWs_peek.bind _).wp
      (readKey_text (k := ⟨ascii "rows", by decide⟩) htext ?_)
    simp only [wp_bind]
    refine wp_isArrayOf (fun _ => ?_) fun hne => absurd rfl hne
    simp only [jpPeek_ws post (show isWs lbrack = false by rfl), decide_true, if_true, wp_pure]
    exact hQ
  | cons m ms ih =>
    obtain ⟨n, rfl⟩ : ∃ m, n = m + 1 := ⟨n - 1, by omega⟩
    have htext : s.w = ⟨memberText m ++ (Ws.none.bytes ++ comma ::
        (skippedText ms ++ (rowsKeyText pre mid post ++ lbrack :: r))), true⟩ := by
      simp [hs, skippedText, Ws.none]
    refine keyLoop_skip (hms m List.mem_cons_self) Ws.none (by decide) (by decide) htext (by omega)
      (fun _ => ?_) (fun h => absurd h (by decide)) (.inl rfl)
    refine ih (fun m hm => hms m (List.mem_cons_of_mem _ hm)) rfl ?_ hQ
    rw [htext] at hn
    simp only [List.length_append, List.length_cons] at hn ⊢
    omega

/-- The scan ends with the object. -/
theorem keyLoop_members {ms : List (Member Json)} (hne : ms ≠ [])
    (hms : ∀ m ∈ ms, isRowsMember m = false) {w : Ws} {r : Bytes} {n : Nat}
    (hs : s.w = ⟨membersText ms ++ (w.bytes ++ rbrace :: r), true⟩)
    (hn : 3 * s.w.p.length + 2 ≤ n) (hQ : Q false { s with w := ⟨rbrace :: r, true⟩ }) :
    wp (keyLoop n) Q R s := by
  induction ms generalizing s n with
  | nil => exact absurd rfl hne
  | cons m ms ih =>
    obtain ⟨n, rfl⟩ : ∃ m, n = m + 1 := ⟨n - 1, by omega⟩
    have hm := hms m List.mem_cons_self
    -- The last member is followed by the brace, any other by a comma.
    cases ms with
    | nil =>
      exact keyLoop_skip hm w (by decide) (by decide) hs (by omega)
        (fun h => absurd h (by decide)) (fun _ => hQ) (.inr rfl)
    | cons m' ms =>
      have htext : s.w = ⟨memberText m ++ (Ws.none.bytes ++ comma ::
          (membersText (m' :: ms) ++ (w.bytes ++ rbrace :: r))), true⟩ := by
        simp [hs, membersText, Ws.none]
      refine keyLoop_skip hm Ws.none (by decide) (by decide) htext (by omega) (fun _ => ?_)
        (fun h => absurd h (by decide)) (.inl rfl)
      refine ih (List.cons_ne_nil _ _) (fun m hm => hms m (List.mem_cons_of_mem _ hm)) rfl ?_ hQ
      rw [htext] at hn
      simp only [List.length_append, List.length_cons] at hn ⊢
      omega

/-! ## On an arbitrary buffer -/

/-- Where the scan ends: at the array of rows, or with the object. -/
def Scanned (t : Bytes) (found : Bool) (r : Bytes) : Prop :=
  if found then ∃ ms pre mid post, (∀ m ∈ ms, isRowsMember m = false) ∧
    t = skippedText ms ++ (rowsKeyText pre mid post ++ r) ∧ r.head? = some lbrack
  else ∃ ms : List (Member Json), ms ≠ [] ∧ (∀ m ∈ ms, isRowsMember m = false) ∧
    t = membersText ms ++ r ∧ r.head? = some rbrace

/-- One more member in front of where the scan ends. -/
theorem Scanned.cons {m : Member Json} (hm : isRowsMember m = false) {t r : Bytes} {found : Bool}
    (h : Scanned t found r) : Scanned (memberText m ++ comma :: t) found r := by
  have hcons : ∀ ms : List (Member Json), (∀ m ∈ ms, isRowsMember m = false) →
      ∀ m' ∈ m :: ms, isRowsMember m' = false :=
    fun ms hms => List.forall_mem_cons.2 ⟨hm, hms⟩
  cases found with
  | true =>
    obtain ⟨ms, pre, mid, post, hms, rfl, hr⟩ := h
    exact ⟨m :: ms, pre, mid, post, hcons ms hms, by simp [skippedText], hr⟩
  | false =>
    obtain ⟨ms, hne, hms, rfl, hr⟩ := h
    obtain ⟨m', ms, rfl⟩ := List.exists_cons_of_ne_nil hne
    exact ⟨m :: m' :: ms, List.cons_ne_nil _ _, hcons _ hms, by simp [membersText], hr⟩

/-- The scan ends normally only on the text of what it has walked over. -/
theorem keyLoop_ends {n : Nat} (hn : 3 * s.w.p.length + 2 ≤ n) :
    wp (keyLoop n) (fun found s' => ∃ r ok, Scanned s.w.p found r ∧ s' = { s with w := ⟨r, ok⟩ })
      (fun e s' => e = .json ∧ s'.out = s.out) s := by
  induction n generalizing s with
  | zero => omega
  | succ n ih =>
  rw [keyLoop, wp_bind, wp_skipWs, wp_bind]
  refine (show SkipsWs readKey from skipsWs_peek.bind _).wp
    (readKey_ends (fun pre mid k r hs => ?_) fun _ => ⟨rfl, rfl⟩)
  have hlen : r.length + 3 ≤ s.w.p.length := by
    simp only [hs, List.length_append, List.length_cons]
    omega
  simp only [wp_bind]
  -- The key `rows` in front of an array ends the scan; any other member is skipped.
  refine wp_isArrayOf_ends (fun heq inner t ht => ?_) fun u x hx hnot => ?_
  · simp only [if_true, wp_pure]
    refine ⟨lbrack :: t, true, ⟨[], pre, mid, inner, by simp, ?_, rfl⟩, rfl⟩
    simp [hs, ht, heq, skippedText, rowsKeyText]
  · have hule : x.length ≤ r.length := by simp [hx]
    simp only [Bool.false_eq_true, if_false, wp_bind, wp_peek]
    refine wp_parse (jpValue_spec (by simp only; omega)) (fun j hj hok => ?_) fun _ _ _ =>
      ⟨rfl, rfl⟩
    obtain ⟨-, w₂, v, hv, -⟩ := hj.sound hok
    change x = _ at hv
    obtain ⟨post, y, hy, hpeek₂⟩ := jpPeek_spec j
    have hr : r = (u.append w₂).bytes ++ (v.text ++ (post.bytes ++ y)) := by
      rw [hx, hv, hy]
      simp [Ws.append]
    let m : Member Json := ⟨pre, k, mid, ⟨u.append w₂, v, post⟩⟩
    have htext : s.w.p = memberText m ++ y := by
      simp [m, hs, hr, memberText, itemText]
    -- It was skipped, so it has another key, or its value is no array.
    have hm : isRowsMember m = false := by
      by_cases hk : k.raw = ascii "rows"
      · have := hnot hk
        rw [hr, Ne, peek_isArr] at this
        simpa [m, isRowsMember] using fun _ => this
      · simp [m, isRowsMember, hk]
    simp only [hpeek₂, wp_ite, wp_bind, wp_pure, wp_ret]
    refine ⟨fun hc => ?_, fun _ => ⟨fun hc => ?_, fun _ => ⟨trivial, trivial⟩⟩⟩
    · obtain ⟨y, rfl⟩ := List.head?_eq_some_iff.1 hc
      refine wp_advance rfl (wp_mono (ih ?_) (fun found s' hends => ?_) fun _ _ h => h)
      · rw [htext] at hn
        simp only [List.length_append, List.length_cons] at hn ⊢
        omega
      · obtain ⟨r', ok', hr', hs'⟩ := hends
        exact ⟨r', ok', htext ▸ Scanned.cons hm hr', hs'⟩
    · exact ⟨y, j.ok, ⟨[m],
        List.cons_ne_nil _ _, by simpa using hm, by rw [htext, membersText], hc⟩,
        rfl⟩

end MongrelDB
