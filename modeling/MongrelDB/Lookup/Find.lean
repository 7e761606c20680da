import MongrelDB.Lookup
import MongrelDB.Parser.Walk

/-!
# The walk over the members of an object

On the text of an object, whatever its layout, `jsonFind` ends at the value of
the first member with the key and the kind it looks for (`jsonFind_some`); it
walks over all the others, however deep they are. If there is none, it says
that the function returns 0 if the object is empty (`jsonFind_nil`), and 1 if it
is not (`jsonFind_none`).
-/

namespace MongrelDB

open Ascii

/-! ## Spans -/

/-- The length of a string token, from the cursor behind it. -/
theorem toSize_closed (raw r : Bytes) :
    toSize (ptrDiff r (raw ++ quote :: r) - 1) = .ok raw.length := by
  have : ptrDiff r (raw ++ quote :: r) - 1 = raw.length := by
    simp only [ptrDiff, List.length_append, List.length_cons]
    omega
  rw [this, toSize, if_pos (by omega), Int.toNat_natCast]

theorem toSize_span (t r : Bytes) : toSize (ptrDiff r (t ++ r)) = .ok t.length := by
  have : ptrDiff r (t ++ r) = t.length := by
    simp only [ptrDiff, List.length_append]
    omega
  rw [this, toSize, if_pos (by omega), Int.toNat_natCast]

theorem slice_append (t r : Bytes) : slice (t ++ r) t.length = .ok t := by
  simp [slice]

theorem spanEq_append (t r key : Bytes) : spanEq (t ++ r) t.length key = .ok (t == key) := by
  rw [spanEq]
  split_ifs with h
  · simp [slice_append]
  · have : t ≠ key := fun he => h (he ▸ rfl)
    simp [this]

/-! ## Members -/

variable {starts : UInt8 → Bool} {key : CStr}

/-- A member the walk stops at. -/
def isHit (starts : UInt8 → Bool) (key : CStr) (m : Member Json) : Bool :=
  m.key.raw == key.bytes && m.val.text.head?.any starts

/-- The walk stops at a member it looks for. -/
theorem jsonFindLoop_hit {m : Member Json} (hm : isHit starts key m = true) (x : Bytes) (n : Nat) :
    jsonFindLoop starts key (n + 1) ⟨memberText m ++ x, true⟩ =
      .ok (.at ⟨m.val.text ++ (m.item.post.bytes ++ x), true⟩) := by
  obtain ⟨prek, k, mid, pre, v, post⟩ := m
  obtain ⟨c, t, ht, hc, hpeek⟩ := jpPeek_value pre v (post.bytes ++ x) true
  simp only [isHit, ht, List.head?_cons, Option.any_some] at hm
  simp only [memberText, itemText, List.append_assoc, List.cons_append]
  rw [jsonFindLoop, jpPeek_skipWs, jpPeek_ws prek not_isWs_quote]
  simp only [ne_eq, not_true_eq_false, if_false, ptrSucc_cons, Run.ok_bind, jpString_closed,
    Bool.not_true, Bool.false_eq_true, toSize_closed,
    jpPeek_ws mid (show isWs colon = false by rfl),
    bump_cons, hpeek, spanEq_append, Option.any_some, hm, if_true, Run.pure_eq]

/-- The walk goes on behind a member it does not look for. -/
theorem jsonFindLoop_miss {m : Member Json} (hm : isHit starts key m = false) (w : Ws) {c : UInt8}
    (hc : isWs c = false) (hd : isDelim c = true) (x : Bytes) {n : Nat}
    (hn : 3 * (memberText m ++ (w.bytes ++ c :: x)).length + 2 ≤ n + 1) :
    jsonFindLoop starts key (n + 1) ⟨memberText m ++ (w.bytes ++ c :: x), true⟩ =
      if c = comma then jsonFindLoop starts key n ⟨x, true⟩
      else .ok (.absent (c == rbrace)) := by
  obtain ⟨prek, k, mid, pre, v, post⟩ := m
  obtain ⟨c', t, ht, hc', hpeek⟩ := jpPeek_value pre v (post.bytes ++ (w.bytes ++ c :: x)) true
  simp only [isHit, ht, List.head?_cons, Option.any_some] at hm
  simp only [memberText, itemText, List.append_assoc, List.cons_append, List.length_append,
    List.length_cons] at hn ⊢
  rw [jsonFindLoop, jpPeek_skipWs, jpPeek_ws prek not_isWs_quote]
  simp only [ne_eq, not_true_eq_false, if_false, ptrSucc_cons, Run.ok_bind, jpString_closed,
    Bool.not_true, Bool.false_eq_true, toSize_closed,
    jpPeek_ws mid (show isWs colon = false by rfl),
    bump_cons, hpeek, spanEq_append, Option.any_some, hm]
  have hv := jpValue_text v Ws.none (post.bytes ++ (w.bytes ++ c :: x)) n (v.stops_ws₂ post w hd x)
    (by simp only [List.length_append, List.length_cons]; omega)
  rw [show Ws.none.bytes = [] from rfl, List.nil_append] at hv
  simp only [hv, Run.ok_bind, Bool.not_true, Bool.false_eq_true, if_false, jpPeek_ws₂ post w hc,
    bump_cons, Run.pure_eq, Option.some.injEq]
  rfl

theorem Member.length_val_le (m : Member Json) :
    (m.val.text ++ m.item.post.bytes).length ≤ (memberText m).length := by
  obtain ⟨prek, k, mid, pre, v, post⟩ := m
  simp only [memberText, itemText, Member.val, List.length_append, List.length_cons]
  omega

/-- The walk over the members of an object. -/
theorem jsonFindLoop_members {ms : List (Member Json)} (hne : ms ≠ []) (w : Ws) (r : Bytes)
    {n : Nat} (hn : 3 * (membersText ms ++ (w.bytes ++ rbrace :: r)).length + 2 ≤ n) :
    (ms.find? (isHit starts key) = none ∧
        jsonFindLoop starts key n ⟨membersText ms ++ (w.bytes ++ rbrace :: r), true⟩ =
          .ok (.absent true)) ∨
      ∃ m s, ms.find? (isHit starts key) = some m ∧ m.val.Stops s ∧
        (m.val.text ++ s).length ≤ (membersText ms ++ (w.bytes ++ rbrace :: r)).length ∧
        jsonFindLoop starts key n ⟨membersText ms ++ (w.bytes ++ rbrace :: r), true⟩ =
          .ok (.at ⟨m.val.text ++ s, true⟩) := by
  induction ms generalizing n with
  | nil => exact absurd rfl hne
  | cons m ms ih =>
    obtain ⟨n, rfl⟩ : ∃ m, n = m + 1 := ⟨n - 1, by omega⟩
    by_cases hm : isHit starts key m = true
    · -- The walk stops at the first member.
      refine .inr ⟨m, ?_⟩
      cases ms with
      | nil =>
        refine ⟨m.item.post.bytes ++ (w.bytes ++ rbrace :: r), by simp [hm],
          m.val.stops_ws₂ _ w (by decide) r, ?_, ?_⟩
        · have := m.length_val_le
          simp only [membersText, List.length_append, List.length_cons] at this ⊢
          omega
        · rw [membersText]
          exact jsonFindLoop_hit hm _ n
      | cons m' ms =>
        refine ⟨m.item.post.bytes ++ comma :: (membersText (m' :: ms) ++ (w.bytes ++ rbrace :: r)),
          by simp [hm], m.val.stops_ws _ (by decide) _, ?_, ?_⟩
        · have := m.length_val_le
          simp only [membersText, List.length_append, List.length_cons] at this ⊢
          omega
        · rw [membersText, List.append_assoc, List.cons_append]
          exact jsonFindLoop_hit hm _ n
    · rw [Bool.not_eq_true] at hm
      cases ms with
      | nil =>
        refine .inl ⟨by simp [hm], ?_⟩
        rw [membersText] at hn ⊢
        rw [jsonFindLoop_miss hm w (by decide) (by decide) r hn, if_neg (by decide)]
        rfl
      | cons m' ms =>
        rw [membersText, List.append_assoc, List.cons_append] at hn ⊢
        have hstep := jsonFindLoop_miss hm Ws.none
          (show isWs comma = false by rfl) (by decide)
          (membersText (m' :: ms) ++ (w.bytes ++ rbrace :: r)) hn
        rw [show Ws.none.bytes = [] from rfl, List.nil_append, if_pos rfl] at hstep
        rw [List.find?_cons_of_neg (by simp [hm]), hstep]
        simp only [List.length_append, List.length_cons] at hn
        rcases ih (List.cons_ne_nil _ _) (n := n)
          (by simp only [List.length_append, List.length_cons]; omega) with h | ⟨m₀, s, h₁,
          h₂, h₃, h₄⟩
        · exact .inl h
        · refine .inr ⟨m₀, s, h₁, h₂, ?_, h₄⟩
          simp only [List.length_append, List.length_cons] at h₃ ⊢
          omega

/-! ## Objects -/

variable (starts key) (pre : Ws) (ms : List (Member Json)) (w : Ws) (r : Bytes)

/-- The text of an object, between whitespace and anything. -/
abbrev objText : Bytes := pre.bytes ++ ((Json.obj ms w).text ++ r)

theorem jsonFind_nil : jsonFind starts (objText pre [] w r) key = .ok (.absent false) := by
  simp only [objText, Json.text, membersText, List.nil_append, List.append_assoc, List.cons_append]
  simp only [jsonFind, jpParseValue, jpPeek_ws pre (show isWs lbrace = false by rfl), ne_eq,
    not_true_eq_false, if_false, bump_cons, Run.ok_bind, jpPeek_skipWs,
    jpPeek_ws w (show isWs rbrace = false by rfl), if_true, Run.pure_eq]

theorem fuel_members : 3 * (membersText ms ++ (w.bytes ++ rbrace :: r)).length + 2 ≤
    fuelFor (objText pre ms w r) := by
  simp only [fuelFor, objText, Json.text, List.length_append, List.length_cons, List.length_nil]
  omega

/-- Behind the opening bracket of an object with members, the loop is entered. -/
theorem jsonFind_cons (m : Member Json) (ms : List (Member Json)) :
    jsonFind starts (objText pre (m :: ms) w r) key =
      jsonFindLoop starts key (fuelFor (objText pre (m :: ms) w r))
        ⟨membersText (m :: ms) ++ (w.bytes ++ rbrace :: r), true⟩ := by
  have hskip : ∀ n j, jsonFindLoop starts key n (jpSkipWs j) = jsonFindLoop starts key n j :=
    fun n j => by cases n <;> simp only [jsonFindLoop, jpSkipWs_idem]
  have hpeek : (jpPeek ⟨membersText (m :: ms) ++ (w.bytes ++ rbrace :: r), true⟩).1 =
      some quote := by
    obtain ⟨prek, k, mid, it⟩ := m
    cases ms <;> simp [membersText, memberText, jpPeek_ws prek not_isWs_quote]
  have hcursor : (jpPeek ⟨membersText (m :: ms) ++ (w.bytes ++ rbrace :: r), true⟩).2 =
      jpSkipWs ⟨membersText (m :: ms) ++ (w.bytes ++ rbrace :: r), true⟩ := rfl
  rw [jsonFind]
  generalize fuelFor (objText pre (m :: ms) w r) = n
  simp only [objText, Json.text, List.append_assoc, List.cons_append, List.nil_append]
  simp only [jpParseValue, jpPeek_ws pre (show isWs lbrace = false by rfl), ne_eq,
    not_true_eq_false, if_false, bump_cons, Run.ok_bind, jpPeek_skipWs, hpeek, hcursor, hskip]
  rw [if_neg (by decide)]

/-- An object with members, none of which is looked for. -/
theorem jsonFind_none (hne : ms ≠ []) (hms : ms.find? (isHit starts key) = none) :
    jsonFind starts (objText pre ms w r) key = .ok (.absent true) := by
  obtain ⟨m, ms, rfl⟩ := List.exists_cons_of_ne_nil hne
  rw [jsonFind_cons]
  rcases jsonFindLoop_members hne w r (fuel_members pre (m :: ms) w r) with ⟨_, h⟩ | ⟨_, _, h, _⟩
  · exact h
  · exact absurd (hms.symm.trans h) (by simp)

/-- The first member of an object that is looked for. -/
theorem jsonFind_some {m : Member Json} (hms : ms.find? (isHit starts key) = some m) :
    ∃ s, m.val.Stops s ∧ (m.val.text ++ s).length ≤ (objText pre ms w r).length ∧
      jsonFind starts (objText pre ms w r) key = .ok (.at ⟨m.val.text ++ s, true⟩) := by
  have hne : ms ≠ [] := by rintro rfl; simp at hms
  obtain ⟨m', ms, rfl⟩ := List.exists_cons_of_ne_nil hne
  rw [jsonFind_cons]
  rcases jsonFindLoop_members hne w r (fuel_members pre (m' :: ms) w r) with
    ⟨h, _⟩ | ⟨m₀, s, h₁, h₂, h₃, h₄⟩
  · exact absurd (hms.symm.trans h) (by simp)
  · obtain rfl : m₀ = m := Option.some.inj (h₁.symm.trans hms)
    refine ⟨s, h₂, h₃.trans ?_, h₄⟩
    simp only [objText, Json.text, List.length_append, List.length_cons, List.length_nil]
    omega

end MongrelDB
