import MongrelDB.Page.Response

/-!
# Cut-off responses

The decoding returns `MDB_OK` exactly on the responses it takes for complete
(`Accepted`). These are not only the well-formed ones: the walk ends with the array
of rows, so that nothing behind it is looked at, and what does not begin with a
bracket is taken for a response without rows. Of the parts of a well-formed
response that end before its closing bracket, it takes for complete those that
are blank, and those that contain the whole array of rows
(`decodePage_ok_iff_complete`).
-/

namespace MongrelDB

open Ascii Prog

variable {lib : Libc} {recv : Bytes} {c : Scratch} {h : Heap}

/-- The code `mongreldb_query_page` returns for a response. -/
def Returns (lib : Libc) (recv : Bytes) (c : Scratch) (h : Heap) (e : Code) : Prop :=
  ∃ out c' h', decodePage lib recv c h = .ok (e, out, c', h')

theorem Returns.unique {e e' : Code} (he : Returns lib recv c h e) (he' : Returns lib recv c h e') :
    e = e' := by
  obtain ⟨_, _, _, h₁⟩ := he
  obtain ⟨_, _, _, h₂⟩ := he'
  rw [h₁] at h₂
  exact (Prod.mk.inj (Except.ok.inj h₂)).1

/-- `MDB_OK` is returned only for what is taken for complete. -/
theorem Returns.accepted (he : Returns lib recv c h .ok) : Accepted recv := by
  obtain ⟨e, s, hs, ⟨_, hacc, _⟩ | ⟨hfail, _⟩⟩ := decodePage_ends lib recv c h
  · exact hacc
  · obtain rfl := he.unique ⟨_, _, _, hs⟩
    rcases hfail with hfail | ⟨hfail, _⟩ <;> exact absurd hfail (by decide)

/-- For what is taken for complete, `MDB_OK` is returned, if allocations succeed. -/
theorem Accepted.returns_ok (hacc : Accepted recv) (hsize : recv.length < SIZE_MAX)
    (hs : h.Succeeds) : Returns lib recv c h .ok := by
  obtain ⟨⟨found, trunc⟩, htrunc, -⟩ := jsonGetBool_ends recv (.lit "truncated")
  cases hacc with
  | other hrecv =>
    obtain ⟨s, hs, -⟩ := decodePage_other lib c h htrunc hrecv
    exact ⟨_, _, _, hs⟩
  | members pre ms w r hms hrecv =>
    obtain ⟨s, hs, -⟩ := decodePage_members lib c h htrunc hms hrecv
    exact ⟨_, _, _, hs⟩
  | rows l rs w r hrecv =>
    obtain ⟨e, s, hs', ⟨rfl, -⟩ | ⟨-, hrefused⟩⟩ :=
      decodePage_rows lib c h htrunc hrecv hsize
    · exact ⟨_, _, _, hs'⟩
    · exact absurd hs hrefused.not_succeeds

/-- For everything else another code is returned: `MDB_ERR_JSON`, if allocations succeed. -/
theorem returns_of_not_accepted (hacc : ¬Accepted recv) :
    ∃ e, Returns lib recv c h e ∧ e ≠ .ok ∧ (h.Succeeds → e = .json) := by
  obtain ⟨e, s, hs, ⟨_, hacc', _⟩ | ⟨hfail, _⟩⟩ := decodePage_ends lib recv c h
  · exact absurd hacc' hacc
  · refine ⟨e, ⟨_, _, _, hs⟩, ?_, fun hsucc => ?_⟩
    · rcases hfail with rfl | ⟨rfl, _⟩ <;> decide
    · exact hfail.resolve_right fun hnomem => hnomem.2 hsucc

/-- A response is rejected: another code than `MDB_OK` is returned in every state,
    and `MDB_ERR_JSON` if allocations succeed. -/
def Rejected (lib : Libc) (recv : Bytes) : Prop :=
  ∀ c h, ∃ e, Returns lib recv c h e ∧ e ≠ .ok ∧ (h.Succeeds → e = .json)

theorem rejected_iff (hsize : recv.length < SIZE_MAX) : Rejected lib recv ↔ ¬Accepted recv := by
  refine ⟨fun hrej hacc => ?_, fun hacc c h => returns_of_not_accepted hacc⟩
  obtain ⟨e, he, hne, -⟩ := hrej Scratch.freed Heap.unlimited
  exact hne (he.unique (hacc.returns_ok hsize Heap.unlimited_succeeds))

/-! ## Parts of a response -/

/-- A part of a well-formed response that ends before its closing bracket. -/
structure IsCutOff (recv : Bytes) : Prop where
  ne : recv ≠ []
  whole : ∃ (pre : Ws) (ms : List (Member Json)) (w : Ws), (Json.obj ms w).Valid ∧
    recv <+: pre.bytes ++ lbrace :: (membersText ms ++ w.bytes)

/-- Two objects at the same place have the same end. -/
theorem objText_rest_unique {pre pre' : Ws} {ms ms' : List (Member Json)} {w w' : Ws} {r r' : Bytes}
    (h : objText pre ms w r = objText pre' ms' w' r') : r = r' := by
  -- The walk over a value ends behind it, whatever its layout is.
  have hwalk := fun n => jpValue_text (.obj ms w) pre r n trivial
  have hwalk' := fun n => jpValue_text (.obj ms' w') pre' r' n trivial
  rw [objText, objText] at h
  rw [h] at hwalk
  have heq := (hwalk (3 * ((Json.obj ms w).text ++ r).length + 1 +
    (3 * ((Json.obj ms' w').text ++ r').length + 1)) (by omega)).symm.trans (hwalk' _ (by omega))
  exact congrArg JsonParser.p (Except.ok.inj heq)

/-- The whole array of rows stands in the response. -/
def HasWholeRows (recv : Bytes) : Prop :=
  ∃ (l : Lead) (rs : List (RowText × Ws)) (w : Ws) (r : Bytes), recv =
    l.text ++ (rowsText rs w ++ r)

variable (hcut : IsCutOff recv)
include hcut

/-- A part of an object is not one of its own. -/
theorem IsCutOff.not_object (pre : Ws) (ms : List (Member Json)) (w : Ws) (r : Bytes) :
    recv ≠ objText pre ms w r := by
  rintro rfl
  obtain ⟨pre', ms', w', -, x, hx⟩ := hcut.whole
  have htext : objText pre ms w (r ++ (x ++ [rbrace])) = objText pre' ms' w' [] := by
    have := congrArg (· ++ [rbrace]) hx
    simp only [objText, Json.text] at this ⊢
    simpa using this
  have := objText_rest_unique htext
  simp at this

/-- What does not contain the opening bracket is blank. -/
theorem IsCutOff.blank_of_not_opens (hopen : ¬OpensObject recv) : recv.all isWs = true := by
  obtain ⟨pre', ms', w', -, hprefix⟩ := hcut.whole
  obtain ⟨x, hx⟩ := hprefix
  rcases List.append_eq_append_iff.1 hx with ⟨y, hpre, -⟩ | ⟨t, hrecv, ht⟩
  · have hwf := pre'.wf
    rw [hpre, List.all_append, Bool.and_eq_true] at hwf
    exact hwf.1
  · rw [hrecv]
    cases t with
    | nil => simpa using pre'.wf
    | cons d t =>
      obtain rfl : lbrace = d := (List.cons.inj ht).1
      exact absurd (opensObject_iff.2 ⟨pre', t, hrecv⟩) hopen

/-- The parts that are taken for complete. -/
theorem IsCutOff.accepted_iff :
    Accepted recv ↔ recv.all isWs = true ∨ HasWholeRows recv := by
  constructor
  · rintro (hopen | ⟨pre, ms, w, r, -, hobj⟩ | ⟨l, rs, w, r, hrows⟩)
    · exact .inl (hcut.blank_of_not_opens hopen)
    · exact absurd hobj (hcut.not_object pre ms w r)
    · exact .inr ⟨l, rs, w, r, hrows⟩
  · rintro (hblank | ⟨l, rs, w, r, hrows⟩)
    · refine .other fun hopen => ?_
      have hnil : recv.dropWhile isWs = [] :=
        List.dropWhile_eq_nil_iff.2 (List.all_eq_true.1 hblank)
      rw [OpensObject, hnil] at hopen
      exact absurd hopen (by simp)
    · exact .rows l rs w r hrows

/-- A part of an object is no text of JSON. -/
theorem IsCutOff.not_isJsonText : ¬IsJsonText recv := by
  rintro ⟨⟨pre, v, post⟩, -, hrecv⟩
  obtain ⟨pre', ms', w', -, x, hx⟩ := hcut.whole
  -- The value begins with the bracket of the object.
  obtain ⟨c, t, ht, -, hpeek⟩ := jpPeek_value pre v (post.bytes ++ x) true
  have hpeek' := jpPeek_ws pre' (show isWs lbrace = false by rfl) (membersText ms' ++ w'.bytes) true
  have htext : pre.bytes ++ (v.text ++ (post.bytes ++ x)) =
      pre'.bytes ++ lbrace :: (membersText ms' ++ w'.bytes) := by
    rw [← hx, hrecv]
    simp [itemText]
  rw [htext, hpeek', Prod.mk.injEq, Option.some.injEq] at hpeek
  have hobj : v.isObj = true := by
    rw [← v.isObj_iff_head, ht, ← hpeek.1]
    rfl
  cases v with
  | obj ms w => exact hcut.not_object pre ms w post.bytes hrecv
  | lit t => exact absurd hobj Bool.false_ne_true
  | num t => exact absurd hobj Bool.false_ne_true
  | str t => exact absurd hobj Bool.false_ne_true
  | arr es w => exact absurd hobj Bool.false_ne_true

omit hcut

/-- `MDB_OK` is returned only for well-formed JSON exactly if the response is well
    formed, or is not taken for complete. A part of a well-formed response is
    rejected exactly if it is not blank, and does not contain the whole array of rows. -/
theorem decodePage_ok_iff_complete (lib : Libc) {recv : Bytes}
    (hsize : recv.length ≤ MONGRELDB_MAX_RESPONSE_BYTES) :
    ((∀ c h, Returns lib recv c h .ok → IsJsonText recv) ↔ IsJsonText recv ∨ ¬Accepted recv) ∧
      (IsCutOff recv → (Rejected lib recv ↔ ¬(recv.all isWs = true ∨ HasWholeRows recv))) := by
  have hlt : recv.length < SIZE_MAX := lt_of_le_of_lt hsize (by decide)
  refine ⟨⟨fun hok => ?_, ?_⟩, fun hcut => ?_⟩
  · rw [or_iff_not_imp_right, not_not]
    exact fun hacc => hok Scratch.freed _ (hacc.returns_ok hlt Heap.unlimited_succeeds)
  · rintro (hjson | hacc) c h hok
    · exact hjson
    · exact absurd hok.accepted hacc
  · rw [rejected_iff hlt, hcut.accepted_iff]

/-- A response without rows that is cut off behind its array. -/
def cutOffRows : Bytes := ascii "\x7b\"rows\":[]"

theorem cutOffRows_isCutOff : IsCutOff cutOffRows where
  ne := by decide
  whole := by
    refine ⟨Ws.none, [plainMember (ascii "rows") (by decide) (.arr [] Ws.none)], Ws.none,
      .obj (by simp +decide) ?_, [], by decide⟩
    simp only [plainMember, List.mem_singleton, forall_eq]
    exact .arr (by simp)

theorem cutOffRows_hasWholeRows : HasWholeRows cutOffRows :=
  ⟨⟨Ws.none, [], Ws.none, Ws.none, Ws.none, by simp⟩, [], Ws.none, [], by decide⟩

/-- What is rejected, for this response. -/
theorem decodePage_cutOffRows :
    ((∀ c h, Returns Libc.zero cutOffRows c h .ok → IsJsonText cutOffRows) ↔
        IsJsonText cutOffRows ∨ ¬Accepted cutOffRows) ∧
      (IsCutOff cutOffRows → (Rejected Libc.zero cutOffRows ↔
        ¬(cutOffRows.all isWs = true ∨ HasWholeRows cutOffRows))) :=
  decodePage_ok_iff_complete Libc.zero (by decide)

/-- It is cut off, and yet decoded with `MDB_OK` instead of `MDB_ERR_JSON`, if
    allocations succeed. -/
theorem cutOffRows_returns_ok :
    IsCutOff cutOffRows ∧ ¬IsJsonText cutOffRows ∧
      ∀ c h, h.Succeeds → Returns Libc.zero cutOffRows c h .ok ∧
        ¬Returns Libc.zero cutOffRows c h .json := by
  have hacc := cutOffRows_isCutOff.accepted_iff.2 (.inr cutOffRows_hasWholeRows)
  refine ⟨cutOffRows_isCutOff, cutOffRows_isCutOff.not_isJsonText, fun c h hs => ?_⟩
  have hok : Returns Libc.zero cutOffRows c h .ok := hacc.returns_ok (by decide) hs
  exact ⟨hok, fun hjson => absurd (hok.unique hjson) (by decide)⟩

end MongrelDB
