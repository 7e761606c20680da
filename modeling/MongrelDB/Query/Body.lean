import MongrelDB.Client.Delivery
import MongrelDB.Query
import MongrelDB.Serialize.Members

/-!
# The body of a query

The body of a query is an object, if every bound that is set is finite
(`queryAppends_object`). Another bound is printed as it is, and what is sent is not
JSON: the scan of the body stops at it (`scan_serializeCondition`). A query is sent as
JSON exactly if there is no such bound (`mongreldbQueryPage_sends_iff`).
-/

namespace MongrelDB

open Ascii Prog

variable {lib : Libc}

/-! ## Doubles -/

/-- `%.17g`: a finite double is printed as a number of JSON of at most 24 characters,
    and another one as `[-]inf`, `[-]infinity`, `[-]nan` or `[-]nan(...)`. -/
structure Libc.PrintsDoubles (lib : Libc) : Prop where
  finite : ∀ d : F64, d.isFinite = true →
    isNumber (lib.printG d).bytes = true ∧ (lib.printG d).bytes.length ≤ 24
  nonfinite : ∀ d : F64, d.isFinite = false →
    ∃ t ∈ [ascii "inf", ascii "-inf", ascii "nan", ascii "-nan"], t <+: (lib.printG d).bytes

/-- All the bounds of a range that are set are finite. -/
def Condition.BoundsFinite (cond : Condition) : Prop :=
  isGiven cond.conditionJson = false → cond.kind = .range →
    (cond.loSet ≠ 0 → cond.lo.isFinite = true) ∧ (cond.hiSet ≠ 0 → cond.hi.isFinite = true)

/-- The JSON of a condition, if it is given, is well-formed. -/
def Condition.RawWellFormed (cond : Condition) : Prop :=
  isGiven cond.conditionJson = true → IsJsonText (orEmpty cond.conditionJson).bytes

/-! ## Conditions -/

/-- The members of a condition on a column. -/
theorem columnCondition_text (name : String) (key : CStr)
    (hname : ascii name = keyText key ++ [lbrace])
    (columnId : Int64) (ms : List (CStr × Item Json)) :
    lbrace :: ((columnAppends name columnId).flatten ++ (moreMembers ms ++ [rbrace, rbrace])) =
      (Json.ofMembers [objMember key
      ((.lit "column_id", plainItem (.ofInt64 columnId)) :: ms)]).text := by
  have hcolumn : ascii "\"column_id\":" = keyText (.lit "column_id") := by decide
  rw [objMember, Json.text_ofMembers, itemText_plainItem, Json.text_ofMembers, itemText_plainItem,
    moreMembers_nil, Json.ofInt64_text]
  simp [columnAppends, hname, hcolumn]

/-- A finite bound is a member. -/
theorem boundAppends_written (hlib : lib.PrintsDoubles) (name : String) (key : CStr)
    (hname : ascii name = comma :: keyText key) (hshort : (ascii name).length ≤ 39) {set : Int32}
    {x : F64} (hx : set ≠ 0 → x.isFinite = true) :
    ∃ ms, (boundAppends lib name set x).flatten = moreMembers ms ∧ AllValid ms := by
  rw [boundAppends]
  split_ifs with hset
  · obtain ⟨hnumber, hlen⟩ := hlib.finite x (hx hset)
    refine ⟨[(key, plainItem (.ofNum _ hnumber))], ?_, AllValid.nil.item _ (.num hnumber)⟩
    rw [snprintf, List.take_of_length_le (by rw [List.length_append]; omega), hname]
    simp [Json.ofNum, Json.text]
  · exact ⟨[], rfl, .nil⟩

/-- A condition is an object with its kind as the only key. -/
theorem conditionItem (key : CStr) {ms : List (CStr × Item Json)} {t : Bytes} (hms : AllValid ms)
    (ht : t = (Json.ofMembers [objMember key ms]).text) :
    ∃ e : Item Json, t = itemText e ∧ e.val.Valid :=
  ⟨plainItem (Json.ofMembers [objMember key ms]), ht.trans (itemText_plainItem _).symm,
    Json.valid_ofMembers (AllValid.nil.obj key hms)⟩

/-- A condition is JSON, if its bounds are finite. -/
theorem serializeCondition_written (hlib : lib.PrintsDoubles) {cond : Condition}
    (hraw : cond.RawWellFormed) (hfinite : cond.BoundsFinite) :
    ∃ e : Item Json, (serializeCondition lib cond).flatten = itemText e ∧ e.val.Valid := by
  rw [serializeCondition]
  split_ifs with hgiven
  · obtain ⟨e, hvalid, he⟩ := hraw hgiven
    exact ⟨e, by rw [List.flatten_singleton, he], hvalid⟩
  have hid := Json.ofInt64_valid cond.columnId
  -- Five of the kinds name a column; they differ in the members behind it.
  have hcolumn : ∀ (name : String) (key : CStr), ascii name = keyText key ++ [lbrace] →
      ∀ ms, AllValid ms → ∀ ps : Appends, ps.flatten = moreMembers ms → ∃ e : Item Json,
        ([lbrace] :: (columnAppends name cond.columnId ++ ps ++ [[rbrace]] ++ [[rbrace]])).flatten =
          itemText e ∧ e.val.Valid := fun name key hname ms hms ps hps => by
    refine conditionItem key (hms.item (.lit "column_id") hid) (Eq.trans ?_
      (columnCondition_text name key hname cond.columnId ms))
    rw [← hps]
    simp
  have hvalue : ascii ",\"value\":" = comma :: keyText (.lit "value") := by decide
  have hpattern : ascii ",\"pattern\":" = comma :: keyText (.lit "pattern") := by decide
  cases hkind : cond.kind with
  | pk =>
    have hhead : ascii "\"pk\":\x7b" = keyText (.lit "pk") ++ [lbrace] := by decide
    have hkey : ascii "\"value\":" = keyText (.lit "value") := by decide
    cases cond.strValue with
    | some s =>
      refine conditionItem (.lit "pk") (AllValid.nil.str (.lit "value") s) ?_
      rw [objMember, Json.text_ofMembers, itemText_plainItem, strMember, Json.text_ofMembers]
      simp [hhead, hkey, flatten_jsonEscape]
    | none =>
      refine conditionItem (.lit "pk") (AllValid.nil.item (e := plainItem (.ofInt64 cond.intValue))
        (.lit "value") (Json.ofInt64_valid _)) ?_
      rw [objMember, Json.text_ofMembers, itemText_plainItem, Json.text_ofMembers]
      simp [hhead, hkey, Json.ofInt64_text]
  | bitmapEq =>
    have h := hcolumn "\"bitmap_eq\":\x7b" (.lit "bitmap_eq") (by decide)
      [strMember (.lit "value") (orEmpty cond.strValue)] (AllValid.nil.str _ _)
      ([ascii ",\"value\":"] ++ jsonEscape (orEmpty cond.strValue))
      (by simp [hvalue, flatten_jsonEscape])
    simpa using h
  | fmContains =>
    have h := hcolumn "\"fm_contains\":\x7b" (.lit "fm_contains") (by decide)
      [strMember (.lit "pattern") (orEmpty cond.strValue)] (AllValid.nil.str _ _)
      ([ascii ",\"pattern\":"] ++ jsonEscape (orEmpty cond.strValue))
      (by simp [hpattern, flatten_jsonEscape])
    simpa using h
  | range =>
    -- Only a range prints doubles, so only its bounds have to be finite.
    obtain ⟨hlo, hhi⟩ := hfinite (Bool.eq_false_iff.2 hgiven) hkind
    obtain ⟨los, hlos, hvalidlo⟩ := boundAppends_written hlib ",\"lo\":" (.lit "lo") (by decide)
      (by decide) hlo
    obtain ⟨his, hhis, hvalidhi⟩ := boundAppends_written hlib ",\"hi\":" (.lit "hi") (by decide)
      (by decide) hhi
    have h := hcolumn "\"range\":\x7b" (.lit "range") (by decide) (los ++ his)
      (hvalidlo.append hvalidhi) (boundAppends lib ",\"lo\":" cond.loSet cond.lo ++
        boundAppends lib ",\"hi\":" cond.hiSet cond.hi) (by simp [hlos, hhis])
    simpa using h
  | isNull =>
    simpa using hcolumn "\"is_null\":\x7b" (.lit "is_null") (by decide) [] .nil [] rfl
  | isNotNull =>
    simpa using hcolumn "\"is_not_null\":\x7b" (.lit "is_not_null") (by decide) [] .nil [] rfl
  | other =>
    refine conditionItem (.lit "pk") (AllValid.nil.item (e := plainItem .null) (.lit "value")
      Json.null_valid) ?_
    change ([[lbrace], ascii "\"pk\":\x7b\"value\":null\x7d", [rbrace]] : Appends).flatten = _
    decide

/-! ## The body -/

/-- An array of items is a member, if it is not empty. -/
theorem arrayAppends_written {α : Type} (name : String) (key : CStr)
    (hname : ascii name = comma :: (keyText key ++ [lbrack])) {f : α → Appends} {xs : List α}
    (hxs : ∀ x ∈ xs, ∃ e : Item Json, (f x).flatten = itemText e ∧ e.val.Valid) :
    ∃ ms, (arrayAppends name f xs).flatten = moreMembers ms ∧ AllValid ms := by
  rw [arrayAppends]
  split_ifs
  · exact ⟨[], rfl, .nil⟩
  · obtain ⟨es, hes, hvalid, -⟩ := separated_written fun x hx =>
      (hxs x hx).imp fun _ h => ⟨h.1, h.2, trivial⟩
    exact ⟨[arrMember key es], by simp [hname, hes], AllValid.nil.arr key hvalid⟩

/-- An integer is a member, if it is given. -/
theorem numberAppends_written (name : String) (key : CStr)
    (hname : ascii name = comma :: keyText key)
    {c : Prop} [Decidable c] (i : Int64) :
    ∃ ms, (if c then [ascii name, int64Text i] else [] : Appends).flatten = moreMembers ms ∧
      AllValid ms := by
  split_ifs
  · exact ⟨[(key, plainItem (.ofInt64 i))], by simp [hname, Json.ofInt64_text],
      AllValid.nil.item key (Json.ofInt64_valid i)⟩
  · exact ⟨[], rfl, .nil⟩

/-- A text of a JSON object. -/
def IsObjectText (s : Bytes) : Prop := ∃ ms w, TextOf (.obj ms w) s

theorem IsObjectText.isJsonText {s : Bytes} (h : IsObjectText s) : IsJsonText s := by
  obtain ⟨ms, w, hvalid, pre, post, hs⟩ := h
  exact ⟨⟨pre, .obj ms w, post⟩, hvalid, hs⟩

variable {conditions : List Condition} {projection : List Int64} {limit offset : Int64}
    {table : CStr}

/-- The body of a query is an object, if all bounds are finite. -/
theorem queryAppends_object (hlib : lib.PrintsDoubles)
    (hraw : ∀ cond ∈ conditions, cond.RawWellFormed)
    (hfinite : ∀ cond ∈ conditions, cond.BoundsFinite) :
    IsObjectText (queryAppends lib table conditions projection limit offset).flatten := by
  have htable : ascii "\x7b\"table\":" = lbrace :: keyText (.lit "table") := by decide
  obtain ⟨cs, hcs, hvalidcs⟩ := arrayAppends_written ",\"conditions\":[" (.lit "conditions")
    (by decide) fun cond hc => serializeCondition_written hlib (hraw cond hc) (hfinite cond hc)
  obtain ⟨ps, hps, hvalidps⟩ := arrayAppends_written ",\"projection\":[" (.lit "projection")
    (by decide) (f := fun i : Int64 => [int64Text i]) fun i (_ : i ∈ projection) =>
      ⟨plainItem (.ofInt64 i), by rw [itemText_plainItem, Json.ofInt64_text,
        List.flatten_singleton],
        Json.ofInt64_valid i⟩
  obtain ⟨ls, hls, hvalidls⟩ := numberAppends_written ",\"limit\":" (.lit "limit") (by decide)
    (c := 0 < limit) limit
  obtain ⟨os, hos, hvalidos⟩ := numberAppends_written ",\"offset\":" (.lit "offset") (by decide)
    (c := offset ≠ 0) offset
  have hvalid := (((AllValid.nil.append hvalidcs).append hvalidps).append hvalidls).append hvalidos
  refine ⟨_, Ws.none, Json.valid_ofMembers (hvalid.str (.lit "table") table), Ws.none, Ws.none, ?_⟩
  change _ = [] ++ ((Json.ofMembers (strMember (.lit "table") table :: _)).text ++ [])
  rw [strMember, Json.text_ofMembers, itemText_plainItem]
  simp only [queryAppends, List.flatten_append, hcs, hps, hls, hos]
  simp [htable, flatten_jsonEscape]

/-! ## Other bounds -/

/-- The scan stops at what is printed for an infinity or a NaN. -/
theorem scan_nonfinite {t : Bytes} (ht : t ∈ [ascii "inf", ascii "-inf", ascii "nan", ascii "-nan"])
    (st : List Bool) : scan ⟨.value, true :: st⟩ t = none := by
  simp only [List.mem_cons, List.not_mem_nil, or_false] at ht
  rcases ht with rfl | rfl | rfl | rfl <;> rfl

/-- The scan stops at a bound that is not finite. -/
theorem scan_boundAppends (hlib : lib.PrintsDoubles) {name : String} {st : List Bool}
    (hname : scan ⟨.num, true :: st⟩ (ascii name) = some ⟨.value, true :: st⟩)
    (hshort : (ascii name).length ≤ 39) {set : Int32} {x : F64} (hset : set ≠ 0)
    (hx : x.isFinite = false) (u : Bytes) :
    scan ⟨.num, true :: st⟩ ((boundAppends lib name set x).flatten ++ u) = none := by
  obtain ⟨t, ht, r, hr⟩ := hlib.nonfinite x hx
  have hlen : t.length ≤ 4 := by
    simp only [List.mem_cons, List.not_mem_nil, or_false] at ht
    rcases ht with rfl | rfl | rfl | rfl <;> decide
  have htake : snprintf 64 (ascii name ++ (t ++ r)) =
      ascii name ++ (t ++ r.take (63 - (ascii name).length - t.length)) := by
    rw [snprintf, List.take_append, List.take_of_length_le (by omega), List.take_append,
      List.take_of_length_le (by omega)]
  rw [boundAppends, if_pos hset, List.flatten_singleton, ← hr, htake, List.append_assoc,
    scan_append_of hname, List.append_assoc, scan_append, scan_nonfinite ht, Option.bind_none]

/-- A bound that is finite, or not set, is scanned. -/
theorem scan_boundAppends_finite (hlib : lib.PrintsDoubles) {name : String} {st : List Bool}
    (hname : scan ⟨.num, true :: st⟩ (ascii name) = some ⟨.value, true :: st⟩)
    (hshort : (ascii name).length ≤ 39) {set : Int32} {x : F64} (hx : set ≠ 0 → x.isFinite = true) :
    scan ⟨.num, true :: st⟩ (boundAppends lib name set x).flatten = some ⟨.num, true :: st⟩ := by
  rw [boundAppends]
  split_ifs with hset
  · obtain ⟨hnumber, hlen⟩ := hlib.finite x (hx hset)
    rw [List.flatten_singleton, snprintf,
      List.take_of_length_le (by rw [List.length_append]; omega), scan_append_of hname]
    exact scan_number _ (isNumTok_of_isNumber hnumber)
  · rfl

/-- The scan stops in a condition with a bound that is not finite. -/
theorem scan_serializeCondition (hlib : lib.PrintsDoubles) {cond : Condition}
    (hbad : ¬cond.BoundsFinite) {m : ScanMode} (hm : m = .firstItem ∨ m = .value) (st : List Bool)
    (u : Bytes) : scan ⟨m, st⟩ ((serializeCondition lib cond).flatten ++ u) = none := by
  simp only [Condition.BoundsFinite, not_forall] at hbad
  obtain ⟨hgiven, hkind, hbounds⟩ := hbad
  have hhead : ∀ r, scan ⟨m, st⟩
    (lbrace :: (ascii "\"range\":\x7b" ++ (ascii "\"column_id\":" ++ r))) =
      scan ⟨.value, true :: true :: st⟩ r := fun r => by
    rcases hm with rfl | rfl <;> rfl
  have hid : scan ⟨.value, true :: true :: st⟩ (int64Text cond.columnId) =
      some ⟨.num, true :: true :: st⟩ := by
    rw [int64Text_eq]
    exact scan_number _ (isNumTok_of_isNumber (isNumber_of_intVal? (intVal?_intText _)))
  rw [serializeCondition, if_neg (by rw [hgiven]; decide), hkind]
  simp only [columnAppends, List.flatten_cons, List.flatten_append, List.flatten_nil,
    List.append_assoc, List.cons_append, List.nil_append]
  rw [hhead, scan_append_of hid]
  -- The scan stops at the first bound that is not finite.
  by_cases hlo : cond.loSet ≠ 0 → cond.lo.isFinite = true
  · rw [scan_append_of (scan_boundAppends_finite hlib rfl (by decide) hlo)]
    have hhi : ¬(cond.hiSet ≠ 0 → cond.hi.isFinite = true) := fun h => hbounds ⟨hlo, h⟩
    rw [Classical.not_imp] at hhi
    exact scan_boundAppends hlib rfl (by decide) hhi.1 (Bool.eq_false_iff.2 hhi.2) _
  · rw [Classical.not_imp] at hlo
    exact scan_boundAppends hlib rfl (by decide) hlo.1 (Bool.eq_false_iff.2 hlo.2) _

/-- The scan stops in conditions of which one has a bound that is not finite. -/
theorem scan_conditions (hlib : lib.PrintsDoubles) (hraw : ∀ cond ∈ conditions, cond.RawWellFormed)
    (hbad : ∃ cond ∈ conditions, ¬cond.BoundsFinite) {m : ScanMode}
    (hm : m = .firstItem ∨ m = .value)
    (st : List Bool) (u : Bytes) :
    scan ⟨m, false :: st⟩ ((separated (serializeCondition lib) conditions).flatten ++ u) =
      none := by
  rw [flatten_separated]
  induction conditions generalizing m with
  | nil => exact absurd hbad (by simp)
  | cons cond conditions ih =>
    rw [List.map_cons, commaSep_cons, List.append_assoc]
    by_cases hfinite : cond.BoundsFinite
    · -- The first one is scanned, and one behind it is not.
      obtain ⟨e, he, hvalid⟩ :=
        serializeCondition_written hlib (hraw cond List.mem_cons_self) hfinite
      obtain ⟨m', hm', hscan⟩ := scan_itemText (scansValue_of_valid hvalid) (false :: st)
      have hrest : ∃ c ∈ conditions, ¬c.BoundsFinite := by
        obtain ⟨c, hc, hcbad⟩ := hbad
        rcases List.mem_cons.1 hc with rfl | hc
        · exact absurd hfinite hcbad
        · exact ⟨c, hc, hcbad⟩
      obtain ⟨c, cs, rfl⟩ : ∃ c cs, conditions = c :: cs := by
        obtain ⟨c, hc, -⟩ := hrest
        exact List.exists_cons_of_ne_nil (List.ne_nil_of_mem hc)
      have hfirst : scan ⟨m, false :: st⟩ (itemText e) = some ⟨m', false :: st⟩ := by
        rcases hm with rfl | rfl
        · exact scan_firstItem hm' hscan
        · exact hscan
      rw [he, scan_append_of hfirst, List.map_cons, List.flatMap_cons, List.cons_append,
        List.cons_append, List.append_assoc, scan_comma hm' false]
      have h := ih (fun c hc => hraw c (List.mem_cons_of_mem _ hc)) hrest (.inr rfl)
      rwa [List.map_cons, commaSep_cons, List.append_assoc] at h
    · exact scan_serializeCondition hlib hfinite hm _ _

/-- The body of a query with such a condition is not JSON. -/
theorem not_isJsonText_queryAppends (hlib : lib.PrintsDoubles)
    (hraw : ∀ cond ∈ conditions, cond.RawWellFormed)
    (hbad : ∃ cond ∈ conditions, ¬cond.BoundsFinite) :
    ¬IsJsonText (queryAppends lib table conditions projection limit offset).flatten := fun h => by
  have hne : conditions.isEmpty = false := by
    obtain ⟨cond, hc, -⟩ := hbad
    rw [← Bool.not_eq_true, List.isEmpty_iff]
    exact List.ne_nil_of_mem hc
  have hscan := h.scans
  simp only [queryAppends, arrayAppends, hne, Bool.false_eq_true, if_false, List.flatten_append,
    List.flatten_singleton, List.append_assoc] at hscan
  have hhead : scan ⟨.value, []⟩ (ascii "\x7b\"table\":") = some ⟨.value, [true]⟩ := rfl
  have hkey : scan ⟨.done, [true]⟩ (ascii ",\"conditions\":[") =
    some ⟨.firstItem, [false, true]⟩ := rfl
  rw [scans_append_of hhead, flatten_jsonEscape, scans_append_of (scan_ofStr _ _),
    scans_append_of hkey, scans, scan_conditions hlib hraw hbad (.inl rfl)] at hscan
  exact absurd hscan Bool.false_ne_true

end MongrelDB
