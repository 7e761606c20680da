import MongrelDB.Query.Request
import MongrelDB.Serialize.Optional

/-!
# What a query says

The body of `/kit/query` has these members and no others, no key twice (`querySaid`): the
table, the conditions and the projection in their order, if there are any, and the limit
and the offset, if they are given (`queryAppends_says`). A condition is the JSON it is given
as, or the object of its kind, with the members this kind has (`Condition.said`). That is
not all of a condition: whether the bounds of a range are inclusive is not said, and a
string that is NULL is said as an empty one.
-/

namespace MongrelDB

open Ascii

variable {lib : Libc}

/-! ## Parts of a body -/

namespace Said

/-- The literal `null`. -/
def null : Said := ⟨ascii "null", fun e => e.val.datum? = some .null⟩

/-- A number, as it is printed. -/
def num (t : CStr) : Said := ⟨t.bytes, fun e => ∃ n, e.val = .num n ∧ n.text = t.bytes⟩

/-- A list, unless it is empty. -/
def list? {α : Type} (f : α → Appends) (Is : α → Item Json → Prop) (xs : List α) : Option Said :=
  if xs.isEmpty then none else some (.list f Is xs)

theorem null_written : null.Written :=
  ⟨plainItem .null, (itemText_plainItem .null).symm, Json.null_valid, Json.null_datum⟩

theorem num_written {t : CStr} (ht : isNumber t.bytes = true) : (num t).Written :=
  ⟨plainItem (.ofNum t.bytes ht), (itemText_plainItem (.ofNum t.bytes ht)).symm, .num ht, _, rfl,
    rfl⟩

end Said

theorem moreSaid_append (xs ys : List (CStr × Option Said)) :
    moreSaid (xs ++ ys) = moreSaid xs ++ moreSaid ys := List.flatMap_append

/-- A member that stands there if this holds. -/
theorem moreSaid_ite (key : CStr) (c : Prop) [Decidable c] (s : Said) :
    moreSaid [(key, if c then some s else none)] =
      if c then comma :: (keyText key ++ s.text) else [] := by
  split_ifs <;> simp

/-- An array stands there if it is not empty. -/
theorem flatten_arrayAppends {α : Type} (name : String) (key : CStr)
    (hname : ascii name = comma :: (keyText key ++ [lbrack])) (f : α → Appends)
    (Is : α → Item Json → Prop) (xs : List α) :
    (arrayAppends name f xs).flatten = moreSaid [(key, Said.list? f Is xs)] := by
  rw [arrayAppends, Said.list?]
  split_ifs
  · rfl
  · simp [hname, Said.list]

/-! ## Conditions -/

/-- A condition on a column: its kind, and what it says behind the column. -/
def columnSaid (kind : CStr) (columnId : Int64) (xs : List (CStr × Option Said)) : Said :=
  .obj kind (.obj (.lit "column_id") (.int columnId) xs) []

/-- A bound of a range, if it is set. -/
def boundSaid (lib : Libc) (set : Int32) (x : F64) : Option Said :=
  if set ≠ 0 then some (.num (lib.printG x)) else none

/-- What is written of a condition, which is not `lo_inclusive` and `hi_inclusive`. -/
def Condition.said (lib : Libc) (cond : Condition) : Said :=
  if isGiven cond.conditionJson then .raw (orEmpty cond.conditionJson)
  else match cond.kind with
    | .pk => .obj (.lit "pk") (.obj (.lit "value") (match cond.strValue with
      | some s => .str s
      | none => .int cond.intValue) []) []
    | .bitmapEq => columnSaid (.lit "bitmap_eq") cond.columnId
        [(.lit "value", some (.str (orEmpty cond.strValue)))]
    | .range => columnSaid (.lit "range") cond.columnId
        [(.lit "lo", boundSaid lib cond.loSet cond.lo),
          (.lit "hi", boundSaid lib cond.hiSet cond.hi)]
    | .fmContains => columnSaid (.lit "fm_contains") cond.columnId
        [(.lit "pattern", some (.str (orEmpty cond.strValue)))]
    | .isNull => columnSaid (.lit "is_null") cond.columnId []
    | .isNotNull => columnSaid (.lit "is_not_null") cond.columnId []
    | .other => .obj (.lit "pk") (.obj (.lit "value") .null []) []

section

variable {cond : Condition}

theorem Said.written_nil : ∀ x ∈ ([] : List (CStr × Option Said)), ∀ s ∈ x.2, s.Written :=
  fun _ h => absurd h List.not_mem_nil

/-- A condition on a column can be written. -/
theorem columnSaid_written (kind : CStr) (columnId : Int64) {xs : List (CStr × Option Said)}
    (hxs : ∀ x ∈ xs, ∀ s ∈ x.2, s.Written) (hkeys : (CStr.lit "column_id" :: xs.map Prod.fst).Nodup) :
    (columnSaid kind columnId xs).Written :=
  Said.obj_written (Said.obj_written (Said.int_written columnId) hxs hkeys) Said.written_nil
    (List.nodup_singleton kind)

theorem boundSaid_written (hlib : lib.PrintsDoubles) {set : Int32} {x : F64}
    (hx : set ≠ 0 → x.isFinite = true) : ∀ s ∈ boundSaid lib set x, s.Written := by
  intro s hs
  rw [boundSaid] at hs
  split_ifs at hs with hset
  · rw [← Option.some.inj hs]
    exact Said.num_written (hlib.finite x (hx hset)).1
  · exact absurd hs (Option.some_ne_none _).symm

/-- A condition can be written, if its bounds are finite. -/
theorem Condition.said_written (hlib : lib.PrintsDoubles) (hraw : cond.RawWellFormed)
    (hfinite : cond.BoundsFinite) : (cond.said lib).Written := by
  rw [said]
  split_ifs with hgiven
  · exact Said.raw_written (hraw hgiven)
  have hvalue : ∀ {s : Said}, s.Written →
      (Said.obj (.lit "pk") (.obj (.lit "value") s []) []).Written := fun hs =>
    Said.obj_written (Said.obj_written hs Said.written_nil (List.nodup_singleton _))
      Said.written_nil (List.nodup_singleton _)
  have hstr : ∀ (key s : CStr), ∀ x ∈ [(key, some (Said.str s))], ∀ s ∈ x.2, s.Written := by
    intro key s x hx s' hs'
    obtain rfl := List.mem_singleton.1 hx
    obtain rfl := Option.some.inj hs'
    exact Said.str_written s
  have hkeys : ∀ {key : CStr} {s : Said}, CStr.lit "column_id" ≠ key →
      (CStr.lit "column_id" :: [(key, some s)].map Prod.fst).Nodup := fun hne =>
    List.nodup_cons.2 ⟨fun h => hne (List.mem_singleton.1 h), List.nodup_singleton _⟩
  cases hkind : cond.kind with
  | pk =>
    cases cond.strValue with
    | some s => exact hvalue (Said.str_written s)
    | none => exact hvalue (Said.int_written cond.intValue)
  | bitmapEq => exact columnSaid_written _ _ (hstr _ _) (hkeys (by decide))
  | range =>
    obtain ⟨hlo, hhi⟩ := hfinite (Bool.eq_false_iff.2 hgiven) hkind
    refine columnSaid_written _ _ ?_ (by simp only [List.map_cons, List.map_nil]; decide)
    simp only [List.forall_mem_cons]
    exact ⟨boundSaid_written hlib hlo, boundSaid_written hlib hhi, Said.written_nil⟩
  | fmContains => exact columnSaid_written _ _ (hstr _ _) (hkeys (by decide))
  | isNull => exact columnSaid_written _ _ Said.written_nil (by decide)
  | isNotNull => exact columnSaid_written _ _ Said.written_nil (by decide)
  | other => exact hvalue Said.null_written

/-- The text of a finite bound. -/
theorem flatten_boundAppends_of_finite (hlib : lib.PrintsDoubles) (name : String) (key : CStr)
    (hname : ascii name = comma :: keyText key) (hshort : (ascii name).length ≤ 39) {set : Int32}
    {x : F64} (hx : set ≠ 0 → x.isFinite = true) :
    (boundAppends lib name set x).flatten = moreSaid [(key, boundSaid lib set x)] := by
  rw [boundAppends, boundSaid, moreSaid_ite]
  split_ifs with hset
  · have hlen := (hlib.finite x (hx hset)).2
    rw [snprintf, List.take_of_length_le (by rw [List.length_append]; omega), hname]
    simp [Said.num]
  · rfl

/-- The text of a condition. -/
theorem Condition.flatten_said (hlib : lib.PrintsDoubles) (hfinite : cond.BoundsFinite) :
    (serializeCondition lib cond).flatten = (cond.said lib).text := by
  rw [serializeCondition, said]
  split_ifs with hgiven
  · exact List.flatten_singleton
  have hid : ascii "\"column_id\":" = keyText (.lit "column_id") := by decide
  have hvalue : ascii ",\"value\":" = comma :: keyText (.lit "value") := by decide
  -- The kinds with a column differ in what stands behind it.
  have hcolumn : ∀ (name : String) (kind : CStr), ascii name = keyText kind ++ [lbrace] →
      ∀ (ps : Appends) (xs : List (CStr × Option Said)), ps.flatten = moreSaid xs →
        ([lbrace] :: (columnAppends name cond.columnId ++ ps ++ [[rbrace]] ++ [[rbrace]])).flatten =
          (columnSaid kind cond.columnId xs).text := by
    intro name kind hname ps xs hps
    simp [columnAppends, columnSaid, Said.obj, Said.int, hname, hid, ← hps]
  cases hkind : cond.kind with
  | pk =>
    have hhead : ascii "\"pk\":\x7b" = keyText (.lit "pk") ++ [lbrace] := by decide
    have hkey : ascii "\"value\":" = keyText (.lit "value") := by decide
    cases cond.strValue <;> simp [Said.obj, Said.str, Said.int, hhead, hkey]
  | bitmapEq =>
    rw [← hcolumn "\"bitmap_eq\":\x7b" _ (by decide) ([ascii ",\"value\":"] ++
      jsonEscape (orEmpty cond.strValue)) _ (by simp [hvalue, Said.str])]
    simp
  | range =>
    obtain ⟨hlo, hhi⟩ := hfinite (Bool.eq_false_iff.2 hgiven) hkind
    rw [← hcolumn "\"range\":\x7b" _ (by decide) (boundAppends lib ",\"lo\":" cond.loSet cond.lo ++
      boundAppends lib ",\"hi\":" cond.hiSet cond.hi)]
    · simp
    · rw [List.flatten_append,
        flatten_boundAppends_of_finite hlib ",\"lo\":" (.lit "lo") (by decide) (by decide) hlo,
        flatten_boundAppends_of_finite hlib ",\"hi\":" (.lit "hi") (by decide) (by decide) hhi]
      exact (moreSaid_append [_] [_]).symm
  | fmContains =>
    have hpattern : ascii ",\"pattern\":" = comma :: keyText (.lit "pattern") := by decide
    rw [← hcolumn "\"fm_contains\":\x7b" _ (by decide) ([ascii ",\"pattern\":"] ++
      jsonEscape (orEmpty cond.strValue)) _ (by simp [hpattern, Said.str])]
    simp
  | isNull => exact hcolumn "\"is_null\":\x7b" _ (by decide) [] [] rfl
  | isNotNull => exact hcolumn "\"is_not_null\":\x7b" _ (by decide) [] [] rfl
  | other =>
    change ([[lbrace], ascii "\"pk\":\x7b\"value\":null\x7d", [rbrace]] : Appends).flatten =
      (Said.obj (.lit "pk") (.obj (.lit "value") .null []) []).text
    decide

end

/-! ## Queries -/

/-- A condition in the body of a query. -/
def ConditionIs (lib : Libc) (cond : Condition) (e : Item Json) : Prop := (cond.said lib).Is e

/-- A column of the projection. -/
def ColumnIs (columnId : Int64) (e : Item Json) : Prop := e.val.datum? = some (.int columnId.toInt)

/-- What the body says behind the table. -/
def querySaidBehind (lib : Libc) (conditions : List Condition) (projection : List Int64)
    (limit offset : Int64) : List (CStr × Option Said) :=
  [(.lit "conditions", Said.list? (serializeCondition lib) (ConditionIs lib) conditions),
    (.lit "projection", Said.list? (fun i => [int64Text i]) ColumnIs projection),
    (.lit "limit", if 0 < limit then some (.int limit) else none),
    (.lit "offset", if offset ≠ 0 then some (.int offset) else none)]

/-- What the body of a query says. -/
def querySaid (lib : Libc) (table : CStr) (conditions : List Condition) (projection : List Int64)
    (limit offset : Int64) : List (CStr × Option Said) :=
  (.lit "table", some (.str table)) :: querySaidBehind lib conditions projection limit offset

variable {conditions : List Condition} {projection : List Int64} {limit offset : Int64}

/-- A list that is not empty can be written if its elements can. -/
theorem Said.list?_written {α : Type} {f : α → Appends} {Is : α → Item Json → Prop} {xs : List α}
    (hxs : ∀ x ∈ xs, (Said.mk (f x).flatten (Is x)).Written) : ∀ s ∈ list? f Is xs, s.Written := by
  intro s hs
  rw [list?] at hs
  split_ifs at hs
  · exact absurd hs (Option.some_ne_none _).symm
  · exact Option.some.inj hs ▸ list_written hxs

theorem Said.int_written_ite (c : Prop) [Decidable c] (i : Int64) :
    ∀ s ∈ (if c then some (int i) else none : Option Said), s.Written := by
  intro s hs
  split_ifs at hs
  · exact Option.some.inj hs ▸ int_written i
  · exact absurd hs (Option.some_ne_none _).symm

/-- What is said behind the table can be written. -/
theorem querySaidBehind_written (hlib : lib.PrintsDoubles)
    (hraw : ∀ cond ∈ conditions, cond.RawWellFormed)
    (hfinite : ∀ cond ∈ conditions, cond.BoundsFinite) :
    ∀ x ∈ querySaidBehind lib conditions projection limit offset, ∀ s ∈ x.2, s.Written := by
  simp only [querySaidBehind, List.forall_mem_cons]
  refine ⟨Said.list?_written fun cond hc => ?_, Said.list?_written fun i _ => ?_,
    Said.int_written_ite _ limit, Said.int_written_ite _ offset, Said.written_nil⟩
  · obtain ⟨e, he, hvalid, his⟩ := Condition.said_written hlib (hraw cond hc) (hfinite cond hc)
    exact ⟨e, (Condition.flatten_said hlib (hfinite cond hc)).trans he, hvalid, his⟩
  · obtain ⟨e, he, hvalid, his⟩ := Said.int_written i
    exact ⟨e, List.flatten_singleton.trans he, hvalid, his⟩

/-- The text of the body. -/
theorem flatten_queryAppends (lib : Libc) (table : CStr) (conditions : List Condition)
    (projection : List Int64) (limit offset : Int64) :
    (queryAppends lib table conditions projection limit offset).flatten =
      (Said.obj (.lit "table") (.str table)
        (querySaidBehind lib conditions projection limit offset)).text := by
  have htable : ascii "\x7b\"table\":" = lbrace :: keyText (.lit "table") := by decide
  have hnumber : ∀ (name : String) (key : CStr), ascii name = comma :: keyText key →
      ∀ (c : Prop) [Decidable c] (i : Int64),
        (if c then [ascii name, int64Text i] else [] : Appends).flatten =
          moreSaid [(key, if c then some (Said.int i) else none)] := by
    intro name key hname c _ i
    rw [moreSaid_ite]
    split_ifs <;> simp [hname, Said.int]
  -- Each part makes the text of its member.
  have hsplit : moreSaid (querySaidBehind lib conditions projection limit offset) =
      (arrayAppends ",\"conditions\":[" (serializeCondition lib) conditions).flatten ++
        ((arrayAppends ",\"projection\":[" (fun i => [int64Text i]) projection).flatten ++
          ((if 0 < limit then [ascii ",\"limit\":", int64Text limit] else [] : Appends).flatten ++
            (if offset ≠ 0 then [ascii ",\"offset\":", int64Text offset] else []
              : Appends).flatten)) := by
    rw [flatten_arrayAppends ",\"conditions\":[" (.lit "conditions") (by decide) _ (ConditionIs lib),
      flatten_arrayAppends ",\"projection\":[" (.lit "projection") (by decide) _ ColumnIs,
      hnumber ",\"limit\":" (.lit "limit") (by decide),
      hnumber ",\"offset\":" (.lit "offset") (by decide), ← moreSaid_append, ← moreSaid_append,
      ← moreSaid_append]
    rfl
  rw [Said.obj, hsplit]
  simp [queryAppends, htable, Said.str]

/-- If all the bounds are finite, and the JSON that is given is well-formed, the body of a query
    is an object that says what is written of it, and nothing else. -/
theorem queryAppends_says (hlib : lib.PrintsDoubles) (table : CStr)
    (hraw : ∀ cond ∈ conditions, cond.RawWellFormed)
    (hfinite : ∀ cond ∈ conditions, cond.BoundsFinite) (projection : List Int64)
    (limit offset : Int64) :
    ∃ ms w, TextOf (.obj ms w)
        (queryAppends lib table conditions projection limit offset).flatten ∧
      Says (querySaid lib table conditions projection limit offset) ms :=
  Said.obj_says _ (flatten_queryAppends lib table conditions projection limit offset)
    (Said.str_written table) (querySaidBehind_written hlib hraw hfinite) (by
      simp only [querySaidBehind, List.map_cons, List.map_nil]
      decide)

/-- The body of the query for the range of a single value. -/
theorem rangeQuery_says : ∃ ms w, TextOf (.obj ms w)
      (queryAppends .plain (.lit "t") [rangeTo ⟨0⟩] [1] 5 0).flatten ∧
    Says (querySaid .plain (.lit "t") [rangeTo ⟨0⟩] [1] 5 0) ms := by
  refine queryAppends_says Libc.plain_printsDoubles (.lit "t") (fun cond hc h => ?_)
    (fun cond hc => ?_) [1] 5 0
  · rw [List.mem_singleton.1 hc] at h
    exact absurd h Bool.false_ne_true
  · rw [List.mem_singleton.1 hc]
    exact fun _ _ => ⟨fun _ => rfl, fun _ => rfl⟩

end MongrelDB
