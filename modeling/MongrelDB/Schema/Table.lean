import MongrelDB.Client.Delivery
import MongrelDB.Schema
import MongrelDB.Serialize.Optional

/-!
# The body that creates a table

Without indexes, the body of `/kit/create_table` is a single object that says the name,
the columns in order, and the constraints, if there are any (`tableSaid`). A column is an object with the members that are given
(`Column.said`): the variants, if there are some, one default at most, and the source
of the embedding (`jsonSerializeCreateTable_says`).
-/

namespace MongrelDB

open Ascii

/-! ## What the body is to say -/

/-- Texts, as the strings of an array. -/
def Said.strs : List CStr → Said :=
  Said.list jsonEscape fun s e => e.val.datum? = some (.str s.bytes)

namespace Column

variable (col : Column)

/-- The variants, if there are any. -/
def variants? : Option Said :=
  match col.enumVariants with
  | none | some [] => none
  | some (v :: vs) => some (.strs ((v :: vs).map orEmpty))

/-- The default value, which an expression is preferred to: raw text, or else a string. -/
def defaultValue? : Option Said :=
  match col.defaultExpr, col.defaultValueJson, col.defaultValue with
  | some _, _, _ => none
  | none, some json, _ => some (.raw json)
  | none, none, some value => some (.str value)
  | none, none, none => none

/-- What the object of a column says behind its id. -/
def saidBehind : List (CStr × Option Said) :=
  [(.lit "name", some (.str (orEmpty col.name))), (.lit "ty", some (.str (orEmpty col.ty))),
    (.lit "primary_key", some (.bool (col.primaryKey != 0))),
    (.lit "nullable", some (.bool (col.nullable != 0))), (.lit "enum_variants", col.variants?),
    (.lit "default_expr", col.defaultExpr.map .str), (.lit "default_value", col.defaultValue?),
    (.lit "embedding_source", col.embeddingSourceJson.map .raw)]

/-- What the object of a column says. -/
def said : List (CStr × Option Said) := (.lit "id", some (.int col.id)) :: col.saidBehind

/-- The raw texts of a column are those of JSON. -/
structure WellFormed : Prop where
  defaultValueJson : ∀ t ∈ col.defaultValueJson, IsJsonText t.bytes
  embeddingSourceJson : ∀ t ∈ col.embeddingSourceJson, IsJsonText t.bytes

end Column

/-- The object of a column. -/
def ColumnObject (col : Column) (e : Item Json) : Prop :=
  ∃ ms w, e.val = .obj ms w ∧ Says col.said ms

/-- What the body says behind the name. -/
def tableSaidBehind (columns : List Column) (constraintsJson : Option CStr) :
    List (CStr × Option Said) :=
  [(.lit "columns", some (.list jsonSerializeColumn ColumnObject columns)),
    (.lit "constraints", if isGiven constraintsJson then some
    (.raw (orEmpty constraintsJson)) else none)]

/-- What the body says. -/
def tableSaid (name : CStr) (columns : List Column) (constraintsJson : Option CStr) :
    List (CStr × Option Said) :=
  (.lit "name", some (.str name)) :: tableSaidBehind columns constraintsJson

/-! ## Columns -/

theorem flatten_separated_map {α β : Type} (f : β → Appends) (g : α → β) (xs : List α) :
    (separated f (xs.map g)).flatten = (separated (fun x => f (g x)) xs).flatten := by
  rw [flatten_separated, flatten_separated, List.map_map]
  rfl

theorem Said.strs_written (ss : List CStr) : (Said.strs ss).Written :=
  Said.list_written fun s _ => Said.str_written s

namespace Column

variable {col : Column}

theorem flatten_enumVariantsAppends (col : Column) :
    (enumVariantsAppends col.enumVariants).flatten = moreSaid
    [(.lit "enum_variants", col.variants?)] := by
  have h : ascii ",\"enum_variants\":[" =
    comma :: (keyText (.lit "enum_variants") ++ [lbrack]) := by
    decide
  rw [variants?]
  cases col.enumVariants with
  | none => rfl
  | some vs =>
    cases vs with
    | nil => rfl
    | cons v vs =>
      simp only [enumVariantsAppends, moreSaid_some, moreSaid_nil, Said.strs, Said.list,
        flatten_separated_map]
      simp [h]

theorem flatten_defaultAppends (col : Column) :
    (defaultAppends col).flatten = moreSaid [(.lit "default_expr", col.defaultExpr.map .str),
      (.lit "default_value", col.defaultValue?)] := by
  have h₁ : ascii ",\"default_expr\":" = comma :: keyText (.lit "default_expr") := by decide
  have h₂ : ascii ",\"default_value\":" = comma :: keyText (.lit "default_value") := by decide
  rw [defaultAppends, defaultValue?]
  cases col.defaultExpr with
  | some expr => simp [h₁, Said.str]
  | none =>
    cases col.defaultValueJson with
    | some json => simp [h₂, Said.raw]
    | none =>
      cases col.defaultValue with
      | some value => simp [h₂, Said.str]
      | none => rfl

/-- The text of a column. -/
theorem flatten_jsonSerializeColumn (col : Column) :
    (jsonSerializeColumn col).flatten = lbrace :: (keyText (.lit "id") ++
      ((Said.int col.id).text ++ (moreSaid col.saidBehind ++ [rbrace]))) := by
  have h₁ : ascii "\"id\":" = keyText (.lit "id") := by decide
  have h₂ : ascii ",\"name\":" = comma :: keyText (.lit "name") := by decide
  have h₃ : ascii ",\"ty\":" = comma :: keyText (.lit "ty") := by decide
  have h₄ : ascii ",\"primary_key\":" = comma :: keyText (.lit "primary_key") := by decide
  have h₅ : ascii ",\"nullable\":" = comma :: keyText (.lit "nullable") := by decide
  have h₆ : ascii ",\"embedding_source\":" = comma :: keyText (.lit "embedding_source") := by
    decide
  have hflag : ∀ b : Int32, boolText b = (Said.bool (b != 0)).text := fun b => by
    simp [boolText, Said.bool]
  have hsplit : moreSaid col.saidBehind =
      moreSaid [(.lit "name", some (.str (orEmpty col.name))),
      (.lit "ty", some (.str (orEmpty col.ty))),
        (.lit "primary_key", some (.bool (col.primaryKey != 0))),
        (.lit "nullable", some (.bool (col.nullable != 0)))] ++
      (moreSaid [(.lit "enum_variants", col.variants?)] ++
        (moreSaid [(.lit "default_expr", col.defaultExpr.map .str),
          (.lit "default_value", col.defaultValue?)] ++
        moreSaid [(.lit "embedding_source", col.embeddingSourceJson.map .raw)])) := by
    simp only [moreSaid, ← List.flatMap_append]
    rfl
  rw [hsplit]
  simp only [jsonSerializeColumn, List.flatten_append, flatten_enumVariantsAppends,
    flatten_defaultAppends, hflag]
  cases col.embeddingSourceJson with
  | none => simp [h₁, h₂, h₃, h₄, h₅, Said.int, Said.str]
  | some json => simp [h₁, h₂, h₃, h₄, h₅, h₆, Said.int, Said.str, Said.raw]

/-- What is said of a column can be written. -/
theorem WellFormed.written (hcol : col.WellFormed) :
    ∀ x ∈ col.saidBehind, ∀ s ∈ x.2, s.Written := by
  have hvariants : ∀ s ∈ col.variants?, s.Written := by
    rw [variants?]
    cases col.enumVariants with
    | none => exact fun s hs => by cases hs
    | some vs =>
      cases vs with
      | nil => exact fun s hs => by cases hs
      | cons v vs =>
        rintro s hs
        obtain rfl := Option.some.inj hs
        exact Said.strs_written _
  have hvalue : ∀ s ∈ col.defaultValue?, s.Written := by
    have hjson := hcol.defaultValueJson
    rw [defaultValue?]
    -- An expression goes before a JSON default, and that before a plain one.
    cases col.defaultExpr with
    | some expr => exact fun s hs => by cases hs
    | none =>
      cases hdefault : col.defaultValueJson with
      | some json =>
        rintro s hs
        obtain rfl := Option.some.inj hs
        exact Said.raw_written (hjson json hdefault)
      | none =>
        cases col.defaultValue with
        | some value =>
          rintro s hs
          obtain rfl := Option.some.inj hs
          exact Said.str_written value
        | none => exact fun s hs => by cases hs
  have hexpr : ∀ s ∈ col.defaultExpr.map Said.str, s.Written := by
    rintro s hs
    obtain ⟨expr, -, rfl⟩ := Option.map_eq_some_iff.1 hs
    exact Said.str_written expr
  have hembedding : ∀ s ∈ col.embeddingSourceJson.map Said.raw, s.Written := by
    rintro s hs
    obtain ⟨json, hjson, rfl⟩ := Option.map_eq_some_iff.1 hs
    exact Said.raw_written (hcol.embeddingSourceJson json hjson)
  have hsome : ∀ {x : Said}, x.Written → ∀ s ∈ some x, s.Written := fun hx s hs => by
    rwa [← Option.some.inj hs]
  simp only [saidBehind, List.forall_mem_cons]
  exact ⟨hsome (Said.str_written _), hsome (Said.str_written _), hsome (Said.bool_written _),
    hsome (Said.bool_written _), hvariants, hexpr, hvalue, hembedding,
    fun _ h => absurd h List.not_mem_nil⟩

/-- A column is written as its object. -/
theorem WellFormed.object (hcol : col.WellFormed) :
    (Said.mk (jsonSerializeColumn col).flatten (ColumnObject col)).Written := by
  have hkeys : (CStr.lit "id" :: col.saidBehind.map Prod.fst).Nodup := by
    simp only [saidBehind, List.map_cons, List.map_nil]
    decide
  obtain ⟨ms, htext, hvalid, hsays⟩ := says_of_written (Said.int_written col.id) hcol.written hkeys
  refine ⟨plainItem (.ofMembers ms), ?_, hvalid, _, _, rfl, hsays⟩
  rw [itemText_plainItem, ← htext]
  exact flatten_jsonSerializeColumn col

end Column

/-! ## Tables -/

/-- The text of the body, without indexes. -/
theorem flatten_jsonSerializeCreateTable (name : CStr) (columns : List Column)
    (constraintsJson : Option CStr) {indexes : Option (List Index)}
    (hindexes : indexes.getD [] = []) :
    (jsonSerializeCreateTableWithIndexes name columns constraintsJson indexes).flatten =
      lbrace :: (keyText (.lit "name") ++ ((Said.str name).text ++
        (moreSaid (tableSaidBehind columns constraintsJson) ++ [rbrace]))) := by
  have h₁ : ascii "\x7b\"name\":" = lbrace :: keyText (.lit "name") := by decide
  have h₂ : ascii ",\"columns\":[" = comma :: (keyText (.lit "columns") ++ [lbrack]) := by
    decide
  have h₃ : ascii ",\"constraints\":" = comma :: keyText (.lit "constraints") := by decide
  have hempty : indexes = none ∨ indexes = some [] := by
    cases indexes with
    | none => exact .inl rfl
    | some is => exact .inr (congrArg some hindexes)
  rw [tableSaidBehind]
  split_ifs with hgiven <;> rcases hempty with rfl | rfl <;>
    simp [jsonSerializeCreateTableWithIndexes, hgiven, h₁, h₂, h₃, Said.str, Said.list, Said.raw]

/-- Without indexes, and if no append fails, the body that creates a table is an object
    that says what is written of the table, and nothing else. -/
theorem jsonSerializeCreateTable_says (name : CStr) {columns : List Column}
    (hcolumns : ∀ col ∈ columns, col.WellFormed) {constraintsJson : Option CStr}
    (hconstraints : isGiven constraintsJson = true → IsJsonText (orEmpty constraintsJson).bytes)
    {indexes : Option (List Index)} (hindexes : indexes.getD [] = []) {h : Heap}
    (hfit : AppendsFit h
      (jsonSerializeCreateTableWithIndexes name columns constraintsJson indexes)) :
    ∃ text ms w, (Sbuf.empty.appendAll h
        (jsonSerializeCreateTableWithIndexes name columns constraintsJson indexes)).1.cstr? =
          some text ∧
      TextOf (.obj ms w) text.bytes ∧ Says (tableSaid name columns constraintsJson) ms := by
  have hlist : (Said.list jsonSerializeColumn ColumnObject columns).Written :=
    Said.list_written fun col hcol => (hcolumns col hcol).object
  have hbehind : ∀ x ∈ tableSaidBehind columns constraintsJson, ∀ s ∈ x.2, s.Written := by
    simp only [tableSaidBehind, List.forall_mem_cons]
    refine ⟨fun s hs => ?_, fun s hs => ?_, fun _ h => absurd h List.not_mem_nil⟩
    · rwa [← Option.some.inj hs]
    · split_ifs at hs with hgiven
      · rw [← Option.some.inj hs]
        exact Said.raw_written (hconstraints hgiven)
      · exact absurd hs (Option.some_ne_none _).symm
  have hkeys : (CStr.lit "name" ::
    (tableSaidBehind columns constraintsJson).map Prod.fst).Nodup := by
    simp only [tableSaidBehind, List.map_cons, List.map_nil]
    decide
  obtain ⟨ms, htext, hvalid, hsays⟩ := says_of_written (Said.str_written name) hbehind hkeys
  have hbody := (flatten_jsonSerializeCreateTable name columns constraintsJson hindexes).trans htext
  have hobject : TextOf (Json.ofMembers ms)
      (jsonSerializeCreateTableWithIndexes name columns constraintsJson indexes).flatten :=
    ⟨hvalid, Ws.none, Ws.none, by rw [hbody]; exact (List.append_nil _).symm⟩
  refine ⟨⟨_, hobject.zero_notMem⟩, _, _,
    Sbuf.cstr?_appendAll hfit (by simp [jsonSerializeCreateTableWithIndexes]) _, hobject, hsays⟩

/-- A column with two variants, and the first of them as its default. -/
def moodColumn : Column where
  id := 1
  name := some (.lit "mood")
  ty := some (.lit "enum")
  primaryKey := 0
  nullable := 1
  enumVariants := some [some (.lit "sad"), some (.lit "ok")]
  defaultValue := some (.lit "ok")
  defaultValueJson := some (.lit "\"sad\"")
  defaultExpr := none
  embeddingSourceJson := none

/-- The body for a table with this column. -/
theorem jsonSerializeCreateTable_mood : ∃ text ms w, (Sbuf.empty.appendAll Heap.unlimited
      (jsonSerializeCreateTableWithIndexes (.lit "t") [moodColumn] none none)).1.cstr? = some text ∧
    TextOf (.obj ms w) text.bytes ∧ Says (tableSaid (.lit "t") [moodColumn] none) ms := by
  refine jsonSerializeCreateTable_says (.lit "t") (fun col hcol => ?_)
    (fun h => absurd h (by decide)) rfl
    ⟨Heap.unlimited_succeeds.granted _, by decide +kernel⟩
  obtain rfl := List.mem_singleton.1 hcol
  refine ⟨fun t ht => ?_, fun t ht => by cases ht⟩
  obtain rfl := Option.some.inj ht
  exact ⟨plainItem (.ofStr (.lit "sad")), Json.ofStr_valid _, by decide⟩

end MongrelDB
