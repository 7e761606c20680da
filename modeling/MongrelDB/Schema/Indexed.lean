import MongrelDB.Schema.Table
import MongrelDB.Schema.Written

/-!
# Tables with indexes

The body of `/kit/create_table` for any indexes whose numbers fit into the buffer they are
formatted in (`Index.Fits`): a single object that says the name, the columns, the
constraints and the indexes, in order (`jsonSerializeCreateTableWithIndexes_says`). An index
is the object of the members that are written of it (`Index.members`), which
`pq_num_subvectors` and `pq_bits` are not among.
-/

namespace MongrelDB

open Ascii

/-- The object of an index. -/
def IndexObject (index : Index) (e : Item Json) : Prop := e.val = .ofMembers index.members

/-- The indexes, if there are any. -/
def indexesSaid : Option (List Index) → Option Said
  | none | some [] => none
  | some (index :: indexes) => some (.list jsonSerializeIndex IndexObject (index :: indexes))

/-- What the body says behind the name. -/
def schemaSaidBehind (columns : List Column) (constraintsJson : Option CStr)
    (indexes : Option (List Index)) : List (CStr × Option Said) :=
  tableSaidBehind columns constraintsJson ++ [(.lit "indexes", indexesSaid indexes)]

/-- What the body says. -/
def schemaSaid (name : CStr) (columns : List Column) (constraintsJson : Option CStr)
    (indexes : Option (List Index)) : List (CStr × Option Said) :=
  (.lit "name", some (.str name)) :: schemaSaidBehind columns constraintsJson indexes

variable {columns : List Column} {constraintsJson : Option CStr} {indexes : Option (List Index)}

/-- An index is written as its object. -/
theorem Index.Fits.object {index : Index} (hfits : index.Fits) :
    (Said.mk (jsonSerializeIndex index).flatten (IndexObject index)).Written :=
  ⟨plainItem (.ofMembers index.members),
    (flatten_jsonSerializeIndex hfits).trans (itemText_plainItem _).symm, index.members_valid, rfl⟩

theorem indexesSaid_written (hindexes : ∀ index ∈ indexes.getD [], index.Fits) :
    ∀ s ∈ indexesSaid indexes, s.Written := by
  intro s hs
  rcases indexes with _ | _ | ⟨index, indexes⟩
  · cases hs
  · cases hs
  · obtain rfl := Option.some.inj hs
    exact Said.list_written fun i hi => (hindexes i hi).object

/-- The text of the body, with indexes. -/
theorem flatten_jsonSerializeCreateTableWithIndexes (name : CStr) (columns : List Column)
    (constraintsJson : Option CStr) (indexes : Option (List Index)) :
    (jsonSerializeCreateTableWithIndexes name columns constraintsJson indexes).flatten =
      lbrace :: (keyText (.lit "name") ++ ((Said.str name).text ++
        (moreSaid (schemaSaidBehind columns constraintsJson indexes) ++ [rbrace]))) := by
  have h₁ : ascii "\x7b\"name\":" = lbrace :: keyText (.lit "name") := by decide
  have h₂ : ascii ",\"columns\":[" = comma :: (keyText (.lit "columns") ++ [lbrack]) := by
    decide
  have h₃ : ascii ",\"constraints\":" = comma :: keyText (.lit "constraints") := by decide
  have h₄ : ascii ",\"indexes\":[" = comma :: (keyText (.lit "indexes") ++ [lbrack]) := by
    decide
  rw [schemaSaidBehind, tableSaidBehind]
  rcases indexes with _ | _ | ⟨index, indexes⟩ <;> split_ifs with hgiven <;>
    simp [jsonSerializeCreateTableWithIndexes, hgiven, indexesSaid, h₁, h₂, h₃, h₄, Said.str,
      Said.list, Said.raw]

/-- What is said behind the name can be written. -/
theorem schemaSaidBehind_written (hcolumns : ∀ col ∈ columns, col.WellFormed)
    (hconstraints : isGiven constraintsJson = true → IsJsonText (orEmpty constraintsJson).bytes)
    (hindexes : ∀ index ∈ indexes.getD [], index.Fits) :
    ∀ x ∈ schemaSaidBehind columns constraintsJson indexes, ∀ s ∈ x.2, s.Written := by
  have hlist : (Said.list jsonSerializeColumn ColumnObject columns).Written :=
    Said.list_written fun col hcol => (hcolumns col hcol).object
  simp only [schemaSaidBehind, tableSaidBehind, List.cons_append, List.nil_append,
    List.forall_mem_cons]
  refine ⟨fun s hs => ?_, fun s hs => ?_, indexesSaid_written hindexes,
    fun _ h => absurd h List.not_mem_nil⟩
  · rwa [← Option.some.inj hs]
  · split_ifs at hs with hgiven
    · rw [← Option.some.inj hs]
      exact Said.raw_written (hconstraints hgiven)
    · exact absurd hs (Option.some_ne_none _).symm

/-- With any indexes whose numbers fit, the body that creates a table is an object that says
    what is written of the table, and nothing else. -/
theorem jsonSerializeCreateTableWithIndexes_says (name : CStr)
    (hcolumns : ∀ col ∈ columns, col.WellFormed)
    (hconstraints : isGiven constraintsJson = true → IsJsonText (orEmpty constraintsJson).bytes)
    (hindexes : ∀ index ∈ indexes.getD [], index.Fits) :
    ∃ ms w, TextOf (.obj ms w)
        (jsonSerializeCreateTableWithIndexes name columns constraintsJson indexes).flatten ∧
      Says (schemaSaid name columns constraintsJson indexes) ms := by
  have hkeys : (CStr.lit "name" ::
      (schemaSaidBehind columns constraintsJson indexes).map Prod.fst).Nodup := by
    simp only [schemaSaidBehind, tableSaidBehind, List.cons_append, List.nil_append, List.map_cons,
      List.map_nil]
    decide
  exact Said.obj_says _ (flatten_jsonSerializeCreateTableWithIndexes name columns constraintsJson
    indexes) (Said.str_written name) (schemaSaidBehind_written hcolumns hconstraints hindexes) hkeys

/-- A DiskANN index with a quantization, whose numbers are given in part. -/
def quantizedIndex : Index where
  name := some (.lit "nearest")
  columnId := 2
  kind := .ann
  predicate := none
  annM := 32
  annEfConstruction := 0
  annEfSearch := 200
  annQuantization := .product
  annAlgorithm := .diskann
  diskannR := 0
  diskannL := 18446744073709551615
  diskannBeamWidth := 4
  diskannAlpha := 0
  ivfNlist := 0
  ivfNprobe := 0
  pqNumSubvectors := 32
  pqBits := 8
  pqTrainingSamples := 100000
  pqSeed := 18446744073709551615
  pqRerankFactor := 0
  minhashPermutations := 0
  minhashBands := 0
  learnedRangeEpsilon := 0

theorem quantizedIndex_fits : quantizedIndex.Fits :=
  ⟨fun _ => by decide, fun _ _ => by decide, fun _ _ => by decide⟩

/-- The body for a table with the column `moodColumn` and this index. -/
theorem jsonSerializeCreateTableWithIndexes_quantized : ∃ ms w, TextOf (.obj ms w)
      (jsonSerializeCreateTableWithIndexes (.lit "t") [moodColumn] none
        (some [quantizedIndex])).flatten ∧
    Says (schemaSaid (.lit "t") [moodColumn] none (some [quantizedIndex])) ms := by
  refine jsonSerializeCreateTableWithIndexes_says (.lit "t") (fun col hcol => ?_)
    (fun h => absurd h (by decide)) fun index hindex => ?_
  · obtain rfl := List.mem_singleton.1 hcol
    refine ⟨fun t ht => ?_, fun t ht => by cases ht⟩
    obtain rfl := Option.some.inj ht
    exact ⟨plainItem (.ofStr (.lit "sad")), Json.ofStr_valid _, by decide⟩
  · obtain rfl := List.mem_singleton.1 hindex
    exact quantizedIndex_fits

end MongrelDB
