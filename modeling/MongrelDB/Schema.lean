import MongrelDB.Serialize

/-!
# Tables, columns and indexes

The body of `/kit/create_table`: the name of the table, its columns, its constraints,
and its indexes. The numbers of an index are formatted into a buffer of 96 bytes,
several of them at once, and whatever does not fit into it is cut off.
-/

namespace MongrelDB

open Ascii

/-! ## Columns -/

/-- `mongreldb_column` -/
structure Column where
  id : Int64
  name : Option CStr
  ty : Option CStr
  primaryKey : Int32
  nullable : Int32
  enumVariants : Option (List (Option CStr))
  defaultValue : Option CStr
  defaultValueJson : Option CStr
  defaultExpr : Option CStr
  embeddingSourceJson : Option CStr

/-- A flag, as `true` or `false`. -/
def boolText (b : Int32) : Bytes := if b ≠ 0 then ascii "true" else ascii "false"

/-- The member `enum_variants`, if there are any. -/
def enumVariantsAppends : Option (List (Option CStr)) → Appends
  | none | some [] => []
  | some (v :: vs) =>
    [ascii ",\"enum_variants\":["] ++ separated (fun s => jsonEscape (orEmpty s)) (v :: vs) ++
      [[rbrack]]

/-- The default of a column: an expression, raw text, or a string. -/
def defaultAppends (col : Column) : Appends :=
  match col.defaultExpr, col.defaultValueJson, col.defaultValue with
  | some expr, _, _ => [ascii ",\"default_expr\":"] ++ jsonEscape expr
  | none, some json, _ => [ascii ",\"default_value\":", json.bytes]
  | none, none, some value => [ascii ",\"default_value\":"] ++ jsonEscape value
  | none, none, none => []

/-- `json_serialize_column` -/
def jsonSerializeColumn (col : Column) : Appends :=
  [[lbrace], ascii "\"id\":", int64Text col.id, ascii ",\"name\":"] ++
  jsonEscape (orEmpty col.name) ++ [ascii ",\"ty\":"] ++ jsonEscape (orEmpty col.ty) ++
  [ascii ",\"primary_key\":", boolText col.primaryKey, ascii ",\"nullable\":",
    boolText col.nullable] ++
  enumVariantsAppends col.enumVariants ++ defaultAppends col ++
  (match col.embeddingSourceJson with
    | some json => [ascii ",\"embedding_source\":", json.bytes]
    | none => []) ++
  [[rbrace]]

/-! ## Indexes -/

/-- `mongreldb_index_kind` -/
inductive IndexKind where
  | bitmap
  | fm
  | ann
  | learnedRange
  | minHash
  | sparse
  /-- None of these kinds. -/
  | other
  deriving DecidableEq

/-- `mongreldb_ann_quantization` -/
inductive AnnQuantization where
  | binarySign
  | dense
  | product
  /-- None of these. -/
  | other
  deriving DecidableEq

/-- `mongreldb_ann_algorithm` -/
inductive AnnAlgorithm where
  | hnsw
  | diskann
  | ivf
  /-- None of these. -/
  | other
  deriving DecidableEq

/-- `mongreldb_index` -/
structure Index where
  name : Option CStr
  columnId : Int64
  kind : IndexKind
  predicate : Option CStr
  annM : UInt64
  annEfConstruction : UInt64
  annEfSearch : UInt64
  annQuantization : AnnQuantization
  annAlgorithm : AnnAlgorithm
  diskannR : UInt64
  diskannL : UInt64
  diskannBeamWidth : UInt64
  diskannAlpha : UInt32
  ivfNlist : UInt64
  ivfNprobe : UInt64
  pqNumSubvectors : UInt16
  pqBits : UInt8
  pqTrainingSamples : UInt64
  pqSeed : UInt64
  pqRerankFactor : UInt64
  minhashPermutations : UInt64
  minhashBands : UInt64
  learnedRangeEpsilon : UInt64

/-- `index_kind_name` -/
def indexKindName : IndexKind → CStr
  | .bitmap => .lit "bitmap"
  | .fm => .lit "fm_index"
  | .ann => .lit "ann"
  | .learnedRange => .lit "learned_range"
  | .minHash => .lit "minhash"
  | .sparse => .lit "sparse"
  | .other => .lit ""

/-- `ann_quantization_name` -/
def annQuantizationName : AnnQuantization → CStr
  | .dense => .lit "dense"
  | .product => .lit "product"
  | .binarySign | .other => .lit "binary_sign"

/-- `ann_algorithm_name` -/
def annAlgorithmName : AnnAlgorithm → CStr
  | .diskann => .lit "diskann"
  | .ivf => .lit "ivf"
  | .hnsw | .other => .lit "hnsw"

/-- A tuning value, or its default if it is zero. -/
def orDefault (default n : Nat) : Nat := if n ≠ 0 then n else default

/-- A formatted text, in the buffer `number`. -/
def numberText (text : Bytes) : Bytes := snprintf 96 text

/-- The numbers of an ANN index, up to its quantization. -/
def annText (index : Index) : Bytes :=
  ascii "\"m\":" ++ (natText (orDefault 16 index.annM.toNat) ++
  (ascii ",\"ef_construction\":" ++ (natText (orDefault 64 index.annEfConstruction.toNat) ++
  (ascii ",\"ef_search\":" ++ (natText (orDefault 64 index.annEfSearch.toNat) ++
    ascii ",\"quantization\":")))))

/-- The tuning of DiskANN. -/
def diskannText (index : Index) : Bytes :=
  ascii ",\"diskann\":\x7b\"r\":" ++ (natText (orDefault 64 index.diskannR.toNat) ++
  (ascii ",\"l\":" ++ (natText (orDefault 128 index.diskannL.toNat) ++
  (ascii ",\"beam_width\":" ++ (natText (orDefault 8 index.diskannBeamWidth.toNat) ++
  (ascii ",\"alpha\":" ++ (natText (orDefault 120 index.diskannAlpha.toNat) ++ [rbrace])))))))

/-- The tuning of IVF. -/
def ivfText (index : Index) : Bytes :=
  ascii ",\"ivf\":\x7b\"nlist\":" ++ (natText (orDefault 256 index.ivfNlist.toNat) ++
  (ascii ",\"nprobe\":" ++ (natText (orDefault 8 index.ivfNprobe.toNat) ++ [rbrace])))

/-- The tuning of product quantization. -/
def productText (index : Index) : Bytes :=
  ascii ",\"product\":\x7b\"training_samples\":" ++
  (natText (orDefault 256000 index.pqTrainingSamples.toNat) ++
  (ascii ",\"seed\":" ++ (natText (orDefault 0x9E3779B97F4A7C15 index.pqSeed.toNat) ++
  (ascii ",\"rerank_factor\":" ++ (natText (orDefault 5 index.pqRerankFactor.toNat) ++ [rbrace])))))

/-- The options of a MinHash index. -/
def minhashText (index : Index) : Bytes :=
  ascii ",\"options\":\x7b\"minhash\":\x7b\"permutations\":" ++
  (natText (orDefault 128 index.minhashPermutations.toNat) ++
  (ascii ",\"bands\":" ++ (natText (orDefault 32 index.minhashBands.toNat) ++ ascii "\x7d\x7d")))

/-- The options of a learned range index. -/
def learnedRangeText (index : Index) : Bytes :=
  ascii ",\"options\":\x7b\"learned_range\":\x7b\"epsilon\":" ++
  (natText (orDefault 16 index.learnedRangeEpsilon.toNat) ++ ascii "\x7d\x7d")

/-- The algorithm, if it is not the default. -/
def algorithmAppends (index : Index) : Appends :=
  if index.annAlgorithm ≠ .hnsw then
    [ascii ",\"algorithm\":"] ++ jsonEscape (annAlgorithmName index.annAlgorithm)
  else []

/-- The tuning of the algorithm. -/
def tuningAppends (index : Index) : Appends :=
  match index.annAlgorithm with
  | .diskann => [numberText (diskannText index)]
  | .ivf => [numberText (ivfText index)]
  | .hnsw | .other => []

/-- The tuning of the quantization. -/
def productAppends (index : Index) : Appends :=
  if index.annQuantization = .product then [numberText (productText index)] else []

/-- The options of an ANN index. -/
def annAppends (index : Index) : Appends :=
  [ascii ",\"options\":\x7b\"ann\":\x7b", numberText (annText index)] ++
  jsonEscape (annQuantizationName index.annQuantization) ++ algorithmAppends index ++
  tuningAppends index ++ productAppends index ++ [ascii "\x7d\x7d"]

/-- The options of an index, by its kind. -/
def optionsAppends (index : Index) : Appends :=
  match index.kind with
  | .ann => annAppends index
  | .minHash => [numberText (minhashText index)]
  | .learnedRange => [numberText (learnedRangeText index)]
  | .bitmap | .fm | .sparse | .other => []

/-- The predicate, if there is one. -/
def predicateAppends : Option CStr → Appends
  | some predicate => [ascii ",\"predicate\":"] ++ jsonEscape predicate
  | none => []

/-- `json_serialize_index` -/
def jsonSerializeIndex (index : Index) : Appends :=
  [ascii "\x7b\"name\":"] ++ jsonEscape (orEmpty index.name) ++
  [numberText (ascii ",\"column_id\":" ++ (intText index.columnId.toInt ++ ascii ",\"kind\":"))] ++
  jsonEscape (indexKindName index.kind) ++ predicateAppends index.predicate ++
  optionsAppends index ++ [[rbrace]]

/-! ## Tables -/

/-- `json_serialize_create_table_with_indexes` -/
def jsonSerializeCreateTableWithIndexes (name : CStr) (columns : List Column)
    (constraintsJson : Option CStr) (indexes : Option (List Index)) : Appends :=
  [ascii "\x7b\"name\":"] ++ jsonEscape name ++ [ascii ",\"columns\":["] ++
  separated jsonSerializeColumn columns ++ [[rbrack]] ++
  (if isGiven constraintsJson then
    [ascii ",\"constraints\":", (orEmpty constraintsJson).bytes] else []) ++
  (match indexes with
    | none | some [] => []
    | some (i :: is) =>
      [ascii ",\"indexes\":["] ++ separated jsonSerializeIndex (i :: is) ++ [[rbrack]]) ++
  [[rbrace]]

end MongrelDB
