import MongrelDB.Schema
import MongrelDB.Serialize.Members

/-!
# Written indexes

What `json_serialize_index` is to write, an object with the numbers of the index
(`Index.members`), and when it does: if the numbers that are formatted together fit into
the buffer (`Index.Fits`). The numbers are found in the object by their paths
(`Index.numbers`).
-/

namespace MongrelDB

open Ascii

/-! ## Lengths -/

/-- The number of digits of a number. -/
def digits (n : Nat) : Nat := (natText n).length

/-- The numbers that are formatted together have few digits. -/
structure Index.Fits (index : Index) : Prop where
  ann : index.kind = .ann →
    digits (orDefault 16 index.annM.toNat) + digits (orDefault 64 index.annEfConstruction.toNat) +
      digits (orDefault 64 index.annEfSearch.toNat) ≤ 43
  diskann : index.kind = .ann → index.annAlgorithm = .diskann →
    digits (orDefault 64 index.diskannR.toNat) + digits (orDefault 128 index.diskannL.toNat) +
      digits (orDefault 8 index.diskannBeamWidth.toNat) +
      digits (orDefault 120 index.diskannAlpha.toNat) ≤ 50
  product : index.kind = .ann → index.annQuantization = .product →
    digits (orDefault 256000 index.pqTrainingSamples.toNat) +
      digits (orDefault 0x9E3779B97F4A7C15 index.pqSeed.toNat) +
      digits (orDefault 5 index.pqRerankFactor.toNat) ≤ 38

/-- A number of 64 bits has at most 20 digits. -/
theorem digits_orDefault_le {n default : Nat} (hd : default < 10 ^ 20) (hn : n < 10 ^ 20) :
    digits (orDefault default n) ≤ 20 := by
  refine length_natText_le ?_
  rw [orDefault]
  split_ifs
  · exact hn
  · exact hd

theorem length_annText (index : Index) : (annText index).length =
    digits (orDefault 16 index.annM.toNat) + digits (orDefault 64 index.annEfConstruction.toNat) +
      digits (orDefault 64 index.annEfSearch.toNat) + 52 := by
  have h₁ : (ascii "\"m\":").length = 4 := rfl
  have h₂ : (ascii ",\"ef_construction\":").length = 19 := rfl
  have h₃ : (ascii ",\"ef_search\":").length = 13 := rfl
  have h₄ : (ascii ",\"quantization\":").length = 16 := rfl
  simp only [annText, digits, List.length_append, h₁, h₂, h₃, h₄]
  omega

theorem length_diskannText (index : Index) : (diskannText index).length =
    digits (orDefault 64 index.diskannR.toNat) + digits (orDefault 128 index.diskannL.toNat) +
      digits (orDefault 8 index.diskannBeamWidth.toNat) +
      digits (orDefault 120 index.diskannAlpha.toNat) + 45 := by
  have h₁ : (ascii ",\"diskann\":\x7b\"r\":").length = 16 := rfl
  have h₂ : (ascii ",\"l\":").length = 5 := rfl
  have h₃ : (ascii ",\"beam_width\":").length = 14 := rfl
  have h₄ : (ascii ",\"alpha\":").length = 9 := rfl
  simp only [diskannText, digits, List.length_append, h₁, h₂, h₃, h₄, List.length_singleton]
  omega

theorem length_productText (index : Index) : (productText index).length =
    digits (orDefault 256000 index.pqTrainingSamples.toNat) +
      digits (orDefault 0x9E3779B97F4A7C15 index.pqSeed.toNat) +
      digits (orDefault 5 index.pqRerankFactor.toNat) + 57 := by
  have h₁ : (ascii ",\"product\":\x7b\"training_samples\":").length = 31 := rfl
  have h₂ : (ascii ",\"seed\":").length = 8 := rfl
  have h₃ : (ascii ",\"rerank_factor\":").length = 17 := rfl
  simp only [productText, digits, List.length_append, h₁, h₂, h₃, List.length_singleton]
  omega

theorem numberText_of_length {text : Bytes} (h : text.length ≤ 95) : numberText text = text :=
  List.take_of_length_le h

/-- The numbers of the other kinds always fit. -/
theorem numberText_ivf (index : Index) : numberText (ivfText index) = ivfText index := by
  have h₁ : (ascii ",\"ivf\":\x7b\"nlist\":").length = 16 := rfl
  have h₂ : (ascii ",\"nprobe\":").length = 10 := rfl
  have hnlist : digits (orDefault 256 index.ivfNlist.toNat) ≤ 20 :=
    digits_orDefault_le (by norm_num) (lt_trans index.ivfNlist.toNat_lt (by norm_num))
  have hnprobe : digits (orDefault 8 index.ivfNprobe.toNat) ≤ 20 :=
    digits_orDefault_le (by norm_num) (lt_trans index.ivfNprobe.toNat_lt (by norm_num))
  simp only [digits] at hnlist hnprobe
  refine numberText_of_length ?_
  simp only [ivfText, List.length_append, h₁, h₂, List.length_singleton]
  omega

theorem numberText_minhash (index : Index) :
    numberText (minhashText index) = minhashText index := by
  have h₁ : (ascii ",\"options\":\x7b\"minhash\":\x7b\"permutations\":").length = 38 := rfl
  have h₂ : (ascii ",\"bands\":").length = 9 := rfl
  have h₃ : (ascii "\x7d\x7d").length = 2 := rfl
  have hperm : digits (orDefault 128 index.minhashPermutations.toNat) ≤ 20 :=
    digits_orDefault_le (by norm_num) (lt_trans index.minhashPermutations.toNat_lt (by norm_num))
  have hbands : digits (orDefault 32 index.minhashBands.toNat) ≤ 20 :=
    digits_orDefault_le (by norm_num) (lt_trans index.minhashBands.toNat_lt (by norm_num))
  simp only [digits] at hperm hbands
  refine numberText_of_length ?_
  simp only [minhashText, List.length_append, h₁, h₂, h₃]
  omega

theorem numberText_learnedRange (index : Index) :
    numberText (learnedRangeText index) = learnedRangeText index := by
  have h₁ : (ascii ",\"options\":\x7b\"learned_range\":\x7b\"epsilon\":").length = 39 := rfl
  have h₂ : (ascii "\x7d\x7d").length = 2 := rfl
  have hepsilon : digits (orDefault 16 index.learnedRangeEpsilon.toNat) ≤ 20 :=
    digits_orDefault_le (by norm_num) (lt_trans index.learnedRangeEpsilon.toNat_lt (by norm_num))
  simp only [digits] at hepsilon
  refine numberText_of_length ?_
  simp only [learnedRangeText, List.length_append, h₁, h₂]
  omega

theorem numberText_columnId (i : Int64) :
    numberText (ascii ",\"column_id\":" ++ (intText i.toInt ++ ascii ",\"kind\":")) =
      ascii ",\"column_id\":" ++ (intText i.toInt ++ ascii ",\"kind\":") := by
  have h₁ : (ascii ",\"column_id\":").length = 13 := rfl
  have h₂ : (ascii ",\"kind\":").length = 8 := rfl
  have hlen := length_le_of_intVal? (intVal?_intText i.toInt) (by simpa using i.le_toInt)
    (by simpa using i.toInt_lt)
  refine numberText_of_length ?_
  simp only [List.length_append, h₁, h₂]
  omega

/-! ## The object -/

/-- The tuning of DiskANN, as a member. -/
def Index.diskannMember (index : Index) : CStr × Item Json :=
  objMember (.lit "diskann")
    [numberMember (.lit "r") (orDefault 64 index.diskannR.toNat),
      numberMember (.lit "l") (orDefault 128 index.diskannL.toNat),
      numberMember (.lit "beam_width") (orDefault 8 index.diskannBeamWidth.toNat),
      numberMember (.lit "alpha") (orDefault 120 index.diskannAlpha.toNat)]

/-- The tuning of IVF, as a member. -/
def Index.ivfMember (index : Index) : CStr × Item Json :=
  objMember (.lit "ivf")
    [numberMember (.lit "nlist") (orDefault 256 index.ivfNlist.toNat),
      numberMember (.lit "nprobe") (orDefault 8 index.ivfNprobe.toNat)]

/-- The tuning of product quantization, as a member. -/
def Index.productMember (index : Index) : CStr × Item Json :=
  objMember (.lit "product")
    [numberMember (.lit "training_samples") (orDefault 256000 index.pqTrainingSamples.toNat),
      numberMember (.lit "seed") (orDefault 0x9E3779B97F4A7C15 index.pqSeed.toNat),
      numberMember (.lit "rerank_factor") (orDefault 5 index.pqRerankFactor.toNat)]

/-- The algorithm as a member, if it is not the default. -/
def Index.algorithmMembers (index : Index) : List (CStr × Item Json) :=
  if index.annAlgorithm ≠ .hnsw then
    [strMember (.lit "algorithm") (annAlgorithmName index.annAlgorithm)]
  else []

/-- The member for the tuning of the algorithm. -/
def Index.tuningMembers (index : Index) : List (CStr × Item Json) :=
  match index.annAlgorithm with
  | .diskann => [index.diskannMember]
  | .ivf => [index.ivfMember]
  | .hnsw | .other => []

/-- The member for the tuning of the quantization. -/
def Index.productMembers (index : Index) : List (CStr × Item Json) :=
  if index.annQuantization = .product then [index.productMember] else []

/-- The members of the options of an ANN index. -/
def Index.annMembers (index : Index) : List (CStr × Item Json) :=
  numberMember (.lit "m") (orDefault 16 index.annM.toNat) ::
    numberMember (.lit "ef_construction") (orDefault 64 index.annEfConstruction.toNat) ::
    numberMember (.lit "ef_search") (orDefault 64 index.annEfSearch.toNat) ::
    strMember (.lit "quantization") (annQuantizationName index.annQuantization) ::
    (index.algorithmMembers ++ (index.tuningMembers ++ index.productMembers))

/-- The member for the options of an index, by its kind. -/
def Index.optionsMembers (index : Index) : List (CStr × Item Json) :=
  match index.kind with
  | .ann => [objMember (.lit "options") [objMember (.lit "ann") index.annMembers]]
  | .minHash => [objMember (.lit "options") [objMember (.lit "minhash")
      [numberMember (.lit "permutations") (orDefault 128 index.minhashPermutations.toNat),
        numberMember (.lit "bands") (orDefault 32 index.minhashBands.toNat)]]]
  | .learnedRange => [objMember (.lit "options") [objMember (.lit "learned_range")
      [numberMember (.lit "epsilon") (orDefault 16 index.learnedRangeEpsilon.toNat)]]]
  | .bitmap | .fm | .sparse | .other => []

/-- The predicate as a member, if there is one. -/
def predicateMembers : Option CStr → List (CStr × Item Json)
  | some predicate => [strMember (.lit "predicate") predicate]
  | none => []

/-- The members of an index. -/
def Index.members (index : Index) : List (CStr × Item Json) :=
  strMember (.lit "name") (orEmpty index.name) ::
    (.lit "column_id", plainItem (.ofInt64 index.columnId)) ::
    strMember (.lit "kind") (indexKindName index.kind) ::
    (predicateMembers index.predicate ++ index.optionsMembers)

/-! ## Its text -/

theorem diskannText_eq (index : Index) : diskannText index = moreMembers [index.diskannMember] := by
  have h₁ : ascii ",\"diskann\":\x7b\"r\":" =
      comma :: (keyText (.lit "diskann") ++ lbrace :: keyText (.lit "r")) := by decide
  have h₂ : ascii ",\"l\":" = comma :: keyText (.lit "l") := by decide
  have h₃ : ascii ",\"beam_width\":" = comma :: keyText (.lit "beam_width") := by decide
  have h₄ : ascii ",\"alpha\":" = comma :: keyText (.lit "alpha") := by decide
  rw [diskannText, Index.diskannMember, moreMembers_obj, h₁, h₂, h₃, h₄]
  simp [numberMember]

theorem ivfText_eq (index : Index) : ivfText index = moreMembers [index.ivfMember] := by
  have h₁ : ascii ",\"ivf\":\x7b\"nlist\":" =
      comma :: (keyText (.lit "ivf") ++ lbrace :: keyText (.lit "nlist")) := by decide
  have h₂ : ascii ",\"nprobe\":" = comma :: keyText (.lit "nprobe") := by decide
  rw [ivfText, Index.ivfMember, moreMembers_obj, h₁, h₂]
  simp [numberMember]

theorem productText_eq (index : Index) : productText index = moreMembers [index.productMember] := by
  have h₁ : ascii ",\"product\":\x7b\"training_samples\":" =
      comma :: (keyText (.lit "product") ++ lbrace :: keyText (.lit "training_samples")) := by
    decide
  have h₂ : ascii ",\"seed\":" = comma :: keyText (.lit "seed") := by decide
  have h₃ : ascii ",\"rerank_factor\":" = comma :: keyText (.lit "rerank_factor") := by
    decide
  rw [productText, Index.productMember, moreMembers_obj, h₁, h₂, h₃]
  simp [numberMember]

theorem flatten_algorithmAppends (index : Index) :
    (algorithmAppends index).flatten = moreMembers index.algorithmMembers := by
  have h : ascii ",\"algorithm\":" = comma :: keyText (.lit "algorithm") := by decide
  rw [algorithmAppends, Index.algorithmMembers]
  split_ifs
  · simp [h, flatten_jsonEscape]
  · rfl

theorem flatten_tuningAppends {index : Index} (hfits : index.Fits) (hkind : index.kind = .ann) :
    (tuningAppends index).flatten = moreMembers index.tuningMembers := by
  rw [tuningAppends, Index.tuningMembers]
  cases halg : index.annAlgorithm with
  | diskann =>
    have hlen := hfits.diskann hkind halg
    simp only
    rw [numberText_of_length (by rw [length_diskannText]; omega), diskannText_eq,
      List.flatten_singleton]
  | ivf =>
    simp only
    rw [numberText_ivf, ivfText_eq, List.flatten_singleton]
  | hnsw => rfl
  | other => rfl

theorem flatten_productAppends {index : Index} (hfits : index.Fits) (hkind : index.kind = .ann) :
    (productAppends index).flatten = moreMembers index.productMembers := by
  rw [productAppends, Index.productMembers]
  split_ifs with hq
  · have hlen := hfits.product hkind hq
    rw [numberText_of_length (by rw [length_productText]; omega), productText_eq,
      List.flatten_singleton]
  · rfl

/-- The text of the options of an ANN index. -/
theorem flatten_annAppends {index : Index} (hfits : index.Fits) (hkind : index.kind = .ann) :
    (annAppends index).flatten =
      moreMembers [objMember (.lit "options") [objMember (.lit "ann") index.annMembers]] := by
  have h₁ : ascii ",\"options\":\x7b\"ann\":\x7b" = comma :: (keyText (.lit "options") ++
      lbrace :: (keyText (.lit "ann") ++ [lbrace])) := by decide
  have h₂ : ascii "\"m\":" = keyText (.lit "m") := by decide
  have h₃ : ascii ",\"ef_construction\":" = comma :: keyText (.lit "ef_construction") := by
    decide
  have h₄ : ascii ",\"ef_search\":" = comma :: keyText (.lit "ef_search") := by decide
  have h₅ : ascii ",\"quantization\":" = comma :: keyText (.lit "quantization") := by decide
  have h₆ : ascii "\x7d\x7d" = [rbrace, rbrace] := by decide
  have hlen := hfits.ann hkind
  have hann : numberText (annText index) = annText index :=
    numberText_of_length (by rw [length_annText]; omega)
  rw [moreMembers_obj, objMember, itemText_plainItem, Index.annMembers, numberMember,
    Json.text_ofMembers]
  simp only [annAppends, List.flatten_append, flatten_algorithmAppends,
    flatten_tuningAppends hfits hkind, flatten_productAppends hfits hkind, flatten_jsonEscape, hann]
  simp [annText, h₁, h₂, h₃, h₄, h₅, h₆]

theorem flatten_optionsAppends {index : Index} (hfits : index.Fits) :
    (optionsAppends index).flatten = moreMembers index.optionsMembers := by
  have h₁ : ascii ",\"options\":\x7b\"minhash\":\x7b\"permutations\":" =
      comma :: (keyText (.lit "options") ++ lbrace :: (keyText (.lit "minhash") ++
        lbrace :: keyText (.lit "permutations"))) := by decide
  have h₂ : ascii ",\"bands\":" = comma :: keyText (.lit "bands") := by decide
  have h₃ : ascii ",\"options\":\x7b\"learned_range\":\x7b\"epsilon\":" =
      comma :: (keyText (.lit "options") ++ lbrace :: (keyText (.lit "learned_range") ++
        lbrace :: keyText (.lit "epsilon"))) := by decide
  have h₄ : ascii "\x7d\x7d" = [rbrace, rbrace] := by decide
  rw [optionsAppends, Index.optionsMembers]
  cases hkind : index.kind with
  | ann => exact flatten_annAppends hfits hkind
  | minHash =>
    simp only
    rw [List.flatten_singleton, numberText_minhash, minhashText, h₁, h₂, h₄, moreMembers_obj,
      objMember,
      itemText_plainItem, numberMember, Json.text_ofMembers]
    simp
  | learnedRange =>
    simp only
    rw [List.flatten_singleton, numberText_learnedRange, learnedRangeText, h₃, h₄, moreMembers_obj,
      objMember, itemText_plainItem, numberMember, Json.text_ofMembers]
    simp
  | _ => rfl

/-- If its numbers fit, an index is written as the object of its members. -/
theorem flatten_jsonSerializeIndex {index : Index} (hfits : index.Fits) :
    (jsonSerializeIndex index).flatten = (Json.ofMembers index.members).text := by
  have h₁ : ascii "\x7b\"name\":" = lbrace :: keyText (.lit "name") := by decide
  have h₂ : ascii ",\"column_id\":" = comma :: keyText (.lit "column_id") := by decide
  have h₃ : ascii ",\"kind\":" = comma :: keyText (.lit "kind") := by decide
  have h₄ : ascii ",\"predicate\":" = comma :: keyText (.lit "predicate") := by decide
  have hpredicate : (predicateAppends index.predicate).flatten =
      moreMembers (predicateMembers index.predicate) := by
    cases index.predicate with
    | none => rfl
    | some predicate => simp [predicateAppends, predicateMembers, h₄, flatten_jsonEscape]
  have hid : (Json.ofInt64 index.columnId).text = intText index.columnId.toInt := rfl
  rw [Index.members, strMember, Json.text_ofMembers]
  simp only [jsonSerializeIndex, List.flatten_append, hpredicate, flatten_optionsAppends hfits,
    flatten_jsonEscape, numberText_columnId]
  simp [h₁, h₂, h₃, hid]

/-! ## What it says -/

/-- The value at the end of a path of keys. -/
def valueAt : List CStr → Json → Option Json
  | [], j => some j
  | key :: path, .obj ms _ => (field? (fun _ => true) key.bytes ms).bind (valueAt path)
  | _ :: _, _ => none

/-- The integer at the end of a path. -/
def NumberAt (j : Json) (path : List CStr) (i : Int) : Prop :=
  ∃ v, valueAt path j = some v ∧ v.datum? = some (.int i)

/-- The numbers of the options of an ANN index, with their paths. -/
def Index.annNumbers (index : Index) : List (List CStr × Nat) :=
  [([.lit "m"], orDefault 16 index.annM.toNat),
    ([.lit "ef_construction"], orDefault 64 index.annEfConstruction.toNat),
    ([.lit "ef_search"], orDefault 64 index.annEfSearch.toNat)] ++
  (match index.annAlgorithm with
    | .diskann => [([.lit "diskann", .lit "r"], orDefault 64 index.diskannR.toNat),
      ([.lit "diskann", .lit "l"], orDefault 128 index.diskannL.toNat),
      ([.lit "diskann", .lit "beam_width"], orDefault 8 index.diskannBeamWidth.toNat),
      ([.lit "diskann", .lit "alpha"], orDefault 120 index.diskannAlpha.toNat)]
    | .ivf => [([.lit "ivf", .lit "nlist"], orDefault 256 index.ivfNlist.toNat),
      ([.lit "ivf", .lit "nprobe"], orDefault 8 index.ivfNprobe.toNat)]
    | .hnsw | .other => []) ++
  (if index.annQuantization = .product then
    [([.lit "product", .lit "training_samples"], orDefault 256000 index.pqTrainingSamples.toNat),
      ([.lit "product", .lit "seed"], orDefault 0x9E3779B97F4A7C15 index.pqSeed.toNat),
      ([.lit "product", .lit "rerank_factor"], orDefault 5 index.pqRerankFactor.toNat)]
  else [])

/-- The numbers of the options of an index, with their paths. -/
def Index.numbers (index : Index) : List (List CStr × Nat) :=
  match index.kind with
  | .ann => index.annNumbers.map fun x => (.lit "options" :: .lit "ann" :: x.1, x.2)
  | .minHash => [([.lit "options", .lit "minhash", .lit "permutations"],
      orDefault 128 index.minhashPermutations.toNat),
    ([.lit "options", .lit "minhash", .lit "bands"], orDefault 32 index.minhashBands.toNat)]
  | .learnedRange => [([.lit "options", .lit "learned_range", .lit "epsilon"],
      orDefault 16 index.learnedRangeEpsilon.toNat)]
  | .bitmap | .fm | .sparse | .other => []

/-- A value is found behind its key, if no other member has it. -/
theorem valueAt_of_mem {ms : List (CStr × Item Json)} (hkeys : (ms.map Prod.fst).Nodup) {key : CStr}
    {e : Item Json} (hm : (key, e) ∈ ms) (path : List CStr) :
    valueAt (key :: path) (.ofMembers ms) = valueAt path e.val := by
  have hfield : field? (fun _ => true) key.bytes (writtenMembers ms) =
      (itemAt key (writtenMembers ms)).map Item.val := by
    simp only [field?, itemAt, Option.map_map, Bool.and_true]
    rfl
  rw [itemAt_written hkeys hm] at hfield
  exact congrArg (Option.bind · (valueAt path)) hfield

theorem numberAt_of_mem {ms : List (CStr × Item Json)} (hkeys : (ms.map Prod.fst).Nodup)
    {key : CStr}
    {n : Nat} (hm : numberMember key n ∈ ms) : NumberAt (.ofMembers ms) [key] n :=
  ⟨_, valueAt_of_mem hkeys hm [], Json.ofNat_datum n⟩

theorem NumberAt.cons {ms ms' : List (CStr × Item Json)} (hkeys : (ms.map Prod.fst).Nodup)
    {key : CStr} (hm : objMember key ms' ∈ ms) {path : List CStr} {i : Int}
    (h : NumberAt (.ofMembers ms') path i) : NumberAt (.ofMembers ms) (key :: path) i := by
  obtain ⟨v, hv, hi⟩ := h
  exact ⟨v, (valueAt_of_mem hkeys hm path).trans hv, hi⟩

/-- The keys of the options of an ANN index. -/
theorem Index.annMembers_keys (index : Index) : (index.annMembers.map Prod.fst).Nodup := by
  -- Which members are written varies, but never their order.
  have hsub : (index.annMembers.map Prod.fst).Sublist [.lit "m", .lit "ef_construction",
      .lit "ef_search", .lit "quantization", .lit "algorithm", .lit "diskann", .lit "ivf",
      .lit "product"] := by
    have halgorithm : (index.algorithmMembers.map Prod.fst).Sublist [.lit "algorithm"] := by
      rw [algorithmMembers]
      split_ifs
      · exact .refl _
      · exact List.nil_sublist _
    have htuning : (index.tuningMembers.map Prod.fst).Sublist [.lit "diskann", .lit "ivf"] := by
      rw [tuningMembers]
      cases index.annAlgorithm with
      | diskann => exact .cons_cons _ (List.nil_sublist _)
      | ivf => exact .cons _ (.refl _)
      | _ => exact List.nil_sublist _
    have hproduct : (index.productMembers.map Prod.fst).Sublist [.lit "product"] := by
      rw [productMembers]
      split_ifs
      · exact .refl _
      · exact List.nil_sublist _
    simp only [annMembers, List.map_cons, List.map_append]
    exact ((((halgorithm.append (htuning.append hproduct)).cons_cons _).cons_cons _).cons_cons
      _).cons_cons _
  exact hsub.nodup (by decide)

/-- Every number of the options of an ANN index is in their object. -/
theorem Index.annNumbers_at (index : Index) :
    ∀ x ∈ index.annNumbers, NumberAt (.ofMembers index.annMembers) x.1 x.2 := by
  have hkeys := index.annMembers_keys
  have htuning : ∀ {m}, m ∈ index.tuningMembers → m ∈ index.annMembers := fun h => by
    simp [annMembers, h]
  have hproduct : ∀ {m}, m ∈ index.productMembers → m ∈ index.annMembers := fun h => by
    simp [annMembers, h]
  rw [annNumbers]
  simp only [List.forall_mem_append, List.forall_mem_cons, List.not_mem_nil, false_imp_iff,
    implies_true, and_true]
  refine ⟨⟨⟨?_, ?_, ?_⟩, ?_⟩, ?_⟩
  · exact numberAt_of_mem hkeys (by simp [annMembers])
  · exact numberAt_of_mem hkeys (by simp [annMembers])
  · exact numberAt_of_mem hkeys (by simp [annMembers])
  · cases halg : index.annAlgorithm with
    | diskann =>
      have hm : index.diskannMember ∈ index.annMembers := htuning (by simp [tuningMembers, halg])
      simp only [List.forall_mem_cons]
      refine ⟨?_, ?_, ?_, ?_, fun _ h => absurd h List.not_mem_nil⟩ <;>
        exact NumberAt.cons hkeys hm (numberAt_of_mem (by simp +decide [numberMember]) (by simp))
    | ivf =>
      have hm : index.ivfMember ∈ index.annMembers := htuning (by simp [tuningMembers, halg])
      simp only [List.forall_mem_cons]
      refine ⟨?_, ?_, fun _ h => absurd h List.not_mem_nil⟩ <;>
        exact NumberAt.cons hkeys hm (numberAt_of_mem (by simp +decide [numberMember]) (by simp))
    | hnsw => exact fun _ h => absurd h List.not_mem_nil
    | other => exact fun _ h => absurd h List.not_mem_nil
  · split_ifs with hq
    · have hm : index.productMember ∈ index.annMembers := hproduct (by simp [productMembers, hq])
      simp only [List.forall_mem_cons]
      refine ⟨?_, ?_, ?_, fun _ h => absurd h List.not_mem_nil⟩ <;>
        exact NumberAt.cons hkeys hm (numberAt_of_mem (by simp +decide [numberMember]) (by simp))
    · exact fun _ h => absurd h List.not_mem_nil

theorem Index.optionsMembers_keys (index : Index) :
    (index.optionsMembers.map Prod.fst).Sublist [.lit "options"] := by
  rw [optionsMembers]
  cases index.kind with
  | ann | minHash | learnedRange => exact .refl _
  | _ => exact List.nil_sublist _

theorem Index.members_keys (index : Index) : (index.members.map Prod.fst).Nodup := by
  have hpredicate : ((predicateMembers index.predicate).map Prod.fst).Sublist
    [.lit "predicate"] := by
    cases index.predicate with
    | none => exact List.nil_sublist _
    | some predicate => exact .refl _
  have hsub : (index.members.map Prod.fst).Sublist
      [.lit "name", .lit "column_id", .lit "kind", .lit "predicate", .lit "options"] := by
    simp only [members, List.map_cons, List.map_append]
    exact (((hpredicate.append index.optionsMembers_keys).cons_cons _).cons_cons _).cons_cons _
  exact hsub.nodup (by decide)

/-- Every number of an index is in its object. -/
theorem Index.numbers_at (index : Index) :
    NumberAt (.ofMembers index.members) [.lit "column_id"] index.columnId.toInt ∧
      ∀ x ∈ index.numbers, NumberAt (.ofMembers index.members) x.1 x.2 := by
  have hkeys := index.members_keys
  have hoptions : ∀ {m}, m ∈ index.optionsMembers → m ∈ index.members := fun h => by
    simp [members, h]
  have hid : (.lit "column_id", plainItem (.ofInt64 index.columnId)) ∈ index.members := by
    simp [members]
  refine ⟨⟨_, valueAt_of_mem hkeys hid [], Json.ofInt64_datum _⟩, ?_⟩
  rw [numbers]
  cases hkind : index.kind with
  | ann =>
    intro x hx
    obtain ⟨y, hy, rfl⟩ := List.mem_map.1 hx
    have hm : objMember (.lit "options")
      [objMember (.lit "ann") index.annMembers] ∈ index.members :=
      hoptions (by simp [optionsMembers, hkind])
    exact .cons hkeys hm (.cons (by simp) (List.mem_singleton_self _) (index.annNumbers_at y hy))
  | minHash =>
    have hm : objMember (.lit "options") [objMember (.lit "minhash")
        [numberMember (.lit "permutations") (orDefault 128 index.minhashPermutations.toNat),
          numberMember (.lit "bands") (orDefault 32 index.minhashBands.toNat)]] ∈ index.members :=
      hoptions (by simp [optionsMembers, hkind])
    simp only [List.forall_mem_cons]
    refine ⟨?_, ?_, fun _ h => absurd h List.not_mem_nil⟩ <;>
      exact .cons hkeys hm (.cons (by simp) (List.mem_singleton_self _)
        (numberAt_of_mem (by simp +decide [numberMember]) (by simp)))
  | learnedRange =>
    have hm : objMember (.lit "options") [objMember (.lit "learned_range")
        [numberMember (.lit "epsilon") (orDefault 16 index.learnedRangeEpsilon.toNat)]] ∈
        index.members := hoptions (by simp [optionsMembers, hkind])
    intro x hx
    obtain rfl := List.mem_singleton.1 hx
    exact .cons hkeys hm (.cons (by simp) (List.mem_singleton_self _)
      (numberAt_of_mem (by simp) (by simp)))
  | _ => exact fun _ h => absurd h List.not_mem_nil

theorem Index.annMembers_valid (index : Index) : AllValid index.annMembers := by
  have halgorithm : AllValid index.algorithmMembers := by
    rw [algorithmMembers]
    split_ifs
    · exact AllValid.nil.str _ _
    · exact .nil
  have htuning : AllValid index.tuningMembers := by
    rw [tuningMembers]
    cases index.annAlgorithm with
    | diskann =>
      exact AllValid.nil.obj _ ((((AllValid.nil.number _ _).number _ _).number _ _).number _ _)
    | ivf => exact AllValid.nil.obj _ ((AllValid.nil.number _ _).number _ _)
    | _ => exact .nil
  have hproduct : AllValid index.productMembers := by
    rw [productMembers]
    split_ifs
    · exact AllValid.nil.obj _ (((AllValid.nil.number _ _).number _ _).number _ _)
    · exact .nil
  exact ((((halgorithm.append (htuning.append hproduct)).str _ _).number _ _).number _ _).number _ _

theorem Index.members_valid (index : Index) : (Json.ofMembers index.members).Valid := by
  have hoptions : AllValid index.optionsMembers := by
    rw [optionsMembers]
    cases index.kind with
    | ann => exact AllValid.nil.obj _ (AllValid.nil.obj _ index.annMembers_valid)
    | minHash =>
      exact AllValid.nil.obj _ (AllValid.nil.obj _ ((AllValid.nil.number _ _).number _ _))
    | learnedRange => exact AllValid.nil.obj _ (AllValid.nil.obj _ (AllValid.nil.number _ _))
    | _ => exact .nil
  have hpredicate : AllValid (predicateMembers index.predicate) := by
    cases index.predicate with
    | none => exact .nil
    | some predicate => exact AllValid.nil.str _ _
  refine Json.valid_ofMembers (AllValid.str (List.forall_mem_cons.2 ⟨Json.ofInt64_valid _, ?_⟩) _ _)
  exact (hpredicate.append hoptions).str _ _

/-- A text is an object with every number of the index. -/
def Index.Written (index : Index) (text : Bytes) : Prop :=
  ∃ ms w, TextOf (.obj ms w) text ∧
    NumberAt (.obj ms w) [.lit "column_id"] index.columnId.toInt ∧
    ∀ x ∈ index.numbers, NumberAt (.obj ms w) x.1 x.2

/-- If its numbers fit, an index is written with all of them. -/
theorem Index.Fits.written {index : Index} (hfits : index.Fits) :
    index.Written (jsonSerializeIndex index).flatten := by
  obtain ⟨hid, hnumbers⟩ := index.numbers_at
  refine ⟨_, _, ⟨index.members_valid, Ws.none, Ws.none, ?_⟩, hid, hnumbers⟩
  rw [flatten_jsonSerializeIndex hfits]
  exact (List.append_nil _).symm

end MongrelDB
