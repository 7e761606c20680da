import MongrelDB.Schema.Fits

/-!
# The tuning of an index

What is written for an ANN index tells its numbers: two indexes are written alike
exactly if they agree on what is written (`jsonSerializeIndex_eq_iff`). The number
of subvectors and the bits of product quantization are not written, so that they
are lost (`jsonSerializeIndex_keeps_iff`).
-/

namespace MongrelDB

open Ascii

/-! ## Numbers -/

/-- Numbers as members. -/
def numberMembers (xs : List (CStr × Nat)) : List (CStr × Item Json) :=
  xs.map fun x => numberMember x.1 x.2

/-- A number ends in front of the comma or the bracket behind it. -/
theorem stopsAt_moreMembers {c : UInt8} (hc : isNumberChar c = false)
    (ms : List (CStr × Item Json)) (x : Bytes) :
    StopsAt isDigit (moreMembers ms ++ c :: x) := by
  cases ms with
  | nil => exact stopsAt_cons (Bool.eq_false_iff.2 fun hd =>
      Bool.false_ne_true (hc.symm.trans (isNumberChar_of_isDigit c hd))) x
  | cons m ms => exact stopsAt_cons (c := comma) rfl _

/-- Numbers with the same keys are equal if the text with them is. -/
theorem numberMembers_inj (xs ys : List (CStr × Nat)) (hkeys : xs.map Prod.fst = ys.map Prod.fst)
    {ms ms' : List (CStr × Item Json)} {c : UInt8} (hc : isNumberChar c = false) {x y : Bytes}
    (h : moreMembers (numberMembers xs ++ ms) ++ c :: x =
      moreMembers (numberMembers ys ++ ms') ++ c :: y) :
    xs = ys ∧ moreMembers ms ++ c :: x = moreMembers ms' ++ c :: y := by
  induction xs generalizing ys with
  | nil =>
    obtain rfl : ys = [] := List.map_eq_nil_iff.1 hkeys.symm
    exact ⟨rfl, h⟩
  | cons u xs ih =>
    obtain ⟨key, m⟩ := u
    cases ys with
    | nil => exact absurd hkeys (List.cons_ne_nil _ _)
    | cons v ys =>
      obtain ⟨key', n⟩ := v
      rw [List.map_cons, List.map_cons] at hkeys
      obtain ⟨hkey, htail⟩ := List.cons.inj hkeys
      obtain rfl : key = key' := hkey
      simp only [numberMembers, List.map_cons, List.cons_append, moreMembers_number,
        List.append_assoc, List.cons.injEq, true_and, List.append_cancel_left_eq] at h
      -- A number ends where its digits do, so equal texts carry equal numbers.
      obtain ⟨rfl, hrest⟩ :=
        natText_append_inj (stopsAt_moreMembers hc _ x) (stopsAt_moreMembers hc _ y) h
      obtain ⟨rfl, hms⟩ := ih _ htail hrest
      exact ⟨rfl, hms⟩

/-- An object of numbers. -/
theorem objMember_inj (xs ys : List (CStr × Nat)) (hne : xs ≠ [])
    (hkeys : xs.map Prod.fst = ys.map Prod.fst) {key : CStr} {ms ms' : List (CStr × Item Json)}
    {x y : Bytes} (h : moreMembers (objMember key (numberMembers xs) :: ms) ++ x =
      moreMembers (objMember key (numberMembers ys) :: ms') ++ y) :
    xs = ys ∧ moreMembers ms ++ x = moreMembers ms' ++ y := by
  cases xs with
  | nil => exact absurd rfl hne
  | cons u xs =>
    cases ys with
    | nil => exact absurd hkeys (List.cons_ne_nil _ _)
    | cons v ys =>
      simp only [numberMembers, List.map_cons, moreMembers_obj, List.cons_append, List.append_assoc,
        List.cons.injEq, true_and, List.append_cancel_left_eq] at h
      have hmore : moreMembers (numberMembers (u :: xs) ++ []) ++ rbrace :: (moreMembers ms ++ x) =
          moreMembers (numberMembers (v :: ys) ++ []) ++ rbrace :: (moreMembers ms' ++ y) := by
        simp only [List.append_nil, numberMembers, List.map_cons, moreMembers_cons, numberMember,
          List.cons_append, List.append_assoc]
        exact congrArg (comma :: ·) h
      obtain ⟨huv, hrest⟩ := numberMembers_inj _ _ hkeys (by decide) hmore
      exact ⟨huv, (List.cons.inj hrest).2⟩

/-! ## What is written -/

/-- Two ANN indexes agree on everything that is written for them. -/
structure Index.SameWritten (a b : Index) : Prop where
  name : orEmpty a.name = orEmpty b.name
  columnId : a.columnId = b.columnId
  predicate : a.predicate = b.predicate
  numbers : a.annNumbers = b.annNumbers

/-- Two indexes agree, after substituting defaults for zeros, on the tuning of their
    algorithm and quantization. The default for the number of subvectors is the
    server's. -/
@[mk_iff]
structure Index.AgreeTuning (subvectors : Nat) (a b : Index) : Prop where
  annM : orDefault 16 a.annM.toNat = orDefault 16 b.annM.toNat
  annEfConstruction : orDefault 64 a.annEfConstruction.toNat =
    orDefault 64 b.annEfConstruction.toNat
  annEfSearch : orDefault 64 a.annEfSearch.toNat = orDefault 64 b.annEfSearch.toNat
  diskann : a.annAlgorithm = .diskann →
    orDefault 64 a.diskannR.toNat = orDefault 64 b.diskannR.toNat ∧
    orDefault 128 a.diskannL.toNat = orDefault 128 b.diskannL.toNat ∧
    orDefault 8 a.diskannBeamWidth.toNat = orDefault 8 b.diskannBeamWidth.toNat ∧
    orDefault 120 a.diskannAlpha.toNat = orDefault 120 b.diskannAlpha.toNat
  ivf : a.annAlgorithm = .ivf →
    orDefault 256 a.ivfNlist.toNat = orDefault 256 b.ivfNlist.toNat ∧
    orDefault 8 a.ivfNprobe.toNat = orDefault 8 b.ivfNprobe.toNat
  product : a.annQuantization = .product →
    orDefault subvectors a.pqNumSubvectors.toNat = orDefault subvectors b.pqNumSubvectors.toNat ∧
    orDefault 8 a.pqBits.toNat = orDefault 8 b.pqBits.toNat ∧
    orDefault 256000 a.pqTrainingSamples.toNat = orDefault 256000 b.pqTrainingSamples.toNat ∧
    orDefault 0x9E3779B97F4A7C15 a.pqSeed.toNat = orDefault 0x9E3779B97F4A7C15 b.pqSeed.toNat ∧
    orDefault 5 a.pqRerankFactor.toNat = orDefault 5 b.pqRerankFactor.toNat

/-- Two indexes agree on the two settings of product quantization that are not written. -/
def Index.SameSubvectors (subvectors : Nat) (a b : Index) : Prop :=
  orDefault subvectors a.pqNumSubvectors.toNat = orDefault subvectors b.pqNumSubvectors.toNat ∧
    orDefault 8 a.pqBits.toNat = orDefault 8 b.pqBits.toNat

variable {a b : Index}

/-- The numbers that are written, field by field. -/
theorem annNumbers_eq_iff (halg : a.annAlgorithm = b.annAlgorithm)
    (hq : a.annQuantization = b.annQuantization) :
    a.annNumbers = b.annNumbers ↔
      (orDefault 16 a.annM.toNat = orDefault 16 b.annM.toNat ∧
        orDefault 64 a.annEfConstruction.toNat = orDefault 64 b.annEfConstruction.toNat ∧
        orDefault 64 a.annEfSearch.toNat = orDefault 64 b.annEfSearch.toNat) ∧
      (a.annAlgorithm = .diskann →
        orDefault 64 a.diskannR.toNat = orDefault 64 b.diskannR.toNat ∧
        orDefault 128 a.diskannL.toNat = orDefault 128 b.diskannL.toNat ∧
        orDefault 8 a.diskannBeamWidth.toNat = orDefault 8 b.diskannBeamWidth.toNat ∧
        orDefault 120 a.diskannAlpha.toNat = orDefault 120 b.diskannAlpha.toNat) ∧
      (a.annAlgorithm = .ivf →
        orDefault 256 a.ivfNlist.toNat = orDefault 256 b.ivfNlist.toNat ∧
        orDefault 8 a.ivfNprobe.toNat = orDefault 8 b.ivfNprobe.toNat) ∧
      (a.annQuantization = .product →
        orDefault 256000 a.pqTrainingSamples.toNat = orDefault 256000 b.pqTrainingSamples.toNat ∧
        orDefault 0x9E3779B97F4A7C15 a.pqSeed.toNat = orDefault 0x9E3779B97F4A7C15 b.pqSeed.toNat ∧
        orDefault 5 a.pqRerankFactor.toNat = orDefault 5 b.pqRerankFactor.toNat) := by
  rw [Index.annNumbers, Index.annNumbers, ← halg, ← hq]
  by_cases hproduct : a.annQuantization = .product
  · cases a.annAlgorithm with
    | diskann | ivf | hnsw | other => simp [hproduct, and_assoc]
  · cases a.annAlgorithm with
    | diskann | ivf | hnsw | other => simp [hproduct, and_assoc]

/-- The numbers that are written, and the two that are not, are the whole tuning. -/
theorem agreeTuning_iff_annNumbers (halg : a.annAlgorithm = b.annAlgorithm)
    (hq : a.annQuantization = b.annQuantization) (subvectors : Nat) :
    a.AgreeTuning subvectors b ↔ a.annNumbers = b.annNumbers ∧
      (a.annQuantization = .product → a.SameSubvectors subvectors b) := by
  rw [Index.agreeTuning_iff, annNumbers_eq_iff halg hq, Index.SameSubvectors]
  tauto

/-- The text of the tuning of the algorithm tells its numbers. -/
theorem tuningMembers_inj (halg : a.annAlgorithm = b.annAlgorithm)
    {ms ms' : List (CStr × Item Json)} {x y : Bytes}
    (h : moreMembers (a.tuningMembers ++ ms) ++ x = moreMembers (b.tuningMembers ++ ms') ++ y) :
    (a.annAlgorithm = .diskann →
        orDefault 64 a.diskannR.toNat = orDefault 64 b.diskannR.toNat ∧
        orDefault 128 a.diskannL.toNat = orDefault 128 b.diskannL.toNat ∧
        orDefault 8 a.diskannBeamWidth.toNat = orDefault 8 b.diskannBeamWidth.toNat ∧
        orDefault 120 a.diskannAlpha.toNat = orDefault 120 b.diskannAlpha.toNat) ∧
      (a.annAlgorithm = .ivf →
        orDefault 256 a.ivfNlist.toNat = orDefault 256 b.ivfNlist.toNat ∧
        orDefault 8 a.ivfNprobe.toNat = orDefault 8 b.ivfNprobe.toNat) ∧
      moreMembers ms ++ x = moreMembers ms' ++ y := by
  rw [Index.tuningMembers, Index.tuningMembers, ← halg] at h
  -- The two algorithms with options of their own, and the others.
  cases halg' : a.annAlgorithm with
  | diskann =>
    rw [halg'] at h
    obtain ⟨hnumbers, hrest⟩ := objMember_inj
      [(.lit "r", orDefault 64 a.diskannR.toNat), (.lit "l", orDefault 128 a.diskannL.toNat),
        (.lit "beam_width", orDefault 8 a.diskannBeamWidth.toNat),
        (.lit "alpha", orDefault 120 a.diskannAlpha.toNat)]
      [(.lit "r", orDefault 64 b.diskannR.toNat), (.lit "l", orDefault 128 b.diskannL.toNat),
        (.lit "beam_width", orDefault 8 b.diskannBeamWidth.toNat),
        (.lit "alpha", orDefault 120 b.diskannAlpha.toNat)] (List.cons_ne_nil _ _) rfl h
    refine ⟨fun _ => by simpa using hnumbers, fun h => absurd h (by decide), hrest⟩
  | ivf =>
    rw [halg'] at h
    obtain ⟨hnumbers, hrest⟩ := objMember_inj
      [(.lit "nlist", orDefault 256 a.ivfNlist.toNat),
        (.lit "nprobe", orDefault 8 a.ivfNprobe.toNat)]
      [(.lit "nlist", orDefault 256 b.ivfNlist.toNat),
        (.lit "nprobe", orDefault 8 b.ivfNprobe.toNat)] (List.cons_ne_nil _ _) rfl h
    refine ⟨fun h => absurd h (by decide), fun _ => by simpa using hnumbers, hrest⟩
  | hnsw | other =>
    rw [halg'] at h
    exact ⟨fun h => absurd h (by decide), fun h => absurd h (by decide), h⟩

/-- The text of the tuning of the quantization tells its numbers. -/
theorem productMembers_inj (hq : a.annQuantization = b.annQuantization) {x y : Bytes}
    (h : moreMembers a.productMembers ++ x = moreMembers b.productMembers ++ y) :
    (a.annQuantization = .product →
        orDefault 256000 a.pqTrainingSamples.toNat = orDefault 256000 b.pqTrainingSamples.toNat ∧
        orDefault 0x9E3779B97F4A7C15 a.pqSeed.toNat = orDefault 0x9E3779B97F4A7C15 b.pqSeed.toNat ∧
        orDefault 5 a.pqRerankFactor.toNat = orDefault 5 b.pqRerankFactor.toNat) ∧ x = y := by
  rw [Index.productMembers, Index.productMembers, ← hq] at h
  split_ifs at h with hproduct
  · obtain ⟨hnumbers, hrest⟩ := objMember_inj
      [(.lit "training_samples", orDefault 256000 a.pqTrainingSamples.toNat),
        (.lit "seed", orDefault 0x9E3779B97F4A7C15 a.pqSeed.toNat),
        (.lit "rerank_factor", orDefault 5 a.pqRerankFactor.toNat)]
      [(.lit "training_samples", orDefault 256000 b.pqTrainingSamples.toNat),
        (.lit "seed", orDefault 0x9E3779B97F4A7C15 b.pqSeed.toNat),
        (.lit "rerank_factor", orDefault 5 b.pqRerankFactor.toNat)] (List.cons_ne_nil _ _) rfl h
    exact ⟨fun _ => by simpa using hnumbers, hrest⟩
  · exact ⟨fun h => absurd h hproduct, h⟩

/-- The text of the options of an ANN index tells its numbers. -/
theorem annMembers_inj (halg : a.annAlgorithm = b.annAlgorithm)
    (hq : a.annQuantization = b.annQuantization) {x y : Bytes}
    (h : moreMembers a.annMembers ++ rbrace :: x = moreMembers b.annMembers ++ rbrace :: y) :
    a.annNumbers = b.annNumbers ∧ x = y := by
  obtain ⟨hann, hrest⟩ := numberMembers_inj [(.lit "m", orDefault 16 a.annM.toNat),
      (.lit "ef_construction", orDefault 64 a.annEfConstruction.toNat),
      (.lit "ef_search", orDefault 64 a.annEfSearch.toNat)]
    [(.lit "m", orDefault 16 b.annM.toNat),
      (.lit "ef_construction", orDefault 64 b.annEfConstruction.toNat),
      (.lit "ef_search", orDefault 64 b.annEfSearch.toNat)] rfl (by decide) h
  have halgorithm : a.algorithmMembers = b.algorithmMembers := by
    rw [Index.algorithmMembers, Index.algorithmMembers, halg]
  rw [moreMembers_str, moreMembers_str, hq, halgorithm] at hrest
  simp only [List.cons_append, List.append_assoc, List.cons.injEq, true_and,
    List.append_cancel_left_eq] at hrest
  rw [moreMembers_append b.algorithmMembers, moreMembers_append b.algorithmMembers,
    List.append_assoc, List.append_assoc] at hrest
  obtain ⟨hdiskann, hivf, hrest⟩ := tuningMembers_inj halg (List.append_cancel_left hrest)
  obtain ⟨hproduct, hrest⟩ := productMembers_inj hq hrest
  exact ⟨(annNumbers_eq_iff halg hq).2 ⟨by simpa using hann, hdiskann, hivf, hproduct⟩,
    (List.cons.inj hrest).2⟩

/-- What is in front of the options of an index tells its predicate. -/
theorem predicateMembers_inj {p q : Option CStr} {ms ms' : List (CStr × Item Json)} {x y : Bytes}
    (h : moreMembers (predicateMembers p ++ [objMember (.lit "options") ms]) ++ x =
      moreMembers (predicateMembers q ++ [objMember (.lit "options") ms']) ++ y) :
    p = q ∧ moreMembers [objMember (.lit "options") ms] ++ x =
      moreMembers [objMember (.lit "options") ms'] ++ y := by
  cases p with
  | none =>
    cases q with
    | none => exact ⟨rfl, h⟩
    | some t =>
      -- The keys differ in their first character.
      have hkey : some (111 : UInt8) = some 112 := congrArg (fun l => l[2]?) h
      exact absurd hkey (by decide)
  | some s =>
    cases q with
    | none =>
      have hkey : some (112 : UInt8) = some 111 := congrArg (fun l => l[2]?) h
      exact absurd hkey (by decide)
    | some t =>
      simp only [predicateMembers, List.cons_append, List.nil_append, moreMembers_str,
        List.append_assoc, List.cons.injEq, true_and, List.append_cancel_left_eq] at h
      obtain ⟨rfl, hrest⟩ := ofStr_append_inj h
      exact ⟨rfl, hrest⟩

/-- The text of an ANN index whose numbers fit. -/
theorem flatten_annIndex {index : Index} (hkind : index.kind = .ann) (hfits : index.Fits) :
    (jsonSerializeIndex index).flatten = lbrace :: (keyText (.lit "name") ++
      ((Json.ofStr (orEmpty index.name)).text ++ comma :: (keyText (.lit "column_id") ++
        (intText index.columnId.toInt ++ comma :: (keyText (.lit "kind") ++
          ((Json.ofStr (.lit "ann")).text ++ (moreMembers (predicateMembers index.predicate ++
            [objMember (.lit "options") [objMember (.lit "ann") index.annMembers]]) ++
              [rbrace]))))))) := by
  have hid : (Json.ofInt64 index.columnId).text = intText index.columnId.toInt := rfl
  rw [flatten_jsonSerializeIndex hfits, Index.members, Index.optionsMembers, hkind, strMember,
    Json.text_ofMembers, moreMembers_cons, moreMembers_str]
  simp only [itemText_plainItem, hid, List.cons_append, List.append_assoc]
  rfl

/-- The text of an object behind its first bracket, as members behind another one. -/
theorem text_ofMembers_eq (ms : List (CStr × Item Json)) (hne : ms ≠ []) :
    ∃ t, (Json.ofMembers ms).text = lbrace :: t ∧ moreMembers ms ++ [rbrace] = comma :: t := by
  cases ms with
  | nil => exact absurd rfl hne
  | cons m ms => exact ⟨_, Json.text_ofMembers m.1 m.2 ms, by simp [moreMembers]⟩

/-- The text of the options of an ANN index tells its numbers. -/
theorem annOptions_inj (halg : a.annAlgorithm = b.annAlgorithm)
    (hq : a.annQuantization = b.annQuantization) {x y : Bytes}
    (h : moreMembers [objMember (.lit "options") [objMember (.lit "ann") a.annMembers]] ++ x =
      moreMembers [objMember (.lit "options") [objMember (.lit "ann") b.annMembers]] ++ y) :
    a.annNumbers = b.annNumbers := by
  obtain ⟨t, ht, htmore⟩ := text_ofMembers_eq a.annMembers (List.cons_ne_nil _ _)
  obtain ⟨u, hu, humore⟩ := text_ofMembers_eq b.annMembers (List.cons_ne_nil _ _)
  rw [moreMembers_obj, moreMembers_obj, objMember, objMember, itemText_plainItem,
    itemText_plainItem, ht, hu] at h
  simp only [List.cons_append, List.append_assoc, List.cons.injEq, true_and,
    List.append_cancel_left_eq] at h
  refine (annMembers_inj halg hq (x := moreMembers [] ++ rbrace :: (moreMembers [] ++ x))
    (y := moreMembers [] ++ rbrace :: (moreMembers [] ++ y)) ?_).1
  rw [List.append_cons (moreMembers a.annMembers), htmore,
    List.append_cons (moreMembers b.annMembers),
    humore]
  exact congrArg (comma :: ·) h

/-- What is written for the options is determined by what is to be written. -/
theorem annMembers_eq (halg : a.annAlgorithm = b.annAlgorithm)
    (hq : a.annQuantization = b.annQuantization) (h : a.annNumbers = b.annNumbers) :
    a.annMembers = b.annMembers := by
  obtain ⟨⟨hm, hc, hs⟩, hdiskann, hivf, hproduct⟩ := (annNumbers_eq_iff halg hq).1 h
  have halgorithm : a.algorithmMembers = b.algorithmMembers := by
    rw [Index.algorithmMembers, Index.algorithmMembers, halg]
  have htuning : a.tuningMembers = b.tuningMembers := by
    rw [Index.tuningMembers, Index.tuningMembers, ← halg]
    cases halg' : a.annAlgorithm with
    | diskann =>
      obtain ⟨hr, hl, hb, halpha⟩ := hdiskann halg'
      simp only [Index.diskannMember, hr, hl, hb, halpha]
    | ivf =>
      obtain ⟨hnlist, hnprobe⟩ := hivf halg'
      simp only [Index.ivfMember, hnlist, hnprobe]
    | hnsw | other => rfl
  have hproducts : a.productMembers = b.productMembers := by
    rw [Index.productMembers, Index.productMembers, ← hq]
    split_ifs with hq'
    · obtain ⟨ht, hseed, hrerank⟩ := hproduct hq'
      simp only [Index.productMember, ht, hseed, hrerank]
    · rfl
  rw [Index.annMembers, Index.annMembers, hm, hc, hs, hq, halgorithm, htuning, hproducts]

/-- Two ANN indexes with the same algorithm and quantization are written alike exactly
    if they agree on everything that is written. -/
theorem jsonSerializeIndex_eq_iff (ha : a.kind = .ann) (hb : b.kind = .ann)
    (halg : a.annAlgorithm = b.annAlgorithm) (hq : a.annQuantization = b.annQuantization)
    (hafits : a.Fits) (hbfits : b.Fits) :
    (jsonSerializeIndex a).flatten = (jsonSerializeIndex b).flatten ↔ a.SameWritten b := by
  rw [flatten_annIndex ha hafits, flatten_annIndex hb hbfits]
  simp only [List.cons.injEq, true_and, List.append_cancel_left_eq]
  constructor
  · intro h
    obtain ⟨hname, h⟩ := ofStr_append_inj h
    obtain ⟨hid, h⟩ := intText_append_inj (stopsAt_cons rfl _) (stopsAt_cons rfl _)
      (List.append_cancel_left (List.cons.inj h).2)
    obtain ⟨hpredicate, h⟩ := predicateMembers_inj
      (List.append_cancel_left (List.append_cancel_left (List.cons.inj h).2))
    exact ⟨hname, Int64.toInt_inj.1 hid, hpredicate, annOptions_inj halg hq h⟩
  · rintro ⟨hname, hid, hpredicate, hnumbers⟩
    rw [hname, hid, hpredicate, annMembers_eq halg hq hnumbers]

/-- Two ANN indexes that are written alike agree on their tuning exactly if, whenever
    they agree on everything that is written and use product quantization, they agree
    on the number of subvectors and on the bits as well. -/
theorem jsonSerializeIndex_keeps_iff (ha : a.kind = .ann) (hb : b.kind = .ann)
    (halg : a.annAlgorithm = b.annAlgorithm) (hq : a.annQuantization = b.annQuantization)
    (hafits : a.Fits) (hbfits : b.Fits) (subvectors : Nat) :
    ((jsonSerializeIndex a).flatten = (jsonSerializeIndex b).flatten → a.AgreeTuning subvectors b) ↔
      (a.SameWritten b → a.annQuantization = .product → a.SameSubvectors subvectors b) := by
  rw [jsonSerializeIndex_eq_iff ha hb halg hq hafits hbfits,
    agreeTuning_iff_annNumbers halg hq subvectors]
  exact ⟨fun h hsame => (h hsame).2, fun h hsame => ⟨hsame.numbers, h hsame⟩⟩

/-- An ANN index with product quantization into this number of subvectors. -/
def productIndex (m : UInt64) (subvectors : UInt16) : Index :=
  { annIndex m 64 64 with annQuantization := .product, pqNumSubvectors := subvectors }

theorem productIndex_fits (m : UInt64) (subvectors : UInt16) :
    (productIndex m subvectors).Fits where
  ann := fun _ => by
    have hm : digits (orDefault 16 m.toNat) ≤ 20 :=
      digits_orDefault_le (by norm_num) (lt_trans m.toNat_lt (by norm_num))
    have hef : digits (orDefault 64 (64 : UInt64).toNat) = 2 := by decide
    simp only [productIndex, annIndex, hef]
    omega
  diskann := fun _ h => absurd h (by decide : AnnAlgorithm.hnsw ≠ .diskann)
  product := fun _ _ =>
    (by decide : digits 256000 + digits 0x9E3779B97F4A7C15 + digits 5 ≤ 38)

/-- A zero and the default it stands for are the same setting. -/
theorem productIndex_keeps :
    (jsonSerializeIndex (productIndex 0 32)).flatten =
      (jsonSerializeIndex (productIndex 16 32)).flatten ∧
      (productIndex 0 32).AgreeTuning 0 (productIndex 16 32) := by
  have hkeeps := jsonSerializeIndex_keeps_iff (a := productIndex 0 32)
    (b := productIndex 16 32) rfl rfl
    rfl rfl (productIndex_fits 0 32) (productIndex_fits 16 32) 0
  exact ⟨rfl, hkeeps.2 (fun _ _ => ⟨rfl, rfl⟩) rfl⟩

/-- The number of subvectors is lost. -/
theorem productIndex_lost : (productIndex 16 32).Fits ∧ (productIndex 16 16).Fits ∧
    (jsonSerializeIndex (productIndex 16 32)).flatten =
      (jsonSerializeIndex (productIndex 16 16)).flatten ∧
    ∀ subvectors, ¬(productIndex 16 32).AgreeTuning subvectors (productIndex 16 16) := by
  refine ⟨productIndex_fits 16 32, productIndex_fits 16 16, rfl, fun subvectors h => ?_⟩
  have heq : (32 : Nat) = 16 := (h.product rfl).1
  exact absurd heq (by decide)

end MongrelDB
