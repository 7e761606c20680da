import MongrelDB.Lib.Scan
import MongrelDB.Schema.Written

/-!
# Indexes that are cut off

Numbers that do not fit into the buffer they are formatted into are cut off, and the
text around them with them: what is written for such an index is no text of JSON, so
that an index is written with all of its numbers exactly if they fit
(`jsonSerializeIndex_written_iff`).
-/

namespace MongrelDB

open Ascii

/-! ## Scans of tokens -/

theorem isNumTok_of_digits {t : Bytes} (hne : t ≠ []) (h : t.all isDigit = true) :
    isNumTok t = true := by
  cases t with
  | nil => exact absurd rfl hne
  | cons c t =>
    rw [List.all_cons, Bool.and_eq_true] at h
    rw [isNumTok, startsNumber_of_isDigit c h.1, all_isNumberChar_of_isDigits h.2]
    rfl

theorem natText_ne_nil (n : Nat) : natText n ≠ [] := fun h => by
  have hnat := isNatText_natText n
  rw [h] at hnat
  exact absurd hnat Bool.false_ne_true

/-- A number, or the first digits of one. -/
theorem scan_take_natText (st : List Bool) (n : Nat) {k : Nat} (hk : 0 < k) :
    scan ⟨.value, st⟩ ((natText n).take k) = some ⟨.num, st⟩ := by
  refine scan_number st (isNumTok_of_digits ?_ ?_)
  · exact fun h => (List.take_eq_nil_iff.1 h).elim (fun h => hk.ne' h) (natText_ne_nil n)
  · exact List.all_eq_true.2 fun c hc =>
      List.all_eq_true.1 (all_isDigit_natText n) c (List.mem_of_mem_take hc)

theorem scan_natText (st : List Bool) (n : Nat) :
    scan ⟨.value, st⟩ (natText n) = some ⟨.num, st⟩ :=
  scan_number st (isNumTok_of_digits (natText_ne_nil n) (all_isDigit_natText n))

/-- What is cut off behind `t` leaves `t`, and a part of `u`. -/
theorem numberText_append {t : Bytes} (ht : t.length ≤ 95) (u : Bytes) :
    numberText (t ++ u) = t ++ u.take (95 - t.length) := by
  change (t ++ u).take 95 = _
  rw [List.take_append, List.take_of_length_le ht]

/-! ## The numbers of an ANN index -/

/-- What is behind the last of the numbers. -/
def quantizationKey : Bytes := ascii ",\"quantization\":"

/-- Numbers that do not fit end with a digit, or with a part of what is behind them. -/
theorem scan_annText_cut {index : Index} (hcut : 95 < (annText index).length) (st : List Bool) :
    ∃ k < 16, scan ⟨.firstKey, true :: st⟩ (numberText (annText index)) =
      scan ⟨.num, true :: st⟩ (quantizationKey.take k) := by
  obtain ⟨m, hm⟩ : ∃ m, m = orDefault 16 index.annM.toNat := ⟨_, rfl⟩
  obtain ⟨e, he⟩ : ∃ e, e = orDefault 64 index.annEfConstruction.toNat := ⟨_, rfl⟩
  obtain ⟨s, hs⟩ : ∃ s, s = orDefault 64 index.annEfSearch.toNat := ⟨_, rfl⟩
  have hmlen : (natText m).length ≤ 20 := hm ▸
    digits_orDefault_le (by norm_num) (lt_trans index.annM.toNat_lt (by norm_num))
  have helen : (natText e).length ≤ 20 := he ▸
    digits_orDefault_le (by norm_num) (lt_trans index.annEfConstruction.toNat_lt (by norm_num))
  have htext : annText index = (ascii "\"m\":" ++ (natText m ++ (ascii ",\"ef_construction\":" ++
      (natText e ++ ascii ",\"ef_search\":")))) ++ (natText s ++ quantizationKey) := by
    simp [annText, quantizationKey, hm, he, hs]
  have hlen : (ascii "\"m\":" ++ (natText m ++ (ascii ",\"ef_construction\":" ++
      (natText e ++ ascii ",\"ef_search\":")))).length =
      (natText m).length + (natText e).length + 36 := by
    have h₁ : (ascii "\"m\":").length = 4 := rfl
    have h₂ : (ascii ",\"ef_construction\":").length = 19 := rfl
    have h₃ : (ascii ",\"ef_search\":").length = 13 := rfl
    simp only [List.length_append, h₁, h₂, h₃]
    omega
  have hkey : quantizationKey.length = 16 := rfl
  rw [htext, List.length_append, hlen, List.length_append, hkey] at hcut
  refine ⟨95 - ((natText m).length + (natText e).length + 36) - (natText s).length, by omega, ?_⟩
  have h₁ : scan ⟨.firstKey, true :: st⟩ (ascii "\"m\":") = some ⟨.value, true :: st⟩ := rfl
  have h₂ : scan ⟨.num, true :: st⟩ (ascii ",\"ef_construction\":") =
    some ⟨.value, true :: st⟩ := rfl
  have h₃ : scan ⟨.num, true :: st⟩ (ascii ",\"ef_search\":") = some ⟨.value, true :: st⟩ := rfl
  rw [htext, numberText_append (by rw [hlen]; omega), hlen, List.take_append]
  simp only [List.append_assoc]
  rw [scan_append_of h₁, scan_append_of (scan_natText _ m), scan_append_of h₂,
    scan_append_of (scan_natText _ e), scan_append_of h₃,
    scan_append_of (scan_take_natText _ s (by omega))]

/-- The name of the quantization behind cut off numbers is rejected. -/
theorem scan_quantization_cut (q : AnnQuantization) {k : Nat} (hk : k < 16) {c : UInt8}
    (hc : c = comma ∨ c = rbrace) :
    scan ⟨.num, [true, true, true]⟩
      (quantizationKey.take k ++ ((Json.ofStr (annQuantizationName q)).text ++ [c])) = none := by
  have hall : ∀ k < 16, ∀ c ∈ [comma, rbrace], ∀ q ∈ [AnnQuantization.dense, .product, .binarySign],
      scan ⟨.num, [true, true, true]⟩
        (quantizationKey.take k ++ ((Json.ofStr (annQuantizationName q)).text ++ [c])) = none := by
    decide +kernel
  have hq : annQuantizationName q ∈
      [AnnQuantization.dense, .product, .binarySign].map annQuantizationName := by
    cases q <;> decide
  obtain ⟨q', hq', hname⟩ := List.mem_map.1 hq
  rw [← hname]
  exact hall k hk c (by rcases hc with rfl | rfl <;> decide) q' hq'

/-! ## The tuning -/

/-- The modes behind the tuning of DiskANN that is cut off. -/
def cutModes : List ScanMode := [.num, .key, .str true, .colon, .value]

/-- A part of the last key and number of an object: its mode is one of these. -/
theorem scan_cut_last {key : Bytes} {st : List Bool} {j : Nat} {modes : List ScanMode}
    (hnum : ScanMode.num ∈ modes)
    (hkey : ∀ i, j ≤ i → i ≤ key.length → ∃ m ∈ modes, scan ⟨.num, st⟩ (key.take i) = some ⟨m, st⟩)
    (hlast : scan ⟨.num, st⟩ key = some ⟨.value, st⟩)
    (n : Nat) {i : Nat} (hji : j ≤ i) (hi : i < key.length + digits n + 1) :
    ∃ m ∈ modes, scan ⟨.num, st⟩ ((key ++ (natText n ++ [rbrace])).take i) = some ⟨m, st⟩ := by
  rw [List.take_append]
  by_cases hle : i ≤ key.length
  · obtain ⟨m, hm, hscan⟩ := hkey i hji hle
    refine ⟨m, hm, ?_⟩
    rw [Nat.sub_eq_zero_of_le hle, List.take_zero, List.append_nil, hscan]
  · -- The number has begun, and the bracket is missing.
    refine ⟨.num, hnum, ?_⟩
    rw [digits] at hi
    rw [List.take_of_length_le (by omega), scan_append_of hlast, List.take_append,
      Nat.sub_eq_zero_of_le (by omega : i - key.length ≤ (natText n).length), List.take_zero,
      List.append_nil]
    exact scan_take_natText st n (by omega)

/-- The tuning of DiskANN, up to its third number. -/
theorem scan_diskannHead (r l b : Nat) (rest : Bytes) :
    scan ⟨.done, [true, true, true]⟩ (ascii ",\"diskann\":\x7b\"r\":" ++ (natText r ++
        (ascii ",\"l\":" ++ (natText l ++ (ascii ",\"beam_width\":" ++ (natText b ++ rest)))))) =
      scan ⟨.num, [true, true, true, true]⟩ rest := by
  have h₁ : scan ⟨.done, [true, true, true]⟩ (ascii ",\"diskann\":\x7b\"r\":") =
      some ⟨.value, [true, true, true, true]⟩ := rfl
  have h₂ : scan ⟨.num, [true, true, true, true]⟩ (ascii ",\"l\":") =
      some ⟨.value, [true, true, true, true]⟩ := rfl
  have h₃ : scan ⟨.num, [true, true, true, true]⟩ (ascii ",\"beam_width\":") =
      some ⟨.value, [true, true, true, true]⟩ := rfl
  rw [scan_append_of h₁, scan_append_of (scan_natText _ r), scan_append_of h₂,
    scan_append_of (scan_natText _ l), scan_append_of h₃, scan_append_of (scan_natText _ b)]

/-- The tuning of product quantization, up to its second number. -/
theorem scan_productHead {m : ScanMode} (hm : m.isDone = true) (st : List Bool) (t s : Nat)
    (rest : Bytes) :
    scan ⟨m, true :: st⟩ (ascii ",\"product\":\x7b\"training_samples\":" ++ (natText t ++
        (ascii ",\"seed\":" ++ (natText s ++ rest)))) =
      scan ⟨.num, true :: true :: st⟩ rest := by
  have h₁ : scan ⟨m, true :: st⟩ (ascii ",\"product\":\x7b\"training_samples\":") =
      some ⟨.value, true :: true :: st⟩ :=
    (scan_comma hm true st (ascii "\"product\":\x7b\"training_samples\":")).trans rfl
  have h₂ : scan ⟨.num, true :: true :: st⟩ (ascii ",\"seed\":") =
      some ⟨.value, true :: true :: st⟩ := rfl
  rw [scan_append_of h₁, scan_append_of (scan_natText _ t), scan_append_of h₂,
    scan_append_of (scan_natText _ s)]

/-- Tuning of DiskANN that does not fit leaves a bracket open. -/
theorem scan_diskannText_cut {index : Index} (hcut : 95 < (diskannText index).length) :
    ∃ m ∈ cutModes, scan ⟨.done, [true, true, true]⟩ (numberText (diskannText index)) =
      some ⟨m, [true, true, true, true]⟩ := by
  obtain ⟨r, hr⟩ : ∃ r, r = orDefault 64 index.diskannR.toNat := ⟨_, rfl⟩
  obtain ⟨l, hl⟩ : ∃ l, l = orDefault 128 index.diskannL.toNat := ⟨_, rfl⟩
  obtain ⟨b, hb⟩ : ∃ b, b = orDefault 8 index.diskannBeamWidth.toNat := ⟨_, rfl⟩
  have hrlen : (natText r).length ≤ 20 := hr ▸
    digits_orDefault_le (by norm_num) (lt_trans index.diskannR.toNat_lt (by norm_num))
  have hllen : (natText l).length ≤ 20 := hl ▸
    digits_orDefault_le (by norm_num) (lt_trans index.diskannL.toNat_lt (by norm_num))
  have hblen : (natText b).length ≤ 20 := hb ▸
    digits_orDefault_le (by norm_num) (lt_trans index.diskannBeamWidth.toNat_lt (by norm_num))
  have htext : diskannText index = (ascii ",\"diskann\":\x7b\"r\":" ++ (natText r ++
      (ascii ",\"l\":" ++ (natText l ++ (ascii ",\"beam_width\":" ++ natText b))))) ++
      (ascii ",\"alpha\":" ++ (natText (orDefault 120 index.diskannAlpha.toNat) ++ [rbrace])) := by
    simp [diskannText, hr, hl, hb]
  have hlen : (ascii ",\"diskann\":\x7b\"r\":" ++ (natText r ++
      (ascii ",\"l\":" ++ (natText l ++ (ascii ",\"beam_width\":" ++ natText b))))).length =
      (natText r).length + (natText l).length + (natText b).length + 35 := by
    have h₁ : (ascii ",\"diskann\":\x7b\"r\":").length = 16 := rfl
    have h₂ : (ascii ",\"l\":").length = 5 := rfl
    have h₃ : (ascii ",\"beam_width\":").length = 14 := rfl
    simp only [List.length_append, h₁, h₂, h₃]
    omega
  have halpha : (ascii ",\"alpha\":").length = 9 := rfl
  rw [htext, List.length_append, hlen, List.length_append, List.length_append, halpha,
    List.length_singleton] at hcut
  have hmodes : ∀ i < 10, ∃ m ∈ cutModes,
      scan ⟨.num, [true, true, true, true]⟩ ((ascii ",\"alpha\":").take i) =
        some ⟨m, [true, true, true, true]⟩ := by decide
  have hlast : scan ⟨.num, [true, true, true, true]⟩ (ascii ",\"alpha\":") =
      some ⟨.value, [true, true, true, true]⟩ := rfl
  obtain ⟨m, hm, hscan⟩ := scan_cut_last (j := 0) (by decide)
    (fun i _ hi => hmodes i (by rw [halpha] at hi; omega)) hlast
    (orDefault 120 index.diskannAlpha.toNat)
    (i := 95 - ((natText r).length + (natText l).length + (natText b).length + 35)) (Nat.zero_le _)
    (by rw [halpha, digits]; omega)
  refine ⟨m, hm, ?_⟩
  rw [htext, numberText_append (by rw [hlen]; omega), hlen]
  simp only [List.append_assoc]
  rw [scan_diskannHead]
  simpa only [List.append_assoc] using hscan

/-- Tuning of product quantization that does not fit leaves a bracket open. -/
theorem scan_productText_cut {index : Index} (hcut : 95 < (productText index).length) {m : ScanMode}
    (hm : m.isDone = true) (st : List Bool) :
    ∃ m' ∈ [ScanMode.num, .colon, .value],
      scan ⟨m, true :: st⟩ (numberText (productText index)) = some ⟨m', true :: true :: st⟩ := by
  -- The numbers are named, so that `omega` sees their lengths only.
  obtain ⟨t, ht⟩ : ∃ t, t = orDefault 256000 index.pqTrainingSamples.toNat := ⟨_, rfl⟩
  obtain ⟨s, hs⟩ : ∃ s, s = orDefault 0x9E3779B97F4A7C15 index.pqSeed.toNat := ⟨_, rfl⟩
  have htlen : (natText t).length ≤ 20 := ht ▸
    digits_orDefault_le (by norm_num) (lt_trans index.pqTrainingSamples.toNat_lt (by norm_num))
  have hslen : (natText s).length ≤ 20 := hs ▸
    digits_orDefault_le (by norm_num) (lt_trans index.pqSeed.toNat_lt (by norm_num))
  have htext : productText index = (ascii ",\"product\":\x7b\"training_samples\":" ++ (natText t ++
      (ascii ",\"seed\":" ++ natText s))) ++ (ascii ",\"rerank_factor\":" ++
        (natText (orDefault 5 index.pqRerankFactor.toNat) ++ [rbrace])) := by
    simp [productText, ht, hs]
  have hlen : (ascii ",\"product\":\x7b\"training_samples\":" ++ (natText t ++
      (ascii ",\"seed\":" ++ natText s))).length =
      (natText t).length + (natText s).length + 39 := by
    have h₁ : (ascii ",\"product\":\x7b\"training_samples\":").length = 31 := rfl
    have h₂ : (ascii ",\"seed\":").length = 8 := rfl
    simp only [List.length_append, h₁, h₂]
    omega
  have hrerank : (ascii ",\"rerank_factor\":").length = 17 := rfl
  rw [htext, List.length_append, hlen, List.length_append, List.length_append, hrerank,
    List.length_singleton] at hcut
  -- The numbers in front are short, so the cut falls into the last member.
  have hlast : scan ⟨.num, true :: true :: st⟩ (ascii ",\"rerank_factor\":") =
      some ⟨.value, true :: true :: st⟩ := rfl
  have hkey : scan ⟨.num, true :: true :: st⟩ ((ascii ",\"rerank_factor\":").take 16) =
      some ⟨.colon, true :: true :: st⟩ := rfl
  have hnum : ScanMode.num ∈ [ScanMode.num, .colon, .value] := by decide
  obtain ⟨m', hm', hscan⟩ := scan_cut_last (j := 16) hnum
    (fun i hi hi' => by
      rw [hrerank] at hi'
      rcases (by omega : i = 16 ∨ i = 17) with rfl | rfl
      · exact ⟨.colon, by decide, hkey⟩
      · exact ⟨.value, by decide, hlast⟩) hlast
    (orDefault 5 index.pqRerankFactor.toNat)
    (i := 95 - ((natText t).length + (natText s).length + 39)) (by omega)
    (by rw [hrerank, digits]; omega)
  refine ⟨m', hm', ?_⟩
  rw [htext, numberText_append (by rw [hlen]; omega), hlen]
  simp only [List.append_assoc]
  rw [scan_productHead hm]
  simpa only [List.append_assoc] using hscan

/-- Tuning of product quantization that fits is a member. -/
theorem scan_productText {index : Index} (hfits : (productText index).length ≤ 95) {m : ScanMode}
    (hm : m.isDone = true) (st : List Bool) :
    scan ⟨m, true :: st⟩ (numberText (productText index)) = some ⟨.done, true :: st⟩ := by
  have hlast : scan ⟨.num, true :: true :: st⟩ (ascii ",\"rerank_factor\":") =
      some ⟨.value, true :: true :: st⟩ := rfl
  rw [numberText_of_length hfits, productText, scan_productHead hm, scan_append_of hlast,
    scan_append_of (scan_natText _ _)]
  rfl

/-! ## What is rejected -/

/-- The brackets that are closed behind the options of an ANN index. -/
def closers : Bytes := [rbrace, rbrace, rbrace]

/-- With a bracket left open, the rest of an index is rejected. -/
theorem scans_cut_product {index : Index} {m : ScanMode} (hm : m ∈ cutModes) :
    scans ⟨m, [true, true, true, true]⟩ ((productAppends index).flatten ++ closers) = false := by
  rw [productAppends]
  split_ifs with hq
  · rw [List.flatten_singleton]
    by_cases hnum : m = .num
    · subst hnum
      by_cases hfits : (productText index).length ≤ 95
      · rw [scans_append_of (scan_productText hfits rfl _)]
        decide
      · obtain ⟨m', hm', hscan⟩ :=
          scan_productText_cut (by omega : 95 < (productText index).length) (m := .num) rfl
            [true, true, true]
        rw [scans_append_of hscan]
        exact (by decide : ∀ m' ∈ [ScanMode.num, .colon, .value],
          scans ⟨m', [true, true, true, true, true]⟩ closers = false) m' hm'
    · -- The key is none of those that are expected here.
      have hhead : ∃ u, numberText (productText index) = ascii ",\"p" ++ u := by
        have hsplit : ascii ",\"product\":\x7b\"training_samples\":" =
            ascii ",\"p" ++ ascii "roduct\":\x7b\"training_samples\":" := by decide
        rw [productText, hsplit, List.append_assoc]
        exact ⟨_, numberText_append (by decide) _⟩
      obtain ⟨u, hu⟩ := hhead
      rw [hu, List.append_assoc]
      have hnone : ∀ m ∈ cutModes, m ≠ .num →
          scan ⟨m, [true, true, true, true]⟩ (ascii ",\"p") = none := by decide
      exact scans_append_none (hnone m hm hnum) _
  · exact (by decide : ∀ m ∈ cutModes,
      scans ⟨m, [true, true, true, true]⟩ ([] ++ closers) = false) m hm

/-- The beginning of an index, up to its options. -/
theorem scans_index (index : Index) : scans ⟨.value, []⟩ (jsonSerializeIndex index).flatten =
    scans ⟨.done, [true]⟩ ((optionsAppends index).flatten ++ [rbrace]) := by
  have h₁ : scan ⟨.value, []⟩ (ascii "\x7b\"name\":") = some ⟨.value, [true]⟩ := rfl
  have h₂ : scan ⟨.done, [true]⟩ (ascii ",\"column_id\":") = some ⟨.value, [true]⟩ := rfl
  have h₃ : scan ⟨.num, [true]⟩ (ascii ",\"kind\":") = some ⟨.value, [true]⟩ := rfl
  have h₄ : scan ⟨.done, [true]⟩ (ascii ",\"predicate\":") = some ⟨.value, [true]⟩ := rfl
  have hid : scan ⟨.value, [true]⟩ (intText index.columnId.toInt) = some ⟨.num, [true]⟩ :=
    scan_number _ (isNumTok_of_isNumber (isNumber_of_intVal? (intVal?_intText _)))
  have hpredicate : scan ⟨.done, [true]⟩ (predicateAppends index.predicate).flatten =
      some ⟨.done, [true]⟩ := by
    cases index.predicate with
    | none => rfl
    | some predicate =>
      rw [predicateAppends, List.flatten_append, flatten_jsonEscape, List.flatten_singleton,
        scan_append_of h₄, scan_ofStr]
  simp only [jsonSerializeIndex, List.flatten_append, List.flatten_singleton, flatten_jsonEscape,
    numberText_columnId, List.append_assoc]
  rw [scans_append_of h₁, scans_append_of (scan_ofStr _ _), scans_append_of h₂, scans_append_of hid,
    scans_append_of h₃, scans_append_of (scan_ofStr _ _), scans_append_of hpredicate]

theorem scan_algorithmAppends (index : Index) :
    scan ⟨.done, [true, true, true]⟩ (algorithmAppends index).flatten =
      some ⟨.done, [true, true, true]⟩ := by
  have h : scan ⟨.done, [true, true, true]⟩ (ascii ",\"algorithm\":") =
      some ⟨.value, [true, true, true]⟩ := rfl
  rw [algorithmAppends]
  split_ifs
  · rw [List.flatten_append, flatten_jsonEscape, List.flatten_singleton, scan_append_of h,
      scan_ofStr]
  · rfl

/-- What is behind the quantization begins with a comma or a bracket. -/
theorem annTail_head (index : Index) : ∃ c u, (c = comma ∨ c = rbrace) ∧
    (algorithmAppends index).flatten ++ ((tuningAppends index).flatten ++
      ((productAppends index).flatten ++ closers)) = [c] ++ u := by
  have halgorithm : (algorithmAppends index).flatten.head? = none ∨
      (algorithmAppends index).flatten.head? = some comma := by
    rw [algorithmAppends]
    split_ifs
    · exact .inr rfl
    · exact .inl rfl
  have htuning : (tuningAppends index).flatten.head? = none ∨
      (tuningAppends index).flatten.head? = some comma := by
    rw [tuningAppends]
    cases index.annAlgorithm with
    | diskann => exact .inr rfl
    | ivf => exact .inr rfl
    | hnsw => exact .inl rfl
    | other => exact .inl rfl
  have hproduct : (productAppends index).flatten.head? = none ∨
      (productAppends index).flatten.head? = some comma := by
    rw [productAppends]
    split_ifs
    · exact .inr rfl
    · exact .inl rfl
  have hhead : ∀ t, t = (algorithmAppends index).flatten ++ ((tuningAppends index).flatten ++
      ((productAppends index).flatten ++ closers)) → ∃ c, (c = comma ∨ c = rbrace) ∧
        t.head? = some c := by
    rintro _ rfl
    simp only [List.head?_append]
    -- Each part is empty or begins with a comma, and the braces are behind them.
    rcases halgorithm with h₁ | h₁ <;> rcases htuning with h₂ | h₂ <;>
      rcases hproduct with h₃ | h₃ <;> rw [h₁, h₂, h₃]
    · exact ⟨rbrace, .inr rfl, rfl⟩
    all_goals exact ⟨comma, .inl rfl, rfl⟩
  obtain ⟨c, hc, hsome⟩ := hhead _ rfl
  obtain ⟨u, hu⟩ := List.head?_eq_some_iff.1 hsome
  exact ⟨c, u, hc, hu⟩

/-- The options of an ANN index, from its numbers on. -/
theorem scans_annAppends (index : Index) :
    scans ⟨.done, [true]⟩ ((annAppends index).flatten ++ [rbrace]) =
      scans ⟨.firstKey, [true, true, true]⟩ (numberText (annText index) ++
        ((Json.ofStr (annQuantizationName index.annQuantization)).text ++
          ((algorithmAppends index).flatten ++ ((tuningAppends index).flatten ++
            ((productAppends index).flatten ++ closers))))) := by
  have h : scan ⟨.done, [true]⟩ (ascii ",\"options\":\x7b\"ann\":\x7b") =
      some ⟨.firstKey, [true, true, true]⟩ := rfl
  have hclosers : ascii "\x7d\x7d" ++ [rbrace] = closers := by decide
  simp only [annAppends, List.flatten_append, List.flatten_cons, List.flatten_nil,
    flatten_jsonEscape,
    List.append_assoc, List.nil_append, hclosers]
  rw [scans_append_of h]

/-- Numbers that fit are followed by the quantization and the algorithm. -/
theorem scans_annText {index : Index} (hfits : (annText index).length ≤ 95) (u : Bytes) :
    scans ⟨.firstKey, [true, true, true]⟩ (numberText (annText index) ++
        ((Json.ofStr (annQuantizationName index.annQuantization)).text ++
          ((algorithmAppends index).flatten ++ u))) = scans ⟨.done, [true, true, true]⟩ u := by
  have h₁ : scan ⟨.firstKey, [true, true, true]⟩ (ascii "\"m\":") =
      some ⟨.value, [true, true, true]⟩ := rfl
  have h₂ : scan ⟨.num, [true, true, true]⟩ (ascii ",\"ef_construction\":") =
      some ⟨.value, [true, true, true]⟩ := rfl
  have h₃ : scan ⟨.num, [true, true, true]⟩ (ascii ",\"ef_search\":") =
      some ⟨.value, [true, true, true]⟩ := rfl
  have h₄ : scan ⟨.num, [true, true, true]⟩ (ascii ",\"quantization\":") =
      some ⟨.value, [true, true, true]⟩ := rfl
  rw [numberText_of_length hfits, annText]
  simp only [List.append_assoc]
  rw [scans_append_of h₁, scans_append_of (scan_natText _ _), scans_append_of h₂,
    scans_append_of (scan_natText _ _), scans_append_of h₃, scans_append_of (scan_natText _ _),
    scans_append_of h₄, scans_append_of (scan_ofStr _ _),
    scans_append_of (scan_algorithmAppends index)]

/-- Numbers of an ANN index that do not fit are rejected. -/
theorem scans_annText_cut {index : Index} (hcut : 95 < (annText index).length) :
    scans ⟨.done, [true]⟩ ((annAppends index).flatten ++ [rbrace]) = false := by
  obtain ⟨k, hk, hscan⟩ := scan_annText_cut hcut [true, true]
  obtain ⟨c, u, hc, hu⟩ := annTail_head index
  rw [scans_annAppends, hu, ← List.append_assoc, ← List.append_assoc]
  refine scans_append_none ?_ u
  rw [List.append_assoc, scan_append, hscan, ← scan_append]
  exact scan_quantization_cut index.annQuantization hk hc

/-- Tuning that fits is a member. -/
theorem scan_tuningAppends {index : Index}
    (hfits : index.annAlgorithm = .diskann → (diskannText index).length ≤ 95) :
    scan ⟨.done, [true, true, true]⟩ (tuningAppends index).flatten =
      some ⟨.done, [true, true, true]⟩ := by
  rw [tuningAppends]
  cases halg : index.annAlgorithm with
  | diskann =>
    have hlast : scan ⟨.num, [true, true, true, true]⟩ (ascii ",\"alpha\":") =
        some ⟨.value, [true, true, true, true]⟩ := rfl
    simp only [List.flatten_singleton]
    rw [numberText_of_length (hfits halg), diskannText, scan_diskannHead, scan_append_of hlast,
      scan_append_of (scan_natText _ _)]
    rfl
  | ivf =>
    have h₁ : scan ⟨.done, [true, true, true]⟩ (ascii ",\"ivf\":\x7b\"nlist\":") =
        some ⟨.value, [true, true, true, true]⟩ := rfl
    have h₂ : scan ⟨.num, [true, true, true, true]⟩ (ascii ",\"nprobe\":") =
        some ⟨.value, [true, true, true, true]⟩ := rfl
    simp only [List.flatten_singleton]
    rw [numberText_ivf, ivfText, scan_append_of h₁, scan_append_of (scan_natText _ _),
      scan_append_of h₂, scan_append_of (scan_natText _ _)]
    rfl
  | hnsw => rfl
  | other => rfl

/-- What is written for an index whose numbers do not fit is no text of JSON. -/
theorem Index.fits_of_isJsonText {index : Index}
    (h : IsJsonText (jsonSerializeIndex index).flatten) : index.Fits := by
  have hscans := h.scans
  rw [scans_index, optionsAppends] at hscans
  by_cases hkind : index.kind = .ann
  · rw [hkind] at hscans
    have hann : (annText index).length ≤ 95 := by
      by_contra hcut
      exact absurd (hscans.symm.trans (scans_annText_cut (by omega))) (by decide)
    rw [scans_annAppends, scans_annText hann] at hscans
    have hdiskann : index.annAlgorithm = .diskann → (diskannText index).length ≤ 95 := by
      intro halg
      by_contra hcut
      obtain ⟨m, hm, hscan⟩ := scan_diskannText_cut (by omega : 95 < (diskannText index).length)
      rw [tuningAppends, halg] at hscans
      simp only [List.flatten_singleton] at hscans
      rw [scans_append_of hscan, scans_cut_product hm] at hscans
      exact Bool.false_ne_true hscans
    rw [scans_append_of (scan_tuningAppends hdiskann)] at hscans
    have hproduct : index.annQuantization = .product → (productText index).length ≤ 95 := by
      intro hq
      by_contra hcut
      obtain ⟨m, hm, hscan⟩ := scan_productText_cut (by omega : 95 < (productText index).length)
        (m := .done) rfl [true, true]
      rw [productAppends, if_pos hq, List.flatten_singleton, scans_append_of hscan] at hscans
      exact absurd (hscans.symm.trans ((by decide : ∀ m ∈ [ScanMode.num, .colon, .value],
        scans ⟨m, [true, true, true, true]⟩ closers = false) m hm)) (by decide)
    rw [length_annText] at hann
    refine ⟨fun _ => by omega, fun _ halg => ?_, fun _ hq => ?_⟩
    · have hlen := hdiskann halg
      rw [length_diskannText] at hlen
      omega
    · have hlen := hproduct hq
      rw [length_productText] at hlen
      omega
  · exact ⟨fun h => absurd h hkind, fun h => absurd h hkind, fun h => absurd h hkind⟩

/-- An index is written as one object of JSON with all of its numbers exactly if the
    numbers that are formatted together have few digits. -/
theorem jsonSerializeIndex_written_iff (index : Index) :
    index.Written (jsonSerializeIndex index).flatten ↔ index.Fits := by
  refine ⟨fun hpost => ?_, Index.Fits.written⟩
  obtain ⟨ms, w, ⟨hvalid, pre, post, htext⟩, -⟩ := hpost
  exact Index.fits_of_isJsonText ⟨⟨pre, .obj ms w, post⟩, hvalid, by rw [htext, itemText]⟩

/-- An ANN index with nothing but these numbers. -/
def annIndex (m efConstruction efSearch : UInt64) : Index where
  name := some (.lit "i")
  columnId := 1
  kind := .ann
  predicate := none
  annM := m
  annEfConstruction := efConstruction
  annEfSearch := efSearch
  annQuantization := .binarySign
  annAlgorithm := .hnsw
  diskannR := 0
  diskannL := 0
  diskannBeamWidth := 0
  diskannAlpha := 0
  ivfNlist := 0
  ivfNprobe := 0
  pqNumSubvectors := 0
  pqBits := 0
  pqTrainingSamples := 0
  pqSeed := 0
  pqRerankFactor := 0
  minhashPermutations := 0
  minhashBands := 0
  learnedRangeEpsilon := 0

/-- With the largest numbers, the last one is cut off, and so is the key behind it. -/
theorem annIndex_cut :
    let text := (jsonSerializeIndex (annIndex 18446744073709551615 18446744073709551615
      18446744073709551615)).flatten
    text = ascii "\x7b\"name\":\"i\",\"column_id\":1,\"kind\":\"ann\",\"options\":\x7b\"ann\":\x7b" ++
      (ascii "\"m\":18446744073709551615,\"ef_construction\":18446744073709551615," ++
        ascii "\"ef_search\":1844674407370955161\"binary_sign\"\x7d\x7d\x7d") ∧
          ¬IsJsonText text := by
  refine ⟨by decide +kernel, fun h => ?_⟩
  have hnot : scans ⟨.value, []⟩ (jsonSerializeIndex (annIndex 18446744073709551615
      18446744073709551615 18446744073709551615)).flatten = false := by decide
  exact Bool.false_ne_true (hnot.symm.trans h.scans)

end MongrelDB
