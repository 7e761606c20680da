import MongrelDB.Query.Body

/-!
# What a condition says

A typed condition stands for a predicate on the rows of a table
(`Condition.predicate`). What is written for it tells the predicate, up to whether
the bounds of a range are inclusive (`serializeCondition_eq_iff`): that is not
written, so that two ranges that differ in nothing else are written alike
(`serializeCondition_faithful_iff`).
-/

namespace MongrelDB

open Ascii

/-! ## Predicates -/

/-- A bound of a range. -/
structure Bound where
  value : F64
  inclusive : Bool
  deriving DecidableEq

/-- A predicate on the rows of a table. -/
inductive Predicate where
  | pkStr (value : CStr)
  | pkInt (value : Int64)
  | bitmapEq (columnId : Int64) (value : CStr)
  | range (columnId : Int64) (lo hi : Option Bound)
  | fmContains (columnId : Int64) (pattern : CStr)
  | isNull (columnId : Int64)
  | isNotNull (columnId : Int64)

namespace Condition

variable (c : Condition)

/-- The lower bound, if it is set. -/
def loBound : Option Bound := if c.loSet ≠ 0 then some ⟨c.lo, c.loInclusive != 0⟩ else none

/-- The upper bound, if it is set. -/
def hiBound : Option Bound := if c.hiSet ≠ 0 then some ⟨c.hi, c.hiInclusive != 0⟩ else none

/-- The predicate a typed condition stands for. -/
def predicate : Option Predicate :=
  match c.kind with
  | .pk => some (match c.strValue with
    | some s => .pkStr s
    | none => .pkInt c.intValue)
  | .bitmapEq => some (.bitmapEq c.columnId (orEmpty c.strValue))
  | .range => some (.range c.columnId c.loBound c.hiBound)
  | .fmContains => some (.fmContains c.columnId (orEmpty c.strValue))
  | .isNull => some (.isNull c.columnId)
  | .isNotNull => some (.isNotNull c.columnId)
  | .other => none

end Condition

/-- A double is finite, and `%.17g` prints it as a number of JSON of at most 24 characters. -/
structure Libc.PrintsBound (lib : Libc) (d : F64) : Prop where
  finite : d.isFinite = true
  number : isNumber (lib.printG d).bytes = true
  short : (lib.printG d).bytes.length ≤ 24

/-- A condition is given by its fields: it is of one of the six kinds, has a string
    where its kind needs one, and bounds that are printed. -/
structure Condition.Typed (lib : Libc) (c : Condition) : Prop where
  noJson : c.conditionJson = none
  kind : c.kind ≠ .other
  bitmapEq : c.kind = .bitmapEq → c.strValue.isSome
  fmContains : c.kind = .fmContains → c.strValue.isSome
  lo : c.kind = .range → c.loSet ≠ 0 → lib.PrintsBound c.lo
  hi : c.kind = .range → c.hiSet ≠ 0 → lib.PrintsBound c.hi

/-- The digits of the bounds that are set in both conditions tell them apart. -/
structure Libc.TellsApart (lib : Libc) (c c' : Condition) : Prop where
  lo : c.loSet ≠ 0 → c'.loSet ≠ 0 → (lib.printG c.lo).bytes = (lib.printG c'.lo).bytes →
    c.lo = c'.lo
  hi : c.hiSet ≠ 0 → c'.hiSet ≠ 0 → (lib.printG c.hi).bytes = (lib.printG c'.hi).bytes →
    c.hi = c'.hi

/-- Two ranges of a column have the same bounds, of which one is inclusive in one of
    them only. -/
structure Condition.DifferInInclusivity (c c' : Condition) : Prop where
  kind : c.kind = .range ∧ c'.kind = .range
  columnId : c.columnId = c'.columnId
  lo : c.loBound.map Bound.value = c'.loBound.map Bound.value
  hi : c.hiBound.map Bound.value = c'.hiBound.map Bound.value
  differ : c.loBound ≠ c'.loBound ∨ c.hiBound ≠ c'.hiBound

/-- A predicate, with all bounds inclusive. -/
def Predicate.outline : Predicate → Predicate
  | range columnId lo hi => range columnId (lo.map fun b => ⟨b.value, true⟩)
      (hi.map fun b => ⟨b.value, true⟩)
  | p => p

/-- What is written of a condition. -/
def Condition.outline (c : Condition) : Option Predicate := c.predicate.map Predicate.outline

/-- Whether bounds are inclusive does not matter here. -/
theorem map_value_iff {b b' : Option Bound} :
    b.map (fun b => (⟨b.value, true⟩ : Bound)) = b'.map (fun b => ⟨b.value, true⟩) ↔
      b.map Bound.value = b'.map Bound.value := by
  cases b <;> cases b' <;> simp

variable {lib : Libc} {c c' : Condition}

/-- Predicates that differ, but not in their outline, are ranges. -/
theorem Predicate.range_of_outline {p p' : Predicate} (h : p.outline = p'.outline) (hne : p ≠ p') :
    ∃ columnId lo hi lo' hi', p = .range columnId lo hi ∧ p' = .range columnId lo' hi' ∧
      lo.map Bound.value = lo'.map Bound.value ∧ hi.map Bound.value = hi'.map Bound.value := by
  cases p <;> cases p' <;> first | exact absurd h hne | exact Predicate.noConfusion h | skip
  rename_i columnId lo hi columnId' lo' hi'
  simp only [outline, range.injEq, map_value_iff] at h
  obtain ⟨rfl, hlo, hhi⟩ := h
  exact ⟨_, _, _, _, _, rfl, rfl, hlo, hhi⟩

/-- A condition of one of the six kinds stands for a predicate. -/
theorem Condition.predicate_isSome (hc : c.kind ≠ .other) : ∃ p, c.predicate = some p := by
  cases hkind : c.kind <;> first | exact absurd hkind hc | exact ⟨_, by rw [predicate, hkind]⟩

theorem Condition.kind_of_predicate {columnId : Int64} {lo hi : Option Bound}
    (h : c.predicate = some (.range columnId lo hi)) :
    c.kind = .range ∧ c.columnId = columnId ∧ c.loBound = lo ∧ c.hiBound = hi := by
  rw [Condition.predicate] at h
  cases hkind : c.kind <;> simp only [hkind, Option.some.injEq, reduceCtorEq] at h
  case pk => cases hs : c.strValue <;> simp [hs] at h
  case range => simpa using h

/-- The predicates differ, and not what is written of them, for two ranges that
    differ in whether a bound is inclusive, and for no other conditions. -/
theorem Condition.differInInclusivity_iff (hc : c.kind ≠ .other) (hc' : c'.kind ≠ .other) :
    c.DifferInInclusivity c' ↔ c.outline = c'.outline ∧ c.predicate ≠ c'.predicate := by
  constructor
  · rintro ⟨⟨hk, hk'⟩, hid, hlo, hhi, hdiffer⟩
    simp only [outline, predicate, hk, hk', Option.map_some, Predicate.outline, hid,
      map_value_iff.2 hlo, map_value_iff.2 hhi, ne_eq, Option.some.injEq, Predicate.range.injEq,
      true_and, not_and_or]
    exact hdiffer
  · rintro ⟨hsame, hne⟩
    obtain ⟨p, hp⟩ := predicate_isSome hc
    obtain ⟨p', hp'⟩ := predicate_isSome hc'
    rw [outline, outline, hp, hp', Option.map_some, Option.map_some, Option.some.injEq] at hsame
    obtain ⟨columnId, lo, hi, lo', hi', rfl, rfl, hlo, hhi⟩ := Predicate.range_of_outline hsame
      fun heq => hne (by rw [hp, hp', heq])
    obtain ⟨hk, hid, rfl, rfl⟩ := kind_of_predicate hp
    obtain ⟨hk', hid', rfl, rfl⟩ := kind_of_predicate hp'
    exact ⟨⟨hk, hk'⟩, hid.trans hid'.symm, hlo, hhi,
      not_and_or.1 fun h => hne (by rw [hp, hp', h.1, h.2])⟩

/-! ## The text -/

/-- The beginning of a condition, which tells its kind. -/
def condHead : CondKind → Bytes
  | .pk | .other => ascii "\x7b\"pk\":\x7b\"value\":"
  | .bitmapEq => ascii "\x7b\"bitmap_eq\":\x7b\"column_id\":"
  | .range => ascii "\x7b\"range\":\x7b\"column_id\":"
  | .fmContains => ascii "\x7b\"fm_contains\":\x7b\"column_id\":"
  | .isNull => ascii "\x7b\"is_null\":\x7b\"column_id\":"
  | .isNotNull => ascii "\x7b\"is_not_null\":\x7b\"column_id\":"

/-- A bound behind its name. -/
def boundText (lib : Libc) (name : Bytes) : Option Bound → Bytes
  | none => []
  | some b => name ++ (lib.printG b.value).bytes

namespace Predicate

/-- The kind of the condition a predicate is written as. -/
def kind : Predicate → CondKind
  | pkStr _ | pkInt _ => .pk
  | bitmapEq .. => .bitmapEq
  | range .. => .range
  | fmContains .. => .fmContains
  | isNull _ => .isNull
  | isNotNull _ => .isNotNull

/-- What follows the beginning. -/
def rest (lib : Libc) : Predicate → Bytes
  | pkStr s => (Json.ofStr s).text ++ [rbrace, rbrace]
  | pkInt i => intText i.toInt ++ [rbrace, rbrace]
  | bitmapEq columnId s => intText columnId.toInt ++ (ascii ",\"value\":" ++
      ((Json.ofStr s).text ++ [rbrace, rbrace]))
  | range columnId lo hi => intText columnId.toInt ++ (boundText lib (ascii ",\"lo\":") lo ++
      (boundText lib (ascii ",\"hi\":") hi ++ [rbrace, rbrace]))
  | fmContains columnId s => intText columnId.toInt ++ (ascii ",\"pattern\":" ++
      ((Json.ofStr s).text ++ [rbrace, rbrace]))
  | isNull columnId | isNotNull columnId => intText columnId.toInt ++ [rbrace, rbrace]

/-- Whether bounds are inclusive is not written. -/
theorem rest_outline (p : Predicate) : p.outline.rest lib = p.rest lib := by
  have hbound : ∀ (name : Bytes) (b : Option Bound),
      boundText lib name (b.map fun b => ⟨b.value, true⟩) = boundText lib name b :=
    fun name b => by cases b <;> rfl
  cases p <;> first | rfl | rw [outline, rest, rest, hbound, hbound]

theorem kind_outline (p : Predicate) : p.outline.kind = p.kind := by
  cases p <;> rfl

end Predicate

theorem flatten_boundAppends (name : String) (hname : (ascii name).length ≤ 39) {set incl : Int32}
    {x : F64} (hx : set ≠ 0 → lib.PrintsBound x) :
    (boundAppends lib name set x).flatten =
      boundText lib (ascii name) (if set ≠ 0 then some ⟨x, incl != 0⟩ else none) := by
  rw [boundAppends]
  split_ifs with hset
  · have hshort := (hx hset).short
    rw [boundText, List.flatten_singleton, snprintf,
      List.take_of_length_le (by rw [List.length_append]; omega)]
  · rfl

/-- What is written for a typed condition, in terms of its predicate. -/
theorem flatten_serializeCondition (hc : c.Typed lib) {p : Predicate} (hp : c.predicate = some p) :
    (serializeCondition lib c).flatten = condHead p.kind ++ p.rest lib := by
  have hgiven : isGiven c.conditionJson = false := by rw [hc.noJson]; rfl
  rw [serializeCondition, if_neg (by rw [hgiven]; decide)]
  rw [Condition.predicate] at hp
  -- The head of each kind is fixed text; what varies begins behind it.
  cases hkind : c.kind with
  | pk =>
    have hhead : condHead .pk = lbrace :: (ascii "\"pk\":\x7b" ++ ascii "\"value\":") := by
      decide
    rw [hkind] at hp
    obtain rfl := Option.some.inj hp
    cases c.strValue with
    | some s => simp [Predicate.kind, Predicate.rest, hhead, flatten_jsonEscape]
    | none => simp [Predicate.kind, Predicate.rest, hhead, int64Text_eq]
  | bitmapEq =>
    have hhead : condHead .bitmapEq =
        lbrace :: (ascii "\"bitmap_eq\":\x7b" ++ ascii "\"column_id\":") := by decide
    rw [hkind] at hp
    obtain rfl := Option.some.inj hp
    simp [Predicate.kind, Predicate.rest, hhead, columnAppends, flatten_jsonEscape, int64Text_eq]
  | range =>
    have hhead : condHead .range =
        lbrace :: (ascii "\"range\":\x7b" ++ ascii "\"column_id\":") := by decide
    rw [hkind] at hp
    obtain rfl := Option.some.inj hp
    rw [Predicate.kind, Predicate.rest, hhead, Condition.loBound, Condition.hiBound,
      ← flatten_boundAppends ",\"lo\":" (by decide) (hc.lo hkind),
      ← flatten_boundAppends ",\"hi\":" (by decide) (hc.hi hkind)]
    simp [columnAppends, int64Text_eq]
  | fmContains =>
    have hhead : condHead .fmContains =
        lbrace :: (ascii "\"fm_contains\":\x7b" ++ ascii "\"column_id\":") := by decide
    rw [hkind] at hp
    obtain rfl := Option.some.inj hp
    simp [Predicate.kind, Predicate.rest, hhead, columnAppends, flatten_jsonEscape, int64Text_eq]
  | isNull =>
    have hhead : condHead .isNull =
        lbrace :: (ascii "\"is_null\":\x7b" ++ ascii "\"column_id\":") := by decide
    rw [hkind] at hp
    obtain rfl := Option.some.inj hp
    simp [Predicate.kind, Predicate.rest, hhead, columnAppends, int64Text_eq]
  | isNotNull =>
    have hhead : condHead .isNotNull =
        lbrace :: (ascii "\"is_not_null\":\x7b" ++ ascii "\"column_id\":") := by decide
    rw [hkind] at hp
    obtain rfl := Option.some.inj hp
    simp [Predicate.kind, Predicate.rest, hhead, columnAppends, int64Text_eq]
  | other => exact absurd hkind hc.kind

/-- The first seven characters tell the kind. -/
theorem kind_of_text {p p' : Predicate} {r r' : Bytes}
    (h : condHead p.kind ++ r = condHead p'.kind ++ r') : p.kind = p'.kind := by
  have htake : ∀ k r, (condHead k ++ r).take 7 = (condHead k).take 7 := fun k r =>
    List.take_append_of_le_length (by cases k <;> decide)
  have hheads : ∀ k k' : CondKind, k ≠ .other → k' ≠ .other →
      (condHead k).take 7 = (condHead k').take 7 → k = k' := fun k k' hk hk' h => by
    cases k <;> cases k' <;> first
      | rfl
      | exact absurd rfl hk
      | exact absurd rfl hk'
      | exact absurd h (by decide)
  have hkind : ∀ p : Predicate, p.kind ≠ .other := fun p => by
    cases p <;> exact CondKind.noConfusion
  exact hheads _ _ (hkind p) (hkind p') (by rw [← htake p.kind r, h, htake])

/-- A bound is told from what follows it, which does not begin with its name. -/
theorem boundText_append_inj {name x y : Bytes} {b b' : Option Bound}
    (hb : ∀ v ∈ b, lib.PrintsBound v.value) (hb' : ∀ v ∈ b', lib.PrintsBound v.value)
    (hx : StopsAt isNumberChar x) (hy : StopsAt isNumberChar y) (hnx : ¬name <+: x)
    (hny : ¬name <+: y) (h : boundText lib name b ++ x = boundText lib name b' ++ y) :
    b.map (fun v => (lib.printG v.value).bytes) = b'.map (fun v => (lib.printG v.value).bytes) ∧
      x = y := by
  cases b with
  | none =>
    cases b' with
    | none => exact ⟨rfl, h⟩
    | some v =>
      rw [boundText, boundText, List.nil_append, List.append_assoc] at h
      exact absurd ⟨_, h.symm⟩ hnx
  | some u =>
    cases b' with
    | none =>
      rw [boundText, boundText, List.nil_append, List.append_assoc] at h
      exact absurd ⟨_, h⟩ hny
    | some v =>
      rw [boundText, boundText, List.append_assoc, List.append_assoc] at h
      obtain ⟨huv, hxy⟩ := takeWhile_append_inj
        (all_isNumberChar_of_isNumTok (isNumTok_of_isNumber (hb u rfl).number))
        (all_isNumberChar_of_isNumTok (isNumTok_of_isNumber (hb' v rfl).number)) hx hy
        (List.append_cancel_left h)
      exact ⟨by rw [Option.map_some, Option.map_some, huv], hxy⟩

/-! ## Faithfulness -/

/-- A range is printed. -/
def Predicate.Printed (lib : Libc) : Predicate → Prop
  | range _ lo hi => (∀ b ∈ lo, lib.PrintsBound b.value) ∧ ∀ b ∈ hi, lib.PrintsBound b.value
  | _ => True

/-- The digits of the bounds tell these ranges apart. -/
def Predicate.ToldApart (lib : Libc) : Predicate → Predicate → Prop
  | range _ lo hi, range _ lo' hi' =>
    (∀ b ∈ lo, ∀ b' ∈ lo', (lib.printG b.value).bytes = (lib.printG b'.value).bytes →
      b.value = b'.value) ∧
    ∀ b ∈ hi, ∀ b' ∈ hi', (lib.printG b.value).bytes = (lib.printG b'.value).bytes →
      b.value = b'.value
  | _, _ => True

theorem map_value_of_printG {b b' : Option Bound}
    (h : b.map (fun v => (lib.printG v.value).bytes) = b'.map fun v => (lib.printG v.value).bytes)
    (hapart : ∀ v ∈ b, ∀ v' ∈ b', (lib.printG v.value).bytes = (lib.printG v'.value).bytes →
      v.value = v'.value) : b.map Bound.value = b'.map Bound.value := by
  cases b with
  | none => cases b' with
    | none => rfl
    | some v => exact absurd h (by simp)
  | some u => cases b' with
    | none => exact absurd h (by simp)
    | some v => rw [Option.map_some, Option.map_some, hapart u rfl v rfl (Option.some.inj h)]

theorem stopsAt_of_head {p : UInt8 → Bool} {c : UInt8} {r : Bytes} (h : r.head? = some c)
    (hc : p c = false) : StopsAt p r := fun d hd => by
  rw [h] at hd
  rw [← Option.some.inj hd, hc]

theorem stopsAt_boundText {name x : Bytes} (b : Option Bound) (hname : name.head? = some comma)
    (hx : StopsAt isNumberChar x) : StopsAt isNumberChar (boundText lib name b ++ x) := by
  cases b with
  | none => exact hx
  | some v =>
    refine stopsAt_of_head (c := comma) ?_ (by decide)
    rw [boundText, List.append_assoc, List.head?_append, hname]
    rfl

/-- A string is not an integer. -/
theorem ofStr_ne_intText {s : CStr} {i : Int} {x y : Bytes} :
    (Json.ofStr s).text ++ x ≠ intText i ++ y := fun h => by
  have htok := isNumTok_of_isNumber (isNumber_of_intVal? (intVal?_intText i))
  cases htext : intText i with
  | nil => exact absurd (htext ▸ htok) (by decide)
  | cons c r =>
    rw [htext, isNumTok, Bool.and_eq_true] at htok
    rw [Json.text, htext] at h
    obtain rfl : quote = c := (List.cons.inj h).1
    exact absurd htok.1 (by decide)

/-- The bounds of a range are told from each other. -/
theorem bounds_inj {lo hi lo' hi' : Option Bound} (hlo : ∀ b ∈ lo, lib.PrintsBound b.value)
    (hhi : ∀ b ∈ hi, lib.PrintsBound b.value) (hlo' : ∀ b ∈ lo', lib.PrintsBound b.value)
    (hhi' : ∀ b ∈ hi', lib.PrintsBound b.value)
    (h : boundText lib (ascii ",\"lo\":") lo ++ (boundText lib (ascii ",\"hi\":") hi ++
        [rbrace, rbrace]) =
      boundText lib (ascii ",\"lo\":") lo' ++ (boundText lib (ascii ",\"hi\":") hi' ++
        [rbrace, rbrace])) :
    lo.map (fun v => (lib.printG v.value).bytes) = lo'.map (fun v => (lib.printG v.value).bytes) ∧
      hi.map (fun v => (lib.printG v.value).bytes) =
        hi'.map fun v => (lib.printG v.value).bytes := by
  have hbrace : StopsAt isNumberChar [rbrace, rbrace] := stopsAt_cons rfl _
  have hstop : ∀ b, StopsAt isNumberChar (boundText lib (ascii ",\"hi\":") b ++ [rbrace, rbrace]) :=
    fun b => stopsAt_boundText b rfl hbrace
  -- What follows the lower bound has another name, or none.
  have hnlo : ∀ b, ¬ascii ",\"lo\":" <+: boundText lib (ascii ",\"hi\":") b ++
    [rbrace, rbrace] := by
    rintro (_ | v) ⟨r, hr⟩
    · have htake : ascii ",\"l" = [rbrace, rbrace] := congrArg (List.take 3) hr
      exact absurd htake (by decide)
    · rw [boundText, List.append_assoc] at hr
      have htake : ascii ",\"l" = ascii ",\"h" := congrArg (List.take 3) hr
      exact absurd htake (by decide)
  have hnhi : ¬ascii ",\"hi\":" <+: [rbrace, rbrace] := by decide
  obtain ⟨hlos, h⟩ := boundText_append_inj hlo hlo' (hstop hi) (hstop hi') (hnlo hi) (hnlo hi') h
  exact ⟨hlos, (boundText_append_inj hhi hhi' hbrace hbrace hnhi hnhi h).1⟩

/-- What is written tells the predicate, up to whether bounds are inclusive. -/
theorem Predicate.rest_inj {p p' : Predicate} (hp : p.Printed lib) (hp' : p'.Printed lib)
    (hapart : p.ToldApart lib p') (hkind : p.kind = p'.kind) (h : p.rest lib = p'.rest lib) :
    p.outline = p'.outline := by
  have hbrace : StopsAt isNumberChar [rbrace, rbrace] := stopsAt_cons rfl _
  have hcomma : isNumberChar comma = false := rfl
  cases p <;> cases p' <;> first | exact CondKind.noConfusion hkind | skip
  case pkStr.pkStr s s' =>
    obtain ⟨rfl, -⟩ := ofStr_append_inj h
    rfl
  case pkStr.pkInt s i => exact absurd h ofStr_ne_intText
  case pkInt.pkStr i s => exact absurd h.symm ofStr_ne_intText
  case pkInt.pkInt i i' =>
    obtain ⟨hi, -⟩ := intText_append_inj hbrace hbrace h
    rw [Int64.toInt_inj.1 hi]
  case bitmapEq.bitmapEq columnId s columnId' s' =>
    obtain ⟨hid, h⟩ := intText_append_inj (stopsAt_of_head rfl hcomma)
      (stopsAt_of_head rfl hcomma) h
    obtain ⟨rfl, -⟩ := ofStr_append_inj (List.append_cancel_left h)
    rw [Int64.toInt_inj.1 hid]
  case range.range columnId lo hi columnId' lo' hi' =>
    obtain ⟨hid, h⟩ := intText_append_inj
      (stopsAt_boundText lo rfl (stopsAt_boundText hi rfl hbrace))
      (stopsAt_boundText lo' rfl (stopsAt_boundText hi' rfl hbrace)) h
    obtain ⟨hlos, hhis⟩ := bounds_inj hp.1 hp.2 hp'.1 hp'.2 h
    simp only [outline, Int64.toInt_inj.1 hid,
      map_value_iff.2 (map_value_of_printG hlos hapart.1),
      map_value_iff.2 (map_value_of_printG hhis hapart.2)]
  case fmContains.fmContains columnId s columnId' s' =>
    obtain ⟨hid, h⟩ := intText_append_inj (stopsAt_of_head rfl hcomma)
      (stopsAt_of_head rfl hcomma) h
    obtain ⟨rfl, -⟩ := ofStr_append_inj (List.append_cancel_left h)
    rw [Int64.toInt_inj.1 hid]
  case isNull.isNull columnId columnId' =>
    obtain ⟨hid, -⟩ := intText_append_inj hbrace hbrace h
    rw [Int64.toInt_inj.1 hid]
  case isNotNull.isNotNull columnId columnId' =>
    obtain ⟨hid, -⟩ := intText_append_inj hbrace hbrace h
    rw [Int64.toInt_inj.1 hid]

/-- A bound that is set has the value of its field. -/
theorem Condition.of_mem_loBound {b : Bound} (h : b ∈ c.loBound) :
    c.loSet ≠ 0 ∧ b.value = c.lo := by
  rw [loBound] at h
  split_ifs at h with hset
  · exact ⟨hset, (Option.some.inj h) ▸ rfl⟩
  · exact absurd h (by simp)

theorem Condition.of_mem_hiBound {b : Bound} (h : b ∈ c.hiBound) :
    c.hiSet ≠ 0 ∧ b.value = c.hi := by
  rw [hiBound] at h
  split_ifs at h with hset
  · exact ⟨hset, (Option.some.inj h) ▸ rfl⟩
  · exact absurd h (by simp)

/-- The bounds of a typed condition are printed. -/
theorem Condition.Typed.printed (hc : c.Typed lib) {p : Predicate} (hp : c.predicate = some p) :
    p.Printed lib := by
  cases p with
  | range columnId lo hi =>
    obtain ⟨hkind, -, rfl, rfl⟩ := kind_of_predicate hp
    refine ⟨fun b hb => ?_, fun b hb => ?_⟩
    · obtain ⟨hset, hval⟩ := of_mem_loBound hb
      exact hval ▸ hc.lo hkind hset
    · obtain ⟨hset, hval⟩ := of_mem_hiBound hb
      exact hval ▸ hc.hi hkind hset
  | _ => trivial

theorem Libc.TellsApart.toldApart (h : lib.TellsApart c c') {p p' : Predicate}
    (hp : c.predicate = some p) (hp' : c'.predicate = some p') : p.ToldApart lib p' := by
  cases p with
  | range columnId lo hi =>
    cases p' with
    | range columnId' lo' hi' =>
      obtain ⟨-, -, rfl, rfl⟩ := Condition.kind_of_predicate hp
      obtain ⟨-, -, rfl, rfl⟩ := Condition.kind_of_predicate hp'
      refine ⟨fun b hb b' hb' heq => ?_, fun b hb b' hb' heq => ?_⟩
      · obtain ⟨hset, hval⟩ := Condition.of_mem_loBound hb
        obtain ⟨hset', hval'⟩ := Condition.of_mem_loBound hb'
        rw [hval, hval'] at heq ⊢
        exact h.lo hset hset' heq
      · obtain ⟨hset, hval⟩ := Condition.of_mem_hiBound hb
        obtain ⟨hset', hval'⟩ := Condition.of_mem_hiBound hb'
        rw [hval, hval'] at heq ⊢
        exact h.hi hset hset' heq
    | _ => trivial
  | _ => trivial

/-- Two typed conditions are written alike exactly if they agree on everything but
    whether bounds are inclusive. -/
theorem serializeCondition_eq_iff (hc : c.Typed lib) (hc' : c'.Typed lib)
    (hapart : lib.TellsApart c c') :
    (serializeCondition lib c).flatten = (serializeCondition lib c').flatten ↔
      c.outline = c'.outline := by
  obtain ⟨p, hp⟩ := Condition.predicate_isSome hc.kind
  obtain ⟨p', hp'⟩ := Condition.predicate_isSome hc'.kind
  rw [flatten_serializeCondition hc hp, flatten_serializeCondition hc' hp', Condition.outline,
    Condition.outline, hp, hp', Option.map_some, Option.map_some, Option.some.injEq]
  constructor
  · intro h
    have hkind := kind_of_text h
    rw [hkind] at h
    exact Predicate.rest_inj (hc.printed hp) (hc'.printed hp') (hapart.toldApart hp hp') hkind
      (List.append_cancel_left h)
  · intro h
    rw [← p.kind_outline, ← p.rest_outline, h, p'.kind_outline, p'.rest_outline]

/-- What is written for two typed conditions tells their predicates apart, unless they
    are two ranges of a column with the same bounds, of which one is inclusive in
    one of them only. -/
theorem serializeCondition_faithful_iff (hc : c.Typed lib) (hc' : c'.Typed lib)
    (hapart : lib.TellsApart c c') :
    ((serializeCondition lib c).flatten = (serializeCondition lib c').flatten →
        c.predicate = c'.predicate) ↔ ¬c.DifferInInclusivity c' := by
  rw [serializeCondition_eq_iff hc hc' hapart, Condition.differInInclusivity_iff hc.kind hc'.kind,
    not_and_not_right]

/-- The range of a column up to `1`. -/
def upToOne (inclusive : Int32) : Condition where
  kind := .range
  columnId := 3
  lo := ⟨0⟩
  hi := ⟨0x3ff0000000000000⟩
  loSet := 0
  hiSet := 1
  loInclusive := 1
  hiInclusive := inclusive
  strValue := none
  intValue := 0
  conditionJson := none

/-- Conversions that print every double as `1`. -/
def Libc.one : Libc := ⟨fun _ => ⟨0x3ff0000000000000⟩, fun _ => .lit "1"⟩

theorem Libc.one_printsBound : Libc.one.PrintsBound ⟨0x3ff0000000000000⟩ :=
  ⟨by decide, by decide, by decide⟩

theorem upToOne_typed (inclusive : Int32) : (upToOne inclusive).Typed .one where
  noJson := rfl
  kind := nofun
  bitmapEq := nofun
  fmContains := nofun
  lo _ h := absurd rfl h
  hi _ _ := Libc.one_printsBound

/-- The ranges `x ≤ 1` and `x < 1` are not told apart. -/
theorem upToOne_differ :
    (upToOne 1).DifferInInclusivity (upToOne 0) ∧
      ¬((serializeCondition .one (upToOne 1)).flatten =
        (serializeCondition .one (upToOne 0)).flatten →
        (upToOne 1).predicate = (upToOne 0).predicate) := by
  have hdiffer : (upToOne 1).DifferInInclusivity (upToOne 0) :=
    ⟨⟨rfl, rfl⟩, rfl, rfl, rfl, .inr (by decide)⟩
  exact ⟨hdiffer, fun h => (serializeCondition_faithful_iff (upToOne_typed 1) (upToOne_typed 0)
    ⟨fun _ _ _ => rfl, fun _ _ _ => rfl⟩).1 h hdiffer⟩

/-- Both are written as the range `x ≤ 1`. -/
theorem upToOne_inclusive :
    (upToOne 1).Typed .one ∧ (upToOne 0).Typed .one ∧ Libc.one.TellsApart (upToOne 1) (upToOne 0) ∧
      (serializeCondition .one (upToOne 1)).flatten =
        (serializeCondition .one (upToOne 0)).flatten ∧
      (upToOne 1).predicate ≠ (upToOne 0).predicate := by
  refine ⟨upToOne_typed 1, upToOne_typed 0, ⟨fun _ _ _ => rfl, fun _ _ _ => rfl⟩, rfl, fun h => ?_⟩
  simp +decide [Condition.predicate, upToOne, Condition.hiBound, Condition.loBound] at h

end MongrelDB
