import MongrelDB.Api.Wire
import MongrelDB.Commit.Intact
import MongrelDB.Path
import MongrelDB.Query.Request

/-!
# Intact calls

Most of what is written for a request is not looked at again. If memory is short, or an
append of libcurl's fails, a call may thus send something, but not what it is to send. It
does send the request of its outline exactly if nothing fails that this request is made of
(`Session.Serves`, `Call.sends_iff`): no append to the path, to the body, to the URL, to
the headers or to the credentials, if the base URL and the user name are not empty.
-/

namespace MongrelDB

open Ascii Prog

variable {lib : Libc}

/-! ## Text without NUL -/

/-- There is no NUL in these pieces. -/
def NulFree (ps : Appends) : Prop := (0 : UInt8) ∉ ps.flatten

section

variable {p : Bytes} {ps qs : Appends}

@[simp] theorem nulFree_nil : NulFree [] := List.not_mem_nil

@[simp] theorem nulFree_cons : NulFree (p :: ps) ↔ (0 : UInt8) ∉ p ∧ NulFree ps := by
  rw [NulFree, List.flatten_cons, List.mem_append, not_or]
  rfl

@[simp] theorem nulFree_append : NulFree (ps ++ qs) ↔ NulFree ps ∧ NulFree qs := by
  rw [NulFree, List.flatten_append, List.mem_append, not_or]
  rfl

@[simp] theorem nulFree_jsonEscape (s : CStr) : NulFree (jsonEscape s) := zero_notMem_jsonEscape s

@[simp] theorem zero_notMem_natText (n : Nat) : (0 : UInt8) ∉ natText n := fun h =>
  absurd (List.all_eq_true.1 (all_isDigit_natText n) 0 h) (by decide)

@[simp] theorem zero_notMem_intText (i : Int64) : (0 : UInt8) ∉ intText i.toInt :=
  (Json.ofInt64_valid i).zero_notMem

/-- Pieces with commas between them. -/
theorem nulFree_separated {α : Type} {f : α → Appends} (hf : ∀ x, NulFree (f x)) (xs : List α) :
    NulFree (separated f xs) := by
  rw [NulFree, flatten_separated]
  refine zero_notMem_commaSep fun t ht => ?_
  obtain ⟨x, -, rfl⟩ := List.mem_map.1 ht
  exact hf x

end

theorem nulFree_jsonSerializeColumn (col : Column) : NulFree (jsonSerializeColumn col) := by
  have hflag : ∀ b : Int32, (0 : UInt8) ∉ boolText b := by
    intro b
    rw [boolText]
    split_ifs <;> decide
  have hvariants : NulFree (enumVariantsAppends col.enumVariants) := by
    rcases col.enumVariants with _ | _ | ⟨v, vs⟩
    · exact nulFree_nil
    · exact nulFree_nil
    · have hsep := nulFree_separated (fun s => nulFree_jsonEscape (orEmpty s)) (v :: vs)
      simpa +decide [enumVariantsAppends] using hsep
  have hdefault : NulFree (defaultAppends col) := by
    rw [defaultAppends]
    split <;> simp +decide [CStr.noNul]
  rw [jsonSerializeColumn]
  cases col.embeddingSourceJson <;>
    simp +decide [hflag, hvariants, hdefault, zero_notMem_int64Text, CStr.noNul]

theorem zero_notMem_numberText {t : Bytes} (ht : (0 : UInt8) ∉ t) : (0 : UInt8) ∉ numberText t :=
  fun h => ht (List.mem_of_mem_take h)

theorem nulFree_annAppends (index : Index) : NulFree (annAppends index) := by
  have hann : (0 : UInt8) ∉ numberText (annText index) :=
    zero_notMem_numberText (by simp +decide [annText])
  have halgorithm : NulFree (algorithmAppends index) := by
    rw [algorithmAppends]
    split_ifs <;> simp +decide
  have htuning : NulFree (tuningAppends index) := by
    rw [tuningAppends]
    split
    · simpa using zero_notMem_numberText (by simp +decide [diskannText])
    · simpa using zero_notMem_numberText (by simp +decide [ivfText])
    · exact nulFree_nil
    · exact nulFree_nil
  have hproduct : NulFree (productAppends index) := by
    rw [productAppends]
    split_ifs
    · simpa using zero_notMem_numberText (by simp +decide [productText])
    · exact nulFree_nil
  simp +decide [annAppends, hann, halgorithm, htuning, hproduct]

theorem nulFree_jsonSerializeIndex (index : Index) : NulFree (jsonSerializeIndex index) := by
  have hcolumn : (0 : UInt8) ∉ numberText (ascii ",\"column_id\":" ++
      (intText index.columnId.toInt ++ ascii ",\"kind\":")) :=
    zero_notMem_numberText (by simp +decide)
  have hpredicate : NulFree (predicateAppends index.predicate) := by
    cases index.predicate <;> simp +decide [predicateAppends]
  have hoptions : NulFree (optionsAppends index) := by
    rw [optionsAppends]
    split
    · exact nulFree_annAppends index
    · simpa using zero_notMem_numberText (by simp +decide [minhashText])
    · simpa using zero_notMem_numberText (by simp +decide [learnedRangeText])
    all_goals exact nulFree_nil
  simp +decide [jsonSerializeIndex, hcolumn, hpredicate, hoptions]

theorem nulFree_createTable (name : CStr) (columns : List Column) (constraintsJson : Option CStr)
    (indexes : Option (List Index)) :
    NulFree (jsonSerializeCreateTableWithIndexes name columns constraintsJson indexes) := by
  have hcolumns := nulFree_separated nulFree_jsonSerializeColumn columns
  have hconstraints : NulFree (if isGiven constraintsJson then
      [ascii ",\"constraints\":", (orEmpty constraintsJson).bytes] else []) := by
    split_ifs <;> simp +decide [CStr.noNul]
  rcases indexes with _ | _ | ⟨index, indexes⟩ <;> rw [jsonSerializeCreateTableWithIndexes]
  · simp +decide only [nulFree_append, nulFree_cons, nulFree_nil, nulFree_jsonEscape, hcolumns,
      hconstraints, and_self]
  · simp +decide only [nulFree_append, nulFree_cons, nulFree_nil, nulFree_jsonEscape, hcolumns,
      hconstraints, and_self]
  · have hindexes := nulFree_separated nulFree_jsonSerializeIndex (index :: indexes)
    simp +decide only [nulFree_append, nulFree_cons, nulFree_nil, nulFree_jsonEscape, hcolumns,
      hconstraints, hindexes, and_self]

theorem nulFree_retrieveText (table : CStr) (embeddingColumn : Int64) (text : CStr) (k : Int64) :
    NulFree (Text.checked (retrieveTextParts table embeddingColumn text k)).pieces := by
  have hshort : ∀ {t : Bytes}, (0 : UInt8) ∉ t → (0 : UInt8) ∉ snprintf 64 t :=
    fun ht h => ht (List.mem_of_mem_take h)
  have hcolumn : (0 : UInt8) ∉ snprintf 64 (ascii ",\"embedding_column\":" ++
      (intText embeddingColumn.toInt ++ ascii ",\"text\":")) := hshort (by simp +decide)
  have hk : (0 : UInt8) ∉ snprintf 64 (ascii ",\"k\":" ++ intText k.toInt) :=
    hshort (by simp +decide)
  rw [Text.pieces, retrieveTextParts]
  split_ifs <;> simp +decide [hcolumn, hk]

/-! ## Texts -/

/-- Pieces of a text: the first one is not empty, and there is no NUL in them. -/
structure IsText (ps : Appends) : Prop where
  ne : ps ≠ []
  first : ps.head? ≠ some []
  nulFree : NulFree ps

/-- No append to a text fails. -/
def Text.Fits (H : Heap) : Text → Prop
  | whole _ => True
  | t => AppendsFit H t.pieces

/-- A text that is built is one of pieces. -/
def Text.Sound : Text → Prop
  | whole _ => True
  | t => IsText t.pieces

section

variable {H H' : Heap} {buf b : Sbuf}

theorem Sbuf.appendAll_append (buf : Sbuf) (H : Heap) (ps qs : Appends) :
    buf.appendAll H (ps ++ qs) = (buf.appendAll H ps).1.appendAll (buf.appendAll H ps).2 qs := by
  induction ps generalizing buf H with
  | nil => rfl
  | cons p ps ih =>
    rw [List.cons_append, appendAll_cons, ih]
    rfl

/-- If no append that is looked at fails, the parts are appended as any pieces are. -/
theorem checkedAll_some {parts : List (Appends × Bytes)}
    (h : checkedAll buf parts H = (some b, H')) :
    buf.appendAll H (parts.flatMap fun part => part.1 ++ [part.2]) = (b, H') := by
  induction parts generalizing buf H with
  | nil =>
    obtain ⟨hbuf, rfl⟩ := Prod.mk.inj h
    obtain rfl := Option.some.inj hbuf
    rfl
  | cons part parts ih =>
    rw [checkedAll] at h
    rcases happ : (buf.appendAll H part.1).1.append part.2 (buf.appendAll H part.1).2 with
      ⟨ok, b₁, H₁⟩
    simp only [happ] at h
    split_ifs at h
    · rw [List.flatMap_cons, Sbuf.appendAll_append, Sbuf.appendAll_append, ← ih h]
      have hone : (buf.appendAll H part.1).1.appendAll (buf.appendAll H part.1).2 [part.2] =
          (b₁, H₁) := by
        rw [Sbuf.appendAll_cons, happ]
        rfl
      rw [hone]
    · cases congrArg Prod.fst h

theorem IsText.cstr {ps : Appends} (h : IsText ps) :
    CStr.at (ps.flatten ++ [0]) = ⟨ps.flatten, h.nulFree⟩ := CStr.at_self ⟨_, h.nulFree⟩ []

/-- A string behind appends is the text exactly if none of them fails. -/
theorem IsText.cstr?_iff {ps : Appends} (h : IsText ps) (H : Heap) :
    (Sbuf.empty.appendAll H ps).1.cstr? = some (CStr.at (ps.flatten ++ [0])) ↔
      AppendsFit H ps := by
  rw [h.cstr]
  refine ⟨fun heq => ?_, fun hfit => Sbuf.cstr?_appendAll hfit h.ne h.nulFree⟩
  by_contra hfit
  exact Sbuf.cstr?_ne hfit h.first h.nulFree heq

/-- What is written is the text exactly if no append to it fails. -/
theorem Text.written_iff {t : Text} (ht : t.Sound) (H : Heap) :
    (t.written H).1 = some (some t.text) ↔ t.Fits H := by
  cases t with
  | whole u =>
    refine iff_of_true ?_ trivial
    rw [written, text, pieces, List.flatten_singleton, CStr.at_self]
  | built ps => exact Option.some_inj.trans (IsText.cstr?_iff ht H)
  | checked parts =>
    refine Iff.trans ?_ (IsText.cstr?_iff ht H)
    rcases hparts : checkedAll Sbuf.empty parts H with ⟨_ | b, H'⟩
    · -- An append has failed, and this one was looked at.
      refine iff_of_false (fun h => ?_) fun h => ?_
      · rw [written, hparts] at h
        cases h
      · obtain ⟨hg, hlen⟩ := (IsText.cstr?_iff ht H).1 h
        rw [← Nat.zero_add (List.length _)] at hlen
        rw [← Nat.zero_add (Sbuf.asksAll _ _)] at hg
        obtain ⟨H₁, hall, -⟩ := checkedAll_granted Sbuf.empty (After.zero H) hg hlen
        cases hparts.symm.trans hall
    · rw [written, hparts, pieces, checkedAll_some hparts]
      exact Option.some_inj

end

/-! ## Paths -/

/-- Pieces of a path: the first one begins with a slash, and does not end there. -/
structure IsPath (ps : Appends) : Prop where
  first : ∃ c p qs, ps = (slash :: c :: p) :: qs
  nulFree : NulFree ps

theorem IsPath.isText {ps : Appends} (h : IsPath ps) : IsText ps := by
  obtain ⟨⟨c, p, qs, rfl⟩, hnul⟩ := h
  exact ⟨List.cons_ne_nil _ _, fun h => List.cons_ne_nil _ _ (Option.some.inj h), hnul⟩

theorem PartOf.exists_bytes {ps : Appends} {t : CStr} (h : PartOf ps t) (hps : NulFree ps) :
    ∃ qs : Appends, qs.Sublist ps ∧ t.bytes = qs.flatten := by
  obtain ⟨qs, hqs, rfl⟩ := h
  exact ⟨qs, hqs, CStr.at_append_nul (fun h => hps (hqs.flatten.subset h)) []⟩

/-- If pieces of a path are missing, the URL is not the one of the path, whatever is missing
    of it. -/
theorem IsPath.eq_of_url {ps : Appends} (hps : IsPath ps) {base path url : CStr}
    (hpath : PartOf ps path) (hurl : PartOf (urlAppends base path) url)
    (h : url = urlOf base (CStr.at (ps.flatten ++ [0]))) :
    path = CStr.at (ps.flatten ++ [0]) := by
  rw [hps.isText.cstr] at h ⊢
  obtain ⟨qs, hqs, hbytes⟩ := hpath.exists_bytes hps.nulFree
  obtain ⟨us, hus, hurlbytes⟩ := hurl.exists_bytes (urlOf base path).noNul
  obtain ⟨c, p, rest, rfl⟩ := hps.first
  have hmeant : url.bytes.length =
      base.bytes.length + ((slash :: c :: p) :: rest).flatten.length := by
    rw [h]
    change (urlAppends base ⟨((slash :: c :: p) :: rest).flatten, _⟩).flatten.length = _
    rw [urlAppends, if_pos (by rfl)]
    simp
  have hle : url.bytes.length ≤ (urlAppends base path).flatten.length := by
    rw [hurlbytes]
    exact hus.flatten.length_le
  rcases List.sublist_cons_iff.1 hqs with hrest | ⟨r, rfl, hr⟩
  · -- Without its first piece, the path is too short, even with a slash in front of it.
    have hshort : path.bytes.length ≤ rest.flatten.length := by
      rw [hbytes]
      exact hrest.flatten.length_le
    have hlong : (urlAppends base path).flatten.length ≤
        base.bytes.length + (path.bytes.length + 1) := by
      rw [urlAppends]
      split_ifs <;> simp
    simp only [List.flatten_cons, List.length_append, List.length_cons] at hmeant
    omega
  · have hslash : path.bytes.head? = some slash := by
      rw [hbytes]
      rfl
    rw [urlAppends, if_pos hslash] at hle
    simp only [List.flatten_cons, List.flatten_nil, List.append_nil, List.length_append] at hle
    refine CStr.ext (hbytes.trans (hqs.flatten.eq_of_length_le ?_))
    rw [← hbytes]
    omega

/-! ## Outlines -/

/-- The texts of an outline are such pieces. -/
structure Outline.Sound (o : Outline) : Prop where
  path : (∃ p, o.path = .whole p) ∨ ∃ ps, o.path = .built ps ∧ IsPath ps
  body : ∀ t ∈ o.body, t.Sound

theorem Outline.Sound.text {o : Outline} (ho : o.Sound) : o.path.Sound := by
  rcases ho.path with ⟨p, hp⟩ | ⟨ps, hp, hps⟩ <;> rw [hp]
  · trivial
  · exact hps.isText

section

variable {o : Outline} {H : Heap}

/-- The path of a message is what is written of it. -/
theorem Outline.message_path {m : Message} (h : (o.message H).1 = some m) :
    (o.path.written H).1 = some m.path := by
  rw [message] at h
  rcases hpath : o.path.written H with ⟨_ | path, H₁⟩ <;> simp only [hpath] at h
  · cases h
  · cases hbody : o.body with
    | none =>
      rw [hbody] at h
      exact Option.some.inj h ▸ rfl
    | some text =>
      rcases hwritten : text.written H₁ with ⟨_ | body, H₂⟩ <;> simp only [hbody, hwritten] at h
      · cases h
      · exact Option.some.inj h ▸ rfl

/-- What memory allows of an outline is all of it exactly if no append to it fails. -/
theorem Outline.message_iff (ho : o.Sound) :
    (o.message H).1 = some ⟨some o.path.text, o.body.map Text.text⟩ ↔
      o.path.Fits H ∧ ∀ t ∈ o.body, t.Fits (o.path.written H).2 := by
  rw [← Text.written_iff ho.text, message]
  rcases hpath : o.path.written H with ⟨_ | path, H₁⟩
  · exact iff_of_false (fun h => by cases h) fun h => by cases h.1
  · cases hbody : o.body with
    | none => simp
    | some text =>
      have hwritten := Text.written_iff (ho.body text hbody) H₁
      rcases htext : text.written H₁ with ⟨_ | body, H₂⟩ <;> rw [htext] at hwritten
      · simp only [htext, reduceCtorEq, false_iff] at hwritten ⊢
        exact fun h => hwritten (h.2 text rfl)
      · simp only [htext, Option.some.injEq, Message.mk.injEq, Option.map_some, Option.mem_def,
          forall_eq', ← hwritten]

end

/-! ## Calls -/

theorem Outline.sound_ofPath (p : CStr) : (Outline.ofPath (.whole p)).Sound :=
  ⟨.inl ⟨p, rfl⟩, fun _ h => by cases h⟩

theorem Outline.sound_ofBody (p : CStr) {body : Text} (hbody : body.Sound) :
    (Outline.ofBody p body).Sound :=
  ⟨.inl ⟨p, rfl⟩, fun _ h => Option.some.inj h ▸ hbody⟩

/-- The path of an operation on a name. -/
theorem PathOp.isPath (op : PathOp) (name : CStr) : IsPath (op.appends name) :=
  ⟨by cases op <;> exact ⟨_, _, _, rfl⟩, (op.appends_plain name).1⟩

theorem Outline.sound_path (op : PathOp) (name method : CStr) :
    (Outline.mk method (.built (op.appends name)) none).Sound :=
  ⟨.inr ⟨_, rfl, op.isPath name⟩, fun _ h => by cases h⟩

/-- What is written for a call are texts. -/
theorem Call.outline_sound {call : Call} {o : Outline} (ho : call.outline lib = some o) :
    o.Sound := by
  -- The parts of such a text are the code's own, and none of them holds a NUL.
  have hbody : ∀ {p : Bytes} {ps : Appends}, p ≠ [] → NulFree (p :: ps) →
      (Text.built (p :: ps)).Sound := fun hp hnul =>
    ⟨List.cons_ne_nil _ _, fun h => hp (Option.some.inj h), hnul⟩
  have htxn : ∀ {ops : List Op} {key : Option CStr}, Outline.txn lib ops key = some o →
      o.Sound := by
    intro ops key ho
    rw [Outline.txn] at ho
    split_ifs at ho
    exact Option.some.inj ho ▸ Outline.sound_ofBody _
      (hbody (List.cons_ne_nil _ _) (zero_notMem_commitAppends ops key))
  have hcreate : ∀ {name : Option CStr} {columns : Option (List Column)}
      {constraintsJson : Option CStr} {indexes : Option (List Index)},
      Outline.create name columns constraintsJson indexes = some o → o.Sound := by
    intro name columns constraintsJson indexes ho
    cases name <;> cases columns <;> cases ho
    exact Outline.sound_ofBody _
      ⟨List.cons_ne_nil _ _, fun h => List.cons_ne_nil _ _ (Option.some.inj h),
        nulFree_createTable _ _ _ _⟩
  have hquery : ∀ (table : CStr) (conditions : List Condition) (projection : List Int64)
      (limit offset : Int64), (Outline.ofBody (.lit "/kit/query")
        (.built (queryAppends lib table conditions projection limit offset))).Sound := by
    intro table conditions projection limit offset
    exact Outline.sound_ofBody _
      (hbody (List.cons_ne_nil _ _) (zero_notMem_queryAppends lib table _ _ _ _))
  -- Where a guard ends the call there is no outline, and `cases ho` closes the case.
  cases call with
  | lastErrorCode => cases ho
  | health => cases ho; exact Outline.sound_ofPath _
  | tableNames outNames outCount =>
    cases outNames <;> cases outCount <;> cases ho
    exact Outline.sound_ofPath _
  | createTable name columns => exact hcreate ho
  | createTableWithConstraintsJson name columns constraintsJson => exact hcreate ho
  | createTableWithSchemaJson name columns constraintsJson indexes => exact hcreate ho
  | historyRetentionGet => cases ho; exact Outline.sound_ofPath _
  | historyRetentionSet epochs =>
    obtain ⟨body, -, rfl⟩ := Option.map_eq_some_iff.1 ho
    exact ⟨.inl ⟨_, rfl⟩, fun _ h => Option.some.inj h ▸ trivial⟩
  | dropTable name =>
    cases name <;> cases ho
    exact Outline.sound_path .dropTable _ _
  | count table outCount =>
    cases table <;> cases outCount <;> cases ho
    exact Outline.sound_path .count _ _
  | put table cells idempotencyKey =>
    rcases table with _ | table
    · cases ho
    rcases cells with _ | cells
    · cases ho
    exact htxn ho
  | upsert table cells updateCells idempotencyKey =>
    rcases table with _ | table
    · cases ho
    rcases cells with _ | cells
    · cases ho
    exact htxn ho
  | delete table rowId =>
    rcases table with _ | table
    · cases ho
    exact htxn ho
  | deleteByPk table pk =>
    rcases table with _ | table
    · cases ho
    rcases pk with _ | pk
    · cases ho
    exact htxn ho
  | commit ops idempotencyKey =>
    rcases ops with _ | _ | ⟨op, ops⟩
    · cases ho
    · cases ho
    exact htxn ho
  | query table conditions projection limit outResult =>
    cases table <;> cases outResult <;> cases ho
    exact hquery _ _ _ _ _
  | queryPage table conditions projection limit offset outResult =>
    cases table <;> cases outResult <;> cases ho
    exact hquery _ _ _ _ _
  | sql text =>
    cases text <;> cases ho
    exact Outline.sound_ofBody _ (hbody (List.cons_ne_nil _ _) (by
      change NulFree (sqlAppends _)
      simp +decide [sqlAppends]))
  | queryStatusGet queryId out =>
    rw [outline] at ho
    split_ifs at ho
    exact Option.some.inj ho ▸ Outline.sound_path .queryStatusGet _ _
  | cancelQuery queryId =>
    rw [outline] at ho
    split_ifs at ho
    obtain rfl := Option.some.inj ho
    exact ⟨.inr ⟨_, rfl, PathOp.cancelQuery.isPath _⟩, fun _ h => Option.some.inj h ▸ trivial⟩
  | retrieveText table embeddingColumn text k =>
    rw [outline] at ho
    split_ifs at ho
    exact Option.some.inj ho ▸ Outline.sound_ofBody _
      ⟨List.cons_ne_nil _ _, fun h => List.cons_ne_nil _ _ (Option.some.inj h),
        nulFree_retrieveText _ _ _ _⟩
  | schema outBody =>
    cases outBody <;> cases ho
    exact Outline.sound_ofPath _
  | schemaFor table outBody =>
    cases table <;> cases outBody <;> cases ho
    exact Outline.sound_path .schemaFor _ _

/-! ## Requests -/

/-- The pieces of the header for a token. -/
def bearerAppends (token : CStr) : Appends := [ascii "Authorization: Bearer ", token.bytes]

/-- Nothing fails that the request of an outline is made of. -/
structure Session.Serves (s : Session) (o : Outline) : Prop where
  path : o.path.Fits s.heaps.body
  body : ∀ t ∈ o.body, t.Fits (o.path.written s.heaps.body).2
  init : s.answer.init = true
  intact : s.Intact o.path.text (o.body.map Text.text)
  token : ∀ token ∈ s.c.token, s.answer.authorization = true ∧
    AppendsFit (s.buildsUrl o.path.text).2 (bearerAppends token)

/-- The header for a token is there exactly if no append to it fails. -/
theorem bearer_iff (token : CStr) (H : Heap) :
    (bearer token H).1 = true ↔ AppendsFit H (bearerAppends token) := by
  have hzero : Sbuf.empty.len = 0 := rfl
  have hfirst : (Sbuf.empty.push (ascii "Authorization: Bearer ")).len =
    (ascii "Authorization: Bearer ").length := rfl
  have hlen : (bearerAppends token).flatten.length =
      (ascii "Authorization: Bearer ").length + token.bytes.length := by
    rw [bearerAppends, List.flatten_cons, List.flatten_singleton, List.length_append]
  have hasks : Sbuf.empty.asksAll (bearerAppends token) =
      0 + Sbuf.empty.asks (ascii "Authorization: Bearer ").length +
        (Sbuf.empty.push (ascii "Authorization: Bearer ")).asks token.bytes.length := by
    rw [bearerAppends, Sbuf.asksAll, Sbuf.asksAll, Sbuf.asksAll, Nat.zero_add, Nat.add_zero]
  rw [AppendsFit, hasks, hlen, bearer]
  -- The prefix and the token are two appends, and either may be refused.
  rcases Sbuf.append_spec (s := Sbuf.empty) (After.zero H) (ascii "Authorization: Bearer ") with
    ⟨H₁, he, ha⟩ | ⟨H₁, he, href⟩
  · rcases Sbuf.append_spec (s := Sbuf.empty.push (ascii "Authorization: Bearer ")) ha
      token.bytes with ⟨H₂, he', ha'⟩ | ⟨H₂, he', href'⟩
    · refine iff_of_true (by simp only [he, he', if_true]) ⟨ha'.granted, ?_⟩
      exact hfirst ▸ Sbuf.length_of_append (s := Sbuf.empty.push (ascii "Authorization: Bearer "))
        (by rw [hfirst]; decide) (congrArg Prod.fst he')
    · refine iff_of_false (by simp [he, he']) fun h => ?_
      exact h.1.not_refused (href' (hfirst ▸ h.2))
  · refine iff_of_false (by simp [he]) fun h => ?_
    have hfits : Sbuf.empty.len + (ascii "Authorization: Bearer ").length < SIZE_MAX := by decide
    exact (h.1.mono (Nat.le_add_right _ _)).not_refused (href hfits)

variable {s : Session}

theorem Client.authorized_iff (c : Client) (ans : Answer) (H : Heap) :
    (c.authorized ans H).isSome = true ↔ ∀ token ∈ c.token, ans.authorization = true ∧
      AppendsFit H (bearerAppends token) := by
  rw [authorized]
  cases c.token with
  | none => cases c.username <;> exact iff_of_true rfl fun _ h => by cases h
  | some token =>
    have hbearer := bearer_iff token H
    simp only [Option.mem_def, Option.some.injEq, forall_eq', ← hbearer]
    cases (bearer token H).1 <;> cases ans.authorization <;> simp

/-- The request of an outline is made exactly if nothing fails that it is made of. -/
theorem Outline.sends?_iff {o : Outline} (ho : o.Sound) (hbase : s.c.baseUrl.bytes ≠ [])
    (huser : ∀ username ∈ s.c.username, username.bytes ≠ []) :
    o.sends? s = some (s.c.settings.request o) ↔ s.Serves o := by
  have hrequest : s.c.settings.request o =
    s.c.request o.method o.path.text (o.body.map Text.text) := rfl
  have hmessage := Outline.message_iff (H := s.heaps.body) ho
  have hsends : s.sends? o.method o.path.text (o.body.map Text.text) =
        some (s.c.settings.request o) ↔
      (s.answer.init = true ∧ (s.c.authorized s.answer (s.buildsUrl o.path.text).2).isSome = true) ∧
        s.Intact o.path.text (o.body.map Text.text) := by
    rw [hrequest, ← made_eq_request_iff hbase huser o.method, Session.sends?, ← Bool.and_eq_true]
    split_ifs with h
    · rw [Option.some_inj, and_iff_right h]
    · exact iff_of_false (fun h => by cases h) fun h' => h h'.1
  refine ⟨fun h => ?_, fun h => ?_⟩
  · obtain ⟨m, hm, h⟩ := Option.bind_eq_some_iff.1 h
    obtain ⟨path, hpath, h⟩ := Option.bind_eq_some_iff.1 h
    have hmade : s.made o.method path m.body = s.c.settings.request o := by
      rw [Session.sends?] at h
      split_ifs at h
      exact Option.some.inj h
    have hwritten := Outline.message_path hm
    -- The URL is complete, and so are the path and the body.
    have hpathEq : path = o.path.text := by
      rcases ho.path with ⟨p, hp⟩ | ⟨ps, hp, hps⟩
      · rw [hpath, hp] at hwritten
        rw [hp, Text.text, Text.pieces, List.flatten_singleton, CStr.at_self]
        exact (Option.some.inj (Option.some.inj hwritten)).symm
      · rw [hpath, hp] at hwritten
        have hurl : (s.buildsUrl path).1 = some (urlOf s.c.baseUrl o.path.text) :=
          congrArg Request.url hmade
        rw [hp] at hurl ⊢
        exact hps.eq_of_url (partOf_appendAll (Option.some.inj hwritten)) (partOf_appendAll hurl) rfl
    have hbody : m.body = o.body.map Text.text := congrArg Request.body hmade
    subst hpathEq
    rw [hbody] at h
    have hall : m = ⟨some o.path.text, o.body.map Text.text⟩ := by
      rw [← hpath, ← hbody]
    obtain ⟨hfits, hbodyFits⟩ := hmessage.1 (hm.trans (congrArg some hall))
    obtain ⟨⟨hinit, hauthorized⟩, hintact⟩ := hsends.1 h
    exact ⟨hfits, hbodyFits, hinit, hintact, (s.c.authorized_iff s.answer _).1 hauthorized⟩
  · rw [sends?, hmessage.2 ⟨h.path, h.body⟩, Option.bind_some, Option.bind_some, hsends]
    exact ⟨⟨h.init, (s.c.authorized_iff s.answer _).2 h.token⟩, h.intact⟩

/-- Whatever fails, a call of a client whose base URL and user name are not empty has sent exactly
    the request it is to send if and only if nothing has failed that this request is made of. -/
theorem Call.sends_iff {call : Call} {o : Outline} {rc : Code} {s' : Session}
    (hbase : s.c.baseUrl.bytes ≠ []) (huser : ∀ username ∈ s.c.username, username.bytes ≠ [])
    (ho : call.outline lib = some o) (h : call.returns lib s = some (rc, s')) :
    s'.curl.sent = s.c.settings.request o :: s.curl.sent ↔ s.Serves o := by
  have hsends : call.sends? lib s = o.sends? s := by rw [sends?, ho]; rfl
  rw [(Call.effect h).sent, hsends, ← Outline.sends?_iff (Call.outline_sound ho) hbase huser]
  cases o.sends? s with
  | none => exact iff_of_false (fun h => List.cons_ne_self _ _ h.symm) fun h => by cases h
  | some req => simp

/-- Without memory for the base URL, a call does not send the request it is to send. -/
theorem connected_health_sends_iff :
    ¬(Session.transferring firstRefused).Serves (.ofPath (.whole (.lit "/health"))) ∧ ∃ rc s',
      Call.health.returns .zero (.transferring firstRefused) = some (rc, s') ∧
      (s'.curl.sent = (Session.transferring firstRefused).c.settings.request
          (.ofPath (.whole (.lit "/health"))) :: (Session.transferring firstRefused).curl.sent ↔
        (Session.transferring firstRefused).Serves (.ofPath (.whole (.lit "/health")))) := by
  have hsome : Call.health.returns .zero (.transferring firstRefused) ≠ none := by
    intro hnone
    obtain ⟨o, ps, ho, hps, -⟩ := (Call.returns_none_iff _).1 hnone
    obtain rfl := Option.some.inj ho
    cases hps
  obtain ⟨r, hr⟩ := Option.ne_none_iff_exists'.1 hsome
  have htext : (Text.whole (.lit "/health")).text = .lit "/health" := CStr.ext (by decide)
  refine ⟨fun h => transferring_not_intact none ?_, r.1, r.2, hr,
    Call.sends_iff (by decide) (fun _ h => by cases h) rfl hr⟩
  exact htext ▸ h.intact

end MongrelDB
