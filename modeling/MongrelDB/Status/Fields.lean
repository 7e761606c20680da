import MongrelDB.Lookup.Fields
import MongrelDB.Lookup.Safety
import MongrelDB.Serialize.Text
import MongrelDB.Status

/-!
# The fields of a status

What is decoded from the text of an object, as a function of its members: each
field is what its lookup makes of them (`boolField`, `numField`, `hlcOf`), up to
the strings (`CommitFields.Read`, `QueryStatus.Read`). The decoding never faults,
and returns `MDB_OK` (`queryStatusDecodeJson_read`).
-/

namespace MongrelDB

open Prog

/-! ## Fields by members -/

/-- The members of the object `key` in an object, if there is one. -/
def nested (key : CStr) (ms : List (Member Json)) : List (Member Json) :=
  match field? Json.isObj key.bytes ms with
  | some (.obj ms' _) => ms'
  | _ => []

theorem nested_writtenMember (key key' : CStr) (ms' ms : List (Member Json)) (w : Ws) :
    nested key (writtenMember key' (plainItem (.obj ms' w)) :: ms) =
      if key' = key then ms' else nested key ms := by
  rw [nested, field?_writtenMember]
  by_cases hkey : key' = key
  · rw [if_pos ⟨hkey, rfl⟩, if_pos hkey]
    rfl
  · rw [if_neg fun h => hkey h.1, if_neg hkey]
    rfl

/-- The nested objects of a response. -/
def nestedKeys : List CStr := [.lit "outcome", .lit "durable"]

/-- The members of a clock in an object. -/
abbrev hlcMembers (ms : List (Member Json)) : List (Member Json) :=
  nested (.lit "last_commit_hlc") ms

/-- The field for a boolean. The flag of a missing one is set, too, but for the empty object. -/
def boolField (key : CStr) (ms : List (Member Json)) : Flagged Bool :=
  match field? Json.isBool key.bytes ms with
  | some v => ⟨v.text == ascii "true", true⟩
  | none => ⟨false, !ms.isEmpty⟩

/-- The field for a number. -/
def numField {α : Type} [OfNat α 0] (conv : Int64 → α) (key : CStr) (ms : List (Member Json)) :
    Flagged α :=
  match field? Json.isNum key.bytes ms with
  | some v => ⟨conv (strtoll (clipTok 64 v.text)), true⟩
  | none => if ms.isEmpty then ⟨0, false⟩ else ⟨conv 0, true⟩

/-- The clock in an object with these members. -/
def hlcOf (ms : List (Member Json)) : CommitHlc :=
  let phys := numField id (.lit "physical_micros") ms
  if phys.set then
    ⟨phys.value.toUInt64, (numField id (.lit "logical") ms).value.toUInt64.toUInt32,
      (numField id (.lit "node_tiebreaker") ms).value.toUInt64.toUInt32, true⟩
  else .zero

/-- The fields of `f` are read from the members `ms`. -/
structure CommitFields.Read {σ : Type} (f : CommitFields σ) (ms : List (Member Json)) : Prop where
  committed : f.committed = boolField (.lit "committed") ms
  committedStatements : f.committedStatements = numField id (.lit "committed_statements") ms
  lastCommitEpoch : f.lastCommitEpoch = numField Int64.toUInt64 (.lit "last_commit_epoch") ms
  lastCommitHlc : PlainKeys (hlcMembers ms) → f.lastCommitHlc = hlcOf (hlcMembers ms)
  firstCommitStatementIndex :
    f.firstCommitStatementIndex = numField id (.lit "first_commit_statement_index") ms
  lastCommitStatementIndex :
    f.lastCommitStatementIndex = numField id (.lit "last_commit_statement_index") ms
  completedStatements : f.completedStatements = numField id (.lit "completed_statements") ms
  statementIndex : f.statementIndex = numField id (.lit "statement_index") ms

/-- A status is read from the members of a response. -/
structure QueryStatus.Read (out : QueryStatus) (ms : List (Member Json)) : Prop where
  fields : out.toCommitFields.Read ms
  retryable : out.retryable = boolField (.lit "retryable") ms
  outcome : out.outcome.toCommitFields.Read (nested (.lit "outcome") ms)
  durable : out.durable.toCommitFields.Read (nested (.lit "durable") ms)
  durableSet : out.durableSet = !ms.isEmpty

/-- Without members, all fields are zero. -/
theorem CommitFields.zero_read {σ : Type} : (CommitFields.zero : CommitFields (Option σ)).Read [] :=
  ⟨rfl, rfl, rfl, fun _ => rfl, rfl, rfl, rfl, rfl⟩

/-- The strings make no difference. -/
theorem CommitFields.Read.resolve {f : CommitFields (Option Nat)} {ms : List (Member Json)}
    (h : f.Read ms) (blob : Sbuf) : (f.resolve blob).Read ms :=
  ⟨h.committed, h.committedStatements, h.lastCommitEpoch, h.lastCommitHlc,
    h.firstCommitStatementIndex, h.lastCommitStatementIndex, h.completedStatements,
    h.statementIndex⟩

/-! ## Decoding steps -/

section

variable {src : Bytes} {key : CStr} {ms : List (Member Json)} {w : Ws} {s : BlobState}
  {R : Code → BlobState → Prop} {lib : Libc}

/-- A string is copied or not, and the decoding goes on. -/
theorem wp_copy : wp (jsonCopyStringFieldOff src key) (fun _ _ => True) R s := by
  obtain ⟨⟨found, tmp, heap⟩, hget, -⟩ := jsonGetString_ends src key s.heap
  have happend : ∀ p s', wp (appendBlob p) (fun _ _ => True) R s' := fun _ _ => trivial
  simp only [jsonCopyStringFieldOff, wp_bind, wp_get, wp_modify]
  refine wp_lift hget ?_
  cases found with
  | false => trivial
  | true => cases tmp with
    | none => trivial
    | some tmp =>
      refine wp_seq (happend tmp.bytes _) fun ok _ _ => ?_
      cases ok with
      | false => trivial
      | true =>
        refine wp_seq (happend [0] _) fun ok _ _ => ?_
        cases ok <;> trivial

theorem wp_flagBool (hsrc : TextOf (.obj ms w) src) (hplain : PlainKeys ms) :
    wp (flagBool src key) (fun f _ => f = boolField key ms) R s := by
  obtain ⟨hvalid, pre, post, rfl⟩ := hsrc
  have hget := jsonGetBool_obj key (by cases hvalid; assumption) pre w post.bytes
  rw [objText, ← field?_of_plain hplain] at hget
  simp only [flagBool, wp_bind]
  refine wp_lift hget ?_
  rw [wp_pure, boolField]
  cases hf : field? Json.isBool key.bytes ms with
  | none => cases ms <;> rfl
  | some v =>
    obtain ⟨t, rfl⟩ := text_of_isBool (kind_of_field? hf)
    simp [Json.text]

/-- A number is read from the text of an object. -/
theorem jsonGetNumber_field (lib : Libc) (key : CStr) (hsrc : TextOf (.obj ms w) src)
    (hplain : PlainKeys ms) :
    ∃ d, jsonGetNumber lib src key =
      .ok ((numField id key ms).set, d, (numField id key ms).value) := by
  obtain ⟨-, pre, post, rfl⟩ := hsrc
  have hget := jsonGetNumber_obj ms key lib pre w post.bytes
  rw [objText, ← field?_of_plain hplain] at hget
  rw [numField]
  cases hf : field? Json.isNum key.bytes ms with
  | none =>
    rw [hf] at hget
    cases ms <;> exact ⟨_, hget⟩
  | some v =>
    obtain ⟨t, rfl⟩ := text_of_isNum (kind_of_field? hf)
    rw [hf] at hget
    exact ⟨_, hget⟩

theorem numField_conv {α : Type} [OfNat α 0] (conv : Int64 → α) (key : CStr)
    (ms : List (Member Json)) : numField conv key ms =
      if (numField id key ms).set then ⟨conv (numField id key ms).value, true⟩ else ⟨0, false⟩ := by
  rw [numField, numField]
  cases field? Json.isNum key.bytes ms with
  | none => cases ms <;> rfl
  | some v => rfl

theorem wp_flagNumber {α : Type} [OfNat α 0] {conv : Int64 → α} (hsrc : TextOf (.obj ms w) src)
    (hplain : PlainKeys ms) :
    wp (flagNumber lib conv src key) (fun f _ => f = numField conv key ms) R s := by
  obtain ⟨d, hget⟩ := jsonGetNumber_field lib key hsrc hplain
  simp only [flagNumber, wp_bind]
  refine wp_lift hget ?_
  rw [wp_pure, numField_conv conv]

theorem wp_parseCommitHlc (hsrc : TextOf (.obj ms w) src) (hplain : PlainKeys ms) :
    wp (parseCommitHlc lib src) (fun hlc _ => hlc = hlcOf ms) R s := by
  obtain ⟨_, hphys⟩ := jsonGetNumber_field lib (.lit "physical_micros") hsrc hplain
  obtain ⟨_, hlogical⟩ := jsonGetNumber_field lib (.lit "logical") hsrc hplain
  obtain ⟨_, htie⟩ := jsonGetNumber_field lib (.lit "node_tiebreaker") hsrc hplain
  simp only [parseCommitHlc, wp_bind]
  refine wp_lift hphys ?_
  rw [hlcOf]
  cases hset : (numField id (.lit "physical_micros") ms).set with
  | false => rfl
  | true =>
    simp only [Bool.not_true, Bool.false_eq_true, if_false, wp_bind]
    refine wp_lift hlogical ?_
    refine wp_lift htie ?_
    rfl

/-- Whatever the text is, the decoding of a clock goes on, and leaves the buffer alone. -/
theorem wp_parseCommitHlc_keeps {P : BlobState → Prop} (hs : P s) :
    wp (parseCommitHlc lib src) (fun _ s' => P s') R s := by
  obtain ⟨⟨found, d, phys⟩, hphys, -⟩ := jsonGetNumber_ends lib src (.lit "physical_micros")
  obtain ⟨_, hlogical, -⟩ := jsonGetNumber_ends lib src (.lit "logical")
  obtain ⟨_, htie, -⟩ := jsonGetNumber_ends lib src (.lit "node_tiebreaker")
  simp only [parseCommitHlc, wp_bind]
  refine wp_lift hphys ?_
  cases found with
  | false => exact hs
  | true =>
    simp only [Bool.not_true, Bool.false_eq_true, if_false, wp_bind]
    refine wp_lift hlogical ?_
    exact wp_lift htie hs

/-- The object `key`, as `json_get_object_raw` finds it: its text is that of the nested members. -/
theorem jsonGetObjectRaw_nested (key : CStr) (hsrc : TextOf (.obj ms w) src)
    (hplain : PlainKeys ms) :
    (∃ src' w', jsonGetObjectRaw src key = .ok (true, some src') ∧
        TextOf (.obj (nested key ms) w') src') ∨
      (nested key ms = [] ∧ jsonGetObjectRaw src key = .ok (!ms.isEmpty, none)) := by
  obtain ⟨hvalid, pre, post, rfl⟩ := hsrc
  have hget := jsonGetObjectRaw_obj ms key pre w post.bytes
  rw [objText, ← field?_of_plain hplain] at hget
  rw [nested]
  cases hf : field? Json.isObj key.bytes ms with
  | none =>
    rw [hf] at hget
    exact .inr ⟨rfl, hget⟩
  | some v =>
    have hv : v.Valid := valid_of_field? (by cases hvalid; assumption) hf
    obtain ⟨ms', w', rfl⟩ := text_of_isObj (kind_of_field? hf)
    rw [hf] at hget
    exact .inl ⟨_, w', hget, hv, Ws.none, Ws.none, by simp [Ws.none]⟩

/-- A clock is read from the object `last_commit_hlc`, if there is one. -/
theorem wp_parseLastCommitHlc (hsrc : TextOf (.obj ms w) src) (hplain : PlainKeys ms) :
    wp (parseLastCommitHlc lib src)
      (fun hlc _ => PlainKeys (hlcMembers ms) → hlc = hlcOf (hlcMembers ms)) R s := by
  rw [parseLastCommitHlc, wp_bind]
  rcases jsonGetObjectRaw_nested (.lit "last_commit_hlc") hsrc hplain with
    ⟨src', w', hget, hsrc'⟩ | ⟨hnone, hget⟩
  · refine wp_lift hget ?_
    by_cases hkeys : PlainKeys (hlcMembers ms)
    · exact wp_mono (wp_parseCommitHlc hsrc' hkeys) (fun _ _ h _ => h) fun _ _ h => h
    · exact wp_mono (wp_parseCommitHlc_keeps (P := fun _ => True) trivial)
        (fun _ _ _ h => absurd h hkeys) fun _ _ h => h
  · refine wp_lift hget ?_
    rw [hlcMembers, hnone]
    cases ms with
    | nil => exact fun _ => rfl
    | cons m ms =>
      -- What is found is NULL, which has no numbers.
      have hnull : ∀ key, jsonGetNumber lib [] key = .ok (false, ⟨0⟩, 0) := fun _ => rfl
      simp only [List.isEmpty_cons, Bool.not_false, if_true, Option.getD_none,
        parseCommitHlc, wp_bind]
      refine wp_lift (hnull _) ?_
      exact fun _ => rfl

theorem wp_parseCommitFields (hsrc : TextOf (.obj ms w) src) (hplain : PlainKeys ms) :
    wp (parseCommitFields lib src) (fun f _ => f.Read ms) R s := by
  refine wp_seq (wp_flagBool hsrc hplain) fun _ _ h₁ => ?_
  refine wp_seq (wp_flagNumber hsrc hplain) fun _ _ h₂ => ?_
  refine wp_seq (wp_flagNumber hsrc hplain) fun _ _ h₃ => ?_
  refine wp_seq wp_copy fun _ _ _ => ?_
  refine wp_seq (wp_parseLastCommitHlc hsrc hplain) fun _ _ h₄ => ?_
  refine wp_seq (wp_flagNumber hsrc hplain) fun _ _ h₅ => ?_
  refine wp_seq (wp_flagNumber hsrc hplain) fun _ _ h₆ => ?_
  refine wp_seq (wp_flagNumber hsrc hplain) fun _ _ h₇ => ?_
  refine wp_seq (wp_flagNumber hsrc hplain) fun _ _ h₈ => ?_
  exact ⟨h₁, h₂, h₃, h₄, h₅, h₆, h₇, h₈⟩

/-! ## Objects -/

/-- The text of an object is not empty. -/
theorem TextOf.exists_cons (hsrc : TextOf (.obj ms w) src) : ∃ c r, src = c :: r := by
  obtain ⟨-, pre, post, rfl⟩ := hsrc
  exact List.exists_cons_of_ne_nil (by simp [Json.text])

theorem wp_parseDurableOutcomeOffs (hsrc : TextOf (.obj ms w) src) (hplain : PlainKeys ms) :
    wp (parseDurableOutcomeOffs lib (some src)) (fun out _ => out.toCommitFields.Read ms) R s := by
  obtain ⟨c, r, rfl⟩ := hsrc.exists_cons
  refine wp_seq (x := parseCommitFields lib (c :: r)) (wp_parseCommitFields hsrc hplain)
    fun _ _ h => ?_
  refine wp_seq wp_copy fun _ _ _ => ?_
  refine wp_seq wp_copy fun _ _ _ => ?_
  refine wp_seq wp_copy fun _ _ _ => ?_
  exact h

/-- What is read from the object `key`, if there is one. It is said to be there
    exactly if the object around it is not empty. -/
theorem wp_parseNested (hsrc : TextOf (.obj ms w) src) (hplain : PlainKeys ms)
    (hnested : PlainKeys (nested key ms)) :
    wp (parseNested lib src key)
      (fun out _ => out.value.toCommitFields.Read (nested key ms) ∧ out.set = !ms.isEmpty) R s := by
  rw [parseNested, wp_bind]
  rcases jsonGetObjectRaw_nested key hsrc hplain with ⟨src', w', hget, hsrc'⟩ | ⟨hnone, hget⟩
  · refine wp_lift hget ?_
    refine wp_seq (wp_parseDurableOutcomeOffs hsrc' hnested) fun _ _ h => ?_
    refine ⟨h, ?_⟩
    -- The object around it has a member.
    cases ms with
    | nil =>
      obtain ⟨-, pre, post, rfl⟩ := hsrc
      have hempty := jsonGetObjectRaw_obj [] key pre w post.bytes
      rw [objText] at hempty
      exact Bool.noConfusion (show true = false from
        congrArg Prod.fst (Except.ok.inj (hget.symm.trans hempty)))
    | cons m ms => rfl
  · refine wp_lift hget ?_
    rw [hnone]
    cases ms with
    | nil => exact ⟨CommitFields.zero_read, rfl⟩
    | cons m ms => exact ⟨CommitFields.zero_read, rfl⟩

end

/-! ## The status -/

/-- On the text of an object, `query_status_decode_json` returns `MDB_OK` with what
    it reads from the members. -/
theorem queryStatusDecodeJson_read (lib : Libc) {src : Bytes} {ms : List (Member Json)}
    {w : Ws} (hsrc : TextOf (.obj ms w) src) (hplain : PlainKeys ms)
    (hnested : ∀ key ∈ nestedKeys, PlainKeys (nested key ms)) (blob : Sbuf) (h : Heap) :
    ∃ out blob' h', queryStatusDecodeJson lib (some src) blob h = .ok (.ok, out, blob', h') ∧
      out.Read ms := by
  have hbody : wp (queryStatusBody lib src) (fun out _ => out.Read ms) (fun _ _ => False)
      ⟨blob, h⟩ := by
    simp only [nestedKeys, List.forall_mem_cons] at hnested
    rw [queryStatusBody, wp_bind, wp_modify]
    refine wp_seq wp_copy fun _ _ _ => ?_
    refine wp_seq wp_copy fun _ _ _ => ?_
    refine wp_seq wp_copy fun _ _ _ => ?_
    refine wp_seq wp_copy fun _ _ _ => ?_
    refine wp_seq wp_copy fun _ _ _ => ?_
    refine wp_seq (wp_parseCommitFields hsrc hplain) fun _ _ h₁ => ?_
    refine wp_seq wp_copy fun _ _ _ => ?_
    refine wp_seq wp_copy fun _ _ _ => ?_
    refine wp_seq (wp_flagBool hsrc hplain) fun _ _ h₂ => ?_
    refine wp_seq (wp_parseNested hsrc hplain hnested.1) fun _ _ h₃ => ?_
    refine wp_seq (wp_parseNested hsrc hplain hnested.2.1) fun _ s h₄ => ?_
    rw [wp_bind, wp_get, wp_pure]
    exact ⟨h₁.resolve s.blob, h₂, h₃.1.resolve s.blob, h₄.1.resolve s.blob, h₄.2⟩
  obtain ⟨out, s, hs, hout⟩ := exists_val_of_wp hbody
  exact ⟨out, s.blob, s.heap, by simp only [queryStatusDecodeJson, hs], hout⟩

end MongrelDB
