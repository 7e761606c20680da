import MongrelDB.Lookup.Presence
import MongrelDB.Status.Fields

/-!
# Presence in a status

A field of a status reports a member if its flag is set exactly if the member is
there, and the field then holds its value (`CommitFields.Reports`,
`QueryStatus.Reports`). As the lookups return 1 for what is missing from an
object that is not empty, the decoded status keeps this only if the objects it
is read from are empty or have all the members (`queryStatusDecodeJson_reports_iff`).
-/

namespace MongrelDB

/-! ## What a status reports -/

/-- A boolean field reports the member `key`. -/
def Flagged.ReportsBool (f : Flagged Bool) (key : CStr) (ms : List (Member Json)) : Prop :=
  Reports Json.isBool key ms f.set fun v => v.datum? = some (.bool f.value)

/-- A number field, read as an integer by `val`, reports the member `key`: if that
    is an integer of 64 bits, the field holds it. -/
def Flagged.ReportsNumber {α : Type} (f : Flagged α) (val : α → Int) (key : CStr)
    (ms : List (Member Json)) : Prop :=
  Reports Json.isNum key ms f.set fun v =>
    ∀ n : Int64, v.datum? = some (.int n.toInt) → val f.value = n.toInt

/-- The flags and the fields report the members of an object. -/
structure CommitFields.Reports {σ : Type} (f : CommitFields σ)
  (ms : List (Member Json)) : Prop where
  committed : f.committed.ReportsBool (.lit "committed") ms
  committedStatements :
    f.committedStatements.ReportsNumber Int64.toInt (.lit "committed_statements") ms
  lastCommitEpoch : f.lastCommitEpoch.ReportsNumber (·.toNat) (.lit "last_commit_epoch") ms
  firstCommitStatementIndex :
    f.firstCommitStatementIndex.ReportsNumber Int64.toInt (.lit "first_commit_statement_index") ms
  lastCommitStatementIndex :
    f.lastCommitStatementIndex.ReportsNumber Int64.toInt (.lit "last_commit_statement_index") ms
  completedStatements :
    f.completedStatements.ReportsNumber Int64.toInt (.lit "completed_statements") ms
  statementIndex : f.statementIndex.ReportsNumber Int64.toInt (.lit "statement_index") ms

/-- A status reports the members of a response. -/
structure QueryStatus.Reports (out : QueryStatus) (ms : List (Member Json)) : Prop where
  fields : out.toCommitFields.Reports ms
  retryable : out.retryable.ReportsBool (.lit "retryable") ms
  outcome : out.outcome.toCommitFields.Reports (nested (.lit "outcome") ms)
  durable : out.durable.toCommitFields.Reports (nested (.lit "durable") ms)
  durableSet : out.durableSet = true ↔ HasMember Json.isObj (ascii "durable") ms

/-! ## When it does -/

/-- The numbers that tell what was committed. -/
def commitNumbers : List CStr :=
  [.lit "committed_statements", .lit "last_commit_epoch", .lit "first_commit_statement_index",
   .lit "last_commit_statement_index", .lit "completed_statements", .lit "statement_index"]

/-- The epoch is not negative: it is kept in an unsigned field. -/
def EpochFits (ms : List (Member Json)) : Prop :=
  ∀ v, field? Json.isNum (ascii "last_commit_epoch") ms = some v →
    ∀ n : Int64, v.datum? = some (.int n.toInt) → 0 ≤ n.toInt

/-- All the members are there that tell what was committed. -/
structure AllCommitFields (ms : List (Member Json)) : Prop where
  committed : HasMember Json.isBool (ascii "committed") ms
  numbers : ∀ key ∈ commitNumbers, HasMember Json.isNum key.bytes ms
  epoch : EpochFits ms

/-! ## Fields -/

section

variable {key : CStr} {ms : List (Member Json)}

theorem boolField_reports_iff : (boolField key ms).ReportsBool key ms ↔
    ms = [] ∨ HasMember Json.isBool key.bytes ms := by
  rw [Flagged.ReportsBool, boolField, ← field?_isSome_iff]
  cases hf : field? Json.isBool key.bytes ms with
  | none => cases ms <;> simp [reports_none hf]
  | some v =>
    have hkind := kind_of_field? hf
    obtain ⟨t, rfl⟩ := text_of_isBool hkind
    have hvalue : (Json.lit t).datum? = some (.bool (t.text == ascii "true")) := by
      rw [Json.isBool, Bool.or_eq_true, beq_iff_eq, beq_iff_eq] at hkind
      rcases hkind with h | h <;> rw [Json.datum?, h] <;> decide
    simp [reports_some hf, hvalue, Json.text]

/-- An integer of 64 bits is read exactly, from the first 63 bytes of its token. -/
theorem strtoll_of_datum? {t : NumTok} {n : Int64} (h : (Json.num t).datum? = some (.int n.toInt)) :
    strtoll (clipTok 64 t.text) = n := by
  refine Int64.toInt_inj.1 (strtoll_clipTok (by decide) ?_ n.le_toInt n.toInt_lt)
  rw [Json.datum?] at h
  split at h <;> simp_all

/-- A number is found exactly if there is one, or if the object is not empty, and it
    is delivered as `conv` converts it. -/
theorem numField_reports_iff {α : Type} [OfNat α 0] (conv : Int64 → α) (val : α → Int) :
    (numField conv key ms).ReportsNumber val key ms ↔ ms = [] ∨
      (HasMember Json.isNum key.bytes ms ∧ ∀ v, field? Json.isNum key.bytes ms = some v →
        ∀ n : Int64, v.datum? = some (.int n.toInt) → val (conv n) = n.toInt) := by
  rw [Flagged.ReportsNumber, numField, ← field?_isSome_iff]
  cases hf : field? Json.isNum key.bytes ms with
  | none => cases ms <;> simp [reports_none hf]
  | some v =>
    obtain ⟨t, rfl⟩ := text_of_isNum (kind_of_field? hf)
    have hne : ms ≠ [] := by rintro rfl; simp [field?] at hf
    simp only [reports_some hf, Option.isSome_some, true_and, hne, false_or, Option.some.injEq,
      forall_eq', Json.text]
    exact forall₂_congr fun n hn => by rw [strtoll_of_datum? hn]

theorem intField_reports_iff : (numField id key ms).ReportsNumber Int64.toInt key ms ↔
    ms = [] ∨ HasMember Json.isNum key.bytes ms :=
  (numField_reports_iff id Int64.toInt).trans (by simp)

/-- The conversion to `uint64_t` keeps what is not negative. -/
theorem toNat_toUInt64_eq_iff (n : Int64) : (n.toUInt64.toNat : Int) = n.toInt ↔ 0 ≤ n.toInt := by
  refine ⟨fun h => h ▸ Int.natCast_nonneg _, fun h => ?_⟩
  rw [Int64.toNat_toUInt64_of_le (Int64.le_iff_toInt_le.2 h)]
  exact Int.toNat_of_nonneg h

theorem epochField_reports_iff :
    (numField Int64.toUInt64 (.lit "last_commit_epoch") ms).ReportsNumber (·.toNat)
        (.lit "last_commit_epoch") ms ↔
      ms = [] ∨ (HasMember Json.isNum (ascii "last_commit_epoch") ms ∧ EpochFits ms) :=
  (numField_reports_iff Int64.toUInt64 _).trans (by simp only [toNat_toUInt64_eq_iff]; rfl)

/-- The fields report the members of an object that is empty or has all of them. -/
theorem CommitFields.Read.reports_iff {σ : Type} {f : CommitFields σ} (hf : f.Read ms) :
    f.Reports ms ↔ ms = [] ∨ AllCommitFields ms := by
  constructor
  · rintro ⟨h₁, h₂, h₃, h₄, h₅, h₆, h₇⟩
    rw [hf.committed, boolField_reports_iff] at h₁
    rw [hf.committedStatements, intField_reports_iff] at h₂
    rw [hf.lastCommitEpoch, epochField_reports_iff] at h₃
    rw [hf.firstCommitStatementIndex, intField_reports_iff] at h₄
    rw [hf.lastCommitStatementIndex, intField_reports_iff] at h₅
    rw [hf.completedStatements, intField_reports_iff] at h₆
    rw [hf.statementIndex, intField_reports_iff] at h₇
    -- An empty object reports nothing, and that is right.
    rcases eq_or_ne ms [] with hms | hms
    · exact .inl hms
    have hepoch := h₃.resolve_left hms
    refine .inr ⟨h₁.resolve_left hms, ?_, hepoch.2⟩
    simp only [commitNumbers, List.forall_mem_cons]
    exact ⟨h₂.resolve_left hms, hepoch.1, h₄.resolve_left hms, h₅.resolve_left hms,
      h₆.resolve_left hms, h₇.resolve_left hms, fun _ hkey => absurd hkey List.not_mem_nil⟩
  · intro h
    have hmem : ∀ key ∈ commitNumbers, ms = [] ∨ HasMember Json.isNum key.bytes ms :=
      fun key hkey => h.imp_right (·.numbers key hkey)
    simp only [commitNumbers, List.forall_mem_cons] at hmem
    obtain ⟨hm₂, hm₃, hm₄, hm₅, hm₆, hm₇, -⟩ := hmem
    refine ⟨?_, ?_, ?_, ?_, ?_, ?_, ?_⟩
    · exact hf.committed ▸ boolField_reports_iff.2 (h.imp_right (·.committed))
    · exact hf.committedStatements ▸ intField_reports_iff.2 hm₂
    · exact hf.lastCommitEpoch ▸
        epochField_reports_iff.2 (or_and_left.2 ⟨hm₃, h.imp_right (·.epoch)⟩)
    · exact hf.firstCommitStatementIndex ▸ intField_reports_iff.2 hm₄
    · exact hf.lastCommitStatementIndex ▸ intField_reports_iff.2 hm₅
    · exact hf.completedStatements ▸ intField_reports_iff.2 hm₆
    · exact hf.statementIndex ▸ intField_reports_iff.2 hm₇

end

/-! ## The status -/

/-- When the status decoded from an object reports its members: if it is empty, or
    has all of them, the object `durable` included, and if `outcome` and
    `durable`, where they are there, are empty or have all of theirs. -/
structure StatusComplete (ms : List (Member Json)) : Prop where
  fields : ms = [] ∨ AllCommitFields ms ∧ HasMember Json.isBool (ascii "retryable") ms ∧
    HasMember Json.isObj (ascii "durable") ms
  nested : ∀ key ∈ nestedKeys, nested key ms = [] ∨ AllCommitFields (nested key ms)

/-- The status decoded from an object reports its members if and only if none of
    the fields it is read for is missing. -/
theorem queryStatusDecodeJson_reports_iff {lib : Libc} {src : Bytes} {ms : List (Member Json)}
    {w : Ws} (hsrc : TextOf (.obj ms w) src) (hplain : PlainKeys ms)
    (hnested : ∀ key ∈ nestedKeys, PlainKeys (nested key ms)) (blob : Sbuf) (h : Heap) :
    ∃ out blob' h', queryStatusDecodeJson lib (some src) blob h = .ok (.ok, out, blob', h') ∧
      (out.Reports ms ↔ StatusComplete ms) := by
  obtain ⟨out, blob', h', hrun, hread⟩ := queryStatusDecodeJson_read lib hsrc hplain hnested blob h
  refine ⟨out, blob', h', hrun, ?_, ?_⟩
  · intro hout
    refine ⟨?_, ?_⟩
    · rcases eq_or_ne ms [] with hms | hms
      · exact .inl hms
      · have hretryable := hout.retryable
        rw [hread.retryable, boolField_reports_iff] at hretryable
        exact .inr ⟨(hread.fields.reports_iff.1 hout.fields).resolve_left hms,
          hretryable.resolve_left hms,
          hout.durableSet.1 (hread.durableSet.trans (by simpa using hms))⟩
    · simp only [nestedKeys, List.forall_mem_cons]
      exact ⟨hread.outcome.reports_iff.1 hout.outcome, hread.durable.reports_iff.1 hout.durable,
        fun _ hkey => absurd hkey List.not_mem_nil⟩
  · intro hms
    refine ⟨hread.fields.reports_iff.2 (hms.fields.imp_right (·.1)), ?_,
      hread.outcome.reports_iff.2 (hms.nested _ (by simp [nestedKeys])),
      hread.durable.reports_iff.2 (hms.nested _ (by simp [nestedKeys])), ?_⟩
    · exact hread.retryable ▸ boolField_reports_iff.2 (hms.fields.imp_right (·.2.1))
    · rw [hread.durableSet]
      rcases hms.fields with rfl | ⟨-, -, hdurable⟩
      · refine iff_of_false (by decide) ?_
        rintro ⟨_, hm, -⟩
        exact absurd hm List.not_mem_nil
      · refine iff_of_true ?_ hdurable
        obtain ⟨m, hm, -⟩ := hdurable
        cases ms with
        | nil => exact absurd hm List.not_mem_nil
        | cons m ms => rfl

/-- The members of the status of a query that has not committed anything. -/
def runningStatus : List (Member Json) :=
  [⟨Ws.none, ⟨ascii "status", by decide⟩, Ws.none, Ws.none, .str ⟨ascii "running", by decide⟩,
    Ws.none⟩]

theorem runningStatus_text :
    TextOf (.obj runningStatus Ws.none) (ascii "\x7b\"status\":\"running\"\x7d") := by
  obtain ⟨hkey, hbody⟩ : isStringBody (ascii "status") = true ∧
      isStringBody (ascii "running") = true := by decide +kernel
  refine ⟨.obj (fun m hm => ?_) fun m hm => ?_, Ws.none, Ws.none, by decide⟩
  · obtain rfl := List.mem_singleton.1 hm
    exact hkey
  · obtain rfl := List.mem_singleton.1 hm
    exact .str hbody

theorem runningStatus_plain : PlainKeys runningStatus := by
  intro m hm
  obtain rfl := List.mem_singleton.1 hm
  exact (by decide : Ascii.backslash ∉ ascii "status")

theorem runningStatus_nested (key : CStr) : nested key runningStatus = [] := by
  have hnone : ¬HasMember Json.isObj key.bytes runningStatus := by
    rintro ⟨m, hm, -, hobj⟩
    obtain rfl := List.mem_singleton.1 hm
    exact Bool.false_ne_true hobj
  rw [nested, field?_eq_none_iff.2 hnone]

/-- When the status of this query reports its members. -/
theorem runningStatus_reports_iff : ∃ out blob' h',
    queryStatusDecodeJson Libc.zero (some (ascii "\x7b\"status\":\"running\"\x7d")) Sbuf.empty
        Heap.unlimited = .ok (.ok, out, blob', h') ∧
      (out.Reports runningStatus ↔ StatusComplete runningStatus) :=
  queryStatusDecodeJson_reports_iff runningStatus_text runningStatus_plain
    (fun key _ _ hm => absurd (runningStatus_nested key ▸ hm) List.not_mem_nil) Sbuf.empty
    Heap.unlimited

/-- The status of this query does not: the server is said to have answered that
    nothing was committed, and to have sent a durable outcome. -/
theorem runningStatus_not_reported :
    TextOf (.obj runningStatus Ws.none) (ascii "\x7b\"status\":\"running\"\x7d") ∧
      PlainKeys runningStatus ∧ (∀ p key, key ≠ ascii "status" → ¬HasMember p key runningStatus) ∧
      (queryStatusDecodeJson Libc.zero (some (ascii "\x7b\"status\":\"running\"\x7d")) Sbuf.empty
        Heap.unlimited).map (fun (e, out, _) => (e, out.committed, out.lastCommitEpoch,
          out.durableSet)) =
        .ok (.ok, ⟨false, true⟩, ⟨0, true⟩, true) := by
  refine ⟨runningStatus_text, runningStatus_plain, fun p key hkey hpost => ?_,
    by decide +kernel⟩
  obtain ⟨m, hm, hname, -⟩ := hpost
  obtain rfl := List.mem_singleton.1 hm
  have hstatus : strVal? (ascii "status") = some (ascii "status") := by decide +kernel
  exact hkey (Option.some.inj (hname.symm.trans hstatus))

end MongrelDB
