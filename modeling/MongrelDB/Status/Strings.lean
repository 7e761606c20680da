import MongrelDB.Lookup.Safety
import MongrelDB.Serialize.Members
import MongrelDB.Status.Fields

/-!
# The strings of a status

The strings of a status are appended to one buffer, which moves as it grows, and are
found again by their offsets once it is stable. What is appended behind a string
leaves it where it is (`Kept.append`), so that each offset still leads to its string
in the end: a status has the strings of the response, and those of the objects in it
(`queryStatusDecodeJson_strings`).
-/

namespace MongrelDB

open Prog

/-! ## What the strings are -/

/-- The string in an object with these members, NULL if there is none. -/
def IsString (key : CStr) (ms : List (Member Json)) (s : Option CStr) : Prop :=
  match field? Json.isStr key.bytes ms with
  | none => s = none
  | some v => ∃ c, s = some c ∧ v.datum? = some (.str c.bytes)

/-- The strings of these members have no `\u` escapes but those of `0001` to `007f`. -/
def Readable (ms : List (Member Json)) : Prop :=
  ∀ m ∈ ms, ∀ t, m.val = .str t → (strVal? t.raw).isSome = true

/-- The strings of an outcome are those of these members. -/
structure DurableOutcome.Strings (out : DurableOutcome (Option CStr)) (ms : List (Member Json)) :
    Prop where
  lastCommitEpochText : IsString (.lit "last_commit_epoch_text") ms out.lastCommitEpochText
  serialization : IsString (.lit "serialization") ms out.serialization
  serializationState : IsString (.lit "serialization_state") ms out.serializationState
  terminalState : IsString (.lit "terminal_state") ms out.terminalState

/-- The strings of a status are those of the members of a response. -/
structure QueryStatus.Strings (out : QueryStatus) (ms : List (Member Json)) : Prop where
  queryId : IsString (.lit "query_id") ms out.queryId
  status : IsString (.lit "status") ms out.status
  state : IsString (.lit "state") ms out.state
  serverState : ∃ s, IsString (.lit "server_state") ms s ∧ out.serverState = s.or out.state
  terminalState : IsString (.lit "terminal_state") ms out.terminalState
  lastCommitEpochText : IsString (.lit "last_commit_epoch_text") ms out.lastCommitEpochText
  cancelOutcome : IsString (.lit "cancel_outcome") ms out.cancelOutcome
  cancellationReason : IsString (.lit "cancellation_reason") ms out.cancellationReason
  outcome : out.outcome.Strings (nested (.lit "outcome") ms)
  durable : out.durable.Strings (nested (.lit "durable") ms)

/-- The first of these strings that is neither NULL nor empty. -/
def firstGiven (ss : List (Option CStr)) : CStr := orEmpty (ss.find? isGiven).join

/-! ## The buffer -/

/-- The string at an offset of the buffer; without an offset, there is none. -/
def Kept (blob : Sbuf) : Option Nat → Option CStr → Prop :=
  Option.Rel fun off s => ∃ r, blob.data.drop off = s.bytes ++ 0 :: r

/-- A string is read at its offset. -/
theorem Kept.blobStrAt {blob : Sbuf} {off : Option Nat} {s : Option CStr} (h : Kept blob off s)
    (hcap : blob.data ≠ [] → blob.cap ≠ 0) : blobStrAt blob off = s := by
  cases h with
  | none => rfl
  | @some off s h =>
    obtain ⟨r, hdrop⟩ := h
    have hlt : off < blob.len := by
      by_contra hle
      rw [List.drop_eq_nil_of_le (not_lt.1 hle)] at hdrop
      simp at hdrop
    have hne : blob.data ≠ [] := List.ne_nil_of_length_pos (lt_of_le_of_lt (Nat.zero_le off) hlt)
    have hread : ¬(blob.cap = 0 ∨ blob.len ≤ off) := by
      rintro (h0 | hle)
      · exact hcap hne h0
      · omega
    rw [MongrelDB.blobStrAt, if_neg (by simpa using hread), hdrop]
    exact congrArg some (CStr.at_self s r)

/-- What is appended behind a string leaves it where it is. -/
theorem Kept.append {blob blob' : Sbuf} {off : Option Nat} {s : Option CStr} (h : Kept blob off s)
    {p : Bytes} (hdata : blob'.data = blob.data ++ p) : Kept blob' off s := by
  cases h with
  | none => exact .none
  | @some off s h =>
    obtain ⟨r, hdrop⟩ := h
    refine .some ⟨r ++ p, ?_⟩
    have hle : off ≤ blob.data.length := by
      by_contra hlt
      rw [List.drop_eq_nil_of_le (by omega)] at hdrop
      simp at hdrop
    rw [hdata, List.drop_append_of_le_length hle, hdrop, List.append_assoc, List.cons_append]

/-- The strings `xs` are kept, and there is room for `n` more of at most `L` bytes. -/
structure Holding (L n : Nat) (xs : List (Option Nat × Option CStr)) (s : BlobState) : Prop where
  heap : s.heap.Succeeds
  room : s.blob.len + n * (L + 1) < SIZE_MAX
  cap : s.blob.data ≠ [] → s.blob.cap ≠ 0
  kept : ∀ x ∈ xs, Kept s.blob x.1 x.2

/-- A string that is kept is read at its offset. -/
theorem Holding.isString {L n : Nat} {xs : List (Option Nat × Option CStr)} {s : BlobState}
    (h : Holding L n xs s) {key : CStr} {ms : List (Member Json)} {off : Option Nat}
    {v : Option CStr} (hx : (off, v) ∈ xs) (hv : IsString key ms v) :
    IsString key ms (blobStrAt s.blob off) := by
  rwa [(h.kept _ hx).blobStrAt h.cap]

theorem Holding.none {L n : Nat} {xs : List (Option Nat × Option CStr)} {s : BlobState}
    (h : Holding L (n + 1) xs s) : Holding L n ((.none, .none) :: xs) s where
  heap := h.heap
  room := by
    have := h.room
    rw [Nat.add_mul] at this
    omega
  cap := h.cap
  kept := List.forall_mem_cons.2 ⟨.none, h.kept⟩

/-! ## Steps -/

section

variable {src : Bytes} {key : CStr} {ms : List (Member Json)} {w : Ws} {s : BlobState}
  {R : Code → BlobState → Prop} {lib : Libc} {L n : Nat} {xs : List (Option Nat × Option CStr)}

/-- An append for which there is room. -/
theorem wp_appendBlob {p : Bytes} (hheap : s.heap.Succeeds)
    (hroom : s.blob.len + p.length < SIZE_MAX) :
    wp (appendBlob p) (fun ok s' => ok = true ∧ s'.heap.Succeeds ∧
      s'.blob.data = s.blob.data ++ p ∧ s'.blob.cap ≠ 0) R s := by
  obtain ⟨cap, h', he, hcap, hs'⟩ := s.blob.reserve_of_succeeds hheap hroom
  simp only [appendBlob, wp_bind, wp_get, wp_modify, wp_pure, Sbuf.append, he, if_true]
  exact ⟨trivial, hs', trivial, by omega⟩

/-- A string is kept, and a NUL behind it. -/
theorem wp_keep {t : CStr} (ht : t.bytes.length ≤ L) (hs : Holding L (n + 1) xs s) :
    wp (appendBlob t.bytes) (fun ok s₁ => ok = true ∧ wp (appendBlob [0])
      (fun ok s' => ok = true ∧ Holding L n ((some s.blob.len, some t) :: xs) s') R s₁) R s := by
  have hroom := hs.room
  rw [Nat.add_mul] at hroom
  refine wp_mono (wp_appendBlob (R := R) hs.heap (by omega)) (fun ok s₁ h₁ => ⟨h₁.1, ?_⟩)
    fun _ _ h => h
  obtain ⟨-, hheap, hdata, hcap⟩ := h₁
  have hlen : s₁.blob.len = s.blob.len + t.bytes.length := by
    rw [Sbuf.len, hdata, List.length_append]
  refine wp_mono (wp_appendBlob (R := R) hheap (by rw [hlen, List.length_singleton]; omega))
    (fun ok s' h => ?_) fun _ _ h => h
  obtain ⟨hok, hheap', hdata', hcap'⟩ := h
  refine ⟨hok, hheap', ?_, fun _ => hcap', ?_⟩
  · rw [Sbuf.len, hdata', List.length_append, List.length_singleton, ← Sbuf.len, hlen]
    omega
  · have hall : s'.blob.data = s.blob.data ++ (t.bytes ++ [0]) := by
      rw [hdata', hdata, List.append_assoc]
    refine List.forall_mem_cons.2 ⟨.some ⟨[], ?_⟩, fun x hx => (hs.kept x hx).append hall⟩
    rw [hall, List.drop_left]

/-- What `json_get_string` makes of an object whose strings it reads. -/
theorem jsonGetString_readable (key : CStr) (hsrc : TextOf (.obj ms w) src) (hplain : PlainKeys ms)
    (hms : Readable ms) {h : Heap} (hs : h.Succeeds) :
    ∃ found v h', jsonGetString src key h = .ok (found, v, h') ∧ h'.Succeeds ∧ IsString key ms v ∧
      (∀ t ∈ v, found = true ∧ t.bytes.length ≤ src.length) := by
  obtain ⟨found, v, hlen, hgranted⟩ := jsonGetString_granted src key
  obtain ⟨h', hget⟩ := hgranted h hs
  obtain ⟨hvalid, pre, post, rfl⟩ := hsrc
  have hobj := jsonGetString_obj ms key pre w post.bytes h
  rw [objText, ← field?_of_plain hplain, hget] at hobj
  simp only [IsString]
  -- Where no member is found, the lookup asks for no memory.
  cases hf : field? Json.isStr key.bytes ms with
  | none =>
    rw [hf] at hobj
    obtain ⟨rfl, rfl, rfl⟩ : found = _ ∧ v = none ∧ h' = h := by simpa using hobj
    exact ⟨_, none, h', hget, hs, rfl, fun t ht =>
      absurd ht (Option.some_ne_none t).symm⟩
  | some j =>
    obtain ⟨t, rfl⟩ := text_of_isStr (kind_of_field? hf)
    simp only [hf, Heap.request_of_succeeds hs, if_true] at hobj
    obtain ⟨rfl, rfl, rfl⟩ : found = true ∧ v = some (CStr.at (unescape t.raw ++ [0])) ∧
      h' = _ := by
      simpa using hobj
    obtain ⟨m, hm, hval⟩ := Option.map_eq_some_iff.1 hf
    obtain ⟨b, hb⟩ := Option.isSome_iff_exists.1 (hms m (List.mem_of_find?_eq_some hm) t hval)
    have hbody : isStringBody t.raw = true := by
      cases valid_of_field? (by cases hvalid; assumption) hf with
      | str h => exact h
    refine ⟨true, _, _, hget, hs, ⟨_, rfl, ?_⟩, fun t ht => ⟨rfl, hlen t ht⟩⟩
    rw [Json.datum?, hb, unescape_of_strVal? hb,
      CStr.at_append_nul (zero_notMem_of_strVal? hbody hb)]
    rfl

/-- A string of the object is kept, if there is one. -/
theorem wp_copy_keeps (hsrc : TextOf (.obj ms w) src) (hplain : PlainKeys ms) (hms : Readable ms)
    (hL : src.length ≤ L) (hs : Holding L (n + 1) xs s) :
    wp (jsonCopyStringFieldOff src key)
      (fun off s' => ∃ v, IsString key ms v ∧ Holding L n ((off, v) :: xs) s') R s := by
  obtain ⟨found, v, h', hget, hs', hv, hfound⟩ :=
    jsonGetString_readable key hsrc hplain hms hs.heap
  have hheap : Holding L (n + 1) xs { s with heap := h' } := ⟨hs', hs.room, hs.cap, hs.kept⟩
  simp only [jsonCopyStringFieldOff, wp_bind, wp_get, wp_modify]
  refine wp_lift hget ?_
  cases v with
  | none =>
    have hskip : wp (pure none : DecodeStatus (Option Nat))
        (fun off s' => ∃ v, IsString key ms v ∧ Holding L n ((off, v) :: xs) s') R
        { s with heap := h' } := ⟨none, hv, hheap.none⟩
    cases found <;> exact hskip
  | some t =>
    obtain ⟨rfl, hlen⟩ := hfound t rfl
    refine wp_seq (wp_keep (hlen.trans hL) hheap) fun ok s₁ hkept => ?_
    obtain ⟨rfl, hnul⟩ := hkept
    refine wp_seq hnul fun ok s₂ hkept => ?_
    obtain ⟨rfl, hkept⟩ := hkept
    exact ⟨some t, hv, hkept⟩

/-! ## Other fields -/

variable {P : BlobState → Prop}

/-- The other fields leave the buffer alone. -/
theorem wp_flagBool_keeps (hs : P s) : wp (flagBool src key) (fun _ s' => P s') R s := by
  obtain ⟨⟨found, b⟩, hget, -⟩ := jsonGetBool_ends src key
  simp only [flagBool, wp_bind]
  exact wp_lift hget hs

theorem wp_flagNumber_keeps {α : Type} [OfNat α 0] {conv : Int64 → α} (hs : P s) :
    wp (flagNumber lib conv src key) (fun _ s' => P s') R s := by
  obtain ⟨⟨found, d, n⟩, hget, -⟩ := jsonGetNumber_ends lib src key
  simp only [flagNumber, wp_bind]
  exact wp_lift hget hs

theorem wp_parseLastCommitHlc_keeps (hs : P s) :
    wp (parseLastCommitHlc lib src) (fun _ s' => P s') R s := by
  obtain ⟨⟨found, raw⟩, hget, -⟩ := jsonGetObjectRaw_ends src (.lit "last_commit_hlc")
  simp only [parseLastCommitHlc, wp_bind]
  refine wp_lift hget ?_
  cases found with
  | false => exact hs
  | true => exact wp_parseCommitHlc_keeps hs

/-! ## Objects -/

/-- The fields that tell what was committed have one string. -/
theorem wp_parseCommitFields_keeps (hsrc : TextOf (.obj ms w) src) (hplain : PlainKeys ms)
    (hms : Readable ms) (hL : src.length ≤ L) (hs : Holding L (n + 1) xs s) :
    wp (parseCommitFields lib src)
      (fun f s' => ∃ v, IsString (.lit "last_commit_epoch_text") ms v ∧
        Holding L n ((f.lastCommitEpochText, v) :: xs) s') R s := by
  refine wp_seq (wp_flagBool_keeps hs) fun _ _ hs => ?_
  refine wp_seq (wp_flagNumber_keeps hs) fun _ _ hs => ?_
  refine wp_seq (wp_flagNumber_keeps hs) fun _ _ hs => ?_
  refine wp_seq (wp_copy_keeps hsrc hplain hms hL hs) fun _ _ hpost => ?_
  obtain ⟨v, hv, hs⟩ := hpost
  refine wp_seq (wp_parseLastCommitHlc_keeps hs) fun _ _ hs => ?_
  refine wp_seq (wp_flagNumber_keeps hs) fun _ _ hs => ?_
  refine wp_seq (wp_flagNumber_keeps hs) fun _ _ hs => ?_
  refine wp_seq (wp_flagNumber_keeps hs) fun _ _ hs => ?_
  refine wp_seq (wp_flagNumber_keeps hs) fun _ _ hs => ?_
  exact ⟨v, hv, hs⟩

/-- The strings of an outcome are kept, behind those before. -/
def OutcomeKept (L n : Nat) (xs : List (Option Nat × Option CStr)) (ms : List (Member Json))
    (out : DurableOutcome (Option Nat)) (s : BlobState) : Prop :=
  ∃ text serialization state terminal,
    IsString (.lit "last_commit_epoch_text") ms text ∧
    IsString (.lit "serialization") ms serialization ∧
    IsString (.lit "serialization_state") ms state ∧ IsString (.lit "terminal_state") ms terminal ∧
    Holding L n ((out.terminalState, terminal) :: (out.serializationState, state) ::
      (out.serialization, serialization) :: (out.lastCommitEpochText, text) :: xs) s

/-- Without members, there are no strings. -/
theorem OutcomeKept.zero (hs : Holding L (n + 4) xs s) : OutcomeKept L n xs [] .zero s :=
  ⟨none, none, none, none, rfl, rfl, rfl, rfl, hs.none.none.none.none⟩

theorem wp_parseDurableOutcomeOffs_keeps (hsrc : TextOf (.obj ms w) src) (hplain : PlainKeys ms)
    (hms : Readable ms) (hL : src.length ≤ L) (hs : Holding L (n + 4) xs s) :
    wp (parseDurableOutcomeOffs lib (some src))
      (fun out s' => OutcomeKept L n xs ms out s') R s := by
  obtain ⟨c, r, rfl⟩ := hsrc.exists_cons
  refine wp_seq (wp_parseCommitFields_keeps hsrc hplain hms hL hs) fun _ _ hkept => ?_
  obtain ⟨text, ht, hs⟩ := hkept
  refine wp_seq (wp_copy_keeps hsrc hplain hms hL hs) fun _ _ hkept => ?_
  obtain ⟨serialization, h₁, hs⟩ := hkept
  refine wp_seq (wp_copy_keeps hsrc hplain hms hL hs) fun _ _ hkept => ?_
  obtain ⟨state, h₂, hs⟩ := hkept
  refine wp_seq (wp_copy_keeps hsrc hplain hms hL hs) fun _ _ hkept => ?_
  obtain ⟨terminal, h₃, hs⟩ := hkept
  exact ⟨text, serialization, state, terminal, ht, h₁, h₂, h₃, hs⟩

/-- What is read from the object `key`, if there is one. -/
theorem wp_parseNested_keeps (hsrc : TextOf (.obj ms w) src) (hplain : PlainKeys ms)
    (hnested : PlainKeys (nested key ms)) (hms : Readable (nested key ms)) (hL : src.length ≤ L)
    (hs : Holding L (n + 4) xs s) :
    wp (parseNested lib src key) (fun out s' => OutcomeKept L n xs (nested key ms) out.value s' ∧
      (out.set = false → out.value = .zero)) R s := by
  rw [parseNested, wp_bind]
  rcases jsonGetObjectRaw_nested key hsrc hplain with ⟨src', w', hget, hsrc'⟩ | ⟨hnone, hget⟩
  · have hshort : src'.length ≤ src.length := by
      obtain ⟨r, hr, hshort⟩ := jsonGetObjectRaw_short src key
      obtain rfl := Except.ok.inj (hget.symm.trans hr)
      exact hshort src' rfl
    refine wp_lift hget ?_
    exact wp_seq (wp_parseDurableOutcomeOffs_keeps hsrc' hnested hms (hshort.trans hL) hs)
      fun _ _ h => ⟨h, fun hset => absurd hset.symm Bool.false_ne_true⟩
  · refine wp_lift hget ?_
    rw [hnone]
    cases ms with
    | nil => exact ⟨.zero hs, fun _ => rfl⟩
    | cons m ms => exact ⟨.zero hs, fun hset => absurd hset.symm Bool.false_ne_true⟩

end

/-! ## The status -/

/-- The strings of an outcome that is not set are not there. -/
def QueryStatus.DurableUnset (out : QueryStatus) : Prop :=
  out.durableSet = false → out.durable.serializationState = none ∧ out.durable.serialization = none

/-- The accessor takes the first of the four strings that is given. -/
theorem queryStatusSerializationState_eq {out : QueryStatus} (h : out.DurableUnset) :
    queryStatusSerializationState (some out) = firstGiven [out.durable.serializationState,
      out.durable.serialization, out.outcome.serializationState, out.outcome.serialization] := by
  have hset : ∀ s, (s = out.durable.serializationState ∨ s = out.durable.serialization) →
      (out.durableSet && isGiven s) = isGiven s := by
    rintro s hs
    cases hd : out.durableSet with
    | true => rfl
    | false =>
      obtain ⟨hstate, hserialization⟩ := h hd
      rcases hs with rfl | rfl
      · rw [hstate]
        rfl
      · rw [hserialization]
        rfl
  simp only [queryStatusSerializationState, hset _ (.inl rfl), hset _ (.inr rfl), firstGiven,
    List.find?_cons]
  split_ifs with h₁ h₂ h₃ h₄ <;> simp [*, orEmpty]

/-- The strings of a decoded status are those of the response and of the objects in it,
    however often the buffer has grown. -/
theorem queryStatusDecodeJson_strings (lib : Libc) {src : Bytes} {ms : List (Member Json)} {w : Ws}
    (hsrc : TextOf (.obj ms w) src) (hplain : PlainKeys ms) (hms : Readable ms)
    (hnested : ∀ key ∈ nestedKeys, PlainKeys (nested key ms) ∧ Readable (nested key ms))
    (hsize : src.length ≤ MONGRELDB_MAX_RESPONSE_BYTES) (blob : Sbuf) {h : Heap} (hs : h.Succeeds) :
    ∃ out blob' h', queryStatusDecodeJson lib (some src) blob h = .ok (.ok, out, blob', h') ∧
      out.Strings ms ∧
      queryStatusSerializationState (some out) = firstGiven [out.durable.serializationState,
        out.durable.serialization, out.outcome.serializationState, out.outcome.serialization] := by
  have hbody : wp (queryStatusBody lib src) (fun out _ => out.Strings ms ∧ out.DurableUnset)
      (fun _ _ => False) ⟨blob, h⟩ := by
    simp only [nestedKeys, List.forall_mem_cons] at hnested
    obtain ⟨⟨hplain₁, hms₁⟩, ⟨hplain₂, hms₂⟩, -⟩ := hnested
    have hempty : Holding MONGRELDB_MAX_RESPONSE_BYTES 16 [] ⟨Sbuf.empty, h⟩ :=
      ⟨hs, (by decide : 0 + 16 * (MONGRELDB_MAX_RESPONSE_BYTES + 1) < SIZE_MAX),
        fun hne => absurd rfl hne, fun _ hx => absurd hx List.not_mem_nil⟩
    rw [queryStatusBody, wp_bind, wp_modify]
    refine wp_seq (wp_copy_keeps hsrc hplain hms hsize hempty) fun _ _ hkept => ?_
    obtain ⟨v₁, h₁, hs⟩ := hkept
    refine wp_seq (wp_copy_keeps hsrc hplain hms hsize hs) fun _ _ hkept => ?_
    obtain ⟨v₂, h₂, hs⟩ := hkept
    refine wp_seq (wp_copy_keeps hsrc hplain hms hsize hs) fun _ _ hkept => ?_
    obtain ⟨v₃, h₃, hs⟩ := hkept
    refine wp_seq (wp_copy_keeps hsrc hplain hms hsize hs) fun _ _ hkept => ?_
    obtain ⟨v₄, h₄, hs⟩ := hkept
    refine wp_seq (wp_copy_keeps hsrc hplain hms hsize hs) fun _ _ hkept => ?_
    obtain ⟨v₅, h₅, hs⟩ := hkept
    refine wp_seq (wp_parseCommitFields_keeps hsrc hplain hms hsize hs) fun _ _ hkept => ?_
    obtain ⟨v₆, h₆, hs⟩ := hkept
    refine wp_seq (wp_copy_keeps hsrc hplain hms hsize hs) fun _ _ hkept => ?_
    obtain ⟨v₇, h₇, hs⟩ := hkept
    refine wp_seq (wp_copy_keeps hsrc hplain hms hsize hs) fun _ _ hkept => ?_
    obtain ⟨v₈, h₈, hs⟩ := hkept
    refine wp_seq (wp_flagBool_keeps hs) fun _ _ hs => ?_
    refine wp_seq (wp_parseNested_keeps hsrc hplain hplain₁ hms₁ hsize hs)
      fun _ _ hkept => ?_
    obtain ⟨⟨a₁, a₂, a₃, a₄, ha₁, ha₂, ha₃, ha₄, hs⟩, -⟩ := hkept
    refine wp_seq (wp_parseNested_keeps hsrc hplain hplain₂ hms₂ hsize hs)
      fun durable s' hkept => ?_
    obtain ⟨⟨b₁, b₂, b₃, b₄, hb₁, hb₂, hb₃, hb₄, hs⟩, hunset⟩ := hkept
    rw [wp_bind, wp_get, wp_pure]
    refine ⟨⟨hs.isString (by simp) h₁, hs.isString (by simp) h₂, hs.isString (by simp) h₃,
      ⟨_, hs.isString (by simp) h₄, rfl⟩, hs.isString (by simp) h₅, hs.isString (by simp) h₆,
      hs.isString (by simp) h₇, hs.isString (by simp) h₈, ⟨?_, ?_, ?_, ?_⟩, ⟨?_, ?_, ?_, ?_⟩⟩,
      fun hset => ?_⟩
    · exact hs.isString (by simp) ha₁
    · exact hs.isString (by simp) ha₂
    · exact hs.isString (by simp) ha₃
    · exact hs.isString (by simp) ha₄
    · exact hs.isString (by simp) hb₁
    · exact hs.isString (by simp) hb₂
    · exact hs.isString (by simp) hb₃
    · exact hs.isString (by simp) hb₄
    · -- An outcome that is not set has no offsets.
      have hzero : durable.value = .zero := hunset hset
      exact ⟨by simp only [durableOutcomeResolve, hzero]; rfl,
        by simp only [durableOutcomeResolve, hzero]; rfl⟩
  obtain ⟨out, s, hrun, hstrings, hunset⟩ := exists_val_of_wp hbody
  exact ⟨out, s.blob, s.heap, by simp only [queryStatusDecodeJson, hrun], hstrings,
    queryStatusSerializationState_eq hunset⟩

/-- A status with a durable outcome. -/
def doneStatus : List (CStr × Item Json) :=
  [objMember (.lit "durable") [strMember (.lit "serialization") (.lit "ok")],
    strMember (.lit "state") (.lit "done")]

/-- The serialization of the outcome is that of the status. -/
theorem queryStatusDecodeJson_strings_done : ∃ out blob' h',
    queryStatusDecodeJson Libc.zero (some (Json.ofMembers doneStatus).text) Sbuf.empty
        Heap.unlimited = .ok (.ok, out, blob', h') ∧
      out.Strings (writtenMembers doneStatus) ∧
      queryStatusSerializationState (some out) = firstGiven [out.durable.serializationState,
        out.durable.serialization, out.outcome.serializationState, out.outcome.serialization] := by
  have htext : TextOf (.obj (writtenMembers doneStatus) Ws.none) (Json.ofMembers doneStatus).text :=
    ⟨Json.valid_ofMembers ((AllValid.nil.str _ _).obj _ (AllValid.nil.str _ _)), Ws.none, Ws.none,
      (List.append_nil _).symm⟩
  have hstr : ∀ (key s : CStr) (ms : List (CStr × Item Json)), Readable (writtenMembers ms) →
      Readable (writtenMembers (strMember key s :: ms)) := fun key s ms hms => by
    refine List.forall_mem_cons.2 ⟨fun t ht => ?_, hms⟩
    obtain rfl : strTok s = t := Json.str.inj ht
    exact Option.isSome_iff_exists.2 ⟨_, (escape_spec s.noNul).2⟩
  have hnil : Readable (writtenMembers []) := fun _ hm => absurd hm List.not_mem_nil
  have hrest : ∀ key, nested key (writtenMembers [strMember (.lit "state") (.lit "done")]) = [] :=
    fun key => by
      rw [nested, writtenMembers, List.map_singleton, field?_writtenMember,
        if_neg fun h => absurd h.2 (by decide)]
      rfl
  have hnested := fun key => nested_writtenMember key (.lit "durable")
    (writtenMembers [strMember (.lit "serialization") (.lit "ok")])
    (writtenMembers [strMember (.lit "state") (.lit "done")]) Ws.none
  have houtcome : nested (.lit "outcome") (writtenMembers doneStatus) = [] :=
    (hnested (.lit "outcome")).trans ((if_neg (by decide)).trans (hrest _))
  have hdurable : nested (.lit "durable") (writtenMembers doneStatus) =
      writtenMembers [strMember (.lit "serialization") (.lit "ok")] :=
    (hnested (.lit "durable")).trans (if_pos rfl)
  refine queryStatusDecodeJson_strings Libc.zero htext (by unfold PlainKeys; decide)
    (List.forall_mem_cons.2 ⟨fun t ht => Json.noConfusion ht, hstr _ _ _ hnil⟩) ?_ (by decide)
    Sbuf.empty Heap.unlimited_succeeds
  simp only [nestedKeys, List.forall_mem_cons, houtcome, hdurable]
  exact ⟨⟨fun _ hm => absurd hm List.not_mem_nil, hnil⟩,
    ⟨by unfold PlainKeys; decide, hstr _ _ _ hnil⟩, fun _ hm => absurd hm List.not_mem_nil⟩

end MongrelDB
