import MongrelDB.Serialize.Text
import MongrelDB.Status.Fields

/-!
# Unsigned numbers

Epochs and times are unsigned numbers of 64 bits, and are read with `strtoll`, as
signed ones. They come back exactly as long as they fit in 63 bits, and as the
largest signed number otherwise (`unsigned_exact_iff`).
-/

namespace MongrelDB

open Ascii Prog

variable {key : CStr} {ms : List (Member Json)} {w : Ws} {src : Bytes}

/-- The number `key` of an object is `n`, in decimal. -/
def CarriesNat (key : CStr) (n : Nat) (ms : List (Member Json)) : Prop :=
  ∃ t : NumTok, field? Json.isNum key.bytes ms = some (.num t) ∧ intVal? t.text = some (n : Int)

theorem CarriesNat.numField {n : Nat} (h : CarriesNat key n ms) (hn : n < 2 ^ 64) :
    ∃ t, intVal? t = some (n : Int) ∧ ∀ {α : Type} [OfNat α 0] (conv : Int64 → α),
      numField conv key ms = ⟨conv (strtoll t), true⟩ := by
  obtain ⟨t, hf, ht⟩ := h
  have hlen : t.text.length ≤ 21 := length_le_of_natAbs_lt ht (by omega)
  have hclip : clipTok 64 t.text = t.text := clipTok_of_lt (by omega)
  refine ⟨t.text, ht, fun conv => ?_⟩
  rw [MongrelDB.numField, hf]
  simp only [Json.text, hclip]

/-- A number of 32 bits is read exactly. -/
theorem CarriesNat.numField_toUInt32 {n : UInt32} (h : CarriesNat key n.toNat ms) :
    (MongrelDB.numField id key ms).value.toUInt64.toUInt32 = n := by
  have hn := n.toNat_lt
  obtain ⟨t, ht, hread⟩ := h.numField (by omega)
  have hint : (strtoll t).toInt = n.toNat := strtoll_of_intVal? ht (by omega) (by omega)
  have hle : (0 : Int64) ≤ strtoll t := by
    rw [Int64.le_iff_toInt_le, hint]
    exact Int.natCast_nonneg _
  rw [hread, ← UInt32.toNat_inj, UInt64.toNat_toUInt32, id, Int64.toNat_toUInt64_of_le hle,
    Int64.toNatClampNeg, hint, Int.toNat_natCast]
  omega

/-- An epoch field holds the epoch exactly if that fits in 63 bits. -/
theorem CarriesNat.epoch_iff {n : UInt64} (h : CarriesNat key n.toNat ms) :
    MongrelDB.numField Int64.toUInt64 key ms = ⟨n, true⟩ ↔ n.toNat < 2 ^ 63 := by
  obtain ⟨t, ht, hread⟩ := h.numField n.toNat_lt
  rw [hread, Flagged.mk.injEq, and_iff_left rfl, toNat_strtoll_iff ht]

theorem CarriesNat.get (lib : Libc) {n : UInt64} (h : CarriesNat key n.toNat ms)
    (hsrc : TextOf (.obj ms w) src) (hplain : PlainKeys ms) :
    ∃ d t, intVal? t = some (n.toNat : Int) ∧
      jsonGetNumber lib src key = .ok (true, d, strtoll t) := by
  obtain ⟨d, hget⟩ := jsonGetNumber_field lib key hsrc hplain
  obtain ⟨t, ht, hread⟩ := h.numField n.toNat_lt
  rw [hread] at hget
  exact ⟨d, t, ht, hget⟩

theorem historyRetentionDecodeJson_iff (lib : Libc) {e r : UInt64}
    (hsrc : TextOf (.obj ms w) src) (hplain : PlainKeys ms)
    (he : CarriesNat (.lit "history_retention_epochs") e.toNat ms)
    (hr : CarriesNat (.lit "earliest_retained_epoch") r.toNat ms) :
    historyRetentionDecodeJson lib src = .ok (.ok, some ⟨e, r⟩) ↔
      e.toNat < 2 ^ 63 ∧ r.toNat < 2 ^ 63 := by
  obtain ⟨_, _, hte, hgete⟩ := he.get lib hsrc hplain
  obtain ⟨_, _, htr, hgetr⟩ := hr.get lib hsrc hplain
  simp only [historyRetentionDecodeJson, hgete, hgetr, Run.ok_bind, Bool.not_true,
    Bool.false_eq_true, if_false, Run.pure_eq, Except.ok.injEq, Prod.mk.injEq, true_and,
    Option.some.injEq, HistoryRetention.mk.injEq, toNat_strtoll_iff hte, toNat_strtoll_iff htr]

/-- A clock is decoded exactly if its time fits in 63 bits. -/
theorem hlcOf_iff {p : UInt64} {l t : UInt32}
    (hp : CarriesNat (.lit "physical_micros") p.toNat ms)
    (hl : CarriesNat (.lit "logical") l.toNat ms)
    (ht : CarriesNat (.lit "node_tiebreaker") t.toNat ms) :
    hlcOf ms = ⟨p, l, t, true⟩ ↔ p.toNat < 2 ^ 63 := by
  obtain ⟨_, htp, hread⟩ := hp.numField p.toNat_lt
  rw [hlcOf, hl.numField_toUInt32, ht.numField_toUInt32, hread]
  simp only [if_true, id, CommitHlc.mk.injEq, and_true, toNat_strtoll_iff htp]

/-! ## Objects of numbers -/

/-- The members with these numbers. -/
def natMembers (ns : List (CStr × Nat)) : List (Member Json) :=
  ns.map fun m => writtenMember m.1 (plainItem (.ofNat m.2))

theorem natMembers_eq (ns : List (CStr × Nat)) :
    Json.obj (natMembers ns) Ws.none = .ofMembers
      (ns.map fun m => (m.1, plainItem (.ofNat m.2))) := by
  rw [Json.ofMembers, List.map_map]
  rfl

theorem natMembers_valid (ns : List (CStr × Nat)) : (Json.obj (natMembers ns) Ws.none).Valid := by
  rw [natMembers_eq]
  refine Json.valid_ofMembers fun m hm => ?_
  obtain ⟨n, -, rfl⟩ := List.mem_map.1 hm
  exact Json.ofNat_valid n.2

theorem natMembers_plain {ns : List (CStr × Nat)} (h : ∀ n ∈ ns, backslash ∉ (strTok n.1).raw) :
    PlainKeys (natMembers ns) := by
  intro m hm
  obtain ⟨n, hn, rfl⟩ := List.mem_map.1 hm
  exact h n hn

theorem carriesNat_natMembers {ns : List (CStr × Nat)} {n : Nat} (h : ns.lookup key = some n) :
    CarriesNat key n (natMembers ns) := by
  induction ns with
  | nil => exact absurd h (by simp)
  | cons m ns ih =>
    obtain ⟨key', n'⟩ := m
    rw [CarriesNat, natMembers, List.map_cons, field?_writtenMember]
    by_cases hkey : key' = key
    · subst hkey
      obtain rfl : n' = n := by simpa using h
      exact ⟨_, if_pos ⟨rfl, rfl⟩, intVal?_natText _⟩
    · rw [if_neg fun hk => hkey hk.1]
      exact ih (by rwa [List.lookup_cons, beq_eq_false_iff_ne.2 (Ne.symm hkey)] at h)

/-- What `history_retention_set_body` writes is an object that carries the epochs. -/
theorem historyRetentionSetBody_carries {epochs : UInt64} {size : Nat} {text : Bytes}
    (h : historyRetentionSetBody epochs size = some text) :
    ∃ ms w, TextOf (.obj ms w) text ∧
      CarriesNat (.lit "history_retention_epochs") epochs.toNat ms := by
  refine ⟨natMembers [(.lit "history_retention_epochs", epochs.toNat)], Ws.none,
    ⟨natMembers_valid _, Ws.none, Ws.none, ?_⟩, carriesNat_natMembers (by simp)⟩
  have hlit : ascii "\x7b\"history_retention_epochs\":" =
      lbrace :: keyText (.lit "history_retention_epochs") := by decide
  rw [historyRetentionSetBody] at h
  split_ifs at h
  obtain rfl := Option.some.inj h
  rw [natMembers_eq, List.map_singleton, Json.text_ofMembers, hlit]
  simp [Ws.none, Json.ofNat, Json.ofNum, Json.text]

/-! ## Exactness -/

/-- Which unsigned numbers come back exactly: the epochs of the history retention,
    the last epoch committed by a query, and the time of a clock, as long as they
    fit in 63 bits. -/
theorem unsigned_exact_iff (lib : Libc) {ms : List (Member Json)} {w : Ws} {src : Bytes}
    (hsrc : TextOf (.obj ms w) src) (hplain : PlainKeys ms) :
    (∀ e r : UInt64, CarriesNat (.lit "history_retention_epochs") e.toNat ms →
      CarriesNat (.lit "earliest_retained_epoch") r.toNat ms →
      (historyRetentionDecodeJson lib src = .ok (.ok, some ⟨e, r⟩) ↔
        e.toNat < 2 ^ 63 ∧ r.toNat < 2 ^ 63)) ∧
    ((∀ key ∈ nestedKeys, PlainKeys (nested key ms)) → ∀ blob h, ∃ out blob' h',
      queryStatusDecodeJson lib (some src) blob h = .ok (.ok, out, blob', h') ∧ ∀ n : UInt64,
        (CarriesNat (.lit "last_commit_epoch") n.toNat ms →
          (out.lastCommitEpoch = ⟨n, true⟩ ↔ n.toNat < 2 ^ 63)) ∧
        (CarriesNat (.lit "last_commit_epoch") n.toNat (nested (.lit "outcome") ms) →
          (out.outcome.lastCommitEpoch = ⟨n, true⟩ ↔ n.toNat < 2 ^ 63)) ∧
        (CarriesNat (.lit "last_commit_epoch") n.toNat (nested (.lit "durable") ms) →
          (out.durable.lastCommitEpoch = ⟨n, true⟩ ↔ n.toNat < 2 ^ 63))) ∧
    ∀ (p : UInt64) (l t : UInt32), CarriesNat (.lit "physical_micros") p.toNat ms →
      CarriesNat (.lit "logical") l.toNat ms → CarriesNat (.lit "node_tiebreaker") t.toNat ms →
      ∀ s, ∃ hlc s', parseCommitHlc lib src s = .val hlc s' ∧
        (hlc = ⟨p, l, t, true⟩ ↔ p.toNat < 2 ^ 63) := by
  refine ⟨fun e r => historyRetentionDecodeJson_iff lib hsrc hplain, fun hnested blob h => ?_,
    fun p l t hp hl ht s => ?_⟩
  · obtain ⟨out, blob', h', hrun, hread⟩ :=
      queryStatusDecodeJson_read lib hsrc hplain hnested blob h
    refine ⟨out, blob', h', hrun, fun n => ⟨fun hn => ?_, fun hn => ?_, fun hn => ?_⟩⟩
    · rw [hread.fields.lastCommitEpoch, hn.epoch_iff]
    · rw [hread.outcome.lastCommitEpoch, hn.epoch_iff]
    · rw [hread.durable.lastCommitEpoch, hn.epoch_iff]
  · have hwp : wp (parseCommitHlc lib src) (fun hlc _ => hlc = hlcOf ms) (fun _ _ => False) s :=
      wp_parseCommitHlc hsrc hplain
    obtain ⟨hlc, s', hs, rfl⟩ := exists_val_of_wp hwp
    exact ⟨_, s', hs, hlcOf_iff hp hl ht⟩

/-- A response with each of these numbers. -/
def smallNumbers : List (CStr × Nat) :=
  [(.lit "history_retention_epochs", 100), (.lit "earliest_retained_epoch", 42),
    (.lit "last_commit_epoch", 7), (.lit "physical_micros", 1700000000000000), (.lit "logical", 3),
    (.lit "node_tiebreaker", 5)]

/-- These numbers come back exactly. -/
theorem smallNumbers_exact : ∃ src, TextOf (.obj (natMembers smallNumbers) Ws.none) src ∧
    historyRetentionDecodeJson Libc.zero src = .ok (.ok, some ⟨100, 42⟩) ∧
    (∃ out blob h, queryStatusDecodeJson Libc.zero (some src) Sbuf.empty Heap.unlimited =
      .ok (.ok, out, blob, h) ∧ out.lastCommitEpoch = ⟨7, true⟩) ∧
    ∃ s, parseCommitHlc Libc.zero src ⟨Sbuf.empty, Heap.unlimited⟩ =
      .val ⟨1700000000000000, 3, 5, true⟩ s := by
  have hsrc : TextOf (.obj (natMembers smallNumbers) Ws.none) _ :=
    ⟨natMembers_valid _, Ws.none, Ws.none, rfl⟩
  have hplain : PlainKeys (natMembers smallNumbers) := natMembers_plain (by decide)
  have hnested : ∀ key, PlainKeys (nested key (natMembers smallNumbers)) := fun key m hm => by
    have hnone : ¬HasMember Json.isObj key.bytes (natMembers smallNumbers) := by
      rintro ⟨m, hm, -, hobj⟩
      obtain ⟨n, -, rfl⟩ := List.mem_map.1 hm
      exact Bool.false_ne_true hobj
    rw [nested, field?_eq_none_iff.2 hnone] at hm
    exact absurd hm List.not_mem_nil
  obtain ⟨hretention, hstatus, hhlc⟩ := unsigned_exact_iff Libc.zero hsrc hplain
  obtain ⟨out, blob, h, hrun, hepoch⟩ :=
    hstatus (fun key _ => hnested key) Sbuf.empty Heap.unlimited
  obtain ⟨hlc, s, hs, hiff⟩ := hhlc 1700000000000000 3 5 (carriesNat_natMembers (by decide))
    (carriesNat_natMembers (by decide)) (carriesNat_natMembers (by decide)) _
  refine ⟨_, hsrc, ?_, ⟨out, blob, h, hrun, ?_⟩, s, ?_⟩
  · exact (hretention 100 42 (carriesNat_natMembers (by decide))
      (carriesNat_natMembers (by decide))).2 (by decide)
  · exact ((hepoch 7).1 (carriesNat_natMembers (by decide))).2 (by decide)
  · rw [hs, hiff.2 (by decide)]

/-- The largest number of epochs, to retain history forever, is halved on the way back. -/
theorem retainForever_clamped :
    historyRetentionSetBody 18446744073709551615 96 =
        some (ascii "\x7b\"history_retention_epochs\":18446744073709551615\x7d") ∧
      historyRetentionDecodeJson Libc.zero
        (ascii "\x7b\"history_retention_epochs\":18446744073709551615,\"earliest_retained_epoch\":1\x7d") =
        .ok (.ok, some ⟨9223372036854775807, 1⟩) := by
  decide +kernel

end MongrelDB
