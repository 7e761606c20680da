import MongrelDB.Client.Delivery

/-!
# Parts of a response

libcurl hands the body of a response to `write_cb` in parts, of sizes of its own
choice. What becomes of the body does not depend on them (`writeAll_chunks`): a
body within the limit is taken whole, and of a longer one some part is
rejected; the buffer never exceeds the limit.

Each call keeps the buffer within the limit and takes its part or leaves the
buffer alone (`writeCb_cases`); the rest is an induction on the parts.
-/

namespace MongrelDB

/-! ## The limit -/

/-- The test of `write_cb`, on the length of the buffer and that of the part. The
    signed limit is converted to the unsigned type of the lengths. -/
def limitTest (len n : UInt64) : Bool := len > 268435456 || n > 268435456 - len

/-- The subtraction of the test does not wrap. -/
theorem limitTest_eq (len n : UInt64) :
    limitTest len n = (len.toNat > MONGRELDB_MAX_RESPONSE_BYTES ||
      n.toNat > MONGRELDB_MAX_RESPONSE_BYTES - len.toNat : Bool) := by
  have hmax : (268435456 : UInt64).toNat = MONGRELDB_MAX_RESPONSE_BYTES := rfl
  by_cases hlen : len.toNat > MONGRELDB_MAX_RESPONSE_BYTES
  · have hlt : len > 268435456 := UInt64.lt_iff_toNat_lt.2 (hmax ▸ hlen)
    simp [limitTest, hlt, hlen]
  · have hle : len ≤ 268435456 := UInt64.le_iff_toNat_le.2 (hmax ▸ Nat.le_of_not_lt hlen)
    have hsub : (268435456 - len).toNat = MONGRELDB_MAX_RESPONSE_BYTES - len.toNat := by
      rw [UInt64.toNat_sub_of_le _ _ hle, hmax]
    have hgt : ¬len > 268435456 := fun h => hlen (hmax ▸ UInt64.lt_iff_toNat_lt.1 h)
    simp only [limitTest, hgt, hlen, decide_false, Bool.false_or, gt_iff_lt,
      UInt64.lt_iff_toNat_lt, hsub]

/-- `write_cb` rejects a part exactly by this test, for lengths of 64 bits. -/
theorem writeCb_limitTest (p : Bytes) (out : Sbuf) (h : Heap) (hp : p.length < 2 ^ 64)
    (hout : out.len < 2 ^ 64) :
    writeCb p out h =
      if limitTest (.ofNat out.len) (.ofNat p.length) then (0, out, h)
      else if (out.append p h).1 then (p.length, (out.append p h).2)
      else (0, (out.append p h).2) := by
  rw [limitTest_eq, UInt64.toNat_ofNat', UInt64.toNat_ofNat', Nat.mod_eq_of_lt hout,
    Nat.mod_eq_of_lt hp]
  rfl

/-! ## Calls -/

/-- A call of `write_cb`: the part it is given, what it returns, and the buffer it leaves. -/
structure WriteCall where
  chunk : Bytes
  taken : Nat
  out : Sbuf

/-- The call takes its whole part. -/
def WriteCall.Accepts (w : WriteCall) : Prop := w.taken = w.chunk.length

/-- The parts are handed over one after the other: the calls, and the buffer in the end. -/
def writeAll : List Bytes → Sbuf → Heap → List WriteCall × Sbuf
  | [], out, _ => ([], out)
  | p :: ps, out, h =>
    let (n, out, h) := writeCb p out h
    let (calls, last) := writeAll ps out h
    (⟨p, n, out⟩ :: calls, last)

variable {out : Sbuf} {h h' : Heap} {ps qs : List Bytes}

theorem Sbuf.len_append (out : Sbuf) (p : Bytes) (cap : Nat) :
    Sbuf.len ⟨out.data ++ p, cap⟩ = out.len + p.length := List.length_append

/-- What a call does, if allocation succeeds: it takes its part, or has no room for
    it within the limit and leaves the buffer alone. -/
theorem writeCb_cases (out : Sbuf) (p : Bytes) (hs : h.Succeeds) :
    (∃ cap h', writeCb p out h = (p.length, ⟨out.data ++ p, cap⟩, h') ∧ h'.Succeeds ∧
        out.len + p.length ≤ MONGRELDB_MAX_RESPONSE_BYTES) ∨
      writeCb p out h = (0, out, h) ∧ MONGRELDB_MAX_RESPONSE_BYTES < out.len + p.length := by
  by_cases hroom : out.len + p.length ≤ MONGRELDB_MAX_RESPONSE_BYTES
  · obtain ⟨cap, h', he, hs'⟩ := writeCb_succeeds p out hs hroom
    exact .inl ⟨cap, h', he, hs', hroom⟩
  · refine .inr ⟨?_, Nat.lt_of_not_le hroom⟩
    rw [writeCb, if_pos]
    simp only [Bool.or_eq_true, decide_eq_true_eq]
    omega

/-- The buffer stays within the limit. -/
theorem writeAll_bounded (ps : List Bytes) (hs : h.Succeeds)
    (hout : out.len ≤ MONGRELDB_MAX_RESPONSE_BYTES) :
    ∀ w ∈ (writeAll ps out h).1, w.out.len ≤ MONGRELDB_MAX_RESPONSE_BYTES := by
  induction ps generalizing out h with
  | nil => exact fun w hw => absurd hw List.not_mem_nil
  | cons p ps ih =>
    rcases writeCb_cases out p hs with ⟨cap, h', he, hs', hroom⟩ | ⟨he, -⟩
    · have hout' : Sbuf.len ⟨out.data ++ p, cap⟩ ≤ MONGRELDB_MAX_RESPONSE_BYTES := by
        rw [Sbuf.len_append]
        exact hroom
      simp only [writeAll, he, List.forall_mem_cons]
      exact ⟨hout', ih hs' hout'⟩
    · simp only [writeAll, he, List.forall_mem_cons]
      exact ⟨hout, ih hs hout⟩

/-- Parts that have room within the limit are all taken. -/
theorem writeAll_short (hs : h.Succeeds)
    (hroom : out.len + ps.flatten.length ≤ MONGRELDB_MAX_RESPONSE_BYTES) :
    (∀ w ∈ (writeAll ps out h).1, w.Accepts) ∧
      (writeAll ps out h).2.data = out.data ++ ps.flatten := by
  induction ps generalizing out h with
  | nil => exact ⟨fun w hw => absurd hw List.not_mem_nil, by simp [writeAll]⟩
  | cons p ps ih =>
    rw [List.flatten_cons, List.length_append] at hroom
    obtain ⟨cap, h', he, hs'⟩ := writeCb_succeeds p out hs (by omega)
    have hrest : Sbuf.len ⟨out.data ++ p, cap⟩ + ps.flatten.length ≤
        MONGRELDB_MAX_RESPONSE_BYTES := by
      rw [Sbuf.len_append]
      omega
    obtain ⟨haccept, hdata⟩ := ih hs' hrest
    simp only [writeAll, he, List.forall_mem_cons, List.flatten_cons]
    exact ⟨⟨rfl, haccept⟩, by rw [hdata, List.append_assoc]⟩

/-- If all parts are taken, they had room within the limit. -/
theorem writeAll_accepted (hs : h.Succeeds) (hout : out.len ≤ MONGRELDB_MAX_RESPONSE_BYTES)
    (haccept : ∀ w ∈ (writeAll ps out h).1, w.Accepts) :
    out.len + ps.flatten.length ≤ MONGRELDB_MAX_RESPONSE_BYTES := by
  induction ps generalizing out h with
  | nil => simpa using hout
  | cons p ps ih =>
    rw [List.flatten_cons, List.length_append]
    rcases writeCb_cases out p hs with ⟨cap, h', he, hs', hroom⟩ | ⟨he, hlong⟩
    · simp only [writeAll, he, List.forall_mem_cons] at haccept
      have hout' : Sbuf.len ⟨out.data ++ p, cap⟩ ≤ MONGRELDB_MAX_RESPONSE_BYTES := by
        rw [Sbuf.len_append]
        exact hroom
      have hrest := ih hs' hout' haccept.2
      rw [Sbuf.len_append] at hrest
      omega
    · -- A part that is rejected is not empty: it would have had room.
      simp only [writeAll, he, List.forall_mem_cons, WriteCall.Accepts] at haccept
      omega

/-! ## Bodies -/

/-- What becomes of a body: one within the limit is taken whole, of a longer one
    some part is rejected, and the buffer never exceeds the limit. -/
structure Received (body : Bytes) (calls : List WriteCall) (last : Sbuf) : Prop where
  short : body.length ≤ MONGRELDB_MAX_RESPONSE_BYTES →
    (∀ w ∈ calls, w.Accepts) ∧ last.data = body
  long : MONGRELDB_MAX_RESPONSE_BYTES < body.length → ∃ w ∈ calls, ¬w.Accepts
  bounded : ∀ w ∈ calls, w.out.len ≤ MONGRELDB_MAX_RESPONSE_BYTES

theorem writeAll_received (ps : List Bytes) (cap : Nat) (hs : h.Succeeds) :
    Received ps.flatten (writeAll ps ⟨[], cap⟩ h).1 (writeAll ps ⟨[], cap⟩ h).2 := by
  have hlen : Sbuf.len ⟨[], cap⟩ = 0 := rfl
  refine ⟨fun hshort => ?_, fun hlong => ?_, writeAll_bounded ps hs (by rw [hlen]; omega)⟩
  · exact writeAll_short hs (by rw [hlen]; omega)
  · by_contra hnone
    have haccept : ∀ w ∈ (writeAll ps ⟨[], cap⟩ h).1, w.Accepts := fun w hw => by
      by_contra hw'
      exact hnone ⟨w, hw, hw'⟩
    have hroom := writeAll_accepted hs (by rw [hlen]; omega) haccept
    rw [hlen] at hroom
    omega

/-- What becomes of a body does not depend on the parts it is handed over in. -/
theorem writeAll_chunks {body : Bytes} (hps : ps.flatten = body) (hqs : qs.flatten = body)
    (cap cap' : Nat) (hs : h.Succeeds) (hs' : h'.Succeeds) :
    Received body (writeAll ps ⟨[], cap⟩ h).1 (writeAll ps ⟨[], cap⟩ h).2 ∧
      Received body (writeAll qs ⟨[], cap'⟩ h').1 (writeAll qs ⟨[], cap'⟩ h').2 ∧
      ((∀ w ∈ (writeAll ps ⟨[], cap⟩ h).1, w.Accepts) ↔
        ∀ w ∈ (writeAll qs ⟨[], cap'⟩ h').1, w.Accepts) := by
  have hp : Received body _ _ := hps ▸ writeAll_received ps cap hs
  have hq : Received body _ _ := hqs ▸ writeAll_received qs cap' hs'
  refine ⟨hp, hq, ?_⟩
  by_cases hlen : body.length ≤ MONGRELDB_MAX_RESPONSE_BYTES
  · exact iff_of_true (hp.short hlen).1 (hq.short hlen).1
  · obtain ⟨w, hw, hwr⟩ := hp.long (Nat.lt_of_not_le hlen)
    obtain ⟨v, hv, hvr⟩ := hq.long (Nat.lt_of_not_le hlen)
    exact iff_of_false (fun hall => hwr (hall w hw)) fun hall => hvr (hall v hv)

/-- A body of two bytes, in three parts and in one. -/
theorem writeAll_chunks_two :
    (writeAll [ascii "a", [], ascii "b"] Sbuf.empty Heap.unlimited).2.data = ascii "ab" ∧
      (writeAll [ascii "ab"] Sbuf.empty Heap.unlimited).2.data = ascii "ab" := by
  have hthree : [ascii "a", [], ascii "b"].flatten = ascii "ab" := by decide
  have hone : [ascii "ab"].flatten = ascii "ab" := by decide
  have hbody := writeAll_chunks hthree hone 0 0 Heap.unlimited_succeeds Heap.unlimited_succeeds
  exact ⟨(hbody.1.short (by decide)).2, (hbody.2.1.short (by decide)).2⟩

/-- A transfer ends with what libcurl returns and the whole body in the buffer, or
    with a write error if the body exceeds the limit, in any parts. -/
theorem perform_chunks (ans : Answer) (ps : List Bytes) (hs : h.Succeeds)
    (hout : out.len ≤ MONGRELDB_MAX_RESPONSE_BYTES) :
    (out.len + ps.flatten.length ≤ MONGRELDB_MAX_RESPONSE_BYTES →
        (perform ans ps out h).1 = ans.result ∧
          (perform ans ps out h).2.1.data = out.data ++ ps.flatten) ∧
      (MONGRELDB_MAX_RESPONSE_BYTES < out.len + ps.flatten.length →
        (perform ans ps out h).1 = .writeError ∧
          (perform ans ps out h).2.1.len ≤ MONGRELDB_MAX_RESPONSE_BYTES) := by
  refine ⟨fun hshort => ?_, fun hlong => ?_⟩
  · obtain ⟨cap, h', he, -⟩ := perform_delivers ans ps out hs hshort
    rw [he]
    exact ⟨rfl, rfl⟩
  -- Some chunk is the first to go over the cap, and there the transfer ends.
  · induction ps generalizing out h with
    | nil =>
      rw [List.flatten_nil, List.length_nil] at hlong
      omega
    | cons p ps ih =>
      rw [List.flatten_cons, List.length_append] at hlong
      rcases writeCb_cases out p hs with ⟨cap, h', he, hs', hroom⟩ | ⟨he, hreject⟩
      · simp only [perform, he, ne_eq, not_true_eq_false, if_false]
        refine ih hs' ?_ ?_ <;> rw [Sbuf.len_append] <;> omega
      · have hpos : 0 ≠ p.length := by omega
        simp only [perform, he, ne_eq, hpos, not_false_eq_true, if_true, true_and]
        exact hout

end MongrelDB
