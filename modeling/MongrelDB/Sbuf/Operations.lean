import MongrelDB.Parser.Walk
import MongrelDB.Sbuf.Memory

/-!
# Operations on string buffers

The machine does what the model of the buffers says (`SbufOp.run_refines`), as
long as a buffer stays below `SIZE_MAX` bytes: nothing wraps, the loop ends, and
every write is within the capacity. Through any sequence of operations, with any
allocation refused, the buffer keeps the invariant `RawSbuf.Inv`: its length is
at most its capacity, which an in-place writer may use up (`sbuf_operation`).
-/

namespace MongrelDB

open Ascii

/-! ## The loop -/

/-- The doubling loop does not depend on its fuel, if that is enough. -/
theorem Sbuf.growCap_fuel {need : Nat} : ∀ {n m c : Nat}, need ≤ c * 2 ^ n → need ≤ c * 2 ^ m →
    Sbuf.growCap need n c = Sbuf.growCap need m c
  | 0, 0, _, _, _ => rfl
  | 0, m + 1, c, hn, _ => by
    rw [growCap, growCap, if_neg (by simpa using hn)]
  | n + 1, 0, c, _, hm => by
    rw [growCap, growCap, if_neg (by simpa using hm)]
  | n + 1, m + 1, c, hn, hm => by
    rw [growCap, growCap]
    split_ifs
    · rfl
    · exact growCap_fuel (by rw [pow_succ] at hn; linarith) (by rw [pow_succ] at hm; linarith)
    · rfl

/-- The loop on the machine ends, and computes what it does on numbers that do not wrap. -/
theorem growLoop_eq (need : UInt64) : ∀ {n : Nat} {c : UInt64}, need.toNat ≤ c.toNat * 2 ^ n →
    ∃ ncap, growLoop need (n + 1) c = .ok ncap ∧
      ncap.toNat = Sbuf.growCap need.toNat n c.toNat
  | 0, c, h => by
    have hle : ¬need > c := by
      rw [gt_iff_lt, UInt64.lt_iff_toNat_lt]
      simpa using h
    exact ⟨c, by rw [growLoop, if_neg hle]; rfl, by rw [Sbuf.growCap]⟩
  | n + 1, c, h => by
    have hhalf : c > sizeMax / 2 ↔ c.toNat > SIZE_MAX / 2 := by
      rw [gt_iff_lt, UInt64.lt_iff_toNat_lt]
      rfl
    rw [growLoop, Sbuf.growCap]
    simp only [gt_iff_lt, ← UInt64.lt_iff_toNat_lt (a := c), ← hhalf]
    split_ifs with hgt hc
    · exact ⟨need, rfl, rfl⟩
    · -- The capacity is at most half of `SIZE_MAX`.
      have hdouble : (c * 2).toNat = c.toNat * 2 := by
        rw [UInt64.toNat_mul, Nat.mod_eq_of_lt]
        · rfl
        · have := (not_congr hhalf).1 hc
          simp [SIZE_MAX] at this ⊢
          omega
      rw [← hdouble]
      exact growLoop_eq need (by rw [hdouble]; rw [pow_succ] at h; linarith)
    · exact ⟨c, rfl, rfl⟩

/-! ## The invariant -/

/-- The allocation has `cap` slots, the first `len` of which hold the contents. So
    the length is at most the capacity, and it may be the capacity. -/
structure RawSbuf.Inv (s : RawSbuf) (data : Bytes) : Prop where
  mem : IsArray s.mem data s.cap.toNat
  len : s.len.toNat = data.length

variable {s : RawSbuf} {data : Bytes}

theorem RawSbuf.Inv.len_le (hs : s.Inv data) : s.len ≤ s.cap := by
  rw [UInt64.le_iff_toNat_le, hs.len]
  exact hs.mem.length_le

theorem RawSbuf.init_inv : RawSbuf.init.Inv [] := ⟨isArray_nil, rfl⟩

/-- The arithmetic of `sbuf_reserve` is that of numbers that do not wrap, and its
    loop ends with enough. -/
structure RawSbuf.Exact (s : RawSbuf) (extra : UInt64) : Prop where
  guard : (sizeMax - 1 - s.len).toNat = SIZE_MAX - 1 - s.len.toNat
  need : ¬extra > sizeMax - 1 - s.len →
    (s.len + extra + 1).toNat = s.len.toNat + extra.toNat + 1
  loop : ¬extra > sizeMax - 1 - s.len →
    ∃ ncap, growLoop (s.len + extra + 1) 65 (if s.cap ≠ 0 then s.cap else 64) = .ok ncap ∧
      ncap.toNat = Sbuf.growCap (s.len.toNat + extra.toNat + 1) (s.len.toNat + extra.toNat + 1)
        (if s.cap.toNat ≠ 0 then s.cap.toNat else 64) ∧
      s.len.toNat + extra.toNat + 1 ≤ ncap.toNat

/-- The capacity is zero on the machine if it is as a number. -/
theorem toNat_start (c : UInt64) :
    (if c ≠ 0 then c else 64).toNat = if c.toNat ≠ 0 then c.toNat else 64 := by
  have hzero : c = 0 ↔ c.toNat = 0 := by
    rw [← UInt64.toNat_inj]
    rfl
  by_cases h : c = 0
  · rw [if_neg (not_not.2 h), if_neg (not_not.2 (hzero.1 h))]
    rfl
  · rw [if_pos h, if_pos fun h0 => h (hzero.2 h0)]

theorem RawSbuf.exact (hlt : s.len.toNat < SIZE_MAX) (extra : UInt64) : s.Exact extra := by
  have hmax : sizeMax.toNat = SIZE_MAX := rfl
  have hone : (1 : UInt64).toNat = 1 := rfl
  have hpred : (sizeMax - 1).toNat = SIZE_MAX - 1 := rfl
  have hguard : (sizeMax - 1 - s.len).toNat = SIZE_MAX - 1 - s.len.toNat := by
    rw [UInt64.toNat_sub_of_le _ _ (UInt64.le_iff_toNat_le.2 (by omega)), hpred]
  -- Behind the guard the sum does not wrap.
  have hneed : ¬extra > sizeMax - 1 - s.len →
      (s.len + extra + 1).toNat = s.len.toNat + extra.toNat + 1 := fun hfits => by
    rw [gt_iff_lt, UInt64.lt_iff_toNat_lt, hguard] at hfits
    have hsum : s.len.toNat + extra.toNat + 1 < 2 ^ 64 := by
      have : SIZE_MAX = 2 ^ 64 - 1 := rfl
      omega
    rw [UInt64.toNat_add, UInt64.toNat_add, hone,
      Nat.mod_eq_of_lt (show s.len.toNat + extra.toNat < 2 ^ 64 by omega), Nat.mod_eq_of_lt hsum]
  refine ⟨hguard, hneed, fun hfits => ?_⟩
  have hstart : (if s.cap.toNat ≠ 0 then s.cap.toNat else 64) ≠ 0 := by
    split_ifs with hc <;> [exact hc; decide]
  -- 64 doublings reach any length of 64 bits.
  have hfuel : ∀ {n : Nat}, (s.len + extra + 1).toNat ≤ 2 ^ n → (s.len + extra + 1).toNat ≤
      (if s.cap.toNat ≠ 0 then s.cap.toNat else 64) * 2 ^ n := fun {n} hn =>
    hn.trans (Nat.le_mul_of_pos_left _ (Nat.pos_of_ne_zero hstart))
  have h64 : (s.len + extra + 1).toNat ≤ 2 ^ 64 := (UInt64.toNat_lt _).le
  obtain ⟨ncap, hloop, hncap⟩ := growLoop_eq (s.len + extra + 1) (n := 64)
    (c := if s.cap ≠ 0 then s.cap else 64) (by rw [toNat_start]; exact hfuel h64)
  rw [toNat_start, Sbuf.growCap_fuel (hfuel h64) (hfuel Nat.lt_two_pow_self.le),
    hneed hfits] at hncap
  refine ⟨ncap, hloop, hncap, ?_⟩
  rw [hncap]
  exact Sbuf.need_le_growCap hstart

/-! ## Reserving -/

/-- `sbuf_reserve` does what the model says: it fails and leaves the buffer as it
    was, or there is room for `extra` bytes and a NUL. -/
theorem RawSbuf.reserve_refines (hs : s.Inv data) (hlt : data.length < SIZE_MAX) (extra : UInt64)
    (h : Heap) :
    ∃ ok s' h', s.reserve extra h = .ok (ok, s', h') ∧
      Sbuf.reserve ⟨data, s.cap.toNat⟩ extra.toNat h = (ok, ⟨data, s'.cap.toNat⟩, h') ∧
      s'.Inv data ∧ (ok = false → s' = s) ∧
      (ok = true → data.length + extra.toNat + 1 ≤ s'.cap.toNat) := by
  have hexact := RawSbuf.exact (hs.len ▸ hlt) extra
  have hlen : Sbuf.len ⟨data, s.cap.toNat⟩ = s.len.toNat := hs.len.symm
  have hguard : extra > sizeMax - 1 - s.len ↔ extra.toNat > SIZE_MAX - 1 - s.len.toNat := by
    rw [gt_iff_lt, UInt64.lt_iff_toNat_lt, hexact.guard]
  -- The sum would wrap, the text fits already, or the buffer grows.
  by_cases hwrap : extra > sizeMax - 1 - s.len
  · refine ⟨false, s, h, ?_, ?_, hs, fun _ => rfl, fun h => absurd h Bool.false_ne_true⟩
    · rw [RawSbuf.reserve, if_pos hwrap]
      rfl
    · rw [Sbuf.reserve, hlen, if_pos (hguard.1 hwrap)]
  have hneed := hexact.need hwrap
  by_cases hfits : s.len + extra + 1 ≤ s.cap
  · have hfits' := UInt64.le_iff_toNat_le.1 hfits
    rw [hneed] at hfits'
    refine ⟨true, s, h, ?_, ?_, hs, fun h => absurd h.symm Bool.false_ne_true,
      fun _ => hs.len ▸ hfits'⟩
    · simp only [RawSbuf.reserve, if_neg hwrap, if_pos hfits]
      rfl
    · simp only [Sbuf.reserve, hlen, if_neg (mt hguard.2 hwrap), if_pos hfits']
  have hfits' : ¬s.len.toNat + extra.toNat + 1 ≤ s.cap.toNat := fun hle =>
    hfits (UInt64.le_iff_toNat_le.2 (hneed ▸ hle))
  obtain ⟨ncap, hloop, hncap, hle⟩ := hexact.loop hwrap
  have hmachine : s.reserve extra h = .ok (if (h.request ncap.toNat).1 then
      (true, { s with mem := s.mem.realloc ncap.toNat, cap := ncap }, (h.request ncap.toNat).2)
      else (false, s, (h.request ncap.toNat).2)) := by
    simp only [RawSbuf.reserve, if_neg hwrap, if_neg hfits, hloop, Run.ok_bind, Run.pure_eq]
    cases (h.request ncap.toNat).1 <;> rfl
  have hmodel : Sbuf.reserve ⟨data, s.cap.toNat⟩ extra.toNat h = if (h.request ncap.toNat).1 then
      (true, ⟨data, ncap.toNat⟩, (h.request ncap.toNat).2)
      else (false, ⟨data, s.cap.toNat⟩, (h.request ncap.toNat).2) := by
    simp only [Sbuf.reserve, hlen, if_neg (mt hguard.2 hwrap), if_neg hfits', ← hncap]
  rw [hmachine, hmodel]
  cases (h.request ncap.toNat).1 with
  | true =>
    exact ⟨true, _, _, rfl, rfl, ⟨hs.mem.realloc (by omega), hs.len⟩,
      fun h => absurd h.symm Bool.false_ne_true, fun _ => hs.len ▸ hle⟩
  | false =>
    exact ⟨false, s, _, rfl, rfl, hs, fun _ => rfl, fun h => absurd h Bool.false_ne_true⟩

/-! ## Writing -/

variable {mem : Block UInt8} {cap : Nat}

/-- Bytes that have room are written behind what an allocation holds. -/
theorem IsArray.writeBytes (hmem : IsArray mem data cap) (bytes : Bytes)
    (hroom : data.length + bytes.length ≤ cap) :
    ∃ mem', writeBytes mem data.length bytes = .ok mem' ∧ IsArray mem' (data ++ bytes) cap := by
  induction bytes generalizing mem data with
  | nil => exact ⟨mem, rfl, by rwa [List.append_nil]⟩
  | cons c r ih =>
    rw [List.length_cons] at hroom
    obtain ⟨mem₁, hstore, hmem₁⟩ := hmem.push (by omega) c
    obtain ⟨mem₂, hrest, hmem₂⟩ := ih hmem₁ (by
      rw [List.length_append, List.length_singleton]
      omega)
    rw [List.length_append, List.length_singleton] at hrest
    refine ⟨mem₂, ?_, by rwa [List.append_assoc] at hmem₂⟩
    rw [MongrelDB.writeBytes, hstore, Run.ok_bind, hrest]

/-- What an allocation holds begins with what it holds in front of the rest. -/
theorem IsArray.of_append {xs ys : Bytes} (hmem : IsArray mem (xs ++ ys) cap) :
    IsArray mem xs cap := by
  refine ⟨?_, hmem.length⟩
  have hprefix := hmem.holds
  rw [Block.Holds, List.map_append] at hprefix
  exact (List.prefix_append _ _).trans hprefix

/-- The unescaping loop writes what it unescapes to, character by character. -/
theorem unescapeInto_eq (dst : Nat) (raw : Bytes) (o : Nat) (mem : Block UInt8) :
    unescapeInto dst raw o mem = do
      let mem ← writeBytes mem (dst + o) (unescape raw)
      return (o + (unescape raw).length, mem) := by
  -- One byte is written, and what is left of the text behind it.
  have hone : ∀ (c : UInt8) (r : Bytes) (o : Nat) (mem : Block UInt8),
      (∀ mem, unescapeInto dst r (o + 1) mem = do
        let mem ← writeBytes mem (dst + (o + 1)) (unescape r)
        return (o + 1 + (unescape r).length, mem)) →
      (do unescapeInto dst r (o + 1) (← store mem (dst + o) c)) = (do
        let mem ← writeBytes mem (dst + o) (c :: unescape r)
        return (o + (c :: unescape r).length, mem) : Run _) := fun c r o mem ih => by
    have hcount : o + (c :: unescape r).length = o + 1 + (unescape r).length := by
      rw [List.length_cons]
      omega
    rw [MongrelDB.writeBytes, hcount]
    cases store mem (dst + o) c with
    | error e => rfl
    | ok mem => exact ih mem
  -- The cases are those of `unescape`, some of which write nothing.
  induction raw using unescape.induct generalizing o mem with
  | case1 => rfl
  | case2 =>
    rw [unescapeInto.eq_def, unescape.eq_def]
    simp only [if_true, writeBytes]
    cases store mem (dst + o) backslash <;> rfl
  | case3 h₁ h₂ h₃ h₄ r cp hcp ih =>
    rw [unescapeInto.eq_def, unescape.eq_def]
    simp only [if_true, cp, hcp]
    exact hone _ r o mem fun mem => ih (o + 1) mem
  | case4 h₁ h₂ h₃ h₄ r cp hcp ih =>
    rw [unescapeInto.eq_def, unescape.eq_def]
    simp only [if_true, cp, hcp, if_false]
    exact ih o mem
  | case5 r hr ih =>
    rw [unescapeInto.eq_def, unescape.eq_def]
    simp only [if_true]
    exact ih o mem
  | case6 c r hc ih =>
    rw [unescapeInto.eq_def, unescape.eq_def]
    simp only [if_true, hc, if_false]
    exact hone _ r o mem fun mem => ih (o + 1) mem
  | case7 c r hc ih =>
    rw [unescapeInto.eq_def, unescape.eq_def]
    simp only [hc, if_false]
    exact hone _ r o mem fun mem => ih (o + 1) mem

/-- A text that has room, and a NUL behind it. -/
theorem IsArray.writeText (hmem : IsArray mem data cap) (text : Bytes)
    (hroom : data.length + text.length + 1 ≤ cap) :
    ∃ mem₁ mem₂, MongrelDB.writeBytes mem data.length text = .ok mem₁ ∧
      store mem₁ (data.length + text.length) 0 = .ok mem₂ ∧
      IsArray mem₂ (data ++ (text ++ [0])) cap := by
  obtain ⟨mem₁, hwrite, hmem₁⟩ := hmem.writeBytes text (by omega)
  obtain ⟨mem₂, hstore, hmem₂⟩ := hmem₁.push (by rw [List.length_append]; omega) 0
  rw [List.length_append] at hstore
  exact ⟨mem₁, mem₂, hwrite, hstore, by rwa [List.append_assoc] at hmem₂⟩

/-! ## Operations -/

/-- An unescaped string is no longer than its span. -/
theorem SbufOp.length_text_le (op : SbufOp) : op.text.length ≤ op.span.bytes.length := by
  cases op <;> first | exact unescape_length_le _ | exact Nat.le_refl _

theorem Span.toNat_size (p : Span) : p.size.toNat = p.bytes.length := by
  have hfits := p.fits
  rw [Span.size, UInt64.toNat_ofNat', Nat.mod_eq_of_lt]
  have : SIZE_MAX = 2 ^ 64 - 1 := rfl
  omega

/-- What an operation on the machine has done: it has failed and left the buffer
    as it was, or the contents have grown by what it keeps, with a NUL behind the
    text, all of it within the capacity. -/
structure SbufOp.Done (op : SbufOp) (s : RawSbuf) (data : Bytes) (ok : Bool) (s' : RawSbuf) :
    Prop where
  inv : s'.Inv (if ok then data ++ op.kept else data)
  failed : ok = false → s' = s
  written : ok = true → IsArray s'.mem (data ++ (op.text ++ [0])) s'.cap.toNat
  room : ok = true → data.length + op.span.bytes.length + 1 ≤ s'.cap.toNat

/-- A length that fits into a capacity does not wrap. -/
theorem toNat_add_of_le {a b c : UInt64} (h : a.toNat + b.toNat ≤ c.toNat) :
    (a + b).toNat = a.toNat + b.toNat := by
  rw [UInt64.toNat_add, Nat.mod_eq_of_lt (Nat.lt_of_le_of_lt h (UInt64.toNat_lt c))]

/-- The text `text` has been written into a buffer that had room reserved, and a
    NUL; the contents have grown by `kept`. -/
def Writes (data text kept : Bytes) (s : RawSbuf) (h : Heap) (x : Run (Bool × RawSbuf × Heap)) :
    Prop :=
  ∃ s', x = .ok (true, s', h) ∧ s'.Inv (data ++ kept) ∧ s'.cap = s.cap ∧
    IsArray s'.mem (data ++ (text ++ [0])) s'.cap.toNat

variable {s₁ : RawSbuf} {p : Span} {h h' : Heap}

theorem RawSbuf.append_writes (hs : s₁.Inv data)
    (hroom : data.length + p.bytes.length + 1 ≤ s₁.cap.toNat)
    (hreserve : s.reserve p.size h = .ok (true, s₁, h')) :
    Writes data p.bytes p.bytes s₁ h' (s.append p h) := by
  obtain ⟨mem₁, mem₂, hwrite, hstore, hmem⟩ := hs.mem.writeText p.bytes hroom
  have hlen : (s₁.len + p.size).toNat = data.length + p.bytes.length := by
    rw [toNat_add_of_le (c := s₁.cap) (by rw [hs.len, p.toNat_size]; omega), hs.len, p.toNat_size]
  refine ⟨⟨mem₂, s₁.len + p.size, s₁.cap⟩, ?_, ⟨?_, ?_⟩, rfl, hmem⟩
  · simp only [RawSbuf.append, hreserve, Run.ok_bind, Bool.not_true, Bool.false_eq_true, if_false,
      hs.len, hwrite, hlen, hstore, Run.pure_eq]
  · rw [← List.append_assoc] at hmem
    exact hmem.of_append
  · rw [hlen, List.length_append]

theorem RawSbuf.keepString_writes (hs : s₁.Inv data)
    (hroom : data.length + p.bytes.length + 1 ≤ s₁.cap.toNat)
    (hreserve : s.reserve p.size h = .ok (true, s₁, h')) :
    Writes data (unescape p.bytes) (unescape p.bytes ++ [0]) s₁ h' (s.keepString p h) := by
  have hle := unescape_length_le p.bytes
  obtain ⟨mem₁, mem₂, hwrite, hstore, hmem⟩ := hs.mem.writeText (unescape p.bytes) (by omega)
  have hloop : unescapeInto data.length p.bytes 0 s₁.mem =
      .ok ((unescape p.bytes).length, mem₁) := by
    rw [unescapeInto_eq, Nat.add_zero, hwrite, Run.ok_bind, Nat.zero_add]
    rfl
  have hcount : (UInt64.ofNat (unescape p.bytes).length + 1).toNat =
    (unescape p.bytes).length + 1 := by
    have hcap := UInt64.toNat_lt s₁.cap
    rw [UInt64.toNat_add, UInt64.toNat_ofNat', Nat.mod_eq_of_lt
      (show (unescape p.bytes).length < 2 ^ 64 by omega), show (1 : UInt64).toNat = 1 from rfl]
    exact Nat.mod_eq_of_lt (by omega)
  refine ⟨⟨mem₂, s₁.len + (.ofNat (unescape p.bytes).length + 1), s₁.cap⟩, ?_, ⟨hmem, ?_⟩,
    rfl, hmem⟩
  · simp only [RawSbuf.keepString, hreserve, Run.ok_bind, Bool.not_true, Bool.false_eq_true,
      if_false, hs.len, hloop, hstore, Run.pure_eq]
  · rw [toNat_add_of_le (c := s₁.cap) (by rw [hs.len, hcount]; omega), hs.len, hcount,
      List.length_append, List.length_append, List.length_singleton]

theorem RawSbuf.keepJson_writes (hs : s₁.Inv data)
    (hroom : data.length + p.bytes.length + 1 ≤ s₁.cap.toNat)
    (hreserve : s.reserve p.size h = .ok (true, s₁, h')) :
    Writes data p.bytes (p.bytes ++ [0]) s₁ h' (s.keepJson p h) := by
  obtain ⟨mem₁, mem₂, hwrite, hstore, hmem⟩ := hs.mem.writeText p.bytes hroom
  have hcount : (p.size + 1).toNat = p.bytes.length + 1 := by
    have hcap := UInt64.toNat_lt s₁.cap
    rw [UInt64.toNat_add, p.toNat_size, show (1 : UInt64).toNat = 1 from rfl]
    exact Nat.mod_eq_of_lt (by omega)
  refine ⟨⟨mem₂, s₁.len + (p.size + 1), s₁.cap⟩, ?_, ⟨hmem, ?_⟩, rfl, hmem⟩
  · simp only [RawSbuf.keepJson, hreserve, Run.ok_bind, Bool.not_true, Bool.false_eq_true,
      if_false, hs.len, hwrite, p.toNat_size, hstore, Run.pure_eq]
  · rw [toNat_add_of_le (c := s₁.cap) (by rw [hs.len, hcount]; omega), hs.len, hcount,
      List.length_append, List.length_append, List.length_singleton]

/-- If no room can be reserved, an operation fails with what the reservation leaves. -/
theorem SbufOp.run_failed (op : SbufOp)
    (hreserve : s.reserve op.span.size h = .ok (false, s₁, h')) :
    op.run s h = .ok (false, s₁, h') := by
  cases op with
  | append p => exact (congrArg (· >>= _) hreserve).trans rfl
  | appendStr str fits => exact (congrArg (· >>= _) hreserve).trans rfl
  | appendChar ch => exact (congrArg (· >>= _) hreserve).trans rfl
  | keepString p => exact (congrArg (· >>= _) hreserve).trans rfl
  | keepJson p => exact (congrArg (· >>= _) hreserve).trans rfl

/-- If room is reserved, an operation writes its text. -/
theorem SbufOp.run_writes (op : SbufOp) (hs : s₁.Inv data)
    (hroom : data.length + op.span.bytes.length + 1 ≤ s₁.cap.toNat)
    (hreserve : s.reserve op.span.size h = .ok (true, s₁, h')) :
    Writes data op.text op.kept s₁ h' (op.run s h) := by
  cases op with
  | append p => exact RawSbuf.append_writes hs hroom hreserve
  | appendStr str fits => exact RawSbuf.append_writes hs hroom hreserve
  | appendChar ch => exact RawSbuf.append_writes hs hroom hreserve
  | keepString p => exact RawSbuf.keepString_writes hs hroom hreserve
  | keepJson p => exact RawSbuf.keepJson_writes hs hroom hreserve

/-- The machine does what the model of the operation says. -/
theorem SbufOp.run_refines (op : SbufOp) (hs : s.Inv data) (hlt : data.length < SIZE_MAX)
    (h : Heap) :
    ∃ ok s' h', op.run s h = .ok (ok, s', h') ∧ op.Done s data ok s' ∧
      op.apply ⟨data, s.cap.toNat⟩ h =
        (ok, ⟨if ok then data ++ op.kept else data, s'.cap.toNat⟩, h') := by
  obtain ⟨ok, s₁, h', hreserve, hmodel, hs₁, hfailed, hroom⟩ :=
    s.reserve_refines hs hlt op.span.size h
  rw [op.span.toNat_size] at hmodel hroom
  cases ok with
  | false =>
    refine ⟨false, s₁, h', op.run_failed hreserve, ⟨hs₁, hfailed, nofun, nofun⟩, ?_⟩
    rw [SbufOp.apply, hmodel]
    rfl
  | true =>
    obtain ⟨s', hrun, hinv, hcap, hmem⟩ := op.run_writes hs₁ (hroom rfl) hreserve
    refine ⟨true, s', h', hrun, ⟨hinv, nofun, fun _ => hmem, fun _ => hcap ▸ hroom rfl⟩, ?_⟩
    rw [SbufOp.apply, hmodel, hcap]
    rfl

/-- An append on the machine does what the model of it says. -/
theorem SbufOp.apply_append (p : Span) (s : Sbuf) (h : Heap) :
    (SbufOp.append p).apply s h = s.append p.bytes h := rfl

/-- What `parse_scalar_into` makes of the buffer is what its in-place writers do. -/
theorem keepText_apply {op : SbufOp} {text : Bytes} (hkept : op.kept = text ++ [0])
    (hle : text.length ≤ op.span.bytes.length) (j : JsonParser) (tag : BlobPtr → Value)
    (blob : Sbuf) (h : Heap) :
    keepText j tag op.span.bytes.length text blob h = .ok (if (op.apply blob h).1 then
        ⟨j, tag (.early blob.len), (op.apply blob h).2.1, blob.len, (op.apply blob h).2.2⟩
      else ⟨{ j with ok := false }, .null, (op.apply blob h).2.1, NO_OFFSET,
      (op.apply blob h).2.2⟩) := by
  rcases blob.reserve_cases op.span.bytes.length h with ⟨cap, h', he, hcap, -⟩ | ⟨h', he, -⟩
  · simp only [keepText, SbufOp.apply, he, Bool.not_true, Bool.false_eq_true, if_false, if_true,
      Sbuf.fill_text hle hcap, hkept, Run.ok_bind, Run.pure_eq]
  · simp only [keepText, SbufOp.apply, he, Bool.not_false, if_true, Bool.false_eq_true, if_false,
      Run.pure_eq]

/-! ## Sequences of operations -/

/-- The buffers operations lead to from an empty one, with their contents. Each of
    the operations may fail, for want of memory. -/
inductive RawSbuf.Reached (H : Heap) : Bytes → RawSbuf → Heap → Prop
  | init : Reached H [] .init H
  | step {data : Bytes} {s s' : RawSbuf} {h h' : Heap} {ok : Bool} (op : SbufOp)
      (before : Reached H data s h) (below : data.length < SIZE_MAX)
      (run : op.run s h = .ok (ok, s', h')) :
      Reached H (if ok then data ++ op.kept else data) s' h'

/-- Every buffer that is reached satisfies the invariant. -/
theorem RawSbuf.Reached.inv {H : Heap} (hr : RawSbuf.Reached H data s h) : s.Inv data := by
  induction hr with
  | init => exact RawSbuf.init_inv
  | step op before below run ih =>
    obtain ⟨ok', s'', h'', hrun, hdone, -⟩ := op.run_refines ih below _
    obtain ⟨rfl, rfl, rfl⟩ : ok' = _ ∧ s'' = _ ∧ h'' = _ := by simpa using hrun.symm.trans run
    exact hdone.inv

/-- After any sequence of operations, with any allocation refused, the length is at
    most the capacity. As long as the buffer is below `SIZE_MAX` bytes, the next
    operation reserves room without wrapping, in a loop that ends, and runs
    without a fault, which a write outside the allocation would be: it fails and
    leaves the buffer as it was, or writes its text behind the contents, and a
    NUL, in no more than the bytes it is given and one more, all within the
    capacity. -/
theorem sbuf_operation {H : Heap} (hr : RawSbuf.Reached H data s h) (hlt : data.length < SIZE_MAX)
    (op : SbufOp) :
    s.len ≤ s.cap ∧ s.Exact op.span.size ∧ op.text.length ≤ op.span.bytes.length ∧
      ∃ ok s' h', op.run s h = .ok (ok, s', h') ∧ op.Done s data ok s' ∧ s'.len ≤ s'.cap := by
  have hs := hr.inv
  obtain ⟨ok, s', h', hrun, hdone, -⟩ := op.run_refines hs hlt h
  exact ⟨hs.len_le, RawSbuf.exact (hs.len ▸ hlt) _, op.length_text_le, ok, s', h', hrun, hdone,
    hdone.inv.len_le⟩

/-- A string that is kept in a fresh buffer uses up all of its capacity. -/
def fillingString : SbufOp := .keepString ⟨List.replicate 63 97, by decide⟩

theorem fillingString_reached : ∃ s h, RawSbuf.Reached Heap.unlimited fillingString.kept s h ∧
    s.len.toNat = 64 ∧ s.cap.toNat = 64 := by
  obtain ⟨ok, s, h, hrun, hdone, hmodel⟩ :=
    fillingString.run_refines RawSbuf.init_inv (by decide) Heap.unlimited
  have happly : (fillingString.apply ⟨[], 0⟩ Heap.unlimited).1 = true ∧
      (fillingString.apply ⟨[], 0⟩ Heap.unlimited).2.1.cap = 64 := by decide
  have hmodel' : fillingString.apply ⟨[], 0⟩ Heap.unlimited =
    (ok, ⟨if ok then [] ++ fillingString.kept else [], s.cap.toNat⟩, h) := hmodel
  rw [hmodel'] at happly
  obtain ⟨rfl, hcap⟩ := happly
  have hlen : s.len.toNat = fillingString.kept.length := hdone.inv.len
  exact ⟨s, h, .step fillingString .init (by decide) hrun, hlen.trans (by decide), hcap⟩

/-- Behind a string that has used up the capacity, a character is appended. -/
theorem sbuf_operation_filled : ∃ s h, RawSbuf.Reached Heap.unlimited fillingString.kept s h ∧
    s.len.toNat = 64 ∧ s.cap.toNat = 64 ∧
    ∃ ok s' h', (SbufOp.appendChar 98).run s h = .ok (ok, s', h') ∧
      SbufOp.Done (.appendChar 98) s fillingString.kept ok s' ∧ s'.len ≤ s'.cap := by
  obtain ⟨s, h, hreached, hlen, hcap⟩ := fillingString_reached
  exact ⟨s, h, hreached, hlen, hcap, (sbuf_operation hreached (by decide) (.appendChar 98)).2.2.2⟩

end MongrelDB
