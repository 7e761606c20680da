import MongrelDB.Client
import MongrelDB.Lib.Doubling
import MongrelDB.Serialize.Appends

/-!
# What buffers cost

A string buffer is never much larger than what is in it (`Sbuf.Tight`), and every request
for it at least doubles it. So the requests of a whole history of appends are few and small
(`Doubling`), however small the pieces are: for a text that is built
(`appendAll_amortized`), and for a response, in whichever parts it arrives
(`perform_amortized`).
-/

namespace MongrelDB

/-! ## One request -/

namespace Sbuf

section

variable {need n c : Nat}

/-- The doubling loop never ends below where it begins. -/
theorem start_le_growCap : c ≤ growCap need n c := by
  induction n generalizing c with
  | zero => exact Nat.le_refl c
  | succ n ih =>
    rw [growCap]
    split_ifs
    · omega
    · exact (Nat.le_mul_of_pos_right c Nat.two_pos).trans ih
    · exact Nat.le_refl c

/-- The doubling loop ends below twice what is needed. -/
theorem growCap_le (hneed : 2 * need ≤ SIZE_MAX) : growCap need n c ≤ max c (2 * need) := by
  induction n generalizing c with
  | zero => exact le_max_left _ _
  | succ n ih =>
    rw [growCap]
    split_ifs
    · omega
    · exact ih.trans (by omega)
    · exact le_max_left _ _

/-- If there is not enough, the doubling loop doubles. -/
theorem two_mul_le_growCap (hneed : 2 * need ≤ SIZE_MAX) (hn : n ≠ 0) (hlt : c < need) :
    2 * c ≤ growCap need n c := by
  obtain ⟨n, rfl⟩ := Nat.exists_eq_succ_of_ne_zero hn
  rw [growCap, if_pos hlt, if_neg (by omega), Nat.mul_comm]
  exact start_le_growCap

end

/-- The capacity is that of an empty buffer, or at least the first one, and it is at most the
    first one or twice what is in the buffer. -/
structure Tight (s : Sbuf) : Prop where
  least : s.cap = 0 ∨ 64 ≤ s.cap
  most : s.cap ≤ max 64 (2 * (s.len + 1))

theorem empty_tight : empty.Tight := ⟨.inl rfl, Nat.zero_le _⟩

/-- From one buffer and heap to another one, the buffer has been doubled by each request. -/
structure Grew (s : Sbuf) (H : Heap) (s' : Sbuf) (H' : Heap) : Prop where
  grants : H'.grants = H.grants
  tight : s'.Tight
  requests : ∃ ns, H'.asked = ns ++ H.asked ∧ Doubling 64 s.cap ns s'.cap

variable {s s' s'' : Sbuf} {H H' H'' : Heap} {p : Bytes}

theorem Grew.refl (ht : s.Tight) (H : Heap) : s.Grew H s H := ⟨rfl, ht, [], rfl, .nil⟩

theorem Grew.trans (h : s.Grew H s' H') (h' : s'.Grew H' s'' H'') : s.Grew H s'' H'' := by
  obtain ⟨ns, hns, hgrow⟩ := h.requests
  obtain ⟨ms, hms, hgrow'⟩ := h'.requests
  refine ⟨h'.grants.trans h.grants, h'.tight, ms ++ ns, ?_, hgrow.trans hgrow'⟩
  rw [hms, hns, List.append_assoc]

/-- An append makes one request at most, which doubles the buffer. -/
theorem append_grew (ht : s.Tight) (hs : H.Succeeds) (hfit : 2 * (s.len + p.length + 1) ≤ SIZE_MAX) :
    ∃ s' H', s.append p H = (true, s', H') ∧ s'.data = s.data ++ p ∧ s.Grew H s' H' := by
  have hmax : SIZE_MAX = 2 ^ 64 - 1 := rfl
  have hlen : (s.data ++ p).length = s.len + p.length := List.length_append
  by_cases hroom : s.len + p.length + 1 ≤ s.cap
  · refine ⟨⟨s.data ++ p, s.cap⟩, H, ?_, rfl, rfl, ⟨ht.least, ?_⟩, [], rfl, .nil⟩
    · rw [append, reserve, if_neg (by omega)]
      simp only [if_pos hroom, if_true]
    · have hmost := ht.most
      simp only [len, hlen] at hmost ⊢
      omega
  · -- The loop begins with the capacity, or with the first one.
    generalize hstart : (if s.cap ≠ 0 then s.cap else 64) = start
    have hstart64 : 64 ≤ start ∧ s.cap ≤ start ∧ (s.cap = 0 ∧ start = 64 ∨ s.cap = start) := by
      rcases ht.least with hzero | hleast
      · rw [if_neg (not_not.2 hzero)] at hstart
        omega
      · rw [if_pos (by omega)] at hstart
        omega
    generalize hneed : s.len + p.length + 1 = need at hroom hfit
    have hcap : start ≤ growCap need need start := start_le_growCap
    have hcap' := growCap_le (n := need) (c := start) hfit
    have hdouble : 2 * s.cap ≤ growCap need need start := by
      rcases hstart64.2.2 with ⟨hzero, -⟩ | hsame
      · omega
      · rw [hsame]
        exact two_mul_le_growCap hfit (by omega) (by omega)
    refine ⟨⟨s.data ++ p, growCap need need start⟩,
      { H with asked := growCap need need start :: H.asked }, ?_, rfl, rfl, ⟨.inr ?_, ?_⟩,
      [growCap need need start], rfl, Doubling.nil.cons (by omega) hdouble⟩
    · rw [append, reserve, if_neg (by omega)]
      simp only [hneed, if_neg hroom, hstart, Heap.request_of_succeeds hs, if_true]
    · exact hstart64.1.trans hcap
    · have hmost := ht.most
      simp only [len, hlen] at hmost hneed ⊢
      omega

/-- The cost of a history from an empty buffer on. -/
theorem Grew.cost (h : empty.Grew H s' H') :
    ∃ ns, H'.asked = ns ++ H.asked ∧ ns.sum ≤ 4 * s'.len + 128 ∧
      16 * 2 ^ ns.length ≤ s'.len + 33 := by
  obtain ⟨ns, hasked, hgrow⟩ := h.requests
  have hmost := h.tight.most
  have hsum := hgrow.sum_le
  have hpow := hgrow.pow_le
  exact ⟨ns, hasked, by omega, by omega⟩

/-! ## Histories -/

theorem appendAll_grew {ps : Appends} (ht : s.Tight) (hs : H.Succeeds)
    (hfit : 2 * (s.len + ps.flatten.length + 1) ≤ SIZE_MAX) :
    s.Grew H (s.appendAll H ps).1 (s.appendAll H ps).2 ∧
      (s.appendAll H ps).1.data = s.data ++ ps.flatten := by
  induction ps generalizing s H with
  | nil => exact ⟨.refl ht H, (List.append_nil _).symm⟩
  | cons p ps ih =>
    rw [List.flatten_cons, List.length_append] at hfit
    obtain ⟨s₁, H₁, happ, hdata, hgrew⟩ := append_grew (p := p) ht hs (by omega)
    have hlen : s₁.len = s.len + p.length := by rw [len, hdata, List.length_append]
    obtain ⟨hgrew', hdata'⟩ := ih hgrew.tight (fun n => (congrFun hgrew.grants n).trans (hs n))
      (by omega)
    rw [appendAll_cons, happ]
    refine ⟨hgrew.trans hgrew', ?_⟩
    rw [hdata', hdata, List.flatten_cons, List.append_assoc]

end Sbuf

variable {H : Heap}

/-- However small the pieces, the requests for a text that is built are few and small: their
    number is logarithmic in its length, and they sum up to a multiple of it. -/
theorem appendAll_amortized (hs : H.Succeeds) {ps : Appends}
    (hfit : 2 * (ps.flatten.length + 1) ≤ SIZE_MAX) :
    ∃ ns, (Sbuf.empty.appendAll H ps).2.asked = ns ++ H.asked ∧
      ns.sum ≤ 4 * ps.flatten.length + 128 ∧ 16 * 2 ^ ns.length ≤ ps.flatten.length + 33 := by
  have hroom : 2 * (Sbuf.empty.len + ps.flatten.length + 1) ≤ SIZE_MAX := by
    rwa [show Sbuf.empty.len = 0 from rfl, Nat.zero_add]
  obtain ⟨hgrew, hdata⟩ := Sbuf.appendAll_grew Sbuf.empty_tight hs hroom
  have hlen : (Sbuf.empty.appendAll H ps).1.len = ps.flatten.length :=
    congrArg List.length hdata
  rw [← hlen]
  exact hgrew.cost

/-- Three pieces. -/
theorem threePieces_amortized :
    ∃ ns, (Sbuf.empty.appendAll Heap.unlimited
        [ascii "[", ascii "0", ascii "]"]).2.asked = ns ++ Heap.unlimited.asked ∧
      ns.sum ≤ 4 * [ascii "[", ascii "0", ascii "]"].flatten.length + 128 ∧
      16 * 2 ^ ns.length ≤ [ascii "[", ascii "0", ascii "]"].flatten.length + 33 :=
  appendAll_amortized Heap.unlimited_succeeds (by decide)

theorem perform_grew {ans : Answer} {ps : List Bytes} {out : Sbuf} (ht : out.Tight)
    (hs : H.Succeeds) (hcap : out.len ≤ MONGRELDB_MAX_RESPONSE_BYTES) :
    out.Grew H (perform ans ps out H).2.1 (perform ans ps out H).2.2 := by
  have hmax : 2 * (MONGRELDB_MAX_RESPONSE_BYTES + 1) ≤ SIZE_MAX := by decide
  induction ps generalizing out H with
  | nil => exact .refl ht H
  | cons p ps ih =>
    rw [perform]
    rcases hwrite : writeCb p out H with ⟨n, out₁, H₁⟩
    rw [writeCb] at hwrite
    split_ifs at hwrite with hlimit
    · -- The part is rejected, and the transfer ends.
      obtain ⟨rfl, rfl, rfl⟩ := Prod.mk.inj hwrite |>.imp id Prod.mk.inj
      dsimp only
      split_ifs
      · exact .refl ht H
      · exact ih ht hs hcap
    · simp only [Bool.or_eq_true, decide_eq_true_eq, not_or, not_lt] at hlimit
      obtain ⟨s₁, H', happ, hdata, hgrew⟩ := Sbuf.append_grew (p := p) ht hs (by omega)
      rw [happ] at hwrite
      obtain ⟨rfl, rfl, rfl⟩ := Prod.mk.inj hwrite |>.imp id Prod.mk.inj
      have hlen : s₁.len = out.len + p.length := by
        rw [Sbuf.len, hdata, List.length_append]
      dsimp only
      rw [if_neg (not_not.2 rfl)]
      exact hgrew.trans (ih hgrew.tight (fun n => (congrFun hgrew.grants n).trans (hs n))
        (by omega))

/-- In whichever parts a response arrives, the requests for it are few and small. -/
theorem perform_amortized (hs : H.Succeeds) (ans : Answer) (ps : List Bytes) :
    ∃ ns, (perform ans ps Sbuf.empty H).2.2.asked = ns ++ H.asked ∧
      ns.sum ≤ 4 * (perform ans ps Sbuf.empty H).2.1.len + 128 ∧
      16 * 2 ^ ns.length ≤ (perform ans ps Sbuf.empty H).2.1.len + 33 :=
  (perform_grew Sbuf.empty_tight hs (Nat.zero_le _)).cost

/-- A response in two parts. -/
theorem twoParts_amortized :
    ∃ ns, (perform ⟨true, true, true, true, [], .ok, 200⟩ [ascii "[", ascii "]"] Sbuf.empty
        Heap.unlimited).2.2.asked = ns ++ Heap.unlimited.asked ∧
      ns.sum ≤ 4 * (perform ⟨true, true, true, true, [], .ok, 200⟩ [ascii "[", ascii "]"]
        Sbuf.empty Heap.unlimited).2.1.len + 128 ∧
      16 * 2 ^ ns.length ≤ (perform ⟨true, true, true, true, [], .ok, 200⟩
        [ascii "[", ascii "]"] Sbuf.empty Heap.unlimited).2.1.len + 33 :=
  perform_amortized Heap.unlimited_succeeds _ _

end MongrelDB
