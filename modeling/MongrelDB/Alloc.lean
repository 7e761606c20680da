import MongrelDB.Lib.Block
import MongrelDB.Parser
import MongrelDB.Sbuf
import MongrelDB.Types

/-!
# Arrays and buffers that grow

What the functions of the client do with memory, one request after the other: a
run of requests from a heap on is granted (`Granted`), or one of them is refused
(`Refused`), and `After` says how far a run has come.

An array of slots is used up to what it holds (`IsArray`): a slot behind that may
only be written, and only within the allocation. What an append makes of a
string buffer is a function of the buffer (`Sbuf.push`), as is the number of
requests it takes (`Sbuf.asks`).
-/

namespace MongrelDB

/-! ## Requests -/

/-- Of the first `k` allocations from the heap `H` on, one is refused. -/
def Refused (H : Heap) (k : Nat) : Prop := ∃ i < k, H.grants (H.asked.length + i) = false

/-- Of the first `k` allocations from the heap `H` on, none is refused. -/
def Granted (H : Heap) (k : Nat) : Prop := ∀ i < k, H.grants (H.asked.length + i) = true

theorem Refused.mono {H : Heap} {k l : Nat} (h : Refused H k) (hkl : k ≤ l) : Refused H l := by
  obtain ⟨i, hi, hg⟩ := h
  exact ⟨i, by omega, hg⟩

theorem Granted.mono {H : Heap} {k l : Nat} (h : Granted H l) (hkl : k ≤ l) : Granted H k :=
  fun i hi => h i (by omega)

theorem Granted.not_refused {H : Heap} {k : Nat} (h : Granted H k) : ¬Refused H k := by
  rintro ⟨i, hi, hg⟩
  exact absurd ((h i hi).symm.trans hg) (by decide)

theorem Refused.not_succeeds {H : Heap} {k : Nat} (h : Refused H k) : ¬H.Succeeds := by
  obtain ⟨i, -, hg⟩ := h
  exact fun hs => absurd ((hs _).symm.trans hg) (by decide)

theorem Heap.Succeeds.granted {H : Heap} (h : H.Succeeds) (k : Nat) : Granted H k := fun _ _ => h _

/-- `h` is the heap `H` after `k` allocations, all of them granted. -/
structure After (H : Heap) (k : Nat) (h : Heap) : Prop where
  grants : h.grants = H.grants
  asked : h.asked.length = H.asked.length + k
  granted : Granted H k

theorem After.zero (H : Heap) : After H 0 H := ⟨rfl, rfl, fun i hi => absurd hi (Nat.not_lt_zero i)⟩

/-- One more request: it is granted, or refused. -/
theorem After.request {H h : Heap} {k : Nat} (ha : After H k h) (n : Nat) :
    ((h.request n).1 = true ∧ After H (k + 1) (h.request n).2) ∨
      ((h.request n).1 = false ∧ Refused H (k + 1)) := by
  have hreq : (h.request n).1 = H.grants (H.asked.length + k) := by
    rw [Heap.request, ha.grants, ha.asked]
  cases hg : H.grants (H.asked.length + k) with
  | false => exact .inr ⟨hreq.trans hg, k, Nat.lt_succ_self k, hg⟩
  | true =>
    refine .inl ⟨hreq.trans hg, ha.grants, ?_, fun i hi => ?_⟩
    · simp only [Heap.request, List.length_cons, ha.asked]
      omega
    · rcases Nat.lt_succ_iff_lt_or_eq.1 hi with hi | rfl
      · exact ha.granted i hi
      · exact hg

/-! ## Arrays -/

/-- A slot is written, if it is there. -/
def store {α : Type} (b : Block α) (i : Nat) (a : α) : Run (Block α) :=
  match b.set? i a with
  | some b => .ok b
  | none => .error .index

/-- A slot is read, if something was written to it. -/
def load {α : Type} (b : Block α) (i : Nat) : Run α :=
  match b.get? i with
  | some a => .ok a
  | none => .error .index

/-- An array holds `xs`, in an allocation of `cap` slots. -/
structure IsArray {α : Type} (b : Block α) (xs : List α) (cap : Nat) : Prop where
  holds : b.Holds xs
  length : b.length = cap

theorem isArray_nil {α : Type} : IsArray ([] : Block α) [] 0 := ⟨Block.holds_nil _, rfl⟩

theorem IsArray.length_le {α : Type} {b : Block α} {xs : List α} {cap : Nat}
    (h : IsArray b xs cap) :
    xs.length ≤ cap :=
  h.length ▸ h.holds.length_le

theorem IsArray.realloc {α : Type} {b : Block α} {xs : List α} {cap ncap : Nat}
    (h : IsArray b xs cap) (hcap : cap ≤ ncap) : IsArray (b.realloc ncap) xs ncap :=
  ⟨h.holds.realloc (h.length ▸ hcap), b.length_realloc ncap⟩

/-- A value is stored behind what an array holds. -/
theorem IsArray.push {α : Type} {b : Block α} {xs : List α} {cap : Nat} (h : IsArray b xs cap)
    (hlt : xs.length < cap) (a : α) :
    ∃ b', store b xs.length a = .ok b' ∧ IsArray b' (xs ++ [a]) cap := by
  obtain ⟨b', hb, hholds, hlen⟩ := h.holds.push (h.length ▸ hlt) a
  exact ⟨b', by rw [store, hb], hholds, hlen.trans h.length⟩

/-- The value stored last is stored again. -/
theorem IsArray.overwrite {α : Type} {b : Block α} {xs : List α} {cap : Nat} {a : α}
    (h : IsArray b (xs ++ [a]) cap) (a' : α) :
    ∃ b', store b xs.length a' = .ok b' ∧ IsArray b' (xs ++ [a']) cap := by
  obtain ⟨b', hb, hholds, hlen⟩ := h.holds.overwrite a'
  exact ⟨b', by rw [store, hb], hholds, hlen.trans h.length⟩

/-- What an array holds, but for the values behind it. -/
theorem IsArray.init {α : Type} {b : Block α} {xs ys : List α} {cap : Nat}
    (h : IsArray b (xs ++ ys) cap) : IsArray b xs cap :=
  ⟨.trans (List.map_append ▸ List.prefix_append _ _) h.holds, h.length⟩

theorem IsArray.load {α : Type} {b : Block α} {xs : List α} {cap : Nat} (h : IsArray b xs cap)
    {i : Nat} (hi : i < xs.length) : MongrelDB.load b i = .ok xs[i] := by
  rw [MongrelDB.load, h.holds.get? hi]

theorem IsArray.set {α : Type} {b : Block α} {xs : List α} {cap : Nat} (h : IsArray b xs cap)
    {i : Nat} (hi : i < xs.length) (a : α) :
    ∃ b', store b i a = .ok b' ∧ IsArray b' (xs.set i a) cap := by
  obtain ⟨b', hb, hholds, hlen⟩ := h.holds.set hi a
  exact ⟨b', by rw [store, hb], hholds, hlen.trans h.length⟩

/-! ## String buffers -/

namespace Sbuf

/-- The capacity of a buffer with room for `extra` bytes and a NUL. -/
def room (s : Sbuf) (extra : Nat) : Nat :=
  let need := s.len + extra + 1
  if need ≤ s.cap then s.cap else growCap need need (if s.cap ≠ 0 then s.cap else 64)

/-- The number of requests it takes to make this room. -/
def asks (s : Sbuf) (extra : Nat) : Nat := if s.len + extra + 1 ≤ s.cap then 0 else 1

/-- The buffer behind an append. -/
def push (s : Sbuf) (p : Bytes) : Sbuf := ⟨s.data ++ p, s.room p.length⟩

variable {H h : Heap} {k : Nat} {s : Sbuf}

/-- Room is made, or the request for it is refused. -/
theorem reserve_spec (ha : After H k h) (extra : Nat) :
    (∃ h', s.reserve extra h = (true, ⟨s.data, s.room extra⟩, h') ∧
        After H (k + s.asks extra) h') ∨
      ∃ h', s.reserve extra h = (false, s, h') ∧
        (s.len + extra < SIZE_MAX → Refused H (k + s.asks extra)) := by
  by_cases hwrap : extra > SIZE_MAX - 1 - s.len
  · exact .inr ⟨h, if_pos hwrap, fun hfit => by omega⟩
  by_cases hroom : s.len + extra + 1 ≤ s.cap
  · refine .inl ⟨h, ?_, ?_⟩
    · simp only [reserve, if_neg hwrap, if_pos hroom, room]
    · simpa only [asks, if_pos hroom, Nat.add_zero] using ha
  · simp only [reserve, if_neg hwrap, if_neg hroom, room, asks]
    generalize growCap _ _ _ = ncap
    rcases ha.request ncap with ⟨hg, ha'⟩ | ⟨hg, href⟩
    · exact .inl ⟨_, if_pos hg, ha'⟩
    · exact .inr ⟨_, if_neg (by simp [hg]), fun _ => href⟩

/-- The bytes are appended, or the request for room is refused. -/
theorem append_spec (ha : After H k h) (p : Bytes) :
    (∃ h', s.append p h = (true, s.push p, h') ∧ After H (k + s.asks p.length) h') ∨
      ∃ h', s.append p h = (false, s, h') ∧
        (s.len + p.length < SIZE_MAX → Refused H (k + s.asks p.length)) := by
  rcases reserve_spec ha p.length with ⟨h', he, ha'⟩ | ⟨h', he, href⟩
  · exact .inl ⟨h', by simp only [append, he, if_true, push], ha'⟩
  · exact .inr ⟨h', by simp [append, he], href⟩

end Sbuf

end MongrelDB
